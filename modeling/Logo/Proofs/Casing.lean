import Logo.Text.Casing

/-!
# Small letters stay small

Names are kept in small letters, and much of the interpreter puts a name into small letters that has
been put into them before. That changes nothing more: no small form of a character has a small form
other than itself. For the ASCII letters this is plain; for the others it is a property of the case
tables, which is checked run against run.
-/

namespace Logo.Text

/-! ## The tables -/

/-- The run maps none of the code points between two bounds that lie `stride` apart: it lies outside
the bounds, or it passes over every one of them. -/
def CaseRun.skips (low high stride : Nat) (run : CaseRun) : Bool :=
  Nat.blt high run.first || Nat.blt run.last low ||
    (Nat.beq run.stride 2 && (Nat.beq stride 2 || Nat.beq low high) &&
      !Nat.beq (low % 2) (run.first % 2))

def CaseRun.settles (others : List CaseRun) (run : CaseRun) : Bool :=
  decide (0 ≤ run.first + run.shift) &&
    others.all (CaseRun.skips (run.first + run.shift).toNat (run.last + run.shift).toNat run.stride)

def sequenceRuns : List CaseRun :=
  lowerSequences.map fun entry => ⟨entry.1, entry.1, 1, 0⟩

theorem lowerRuns_settle :
    lowerRuns.all (CaseRun.settles (lowerRuns ++ sequenceRuns)) = true := by
  decide +kernel

theorem CaseRun.map?_eq_none_of_skips {run other : CaseRun} {code small : Nat}
    (hstart : 0 ≤ run.first + run.shift)
    (hskips : other.skips (run.first + run.shift).toNat (run.last + run.shift).toNat run.stride)
    (hmap : run.map? code = some small) : other.map? small = none := by
  rw [CaseRun.map?] at hmap ⊢
  split at hmap
  · rename_i hcode
    obtain ⟨hfirst, hlast, hstride⟩ := hcode
    cases hmap
    rw [if_neg]
    rintro ⟨hotherFirst, hotherLast, hotherStride⟩
    simp only [CaseRun.skips, Bool.or_eq_true, Bool.and_eq_true, Bool.not_eq_true',
      ← Bool.not_eq_true, Nat.blt_eq, Nat.beq_eq] at hskips
    rcases hskips with (hhigh | hlow) | ⟨⟨hotherTwo, htwo | hsingle⟩, hparity⟩
    · omega
    · omega
    · rw [htwo] at hstride
      rw [hotherTwo] at hotherStride
      omega
    · rw [hotherTwo] at hotherStride
      omega
  · cases hmap

/-- No run has a counterpart for what is a counterpart itself. -/
theorem map?_eq_none_of_map? {run : CaseRun} {code small : Nat} (hrun : run ∈ lowerRuns)
    (hmap : run.map? code = some small) :
    ∀ other ∈ lowerRuns ++ sequenceRuns, other.map? small = none := by
  have hsettles := List.all_eq_true.mp lowerRuns_settle run hrun
  rw [CaseRun.settles, Bool.and_eq_true, decide_eq_true_eq] at hsettles
  intro other hother
  exact CaseRun.map?_eq_none_of_skips hsettles.1
    (List.all_eq_true.mp hsettles.2 other hother) hmap

/-! ## Characters -/

/-- A character that is its own small form, wherever it stands. -/
def IsSmall (c : Char) : Prop :=
  lowerChar c = [c] ∧ c ≠ 'Σ'

instance (c : Char) : Decidable (IsSmall c) :=
  inferInstanceAs (Decidable (_ ∧ _))

/-- A character that no table maps is its own small form. -/
theorem isSmall_of_map?_eq_none {c : Char}
    (hnone : ∀ run ∈ lowerRuns ++ sequenceRuns, run.map? c.toNat = none) : IsSmall c := by
  have hrun : lowerRuns.findSome? (·.map? c.toNat) = none := by
    rw [List.findSome?_eq_none_iff]
    exact fun run hrun => hnone run (List.mem_append_left _ hrun)
  constructor
  · rw [lowerChar]
    split
    · have hcapital : ¬ (c.val ≥ 'A'.val ∧ c.val ≤ 'Z'.val) := by
        intro hcapital
        have hmapped := hnone ⟨0x41, 0x5A, 1, 32⟩ (List.mem_append_left _ List.mem_cons_self)
        have hbounds : 0x41 ≤ c.toNat ∧ c.toNat ≤ 0x5A := by
          simp only [ge_iff_le, UInt32.le_iff_toNat_le] at hcapital
          exact hcapital
        simp [CaseRun.map?, hbounds, Nat.mod_one] at hmapped
      exact congrArg ([·]) (dif_neg hcapital)
    · have hsequence : lowerSequences.lookup c.toNat = none := by
        rw [List.lookup_eq_none_iff]
        intro entry hentry
        have hskipped := hnone ⟨entry.1, entry.1, 1, 0⟩
          (List.mem_append_right _ (List.mem_map_of_mem hentry))
        rw [bne_iff_ne]
        intro hequal
        simp [CaseRun.map?, hequal] at hskipped
      rw [mapCase, hsequence, hrun]
  · rintro rfl
    exact absurd hrun (by decide)

/-- What no run maps is small. -/
theorem isSmall_ofNat {code : Nat}
    (hnone : ∀ run ∈ lowerRuns ++ sequenceRuns, run.map? code = none) :
    IsSmall (Char.ofNat code) := by
  by_cases hvalid : code.isValidChar
  · apply isSmall_of_map?_eq_none
    have hcode : (Char.ofNat code).toNat = code := by
      rw [Char.ofNat, dif_pos hvalid]
      rfl
    rw [hcode]
    exact hnone
  · have hzero : Char.ofNat code = Char.ofNat 0 := by
      rw [Char.ofNat, dif_neg hvalid]
      rfl
    rw [hzero]
    decide

/-- Every character of a small form is its own small form. -/
theorem isSmall_of_mem_lowerChar {c small : Char} (hc : c ≠ 'Σ') (hsmall : small ∈ lowerChar c) :
    IsSmall small := by
  by_cases hascii : c.toNat < 0x80
  · rw [lowerChar, if_pos hascii, List.mem_singleton] at hsmall
    have hall : ∀ code < 0x80, IsSmall (Char.ofNat code).toLower := by decide +kernel
    have hcode := hall c.toNat hascii
    rw [Char.ofNat_toNat, ← hsmall] at hcode
    exact hcode
  · rw [lowerChar, if_neg hascii, mapCase] at hsmall
    cases hsequence : lowerSequences.lookup c.toNat with
    | some codes =>
      rw [hsequence] at hsmall
      obtain ⟨before, after, hentries, _⟩ := List.lookup_eq_some_iff.mp hsequence
      have hentry : (c.toNat, codes) ∈ lowerSequences := by
        rw [hentries]
        exact List.mem_append_right _ List.mem_cons_self
      have hall : ∀ entry ∈ lowerSequences, ∀ code ∈ entry.2, IsSmall (Char.ofNat code) := by
        decide
      obtain ⟨code, hcode, rfl⟩ := List.mem_map.mp hsmall
      exact hall (c.toNat, codes) hentry code hcode
    | none =>
      rw [hsequence] at hsmall
      cases hfound : lowerRuns.findSome? (·.map? c.toNat) with
      | some code =>
        rw [hfound, List.mem_singleton] at hsmall
        subst small
        obtain ⟨run, hrun, hmap⟩ := List.exists_of_findSome?_eq_some hfound
        exact isSmall_ofNat (map?_eq_none_of_map? hrun hmap)
      | none =>
        rw [hfound, List.mem_singleton] at hsmall
        subst small
        exact ⟨by rw [lowerChar, if_neg hascii, mapCase, hsequence, hfound], hc⟩

/-! ## Texts -/

theorem lowerFrom_eq_self {chars : List Char} (hsmall : ∀ c ∈ chars, IsSmall c)
    (before : List Char) : lowerFrom before chars = chars := by
  induction chars generalizing before with
  | nil => rfl
  | cons c rest ih =>
    obtain ⟨hlower, hsigma⟩ := hsmall c List.mem_cons_self
    rw [lowerFrom, if_neg hsigma, hlower, ih fun other hother =>
      hsmall other (List.mem_cons_of_mem c hother)]
    rfl

/-- Small forms consist of small characters. -/
theorem isSmall_of_mem_lowerFrom (before chars : List Char) :
    ∀ c ∈ lowerFrom before chars, IsSmall c := by
  induction chars generalizing before with
  | nil =>
    intro c hc
    cases hc
  | cons first rest ih =>
    intro c hc
    rw [lowerFrom, List.mem_append] at hc
    rcases hc with hc | hc
    · split at hc
      · rw [List.mem_singleton] at hc
        subst c
        rw [lowerSigma]
        split <;> decide
      · exact isSmall_of_mem_lowerChar ‹_› hc
    · exact ih (first :: before) c hc

/-- What is in small letters stays as it is. -/
@[simp]
theorem lowercase_lowercase (text : String) : lowercase (lowercase text) = lowercase text := by
  have hself := lowerFrom_eq_self (isSmall_of_mem_lowerFrom [] text.toList) []
  rw [lowercase, lowercase, String.toList_ofList, hself]

end Logo.Text
