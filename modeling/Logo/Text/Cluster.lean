import Logo.Text.Cluster.Table
import Logo.Text.Segmentation

/-!
# User-perceived characters

A text is cut into extended grapheme clusters: a base character with its marks, a Hangul syllable, a
pair of regional indicators, pictographs held by joiners, and consonants held by a linker stay
together.
-/

namespace Logo.Text

inductive ClusterClass where
  | carriageReturn
  | lineFeed
  | control
  | extend
  | joiner
  | regional
  | prepended
  | spacing
  | leading
  | vowel
  | trailing
  | openSyllable
  | closedSyllable
  | other
  deriving DecidableEq

/-- Hangul letters and syllables, and the vowel signs of Kirat Rai, which combine as Hangul vowels
do. Hangul syllables without a trailing consonant come every 28 code points. -/
def syllableClass? (code : Nat) : Option ClusterClass :=
  if 0xAC00 ≤ code ∧ code ≤ 0xD7A3 then
    some (if (code - 0xAC00) % 28 = 0 then .openSyllable else .closedSyllable)
  else if (0x1100 ≤ code ∧ code ≤ 0x115F) ∨ (0xA960 ≤ code ∧ code ≤ 0xA97C) then some .leading
  else if (0x1160 ≤ code ∧ code ≤ 0x11A7) ∨ (0xD7B0 ≤ code ∧ code ≤ 0xD7C6) then some .vowel
  else if code = 0x16D63 ∨ (0x16D67 ≤ code ∧ code ≤ 0x16D6A) then some .vowel
  else if (0x11A8 ≤ code ∧ code ≤ 0x11FF) ∨ (0xD7CB ≤ code ∧ code ≤ 0xD7FB) then some .trailing
  else none

def clusterClass (c : Char) : ClusterClass :=
  let code := c.toNat
  if 0x20 ≤ code ∧ code < 0x7F then .other
  else if code = 0x0D then .carriageReturn
  else if code = 0x0A then .lineFeed
  else if code = 0x200D then .joiner
  else if 0x1F1E6 ≤ code ∧ code ≤ 0x1F1FF then .regional
  else match syllableClass? code with
    | some cls => cls
    | none =>
      if clusterControl.contains c then .control
      else if clusterExtend.contains c then .extend
      else if clusterSpacing.contains c then .spacing
      else if clusterPrepend.contains c then .prepended
      else .other

/-- How much of "consonant, marks, linker, marks" a text ends with. -/
inductive Conjunct where
  | absent
  | consonant
  | linked
  deriving DecidableEq

/-- How much of "pictograph, marks, joiner" a text ends with. -/
inductive Pictograph where
  | absent
  | bare
  | joined
  deriving DecidableEq

/-- What the cut before the next character depends on. -/
structure ClusterState where
  cls : ClusterClass
  pictograph : Pictograph
  conjunct : Conjunct
  /-- An odd number of regional indicators stands at the end. -/
  unpaired : Bool

/-- The state before any character. -/
def ClusterState.start : ClusterState where
  cls := .control
  pictograph := .absent
  conjunct := .absent
  unpaired := false

def ClusterState.advance (state : ClusterState) (c : Char) : ClusterState :=
  let cls := clusterClass c
  { cls
    pictograph :=
      if pictographic.contains c then .bare
      else if state.pictograph = .bare ∧ cls = .extend then .bare
      else if state.pictograph = .bare ∧ cls = .joiner then .joined
      else .absent
    conjunct :=
      if conjunctConsonant.contains c then .consonant
      else if state.conjunct = .absent then .absent
      else if conjunctLinker.contains c then .linked
      else if (cls = .extend ∨ cls = .joiner) ∧ c.toNat ≠ 0x200C then state.conjunct
      else .absent
    unpaired := cls = .regional && !(state.cls = .regional && state.unpaired) }

/-- Whether `c` stays in one cluster with the text that led to `state`. -/
def ClusterState.joins (state : ClusterState) (c : Char) : Bool :=
  match state.cls, clusterClass c with
  | .carriageReturn, .lineFeed => true
  | .carriageReturn, _ | .lineFeed, _ | .control, _ => false
  | _, .carriageReturn | _, .lineFeed | _, .control => false
  | .leading, .leading | .leading, .vowel => true
  | .leading, .openSyllable | .leading, .closedSyllable => true
  | .openSyllable, .vowel | .openSyllable, .trailing => true
  | .vowel, .vowel | .vowel, .trailing => true
  | .closedSyllable, .trailing | .trailing, .trailing => true
  | _, .extend | _, .joiner | _, .spacing => true
  | .prepended, _ => true
  | .regional, .regional => state.unpaired
  | _, _ =>
    (state.conjunct = .linked && conjunctConsonant.contains c) ||
      (state.pictograph = .joined && pictographic.contains c)

/-- The clusters of a text whose first ones have led to `state` with `cluster`, last character
first, still open. -/
def clustersFrom (state : ClusterState) (cluster : List Char) : List Char → List (List Char)
  | [] => [cluster.reverse]
  | c :: rest =>
    if state.joins c then clustersFrom (state.advance c) (c :: cluster) rest
    else cluster.reverse :: clustersFrom (ClusterState.start.advance c) [c] rest

/-- The extended grapheme clusters of a text, in order. -/
def clusters (text : String) : List String :=
  match text.toList with
  | [] => []
  | c :: rest => (clustersFrom (ClusterState.start.advance c) [c] rest).map String.ofList

theorem flatten_clustersFrom (state : ClusterState) (cluster rest : List Char) :
    (clustersFrom state cluster rest).flatten = cluster.reverse ++ rest := by
  induction rest generalizing state cluster with
  | nil => rw [clustersFrom, List.flatten_singleton, List.append_nil]
  | cons c rest ih =>
    rw [clustersFrom]
    split
    · rw [ih, List.reverse_cons, List.append_assoc, List.singleton_append]
    · rw [List.flatten_cons, ih, List.reverse_singleton, List.singleton_append]

theorem ne_nil_of_mem_clustersFrom {state : ClusterState} {cluster rest piece : List Char}
    (hcluster : cluster ≠ []) (hpiece : piece ∈ clustersFrom state cluster rest) :
    piece ≠ [] := by
  induction rest generalizing state cluster with
  | nil =>
    rw [clustersFrom, List.mem_singleton] at hpiece
    rwa [hpiece, ne_eq, List.reverse_eq_nil_iff]
  | cons c rest ih =>
    rw [clustersFrom] at hpiece
    split at hpiece
    · exact ih (List.cons_ne_nil c cluster) hpiece
    · obtain rfl | hrest := List.mem_cons.mp hpiece
      · rwa [ne_eq, List.reverse_eq_nil_iff]
      · exact ih (List.cons_ne_nil c []) hrest

/-- The pieces of a text make up the text. -/
theorem join_clusters (text : String) : String.join (clusters text) = text := by
  apply String.toList_injective
  rw [String.toList_join, clusters]
  cases text.toList with
  | nil => rfl
  | cons c rest =>
    dsimp only
    rw [List.flatMap_map]
    simp only [String.toList_ofList, List.flatMap_id']
    exact flatten_clustersFrom _ [c] rest

theorem ne_empty_of_mem_clusters {text piece : String} (hpiece : piece ∈ clusters text) :
    piece ≠ "" := by
  rw [clusters] at hpiece
  cases htext : text.toList with
  | nil =>
    rw [htext] at hpiece
    cases hpiece
  | cons c rest =>
    rw [htext] at hpiece
    obtain ⟨characters, hmem, rfl⟩ := List.mem_map.mp hpiece
    rw [ne_eq, String.ofList_eq_empty_iff]
    exact ne_nil_of_mem_clustersFrom (List.cons_ne_nil c []) hmem

end Logo.Text

namespace Logo.Graphemes

/-- Words are cut into extended grapheme clusters. -/
scoped instance segmentation : Segmentation where
  pieces := Text.clusters
  join_pieces := Text.join_clusters
  ne_empty_of_mem_pieces := Text.ne_empty_of_mem_clusters

end Logo.Graphemes
