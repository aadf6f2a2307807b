import Logo.Machine.Step
import Logo.Proofs.AlikeNatives
import Logo.Proofs.Passes

/-!
# Special forms act alike

Special forms read lists as code, keep lines and values between two steps, and ask the machine for
calls and runs. On inputs that are alike they ask for the same, and what they keep is alike.
-/

namespace Logo

/-! ## What forms keep and ask for -/

structure Block.Alike (values : Value → Value → Prop) (code : Datum → Prop) (left right : Block) :
    Prop where
  lines : left.lines = right.lines
  code : ∀ line ∈ left.lines, code line
  value : values left.value right.value

inductive Continuation.Alike (values : Value → Value → Prop) (code : Datum → Prop) :
    Continuation → Continuation → Prop where
  | block {left right : Block} (hblock : left.Alike values code right) :
      Alike values code (.block left) (.block right)
  | repeating (remaining : Nat) {left right : Block} (hblock : left.Alike values code right) :
      Alike values code (.repeating remaining left) (.repeating remaining right)
  | running : Alike values code .running .running
  | iterating {current other : Value} {pending rest results found : List Value} (word : Bool)
      (hcurrent : values current other) (hpending : List.Forall₂ values pending rest)
      (hresults : List.Forall₂ values results found) :
      Alike values code (.iterating ⟨current, pending, results, word⟩)
        (.iterating ⟨other, rest, found, word⟩)

inductive Progress.Alike (values : Value → Value → Prop) (code : Datum → Prop) :
    Progress → Progress → Prop where
  | done {left right : Value} (hvalue : values left right) :
      Alike values code (.done left) (.done right)
  | output {left right : Value} (hvalue : values left right) :
      Alike values code (.output left) (.output right)
  | pause : Alike values code .pause .pause
  | call {site : Call} (hsite : code (.call site)) {left right : Continuation}
      (hkept : left.Alike values code right) : Alike values code (.call site left) (.call site right)
  | bounded {program lines : List Value} {left right : Continuation}
      (hprogram : List.Forall₂ values program lines) (hkept : left.Alike values code right) :
      Alike values code (.bounded program left) (.bounded lines right)

inductive World.BlockStep.Alike (values : Value → Value → Prop) (code : Datum → Prop) :
    World.BlockStep → World.BlockStep → Prop where
  | calls {site : Call} (hsite : code (.call site)) {left right : Block}
      (hblock : left.Alike values code right) :
      Alike values code (.calls site left) (.calls site right)
  | ends {left right : Value} (hvalue : values left right) :
      Alike values code (.ends left) (.ends right)

section Mono

variable {values others : Value → Value → Prop} {code : Datum → Prop}
  (hmono : ∀ {left right}, values left right → others left right)

include hmono

theorem Block.Alike.mono {left right : Block} (halike : left.Alike values code right) :
    left.Alike others code right :=
  ⟨halike.lines, halike.code, hmono halike.value⟩

theorem Continuation.Alike.mono {left right : Continuation}
    (halike : left.Alike values code right) : left.Alike others code right := by
  cases halike with
  | block hblock => exact .block (hblock.mono hmono)
  | repeating remaining hblock => exact .repeating remaining (hblock.mono hmono)
  | running => exact .running
  | iterating word hcurrent hpending hresults =>
    exact .iterating word (hmono hcurrent) (hpending.imp fun _ _ => hmono)
      (hresults.imp fun _ _ => hmono)

end Mono

theorem rel_mono {α : Type} {same other : α → α → Prop}
    (hmono : ∀ {left right}, same left right → other left right) {left right : Option α}
    (hrel : Option.Rel same left right) : Option.Rel other left right := by
  cases hrel with
  | none => exact .none
  | some hsame => exact .some (hmono hsame)

theorem rel_getD {α : Type} {same : α → α → Prop} {left right : Option α}
    (hrel : Option.Rel same left right) {value other : α} (hvalue : same value other) :
    same (left.getD value) (right.getD other) := by
  cases hrel with
  | none => exact hvalue
  | some hsame => exact hsame

namespace Likeness

variable (same : Likeness)

abbrev blocks (stage : same.Stage) : Block → Block → Prop :=
  Block.Alike (same.values stage) same.code

abbrev kept (stage : same.Stage) : Continuation → Continuation → Prop :=
  Continuation.Alike (same.values stage) same.code

abbrev progress (stage : same.Stage) : Progress → Progress → Prop :=
  Progress.Alike (same.values stage) same.code

abbrev steps (stage : same.Stage) : World.BlockStep → World.BlockStep → Prop :=
  World.BlockStep.Alike (same.values stage) same.code

variable {stage : same.Stage} {block counterpart : Block} {finished result : Option Value}
  {continuation other : Option Continuation} {first second third fourth : Value}
  {handle target : ListHandle}

/-! ## Blocks -/

def lines (_ : same.Stage) (left right : List Datum) : Prop :=
  left = right ∧ ∀ line ∈ left, same.code line

theorem readText (text : String) :
    same.Acts stage same.lines (World.readText text) (World.readText text) := by
  intro later hgrows left right hworlds
  rw [World.readText_apply, World.readText_apply, same.procedures hworlds]
  cases hread : Logo.readProgram right.environment.procedures text with
  | error cause => exact .error trivial (same.refl later) hworlds
  | ok read =>
    obtain ⟨hlines, hafter⟩ := same.readProgram hworlds hread
    exact .ok (same.refl later) hafter ⟨rfl, hlines⟩

theorem placeLines {lines : List Datum} (hlines : ∀ line ∈ lines, same.code line) :
    same.Acts stage (fun later => List.Forall₂ (same.values later)) (World.placeLines lines)
      (World.placeLines lines) := by
  induction lines generalizing stage with
  | nil => exact .pure fun _ _ => .nil
  | cons line lines ih =>
    obtain ⟨hline, hrest⟩ := List.forall_mem_cons.mp hlines
    apply (same.place (same.fineCode hline)).bind
    intro middle hmiddle value other hvalue
    apply (ih hrest).bind
    intro later hlater values others hvalues
    exact .pure fun final hfinal =>
      .cons (same.mono (same.trans hlater hfinal) hvalue) (same.all_mono hfinal hvalues)

/-- The same lines are run alike. -/
theorem stepLines {lines : List Datum} (hlines : ∀ line ∈ lines, same.code line)
    (hvalue : same.values stage first second) :
    same.Acts stage same.steps (World.stepLines first lines) (World.stepLines second lines) := by
  fun_induction World.stepLines first lines generalizing stage second with
  | case1 value => exact .pure fun later hgrows => .ends (same.mono hgrows hvalue)
  | case2 value site lines =>
    obtain ⟨hsite, hrest⟩ := List.forall_mem_cons.mp hlines
    exact .pure fun later hgrows => .calls hsite ⟨rfl, hrest, same.mono hgrows hvalue⟩
  | case3 => exact .throw trivial
  | case4 value definition lines ih => exact ih (List.forall_mem_cons.mp hlines).2 hvalue
  | case5 value literal lines hcall hsymbol hprocedure ih =>
    obtain ⟨hliteral, hrest⟩ := List.forall_mem_cons.mp hlines
    rw [World.stepLines]
    · apply (same.place (same.fineCode hliteral)).bind
      intro later _ placed other hplaced
      exact ih placed hrest hplaced
    · exact hcall
    · exact hsymbol
    · exact hprocedure

theorem stepBlock (hblock : same.blocks stage block counterpart)
    (hfinished : Option.Rel (same.values stage) finished result) :
    same.Acts stage same.steps (World.stepBlock block finished)
      (World.stepBlock counterpart result) := by
  rw [World.stepBlock, World.stepBlock, ← hblock.lines]
  exact same.stepLines hblock.code (rel_getD hfinished hblock.value)

theorem advance {keep : Block → Continuation}
    (hkeep : ∀ {later left right}, same.blocks later left right →
      same.kept later (keep left) (keep right))
    (hblock : same.blocks stage block counterpart)
    (hfinished : Option.Rel (same.values stage) finished result) :
    same.Acts stage same.progress (do
      match ← World.stepBlock block finished with
      | .calls site block => return .call site (keep block)
      | .ends value => return .done value) (do
      match ← World.stepBlock counterpart result with
      | .calls site block => return .call site (keep block)
      | .ends value => return .done value) := by
  apply (same.stepBlock hblock hfinished).bind
  intro later hlater step other hstep
  cases hstep with
  | calls hsite hblock =>
    exact .pure fun final hfinal => .call hsite (hkeep (hblock.mono (same.mono hfinal)))
  | ends hvalue => exact .pure fun final hfinal => .done (same.mono hfinal hvalue)

section

variable (hhandle : same.values stage (.list handle) (.list target))

include hhandle

theorem readBlock :
    same.Acts stage same.lines (World.readBlock handle) (World.readBlock target) := by
  apply Comparison.Acts.get_bind
  intro later hgrows left right hworlds
  have hview : left.store.view (.list handle) = right.store.view (.list target) :=
    (same.view hworlds (same.mono hgrows hhandle)).1
  dsimp only
  rw [hview]
  exact same.readText _

theorem startBlock :
    same.Acts stage same.blocks (World.startBlock handle) (World.startBlock target) := by
  apply (same.readBlock hhandle).bind
  rintro _ _ lines _ ⟨rfl, hlines⟩
  exact .pure fun _ _ => ⟨rfl, hlines, same.atom .nil⟩

theorem runBlock_none (hfinished : Option.Rel (same.values stage) finished result) :
    same.Acts stage same.progress (World.runBlock handle none finished)
      (World.runBlock target none result) := by
  apply (same.startBlock hhandle).bind
  intro later hlater block counterpart hblock
  exact same.advance .block hblock (rel_mono (same.mono hlater) hfinished)

theorem runBlock (hkept : Option.Rel (same.kept stage) continuation other)
    (hfinished : Option.Rel (same.values stage) finished result) :
    same.Acts stage same.progress (World.runBlock handle continuation finished)
      (World.runBlock target other result) := by
  cases hkept with
  | none => exact same.runBlock_none hhandle hfinished
  | some hkept =>
    cases hkept with
    | block hblock => exact same.advance .block hblock hfinished
    | repeating _ _ | running | iterating _ _ _ _ => exact same.runBlock_none hhandle hfinished

theorem runRounds (remaining : Nat) (hblock : same.blocks stage block counterpart)
    (hfinished : Option.Rel (same.values stage) finished result) :
    same.Acts stage same.progress (World.runRounds handle block finished remaining)
      (World.runRounds target counterpart result remaining) := by
  induction remaining generalizing stage block counterpart finished result with
  | zero => exact same.advance (.repeating 0) hblock hfinished
  | succ remaining ih =>
    apply (same.stepBlock hblock hfinished).bind
    intro later hlater step otherStep hstep
    cases hstep with
    | calls hsite hblock =>
      exact .pure fun final hfinal =>
        .call hsite (.repeating _ (hblock.mono (same.mono hfinal)))
    | ends hvalue =>
      apply (same.startBlock (same.mono hlater hhandle)).bind
      intro final hfinal block counterpart hblock
      exact ih (same.mono (same.trans hlater hfinal) hhandle) hblock .none

end

/-- Rounds are counted and begun alike. -/
theorem repeatBlock (hcount : same.values stage first second)
    (hlist : same.values stage third fourth)
    (hkept : Option.Rel (same.kept stage) continuation other)
    (hfinished : Option.Rel (same.values stage) finished result) :
    same.Acts stage same.progress (World.repeatBlock first third continuation finished)
      (World.repeatBlock second fourth other result) := by
  apply (same.expectList hlist).bind
  intro later hlater handle target hhandle
  have hfinished := rel_mono (same.mono hlater) hfinished
  have hstart : same.Acts later same.progress (do
      let count ← World.expectInteger first
      if count.toInt ≤ 0 then return .done .nil
      else World.runRounds handle (← World.startBlock handle) finished (count.toInt.toNat - 1)) (do
      let count ← World.expectInteger second
      if count.toInt ≤ 0 then return .done .nil
      else World.runRounds target (← World.startBlock target) result (count.toInt.toNat - 1)) := by
    apply (same.expectInteger (same.mono hlater hcount)).bind_eq
    intro middle hmiddle count
    split
    · exact .pure fun _ _ => .done (same.atom .nil)
    · apply (same.startBlock (same.mono hmiddle hhandle)).bind
      intro final hfinal block counterpart hblock
      have hgrows := same.trans hmiddle hfinal
      exact same.runRounds (same.mono hgrows hhandle) _ hblock
        (rel_mono (same.mono hgrows) hfinished)
  cases hkept with
  | none => exact hstart
  | some hkept =>
    cases hkept with
    | repeating remaining hblock =>
      exact same.runRounds hhandle remaining (hblock.mono (same.mono hlater)) hfinished
    | block _ | running | iterating _ _ _ _ => exact hstart

/-! ## Runs -/

theorem runNamed (text : String) (hvalue : same.values stage first second) :
    same.Acts stage same.progress (do
      let name := Text.lowercase text
      if (← get).environment.procedures.contains name then
        return .bounded [.call ⟨name, [], .nowhere⟩] .running
      else return .done first) (do
      let name := Text.lowercase text
      if (← get).environment.procedures.contains name then
        return .bounded [.call ⟨name, [], .nowhere⟩] .running
      else return .done second) := by
  apply Comparison.Acts.get_bind
  intro later hgrows left right hworlds
  rw [same.procedures hworlds]
  split
  · exact .pure fun _ _ => .bounded (.cons (same.named _) .nil) .running
  · exact .pure fun final hfinal => .done (same.mono (same.trans hgrows hfinal) hvalue)

theorem runList_none (hvalue : same.values stage first second) :
    same.Acts stage same.progress (World.runList first none none)
      (World.runList second none none) := by
  have hdone : same.Acts stage same.progress (pure (.done first)) (pure (.done second)) :=
    .pure fun _ hgrows => .done (same.mono hgrows hvalue)
  cases same.shape hvalue with
  | list handle target =>
    apply (same.readBlock hvalue).bind
    rintro later _ lines _ ⟨rfl, hlines⟩
    apply (same.placeLines hlines).bind
    intro final hfinal program others hprogram
    exact .pure fun last hlast => .bounded (same.all_mono hlast hprogram) .running
  | atom value =>
    cases value with
    | symbol text | quote text => exact same.runNamed text hvalue
    | number _ | boolean _ | nil | none => exact hdone
  | call _ | procedure _ => exact hdone

theorem runList (hvalue : same.values stage first second)
    (hkept : Option.Rel (same.kept stage) continuation other)
    (hfinished : Option.Rel (same.values stage) finished result) :
    same.Acts stage same.progress (World.runList first continuation finished)
      (World.runList second other result) := by
  cases hkept with
  | none => exact same.runList_none hvalue
  | some hkept =>
    cases hkept with
    | running =>
      exact .pure fun later hgrows =>
        .done (same.mono hgrows (rel_getD hfinished (same.atom .nil)))
    | block _ | repeating _ _ | iterating _ _ _ _ => exact same.runList_none hvalue

/-! ## Iterations -/

/-- Two actions have looked at the worlds and left them as they are. -/
inductive Looked {α β : Type} (good : α → β → Prop) (left right : World) :
    EStateM.Result RuntimeError World α → EStateM.Result RuntimeError World β → Prop where
  | ok {value : α} {counterpart : β} (hgood : good value counterpart) :
      Looked good left right (.ok value left) (.ok counterpart right)
  | error {cause : RuntimeError} (hcause : cause.OfPrimitive) :
      Looked good left right (.error cause left) (.error cause right)

/-- How an iteration goes on: it fails before it has changed anything, or it has found what it
looked for, or the next of the values is taken. -/
inductive Iterated (stage : same.Stage) (mode : Iteration) (left right : World) :
    EStateM.Result RuntimeError World Progress → EStateM.Result RuntimeError World Progress →
      Prop where
  | fails {cause : RuntimeError} (hcause : cause.OfPrimitive) :
      Iterated stage mode left right (.error cause left) (.error cause right)
  | found {value other : Value} (hvalue : same.values stage value other) :
      Iterated stage mode left right (.ok (.done value) left) (.ok (.done other) right)
  | next {handle target : ListHandle} (hhandle : same.values stage (.list handle) (.list target))
      (word : Bool) {results found pending rest : List Value}
      (hresults : List.Forall₂ (same.values stage) results found)
      (hpending : List.Forall₂ (same.values stage) pending rest) :
      Iterated stage mode left right (World.nextIteration mode handle word results pending left)
        (World.nextIteration mode target word found rest right)

variable {mode : Iteration} {left right : World}

theorem Looked.bind {same : Likeness} {stage : same.Stage} {α β : Type} {good : α → β → Prop}
    {action : Action α} {counterpart : Action β} {next : α → Action Progress} {after : β → Action Progress}
    (hlooked : Looked good left right (action left) (counterpart right))
    (hnext : ∀ value other, good value other →
      same.Iterated stage mode left right (next value left) (after other right)) :
    same.Iterated stage mode left right ((action >>= next) left)
      ((counterpart >>= after) right) := by
  rw [bind_apply, bind_apply]
  generalize action left = first at hlooked
  generalize counterpart right = second at hlooked
  cases hlooked with
  | ok hgood => exact hnext _ _ hgood
  | error hcause => exact .fails hcause

section

variable (hworlds : same.worlds stage left right)

include hworlds

theorem looked_mismatch {α β : Type} {good : α → β → Prop}
    (hvalue : same.values stage first second) (expected : List TypeName) :
    Looked good left right (World.mismatch expected first left)
      (World.mismatch expected second right) := by
  have hleft : (World.mismatch expected first : Action α) left =
      .error (.typeMismatch expected (left.view first)) left := rfl
  rw [hleft, (same.view hworlds hvalue).1]
  exact .error trivial

theorem looked_expectList (hvalue : same.values stage first second) :
    Looked (fun handle target => same.values stage (.list handle) (.list target)) left right
      (World.expectList first left) (World.expectList second right) := by
  cases same.shape hvalue with
  | list _ _ => exact .ok hvalue
  | atom _ | call _ | procedure _ => exact same.looked_mismatch hworlds hvalue _

theorem looked_expectTruth (hhandle : same.values stage (.list handle) (.list target))
    (hvalue : same.values stage first second) :
    Looked Eq left right (World.expectTruth handle first left)
      (World.expectTruth target second right) := by
  cases same.shape hvalue with
  | atom value =>
    cases value with
    | boolean truth => exact .ok rfl
    | number _ | symbol _ | quote _ | nil | none =>
      exact same.looked_mismatch hworlds hhandle _
  | list _ _ | call _ | procedure _ => exact same.looked_mismatch hworlds hhandle _

variable [Segmentation]

theorem looked_iterationValues (hvalue : same.values stage first second) :
    Looked (fun found others => List.Forall₂ (same.values stage) found.1 others.1 ∧
        found.2 = others.2) left right (World.iterationValues first left)
      (World.iterationValues second right) := by
  have hcharacters : ∀ characters : List String, List.Forall₂ (same.values stage)
      (characters.map fun character => Value.atom (.quote character))
      (characters.map fun character => Value.atom (.quote character)) := by
    intro characters
    rw [List.forall₂_map_left_iff, List.forall₂_map_right_iff, List.forall₂_same]
    exact fun character _ => same.atom _
  cases same.shape hvalue with
  | list _ _ => exact .ok ⟨same.items hworlds hvalue, rfl⟩
  | atom value =>
    cases value with
    | symbol text | quote text => exact .ok ⟨hcharacters _, rfl⟩
    | number _ | boolean _ | nil | none => exact same.looked_mismatch hworlds hvalue _
  | call _ | procedure _ => exact same.looked_mismatch hworlds hvalue _

/-- Templates are run alike over values that are alike. -/
theorem iterated (mode : Iteration) (htemplate : same.values stage first second)
    (hvalue : same.values stage third fourth)
    (hkept : Option.Rel (same.kept stage) continuation other)
    (hfinished : Option.Rel (same.values stage) finished result) :
    same.Iterated stage mode left right (World.iterate mode first third continuation finished left)
      (World.iterate mode second fourth other result right) := by
  rw [World.iterate, World.iterate]
  apply (same.looked_expectList hworlds htemplate).bind
  intro handle target hhandle
  have hstart : same.Iterated stage mode left right ((do
      let found ← World.iterationValues third
      World.nextIteration mode handle found.2 [] found.1 : Action Progress) left) ((do
      let found ← World.iterationValues fourth
      World.nextIteration mode target found.2 [] found.1 : Action Progress) right) := by
    apply (same.looked_iterationValues hworlds hvalue).bind
    intro found others hfound
    rw [hfound.2]
    exact .next hhandle _ .nil hfound.1
  cases hkept with
  | none => exact hstart
  | some hkept =>
    cases hkept with
    | block _ | repeating _ _ | running => exact hstart
    | iterating word hcurrent hpending hresults =>
      have hresult := rel_getD hfinished (same.atom .nil)
      cases mode with
      | map => exact .next hhandle word (.cons hresult hresults) hpending
      | filter =>
        apply (same.looked_expectTruth hworlds hhandle hresult).bind
        rintro truth _ rfl
        cases truth with
        | true => exact .next hhandle word (.cons hcurrent hresults) hpending
        | false => exact .next hhandle word hresults hpending
      | find =>
        apply (same.looked_expectTruth hworlds hhandle hresult).bind
        rintro truth _ rfl
        cases truth with
        | true => exact .found hcurrent
        | false => exact .next hhandle word hresults hpending

end

theorem nextIteration_cons (mode : Iteration)
    (hhandle : same.values stage (.list handle) (.list target)) (word : Bool)
    (hcurrent : same.values stage first second) {results found pending rest : List Value}
    (hresults : List.Forall₂ (same.values stage) results found)
    (hpending : List.Forall₂ (same.values stage) pending rest) :
    same.Acts stage same.progress
      (World.nextIteration mode handle word results (first :: pending))
      (World.nextIteration mode target word found (second :: rest)) := by
  apply Comparison.Acts.get_bind
  intro later hgrows left right hworlds
  dsimp only
  rw [(same.view hworlds (same.mono hgrows hhandle)).1,
    (same.view hworlds (same.mono hgrows hcurrent)).1]
  apply (same.readText _).bind
  rintro middle hmiddle lines _ ⟨rfl, hlines⟩
  apply (same.placeLines hlines).bind
  intro final hfinal program others hprogram
  refine .pure fun last hlast => ?_
  have hkept := same.trans (same.trans (same.trans hgrows hmiddle) hfinal) hlast
  exact .bounded (same.all_mono hlast hprogram)
    (.iterating word (same.mono hkept hcurrent) (same.all_mono hkept hpending)
      (same.all_mono hkept hresults))

def Builds : Prop :=
  ∀ {stage items others}, List.Forall₂ (same.values stage) items others →
    same.Acts stage same.values (World.build items) (World.build others)

/-- Results that are alike are put together alike. -/
theorem iterationResult (hbuilds : same.Builds) (mode : Iteration) (word : Bool)
    {results others : List Value} (hresults : List.Forall₂ (same.values stage) results others) :
    same.Acts stage same.values (World.iterationResult mode word results)
      (World.iterationResult mode word others) := by
  have hjoined : ∀ make : String → Atom, same.Acts stage same.values (do
      let world ← get
      return .atom (make (String.join (results.map fun value => (world.view value).display)))) (do
      let world ← get
      return .atom (make (String.join (others.map fun value =>
        (world.view value).display)))) := by
    intro make
    apply Comparison.Acts.get_bind
    intro later hgrows left right hworlds
    have hviews := congrArg (List.map Datum.display)
      (same.map_view hworlds (same.all_mono hgrows hresults)).1
    rw [List.map_map, List.map_map] at hviews
    have hsame : (results.map fun value => (left.view value).display) =
        others.map fun value => (right.view value).display := hviews
    rw [hsame]
    exact same.acts_atom _
  cases mode with
  | find => exact same.acts_atom .nil
  | map =>
    cases word with
    | true => exact hjoined .symbol
    | false => exact hbuilds hresults
  | filter =>
    cases word with
    | true => exact hjoined .quote
    | false => exact hbuilds hresults

theorem bindInputs (params : List String) {values others : List Value}
    (hvalues : List.Forall₂ (same.values stage) values others) :
    same.Acts stage (fun _ _ _ => True) (Machine.bindInputs params values)
      (Machine.bindInputs params others) := by
  induction params generalizing stage values others with
  | nil => exact .pure fun _ _ => trivial
  | cons param params ih =>
    cases hvalues with
    | nil => exact .pure fun _ _ => trivial
    | cons hvalue hothers =>
      apply (same.declare param).bind
      intro later hlater _ _ _
      apply (same.make param (same.mono hlater hvalue)).bind
      intro final hfinal _ _ _
      exact ih (same.all_mono (same.trans hlater hfinal) hothers)

variable [Segmentation]

theorem iterate (hbuilds : same.Builds) (mode : Iteration)
    (htemplate : same.values stage first second) (hvalue : same.values stage third fourth)
    (hkept : Option.Rel (same.kept stage) continuation other)
    (hfinished : Option.Rel (same.values stage) finished result) :
    same.Acts stage same.progress (World.iterate mode first third continuation finished)
      (World.iterate mode second fourth other result) := by
  intro later hgrows left right hworlds
  have hiterated := same.iterated hworlds mode (same.mono hgrows htemplate)
    (same.mono hgrows hvalue) (rel_mono (·.mono (same.mono hgrows)) hkept)
    (rel_mono (same.mono hgrows) hfinished)
  generalize World.iterate mode first third continuation finished left = leftEnd at hiterated
  generalize World.iterate mode second fourth other result right = rightEnd at hiterated
  cases hiterated with
  | fails hcause => exact .error hcause (same.refl later) hworlds
  | found hvalue => exact .ok (same.refl later) hworlds (.done hvalue)
  | next hhandle word hresults hpending =>
    cases hpending with
    | cons hcurrent hpending =>
      exact same.nextIteration_cons mode hhandle word hcurrent hresults hpending later
        (same.refl later) left right hworlds
    | nil =>
      refine Comparison.Acts.bind (same.iterationResult hbuilds mode word
        (List.rel_reverse hresults)) ?_ later (same.refl later) left right hworlds
      intro final _ value counterpart hvalue
      exact .pure fun last hlast => .done (same.mono hlast hvalue)

/-! ## All forms -/

/-- Special forms do the same with inputs that are alike. -/
theorem runSpecial (form : Special) (hbuilds : ∀ mode, form = .iterate mode → same.Builds)
    {inputs others : List Value} (hinputs : List.Forall₂ (same.values stage) inputs others)
    (hkept : Option.Rel (same.kept stage) continuation other)
    (hfinished : Option.Rel (same.values stage) finished result) :
    same.Acts stage same.progress (World.runSpecial form inputs continuation finished)
      (World.runSpecial form others other result) := by
  have hfirst := same.getD hinputs 0
  have hsecond := same.getD hinputs 1
  have hthird := same.getD hinputs 2
  cases form with
  | output => exact .pure fun later hgrows => .output (same.mono hgrows hfirst)
  | stop => exact .pure fun _ _ => .output (same.atom .nil)
  | thing =>
    apply (same.expectName hfirst).bind_eq
    intro later hlater name
    apply Comparison.Acts.get_bind
    intro final hfinal left right hworlds
    obtain ⟨hleft, hright⟩ | ⟨_, _, hleft, hright, hvalue⟩ :=
      cases_rel (same.thing name hworlds)
    · rw [hleft, hright]
      exact .throw trivial
    · rw [hleft, hright]
      exact .pure fun last hlast => .done (same.mono hlast hvalue)
  | declare =>
    apply (same.expectName hfirst).bind_eq
    intro later hlater name
    exact (same.declare name).bind fun _ _ _ _ _ => .pure fun _ _ => .done (same.atom .none)
  | make =>
    apply (same.expectName hfirst).bind_eq
    intro later hlater name
    have hvalue := same.mono hlater hsecond
    apply (same.make name hvalue).bind
    intro final hfinal _ _ _
    exact .pure fun last hlast => .done (same.mono (same.trans hfinal hlast) hvalue)
  | declareMake =>
    apply (same.expectName hfirst).bind_eq
    intro later hlater name
    apply (same.declare name).bind
    intro next hnext _ _ _
    have hvalue := same.mono (same.trans hlater hnext) hsecond
    apply (same.make name hvalue).bind
    intro final hfinal _ _ _
    exact .pure fun last hlast => .done (same.mono (same.trans hfinal hlast) hvalue)
  | ifThen =>
    apply (same.expectBoolean hfirst).bind_eq
    intro later hlater truth
    cases truth with
    | false => exact .pure fun _ _ => .done (same.atom .nil)
    | true =>
      apply (same.expectList (same.mono hlater hsecond)).bind
      intro final hfinal handle target hhandle
      have hgrows := same.trans hlater hfinal
      exact same.runBlock hhandle (rel_mono (·.mono (same.mono hgrows)) hkept)
        (rel_mono (same.mono hgrows) hfinished)
  | ifElse =>
    apply (same.expectBoolean hfirst).bind_eq
    intro later hlater truth
    have hbranch : same.values later
        (if truth then inputs.getD 1 .nil else inputs.getD 2 .nil)
        (if truth then others.getD 1 .nil else others.getD 2 .nil) := by
      cases truth with
      | true => exact same.mono hlater hsecond
      | false => exact same.mono hlater hthird
    apply (same.expectList hbranch).bind
    intro final hfinal handle target hhandle
    have hgrows := same.trans hlater hfinal
    exact same.runBlock hhandle (rel_mono (·.mono (same.mono hgrows)) hkept)
      (rel_mono (same.mono hgrows) hfinished)
  | repeatBlock => exact same.repeatBlock hfirst hsecond hkept hfinished
  | run => exact same.runList hfirst hkept hfinished
  | pause => exact .pure fun _ _ => .pause
  | iterate mode => exact same.iterate (hbuilds mode rfl) mode hfirst hsecond hkept hfinished

end Likeness

end Logo
