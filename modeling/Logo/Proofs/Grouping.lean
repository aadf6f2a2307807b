import Logo.Program.Expression
import Mathlib.Data.List.Basic

/-!
# How operators are grouped

Operands with operators between them can be grouped in many ways. Reading finds the one in which
every operator binds its operands as the levels say: what stands to its left binds at least as
tightly as the operator itself, and what stands to its right binds more tightly. There is no other
grouping of the same tokens with this property.
-/

namespace Logo

inductive Operand where
  | number (value : Number)
  | boolean (value : Bool)
  | nil
  | quote (text : String)
  | reference (name : String)

namespace Operand

def kind : Operand → TokenKind
  | .number value => .number value
  | .boolean value => .boolean value
  | .nil => .nil
  | .quote text => .quote text
  | .reference name => .reference name

/-- What an operand is read as. The place is kept for variables only, since their values are found
by a call. -/
def datum (span : Span) : Operand → Datum
  | .number value => .atom (.number value)
  | .boolean value => .boolean value
  | .nil => .nil
  | .quote text => .quote text
  | .reference name => .call ⟨"thing", [.symbol name], span⟩

end Operand

/-- An operator with the operand to its right, and where the two stand. -/
structure Link where
  op : Operator
  place : Span
  operand : Operand
  span : Span

def linkTokens (links : List Link) : List Token :=
  links.flatMap fun link => [⟨.operator link.op, link.place⟩, ⟨link.operand.kind, link.span⟩]

@[simp]
theorem linkTokens_nil : linkTokens [] = [] := rfl

@[simp]
theorem linkTokens_cons (link : Link) (links : List Link) :
    linkTokens (link :: links) =
      ⟨.operator link.op, link.place⟩ :: ⟨link.operand.kind, link.span⟩ :: linkTokens links := rfl

@[simp]
theorem linkTokens_append (first second : List Link) :
    linkTokens (first ++ second) = linkTokens first ++ linkTokens second :=
  List.flatMap_append

/-- An operand with the operators and operands behind it. -/
structure Chain where
  first : Operand
  span : Span
  links : List Link

def Chain.tokens (chain : Chain) : List Token :=
  ⟨chain.first.kind, chain.span⟩ :: linkTokens chain.links

inductive OperatorTree where
  | leaf (operand : Operand) (span : Span)
  | node (op : Operator) (span : Span) (left right : OperatorTree)

namespace OperatorTree

variable {op : Operator} {span : Span}

def tokens : OperatorTree → List Token
  | .leaf operand span => [⟨operand.kind, span⟩]
  | .node op span left right => left.tokens ++ ⟨.operator op, span⟩ :: right.tokens

/-- A tree is read as calls of the procedures that its operators stand for. -/
def datum : OperatorTree → Datum
  | .leaf operand span => operand.datum span
  | .node op span left right => .call ⟨op.procedure, [left.datum, right.datum], span⟩

/-- How tightly the root binds: the height of its level. An operand stands below all levels. -/
def height : OperatorTree → Nat
  | .leaf .. => 0
  | .node op .. => op.level.height

/-- Every operator binds its left operand at least as tightly as itself, and its right operand more
tightly. -/
def Grouped : OperatorTree → Prop
  | .leaf .. => True
  | .node op _ left right =>
    left.height ≤ op.level.height ∧ right.height < op.level.height ∧ left.Grouped ∧ right.Grouped

instance decidableGrouped : (tree : OperatorTree) → Decidable tree.Grouped
  | .leaf .. => isTrue trivial
  | .node _ _ left right =>
    have := decidableGrouped left
    have := decidableGrouped right
    inferInstanceAs (Decidable (_ ∧ _ ∧ _ ∧ _))

/-! ## No two groupings -/

variable {tree : OperatorTree}

/-- No operator of a grouped tree binds less tightly than the root. -/
theorem Grouped.height_le (hgrouped : tree.Grouped) (hmem : ⟨.operator op, span⟩ ∈ tree.tokens) :
    op.level.height ≤ tree.height := by
  induction tree with
  | leaf operand place => cases operand <;> simp [tokens, Operand.kind] at hmem
  | node root place left right ihLeft ihRight =>
    obtain ⟨hleft, hright, hleftGrouped, hrightGrouped⟩ := hgrouped
    simp only [tokens, List.mem_append, List.mem_cons] at hmem
    obtain hmem | heq | hmem := hmem
    · exact Nat.le_trans (ihLeft hleftGrouped hmem) hleft
    · cases heq
      exact Nat.le_refl _
    · exact Nat.le_of_lt (Nat.lt_of_le_of_lt (ihRight hrightGrouped hmem) hright)

/-- An operand is one token, and a node has at least one more. -/
theorem one_lt_length_tokens_node (op : Operator) (span : Span) (left right : OperatorTree) :
    1 < (node op span left right).tokens.length := by
  have hright : right.tokens ≠ [] := by cases right <;> simp [tokens]
  have hpositive := List.length_pos_iff.mpr hright
  simp only [tokens, List.length_append, List.length_cons]
  omega

/-- The root of a grouped tree is the last of the operators that bind least tightly. -/
theorem Grouped.left_not_longer {op' : Operator} {span' : Span}
    {left right left' right' : OperatorTree} (hgrouped : (node op span left right).Grouped)
    (hother : (node op' span' left' right').Grouped)
    (htokens : (node op span left right).tokens = (node op' span' left' right').tokens) :
    left'.tokens.length ≤ left.tokens.length := by
  by_contra hlonger
  obtain ⟨-, hright, -, hrightGrouped⟩ := hgrouped
  obtain ⟨hleft', -, hleftGrouped', -⟩ := hother
  -- Each of the two roots would stand in an operand of the other one.
  obtain ⟨between, hbetween, hbehind⟩ : ∃ between,
      left'.tokens = left.tokens ++ ⟨.operator op, span⟩ :: between ∧
        right.tokens = between ++ ⟨.operator op', span'⟩ :: right'.tokens := by
    obtain ⟨between, hleft, hright⟩ | ⟨between, hleft, hright⟩ :=
      List.append_eq_append_iff.mp htokens
    · cases between with
      | nil =>
        rw [List.append_nil] at hleft
        rw [hleft] at hlonger
        exact absurd (Nat.le_refl _) hlonger
      | cons token between =>
        obtain ⟨rfl, hbehind⟩ := List.cons.inj hright
        exact ⟨between, hleft, hbehind⟩
    · rw [hleft, List.length_append] at hlonger
      omega
  have hinLeft : ⟨.operator op, span⟩ ∈ left'.tokens := by simp [hbetween]
  have hinRight : ⟨.operator op', span'⟩ ∈ right.tokens := by simp [hbehind]
  have hle := hleftGrouped'.height_le hinLeft
  have hlt := hrightGrouped.height_le hinRight
  omega

/-- Grouped trees with the same tokens are the same. -/
theorem Grouped.eq_of_tokens_eq {other : OperatorTree} (hgrouped : tree.Grouped)
    (hother : other.Grouped) (htokens : tree.tokens = other.tokens) : tree = other := by
  induction tree generalizing other with
  | leaf operand span =>
    cases other with
    | leaf operand' span' =>
      obtain ⟨hkind, rfl⟩ := Token.mk.inj (List.cons.inj htokens).1
      congr 1
      cases operand <;> cases operand' <;> cases hkind <;> rfl
    | node op' span' left' right' =>
      have hlength := one_lt_length_tokens_node op' span' left' right'
      rw [← htokens] at hlength
      exact absurd hlength (Nat.lt_irrefl 1)
  | node op span left right ihLeft ihRight =>
    cases other with
    | leaf operand' span' =>
      have hlength := one_lt_length_tokens_node op span left right
      rw [htokens] at hlength
      exact absurd hlength (Nat.lt_irrefl 1)
    | node op' span' left' right' =>
      have hlength := Nat.le_antisymm (hother.left_not_longer hgrouped htokens.symm)
        (hgrouped.left_not_longer hother htokens)
      obtain ⟨hleft, hbehind⟩ := List.append_inj htokens hlength
      obtain ⟨hroot, hright⟩ := List.cons.inj hbehind
      cases hroot
      rw [ihLeft hgrouped.2.2.1 hother.2.2.1 hleft, ihRight hgrouped.2.2.2 hother.2.2.2 hright]

end OperatorTree

/-! ## What reading takes -/

/-- No operator that binds as tightly as the bound says stands at the front of these links. -/
def StopsAt (bound : Nat) (links : List Link) : Prop :=
  ∀ link ∈ links.head?, bound < link.op.level.height

/-- The result is a grouped tree over the tokens before and the first of the links. It has all the
operators that bind as tightly as the bound says, up to the first that does not. -/
def Groups {short : List Token → Prop} (bound : Nat) (before : List Token) (links : List Link)
    (rest : List Token) (result : Except ParseError (Datum × { rest : List Token // short rest })) :
    Prop :=
  ∃ (tree : OperatorTree) (taken left : List Link) (hshort : short (linkTokens left ++ rest)),
    links = taken ++ left ∧ tree.tokens = before ++ linkTokens taken ∧ tree.Grouped ∧
      tree.height ≤ bound ∧ StopsAt bound left ∧
      result = .ok (tree.datum, ⟨linkTokens left ++ rest, hshort⟩)

theorem Level.height_pos (level : Level) : 0 < level.height := by
  cases level <;> decide

theorem Level.height_injective {first second : Level} (hheight : first.height = second.height) :
    first = second := by
  cases first <;> cases second <;> first | rfl | cases hheight

section Reading

variable {reading : Reading} {rest : List Token}

variable {level : Level} {datum left : Datum} {tokens : List Token}

theorem readPrimary_operand (operand : Operand) (span : Span) (rest : List Token) :
    readPrimary reading (⟨operand.kind, span⟩ :: rest) =
      .ok (operand.datum span, ⟨rest, Nat.lt_succ_self _⟩) := by
  rw [readPrimary.eq_def]
  cases operand <;> rfl

/-- Operators are left to the looser levels. -/
theorem readOperators_of_ne
    (hnext : ∀ token ∈ tokens.head?, ∀ op, token.kind = .operator op → op.level ≠ level) :
    readOperators reading level datum tokens = .ok (datum, .all tokens) := by
  rw [readOperators.eq_def]
  split
  · rename_i op span operand
    rw [if_neg (hnext _ rfl op rfl)]
    rfl
  · rfl

/-- An operator of the level takes the operand to its right, and reading goes on behind that. -/
theorem readOperators_of_eq {op : Operator} {level : Level} {left right datum : Datum} {span : Span}
    {tokens : List Token} {middle : Shorter tokens} {after : Remaining middle.val}
    (hlevel : op.level = level) (hright : readOperand reading level tokens = .ok (right, middle))
    (hafter : readOperators reading level (.call ⟨op.procedure, [left, right], span⟩) middle.val =
      .ok (datum, after)) :
    readOperators reading level left (⟨.operator op, span⟩ :: tokens) =
      .ok (datum, ⟨after.val, Nat.le_succ_of_le
        (length_le_of_lt_of_le middle.property after.property)⟩) := by
  rw [readOperators, if_pos hlevel, hright]
  dsimp only [bind, Except.bind]
  rw [hafter]
  rfl

theorem readLevel_of_eq {middle : Shorter tokens} {after : Remaining middle.val}
    (hleft : readOperand reading level tokens = .ok (left, middle))
    (hafter : readOperators reading level left middle.val = .ok (datum, after)) :
    readLevel reading level tokens =
      .ok (datum, ⟨after.val, length_lt_of_lt_of_le middle.property after.property⟩) := by
  rw [readLevel, hleft]
  dsimp only [bind, Except.bind]
  rw [hafter]
  rfl

variable (hrest : ∀ token ∈ rest.head?, ∀ op, token.kind ≠ .operator op)

include hrest

/-- Operators of one level are grouped from the left. -/
theorem groups_readOperators (level : Level) (links : List Link) {tree : OperatorTree}
    (hgrouped : tree.Grouped) (hheight : tree.height ≤ level.height)
    (hstops : StopsAt (level.height - 1) links)
    (hoperand : ∀ later : List Link, later.length < links.length →
      ∀ (operand : Operand) (span : Span), Groups (level.height - 1) [⟨operand.kind, span⟩] later rest
        (readOperand reading level (⟨operand.kind, span⟩ :: (linkTokens later ++ rest)))) :
    Groups level.height tree.tokens links rest
      (readOperators reading level tree.datum (linkTokens links ++ rest)) := by
  -- The tree grows to the right by one operator of the level after the other.
  induction hlength : links.length using Nat.strongRecOn generalizing links tree with
  | ind length ih =>
    subst hlength
    cases links with
    | nil =>
      refine ⟨tree, [], [], Nat.le_refl _, rfl, by simp, hgrouped, hheight, by simp [StopsAt],
        ?_⟩
      refine readOperators_of_ne fun token hmem op hop => absurd hop ?_
      exact hrest token hmem op
    | cons link links =>
      have hpositive := level.height_pos
      have hfirst : level.height - 1 < link.op.level.height := hstops link rfl
      by_cases hlevel : link.op.level = level
      · obtain ⟨right, taken, left, hshort, rfl, hright, hrightGrouped, hrightHeight, hleft,
          hread⟩ := hoperand links (Nat.lt_succ_self _) link.operand link.span
        have hnode : (OperatorTree.node link.op link.place tree right).Grouped := by
          refine ⟨?_, ?_, hgrouped, hrightGrouped⟩
          · rwa [hlevel]
          · rw [hlevel]
            omega
        have hshorter : left.length < (link :: (taken ++ left)).length := by
          simp only [List.length_cons, List.length_append]
          omega
        obtain ⟨final, more, others, hfinal, rfl, htokens, hfinalGrouped, hfinalHeight, hothers,
          hreads⟩ := ih left.length hshorter left hnode (by simp [OperatorTree.height, hlevel])
            hleft (fun later hlength => hoperand later (Nat.lt_trans hlength hshorter)) rfl
        exact ⟨final, link :: (taken ++ more), others, _, by simp,
          by simp [htokens, OperatorTree.tokens, hright], hfinalGrouped, hfinalHeight, hothers,
          readOperators_of_eq hlevel hread hreads⟩
      · refine ⟨tree, [], link :: links, Nat.le_refl _, rfl, by simp, hgrouped, hheight, ?_, ?_⟩
        · rintro other ⟨⟩
          have hne : link.op.level.height ≠ level.height := fun hsame =>
            hlevel (Level.height_injective hsame)
          omega
        · refine readOperators_of_ne ?_
          rintro token ⟨⟩ op ⟨⟩
          exact hlevel

/-- From the tightest level to the loosest, the operators of one level are read behind an operand
that has been read at the next. -/
theorem groups_readLevel (level : Level) (links : List Link) (operand : Operand) (span : Span) :
    Groups (level.height - 1) [⟨operand.kind, span⟩] links rest
        (readOperand reading level (⟨operand.kind, span⟩ :: (linkTokens links ++ rest))) ∧
      Groups level.height [⟨operand.kind, span⟩] links rest
        (readLevel reading level (⟨operand.kind, span⟩ :: (linkTokens links ++ rest))) := by
  induction hlength : links.length using Nat.strongRecOn generalizing level links operand span with
  | ind length ih =>
    subst hlength
    -- What an operand leaves is read on by the operators of the level.
    have hlevel : ∀ {level}, Groups (level.height - 1) [⟨operand.kind, span⟩] links rest
          (readOperand reading level (⟨operand.kind, span⟩ :: (linkTokens links ++ rest))) →
        Groups level.height [⟨operand.kind, span⟩] links rest
          (readLevel reading level (⟨operand.kind, span⟩ :: (linkTokens links ++ rest))) := by
      rintro level ⟨tree, taken, left, hshort, rfl, htokens, hgrouped, hheight, hstops, hread⟩
      have hle : left.length ≤ (taken ++ left).length := by simp
      obtain ⟨final, more, others, hfinal, rfl, hfinalTokens, hfinalGrouped, hfinalHeight,
        hothers, hreads⟩ := groups_readOperators hrest level left hgrouped (by omega) hstops
          fun later hlater operand span =>
            (ih later.length (Nat.lt_of_lt_of_le hlater hle) level later operand span rfl).1
      exact ⟨final, taken ++ more, others, _, by simp, by simp [hfinalTokens, htokens],
        hfinalGrouped, hfinalHeight, hothers, readLevel_of_eq hread hreads⟩
    have hfactor : Groups (Level.factor.height - 1) [⟨operand.kind, span⟩] links rest
        (readOperand reading .factor (⟨operand.kind, span⟩ :: (linkTokens links ++ rest))) := by
      rw [readOperand, readPrimary_operand]
      refine ⟨.leaf operand span, [], links, _, rfl, rfl, trivial, Nat.le_refl 0, ?_, rfl⟩
      exact fun link _ => link.op.level.height_pos
    have hterm : Groups (Level.term.height - 1) [⟨operand.kind, span⟩] links rest
        (readOperand reading .term (⟨operand.kind, span⟩ :: (linkTokens links ++ rest))) := by
      rw [readOperand]
      exact hlevel hfactor
    have hcomparison : Groups (Level.comparison.height - 1) [⟨operand.kind, span⟩] links rest
        (readOperand reading .comparison
          (⟨operand.kind, span⟩ :: (linkTokens links ++ rest))) := by
      rw [readOperand]
      exact hlevel hterm
    have hequality : Groups (Level.equality.height - 1) [⟨operand.kind, span⟩] links rest
        (readOperand reading .equality
          (⟨operand.kind, span⟩ :: (linkTokens links ++ rest))) := by
      rw [readOperand]
      exact hlevel hcomparison
    cases level with
    | factor => exact ⟨hfactor, hlevel hfactor⟩
    | term => exact ⟨hterm, hlevel hterm⟩
    | comparison => exact ⟨hcomparison, hlevel hcomparison⟩
    | equality => exact ⟨hequality, hlevel hequality⟩

end Reading

/-- Operands with operators between them, followed by a token that is no operator, are read as one
expression, and nothing behind them is. The expression is a tree of calls over the same tokens in
the same order, in which every operator binds its left operand at least as tightly as itself and its
right operand more tightly; it is the only such tree. -/
theorem operators_group_by_level (reading : Reading) (chain : Chain) (rest : List Token)
    (hrest : ∀ token ∈ rest.head?, ∀ op, token.kind ≠ .operator op) :
    ∃ (tree : OperatorTree) (after : Shorter (chain.tokens ++ rest)),
      readExpression reading (chain.tokens ++ rest) = .ok (tree.datum, after) ∧
      after.val = rest ∧ tree.tokens = chain.tokens ∧ tree.Grouped ∧
      ∀ other : OperatorTree, other.tokens = chain.tokens → other.Grouped → other = tree := by
  obtain ⟨tree, taken, left, hshort, hlinks, htokens, hgrouped, -, hstops, hread⟩ :=
    (groups_readLevel hrest .equality chain.links chain.first chain.span).2
  -- No operator binds less tightly than the loosest level.
  have hnone : left = [] := by
    cases left with
    | nil => rfl
    | cons link left => exact absurd (hstops link rfl) (Nat.not_lt.mpr link.op.level.height_le)
  subst hnone
  rw [List.append_nil] at hlinks
  rw [← hlinks] at htokens
  refine ⟨tree, ⟨rest, hshort⟩, hread, rfl, htokens, hgrouped, ?_⟩
  intro other hother hotherGrouped
  exact hotherGrouped.eq_of_tokens_eq hgrouped (hother.trans htokens.symm)

/-- The expression `1 - :x * 2 - 3 < 4`. -/
def differences : Chain where
  first := .number (.integer 1)
  span := ⟨0, 1, 1, 1⟩
  links := [⟨.minus, ⟨2, 3, 1, 3⟩, .reference "x", ⟨4, 6, 1, 5⟩⟩,
    ⟨.star, ⟨7, 8, 1, 8⟩, .number (.integer 2), ⟨9, 10, 1, 10⟩⟩,
    ⟨.minus, ⟨11, 12, 1, 12⟩, .number (.integer 3), ⟨13, 14, 1, 14⟩⟩,
    ⟨.less, ⟨15, 16, 1, 16⟩, .number (.integer 4), ⟨17, 18, 1, 18⟩⟩]

/-- It is read as `((1 - (:x * 2)) - 3) < 4`. -/
def differencesTree : OperatorTree :=
  .node .less ⟨15, 16, 1, 16⟩
    (.node .minus ⟨11, 12, 1, 12⟩
      (.node .minus ⟨2, 3, 1, 3⟩ (.leaf (.number (.integer 1)) ⟨0, 1, 1, 1⟩)
        (.node .star ⟨7, 8, 1, 8⟩ (.leaf (.reference "x") ⟨4, 6, 1, 5⟩)
          (.leaf (.number (.integer 2)) ⟨9, 10, 1, 10⟩)))
      (.leaf (.number (.integer 3)) ⟨13, 14, 1, 14⟩))
    (.leaf (.number (.integer 4)) ⟨17, 18, 1, 18⟩)

theorem differences_are_grouped_from_the_left :
    let rest : List Token := [⟨.newline, ⟨18, 19, 1, 19⟩⟩]
    ∃ after : Shorter (differences.tokens ++ rest),
      readExpression ⟨"1 - :x * 2 - 3 < 4\n", ⟨19, 19, 2, 1⟩, .empty⟩ (differences.tokens ++ rest) =
        .ok (differencesTree.datum, after) ∧ after.val = rest := by
  intro rest
  have hrest : ∀ token ∈ rest.head?, ∀ op, token.kind ≠ .operator op := by
    rintro token ⟨⟩ op
    simp
  obtain ⟨tree, after, hread, hafter, -, -, honly⟩ := operators_group_by_level
    ⟨"1 - :x * 2 - 3 < 4\n", ⟨19, 19, 2, 1⟩, .empty⟩ differences rest hrest
  rw [honly differencesTree rfl (by decide)]
  exact ⟨after, hread, hafter⟩

end Logo
