import Logo.Program.Fault

/-!
# Token sequences

Reading takes tokens from the front of a sequence. Every reading function says how much shorter the
rest is, so that reading ends.
-/

namespace Logo

/-- What is left of a sequence when at least one token has been taken. -/
abbrev Shorter (tokens : List Token) := { rest : List Token // rest.length < tokens.length }

/-- What is left of a sequence when perhaps no token has been taken. -/
abbrev Remaining (tokens : List Token) := { rest : List Token // rest.length ≤ tokens.length }

def TokenKind.isNewline : TokenKind → Bool
  | .newline => true
  | _ => false

def skipNewlines (tokens : List Token) : List Token :=
  tokens.dropWhile (·.kind.isNewline)

theorem length_skipNewlines_le (tokens : List Token) :
    (skipNewlines tokens).length ≤ tokens.length :=
  (List.dropWhile_sublist _).length_le

theorem length_lt_of_skipNewlines {tokens rest : List Token} {token : Token}
    (hnext : skipNewlines tokens = token :: rest) : rest.length < tokens.length := by
  have hskip := length_skipNewlines_le tokens
  simp only [hnext, List.length_cons] at hskip
  omega

theorem length_lt_of_skipNewlines_of_lt {tokens rest after : List Token} {token : Token}
    (hnext : skipNewlines tokens = token :: rest) (hafter : after.length < (token :: rest).length) :
    after.length < tokens.length := by
  have hskip := length_skipNewlines_le tokens
  rw [hnext] at hskip
  omega

theorem length_lt_of_lt_of_le {tokens middle rest : List Token}
    (hmiddle : middle.length < tokens.length) (hrest : rest.length ≤ middle.length) :
    rest.length < tokens.length :=
  Nat.lt_of_le_of_lt hrest hmiddle

theorem length_le_of_lt_of_le {tokens middle rest : List Token}
    (hmiddle : middle.length < tokens.length) (hrest : rest.length ≤ middle.length) :
    rest.length ≤ tokens.length :=
  Nat.le_of_lt (length_lt_of_lt_of_le hmiddle hrest)

theorem length_lt_of_lt_of_lt {tokens middle rest : List Token}
    (hmiddle : middle.length < tokens.length) (hrest : rest.length < middle.length) :
    rest.length < tokens.length :=
  Nat.lt_trans hrest hmiddle

/-- All tokens are left. -/
def Remaining.all (tokens : List Token) : Remaining tokens :=
  ⟨tokens, Nat.le_refl _⟩

/-- The place of the next token, or of the end of the text. -/
def nextSpan (finish : Span) : List Token → Span
  | [] => finish
  | token :: _ => token.span

end Logo
