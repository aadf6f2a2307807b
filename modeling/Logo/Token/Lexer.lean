import Logo.Token
import Logo.Text.Blank
import Logo.Text.Letter
import Logo.Text.Numeric

/-!
# Cutting a text into tokens

Code and list text follow different rules. In code, names, numbers and operators are told apart,
comments run to the end of their line, and line ends are tokens. Between brackets only white space
and brackets separate words. The bracket depth says which rules hold: it is zero in code.
-/

namespace Logo

inductive LexFault where
  | missingName
  | unexpected (c : Char)
  /-- A numeral that 64 signed bits do not hold. -/
  | integerRange (text : String)
  deriving DecidableEq

def LexFault.message : LexFault → String
  | .missingName => "Expected a variable name after ':'"
  | .unexpected c => "Unexpected character: '" ++ c.toString ++ "'"
  | .integerRange text => "Invalid integer literal: " ++ text

structure LexError where
  fault : LexFault
  line : Nat
  column : Nat

/-- Characters that end a quoted word or a variable name. -/
def isDelimiter (c : Char) : Bool :=
  Text.isBlank c || c == ':' || c == '[' || c == ']' || c == '(' || c == ')'

def startsSymbol (c : Char) : Bool :=
  Text.isLetter c || c == '_' || c == '?'

def continuesSymbol (c : Char) : Bool :=
  Text.isLetter c || Text.isNumeric c || c == '_' || c == '-' || c == '!' || c == '?' || c == '.'

/-- Characters that end a raw word in a list. -/
def endsWord (c : Char) : Bool :=
  Text.isBlank c || c == '[' || c == ']'

/-- What stands at the front of a text. -/
structure Lexeme where
  kind : TokenKind
  /-- The characters it covers after the first. -/
  tail : List Char
  /-- The bracket depth behind it. -/
  depth : Nat

/-- A lexeme of code, after which code goes on. -/
def Lexeme.code (kind : TokenKind) (tail : List Char) : Lexeme where
  kind
  tail
  depth := 0

/-- A numeral with its sign or first digit `c` already seen. A point belongs to it only if a digit
follows. -/
def numberLexeme (c : Char) (rest : List Char) : Except LexFault Lexeme :=
  let more := rest.takeWhile Char.isDigit
  let negative := c == '-'
  let whole := if negative then more else c :: more
  let integer :=
    match readInteger negative whole with
    | some value => .ok (.code (.number (.integer value)) more)
    | none => .error (.integerRange (String.ofList (c :: more)))
  match rest.drop more.length with
  | '.' :: digit :: after =>
    if digit.isDigit then
      let fraction := digit :: after.takeWhile Char.isDigit
      .ok (.code (.number (.float (readFloat negative whole fraction))) (more ++ '.' :: fraction))
    else integer
  | _ => integer

/-- Keywords are known in small and capital letters; every other name is a symbol. -/
def symbolKind (name : String) : TokenKind :=
  match name.toLower with
  | "to" => .define
  | "end" => .close
  | "nil" => .nil
  | "true" => .boolean true
  | "false" => .boolean false
  | _ => .symbol name

def symbolLexeme (c : Char) (rest : List Char) : Lexeme :=
  let tail := rest.takeWhile continuesSymbol
  .code (symbolKind (String.ofList (c :: tail))) tail

def quoteLexeme (rest : List Char) : Lexeme :=
  let tail := rest.takeWhile (!isDelimiter ·)
  .code (.quote (String.ofList tail)) tail

def referenceLexeme (rest : List Char) : Except LexFault Lexeme :=
  let tail := rest.takeWhile (!isDelimiter ·)
  if tail.isEmpty then .error .missingName
  else .ok (.code (.reference (String.ofList tail)) tail)

/-- An operator of one character, or of two if the second is an equals sign. -/
def operatorLexeme (single double : Operator) (rest : List Char) : Lexeme :=
  match rest with
  | '=' :: _ => .code (.operator double) ['=']
  | _ => .code (.operator single) []

/-- The lexeme of code that starts with `c`, which is neither white space nor the start of a
comment. -/
def codeLexeme (c : Char) (rest : List Char) : Except LexFault Lexeme :=
  match c with
  | '\n' => .ok (.code .newline [])
  | '(' => .ok (.code .leftParen [])
  | ')' => .ok (.code .rightParen [])
  | '[' => .ok ⟨.leftBracket, [], 1⟩
  | ']' => .ok (.code .rightBracket [])
  | '+' => .ok (.code (.operator .plus) [])
  | '*' => .ok (.code (.operator .star) [])
  | '/' => .ok (.code (.operator .slash) [])
  | '-' =>
    match rest with
    | digit :: _ =>
      if digit.isDigit then numberLexeme c rest else .ok (.code (.operator .minus) [])
    | [] => .ok (.code (.operator .minus) [])
  | '=' => .ok (operatorLexeme .equal .equalEqual rest)
  | '<' => .ok (operatorLexeme .less .lessEqual rest)
  | '>' => .ok (operatorLexeme .greater .greaterEqual rest)
  | '!' =>
    match rest with
    | '=' :: _ => .ok (.code (.operator .bangEqual) ['='])
    | _ => .error (.unexpected c)
  | '"' => .ok (quoteLexeme rest)
  | ':' => referenceLexeme rest
  | _ =>
    if c.isDigit then numberLexeme c rest
    else if startsSymbol c then .ok (symbolLexeme c rest)
    else .error (.unexpected c)

/-- The lexeme of list text that starts with `c`, which is no white space. -/
def listLexeme (depth : Nat) (c : Char) (rest : List Char) : Lexeme :=
  match c with
  | '[' => ⟨.leftBracket, [], depth + 1⟩
  | ']' => ⟨.rightBracket, [], depth - 1⟩
  | _ =>
    let tail := rest.takeWhile (!endsWord ·)
    ⟨.word (String.ofList (c :: tail)), tail, depth⟩

def lexeme (depth : Nat) (c : Char) (rest : List Char) : Except LexFault Lexeme :=
  if depth = 0 then codeLexeme c rest else .ok (listLexeme depth c rest)

/-- White space separates tokens; in code a line end is a token itself. -/
def isSkipped (depth : Nat) (c : Char) : Bool :=
  Text.isBlank c && (c != '\n' || depth != 0)

/-- The tokens of a text, and the empty span at its end. -/
structure Scan where
  tokens : List Token
  finish : Span

def Scan.cons (token : Token) (scan : Scan) : Scan :=
  { scan with tokens := token :: scan.tokens }

def scanFrom (depth : Nat) (position : Position) (text : List Char) : Except LexError Scan :=
  match text with
  | [] => .ok ⟨[], .between position position⟩
  | c :: rest =>
    if isSkipped depth c then
      scanFrom depth (position.advance c) rest
    else if depth = 0 ∧ c = ';' then
      let comment := c :: rest.takeWhile (· != '\n')
      scanFrom depth (position.advanceAll comment) (rest.dropWhile (· != '\n'))
    else
      match lexeme depth c rest with
      | .error fault => .error ⟨fault, position.line, position.column⟩
      | .ok lexeme =>
        let stop := position.advanceAll (c :: lexeme.tail)
        (scanFrom lexeme.depth stop (rest.drop lexeme.tail.length)).map
          (.cons ⟨lexeme.kind, .between position stop⟩)
termination_by text.length
decreasing_by
  · simp only [List.length_cons]; omega
  · have := (List.dropWhile_sublist (l := rest) (· != '\n')).length_le
    simp only [List.length_cons]; omega
  · simp only [List.length_cons, List.length_drop]; omega

/-- Cuts a source text into its tokens. -/
def Scan.ofSource (source : String) : Except LexError Scan :=
  scanFrom 0 .origin source.toList

end Logo
