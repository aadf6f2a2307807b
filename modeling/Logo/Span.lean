/-!
# Places in a source text

A position counts bytes from the start of the text, lines from one, and characters of the line from
one. A span is the stretch between two positions, with the line and column of the first.
-/

namespace Logo

structure Position where
  offset : Nat
  line : Nat
  column : Nat
  deriving DecidableEq

/-- The start of every text. -/
def Position.origin : Position where
  offset := 0
  line := 1
  column := 1

def Position.advance (position : Position) (c : Char) : Position where
  offset := position.offset + c.utf8Size
  line := if c = '\n' then position.line + 1 else position.line
  column := if c = '\n' then 1 else position.column + 1

def Position.advanceAll (position : Position) (text : List Char) : Position :=
  text.foldl Position.advance position

structure Span where
  start : Nat
  stop : Nat
  line : Nat
  column : Nat
  deriving DecidableEq

/-- The span of what was not read from any text. -/
def Span.nowhere : Span where
  start := 0
  stop := 0
  line := 0
  column := 0

def Span.between (first last : Position) : Span where
  start := first.offset
  stop := last.offset
  line := first.line
  column := first.column

/-- From the start of `first` to the end of `last`. -/
def Span.through (first last : Span) : Span where
  start := first.start
  stop := last.stop
  line := first.line
  column := first.column

/-- The characters left of a text after its first bytes, a character that the cut would divide
included. -/
def dropBytes (bytes : Nat) : List Char → List Char
  | [] => []
  | c :: rest => if bytes = 0 then c :: rest else dropBytes (bytes - c.utf8Size) rest

/-- The characters that start in the first bytes of a text. -/
def takeBytes (bytes : Nat) : List Char → List Char
  | [] => []
  | c :: rest => if bytes = 0 then [] else c :: takeBytes (bytes - c.utf8Size) rest

/-- The text between two byte offsets that lie on character boundaries. -/
def sliceBytes (source : String) (start stop : Nat) : String :=
  String.ofList (takeBytes (stop - start) (dropBytes start source.toList))

end Logo
