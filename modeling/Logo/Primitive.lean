/-!
# The actions of the built-in procedures

A native runs at once on its inputs, in a scope of its own. A special form runs in the scope of its
caller and may ask for further work before it is done.
-/

namespace Logo

inductive Native where
  | add
  | subtract
  | multiply
  | divide
  | modulo
  | integer
  | round
  | equal
  | notEqual
  | less
  | greater
  | lessEqual
  | greaterEqual
  | and
  | or
  | not
  | nameAgain
  | first
  | last
  | butFirst
  | butLast
  | item
  | setItem
  | putFirst
  | putLast
  | reverse
  | joinWord
  | makeList
  | sentence
  | lowercase
  | uppercase
  | freshSymbol
  | count
  | isEmpty
  | isWord
  | isNumber
  | isList
  | isMember
  | print
  | display
  | write
  | readWord
  | readList
  | forward
  | back
  | right
  | left
  | position
  | home
  | clearScreen
  deriving DecidableEq

/-- What a template does with the values of its runs. -/
inductive Iteration where
  | map
  | filter
  | find
  deriving DecidableEq

inductive Special where
  | output
  | stop
  | thing
  | declare
  | make
  | declareMake
  | ifThen
  | ifElse
  | repeatBlock
  | run
  | pause
  | iterate (mode : Iteration)
  deriving DecidableEq

inductive ProcedureKind where
  | userDefined
  | native (action : Native)
  | special (form : Special)
  deriving DecidableEq

end Logo
