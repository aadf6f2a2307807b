import Logo.Procedure.Table

/-!
# The built-in procedures

Names and inputs of all built-in procedures. Some actions have a short name too.
-/

namespace Logo

def nativeProcedure (name : String) (params : List String) (action : Native) : Procedure where
  name
  params
  kind := .native action
  body := []
  source := none

def specialProcedure (name : String) (params : List String) (form : Special) : Procedure where
  name
  params
  kind := .special form
  body := []
  source := none

def arithmeticPrimitives : List Procedure := [
  nativeProcedure "add" ["a", "b"] .add,
  nativeProcedure "sub" ["a", "b"] .subtract,
  nativeProcedure "mul" ["a", "b"] .multiply,
  nativeProcedure "div" ["a", "b"] .divide,
  nativeProcedure "mod" ["a", "b"] .modulo,
  nativeProcedure "integer" ["n"] .integer,
  nativeProcedure "round" ["n"] .round]

def logicPrimitives : List Procedure := [
  nativeProcedure "equal?" ["a", "b"] .equal,
  nativeProcedure "notequal?" ["a", "b"] .notEqual,
  nativeProcedure "less?" ["a", "b"] .less,
  nativeProcedure "greater?" ["a", "b"] .greater,
  nativeProcedure "lessequal?" ["a", "b"] .lessEqual,
  nativeProcedure "greaterequal?" ["a", "b"] .greaterEqual,
  nativeProcedure "and" ["a", "b"] .and,
  nativeProcedure "or" ["a", "b"] .or,
  nativeProcedure "not" ["a"] .not]

def controlPrimitives : List Procedure := [
  nativeProcedure "alias" ["original", "alias"] .nameAgain,
  specialProcedure "output" ["value"] .output,
  specialProcedure "stop" [] .stop,
  specialProcedure "thing" ["name"] .thing,
  specialProcedure "local" ["name"] .declare,
  specialProcedure "make" ["name", "value"] .make,
  specialProcedure "localmake" ["name", "value"] .declareMake,
  specialProcedure "if" ["condition", "iftrue"] .ifThen,
  specialProcedure "ifelse" ["condition", "iftrue", "iffalse"] .ifElse,
  specialProcedure "repeat" ["count", "block"] .repeatBlock,
  specialProcedure "run" ["block"] .run,
  specialProcedure "pause" [] .pause,
  specialProcedure "map" ["template", "values"] (.iterate .map),
  specialProcedure "filter" ["template", "values"] (.iterate .filter),
  specialProcedure "find" ["template", "values"] (.iterate .find)]

def dataPrimitives : List Procedure := [
  nativeProcedure "first" ["thing"] .first,
  nativeProcedure "last" ["thing"] .last,
  nativeProcedure "butfirst" ["thing"] .butFirst,
  nativeProcedure "butlast" ["thing"] .butLast,
  nativeProcedure "item" ["index", "thing"] .item,
  nativeProcedure "setitem" ["index", "list", "value"] .setItem,
  nativeProcedure "fput" ["thing", "list"] .putFirst,
  nativeProcedure "lput" ["thing", "list"] .putLast,
  nativeProcedure "reverse" ["thing"] .reverse,
  nativeProcedure "word" ["a", "b"] .joinWord,
  nativeProcedure "list" ["a", "b"] .makeList,
  nativeProcedure "sentence" ["a", "b"] .sentence,
  nativeProcedure "lowercase" ["thing"] .lowercase,
  nativeProcedure "uppercase" ["thing"] .uppercase,
  nativeProcedure "gensym" [] .freshSymbol,
  nativeProcedure "count" ["thing"] .count,
  nativeProcedure "empty?" ["thing"] .isEmpty,
  nativeProcedure "word?" ["thing"] .isWord,
  nativeProcedure "number?" ["thing"] .isNumber,
  nativeProcedure "list?" ["thing"] .isList,
  nativeProcedure "member?" ["thing", "list"] .isMember]

def consolePrimitives : List Procedure := [
  nativeProcedure "print" ["thing"] .print,
  nativeProcedure "show" ["thing"] .display,
  nativeProcedure "type" ["thing"] .write,
  nativeProcedure "readword" [] .readWord,
  nativeProcedure "readlist" [] .readList]

def turtlePrimitives : List Procedure := [
  nativeProcedure "forward" ["amount"] .forward,
  nativeProcedure "fd" ["amount"] .forward,
  nativeProcedure "back" ["amount"] .back,
  nativeProcedure "bk" ["amount"] .back,
  nativeProcedure "right" ["amount"] .right,
  nativeProcedure "rt" ["amount"] .right,
  nativeProcedure "left" ["amount"] .left,
  nativeProcedure "lt" ["amount"] .left,
  nativeProcedure "turtlepos" [] .position,
  nativeProcedure "home" [] .home,
  nativeProcedure "clearscreen" [] .clearScreen,
  nativeProcedure "cs" [] .clearScreen]

def primitives : List Procedure :=
  arithmeticPrimitives ++ logicPrimitives ++ controlPrimitives ++ dataPrimitives ++
    consolePrimitives ++ turtlePrimitives

/-- The procedure table before any program has been read. -/
def Procedures.standard : Procedures :=
  primitives.foldl Procedures.define .empty

end Logo
