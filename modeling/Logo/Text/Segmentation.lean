/-!
# The characters of a word

Words are sequences of user-perceived characters. Where a text is to be cut is no rule of the
language. All that it relies on is that the pieces make up the text and that none of them is empty.
-/

namespace Logo

/-- A way to cut texts into characters. -/
class Segmentation where
  pieces : String → List String
  join_pieces (text : String) : String.join (pieces text) = text
  ne_empty_of_mem_pieces {text piece : String} : piece ∈ pieces text → piece ≠ ""

end Logo
