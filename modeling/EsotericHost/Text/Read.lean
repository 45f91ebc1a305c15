/-!
# Reading from the front of a text

The readers of this library take what they read off the front of a list of characters.
-/

namespace EsotericHost.Text

/-- What a reader gives: a value and the rest of the text, or nothing if the text does not start
with what is wanted. -/
abbrev Read (α : Type) := Option (α × List Char)

/-- The text after a byte order mark at its front. -/
def dropMark : List Char → List Char
  | '\uFEFF' :: rest => rest
  | cs => cs

end EsotericHost.Text
