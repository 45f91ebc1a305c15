/-!
# Characters and their code points

Machines hold numbers and print characters. A number that is no code point prints as the
replacement character, so printing never fails.
-/

namespace EsotericHost.Text

/-- The replacement character, U+FFFD. -/
def replacement : Char := '\uFFFD'

/-- The character with the given code point, or the replacement character if there is none. -/
def charOfCode (code : Int) : Char :=
  if 0 ≤ code ∧ code.toNat.isValidChar then Char.ofNat code.toNat else replacement

/-- The code point of the first character, if there is a character at all. -/
def firstCode? (s : String) : Option Int :=
  s.toList.head?.map fun c => (c.toNat : Int)

/-- A text of one character. -/
def single (c : Char) : String :=
  String.ofList [c]

end EsotericHost.Text
