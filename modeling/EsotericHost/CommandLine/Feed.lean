import EsotericHost.Input
import EsotericHost.Json.Basic

/-!
# Feeding a program

The input of a program that is run from the command line is one text. A `Feed` hands it out: a
character for each request of a byte, a line for each request of a line.
-/

namespace EsotericHost

/-- The text that has not been handed out yet. -/
structure Feed where
  rest : List Char
  /-- How many characters have been handed out. -/
  position : Nat
  deriving Repr, DecidableEq

namespace Feed

/-- The whole of a text. -/
def ofText (text : String) : Feed := ⟨text.toList, 0⟩

/-- The feed without some characters at its front. -/
def drop (count : Nat) (f : Feed) : Feed :=
  ⟨f.rest.drop count, f.position + (f.rest.take count).length⟩

/-- The characters up to the end of the line. -/
def line (f : Feed) : List Char :=
  f.rest.takeWhile (· ≠ '\n')

/-- The answer to a request, and the feed after it. A byte is the code point of the next character,
or 0 if there is none. A line ends at the line feed, which is passed over. -/
def next : InputKind → Feed → Json × Feed
  | .byte, f => (.ofNat ((f.rest.head?.map Char.toNat).getD 0), f.drop 1)
  | .line, f => (.string (String.ofList f.line), f.drop (f.line.length + 1))

end Feed

end EsotericHost
