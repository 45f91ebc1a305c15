import EsotericHost.Text.Lines

/-!
# Programs of line lengths

Only the length of a line matters: each of sixteen lengths is an instruction and every other length
does nothing. With comments, a line ends for this purpose before its first number sign.
-/

namespace EsotericHost.Length

/-- What a line does. -/
inductive Instruction where
  | input
  | add
  | sub
  | dup
  | skipIfZero
  | jump
  | printNumber
  | printCharacter
  | rollUp
  | swap
  | mul
  | div
  | drop
  | jumpBy
  | push
  | rollDown
  | nothing
  deriving Repr, DecidableEq

namespace Instruction

/-- The instruction that a line of the given length stands for. -/
def ofLength : Nat → Instruction
  | 9 => input
  | 10 => add
  | 11 => sub
  | 12 => dup
  | 13 => skipIfZero
  | 14 => jump
  | 15 => printNumber
  | 16 => printCharacter
  | 17 => rollUp
  | 18 => swap
  | 20 => mul
  | 21 => div
  | 23 => drop
  | 24 => jumpBy
  | 25 => push
  | 27 => rollDown
  | _ => nothing

/-- The name under which an instruction is echoed. -/
def name : Instruction → String
  | input => "inp"
  | add => "add"
  | sub => "sub"
  | dup => "dup"
  | skipIfZero => "cond"
  | jump => "gotou"
  | printNumber => "outn"
  | printCharacter => "outa"
  | rollUp => "rol"
  | swap => "swap"
  | mul => "mul"
  | div => "div"
  | drop => "pop"
  | jumpBy => "gotos"
  | push => "push"
  | rollDown => "ror"
  | nothing => "nop"

end Instruction

/-- The length of a line without the carriage return at its end and, if asked, without its
comment. -/
def measure (comments : Bool) (line : List Char) : Nat :=
  let line := Text.dropReturn '\r' line
  (if comments then line.takeWhile (· ≠ '#') else line).length

/-- The lengths of the lines of a source; an empty source has no line. -/
def lengths (comments : Bool) (source : List Char) : List Nat :=
  if source.isEmpty then [] else (Text.pieces '\n' source).map (measure comments)

/-- A line of the given length. -/
def filler (length : Nat) : String :=
  String.ofList (List.replicate length 'x')

/-- A program that prints a text: for each character a line that pushes the length of the next, a
line as long as the code point, and a line that prints. -/
def ofText (text : String) : String :=
  "\n".intercalate (text.toList.flatMap fun c => [filler 25, filler c.toNat, filler 16])

end EsotericHost.Length
