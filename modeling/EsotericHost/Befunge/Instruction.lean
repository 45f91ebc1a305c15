import EsotericHost.Befunge.Field

/-!
# Playfield instructions

What the character under the pointer does outside of a string. Every character is an instruction;
those without a meaning are passed over.
-/

namespace EsotericHost.Befunge

/-- Operations on the two topmost numbers. -/
inductive Arithmetic where
  | add
  | sub
  | mul
  | div
  | rem
  | greater
  deriving Repr, DecidableEq

/-- The result for `a` on top of `b`, or nothing for a division by zero. All results wrap;
division goes toward zero. -/
def Arithmetic.result? (operation : Arithmetic) (b a : Int64) : Option Int64 :=
  match operation with
  | add => some (b + a)
  | sub => some (b - a)
  | mul => some (b * a)
  | div => if a = 0 then none else some (b / a)
  | rem => if a = 0 then none else some (b % a)
  | greater => some (if a < b then 1 else 0)

/-- What a character does. -/
inductive Instruction where
  | digit (n : Nat)
  | arithmetic (operation : Arithmetic)
  | negate
  | turn (d : Direction)
  | turnAtRandom
  | turnSideways
  | turnUpright
  | quote
  | dup
  | swap
  | drop
  | printNumber
  | printCharacter
  | bridge
  | put
  | fetch
  | inputNumber
  | inputCharacter
  | stop
  | nothing
  deriving Repr, DecidableEq

/-- The instruction of a character. -/
def Instruction.ofChar (c : Char) : Instruction :=
  match c with
  | '+' => arithmetic .add
  | '-' => arithmetic .sub
  | '*' => arithmetic .mul
  | '/' => arithmetic .div
  | '%' => arithmetic .rem
  | '\x60' => arithmetic .greater
  | '!' => negate
  | '>' => turn .right
  | '<' => turn .left
  | '^' => turn .up
  | 'v' => turn .down
  | '?' => turnAtRandom
  | '_' => turnSideways
  | '|' => turnUpright
  | '"' => quote
  | ':' => dup
  | '\\' => swap
  | '$' => drop
  | '.' => printNumber
  | ',' => printCharacter
  | '#' => bridge
  | 'p' => put
  | 'g' => fetch
  | '&' => inputNumber
  | '~' => inputCharacter
  | '@' => stop
  | c => if '0' ≤ c ∧ c ≤ '9' then digit (c.toNat - 48) else nothing

end EsotericHost.Befunge
