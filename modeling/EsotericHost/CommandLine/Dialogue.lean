import EsotericHost.Variables.Basic

/-!
# Talking with the surroundings

What the program does outside itself: it reads files and variables, takes its input and writes to
its two outputs. A `Dialogue` is the program as a tree of such questions and of what it does with
each answer, so that the whole program is a value. `Surroundings.hold` carries a dialogue out on
surroundings that are themselves a value.
-/

namespace EsotericHost

/-- What stands at a path. -/
inductive FileContent where
  | missing
  /-- Something that is not a text. -/
  | unreadable
  | text (content : String)
  deriving Repr, DecidableEq

/-- What the program asks of its surroundings. -/
inductive Question where
  | file (path : String)
  | environment
  /-- All that is left of the input. -/
  | wholeInput
  /-- The input up to the next line feed. -/
  | nextLine
  | say (text : String)
  | complain (text : String)

/-- The answers to a question. There is no whole input if it is not a text, and no next line if the
input is used up. -/
@[reducible]
def Question.Answer : Question → Type
  | file _ => FileContent
  | environment => Variables
  | wholeInput => Option String
  | nextLine => Option (List UInt8)
  | say _ | complain _ => Unit

/-- A program that ends with a value. -/
inductive Dialogue (α : Type) where
  | done (a : α)
  | ask (q : Question) (next : q.Answer → Dialogue α)
  /-- There is no end: a bound was passed. -/
  | never

namespace Dialogue

variable {α β : Type}

/-- Goes on with the value at the end. -/
protected def bind : Dialogue α → (α → Dialogue β) → Dialogue β
  | done a, f => f a
  | ask q next, f => ask q fun answer => (next answer).bind f
  | never, _ => never

instance : Monad Dialogue where
  pure := done
  bind := Dialogue.bind

/-- Asks one question. -/
def put (q : Question) : Dialogue q.Answer := ask q done

/-- Goes on with a value, if there is one. -/
def ofOption : Option α → Dialogue α
  | some a => done a
  | none => never

end Dialogue

/-- Surroundings as a value. -/
structure Surroundings where
  files : String → FileContent
  environment : Variables
  /-- The input that has not been taken. -/
  input : List UInt8

/-- What a program leaves behind: what it wrote to its outputs, and its value. -/
structure Report (α : Type) where
  said : String
  complaints : String
  value : α

namespace Surroundings

/-- The byte that ends a line of the input. -/
def lineFeed : UInt8 := 10

/-- The next line of the input, and the surroundings without it. -/
def takeLine (s : Surroundings) : Option (List UInt8) × Surroundings :=
  match s.input with
  | [] => (none, s)
  | bytes =>
    (some (bytes.takeWhile (· ≠ lineFeed)),
      { s with input := (bytes.dropWhile (· ≠ lineFeed)).drop 1 })

/-- The whole input as a text, and the surroundings without it. -/
def takeInput (s : Surroundings) : Option String × Surroundings :=
  (String.fromUTF8? (ByteArray.mk s.input.toArray), { s with input := [] })

/-- Carries out a dialogue; the outputs so far are given. -/
def hold {α : Type} : Dialogue α → Surroundings → String → String → Option (Report α)
  | .done value, _, said, complaints => some ⟨said, complaints, value⟩
  | .never, _, _, _ => none
  | .ask (.file path) next, s, said, complaints => hold (next (s.files path)) s said complaints
  | .ask .environment next, s, said, complaints => hold (next s.environment) s said complaints
  | .ask .wholeInput next, s, said, complaints =>
    hold (next s.takeInput.1) s.takeInput.2 said complaints
  | .ask .nextLine next, s, said, complaints =>
    hold (next s.takeLine.1) s.takeLine.2 said complaints
  | .ask (.say text) next, s, said, complaints => hold (next ()) s (said ++ text) complaints
  | .ask (.complain text) next, s, said, complaints => hold (next ()) s said (complaints ++ text)

end Surroundings

end EsotericHost
