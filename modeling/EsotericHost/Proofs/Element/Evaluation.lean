import EsotericHost.Element.Machine
import EsotericHost.Proofs.Element.Code
import EsotericHost.Proofs.Machine.Code
import EsotericHost.Proofs.Machine.Printing

/-!
# What a token tree does

The meaning of a token program that is read as a tree. `[B]` takes a number off the main stack and
does `B` so many times, if it is positive; `{B}` does `B`, takes a value off the control stack, and
does so again as long as the value is true. `Evaluates` says how a tree ends and what it leaves of
the stacks, the variables, the inputs that it may ask for and the text that it prints. It knows
neither an index nor a frame of a loop that runs. A tree for which it says nothing runs forever.

What a command does is not spelt out again: it does what the machine does with it when it stands
alone (`Plain.does`).
-/

namespace EsotericHost.Element

/-- What a program works on. -/
structure World where
  /-- The stacks, their tops first. -/
  main : List Value
  control : List Value
  /-- The variables, in the order of their names. -/
  bindings : List (String × Value)
  /-- The inputs that the program has not asked for yet. -/
  inputs : List Input
  printed : String
  deriving DecidableEq

namespace World

/-- Empty stacks and no variables. -/
def start (inputs : List Input) : World := ⟨[], [], [], inputs, ""⟩

/-- The machine in front of a command that is all of its program. -/
def alone (w : World) (autovivification : Bool) (position : Nat) (c : Command) : State :=
  { autovivification, program := #[⟨position, .command c⟩], next := 0, main := w.main
    control := w.control, bindings := w.bindings, loops := [], waiting := false }

/-- The world that a call of the machine leaves. -/
def after {α : Type} (w : World) (turn : Turn Trouble State α) : World :=
  { main := turn.state.main, control := turn.state.control, bindings := turn.state.bindings
    inputs := w.inputs, printed := w.printed ++ Effect.texts turn.effects }

end World

/-- How a program ends: at its end, at a token that fails, or at one that asks for an input when
there is none. -/
inductive Verdict where
  | ended
  | failed (trouble : Trouble)
  | starved
  deriving Repr, DecidableEq

/-- What the machine answers when a program ends. -/
def Verdict.answer : Verdict → Except Upset Outcome
  | ended => .ok .halted
  | failed trouble => .error trouble.upset
  | starved => .ok (.suspended .line)

/-- Whether the program goes on after a call of the machine, and the world that is left. -/
def World.judge (w : World) (turn : Turn Trouble State Unit) : Except Verdict Unit × World :=
  (turn.result.mapError .failed, w.after turn)

/-- A call of the machine succeeds and the program goes on, or it fails and the program ends with
its failure. -/
theorem World.judge_cases (w : World) (turn : Turn Trouble State Unit) :
    (turn.result = .ok () ∧ w.judge turn = (.ok (), w.after turn)) ∨
      ∃ trouble, turn.result = .error trouble ∧
        w.judge turn = (.error (.failed trouble), w.after turn) := by
  obtain ⟨result, state, effects⟩ := turn
  cases result with
  | ok _ => exact .inl ⟨rfl, rfl⟩
  | error trouble => exact .inr ⟨trouble, rfl, rfl⟩

/-- What a token that is no bracket does at a place in the source: whether the program goes on or
how it ends, and the world that is left. -/
def Plain.does (autovivification : Bool) (position : Nat) (w : World) :
    Plain → Except Verdict Unit × World
  | word letters => (.ok (), { w with main := .ofWord letters :: w.main })
  | command .input =>
    match w.inputs with
    | [] => (.error .starved, w)
    | input :: inputs => (.ok (), { w with main := .text (inputText input) :: w.main, inputs })
  | command c => w.judge (Element.command c (w.alone autovivification position c))

/-- What is left of a program to do. -/
inductive Job where
  /-- A row of tokens and loops. -/
  | tree (t : Tree)
  /-- So many rounds of a counted loop, and then the row that follows it. -/
  | rounds (n : Nat) (body rest : Tree)
  /-- A round of a conditional loop, more of them as its condition says, and then the row that
  follows it. The place is that of the closing bracket. -/
  | passes (closed : Nat) (body rest : Tree)
  deriving Repr, DecidableEq

/-- How a job ends that is done in a world, and the world that it leaves. -/
inductive Evaluates (autovivification : Bool) : Job → World → Verdict → World → Prop where
  | done {w : World} : Evaluates autovivification (.tree .done) w .ended w
  | plain {position : Nat} {p : Plain} {rest : Tree} {w w' w'' : World} {v : Verdict}
    (does : p.does autovivification position w = (.ok (), w'))
    (after : Evaluates autovivification (.tree rest) w' v w'') :
    Evaluates autovivification (.tree (.plain position p rest)) w v w''
  | stuck {position : Nat} {p : Plain} {rest : Tree} {w w' : World} {v : Verdict}
    (ends : p.does autovivification position w = (.error v, w')) :
    Evaluates autovivification (.tree (.plain position p rest)) w v w'
  /-- The number of rounds is the top of the main stack, cut down to an integer of 64 bits. -/
  | counted {opened closed : Nat} {body rest : Tree} {w w' : World} {v : Verdict} {value : Value}
    {values : List Value} (top : w.main = value :: values)
    (after : Evaluates autovivification
      (.rounds (Decimal.truncate value.toFloat).toNat body rest) { w with main := values } v w') :
    Evaluates autovivification (.tree (.loop .counted opened closed body rest)) w v w'
  | countless {opened closed : Nat} {body rest : Tree} {w : World} (empty : w.main = []) :
    Evaluates autovivification (.tree (.loop .counted opened closed body rest)) w
      (.failed (.underflow (.position opened) .main)) w
  | conditional {opened closed : Nat} {body rest : Tree} {w w' : World} {v : Verdict}
    (after : Evaluates autovivification (.passes closed body rest) w v w') :
    Evaluates autovivification (.tree (.loop .conditional opened closed body rest)) w v w'
  | spent {body rest : Tree} {w w' : World} {v : Verdict}
    (after : Evaluates autovivification (.tree rest) w v w') :
    Evaluates autovivification (.rounds 0 body rest) w v w'
  | round {n : Nat} {body rest : Tree} {w w' w'' : World} {v : Verdict}
    (inside : Evaluates autovivification (.tree body) w .ended w')
    (after : Evaluates autovivification (.rounds n body rest) w' v w'') :
    Evaluates autovivification (.rounds (n + 1) body rest) w v w''
  | brokenRound {n : Nat} {body rest : Tree} {w w' : World} {v : Verdict}
    (inside : Evaluates autovivification (.tree body) w v w') (ends : v ≠ .ended) :
    Evaluates autovivification (.rounds (n + 1) body rest) w v w'
  /-- The condition is the top of the control stack after each round. -/
  | again {closed : Nat} {body rest : Tree} {w w' w'' : World} {v : Verdict} {value : Value}
    {values : List Value} (inside : Evaluates autovivification (.tree body) w .ended w')
    (top : w'.control = value :: values) (holds : value.truthy = true)
    (after : Evaluates autovivification (.passes closed body rest) { w' with control := values } v
      w'') :
    Evaluates autovivification (.passes closed body rest) w v w''
  | leave {closed : Nat} {body rest : Tree} {w w' w'' : World} {v : Verdict} {value : Value}
    {values : List Value} (inside : Evaluates autovivification (.tree body) w .ended w')
    (top : w'.control = value :: values) (fails : value.truthy = false)
    (after : Evaluates autovivification (.tree rest) { w' with control := values } v w'') :
    Evaluates autovivification (.passes closed body rest) w v w''
  | conditionless {closed : Nat} {body rest : Tree} {w w' : World}
    (inside : Evaluates autovivification (.tree body) w .ended w') (empty : w'.control = []) :
    Evaluates autovivification (.passes closed body rest) w
      (.failed (.underflow (.position closed) .control)) w'
  | brokenPass {closed : Nat} {body rest : Tree} {w w' : World} {v : Verdict}
    (inside : Evaluates autovivification (.tree body) w v w') (ends : v ≠ .ended) :
    Evaluates autovivification (.passes closed body rest) w v w'

/-- A token is not the end of a program. -/
theorem Plain.does_ne_ended {autovivification : Bool} {position : Nat} {w w' : World} {v : Verdict}
    {p : Plain} (hp : p.does autovivification position w = (.error v, w')) : v ≠ .ended := by
  unfold does at hp
  split at hp
  · cases hp
  · split at hp <;> cases hp
    exact Verdict.noConfusion
  · rename_i c _
    rcases w.judge_cases (Element.command c (w.alone autovivification position c)) with
      ⟨-, hjudge⟩ | ⟨trouble, -, hjudge⟩
    · cases hjudge.symm.trans hp
    · cases hjudge.symm.trans hp
      exact Verdict.noConfusion

/-! ## Where the code of a tree stands -/

/-- The code holds the code of the tree from an index on. -/
def Tree.At (code : List Token) (base : Nat) (tree : Tree) : Prop :=
  tree.code base <+: code.drop base

variable {code : List Token} {base : Nat}

/-- The code of a row that begins with a plain token has it first, and behind it that of the rest.
-/
theorem Tree.At.plain {position : Nat} {p : Plain} {rest : Tree}
    (h : (Tree.plain position p rest).At code base) :
    code[base]? = some ⟨position, p.op⟩ ∧ rest.At code (base + 1) :=
  prefix_drop_cons h

/-- The code of a row that begins with a loop has the two brackets, the body between them and the
rest behind. -/
theorem Tree.At.loop {kind : Loop} {opened closed : Nat} {body rest : Tree}
    (h : (Tree.loop kind opened closed body rest).At code base) :
    code[base]? = some ⟨opened, kind.openOp (base + body.size + 1)⟩ ∧ body.At code (base + 1) ∧
      code[base + body.size + 1]? = some ⟨closed, kind.closeOp base⟩ ∧
      rest.At code (base + body.size + 2) := by
  obtain ⟨hopening, hinside⟩ := prefix_drop_cons h
  obtain ⟨hbody, hclosing⟩ := prefix_drop_append hinside
  have hplace : base + 1 + (body.code (base + 1)).length = base + body.size + 1 := by
    rw [Tree.length_code]
    omega
  rw [hplace] at hclosing
  obtain ⟨hpartner, hrest⟩ := prefix_drop_cons hclosing
  exact ⟨hopening, hbody, hpartner, hrest⟩

end EsotericHost.Element
