import EsotericHost.Befunge.Machine
import EsotericHost.Element.Machine
import EsotericHost.Length.Machine
import EsotericHost.Proofs.Machine.Lawful

/-!
# What instructions are put together from

The parts of the instructions of three machines: of the line machine, the playfield machine and the
token machine. What is to hold of every instruction of such a machine is shown of these parts only.
A part that moves values about without notice is one only where such parts count.

The commands of the tape machine are few, and whether they fail depends on where the data pointer
is. They are looked at one by one.
-/

namespace EsotericHost

open Act

/-! ## The line machine -/

namespace Length

/-- The lines that an instruction goes on to from a line: the next two, and those that a number can
name. -/
def Following (line target : Nat) : Prop :=
  target = line + 1 ∨ target = line + 2 ∨ (target : Int) < Word.intBound

/-- The instructions that move the values of the stack without notice. -/
def Instruction.Rolls (instruction : Instruction) : Prop :=
  instruction = .rollUp ∨ instruction = .rollDown

/-- The parts of an instruction on a line. -/
inductive Basic (line : Nat) (rolls : Prop) : (α : Type) → Step α → Prop
  | push (n : Int64) : Basic line rolls Unit (push n)
  | pop : Basic line rolls Int64 pop
  | goTo {target : Nat} (following : Following line target) : Basic line rolls Unit (goTo target)
  | roll (allowed : rolls) (f : List Int64 → List Int64) :
    Basic line rolls Unit (Act.modify fun s => { s with stack := f s.stack })

/-- A part of a call that is put together from these. -/
abbrev Assembled (line : Nat) (rolls : Prop) {α : Type} (act : Step α) : Prop :=
  Composed (· ≠ .notWaiting) (Basic line rolls) act

/-- An instruction that does not wait is, from any state, put together from these parts. -/
theorem assembled_execute (instruction : Instruction) (s : State) :
    ∃ act : Step Unit, execute instruction s = act s ∧
      Assembled s.line instruction.Rolls act := by
  have hpush (n : Int64) : Assembled s.line instruction.Rolls (push n) := .basic (.push n)
  have hpop : Assembled s.line instruction.Rolls pop := .basic .pop
  -- All instructions but the jumps go on to the line after this one.
  have hgoOn : Assembled s.line instruction.Rolls (goTo (s.line + 1)) :=
    .basic (.goTo (.inl rfl))
  have hjump (target : Int64) : Assembled s.line instruction.Rolls (jumpTo target) := by
    refine .bind .get fun s => ?_
    split
    · exact .fail Trouble.noConfusion
    · have hlt := target.toInt_lt
      refine .basic (.goTo (.inr (.inr ?_)))
      rw [Word.intBound]
      omega
  have hbinary (operation : Int64 → Int64 → Option Int64) :
      Assembled s.line instruction.Rolls (binary operation >>= fun _ => goTo (s.line + 1)) := by
    refine .bind (.bind .get fun s => .bind hpop fun a => .bind hpop fun b => ?_) fun _ => hgoOn
    split
    · exact hpush _
    · exact .fail Trouble.noConfusion
  unfold execute
  rw [get_bind_apply]
  cases instruction with
  | input => exact ⟨_, rfl, hgoOn⟩
  | add => exact ⟨_, rfl, hbinary _⟩
  | sub => exact ⟨_, rfl, hbinary _⟩
  | mul => exact ⟨_, rfl, hbinary _⟩
  | div => exact ⟨_, rfl, hbinary _⟩
  | dup =>
    refine ⟨_, rfl, .bind hpop fun n => ?_⟩
    exact .bind (hpush n) fun _ => .bind (hpush n) fun _ => hgoOn
  | skipIfZero =>
    refine ⟨_, rfl, .bind hpop fun n => .basic (.goTo ?_)⟩
    split
    · exact .inr (.inl rfl)
    · exact .inl rfl
  | jump => exact ⟨_, rfl, .bind hpop hjump⟩
  | jumpBy =>
    refine ⟨_, rfl, .bind hpop fun n => ?_⟩
    dsimp only
    split
    · exact hjump _
    · exact .fail Trouble.noConfusion
  | printNumber => exact ⟨_, rfl, .bind hpop fun n => .bind (.print _) fun _ => hgoOn⟩
  | printCharacter => exact ⟨_, rfl, .bind hpop fun n => .bind (.print _) fun _ => hgoOn⟩
  | rollUp => exact ⟨_, rfl, .bind (.basic (.roll (.inl rfl) rollUp)) fun _ => hgoOn⟩
  | rollDown => exact ⟨_, rfl, .bind (.basic (.roll (.inr rfl) rollDown)) fun _ => hgoOn⟩
  | swap =>
    refine ⟨_, rfl, .bind hpop fun n => .bind hpop fun k => ?_⟩
    exact .bind (hpush n) fun _ => .bind (hpush k) fun _ => hgoOn
  | drop => exact ⟨_, rfl, .bind hpop fun _ => hgoOn⟩
  | push =>
    dsimp only
    cases s.lines[s.line + 1]? with
    | some value =>
      exact ⟨_, rfl, .bind (hpush _) fun _ => .basic (.goTo (.inr (.inl rfl)))⟩
    | none => exact ⟨_, rfl, .fail Trouble.noConfusion⟩
  | nothing => exact ⟨_, rfl, hgoOn⟩

end Length

/-! ## The playfield machine -/

namespace Befunge

/-- The parts of an instruction; only a bridge moves the pointer by itself. -/
inductive Basic (moves : Prop) : (α : Type) → Step α → Prop
  | push (n : Int64) : Basic moves Unit (push n)
  | pop : Basic moves Int64 pop
  | turn (direction : Direction) : Basic moves Unit (turn direction)
  | turnAtRandom (draw : Nat → Direction) : Basic moves Unit
    (Act.modify fun s => { s with direction := draw s.draws, draws := s.draws + 1 })
  | quoting (b : Bool) : Basic moves Unit (Act.modify fun s => { s with quoting := b })
  | advance (allowed : moves) : Basic moves Unit advance
  | put : Basic moves Unit put

/-- A part of a call that is put together from these, and fails outside them only with a division by
zero. -/
abbrev Assembled (moves : Prop) {α : Type} (act : Step α) : Prop :=
  Composed (fun e => ∃ x y, e = .divisionByZero x y) (Basic moves) act

/-- An instruction that neither waits nor stops is put together from these parts. -/
theorem assembled_execute (draw : Nat → Direction) (instruction : Instruction) :
    Assembled (instruction = .bridge) (execute draw instruction) := by
  have hpush (n : Int64) : Assembled (instruction = .bridge) (push n) := .basic (.push n)
  have hpop : Assembled (instruction = .bridge) pop := .basic .pop
  cases instruction with
  | digit n => exact hpush _
  | arithmetic operation =>
    refine .bind hpop fun a => .bind hpop fun b => .bind .get fun s => ?_
    split
    · exact hpush _
    · exact .fail ⟨s.x, s.y, rfl⟩
  | negate => exact .bind hpop fun a => hpush _
  | turn d => exact .basic (.turn d)
  | turnAtRandom => exact .basic (.turnAtRandom draw)
  | turnSideways => exact .bind hpop fun a => .basic (.turn _)
  | turnUpright => exact .bind hpop fun a => .basic (.turn _)
  | quote => exact .basic (.quoting true)
  | dup => exact .bind hpop fun a => .bind (hpush a) fun _ => hpush a
  | swap => exact .bind hpop fun a => .bind hpop fun b => .bind (hpush a) fun _ => hpush b
  | drop => exact .bind hpop fun _ => .pure _
  | printNumber => exact .bind hpop fun a => .print _
  | printCharacter => exact .bind hpop fun a => .print _
  | bridge => exact .basic (.advance rfl)
  | put => exact .basic .put
  | fetch => exact .bind hpop fun y => .bind hpop fun x => .bind .get fun s => hpush _
  | inputNumber | inputCharacter | stop | nothing => exact .pure _

/-- A character inside a string is pushed, or it ends the string. -/
theorem assembled_quoted (c : Char) : Assembled False (quoted c) := by
  unfold quoted
  split
  · exact .basic (.quoting false)
  · exact .basic (.push _)

end Befunge

/-! ## The token machine -/

namespace Element

/-- The parts of a token; those of a command leave the loops that run as they are. -/
inductive Basic (raises loops : Prop) : (α : Type) → Step α → Prop
  | pushOn (stack : Stack) (v : Value) : Basic raises loops Unit (pushOn stack v)
  | popFrom (stack : Stack) : Basic raises loops Value (popFrom stack)
  | assign (name : String) (v : Value) : Basic raises loops Unit (assign name v)
  | raise (allowed : raises) (depth : Nat) : Basic raises loops Unit (raise depth)
  | frames (allowed : loops) (f : List Frame → List Frame) :
    Basic raises loops Unit (Act.modify fun s => { s with loops := f s.loops })

/-- The failures of a command that are not those of its parts. -/
inductive Trouble.Computing : Trouble → Prop
  | undefinedVariable (name : String) (place : Place) : Computing (.undefinedVariable name place)
  | divisionByZero (place : Place) : Computing (.divisionByZero place)

/-- A part of a command that is put together from these, and fails outside them only with what goes
wrong in a computation. -/
abbrev Assembled (raises : Prop) {α : Type} (act : Step α) : Prop :=
  Composed Trouble.Computing (Basic raises False) act

/-- A command that does not wait is put together from these parts. -/
theorem assembled_command (c : Command) : Assembled (c = .raise) (command c) := by
  have hpushOn (stack : Stack) (v : Value) : Assembled (c = .raise) (pushOn stack v) :=
    .basic (.pushOn stack v)
  have hpush (v : Value) : Assembled (c = .raise) (push v) := hpushOn .main v
  have hpop : Assembled (c = .raise) pop := .basic (.popFrom .main)
  have hcontrol : Assembled (c = .raise) (popFrom .control) := .basic (.popFrom .control)
  have hcopies (v : Value) (n : Nat) : Assembled (c = .raise) (pushCopies v n) := by
    induction n with
    | zero => exact .pure _
    | succ n ih => exact .bind (hpush v) fun _ => ih
  cases c with
  | input => exact .pure _
  | print => exact .bind hpop fun v => .print _
  | assign => exact .bind hpop fun name => .bind hpop fun v => .basic (.assign _ _)
  | lookUp =>
    refine .bind hpop fun name => .bind .get fun s => ?_
    split
    · exact hpush _
    · split
      · exact hpush _
      · exact .fail (.undefinedVariable _ _)
  | arithmetic operation =>
    refine .bind hpop fun x => .bind hpop fun y => ?_
    split
    · exact hpush _
    · exact .bind .get fun s => .fail (.divisionByZero _)
  | compare comparison => exact .bind hpop fun x => .bind hpop fun y => hpushOn _ _
  | not => exact .bind hcontrol fun x => hpushOn _ _
  | and | or => exact .bind hcontrol fun x => .bind hcontrol fun y => hpushOn _ _
  | toControl | test => exact .bind hpop fun v => hpushOn _ _
  | fromControl => exact .bind hcontrol fun v => hpush _
  | copies => exact .bind hpop fun count => .bind hpop fun v => hcopies _ _
  | toNumber | textLength | character => exact .bind hpop fun v => hpush _
  | splitFirst | splitLast => exact .bind hpop fun v => .bind (hpush _) fun _ => hpush _
  | concat => exact .bind hpop fun x => .bind hpop fun y => hpush _
  | raise => exact .bind hpop fun depth => .basic (.raise rfl _)

/-- To enter a counted loop is put together from the parts of a token. -/
theorem composed_enterLoop (start : Nat) (close : Option Nat) {raises : Prop} :
    Composed (fun _ => True) (Basic raises True) (enterLoop start close) := by
  refine .bind (.basic (.popFrom .main)) fun v => ?_
  dsimp only
  split
  · exact .bind (.basic (.frames trivial (⟨start, _⟩ :: ·))) fun _ => .pure _
  · split
    · exact .pure _
    · exact .fail trivial

/-- To end a round of a counted loop is put together from them as well. -/
theorem composed_endRound (start here position : Nat) {raises : Prop} :
    Composed (fun _ => True) (Basic raises True) (endRound start here position) := by
  refine .bind .get fun s => ?_
  split
  · exact .fail trivial
  · rename_i frame outer hloops
    dsimp only
    split
    · exact .fail trivial
    · split
      · exact .bind (.basic (.frames trivial fun _ => { frame with rounds := _ } :: outer))
          fun _ => .pure _
      · exact .bind (.basic (.frames trivial fun _ => outer)) fun _ => .pure _

/-- A token that does not wait is put together from these parts. -/
theorem composed_execute (here : Nat) (token : Token) :
    Composed (fun _ => True) (Basic (token.op = .command .raise) True) (execute here token) := by
  unfold execute
  split
  · exact .bind (.basic (.pushOn .main _)) fun _ => .pure _
  · rename_i c hop
    refine .bind ((assembled_command c).mono (fun _ _ => trivial) fun _ _ hx => ?_) fun _ => .pure _
    cases hx with
    | pushOn stack v => exact .pushOn stack v
    | popFrom stack => exact .popFrom stack
    | assign name v => exact .assign name v
    | raise allowed depth => exact .raise (hop.trans (congrArg Op.command allowed)) depth
    | frames allowed f => exact allowed.elim
  · exact composed_enterLoop _ _
  · exact composed_endRound _ _ _
  · exact .pure _
  · exact .bind (.basic (.popFrom .control)) fun v => .pure _

end Element

end EsotericHost
