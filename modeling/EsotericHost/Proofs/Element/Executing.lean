import EsotericHost.Proofs.Element.Evaluation
import EsotericHost.Proofs.Machine.Element

/-!
# Tokens in a program

A command of the token machine looks at the stacks, the variables and an option, and at its own
place in the source if it fails; it neither sees the rest of the program nor the loops that run
(`Local`). So it does in a program what it does when it stands alone (`execute_of_ok`,
`execute_of_error`). A bracket moves the index and the frames of the loops that run, and nothing of
the world but what it takes off a stack.
-/

namespace EsotericHost.Element

open Act

/-! ## Commands see their place only -/

/-- The stacks and the variables of one state where another one stands in its program. -/
def State.holding (base s : State) : State :=
  { base with main := s.main, control := s.control, bindings := s.bindings }

/-- Two states with the option and the place in common. -/
structure Alike (base s : State) : Prop where
  autovivification_eq : s.autovivification = base.autovivification
  place_eq : s.place = base.place

/-- A part of a call that does the same to the stacks and the variables wherever the machine stands,
if the option and the place are the same. -/
def Local {α : Type} (x : Step α) : Prop :=
  ∀ base s, Alike base s → x (base.holding s) = (x s).mapState base.holding ∧
    Alike base (x s).state

variable {α β : Type}

/-- Two local parts of a call are local one after the other. -/
theorem Local.bind {x : Step α} {f : α → Step β} (hx : Local x) (hf : ∀ a, Local (f a)) :
    Local (x >>= f) := by
  intro base s hs
  obtain ⟨hheld, halike⟩ := hx base s hs
  obtain ⟨t, ht⟩ : ∃ t, x s = t := ⟨_, rfl⟩
  obtain ⟨result, s', effects⟩ := t
  rw [ht] at hheld halike
  cases result with
  | ok a =>
    obtain ⟨hrest, hstill⟩ := hf a base s' halike
    rw [bind_of_ok ht, bind_of_ok hheld, hrest]
    exact ⟨rfl, hstill⟩
  | error e =>
    rw [bind_of_error ht, bind_of_error hheld]
    exact ⟨rfl, halike⟩

/-- To give a value is local. -/
theorem local_pure (a : α) : Local (pure a) := fun _ _ hs => ⟨rfl, hs⟩

/-- To print is local. -/
theorem local_print (text : String) : Local (print text) := fun _ _ hs => ⟨rfl, hs⟩

/-- A push is local. -/
theorem local_pushOn (stack : Stack) (v : Value) : Local (pushOn stack v) := by
  intro base s hs
  cases stack <;> exact ⟨rfl, hs.1, hs.2⟩

/-- A pop is local. -/
theorem local_popFrom (stack : Stack) : Local (popFrom stack) := by
  intro base s hs
  have hheld : (base.holding s).stack stack = s.stack stack := by cases stack <;> rfl
  unfold popFrom
  rw [get_bind_apply, get_bind_apply, hheld, hs.place_eq]
  cases s.stack stack with
  | nil => exact ⟨rfl, hs⟩
  | cons v rest => cases stack <;> exact ⟨rfl, hs.1, hs.2⟩

/-- To give a variable a value is local. -/
theorem local_assign (name : String) (v : Value) : Local (assign name v) :=
  fun _ _ hs => ⟨rfl, hs.1, hs.2⟩

/-- A failure mentions the place of the machine, which is the same in both states. -/
theorem local_failHere (trouble : Place → Trouble) : Local (failHere (α := α) trouble) := by
  intro base s hs
  unfold failHere
  rw [get_bind_apply, get_bind_apply, hs.place_eq]
  exact ⟨rfl, hs⟩

/-- To look up a variable is local. -/
theorem local_lookUp (name : String) : Local (lookUp name) := by
  intro base s hs
  have hheld : (base.holding s).bindings = s.bindings := rfl
  have hoption : (base.holding s).autovivification = base.autovivification := rfl
  unfold lookUp
  rw [get_bind_apply, get_bind_apply, hheld, hoption, hs.autovivification_eq, hs.place_eq]
  cases Table.find? name s.bindings with
  | some v => exact local_pushOn .main v base s hs
  | none =>
    cases base.autovivification with
    | true => exact local_pushOn .main (.text "") base s hs
    | false => exact ⟨rfl, hs⟩

/-- To raise a value is local. -/
theorem local_raise (depth : Nat) : Local (raise depth) := by
  intro base s hs
  have hheld : (base.holding s).main = s.main := rfl
  unfold raise
  rw [get_bind_apply, get_bind_apply, hheld, hs.place_eq]
  cases s.main[depth]? with
  | some v => exact ⟨rfl, hs.1, hs.2⟩
  | none => exact ⟨rfl, hs⟩

/-- To push copies of a value is local. -/
theorem local_pushCopies (v : Value) (n : Nat) : Local (pushCopies v n) := by
  induction n with
  | zero => exact local_pure ()
  | succ n ih => exact .bind (local_pushOn .main v) fun _ => ih

/-- A command does the same wherever it stands. -/
theorem local_command (c : Command) : Local (command c) := by
  have hpush (v : Value) : Local (push v) := local_pushOn .main v
  have hpop : Local pop := local_popFrom .main
  have hcontrol : Local (popFrom .control) := local_popFrom .control
  have hanswer (v : Value) : Local (pushOn .control v) := local_pushOn .control v
  cases c with
  | input => exact local_pure ()
  | print => exact hpop.bind fun v => local_print _
  | assign => exact hpop.bind fun name => hpop.bind fun v => local_assign _ _
  | lookUp => exact hpop.bind fun name => local_lookUp _
  | arithmetic operation =>
    refine hpop.bind fun x => hpop.bind fun y => ?_
    split
    · exact hpush _
    · exact local_failHere _
  | compare comparison => exact hpop.bind fun x => hpop.bind fun y => hanswer _
  | not => exact hcontrol.bind fun x => hanswer _
  | and | or => exact hcontrol.bind fun x => hcontrol.bind fun y => hanswer _
  | toControl | test => exact hpop.bind fun v => hanswer _
  | fromControl => exact hcontrol.bind fun v => hpush _
  | copies => exact hpop.bind fun count => hpop.bind fun v => local_pushCopies _ _
  | toNumber | textLength | character => exact hpop.bind fun v => hpush _
  | splitFirst | splitLast => exact hpop.bind fun v => (hpush _).bind fun _ => hpush _
  | concat => exact hpop.bind fun x => hpop.bind fun y => hpush _
  | raise => exact hpop.bind fun depth => local_raise _

/-! ## Tokens in a world -/

/-- The machine that is at a token of its program, in a world, with some loops that run. -/
def World.state (w : World) (s : State) (i : Nat) (loops : List Frame) : State :=
  { s with
    next := i, main := w.main, control := w.control, bindings := w.bindings, loops
    waiting := false }

variable {s : State} {w w' : World} {i : Nat} {loops : List Frame} {token : Token}

/-- A machine that is taken to a token does not wait. -/
theorem not_waiting (w : World) (s : State) (i : Nat) (loops : List Frame) :
    ¬ (w.state s i loops).waiting = true :=
  Bool.false_ne_true

/-- What the machine finds at the place where it stands. -/
theorem found {token? : Option Token} (hcode : s.program.toList[i]? = token?) :
    (w.state s i loops).program[(w.state s i loops).next]? = token? := by
  rw [← hcode, Array.getElem?_toList]
  rfl

/-- The place of the machine is that of the token at which it stands. -/
theorem place_state (hcode : s.program.toList[i]? = some token) :
    (w.state s i loops).place = .position token.position := by
  unfold State.place
  rw [found hcode]

/-- A call that answers so, and leaves the machine at the same token with some loops that run, in a
world whose text it has printed. -/
structure Turns {α : Type} (w : World) (s : State) (i : Nat) (result : Except Trouble α)
    (w' : World) (loops : List Frame) (turn : Turn Trouble State α) : Prop where
  result_eq : turn.result = result
  state_eq : turn.state = w'.state s i loops
  inputs_eq : w'.inputs = w.inputs
  printed_eq : w'.printed = w.printed ++ Effect.texts turn.effects

namespace Turns

variable {a : α} {e : Trouble} {x : Step α}

/-- What takes a stack or the variables on without printing. -/
theorem of_notify {result : Except Trouble α} {notice : Notice} {turn : Turn Trouble State α}
    (hturn : turn = ⟨result, w'.state s i loops, [.notify notice]⟩) (hinputs : w'.inputs = w.inputs)
    (hprinted : w'.printed = w.printed) : Turns w s i result w' loops turn := by
  subst hturn
  exact ⟨rfl, rfl, hinputs, hprinted.trans String.append_empty.symm⟩

/-- What leaves the world as it is. -/
theorem of_quiet {result : Except Trouble α} {turn : Turn Trouble State α}
    (hturn : turn = ⟨result, w.state s i loops, []⟩) : Turns w s i result w loops turn := by
  subst hturn
  exact ⟨rfl, rfl, rfl, String.append_empty.symm⟩

/-- A call that goes on without printing answers what comes of the rest of it. -/
theorem bind_of_quiet {result : Except Trouble β} {before : State} {f : α → Step β}
    {loops' : List Frame} (h : Turns w s i (.ok a) w' loops (x before))
    (hrest : f a (w'.state s i loops) = ⟨result, w'.state s i loops', []⟩) :
    Turns w s i result w' loops' ((x >>= f) before) := by
  obtain ⟨turn, hturn⟩ : ∃ turn, x before = turn := ⟨_, rfl⟩
  rw [hturn] at h
  obtain ⟨result, after, effects⟩ := turn
  obtain ⟨rfl, rfl, hinputs, hprinted⟩ := h
  rw [bind_of_ok hturn, hrest]
  refine ⟨rfl, rfl, hinputs, ?_⟩
  change _ = w.printed ++ Effect.texts (effects ++ [])
  rw [List.append_nil]
  exact hprinted

/-- A call that fails answers so whatever would have come next. -/
theorem bind_of_error {before : State} {f : α → Step β}
    (h : Turns w s i (.error e) w' loops (x before)) :
    Turns w s i (.error e) w' loops ((x >>= f) before) := by
  obtain ⟨turn, hturn⟩ : ∃ turn, x before = turn := ⟨_, rfl⟩
  rw [hturn] at h
  obtain ⟨result, after, effects⟩ := turn
  obtain ⟨rfl, rfl, hinputs, hprinted⟩ := h
  rw [Act.bind_of_error hturn]
  exact ⟨rfl, rfl, hinputs, hprinted⟩

end Turns

/-! ### Plain tokens -/

/-- A command does in a program what it does when it stands alone. -/
theorem command_turns {c : Command} {result : Except Trouble Unit}
    (hcode : s.program.toList[i]? = some token)
    (hresult : (command c (w.alone s.autovivification token.position c)).result = result) :
    Turns w s i result (w.after (command c (w.alone s.autovivification token.position c))) loops
      (command c (w.state s i loops)) := by
  have halike : Alike (w.state s i loops) (w.alone s.autovivification token.position c) :=
    ⟨rfl, (place_state hcode).symm⟩
  obtain ⟨hheld, -⟩ := local_command c _ _ halike
  have hstate : command c (w.state s i loops) =
      (command c (w.alone s.autovivification token.position c)).mapState
        (w.state s i loops).holding := hheld
  rw [hstate]
  exact ⟨hresult, rfl, rfl, rfl⟩

/-- A command that asks for no input is judged by what it does alone. -/
theorem does_command {c : Command} (hc : c ≠ .input) (autovivification : Bool) (position : Nat) :
    (Plain.command c).does autovivification position w =
      w.judge (command c (w.alone autovivification position c)) := by
  cases c with
  | input => exact absurd rfl hc
  | _ => rfl

/-- A plain token that does its work is carried out by the machine, which goes on to the next token.
-/
theorem execute_of_ok {p : Plain} (hp : p ≠ .command .input) {position : Nat}
    (hcode : s.program.toList[i]? = some ⟨position, p.op⟩)
    (hd : p.does s.autovivification position w = (.ok (), w')) :
    Turns w s i (.ok (i + 1)) w' loops (execute i ⟨position, p.op⟩ (w.state s i loops)) := by
  cases p with
  | word letters =>
    cases hd
    exact .of_notify rfl rfl rfl
  | command c =>
    rw [does_command fun h => hp (congrArg _ h)] at hd
    rcases w.judge_cases (command c (w.alone s.autovivification position c)) with
      ⟨hresult, hjudge⟩ | ⟨trouble, -, hjudge⟩
    · cases hjudge.symm.trans hd
      exact (command_turns hcode hresult).bind_of_quiet rfl
    · cases hjudge.symm.trans hd

/-- A plain token that fails does so in the machine, with what it has done before. -/
theorem execute_of_error {p : Plain} (hp : p ≠ .command .input) {position : Nat} {v : Verdict}
    (loops : List Frame) (hcode : s.program.toList[i]? = some ⟨position, p.op⟩)
    (hd : p.does s.autovivification position w = (.error v, w')) :
    ∃ trouble, v = .failed trouble ∧
      Turns w s i (.error trouble) w' loops (execute i ⟨position, p.op⟩ (w.state s i loops)) := by
  cases p with
  | word letters => cases hd
  | command c =>
    rw [does_command fun h => hp (congrArg _ h)] at hd
    rcases w.judge_cases (command c (w.alone s.autovivification position c)) with
      ⟨-, hjudge⟩ | ⟨trouble, hresult, hjudge⟩
    · cases hjudge.symm.trans hd
    · cases hjudge.symm.trans hd
      exact ⟨trouble, rfl, (command_turns hcode hresult).bind_of_error⟩

/-! ### Brackets -/

/-- A stack that is empty has no top. -/
theorem popFrom_nil {stack : Stack} (hcode : s.program.toList[i]? = some token)
    (hstack : (w.state s i loops).stack stack = []) :
    Turns w s i (.error (.underflow (.position token.position) stack)) w loops
      (popFrom stack (w.state s i loops)) := by
  refine .of_quiet ?_
  unfold popFrom
  rw [get_bind_apply, hstack, place_state hcode]
  rfl

/-- A value on top of a stack is popped, wherever the machine stands. -/
theorem popFrom_cons {stack : Stack} {v : Value} {values : List Value}
    (hstack : (w.state s i loops).stack stack = v :: values)
    (hleft : (w.state s i loops).withStack stack values = w'.state s i loops)
    (hinputs : w'.inputs = w.inputs) (hprinted : w'.printed = w.printed) :
    Turns w s i (.ok v) w' loops (popFrom stack (w.state s i loops)) := by
  have hpop : popFrom stack (w.state s i loops) =
      ⟨.ok v, w'.state s i loops, [.notify (.popped (some stack.name) v.toJson)]⟩ := by
    unfold popFrom
    rw [get_bind_apply, hstack, ← hleft]
    rfl
  exact .of_notify hpop hinputs hprinted

/-- Where a counted loop goes on that has some rounds left: behind its opening bracket, or behind
its closing one. -/
def target (start close : Nat) : Nat → Nat
  | 0 => close + 1
  | _ + 1 => start + 1

/-- The loops that run when a counted loop inside others has some rounds left. -/
def running (start : Nat) (outer : List Frame) : Nat → List Frame
  | 0 => outer
  | n + 1 => ⟨start, (n + 1 : Nat)⟩ :: outer

variable {value : Value} {values : List Value} {close start here position : Nat}

/-- A counted loop is entered with as many rounds as the top of the main stack says. -/
theorem enterLoop_cons (hmain : w.main = value :: values) :
    Turns w s i (.ok (target i close (Decimal.truncate value.toFloat).toNat))
      { w with main := values }
      (running i loops (Decimal.truncate value.toFloat).toNat)
      (enterLoop i (some close) (w.state s i loops)) := by
  have hpop : Turns w s i (.ok value) { w with main := values } loops
      (popFrom .main (w.state s i loops)) := popFrom_cons hmain rfl rfl rfl
  refine hpop.bind_of_quiet ?_
  dsimp only
  cases hn : (Decimal.truncate value.toFloat).toNat with
  | zero =>
    rw [if_neg (by omega)]
    rfl
  | succ n =>
    have hrounds : Decimal.truncate value.toFloat = ((n + 1 : Nat) : Int) := by omega
    rw [hrounds, if_pos (by omega)]
    rfl

/-- The end of a round takes one off the rounds that are left. -/
theorem endRound_running {n : Nat} (hn : ((n + 1 : Nat) : Int) < Word.intBound) :
    Turns w s i (.ok (target start here n)) w (running start loops n)
      (endRound start here position (w.state s i (running start loops (n + 1)))) := by
  have hholds : Word.holdsInt (((n + 1 : Nat) : Int) - 1) = true := by
    unfold Word.intBound at hn
    unfold Word.holdsInt Word.intBound
    rw [Bool.and_eq_true]
    exact ⟨decide_eq_true (by omega), decide_eq_true (by omega)⟩
  refine .of_quiet ?_
  unfold endRound
  rw [get_bind_apply]
  have hloops : (w.state s i (running start loops (n + 1))).loops =
      ⟨start, (n + 1 : Nat)⟩ :: loops := rfl
  rw [hloops]
  dsimp only
  rw [if_neg (not_not_intro hholds)]
  cases n with
  | zero =>
    rw [if_neg (by omega)]
    rfl
  | succ n =>
    have hleft : ((n + 1 + 1 : Nat) : Int) - 1 = ((n + 1 : Nat) : Int) := by omega
    rw [hleft, if_pos (by omega)]
    rfl

end EsotericHost.Element
