import EsotericHost.Host.Session
import EsotericHost.Proofs.Brainfuck.Evaluation
import EsotericHost.Proofs.Machine.Brainfuck
import EsotericHost.Proofs.Machine.Driven
import EsotericHost.Proofs.Machine.Printing

/-!
# The tape machine does what the bracket tree says

A machine is driven by running it without a limit and giving it the next input whenever it waits for
one (`Session.drive`). The tape machine takes one instruction of its code after the other, as
`advance` says, and so a source whose brackets are balanced is driven to the end that its tree has
(`threaded_refines_structured`).
-/

namespace EsotericHost

namespace Brainfuck

/-- The machine that is at an instruction of its program, in a world. -/
def World.state (w : World) (s : State) (i : Nat) : State :=
  { s with tape := w.tape, pointer := w.pointer, next := i, waiting := false }

variable {s : State} {w w' : World} {i j : Nat} {v : Verdict}

/-- The pointer of a good machine is on a cell. -/
theorem pointer_lt_size (hg : (w.state s i).Good) : w.pointer < w.tape.size := by
  have hsize : w.tape.size = s.reelLength := hg.size_eq
  rw [hsize]
  exact hg.pointer_lt

/-- The current cell of the machine is that of the world. -/
theorem cell_state (hg : (w.state s i).Good) :
    cell (w.state s i) = ⟨.ok w.cell, w.state s i, []⟩ := by
  have hcell : (w.state s i).tape[(w.state s i).pointer]? = some w.cell := by
    change w.tape[w.pointer]? = some w.cell
    rw [World.cell, Array.getElem?_eq_getElem (pointer_lt_size hg)]
    rfl
  rw [cell, hcell]

/-- To store a value is to store it in the world, and to tell of it. -/
theorem store_state (hg : (w.state s i).Good) (value : Int) :
    ∃ notice, store value (w.state s i) =
      ⟨.ok (), (w.store s.cellType value).state s i, [.notify notice]⟩ := by
  have hlt : (w.state s i).pointer < (w.state s i).tape.size := pointer_lt_size hg
  have htape : (w.store s.cellType value).tape = w.tape.set w.pointer (s.cellType.wrap value) hlt :=
    dif_pos hlt
  refine ⟨.cell w.pointer (s.cellType.wrap value), ?_⟩
  calc store value (w.state s i)
    _ = ⟨.ok (), _, [.notify (.cell w.pointer (s.cellType.wrap value))]⟩ := dif_pos hlt
    _ = ⟨.ok (), (w.store s.cellType value).state s i, _⟩ := by
      unfold World.state
      rw [htape]
      rfl

/-- A cell may be changed by one. -/
theorem add_state (hg : (w.state s i).Good) (difference : Int)
    (hd : -1 ≤ difference ∧ difference ≤ 1) :
    ∃ notice, add difference (w.state s i) =
      ⟨.ok (), (w.store s.cellType (w.cell + difference)).state s i, [.notify notice]⟩ := by
  obtain ⟨value, hvalue, hrange⟩ := cell_apply hg
  obtain rfl : w.cell = value := by
    have hcell := (cell_state hg).symm.trans hvalue
    rw [Turn.mk.injEq, Except.ok.injEq] at hcell
    exact hcell.1
  have hholds : Word.holdsInt (w.cell + difference) = true := holdsInt_add hrange hd
  obtain ⟨notice, hstore⟩ := store_state hg (w.cell + difference)
  refine ⟨notice, ?_⟩
  unfold add
  rw [Act.bind_of_ok (cell_state hg), if_pos hholds, hstore]
  rfl

/-- The machine that waits at an input. -/
def World.waitingState (w : World) (s : State) (i : Nat) : State :=
  { w.state s i with waiting := true }

/-- A call that ends in the machine which is at another instruction in another world, and prints
what is printed there and was not before. -/
structure TakesTo {ε α : Type} (result : Except ε α) (w : World) (s : State) (j : Nat) (w' : World)
    (turn : Turn ε State α) : Prop where
  result_eq : turn.result = result
  state_eq : turn.state = w'.state s j
  printed_eq : w'.printed = w.printed ++ Effect.texts turn.effects

/-- A part of a call that prints nothing before the rest goes on to the next instruction. -/
theorem goOn_after {act : Step Unit} {notice : Notice} (hact : act (w.state s i) =
    ⟨.ok (), w'.state s i, [.notify notice]⟩) (hprinted : w'.printed = w.printed) :
    TakesTo (.ok ()) w s (i + 1) w' ((do act; goOn) (w.state s i)) := by
  rw [Act.bind_of_ok hact]
  refine ⟨rfl, rfl, ?_⟩
  rw [hprinted]
  exact String.append_empty.symm

/-- A command that does something is carried out so. -/
theorem execute_of_ok (hg : (w.state s i).Good) {b : Basic} {position : Nat} (hb : b ≠ .input)
    (he : b.effect s.cellType position w = .ok w') :
    w'.inputs = w.inputs ∧
      TakesTo (.ok ()) w s (i + 1) w' (execute ⟨position, b.op⟩ (w.state s i)) := by
  have hsize : w.tape.size = s.reelLength := hg.size_eq
  have hlt : w.pointer < s.reelLength := hg.pointer_lt
  unfold execute
  rw [Act.get_bind_apply]
  cases b with
  | input => exact absurd rfl hb
  | right =>
    rw [Basic.effect] at he
    split at he
    · rename_i hp
      cases he
      refine ⟨rfl, ?_⟩
      have hroom : ¬ (w.state s i).reelLength ≤ (w.state s i).pointer + 1 := by
        change ¬ s.reelLength ≤ w.pointer + 1
        omega
      dsimp only [Basic.op]
      rw [if_neg hroom]
      exact goOn_after rfl rfl
    · cases he
  | left =>
    rw [Basic.effect] at he
    split at he
    · rename_i hp
      cases he
      refine ⟨rfl, ?_⟩
      have hroom : ¬ (w.state s i).pointer = 0 := Nat.pos_iff_ne_zero.mp hp
      dsimp only [Basic.op]
      rw [if_neg hroom]
      exact goOn_after rfl rfl
    · cases he
  | increment =>
    cases he
    obtain ⟨notice, hadd⟩ := add_state hg 1 (by omega)
    exact ⟨rfl, goOn_after hadd rfl⟩
  | decrement =>
    cases he
    obtain ⟨notice, hadd⟩ := add_state hg (-1) (by omega)
    exact ⟨rfl, goOn_after hadd rfl⟩
  | output =>
    cases he
    refine ⟨rfl, ?_⟩
    dsimp only [Basic.op]
    rw [Act.bind_of_ok (cell_state hg)]
    refine ⟨rfl, rfl, ?_⟩
    change _ = w.printed ++ (Text.single (Text.charOfCode w.cell) ++ "")
    rw [String.append_empty]

/-- A command that does nothing leaves the machine where it is. -/
theorem execute_of_error {b : Basic} {position : Nat} (hsize : w.tape.size = s.reelLength)
    (hb : b ≠ .input) (he : b.effect s.cellType position w = .error v) :
    ∃ trouble : Trouble, .error trouble.upset = v.answer s.reelLength ∧
      execute ⟨position, b.op⟩ (w.state s i) = ⟨.error trouble, w.state s i, []⟩ := by
  unfold execute
  rw [Act.get_bind_apply]
  cases b with
  | input => exact absurd rfl hb
  | increment => cases he
  | decrement => cases he
  | output => cases he
  | right =>
    rw [Basic.effect] at he
    split at he
    · cases he
    · rename_i hp
      cases he
      refine ⟨.pastEnd s.reelLength position, rfl, ?_⟩
      have hroom : (w.state s i).reelLength ≤ (w.state s i).pointer + 1 := by
        change s.reelLength ≤ w.pointer + 1
        omega
      dsimp only [Basic.op]
      rw [if_pos hroom]
      rfl
  | left =>
    rw [Basic.effect] at he
    split at he
    · cases he
    · rename_i hp
      cases he
      refine ⟨.beforeStart position, rfl, ?_⟩
      have hroom : (w.state s i).pointer = 0 := Nat.eq_zero_of_not_pos hp
      dsimp only [Basic.op]
      rw [if_pos hroom]
      rfl

/-! ## Steps -/

/-- Only the command that asks for an input is carried out as one. -/
theorem Basic.op_eq_input {b : Basic} : b.op = .input ↔ b = .input := by
  cases b <;> decide

/-- A machine that is taken to an instruction does not wait. -/
theorem not_waiting (s : State) (i : Nat) (w : World) : ¬ (w.state s i).waiting = true :=
  Bool.false_ne_true

/-- What the machine finds at the place where it stands. -/
theorem found {instruction : Option Instruction}
    (hcode : s.program.code.toList[i]? = instruction) :
    (w.state s i).program.code[(w.state s i).next]? = instruction := by
  rw [← hcode, Array.getElem?_toList]
  rfl

/-- The step of a machine at an instruction that does not wait. -/
theorem step_of_instruction {instruction : Instruction}
    (hcode : s.program.code.toList[i]? = some instruction) (hop : instruction.op ≠ .input) :
    machine.step (w.state s i) =
      ((do execute instruction; return Outcome.progressed) (w.state s i)).mapError
        Trouble.upset := by
  change (step (w.state s i)).mapError Trouble.upset = _
  unfold step
  rw [if_neg (not_waiting s i w), found hcode]
  dsimp only
  rw [if_neg hop]

/-- The step of a machine at an input. -/
theorem step_of_input {position : Nat}
    (hcode : s.program.code.toList[i]? = some ⟨position, .input⟩) :
    machine.step (w.state s i) = ⟨.ok (.suspended .byte), w.waitingState s i, []⟩ := by
  change (step (w.state s i)).mapError Trouble.upset = _
  unfold step
  rw [if_neg (not_waiting s i w), found hcode]
  rfl

/-- An instruction that takes the machine on makes progress. -/
theorem TakesTo.step {instruction : Instruction}
    (hcode : s.program.code.toList[i]? = some instruction) (hop : instruction.op ≠ .input)
    (h : TakesTo (.ok ()) w s j w' (execute instruction (w.state s i))) :
    TakesTo (.ok .progressed) w s j w' (machine.step (w.state s i)) := by
  obtain ⟨turn, hturn⟩ : ∃ turn, execute instruction (w.state s i) = turn := ⟨_, rfl⟩
  rw [hturn] at h
  obtain ⟨result, state, effects⟩ := turn
  obtain ⟨rfl, rfl, hprinted⟩ := h
  rw [step_of_instruction hcode hop, Act.bind_of_ok hturn]
  refine ⟨rfl, rfl, ?_⟩
  change _ = w.printed ++ Effect.texts (effects ++ [])
  rw [List.append_nil]
  exact hprinted

/-- A machine that waits at an input goes on when it is given one. -/
theorem resume_of_ok (hg : (w.state s i).Good) {position : Nat}
    (hcode : s.program.code.toList[i]? = some ⟨position, .input⟩)
    (he : Basic.input.effect s.cellType position w = .ok w') :
    ∃ input, w.inputs = input :: w'.inputs ∧
      machine.step (w.state s i) = ⟨.ok (.suspended .byte), w.waitingState s i, []⟩ ∧
      TakesTo (.ok ()) w s (i + 1) w' (machine.resume input (w.waitingState s i)) := by
  rw [Basic.effect] at he
  split at he
  · cases he
  · rename_i input inputs hinputs
    cases he
    refine ⟨input, hinputs, step_of_input hcode, ?_⟩
    obtain ⟨notice, hstore⟩ := store_state hg (inputValue input)
    change TakesTo _ _ _ _ _ (((do store (inputValue input); goOn) (w.state s i)).mapError _)
    rw [Act.bind_of_ok hstore]
    exact ⟨rfl, rfl, String.append_empty.symm⟩

/-- A bracket moves nothing but the place in the program. -/
theorem goOnAfter_takesTo (w : World) (s : State) (i index : Nat) :
    TakesTo (.ok ()) w s (index + 1) w (goOnAfter index (w.state s i)) :=
  ⟨rfl, rfl, String.append_empty.symm⟩

/-- A bracket chooses between two places by the current cell. -/
theorem bracket_takesTo (hg : (w.state s i).Good) (ifZero ifNot : Nat)
    (first second : Step Unit)
    (hfirst : TakesTo (.ok ()) w s ifZero w (first (w.state s i)))
    (hsecond : TakesTo (.ok ()) w s ifNot w (second (w.state s i))) :
    TakesTo (.ok ()) w s (if w.cell = 0 then ifZero else ifNot) w
      ((do let value ← cell; if value = 0 then first else second) (w.state s i)) := by
  rw [Act.bind_of_ok (cell_state hg)]
  by_cases hz : w.cell = 0
  · rw [if_pos hz, if_pos hz]
    exact hfirst
  · rw [if_neg hz, if_neg hz]
    exact hsecond

/-- The machine follows the code: its step makes progress, or waits for the input that then takes it
on. -/
theorem step_of_ok (hg : (w.state s i).Good)
    (ha : advance s.cellType s.program.code.toList i w = .ok (j, w')) :
    (w'.inputs = w.inputs ∧ TakesTo (.ok .progressed) w s j w' (machine.step (w.state s i))) ∨
      ∃ input, w.inputs = input :: w'.inputs ∧
        machine.step (w.state s i) = ⟨.ok (.suspended .byte), w.waitingState s i, []⟩ ∧
        TakesTo (.ok ()) w s j w' (machine.resume input (w.waitingState s i)) := by
  rcases advance_eq_ok ha with ⟨position, b, hcode, he, rfl⟩ |
    ⟨position, close, hcode, rfl, rfl⟩ | ⟨position, start, hcode, rfl, rfl⟩
  · by_cases hb : b = .input
    · subst hb
      exact .inr (resume_of_ok hg hcode he)
    · obtain ⟨hinputs, htakes⟩ := execute_of_ok hg hb he
      exact .inl ⟨hinputs, htakes.step hcode fun h => hb (Basic.op_eq_input.mp h)⟩
  · have htakes := bracket_takesTo hg (close + 1) (i + 1) (goOnAfter close) goOn
      (goOnAfter_takesTo w' s i close) (goOnAfter_takesTo w' s i i)
    exact .inl ⟨rfl, TakesTo.step hcode Op.noConfusion htakes⟩
  · have htakes := bracket_takesTo hg (i + 1) (start + 1) goOn (goOnAfter start)
      (goOnAfter_takesTo w' s i i) (goOnAfter_takesTo w' s i start)
    exact .inl ⟨rfl, TakesTo.step hcode Op.noConfusion htakes⟩

/-- The machine ends as the code does, with the same tape and the same pointer. -/
theorem step_of_error (hg : (w.state s i).Good)
    (ha : advance s.cellType s.program.code.toList i w = .error v) :
    ∃ after, machine.step (w.state s i) = ⟨v.answer s.reelLength, after, []⟩ ∧
      after.tape = w.tape ∧ after.pointer = w.pointer ∧ (v = .starved → w.inputs = []) := by
  rcases advance_eq_error ha with ⟨hcode, rfl⟩ | ⟨position, b, hcode, he⟩
  · refine ⟨w.state s i, ?_, rfl, rfl, Verdict.noConfusion⟩
    change (step (w.state s i)).mapError Trouble.upset = _
    unfold step
    rw [if_neg (not_waiting s i w), found hcode]
    rfl
  · by_cases hb : b = .input
    · subst hb
      rw [Basic.effect] at he
      split at he
      · rename_i hinputs
        cases he
        exact ⟨w.waitingState s i, step_of_input hcode, rfl, rfl, fun _ => hinputs⟩
      · cases he
    · have hsize : w.tape.size = s.reelLength := hg.size_eq
      obtain ⟨trouble, hanswer, hexecute⟩ := execute_of_error (i := i) hsize hb he
      refine ⟨w.state s i, ?_, rfl, rfl, fun hv => ?_⟩
      · rw [step_of_instruction hcode fun h => hb (Basic.op_eq_input.mp h),
          Act.bind_of_error hexecute, ← hanswer]
        rfl
      · rw [hv] at hanswer
        cases hanswer

/-- An instruction that takes the machine on leaves it good. -/
theorem good_of_advance (hg : (w.state s i).Good)
    (ha : advance s.cellType s.program.code.toList i w = .ok (j, w')) : (w'.state s j).Good := by
  rcases step_of_ok hg ha with ⟨-, htakes⟩ | ⟨input, -, -, htakes⟩
  · rw [← htakes.state_eq]
    exact (lawful _ hg).step_safe.1
  · rw [← htakes.state_eq]
    have hwaiting : (w.waitingState s i).Good := ⟨hg.size_eq, hg.pointer_lt, hg.range⟩
    exact (resume_safe input hwaiting rfl).1.1

/-! ## Drives -/

/-- The session whose machine is at an instruction of its program, in a world. -/
def World.session (w : World) (base : Session State) (i : Nat) : Session State :=
  { base with state := w.state base.state i }

/-- The drive ends with an answer, and leaves the tape, the pointer and the inputs of a world whose
text it has printed. -/
structure Tells (d : Drive State) (answer : Except Upset Outcome) (w : World) : Prop where
  answer_eq : d.answer = answer
  left_eq : d.left = w.inputs
  tape_eq : d.session.state.tape = w.tape
  pointer_eq : d.session.state.pointer = w.pointer
  printed_eq : d.transcript.printed = w.printed

variable {base : Session State} {budget : Budget} {out : Transcript}
  {bound n : Nat}

/-- What takes the machine on leaves its session, and prints what the world has printed. -/
theorem TakesTo.left {α : Type} {result : Except Upset α} {act : Act Upset State α}
    {before : State} (h : TakesTo result w base.state j w' (act before))
    (hp : out.printed = w.printed) :
    ({ base with state := before } : Session State).left act = w'.session base j ∧
      Transcript.printed
        (out ++ ({ base with state := before } : Session State).told machine act) = w'.printed := by
  constructor
  · change ({ base with state := (act before).state } : Session State) = _
    rw [h.state_eq]
    rfl
  · rw [Transcript.printed_append, Session.texts_told, hp]
    exact h.printed_eq.symm

/-- A run from the end of the code is the end of the drive. -/
theorem drive_of_error (n bound : Nat) (budget : Budget) (hg : (w.state base.state i).Good)
    (ha : advance base.state.cellType base.state.program.code.toList i w = .error v)
    (hp : out.printed = w.printed) :
    ∃ d, ((w.session base i).run machine (n + 1) budget out).bind
      (Session.carryOn machine bound w.inputs) = some d ∧
        Tells d (v.answer base.state.reelLength) w := by
  obtain ⟨after, hstep, htape, hpointer, hstarved⟩ := step_of_error hg ha
  have hanswer : v.answer base.state.reelLength ≠ .ok .progressed := by
    cases v <;> exact fun h => nomatch h
  have hcarry : Session.carryOn machine bound w.inputs
      (v.answer base.state.reelLength, budget, { base with state := after }, out) =
        some ⟨v.answer base.state.reelLength, w.inputs, { base with state := after }, out⟩ := by
    cases v with
    | starved =>
      rw [hstarved rfl]
      rfl
    | ended => exact Session.carryOn_of_rest rfl _ _ _ _
    | pastEnd position => exact Session.carryOn_of_rest rfl _ _ _ _
    | beforeStart position => exact Session.carryOn_of_rest rfl _ _ _ _
  rw [Session.run_of_quiet (s := w.session base i) hstep hanswer, Option.bind_some]
  exact ⟨_, hcarry, rfl, rfl, htape, hpointer, hp⟩

/-- A run goes on as the code does, in the same run or, when an input has been given, in the
next. -/
theorem drive_of_ok (n bound : Nat) (hg : (w.state base.state i).Good)
    (ha : advance base.state.cellType base.state.program.code.toList i w = .ok (j, w'))
    (hb : budget.limit = none) (hp : out.printed = w.printed) :
    ∃ n' budget' out', ((n' = n ∧ w'.inputs = w.inputs) ∨
        (n' = bound ∧ w'.inputs.length < w.inputs.length)) ∧
      budget'.limit = none ∧ Transcript.printed out' = w'.printed ∧
      ((w.session base i).run machine (n + 1) budget out).bind
          (Session.carryOn machine bound w.inputs) =
        ((w'.session base j).run machine n' budget' out').bind
          (Session.carryOn machine bound w'.inputs) := by
  rcases step_of_ok hg ha with ⟨hinputs, htakes⟩ | ⟨input, hinputs, hstep, htakes⟩
  · obtain ⟨hleft, hprinted⟩ := htakes.left hp
    refine ⟨n, budget.charge, _, .inl ⟨rfl, hinputs⟩, hb, hprinted, ?_⟩
    rw [Session.run_of_progress hb n out htakes.result_eq, hinputs, ← hleft]
    rfl
  · obtain ⟨hleft, hprinted⟩ := htakes.left hp
    refine ⟨bound, .fresh none, _, .inr ⟨rfl, ?_⟩, rfl, hprinted, ?_⟩
    · rw [hinputs, List.length_cons]
      exact Nat.lt_succ_self _
    · rw [Session.run_of_quiet (s := w.session base i) hstep (fun h => nomatch h),
        Option.bind_some, hinputs]
      exact (Session.carryOn_of_input htakes.result_eq _ _ _).trans (by rw [← hleft]; rfl)

/-- The drive of a good machine comes to the end that its code comes to. -/
theorem Arrives.drive (h : Arrives base.state.cellType base.state.program.code.toList n i w v w')
    (hg : (w.state base.state i).Good) {m : Nat} (hm : n < m) (hbound : n < bound)
    (hb : budget.limit = none) (hp : out.printed = w.printed) :
    ∃ d, ((w.session base i).run machine m budget out).bind
      (Session.carryOn machine bound w.inputs) = some d ∧
        Tells d (v.answer base.state.reelLength) w' := by
  induction h generalizing m budget out with
  | stop ends =>
    obtain ⟨m, rfl⟩ := Nat.exists_eq_succ_of_ne_zero (Nat.ne_zero_of_lt hm)
    exact drive_of_error m bound budget hg ends hp
  | @next n i j w w' w'' v goes rest ih =>
    obtain ⟨m, rfl⟩ := Nat.exists_eq_succ_of_ne_zero (Nat.ne_zero_of_lt hm)
    obtain ⟨m', budget', out', hbounds, hb', hp', hdrive⟩ :=
      drive_of_ok m bound hg goes hb hp
    have hlt : n < m' := by
      rcases hbounds with ⟨rfl, -⟩ | ⟨rfl, -⟩
      · exact Nat.lt_of_succ_lt_succ hm
      · exact Nat.lt_of_succ_lt hbound
    rw [hdrive]
    exact ih (good_of_advance hg goes) hlt (Nat.lt_of_succ_lt hbound) hb' hp'

/-- The code of a good machine comes to the end that its drive comes to. -/
theorem arrives_of_drive {m : Nat} {d : Drive State} (hg : (w.state base.state i).Good)
    (hb : budget.limit = none) (hp : out.printed = w.printed)
    (hd : ((w.session base i).run machine m budget out).bind
      (Session.carryOn machine bound w.inputs) = some d) :
    ∃ n v w', Arrives base.state.cellType base.state.program.code.toList n i w v w' ∧
      Tells d (v.answer base.state.reelLength) w' := by
  -- Every run uses up an input, and every instruction of a run some of its bound.
  induction hl : w.inputs.length using Nat.strong_induction_on generalizing w i m budget out with
  | _ l ihinputs =>
    induction m generalizing w i budget out with
    | zero => cases hd
    | succ m ihbound =>
      cases ha : advance base.state.cellType base.state.program.code.toList i w with
      | error v =>
        obtain ⟨d', hd', htells⟩ := drive_of_error m bound budget hg ha hp
        obtain rfl := Option.some.inj (hd'.symm.trans hd)
        exact ⟨0, v, w, .stop ha, htells⟩
      | ok next =>
        obtain ⟨j, w'⟩ := next
        obtain ⟨m', budget', out', hbounds, hb', hp', hdrive⟩ :=
          drive_of_ok m bound hg ha hb hp
        rw [hdrive] at hd
        have hrest : ∃ n v w'', Arrives base.state.cellType base.state.program.code.toList n j w' v
            w'' ∧ Tells d (v.answer base.state.reelLength) w'' := by
          rcases hbounds with ⟨rfl, hsame⟩ | ⟨-, hless⟩
          · exact ihbound (good_of_advance hg ha) hb' hp' hd (by rw [hsame, hl])
          · exact ihinputs _ (by omega) (good_of_advance hg ha) hb' hp' hd rfl
        obtain ⟨n, v, w'', harrives, htells⟩ := hrest
        exact ⟨n + 1, v, w'', .next ha harrives, htells⟩

/-- A drive tells one world. -/
theorem Tells.unique {d : Drive State} {answer answer' : Except Upset Outcome}
    (h : Tells d answer w) (h' : Tells d answer' w') : answer = answer' ∧ w = w' := by
  obtain ⟨hanswer, hleft, htape, hpointer, hprinted⟩ := h
  obtain ⟨hanswer', hleft', htape', hpointer', hprinted'⟩ := h'
  refine ⟨hanswer.symm.trans hanswer', ?_⟩
  cases w
  cases w'
  rw [World.mk.injEq]
  exact ⟨htape.symm.trans htape', hpointer.symm.trans hpointer', hleft.symm.trans hleft',
    hprinted.symm.trans hprinted'⟩

/-- A source that has a program is loaded. -/
theorem load_ok_iff (source : String) (s : State) :
    (machine.load source s).result = .ok () ↔ Balanced source.toList := by
  rw [← ofSource_ok_iff]
  change ((load source s).mapError Trouble.upset).result = .ok () ↔ _
  unfold load
  cases Program.ofSource source with
  | ok program => exact ⟨fun _ => ⟨program, rfl⟩, fun _ => rfl⟩
  | error bracket =>
    exact ⟨fun h => (nomatch h), fun ⟨_, h⟩ => (nomatch h)⟩

/-- The session with the code of a tree for a program. -/
def withCode (s : Session State) (tree : Tree) (source : String) : Session State :=
  { s with state := { s.state with program := ⟨(tree.code 0).toArray, source.toList.length⟩ } }

/-- Loading a source that spells a tree and starting it is a reset of the machine with the tree's
code. -/
theorem load_withCode {source : String} {tree : Tree} (ht : Reads 0 source.toList tree)
    (s : Session State) :
    Session.load machine source s.state = machine.reset (withCode s tree source).state := by
  have hload : machine.load source s.state = ⟨.ok (), (withCode s tree source).state, []⟩ := by
    change (load source s.state).mapError Trouble.upset = _
    unfold load
    rw [ht.ofSource]
    rfl
  unfold Session.load
  rw [Act.bind_of_ok hload]
  rfl

/-- A machine that has loaded a source which spells a tree, and is reset, is at the first
instruction of the tree's code, on a reel of zeros. -/
theorem left_load {source : String} {tree : Tree} (ht : Reads 0 source.toList tree)
    (s : Session State) (inputs : List Input) :
    s.left (Session.load machine source) =
      (World.start s.state.reelLength inputs).session (withCode s tree source) 0 := by
  rw [Session.left, load_withCode ht s]
  rfl

/-- A machine on a reel of zeros is good if the reel has a cell. -/
theorem good_start (s : Session State) (hreel : 1 ≤ s.state.reelLength) (inputs : List Input) :
    ((World.start s.state.reelLength inputs).state s.state 0).Good :=
  good_replicate rfl hreel

/-- A source that spells a tree is driven to the end that the tree has, with every bound that is
large enough. -/
theorem Reads.drive {source : String} {tree : Tree} {inputs : List Input}
    (ht : Reads 0 source.toList tree) {s : Session State} (hreel : 1 ≤ s.state.reelLength)
    (he : Evaluates s.state.cellType tree (.start s.state.reelLength inputs) v w) :
    ∃ least, ∀ m bound budget, least ≤ m → least ≤ bound → budget.limit = none →
      ∃ d, ((s.left (Session.load machine source)).run machine m budget #[]).bind
          (Session.carryOn machine bound inputs) = some d ∧
        Tells d (v.answer s.state.reelLength) w := by
  obtain ⟨n, harrives⟩ := evaluates_iff_arrives.mp he
  refine ⟨n + 1, fun m bound budget hm hbound hb => ?_⟩
  rw [left_load ht s inputs]
  have hcode : Arrives (withCode s tree source).state.cellType
      (withCode s tree source).state.program.code.toList n 0 (.start s.state.reelLength inputs) v
        w := harrives
  exact hcode.drive (good_start (withCode s tree source) hreel inputs) hm hbound hb rfl

/-- **The jumps of the machine are the loops of the tree.** A source is loaded just if its brackets
are balanced, and then spells one tree. Driven from a reset with some inputs, the machine comes to
an answer and leaves a world just if the tree, evaluated on a reel of zeros, ends so and leaves that
world. -/
theorem threaded_refines_structured (source : String) (s : Session State)
    (hreel : 1 ≤ s.state.reelLength) :
    ((machine.load source s.state).result = .ok () ↔ Balanced source.toList) ∧
      (Balanced source.toList → ∃! tree, Reads 0 source.toList tree) ∧
      ∀ tree, Reads 0 source.toList tree → ∀ (inputs : List Input) (answer : Except Upset Outcome)
        (w : World),
        (∃ bound d, (s.left (Session.load machine source)).drive machine bound inputs #[] = some d ∧
            Tells d answer w) ↔
          ∃ v : Verdict, v.answer s.state.reelLength = answer ∧
            Evaluates s.state.cellType tree (.start s.state.reelLength inputs) v w := by
  refine ⟨load_ok_iff source s.state, fun hbalanced => ?_, fun tree ht inputs answer w => ?_⟩
  · obtain ⟨tree, ht⟩ := balanced_iff_reads.mp hbalanced
    exact ⟨tree, ht, fun tree' ht' => ht'.unique ht⟩
  · constructor
    · rintro ⟨bound, d, hdrive, htells⟩
      have hgood := good_start (withCode s tree source) hreel inputs
      unfold Session.drive at hdrive
      rw [left_load ht s inputs] at hdrive
      obtain ⟨n, v, w', harrives, htells'⟩ := arrives_of_drive hgood rfl rfl hdrive
      obtain ⟨rfl, rfl⟩ := htells'.unique htells
      exact ⟨v, rfl, evaluates_iff_arrives.mpr ⟨n, harrives⟩⟩
    · rintro ⟨v, rfl, he⟩
      obtain ⟨least, hdrive⟩ := ht.drive hreel he
      obtain ⟨d, hd, htells⟩ :=
        hdrive least least (.fresh none) (Nat.le_refl _) (Nat.le_refl _) rfl
      exact ⟨least, d, hd, htells⟩

/-- A program that echoes its inputs on a reel of one cell, given one input, echoes it and then asks
for another. -/
theorem threaded_refines_structured_echo :
    let s : Session State := ⟨name, .empty, ⟨true, true, true, true⟩, false, .new .uint8 1⟩
    1 ≤ s.state.reelLength ∧ Balanced ",[.,]".toList ∧
      ∃ tree, Reads 0 ",[.,]".toList tree ∧
        ∃ w, Evaluates .uint8 tree (.start 1 [.byte 65]) .starved w ∧ w.printed = "A" := by
  intro s
  have hreel : 1 ≤ s.state.reelLength := Nat.le_refl 1
  obtain ⟨hload, htree, hdrive⟩ := threaded_refines_structured ",[.,]" s hreel
  have hbalanced : Balanced ",[.,]".toList := by
    refine hload.mp ?_
    have hresult : (machine.load ",[.,]" s.state).result.toOption = some () := by decide +kernel
    exact eq_ok_of_toOption hresult
  obtain ⟨tree, ht, -⟩ := htree hbalanced
  have hdriven : ((s.left (Session.load machine ",[.,]")).drive machine 5 [.byte 65] #[]).map
      (fun d => (d.answer.toOption, d.left, d.session.state.tape, d.session.state.pointer,
        d.transcript.printed)) = some (some (.suspended .byte), [], #[65], 0, "A") := by
    decide +kernel
  obtain ⟨d, hd, hfacts⟩ := Option.map_eq_some_iff.mp hdriven
  simp only [Prod.mk.injEq] at hfacts
  obtain ⟨hanswer, hleft, htape, hpointer, hprinted⟩ := hfacts
  have htells : Tells d (.ok (.suspended .byte)) ⟨#[65], 0, [], "A"⟩ :=
    ⟨eq_ok_of_toOption hanswer, hleft, htape, hpointer, hprinted⟩
  obtain ⟨v, hv, he⟩ := (hdrive tree ht [.byte 65] _ _).mp ⟨5, d, hd, htells⟩
  cases v with
  | starved => exact ⟨hreel, hbalanced, tree, ht, _, he, rfl⟩
  | _ => cases hv

end Brainfuck

end EsotericHost
