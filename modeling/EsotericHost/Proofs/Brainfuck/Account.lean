import EsotericHost.Proofs.Brainfuck.Cells
import EsotericHost.Proofs.Brainfuck.Driving
import EsotericHost.Proofs.Host.Strides
import EsotericHost.Proofs.Rewinding.Machines

/-!
# The account of a cell

All that the tape machine does to its tape is put down as a deed: the reel is cleared, a cell is
raised or lowered by one, or an input is stored in it. The deeds of a machine (`Deeds`) are those of
the calls that it has had since it was built, in whatever order and however they went, and of a run
they are the deeds of its steps.

The balance of a cell is counted in exact numbers: what the cell was last set to, and one for every
deed since. The machine counts otherwise and wraps after each deed, but comes to the same
(`cells_hold_balances`). The pointer never leaves the tape and no sum leaves the 64-bit range on the
way.
-/

namespace EsotericHost.Brainfuck

/-! ## Deeds -/

/-- What the machine does to its tape. -/
inductive Deed where
  | cleared
  | raised (index : Nat)
  | lowered (index : Nat)
  | stored (index : Nat) (value : Int)
  deriving Repr, DecidableEq

/-- The number that a cell is set to outright. -/
def Deed.sets? (index : Nat) : Deed → Option Int
  | cleared => some 0
  | stored i value => if i = index then some value else none
  | raised _ | lowered _ => none

/-- Of some deeds, the last one first, those that come after a cell was set. -/
def sinceSet (index : Nat) (deeds : List Deed) : List Deed :=
  deeds.takeWhile fun deed => (deed.sets? index).isNone

/-- The exact number of a cell: what it was last set to, or zero, with one more for each time that
it was raised since and one less for each time that it was lowered. -/
def balance (index : Nat) (deeds : List Deed) : Int :=
  (deeds.findSome? (Deed.sets? index)).getD 0 + (sinceSet index deeds).count (.raised index) -
    (sinceSet index deeds).count (.lowered index)

/-- The command that the next step carries out, if there is one. -/
def State.command? (s : State) : Option Op :=
  if s.waiting then none else s.program.code[s.next]?.map (·.op)

/-- What a command does to the tape, beside an input that waits for its value. -/
def Op.deeds (pointer : Nat) : Op → List Deed
  | increment => [.raised pointer]
  | decrement => [.lowered pointer]
  | _ => []

/-- What the next step does to the tape. -/
def State.stepDeeds (s : State) : List Deed :=
  match s.command? with
  | some op => op.deeds s.pointer
  | none => []

/-- What an input does to the tape. -/
def State.inputDeeds (s : State) (input : Input) : List Deed :=
  if s.waiting then [.stored s.pointer (inputValue input)] else []

/-- What the steps of a run do to the tape, the last one first. -/
def runDeeds (bound : Nat) (budget : Budget) (s : Session State) : List Deed :=
  (s.strides machine bound budget).reverse.flatMap (·.state.stepDeeds)

/-- The deeds of a machine that the options choose, the last one first, and the state that it has
come to. A source may be loaded with a reset after it or without, and may be refused. -/
inductive Deeds (options : Options) : List Deed → State → Prop where
  | built {s : State} (ok : build options = .ok s) : Deeds options [] s
  | loaded {deeds : List Deed} {s : State} (before : Deeds options deeds s) (source : String) :
    Deeds options deeds (machine.load source s).state
  | reset {deeds : List Deed} {s : State} (before : Deeds options deeds s) :
    Deeds options (.cleared :: deeds) (machine.reset s).state
  | stepped {deeds : List Deed} {s : State} (before : Deeds options deeds s) :
    Deeds options (s.stepDeeds ++ deeds) (machine.step s).state
  | ran {deeds : List Deed} {s s' : Session State} {bound : Nat} {budget budget' : Budget}
    {out out' : Transcript} {answer : Except Upset Outcome} (before : Deeds options deeds s.state)
    (run : s.run machine bound budget out = some (answer, budget', s', out')) :
    Deeds options (runDeeds bound budget s ++ deeds) s'.state
  | resumed {deeds : List Deed} {s : State} (before : Deeds options deeds s) (input : Input) :
    Deeds options (s.inputDeeds input ++ deeds) (machine.resume input s).state

variable {options : Options} {index : Nat} {deed : Deed} {deeds : List Deed} {value : Int}
  {t : CellType} {tape : Array Int} {s : State}

/-! ## Balances -/

/-- A cell that nothing was done to has a balance of zero. -/
theorem balance_nil (index : Nat) : balance index [] = 0 := rfl

/-- A deed that sets a cell outright makes its balance, whatever came before. -/
theorem balance_of_set (h : deed.sets? index = some value) :
    balance index (deed :: deeds) = value := by
  have hsince : sinceSet index (deed :: deeds) = [] := by
    rw [sinceSet, List.takeWhile_cons, h]
    rfl
  rw [balance, hsince, List.findSome?_cons, h]
  simp only [Option.getD_some, List.count_nil]
  omega

/-- A deed that does not set the cell counts, if it is one of the cell. -/
theorem balance_of_not_set (h : deed.sets? index = none) :
    balance index (deed :: deeds) = balance index deeds + [deed].count (.raised index) -
      [deed].count (.lowered index) := by
  have hsince : sinceSet index (deed :: deeds) = [deed] ++ sinceSet index deeds := by
    rw [sinceSet, List.takeWhile_cons, h]
    rfl
  rw [balance, balance, hsince, List.findSome?_cons, h, List.count_append, List.count_append]
  push_cast
  omega

/-! ## The tape -/

/-- What a deed makes of a tape. -/
def Deed.on (t : CellType) (tape : Array Int) : Deed → Array Int
  | cleared => Array.replicate tape.size 0
  | raised index => tape.setIfInBounds index (t.wrap (tape[index]?.getD 0 + 1))
  | lowered index => tape.setIfInBounds index (t.wrap (tape[index]?.getD 0 - 1))
  | stored index value => tape.setIfInBounds index (t.wrap value)

/-- What some deeds make of a tape, of which the first one comes last. -/
def tapeAfter (t : CellType) (tape : Array Int) (deeds : List Deed) : Array Int :=
  deeds.foldr (fun deed tape => deed.on t tape) tape

/-- A tape whose cells hold their balances, as far as they can. -/
def Tallies (t : CellType) (deeds : List Deed) (tape : Array Int) : Prop :=
  ∀ index < tape.size, tape[index]?.getD 0 = t.wrap (balance index deeds)

/-- No deed changes the length of the tape. -/
@[simp] theorem Deed.size_on (t : CellType) (tape : Array Int) (deed : Deed) :
    (deed.on t tape).size = tape.size := by
  cases deed with
  | cleared => exact Array.size_replicate
  | _ => exact Array.size_setIfInBounds

/-- A cell of the tape that was set holds what it was set to. -/
theorem getD_setIfInBounds_self (h : index < tape.size) (value : Int) :
    (tape.setIfInBounds index value)[index]?.getD 0 = value := by
  rw [Array.getElem?_setIfInBounds_self_of_lt h]
  rfl

/-- A deed counts as much in a wrapped cell as in the balance. -/
theorem Tallies.cons (h : Tallies t deeds tape) (deed : Deed) :
    Tallies t (deed :: deeds) (deed.on t tape) := by
  intro index hlt
  rw [Deed.size_on] at hlt
  have hcell : tape[index]?.getD 0 = t.wrap (balance index deeds) := h index hlt
  cases deed with
  | cleared =>
    rw [balance_of_set rfl, t.wrap_zero, Deed.on, Array.getElem?_replicate, if_pos hlt]
    rfl
  | raised i =>
    rw [balance_of_not_set rfl, Deed.on]
    by_cases hi : i = index
    · subst hi
      rw [getD_setIfInBounds_self hlt, hcell, t.wrap_wrap_add]
      simp
    · rw [Array.getElem?_setIfInBounds_ne hi, hcell]
      simp [hi]
  | lowered i =>
    rw [balance_of_not_set rfl, Deed.on]
    by_cases hi : i = index
    · subst hi
      rw [getD_setIfInBounds_self hlt, hcell, Int.sub_eq_add_neg, t.wrap_wrap_add]
      simp [Int.sub_eq_add_neg]
    · rw [Array.getElem?_setIfInBounds_ne hi, hcell]
      simp [hi]
  | stored i value =>
    rw [Deed.on]
    by_cases hi : i = index
    · subst hi
      have hset : (Deed.stored i value).sets? i = some value := if_pos rfl
      rw [getD_setIfInBounds_self hlt, balance_of_set hset]
    · have hnot : (Deed.stored i value).sets? index = none := if_neg hi
      rw [Array.getElem?_setIfInBounds_ne hi, hcell, balance_of_not_set hnot]
      simp

/-- A tape that tallies still does after more deeds. -/
theorem Tallies.append (h : Tallies t deeds tape) (more : List Deed) :
    Tallies t (more ++ deeds) (tapeAfter t tape more) := by
  induction more with
  | nil => exact h
  | cons deed more ih => exact ih.cons deed

/-! ## Calls -/

/-- What the command at an index of the code does to the tape. -/
def deedsAt (code : List Instruction) (i pointer : Nat) : List Deed :=
  match code[i]? with
  | some instruction => instruction.op.deeds pointer
  | none => []

variable {code : List Instruction} {i j : Nat} {w w' : World} {v : Verdict}

/-- A command that does not fail does to the tape of a world what it does to that of the machine. -/
theorem tape_of_effect {position : Nat} {b : Basic} (hi : w.inputs = [])
    (he : b.effect t position w = .ok w') :
    w'.tape = tapeAfter t w.tape (b.op.deeds w.pointer) := by
  cases b with
  | increment =>
    cases he
    rfl
  | decrement =>
    cases he
    rfl
  | output =>
    cases he
    rfl
  | right =>
    rw [Basic.effect] at he
    split at he
    · cases he
      rfl
    · cases he
  | left =>
    rw [Basic.effect] at he
    split at he
    · cases he
      rfl
    · cases he
  | input =>
    rw [Basic.effect, hi] at he
    cases he

/-- A command that fails would do nothing to the tape. -/
theorem deeds_of_effect_error {position : Nat} {b : Basic} (he : b.effect t position w = .error v)
    (pointer : Nat) : b.op.deeds pointer = [] := by
  cases b with
  | increment => cases he
  | decrement => cases he
  | _ => rfl

/-- An instruction that goes on, and waits for nothing, does to the tape what its command does. -/
theorem tape_of_advance (hi : w.inputs = []) (ha : advance t code i w = .ok (j, w')) :
    w'.tape = tapeAfter t w.tape (deedsAt code i w.pointer) := by
  unfold deedsAt
  rcases advance_eq_ok ha with ⟨position, b, hcode, he, -⟩ | ⟨position, close, hcode, -, rfl⟩ |
    ⟨position, start, hcode, -, rfl⟩
  · rw [hcode]
    exact tape_of_effect hi he
  · rw [hcode]
    rfl
  · rw [hcode]
    rfl

/-- An instruction at which the machine ends does nothing to the tape. -/
theorem deedsAt_of_advance_error (ha : advance t code i w = .error v) (pointer : Nat) :
    deedsAt code i pointer = [] := by
  unfold deedsAt
  rcases advance_eq_error ha with ⟨hcode, -⟩ | ⟨position, b, hcode, he⟩
  · rw [hcode]
  · rw [hcode]
    exact deeds_of_effect_error he pointer

/-- A step that finds the machine in a world does to the tape what the command there does. -/
theorem tape_of_step (hg : (w.state s i).Good) (hi : w.inputs = []) :
    (machine.step (w.state s i)).state.tape =
      tapeAfter s.cellType w.tape (deedsAt s.program.code.toList i w.pointer) := by
  cases ha : advance s.cellType s.program.code.toList i w with
  | error v =>
    obtain ⟨after, hstep, htape, -⟩ := step_of_error hg ha
    rw [hstep, deedsAt_of_advance_error ha]
    exact htape
  | ok next =>
    obtain ⟨j, w'⟩ := next
    rcases step_of_ok hg ha with ⟨-, htakes⟩ | ⟨input, hsome, -⟩
    · rw [htakes.state_eq, ← tape_of_advance hi ha]
      rfl
    · rw [hi] at hsome
      cases hsome

/-- What a call makes of a good machine: another one with the same options, whose tape has had some
deeds. -/
structure Follows (s : State) (deeds : List Deed) (s' : State) : Prop where
  good : s'.Good
  cellType_eq : s'.cellType = s.cellType
  reelLength_eq : s'.reelLength = s.reelLength
  tape_eq : s'.tape = tapeAfter s.cellType s.tape deeds

/-- What two calls make of a machine one after the other, the deeds of the first one behind. -/
theorem Follows.trans {s' s'' : State} {first second : List Deed} (h : Follows s first s')
    (h' : Follows s' second s'') : Follows s (second ++ first) s'' where
  good := h'.good
  cellType_eq := h'.cellType_eq.trans h.cellType_eq
  reelLength_eq := h'.reelLength_eq.trans h.reelLength_eq
  tape_eq := by
    rw [h'.tape_eq, h.tape_eq, h.cellType_eq, tapeAfter, tapeAfter, tapeAfter, List.foldr_append]

/-- A call that leaves the machine good and its options as they are. -/
theorem Follows.of_ready {s' : State} (hgood : s'.Good) (hready : s'.ready = s.ready)
    (htape : s'.tape = tapeAfter s.cellType s.tape deeds) : Follows s deeds s' := by
  have hcellType : s'.ready.cellType = s.ready.cellType := congrArg State.cellType hready
  have hreelLength : s'.ready.reelLength = s.ready.reelLength := congrArg State.reelLength hready
  exact ⟨hgood, hcellType, hreelLength, htape⟩

/-- A load does nothing to the tape, whether the source can be read or not. -/
theorem follows_load (hs : s.Good) (source : String) :
    Follows s [] (machine.load source s).state := by
  rw [load_eq]
  split
  · exact ⟨⟨hs.size_eq, hs.pointer_lt, hs.range⟩, rfl, rfl, rfl⟩
  · exact ⟨hs, rfl, rfl, rfl⟩

/-- A reset clears the tape and does nothing else to it. -/
theorem follows_reset (hs : s.Good) : Follows s [.cleared] (machine.reset s).state := by
  refine ⟨(lawful s hs).reset_ready.2.1, rfl, rfl, ?_⟩
  change Array.replicate s.reelLength 0 = Array.replicate s.tape.size 0
  rw [hs.size_eq]

/-- An input stores its value, and one that is refused does nothing. -/
theorem follows_resume (hs : s.Good) (input : Input) :
    Follows s (s.inputDeeds input) (machine.resume input s).state := by
  have hready : (machine.resume input s).state.ready = s.ready := keeping_resume input s
  unfold State.inputDeeds
  cases hw : s.waiting with
  | false =>
    have hrefused : (machine.resume input s).state = s := by
      change (resume input s).state = s
      rw [resume, if_neg (Bool.eq_false_iff.mp hw)]
      rfl
    rw [hrefused]
    exact ⟨hs, rfl, rfl, rfl⟩
  | true =>
    refine .of_ready (resume_safe input hs hw).1.1 hready ?_
    -- The wait ends before the value is stored, in a world like that of the machine.
    let w : World := ⟨s.tape, s.pointer, [], ""⟩
    have hgood : (w.state s s.next).Good := ⟨hs.size_eq, hs.pointer_lt, hs.range⟩
    obtain ⟨notice, hstore⟩ := store_state hgood (inputValue input)
    have hresume : resume input s = (do store (inputValue input); goOn) (w.state s s.next) :=
      if_pos hw
    change (resume input s).state.tape = _
    rw [hresume, Act.bind_of_ok hstore]
    rfl

/-- A machine that does not wait is in a world without inputs. -/
theorem exists_world (hw : s.waiting = false) :
    ∃ w : World, w.state s s.next = s ∧ w.tape = s.tape ∧ w.pointer = s.pointer ∧
      w.inputs = [] := by
  refine ⟨⟨s.tape, s.pointer, [], ""⟩, ?_, rfl, rfl, rfl⟩
  cases s
  cases hw
  rfl

/-- A step does what the command under it says. -/
theorem follows_step (hs : s.Good) : Follows s s.stepDeeds (machine.step s).state := by
  have hready : (machine.step s).state.ready = s.ready := keeping_step s
  have hgood : (machine.step s).state.Good := (lawful s hs).step_safe.1
  refine .of_ready hgood hready ?_
  unfold State.stepDeeds State.command?
  cases hw : s.waiting with
  | true =>
    have hstep : machine.step s = ⟨.ok (.suspended .byte), s, []⟩ :=
      ((lawful s hs).waits_iff .byte).mp (await_eq_some.mpr ⟨hw, rfl⟩)
    rw [hstep]
    rfl
  | false =>
    obtain ⟨w, hstate, htape, hpointer, hinputs⟩ := exists_world hw
    have hdeeds : deedsAt s.program.code.toList s.next w.pointer =
        match s.program.code[s.next]?.map (·.op) with
        | some op => op.deeds s.pointer
        | none => [] := by
      rw [deedsAt, Array.getElem?_toList, hpointer]
      cases s.program.code[s.next]? <;> rfl
    have hgood' : (w.state s s.next).Good := by
      rw [hstate]
      exact hs
    have hstep : (machine.step (w.state s s.next)).state.tape =
        tapeAfter s.cellType w.tape (deedsAt s.program.code.toList s.next w.pointer) :=
      tape_of_step hgood' hinputs
    rw [hstate, hdeeds, htape] at hstep
    exact hstep

/-! ## Runs -/

/-- A call that breaks down. -/
def Crashes {α : Type} (result : Except Upset α) : Prop :=
  ∃ message, result = .error (.crash message)

/-- A call that gives a result does not break down. -/
theorem not_crashes_ok {α : Type} (a : α) : ¬ Crashes (.ok a) := by
  rintro ⟨message, hcrash⟩
  cases hcrash

/-- A call that fails with an error of the machine does not break down. -/
theorem not_crashes_fault {α : Type} (fault : Fault) :
    ¬ Crashes (.error (.fault fault) : Except Upset α) := by
  rintro ⟨message, hcrash⟩
  cases hcrash

/-- A call whose failures are all mild does not break down. -/
theorem not_crashes_of_mild {α : Type} {result : Except Upset α}
    (h : ∀ upset, result = .error upset → upset.Mild) : ¬ Crashes result := by
  rintro ⟨message, hcrash⟩
  exact h _ hcrash

/-- A run does the deeds of its steps, and does not break down. -/
theorem follows_run {x x' : Session State} {bound : Nat} {budget budget' : Budget}
    {out out' : Transcript} {answer : Except Upset Outcome} (hs : x.state.Good)
    (hrun : x.run machine bound budget out = some (answer, budget', x', out')) :
    Follows x.state (runDeeds bound budget x) x'.state ∧ ¬ Crashes answer := by
  -- The induction is on the bound, from the session that each step leaves.
  induction bound generalizing budget x out with
  | zero => cases hrun
  | succ bound ih =>
    have hstep : Follows x.state x.state.stepDeeds (x.left machine.step).state := follows_step hs
    have hmild : ¬ Crashes (machine.step x.state).result :=
      not_crashes_of_mild (lawful _ hs).step_safe.2
    unfold runDeeds Session.strides
    rw [List.reverse_cons, List.flatMap_append, List.flatMap_singleton]
    rw [Session.run, Session.call_eq] at hrun
    cases hresult : (machine.step x.state).result with
    | error upset =>
      rw [hresult] at hrun hmild
      cases hrun
      exact ⟨hstep, hmild⟩
    | ok outcome =>
      rw [hresult] at hrun hmild
      cases outcome with
      | halted | suspended _ =>
        cases hrun
        exact ⟨hstep, hmild⟩
      | progressed =>
        dsimp only at hrun ⊢
        cases hpassed : budget.charge.exceeded? with
        | some limit =>
          rw [hpassed] at hrun
          cases hrun
          exact ⟨hstep, not_crashes_fault _⟩
        | none =>
          rw [hpassed] at hrun
          obtain ⟨hrest, hanswer⟩ := ih hstep.good hrun
          exact ⟨hstep.trans hrest, hanswer⟩

/-- No call of the machine breaks down in a state. -/
structure Sturdy (s : State) : Prop where
  load : ∀ source, ¬ Crashes (machine.load source s).result
  reset : ¬ Crashes (machine.reset s).result
  step : ¬ Crashes (machine.step s).result
  resume : ∀ input, ¬ Crashes (machine.resume input s).result
  run : ∀ (x x' : Session State) (bound : Nat) (budget budget' : Budget) (out out' : Transcript)
    (answer : Except Upset Outcome), x.state = s →
    x.run machine bound budget out = some (answer, budget', x', out') → ¬ Crashes answer

/-- No call breaks down in a good state. -/
theorem sturdy_of_good (hs : s.Good) : Sturdy s where
  load source := by
    rcases load_cases source hs with ⟨s', effects, hload, -⟩ | ⟨fault, hload⟩
    · rw [hload]
      exact not_crashes_ok ()
    · rw [hload]
      exact not_crashes_fault fault
  reset := by
    rw [(lawful s hs).reset_ready.1]
    exact not_crashes_ok ()
  step := not_crashes_of_mild (lawful s hs).step_safe.2
  resume input := by
    cases hw : s.waiting with
    | true => exact not_crashes_of_mild ((resume_safe input hs hw).mapError fun _ he => he).2
    | false =>
      have hrefused : resume input s = Act.fail .notWaiting s := if_neg (Bool.eq_false_iff.mp hw)
      change ¬ Crashes ((resume input s).mapError Trouble.upset).result
      rw [hrefused]
      exact not_crashes_fault .notSuspended
  run x x' bound budget budget' out out' answer hx hrun := by
    refine (follows_run ?_ hrun).2
    rw [hx]
    exact hs

/-! ## Machines with an account -/

/-- A machine with some deeds to its account: it is good, has the options that it was built with,
and its tape tallies. -/
structure Accounted (options : Options) (deeds : List Deed) (s : State) : Prop where
  good : s.Good
  cellType_eq : cellTypeOf options = .ok s.cellType
  reelLength_eq : reelLengthOf options = .ok s.reelLength
  tallies : Tallies s.cellType deeds s.tape

/-- A machine that has been built has no deeds to its account. -/
theorem accounted_build (hb : build options = .ok s) : Accounted options [] s := by
  have hgood := (build_good hb).1
  obtain ⟨cellType, reelLength, hc, hr, rfl⟩ := build_eq_ok hb
  refine ⟨hgood, hc, hr, fun index hlt => ?_⟩
  rw [balance_nil, CellType.wrap_zero]
  change (Array.replicate reelLength (0 : Int))[index]?.getD 0 = 0
  rw [Array.getElem?_replicate]
  split <;> rfl

/-- The account is kept up by a call with some deeds. -/
theorem Follows.accounted {s' : State} {more : List Deed} (h : Follows s more s')
    (hs : Accounted options deeds s) : Accounted options (more ++ deeds) s' where
  good := h.good
  cellType_eq := by rw [h.cellType_eq, hs.cellType_eq]
  reelLength_eq := by rw [h.reelLength_eq, hs.reelLength_eq]
  tallies := by
    rw [h.cellType_eq, h.tape_eq]
    exact hs.tallies.append more

/-- Whatever calls a machine has had, its account is in order. -/
theorem Deeds.accounted (h : Deeds options deeds s) : Accounted options deeds s := by
  induction h with
  | built ok => exact accounted_build ok
  | loaded _ source ih => exact (follows_load ih.good source).accounted ih
  | reset _ ih => exact (follows_reset ih.good).accounted ih
  | stepped _ ih => exact (follows_step ih.good).accounted ih
  | ran _ run ih => exact (follows_run ih.good run).1.accounted ih
  | resumed _ input ih => exact (follows_resume ih.good input).accounted ih

/-- **Every cell holds its balance.** Whatever calls a machine has had since it was built, its tape
is as long as the options ask, its pointer is on the tape, a cell may be raised or lowered without
leaving the 64-bit range, and no call breaks down. The number in a cell is the one of the cell's
range that is congruent to its balance. -/
theorem cells_hold_balances (h : Deeds options deeds s) :
    cellTypeOf options = .ok s.cellType ∧ reelLengthOf options = .ok s.reelLength ∧
      s.tape.size = s.reelLength ∧ s.pointer < s.reelLength ∧
      (∀ value ∈ s.tape, Word.holdsInt (value + 1) = true ∧ Word.holdsInt (value - 1) = true) ∧
      Sturdy s ∧
      ∀ (index : Nat) (hi : index < s.tape.size) (value : Int),
        s.cellType.Residue (balance index deeds) value ↔ value = s.tape[index] := by
  obtain ⟨hgood, hcellType, hreelLength, htallies⟩ := h.accounted
  refine ⟨hcellType, hreelLength, hgood.size_eq, hgood.pointer_lt, fun value hmem => ?_,
    sturdy_of_good hgood, fun index hi value => ?_⟩
  · have hrange : inRange value := hgood.range value hmem
    have hbelow : Word.holdsInt (value + -1) = true := holdsInt_add hrange (by omega)
    exact ⟨holdsInt_add hrange (by omega), hbelow⟩
  · have hcell : s.tape[index] = s.cellType.wrap (balance index deeds) := by
      have htally := htallies index hi
      rw [Array.getElem?_eq_getElem hi] at htally
      exact htally
    rw [hcell]
    exact CellType.residue_iff

/-- A cell of eight bits with a sign that was given 200 and raised once more holds 201, which is -55
there. -/
theorem cells_hold_balances_given :
    let options : Options := ⟨[("numType", .string "i8"), ("reelLength", .ofNat 2)]⟩
    ∃ s, Deeds options [.raised 0, .stored 0 200, .lowered 0] s ∧ s.tape = #[-55, 0] ∧
      balance 0 [.raised 0, .stored 0 200, .lowered 0] = 201 ∧ CellType.int8.Residue 201 (-55) := by
  intro options
  have hbuild : build options = .ok (.new .int8 2) := by
    have hbuilt : (build options).toOption = some (.new .int8 2) := by decide +kernel
    exact eq_ok_of_toOption hbuilt
  obtain ⟨loaded, hloaded⟩ : ∃ s, s = (machine.load "-,+" (.new .int8 2)).state := ⟨_, rfl⟩
  have hstart : Deeds options [] loaded := by
    rw [hloaded]
    exact .loaded (.built hbuild) "-,+"
  -- A run waits at the input, which is then given; one step is left.
  obtain ⟨x, hx⟩ : ∃ x : Session State, x = ⟨name, options, ⟨true, true, true, true⟩, false, loaded⟩ :=
    ⟨_, rfl⟩
  have hwaits : (x.run machine 2 (.fresh none) #[]).map (·.2.2.1.state) =
      some { loaded with tape := #[-1, 0], next := 1, waiting := true } := by
    rw [hx, hloaded]
    decide +kernel
  obtain ⟨⟨answer, budget, x', out⟩, hrun, hstate⟩ := Option.map_eq_some_iff.mp hwaits
  have hran : Deeds options (runDeeds 2 (.fresh none) x ++ []) x'.state := by
    refine .ran ?_ hrun
    rw [hx]
    exact hstart
  have hdeeds : runDeeds 2 (.fresh none) x = [.lowered 0] := by
    rw [hx, hloaded]
    decide +kernel
  rw [hdeeds] at hran
  have hall := (hran.resumed (.byte 200)).stepped
  obtain ⟨s, hs⟩ : ∃ s, s = (machine.step (machine.resume (.byte 200) x'.state).state).state :=
    ⟨_, rfl⟩
  have htape : s.tape = #[-55, 0] ∧ s.cellType = .int8 := by
    rw [hs, show x'.state = _ from hstate, hloaded]
    decide +kernel
  have hsum : (machine.resume (.byte 200) x'.state).state.stepDeeds ++
      (x'.state.inputDeeds (.byte 200) ++ ([.lowered 0] ++ [])) =
        [.raised 0, .stored 0 200, .lowered 0] := by
    rw [show x'.state = _ from hstate, hloaded]
    decide +kernel
  rw [hsum, ← hs] at hall
  have hbalance : balance 0 [.raised 0, .stored 0 200, .lowered 0] = 201 := by decide
  have hcell : 0 < s.tape.size ∧ s.tape[0]? = some (-55) := by
    rw [htape.1]
    decide
  have hresidue := ((cells_hold_balances hall).2.2.2.2.2.2 0 hcell.1 (-55)).mpr
    (Option.some.inj (hcell.2.symm.trans (Array.getElem?_eq_getElem hcell.1)))
  rw [htape.2, hbalance] at hresidue
  exact ⟨s, hall, htape.1, hbalance, hresidue⟩

end EsotericHost.Brainfuck
