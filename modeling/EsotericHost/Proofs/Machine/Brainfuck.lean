import EsotericHost.Brainfuck.Machine
import EsotericHost.Proofs.Machine.Lawful

/-!
# The tape machine is lawful

The data pointer of the tape machine stays on the reel and its cells hold numbers of at most 32 bits
(`State.Good`), so that no cell is looked up in vain and no sum leaves the 64-bit range. Every call
keeps this, from the machine that the options choose on.
-/

namespace EsotericHost.Brainfuck

/-- The numbers that a cell of any type can hold, and a few more. -/
def inRange (value : Int) : Prop := -4294967296 ≤ value ∧ value < 4294967296

/-- A wrapped number is one that a cell can hold. -/
theorem CellType.inRange_wrap (t : CellType) (value : Int) : inRange (t.wrap value) := by
  have hsize : 0 < t.size ∧ t.size ≤ 4294967296 := by cases t <;> decide
  -- The remainder is below the size; a signed cell takes the size off its upper half.
  have hlow : 0 ≤ value % t.size := Int.emod_nonneg _ (by omega)
  have hhigh : value % t.size < t.size := Int.emod_lt_of_pos _ hsize.1
  unfold inRange wrap
  dsimp only
  split <;> omega

/-- A tape of the length of the reel that holds numbers in range, with the pointer on it. -/
structure State.Good (s : State) : Prop where
  size_eq : s.tape.size = s.reelLength
  pointer_lt : s.pointer < s.reelLength
  range : ∀ value ∈ s.tape, inRange value

/-- The input that the machine waits for: a byte. -/
def waits (s : State) : Option InputKind :=
  if s.waiting then some .byte else none

/-- A part of a call that keeps the machine good, neither waits for input nor ends a wait, and fails
only as the host expects. -/
abbrev Steady {α : Type} (act : Step α) : Prop :=
  ∀ b, act.Safe (fun s => s.Good ∧ s.waiting = b) (·.upset.Mild)

open Act

/-- The pointer is on a cell, which holds a number in range. -/
theorem cell_apply {s : State} (hs : s.Good) :
    ∃ value, cell s = ⟨.ok value, s, []⟩ ∧ inRange value := by
  -- The pointer is on the reel, and the tape is as long as the reel.
  have hlt : s.pointer < s.tape.size := by
    rw [hs.size_eq]
    exact hs.pointer_lt
  refine ⟨s.tape[s.pointer], ?_, hs.range _ (Array.getElem_mem hlt)⟩
  unfold cell
  rw [Array.getElem?_eq_getElem hlt]

/-- To read the current cell is steady. -/
theorem steady_cell : Steady cell := by
  intro b s hs
  obtain ⟨value, hvalue, -⟩ := cell_apply hs.1
  rw [hvalue]
  exact ⟨hs, fun _ he => nomatch he⟩

/-- To store a value is steady: the cell holds it wrapped. -/
theorem steady_store (value : Int) : Steady (store value) := by
  intro b s hs
  have hlt : s.pointer < s.tape.size := by
    rw [hs.1.size_eq]
    exact hs.1.pointer_lt
  unfold store
  dsimp only
  rw [dif_pos hlt]
  refine ⟨⟨⟨?_, hs.1.pointer_lt, fun v hv => ?_⟩, hs.2⟩, fun _ he => nomatch he⟩
  · exact (Array.size_set hlt).trans hs.1.size_eq
  · rcases Array.mem_or_eq_of_mem_set (w := hlt) hv with hv | rfl
    · exact hs.1.range v hv
    · exact s.cellType.inRange_wrap value

/-- A cell holds 32 bits at most, so one more or less is far from the end of 64 bits. -/
theorem holdsInt_add {value difference : Int} (hrange : inRange value)
    (hd : -1 ≤ difference ∧ difference ≤ 1) : Word.holdsInt (value + difference) = true := by
  unfold inRange at hrange
  unfold Word.holdsInt Word.intBound
  rw [Bool.and_eq_true]
  exact ⟨decide_eq_true (by omega), decide_eq_true (by omega)⟩

/-- A cell that is changed by one does not leave the 64-bit range. -/
theorem steady_add (difference : Int) (hd : -1 ≤ difference ∧ difference ≤ 1) :
    Steady (add difference) := by
  intro b s hs
  obtain ⟨value, hvalue, hrange⟩ := cell_apply hs.1
  unfold add
  rw [bind_of_ok hvalue, if_pos (holdsInt_add hrange hd)]
  exact steady_store _ b s hs

/-- To go on behind an instruction is steady. -/
theorem steady_goOnAfter (index : Nat) : Steady (goOnAfter index) := fun _ _ hs =>
  ⟨⟨⟨hs.1.size_eq, hs.1.pointer_lt, hs.1.range⟩, hs.2⟩, fun _ he => nomatch he⟩

/-- To go on to the next instruction is steady. -/
theorem steady_goOn : Steady goOn := fun b s hs => steady_goOnAfter s.next b s hs

/-- Moving the pointer to a place on the reel. -/
theorem safe_moveTo {b : Bool} {s : State} {pointer : Nat} (hs : s.Good ∧ s.waiting = b)
    (hp : pointer < s.reelLength) :
    (moveTo pointer s).Safe (fun s => s.Good ∧ s.waiting = b) (·.upset.Mild) :=
  ⟨⟨⟨hs.1.size_eq, hp, hs.1.range⟩, hs.2⟩, fun _ he => nomatch he⟩

/-- A command that does not wait keeps the machine good. -/
theorem steady_execute (instruction : Instruction) : Steady (execute instruction) := by
  refine fun b => .get_bind fun s hs => ?_
  cases instruction.op with
  | right =>
    dsimp only
    by_cases hp : s.reelLength ≤ s.pointer + 1
    · rw [if_pos hp]
      exact safe_fail Fault.noConfusion s hs
    · -- The next cell is on the reel, or the instruction would have failed.
      rw [if_neg hp]
      exact Safe.bind_at (safe_moveTo hs (by omega)) fun _ => steady_goOn b
  | left =>
    dsimp only
    by_cases hp : s.pointer = 0
    · rw [if_pos hp]
      exact safe_fail Fault.noConfusion s hs
    · rw [if_neg hp]
      have hlt := hs.1.pointer_lt
      exact Safe.bind_at (safe_moveTo hs (by omega)) fun _ => steady_goOn b
  | increment => exact Safe.bind (steady_add 1 (by omega) b) (fun _ => steady_goOn b) s hs
  | decrement => exact Safe.bind (steady_add (-1) (by omega) b) (fun _ => steady_goOn b) s hs
  | output =>
    exact Safe.bind (steady_cell b) (fun _ => .bind (safe_print _) fun _ => steady_goOn b) s hs
  | input => exact steady_goOn b s hs
  | opening close =>
    refine Safe.bind (steady_cell b) (fun value => ?_) s hs
    split
    · exact steady_goOnAfter close b
    · exact steady_goOn b
  | closing start =>
    refine Safe.bind (steady_cell b) (fun value => ?_) s hs
    split
    · exact steady_goOn b
    · exact steady_goOnAfter start b

/-! ## The calls -/

/-- A steady part is safe for a machine that does not wait. -/
theorem Steady.safe {α : Type} {act : Step α} (hact : Steady act) :
    Safe (fun s => s.Good ∧ waits s = none) (·.upset.Mild) act :=
  (hact false).congr fun s => by rw [waits, await_eq_none]

/-- A machine that waits goes on waiting. -/
theorem step_of_waiting (s : State) (kind : InputKind) (hw : waits s = some kind) :
    step s = ⟨.ok (.suspended kind), s, []⟩ := by
  obtain ⟨hs, rfl⟩ := await_eq_some.mp hw
  unfold step
  rw [if_pos hs]

/-- One instruction says truly whether the machine waits after it. -/
theorem candid_step : Candid State.Good waits (·.upset.Mild) step := by
  intro s hs hw
  unfold step
  rw [if_neg (by rw [await_eq_none.mp hw]; exact Bool.false_ne_true)]
  cases s.program.code[s.next]? with
  | none => exact ⟨⟨hs, fun _ he => nomatch he⟩, hw⟩
  | some instruction =>
    dsimp only
    by_cases hi : instruction.op = .input
    · rw [if_pos hi]
      exact ⟨⟨⟨hs.size_eq, hs.pointer_lt, hs.range⟩, fun _ he => nomatch he⟩, rfl⟩
    · rw [if_neg hi]
      exact Candid.bind (steady_execute instruction).safe (fun _ => candid_pure rfl) s hs hw

/-- A source is loaded and nothing else is replaced, or it is refused and nothing at all is. -/
theorem load_cases (source : String) {s : State} (hs : s.Good) :
    (∃ s' effects, machine.load source s = ⟨.ok (), s', effects⟩ ∧ s'.Good) ∨
      ∃ fault, machine.load source s = ⟨.error (.fault fault), s, []⟩ := by
  change (∃ s' effects, (load source s).mapError _ = _ ∧ _) ∨
    ∃ fault, (load source s).mapError _ = _
  unfold load
  cases Program.ofSource source with
  | ok program => exact .inl ⟨_, _, rfl, ⟨hs.size_eq, hs.pointer_lt, hs.range⟩⟩
  | error bracket => cases bracket <;> exact .inr ⟨_, rfl⟩

/-- A tape of zeros is good. -/
theorem good_replicate {s : State} (ht : s.tape = Array.replicate s.reelLength 0)
    (hp : s.pointer < s.reelLength) : s.Good where
  size_eq := by rw [ht, Array.size_replicate]
  pointer_lt := hp
  range value hv := by
    rw [ht, Array.mem_replicate] at hv
    rw [hv.2]
    exact ⟨by decide, by decide⟩

/-- A reset clears the reel and ends every wait. -/
theorem reset_ready {s : State} (hs : s.Good) : (machine.reset s).Ready State.Good waits :=
  ⟨rfl, good_replicate rfl (Nat.zero_lt_of_lt hs.pointer_lt), rfl⟩

/-- An input is stored and ends the wait for it. -/
theorem resume_safe (input : Input) {s : State} (hs : s.Good) (hw : s.waiting = true) :
    (resume input s).Safe (fun s => s.Good ∧ waits s = none) (·.upset.Mild) := by
  have hstored : (resume input s).Safe (fun s => s.Good ∧ s.waiting = false) (·.upset.Mild) := by
    unfold resume
    rw [if_pos hw]
    refine Safe.bind (steady_store _ false) (fun _ => steady_goOn false) _ ⟨?_, rfl⟩
    exact ⟨hs.size_eq, hs.pointer_lt, hs.range⟩
  exact hstored.mono fun s hs => ⟨hs.1, await_eq_none.mpr hs.2⟩

/-- The tape machine is lawful. -/
theorem lawful : machine.Lawful State.Good waits := by
  intro s hs
  obtain ⟨hsafe, htells, hiff⟩ := candid_step.lawful_step step_of_waiting (fun _ he => he) hs
  refine ⟨fun source => Session.load_cases (load_cases source hs) fun s hs => reset_ready hs,
    reset_ready hs, hsafe, htells, hiff, fun input hw => ?_, fun source => ⟨_, rfl⟩,
    fun text => ⟨_, rfl⟩⟩
  exact (resume_safe input hs (await_eq_some.mp hw).1).mapError fun _ he => he

/-- A reel that the options choose has a cell. -/
theorem reelLengthOf_pos {options : Options} {n : Nat} (hn : reelLengthOf options = .ok n) :
    0 < n := by
  unfold reelLengthOf at hn
  split at hn
  · cases hn
    decide
  · split at hn
    · cases hn
      omega
    · cases hn

/-- A machine is built from a cell type and a length that the options choose. -/
theorem build_eq_ok {options : Options} {s : State} (hb : build options = .ok s) :
    ∃ cellType reelLength, cellTypeOf options = .ok cellType ∧
      reelLengthOf options = .ok reelLength ∧ s = .new cellType reelLength := by
  unfold build at hb
  cases hc : cellTypeOf options with
  | error detail => rw [hc] at hb; cases hb
  | ok cellType =>
    cases hr : reelLengthOf options with
    | error detail => rw [hc, hr] at hb; cases hb
    | ok reelLength =>
      rw [hc, hr] at hb
      cases hb
      exact ⟨cellType, reelLength, rfl, rfl, rfl⟩

/-- The machine that the options choose is good and does not wait. -/
theorem build_good {options : Options} {s : State} (hb : build options = .ok s) :
    s.Good ∧ waits s = none := by
  obtain ⟨cellType, reelLength, -, hr, rfl⟩ := build_eq_ok hb
  exact ⟨good_replicate rfl (reelLengthOf_pos hr), rfl⟩

/-- A machine that has just been built has no program. -/
theorem build_blank {options : Options} {s : State} (hb : build options = .ok s) :
    s.program.code = #[] := by
  obtain ⟨cellType, reelLength, -, -, rfl⟩ := build_eq_ok hb
  rfl

end EsotericHost.Brainfuck
