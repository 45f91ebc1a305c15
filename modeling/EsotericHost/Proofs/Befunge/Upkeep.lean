import EsotericHost.Proofs.Host.Strides
import EsotericHost.Proofs.Machine.Recast
import EsotericHost.Proofs.Machine.Standing
import EsotericHost.Proofs.Rewinding.Machines

/-!
# The upkeep of a playfield

A program may write on the field that it runs on, and a reset puts the loaded field back. The
machine keeps two counts of filled places up to date, one for each field, and its pointer on the
field. `Called` keeps account of the calls that a machine has had since it was built: the source
that was loaded last, and whether an `@` has been carried out since the last reset.

Whatever the calls were, the field is the rectangle of that source, the pointer is on it and the
count is right (`called_sound`). So no call breaks down, and a step halts just after an `@` and on a
field of spaces.
-/

namespace EsotericHost.Befunge

/-! ## The calls of a machine -/

/-- The next step carries out an `@`: it is under the pointer, outside of a string. -/
def State.stops (s : State) : Bool := begun? s = some '@' && !s.quoting

/-- What is to be known of the calls that a machine has had. -/
structure Past where
  /-- The source that was loaded last. -/
  source : Option String
  /-- Whether an `@` has been carried out since the last reset. -/
  stopped : Bool
  deriving Repr, DecidableEq

/-- After a step from a state. -/
def Past.step (p : Past) (s : State) : Past := { p with stopped := p.stopped || s.stops }

/-- After the steps of a run. -/
def Past.run (p : Past) (strides : List (Session State)) : Past :=
  strides.foldl (fun p x => p.step x.state) p

/-- The states that a machine which the options choose comes to by loads, resets, steps, runs and
inputs in any order, with what is to be known of these calls. A source that is loaded is made ready
at once. -/
inductive Called (draw : Nat → Direction) (options : Options) : Past → State → Prop where
  | built {s : State} (ok : build options = .ok s) : Called draw options ⟨none, false⟩ s
  | loaded {p : Past} {s : State} (before : Called draw options p s) (source : String) :
    Called draw options ⟨some source, false⟩ (Session.load (machine draw) source s).state
  | reset {p : Past} {s : State} (before : Called draw options p s) :
    Called draw options ⟨p.source, false⟩ ((machine draw).reset s).state
  | stepped {p : Past} {s : State} (before : Called draw options p s) :
    Called draw options (p.step s) ((machine draw).step s).state
  | ran {p : Past} {s s' : Session State} {bound : Nat} {budget budget' : Budget}
    {out out' : Transcript} {answer : Except Upset Outcome}
    (before : Called draw options p s.state)
    (run : s.run (machine draw) bound budget out = some (answer, budget', s', out')) :
    Called draw options (p.run (s.strides (machine draw) bound budget)) s'.state
  | resumed {p : Past} {s : State} (before : Called draw options p s) (input : Input) :
    Called draw options p ((machine draw).resume input s).state

variable {draw : Nat → Direction} {options : Options} {p : Past} {s : State}

open Act

/-! ## The mark of a stop -/

/-- A part of a call that does not stop the program. -/
abbrev Unstopping {α : Type} (act : Step α) : Prop := act.Keeps State.halted

/-- A push does not stop the program. -/
theorem unstopping_push (n : Int64) : Unstopping (push n) :=
  .bind (keeps_modify fun _ => rfl) fun _ => keeps_notify _

/-- A pop does not stop the program. -/
theorem unstopping_pop : Unstopping pop := by
  refine .bind keeps_get fun s => ?_
  split
  · exact keeps_pure _
  · refine .bind (keeps_modify fun _ => rfl) fun _ => ?_
    exact .bind (keeps_notify _) fun _ => keeps_pure _

/-- An advance does not stop the program, also where it fails for the limit. -/
theorem unstopping_advance : Unstopping advance := by
  intro s
  unfold advance
  split
  · rfl
  · dsimp only
    split
    · rfl
    · rfl

/-- A put does not stop the program, also where it changes the field. -/
theorem unstopping_put : Unstopping put := by
  refine .bind unstopping_pop fun y => .bind unstopping_pop fun x => ?_
  refine .bind unstopping_pop fun value => .bind keeps_get fun s => ?_
  split
  · exact keeps_fail _
  · split
    · exact keeps_fail _
    · dsimp only
      split
      · exact keeps_fail _
      · exact keeps_modify fun _ => rfl

/-- No basic part of an instruction stops the program: only `@` does. -/
theorem unstopping_basic {moves : Prop} {α : Type} {x : Step α} (hx : Basic moves α x) :
    Unstopping x := by
  cases hx with
  | push n => exact unstopping_push n
  | pop => exact unstopping_pop
  | turn d => exact keeps_modify fun _ => rfl
  | turnAtRandom draw => exact keeps_modify fun _ => rfl
  | quoting b => exact keeps_modify fun _ => rfl
  | advance => exact unstopping_advance
  | put => exact unstopping_put

/-- What is put together from the parts of an instruction does not stop the program. -/
theorem unstopping_of_assembled {moves : Prop} {α : Type} {x : Step α} (hx : Assembled moves x) :
    Unstopping x :=
  hx.keeps fun _ _ hx => unstopping_basic hx

/-- Of all characters only one stands for the instruction that stops. -/
theorem ofChar_eq_stop {c : Char} : Instruction.ofChar c = .stop ↔ c = '@' := by
  constructor
  · intro h
    unfold Instruction.ofChar at h
    split at h
    all_goals first | rfl | cases h | skip
    split at h <;> cases h
  · rintro rfl
    rfl

/-- An instruction stops the program just if it is an `@` outside of a string. -/
theorem halted_perform (draw : Nat → Direction) (quoting : Bool) (c : Char) (s : State) :
    (perform draw quoting c s).state.halted = (s.halted || (c = '@' && !quoting)) := by
  have hadvance : Unstopping (advance >>= fun _ => pure Outcome.progressed) :=
    .bind unstopping_advance fun _ => keeps_pure _
  cases quoting with
  | true =>
    have hkept : Unstopping (perform draw true c) :=
      .bind (unstopping_of_assembled (assembled_quoted c)) fun _ => hadvance
    rw [hkept s, Bool.not_true, Bool.and_false, Bool.or_false]
  | false =>
    rw [Bool.not_false, Bool.and_true]
    by_cases hc : c = '@'
    · subst hc
      exact (Bool.or_true s.halted).symm
    · have hstop : Instruction.ofChar c ≠ .stop := fun h => hc (ofChar_eq_stop.mp h)
      rw [decide_eq_false hc, Bool.or_false]
      unfold perform
      rw [if_neg Bool.false_ne_true]
      generalize Instruction.ofChar c = instruction at hstop
      cases instruction with
      | stop => exact absurd rfl hstop
      | inputNumber | inputCharacter => rfl
      | _ =>
        refine Keeps.bind ?_ (fun _ => hadvance) s
        exact unstopping_of_assembled (assembled_execute draw _)

/-- A step marks the stop that it carries out. -/
theorem halted_step (draw : Nat → Direction) (s : State) :
    ((machine draw).step s).state.halted = (s.halted || s.stops) := by
  change (step draw s).state.halted = _
  rw [step_eq, State.stops]
  cases hb : begun? s with
  | none => exact (Bool.or_false s.halted).symm
  | some c =>
    have hmark : decide (some c = some '@') = decide (c = '@') :=
      decide_eq_decide.mpr Option.some_inj
    rw [hmark]
    exact halted_perform draw s.quoting c s

/-- An input does not stop the program. -/
theorem unstopping_resume (input : Input) : Unstopping (resume input) := by
  refine .bind keeps_get fun s => ?_
  split
  · exact keeps_fail _
  · refine .bind (keeps_modify fun _ => rfl) fun _ => ?_
    split
    · exact .bind (unstopping_push _) fun _ => unstopping_advance
    · exact keeps_fail _

/-! ## What the calls keep up -/

/-- What is kept up by every call: the machine is on its field, if it has one, and the loaded field
and the mark of a stop are those of the calls. -/
structure Kept (p : Past) (s : State) : Prop where
  good : s.Good
  source_eq : s.source = (p.source.map fun source => Field.ofSource source.toList).getD .empty
  halted_eq : s.halted = p.stopped

/-- A machine that has been built has nothing loaded and has not stopped. -/
theorem kept_build (hb : build options = .ok s) : Kept ⟨none, false⟩ s where
  good := (build_good hb).1
  source_eq := (build_blank hb).1
  halted_eq := by
    obtain ⟨limit, -, rfl⟩ := build_eq_ok hb
    rfl

/-- A load takes in the new field and the mark of a stop away. -/
theorem kept_load (draw : Nat → Direction) (source : String) (hs : s.Good) :
    Kept ⟨some source, false⟩ (Session.load (machine draw) source s).state where
  good := by
    rcases (lawful draw s hs).load_cases source with hready | ⟨fault, hload⟩
    · exact hready.2.1
    -- Every source loads.
    · have hok : (Session.load (machine draw) source s).result = .ok () := rfl
      rw [hload] at hok
      cases hok
  source_eq := rfl
  halted_eq := rfl

/-- A reset goes back to the loaded field and takes the mark of a stop away. -/
theorem Kept.reset (draw : Nat → Direction) (h : Kept p s) :
    Kept ⟨p.source, false⟩ ((machine draw).reset s).state where
  good := (lawful draw s h.good).reset_ready.2.1
  source_eq := h.source_eq
  halted_eq := rfl

/-- A step sets the mark of a stop just if it carries out an `@`. -/
theorem Kept.step (draw : Nat → Direction) (h : Kept p s) :
    Kept (p.step s) ((machine draw).step s).state where
  good := (lawful draw s h.good).step_safe.1
  source_eq := by
    have hready : ((machine draw).step s).state.ready = s.ready := keeping_step draw s
    exact (congrArg State.source hready).trans h.source_eq
  halted_eq := by
    rw [halted_step, h.halted_eq]
    rfl

/-- An input leaves the loaded field and the mark of a stop as they are. -/
theorem Kept.resume (draw : Nat → Direction) (h : Kept p s) (input : Input) :
    Kept p ((machine draw).resume input s).state where
  good := by
    cases hw : waits s with
    | none =>
      rw [(idles draw s).refuses hw input]
      exact h.good
    | some kind => exact ((idles draw s).resumes h.good kind hw input).1
  source_eq := by
    have hready : ((machine draw).resume input s).state.ready = s.ready := keeping_resume input s
    exact (congrArg State.source hready).trans h.source_eq
  halted_eq := (unstopping_resume input s).trans h.halted_eq

/-- Whatever calls a machine has had, the facts about them are kept. -/
theorem Called.kept (h : Called draw options p s) : Kept p s := by
  induction h with
  | built ok => exact kept_build ok
  | loaded _ source ih => exact kept_load draw source ih.good
  | reset _ ih => exact ih.reset draw
  | stepped _ ih => exact ih.step draw
  | ran _ run ih =>
    exact Session.run_foldl (P := fun p x => Kept p x.state) run ih fun p x hx => hx.step draw
  | resumed _ input ih => exact ih.resume draw input

/-! ## The end -/

/-- No instruction answers that the machine has halted, the one that stops it included. -/
theorem unending_perform (draw : Nat → Direction) (quoting : Bool) (c : Char) :
    Unending (perform draw quoting c) := by
  unfold perform
  split
  · exact .bind fun _ => .bind fun _ => unending_progressed
  · split
    · exact .bind fun _ => unending_suspended _
    · exact .bind fun _ => unending_suspended _
    · exact .bind fun _ => unending_progressed
    · exact .bind fun _ => .bind fun _ => unending_progressed

/-- A step halts just if the machine does not wait, and is stopped or has nothing on its field. -/
theorem step_halts_iff (draw : Nat → Direction) (s : State) :
    ((machine draw).step s).result = .ok .halted ↔
      s.waiting = none ∧ (s.halted = true ∨ s.filled = 0) := by
  have hcall :
      ((machine draw).step s).result = .ok .halted ↔ (step draw s).result = .ok .halted := by
    change (step draw s).result.mapError Trouble.upset = .ok .halted ↔ _
    cases (step draw s).result with
    | ok outcome => exact ⟨fun h => by cases h; rfl, fun h => by cases h; rfl⟩
    | error trouble => exact ⟨(nomatch ·), (nomatch ·)⟩
  rw [hcall, step_eq]
  cases hb : begun? s with
  | some c =>
    -- A step that begins an instruction is neither at its end nor does it come to it.
    have hrefused : ¬ (s.waiting = none ∧ (s.halted = true ∨ s.filled = 0)) := by
      rintro ⟨-, hstop⟩
      unfold begun? at hb
      rw [if_pos (by simpa [or_assoc] using Or.inr hstop)] at hb
      cases hb
    exact ⟨fun h => absurd h (unending_perform draw s.quoting c s), fun h => absurd h hrefused⟩
  | none =>
    change unbegun s = .ok .halted ↔ _
    unfold unbegun
    cases s.waiting with
    | some kind => exact ⟨(nomatch ·), (nomatch ·.1)⟩
    | none =>
      dsimp only
      by_cases hstop : s.halted = true ∨ s.filled = 0
      · rw [if_pos (by simpa using hstop)]
        exact ⟨fun _ => ⟨rfl, hstop⟩, fun _ => rfl⟩
      · rw [if_neg (by simpa using hstop)]
        exact ⟨(nomatch ·), fun h => absurd h.2 hstop⟩

/-! ## What is sound at any time -/

/-- The count of filled places is that of the cells which hold no blank. -/
theorem State.Good.filled_eq (hs : s.Good) : s.filled = s.grid.cells.countP (· ≠ ' ') := by
  rw [← Field.filled_eq_countP]
  rcases hs with hs | hs
  · exact hs.filled_eq
  · rw [hs.filled_eq, hs.grid_eq]
    rfl

/-- The count is zero just if nothing is on the field but spaces. -/
theorem State.Good.filled_eq_zero (hs : s.Good) :
    s.filled = 0 ↔ ∀ c ∈ s.grid.cells, c = ' ' := by
  rw [hs.filled_eq, Array.countP_eq_zero]
  simp only [decide_eq_true_eq, ne_eq, Decidable.not_not]

/-- An input does not crash the machine, whether it is waited for or not. -/
theorem State.Good.resume_ok (draw : Nat → Direction) (hs : s.Good) (input : Input)
    (crash : Crash) : ((machine draw).resume input s).result ≠ .error (.crash crash) := by
  intro hcrash
  cases hw : waits s with
  | none =>
    rw [(idles draw s).refuses hw input] at hcrash
    cases hcrash
  | some kind =>
    have hsafe : ((resume input s).mapError Trouble.upset).Safe _ Upset.Mild :=
      (resume_safe input hs hw).mapError fun _ he => he
    exact hsafe.2 _ hcrash

/-- A rectangle with at least one place that has a character at each of them, and a place on it. -/
structure Field.Holds (f : Field) (x y : Nat) : Prop where
  whole : f.cells.size = f.width * f.height
  width_pos : 1 ≤ f.width
  height_pos : 1 ≤ f.height
  x_lt : x < f.width
  y_lt : y < f.height

/-- A machine is sound after the calls that it has had. -/
structure Sound (draw : Nat → Direction) (p : Past) (s : State) : Prop where
  /-- Once there is a source, the field is as large as its rectangle and the pointer is on it. -/
  placed : ∀ source, p.source = some source → s.source = Field.ofSource source.toList ∧
    s.grid.width = s.source.width ∧ s.grid.height = s.source.height ∧ s.grid.Holds s.x s.y
  /-- The count is that of the characters that are not spaces. -/
  filled_eq : s.filled = s.grid.cells.countP (· ≠ ' ')
  blank : p.source = none → s.filled = 0
  step_ok : ∀ crash, ((machine draw).step s).result ≠ .error (.crash crash)
  resume_ok : ∀ input crash, ((machine draw).resume input s).result ≠ .error (.crash crash)
  /-- The machine halts just after a stop and on a field of spaces, if it does not wait. -/
  halts_iff : ((machine draw).step s).result = .ok .halted ↔
    s.waiting = none ∧ (p.stopped = true ∨ ∀ c ∈ s.grid.cells, c = ' ')

/-- Once a program has been loaded, the field has its rectangle and the pointer is on it. -/
theorem Kept.holds (h : Kept p s) {source : String} (hp : p.source = some source) :
    s.source = Field.ofSource source.toList ∧ s.grid.width = s.source.width ∧
      s.grid.height = s.source.height ∧ s.grid.Holds s.x s.y := by
  have hsource : s.source = Field.ofSource source.toList := by
    rw [h.source_eq, hp]
    rfl
  obtain ⟨-, hwidth, hheight⟩ := Field.ofSource_whole source.toList
  rw [← hsource] at hwidth hheight
  rcases h.good with hs | hs
  · refine ⟨hsource, hs.width_eq.symm, hs.height_eq.symm, ?_⟩
    exact ⟨hs.grid_whole, hs.width_eq ▸ hwidth, hs.height_eq ▸ hheight, hs.x_lt, hs.y_lt⟩
  -- The field of a machine without a program has no columns.
  · rw [hs.source_eq] at hwidth
    exact absurd hwidth (Nat.lt_irrefl 0)

/-- As long as nothing has been loaded, no place is filled. -/
theorem Kept.blank (h : Kept p s) (hp : p.source = none) : s.filled = 0 := by
  have hsource : s.source = .empty := by
    rw [h.source_eq, hp]
    rfl
  rcases h.good with hs | hs
  · -- The pointer would be on a field without columns.
    have hx := hs.x_lt
    rw [← hs.width_eq, hsource] at hx
    exact absurd hx (Nat.not_lt_zero _)
  · exact hs.filled_eq

/-- **The playfield is kept up.** Whatever calls a machine has had, and whatever its program has
written on the field, the field is a rectangle with the pointer on it and its count is right. So no
call leaves the field, takes a remainder by zero or counts below zero, and a step halts without an
`@` only on a field of spaces. -/
theorem called_sound (h : Called draw options p s) : Sound draw p s := by
  have hkept := h.kept
  exact {
    placed := fun _ hp => hkept.holds hp
    filled_eq := hkept.good.filled_eq
    blank := hkept.blank
    step_ok := fun crash hcrash => (lawful draw s hkept.good).step_safe.2 _ hcrash
    resume_ok := hkept.good.resume_ok draw
    halts_iff := by rw [step_halts_iff, hkept.halted_eq, hkept.good.filled_eq_zero] }

/-- A program that replaces the last of its eight characters by a space and stops leaves seven of
them counted. -/
theorem called_sound_erased :
    let draw : Nat → Direction := fun _ => .right
    let options : Options := ⟨[("selfModification", .bool true)]⟩
    ∃ s, Called draw options ⟨some "48*70p@X", true⟩ s ∧ s.filled = 7 ∧
      s.grid.cells.countP (· ≠ ' ') = 7 ∧ ((machine draw).step s).result = .ok .halted := by
  intro draw options
  have hbuild : build options = .ok (.new false none true) := by rfl
  obtain ⟨x, hx⟩ : ∃ x : Session State, x = ⟨name, options, ⟨true, true, false, false⟩, false,
      (Session.load (machine draw) "48*70p@X" (.new false none true)).state⟩ := ⟨_, rfl⟩
  have hstart : Called draw options ⟨some "48*70p@X", false⟩ x.state := by
    rw [hx]
    exact .loaded (.built hbuild) "48*70p@X"
  -- The run of eight steps finds the end by the last of them.
  have hleft : (x.run (machine draw) 8 (.fresh none) #[]).map
      (fun run => (run.2.2.1.state.filled, run.2.2.1.state.waiting)) = some (7, none) := by
    rw [hx]
    decide +kernel
  have hstopped : (Past.run ⟨some "48*70p@X", false⟩ (x.strides (machine draw) 8 (.fresh none))) =
      ⟨some "48*70p@X", true⟩ := by
    rw [hx]
    decide +kernel
  obtain ⟨⟨answer, budget, x', out⟩, hrun, hstate⟩ := Option.map_eq_some_iff.mp hleft
  have hcalled := hstart.ran hrun
  rw [hstopped] at hcalled
  have hsound := called_sound hcalled
  have hfilled : x'.state.filled = 7 := congrArg Prod.fst hstate
  have hwaiting : x'.state.waiting = none := congrArg Prod.snd hstate
  exact ⟨x'.state, hcalled, hfilled, hsound.filled_eq.symm.trans hfilled,
    hsound.halts_iff.mpr ⟨hwaiting, .inl rfl⟩⟩

end EsotericHost.Befunge
