import EsotericHost.Proofs.Client.Host

/-!
# Clients that follow the tape machine

The tape machine gives notice of everything that changes in it: a cell, the data pointer, the place
in the source, and all of them when it is reset. A part of a call that fails does so before anything
has changed. So a client that watches knows the tape and both pointers after every command, also
after one whose program has failed, waits, was given up or was not loaded
(`Host.handleAll_tape`).
-/

namespace EsotericHost.Brainfuck

open Act

/-- A client that knows the tape and both pointers of a machine. The entries of its table of
pointers, which are there once they have been told, say the same. -/
structure State.KnownTo (client : Client) (s : State) : Prop where
  tape : client.tape = s.tape
  dataPointer : client.dataPointer = s.pointer
  instructionPointer : client.instructionPointer = s.sourcePosition
  data : ∀ value, client.entries "pointers" "data" = some value → value = .ofNat s.pointer
  ip : ∀ value, client.entries "pointers" "ip" = some value → value = .ofNat s.sourcePosition

/-- A part of a call after which a client still knows the machine. -/
abbrev Displays {α : Type} (act : Step α) : Prop :=
  act.Shows Client.see Notice.tapeUpdates State.KnownTo fun _ => State.KnownTo

/-- To read the current cell tells nothing, and need not. -/
theorem displays_cell : Displays cell := by
  intro client s hs
  unfold cell
  split
  · exact .of_state hs
  · exact .of_state hs

/-- What is stored is told, wrapped as it is. -/
theorem displays_store (value : Int) : Displays (store value) := by
  intro client s hs
  unfold store
  dsimp only
  split
  · rename_i hlt
    refine .of_state { hs with tape := ?_ }
    change client.tape.setIfInBounds s.pointer (s.cellType.wrap value) = _
    rw [hs.tape, Array.setIfInBounds_def, dif_pos hlt]
  · exact .of_state hs

/-- The new number of a cell is told to the client. -/
theorem displays_add (difference : Int) : Displays (add difference) := by
  refine .bind displays_cell fun value => ?_
  split
  · exact displays_store _
  · exact shows_fail fun _ _ hs => hs

/-- The data pointer is told twice, on its own and in the table. -/
theorem displays_moveTo (pointer : Nat) : Displays (moveTo pointer) := by
  intro client s hs
  refine .of_state ⟨hs.tape, rfl, hs.instructionPointer, ?_, hs.ip⟩
  rintro _ ⟨⟩
  rfl

/-- The place of the next instruction is told to the client. -/
theorem displays_goOnAfter (index : Nat) : Displays (goOnAfter index) := by
  intro client s hs
  refine .of_state ⟨hs.tape, hs.dataPointer, rfl, hs.data, ?_⟩
  rintro _ ⟨⟩
  rfl

/-- To go on to the next instruction is told to the client. -/
theorem displays_goOn : Displays goOn := fun client s hs => displays_goOnAfter s.next client s hs

/-- An instruction tells a client all that it does. -/
theorem displays_execute (instruction : Instruction) : Displays (execute instruction) := by
  have hfail (trouble : Trouble) : Displays (Act.fail trouble : Step Unit) :=
    shows_fail fun _ _ hs => hs
  refine .bind shows_get fun s => ?_
  cases instruction.op with
  | right =>
    dsimp only
    split
    · exact hfail _
    · exact .bind (displays_moveTo _) fun _ => displays_goOn
  | left =>
    dsimp only
    split
    · exact hfail _
    · exact .bind (displays_moveTo _) fun _ => displays_goOn
  | increment => exact .bind (displays_add 1) fun _ => displays_goOn
  | decrement => exact .bind (displays_add (-1)) fun _ => displays_goOn
  | output =>
    refine .bind displays_cell fun value => ?_
    exact .bind (shows_print (fun _ _ => rfl) _) fun _ => displays_goOn
  | input => exact displays_goOn
  | opening close =>
    refine .bind displays_cell fun value => ?_
    split
    · exact displays_goOnAfter close
    · exact displays_goOn
  | closing start =>
    refine .bind displays_cell fun value => ?_
    split
    · exact displays_goOn
    · exact displays_goOnAfter start

/-- A step tells a client all that it does. -/
theorem displays_step : Displays step := by
  intro client s hs
  unfold step
  split
  · exact .of_state hs
  · split
    · exact .of_state hs
    · split
      · exact .of_state { hs with }
      · exact Shows.bind (displays_execute _) (fun _ => shows_pure _) client s hs

/-- An input is told to the client. -/
theorem displays_resume (input : Input) : Displays (resume input) := by
  intro client s hs
  unfold resume
  split
  · exact Shows.bind (displays_store _) (fun _ => displays_goOn) client _ { hs with }
  · exact .of_state hs

/-- A reset tells everything, so that nothing has to be known before. -/
theorem knownTo_reset (client : Client) (s : State) :
    (reset s).state.KnownTo (client.watch (machine.shown machine.reset s)) := by
  refine ⟨rfl, rfl, rfl, ?_, ?_⟩
  · rintro _ ⟨⟩
    rfl
  · rintro _ ⟨⟩
    rfl

/-- A program that is loaded is told by the reset that follows, and one that is not changes
nothing. -/
theorem knownTo_load {client : Client} {s : State} (source : String) (hs : s.KnownTo client) :
    (Session.load machine source s).state.KnownTo
      (client.watch (machine.shown (Session.load machine source) s)) := by
  refine Machine.shown_load (rewinds s) ?_ (knownTo_reset client _) hs
  rw [load_eq]
  split <;> rfl

/-- A client that watches the tape machine goes on knowing it. -/
theorem shown : machine.Shown name Client.see (fun _ _ => ()) fun _ => State.KnownTo :=
  Machine.shown_of_client (fun _ client s _ => knownTo_reset client s)
    (fun source _ _ _ hs => knownTo_load source hs) (fun _ _ _ hs => (displays_step _ _ hs).state)
    fun input _ _ _ hs => (displays_resume input _ _ hs).state

/-- A machine that has just been made is known to a client that has been told nothing. -/
theorem knownTo_start {options : Options} {s : State} (hb : build options = .ok s) :
    reelLengthOf options = .ok s.reelLength ∧ s.KnownTo (.start s.reelLength) := by
  obtain ⟨cellType, reelLength, -, hr, rfl⟩ := build_eq_ok hb
  exact ⟨hr, rfl, rfl, rfl, fun _ hd => (nomatch hd), fun _ hi => nomatch hi⟩

end EsotericHost.Brainfuck

namespace EsotericHost.Host

variable {draw : Nat → Befunge.Direction} {bound : Nat} {limit : Option Nat}
  {commands : List Command} {steps : List (List Event)} {h : Host Builtin} {s : Session Builtin}

/-- After every run of commands a client that watches the tape machine knows its tape and both
pointers, if it has started from an empty reel when the machine was made. -/
theorem handleAll_tape {state : Brainfuck.State}
    (hrun : (Host.new limit).handleAll (.standard draw) bound commands = some (steps, h))
    (hs : h.session = some s) (hstate : s.state = .brainfuck state) (hv : s.visualize = true) :
    ∃ reel, Brainfuck.reelLengthOf s.options = .ok reel ∧
      state.KnownTo
        ((Client.start reel).watch ((Catalogue.standard draw).latest [] commands steps)) := by
  obtain ⟨start, hbuilt, hkept⟩ := Builtin.shown_of_handleAll (fun _ _ => ())
    Builtin.copies_brainfuck Brainfuck.shown hrun hs hstate hv
  cases hbuilt with
  | brainfuck build =>
    obtain ⟨hreel, hstart⟩ := Brainfuck.knownTo_start build
    exact ⟨_, hreel, hkept () _ hstart⟩

/-- A program that moves off a reel of two cells, for a client that watches. -/
def runsPastEnd : List Command :=
  [.setLanguage "brainfuck" ⟨[("reelLength", .ofNat 2), ("updateVisuals", .bool true)]⟩,
    .press .interpret ⟨some "+>>", none⟩]

/-- The machine after that program: on the second cell, with the third command still to come. -/
def pastEnd : Brainfuck.State :=
  { cellType := .uint8, reelLength := 2
    program := ⟨#[⟨0, .increment⟩, ⟨1, .right⟩, ⟨2, .right⟩], 3⟩
    tape := #[1, 0], pointer := 1, next := 2, waiting := false }

/-- The client of a program that has failed knows where it has stopped. -/
theorem handleAll_tape_past_end :
    ∃ steps h, (Host.new none).handleAll (.standard fun _ => .right) 9 runsPastEnd =
        some (steps, h) ∧
      pastEnd.KnownTo ((Client.start 2).watch
        ((Catalogue.standard fun _ => .right).latest [] runsPastEnd steps)) := by
  have hend : (((Host.new none).handleAll (.standard fun _ => .right) 9 runsPastEnd).bind
      fun run => run.2.session.map fun s =>
        (s.state, s.visualize, (Brainfuck.reelLengthOf s.options).toOption)) =
      some (.brainfuck pastEnd, true, some 2) := by decide +kernel
  obtain ⟨⟨steps, h⟩, hrun, hend⟩ := Option.bind_eq_some_iff.mp hend
  obtain ⟨s, hs, hend⟩ := Option.map_eq_some_iff.mp hend
  simp only [Prod.mk.injEq] at hend
  obtain ⟨hstate, hv, hlength⟩ := hend
  obtain ⟨reel, hreel, hknown⟩ := handleAll_tape hrun hs hstate hv
  rw [hreel] at hlength
  obtain rfl : reel = 2 := Option.some.inj hlength
  exact ⟨steps, h, hrun, hknown⟩

end EsotericHost.Host
