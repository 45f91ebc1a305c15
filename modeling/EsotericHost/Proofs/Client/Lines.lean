import EsotericHost.Proofs.Client.Host

/-!
# Clients that follow the line machine

The line machine gives notice of every push, pop and jump, but not of the two instructions that move
a value between the ends of the stack. A client that watches always knows the line and the height of
the stack. It knows the stack itself as well until such an instruction changes the order of the
values, and again from the first instruction that finds the stack empty (`Host.handleAll_lines`).
-/

namespace EsotericHost.Length

open Act

variable {stale : Bool} {client : Client} {s : State}

/-- A client that knows the line of a machine and the height of its stack, and the stack itself
unless what it knows of it is stale. -/
structure State.KnownTo (stale : Bool) (client : Client) (s : State) : Prop where
  line : client.pointer "ip" = .ofNat s.line
  stack : Tallies stale (client.lists none) (s.stack.map shown)

/-- The stack after the instructions that move its values without notice. -/
def rolled : Instruction → List Int64 → List Int64
  | .rollUp => rollUp
  | .rollDown => rollDown
  | _ => id

/-- Whether the next step changes the order of the stack without notice. -/
def State.rolls (s : State) : Bool :=
  match begun? s with
  | some instruction => rolled instruction s.stack ≠ s.stack
  | none => false

/-- Whether a client that has known the stack, or has not, knows it no longer after the next step:
a roll makes it stale, and an empty stack makes it known. -/
def State.unsettles (stale : Bool) (s : State) : Bool :=
  s.rolls || stale && !s.stack.isEmpty

/-- A roll moves the values of a stack and drops none. -/
theorem length_rollUp (stack : List Int64) : (rollUp stack).length = stack.length := by
  unfold rollUp
  cases h : stack.getLast? with
  | none => rw [List.getLast?_eq_none_iff.mp h]
  | some bottom =>
    have hne : stack ≠ [] := by
      rintro rfl
      cases h
    have hpos := List.length_pos_iff.mpr hne
    rw [List.length_cons, List.length_dropLast]
    omega

/-- A roll the other way drops none either. -/
theorem length_rollDown (stack : List Int64) : (rollDown stack).length = stack.length := by
  cases stack with
  | nil => rfl
  | cons top rest => simp [rollDown]

/-- A part of a call after which a client still knows what it has known of the machine. -/
abbrev Displays (stale : Bool) {α : Type} (act : Step α) : Prop :=
  act.Shows Client.see Notice.lineUpdates (State.KnownTo stale) fun _ => State.KnownTo stale

/-- A push is told to the client. -/
theorem displays_push (n : Int64) : Displays stale (push n) :=
  fun _ _ hs => .of_state ⟨hs.line, hs.stack.push (shown n)⟩

/-- A pop is told to the client, and one of an empty stack fails. -/
theorem displays_pop : Displays stale pop := by
  intro client s hs
  unfold pop
  rw [get_bind_apply]
  cases hstack : s.stack with
  | nil => exact .of_state hs
  | cons n rest =>
    have htallies := hs.stack
    rw [hstack] at htallies
    exact .of_state ⟨hs.line, htallies.pop⟩

/-- A jump is told to the client. -/
theorem displays_goTo (line : Nat) : Displays stale (goTo line) :=
  fun _ _ hs => .of_state ⟨rfl, hs.stack⟩

/-- The parts of an instruction that does not roll the stack. -/
theorem displays_basic {line : Nat} {rolls : Prop} (hrolls : ¬ rolls) {α : Type} {x : Step α}
    (hx : Basic line rolls α x) : Displays stale x := by
  cases hx with
  | push n => exact displays_push n
  | pop => exact displays_pop
  | goTo following => exact displays_goTo _
  | roll allowed f => exact absurd allowed hrolls

/-- The values of the stack are moved without notice. -/
theorem shows_roll {f : List Int64 → List Int64} (hs : s.KnownTo stale client)
    (hlength : (f s.stack).length = s.stack.length) (hsame : stale = false → f s.stack = s.stack) :
    (Act.modify (fun s => { s with stack := f s.stack }) s : Turn Trouble State Unit).Shows
      Client.see Notice.lineUpdates (State.KnownTo stale) (fun _ => State.KnownTo stale)
      client := by
  refine .of_state ⟨hs.line, hs.stack.reorder ?_ fun hstale => ?_⟩
  · rw [List.length_map, List.length_map]
    exact hlength
  · exact congrArg (List.map shown) (hsame hstale)

/-- An instruction that changes the order of a stack is the only one after which a client that has
known the stack knows it no longer. -/
theorem shows_execute (instruction : Instruction) (hs : s.KnownTo stale client)
    (hrolled : stale = false → rolled instruction s.stack = s.stack) :
    (execute instruction s).Shows Client.see Notice.lineUpdates (State.KnownTo stale)
      (fun _ => State.KnownTo stale) client := by
  by_cases hrolls : instruction.Rolls
  · unfold execute
    rw [get_bind_apply]
    rcases hrolls with rfl | rfl
    · exact Shows.bind_at (shows_roll hs (length_rollUp _) hrolled) fun _ => displays_goTo _
    · exact Shows.bind_at (shows_roll hs (length_rollDown _) hrolled) fun _ => displays_goTo _
  · obtain ⟨act, hact, hassembled⟩ := assembled_execute instruction s
    rw [hact]
    exact hassembled.shows (fun _ _ hx => displays_basic hrolls hx) (fun _ _ => rfl)
      (fun _ _ _ _ hs => hs) client s hs

/-- A step that does not roll the stack leaves what a client knows of it. -/
theorem knownTo_step (hs : s.KnownTo stale client) (hrolls : stale = false → s.rolls = false) :
    (step s).state.KnownTo stale (client.watch (machine.shown machine.step s)) := by
  suffices hshows : (step s).Shows Client.see Notice.lineUpdates (State.KnownTo stale)
      (fun _ => State.KnownTo stale) client from hshows.state
  rw [step_eq]
  cases hbegun : begun? s with
  | none => exact .of_state hs
  | some instruction =>
    refine .after (fun _ _ => rfl) _ ?_
    unfold perform
    split
    · exact .of_state ⟨hs.line, hs.stack⟩
    · refine Shows.bind_at (shows_execute instruction hs fun hstale => ?_) fun _ => shows_pure _
      have hkept := hrolls hstale
      unfold State.rolls at hkept
      rw [hbegun] at hkept
      simpa using hkept

/-- A reset tells everything, so that nothing has to be known before. -/
theorem knownTo_reset (client : Client) (s : State) :
    (reset s).state.KnownTo stale (client.watch (machine.shown machine.reset s)) :=
  ⟨rfl, .nil⟩

/-- An input is told to the client. -/
theorem displays_resume (input : Input) : Displays stale (resume input) := by
  intro client s hs
  unfold resume
  rw [get_bind_apply]
  split
  · refine Shows.bind (shows_modify fun _ s hs => ⟨hs.line, hs.stack⟩) (fun _ => ?_) client s hs
    exact .bind (displays_push _) fun _ => displays_goTo _
  · exact .of_state hs

/-- A step settles what a client knows of the stack. -/
theorem knownTo_unsettles (hs : s.KnownTo stale client) :
    (step s).state.KnownTo (s.unsettles stale) (client.watch (machine.shown machine.step s)) := by
  cases hrolls : s.rolls with
  | true =>
    have hstale : s.unsettles stale = true := by simp [State.unsettles, hrolls]
    rw [hstale]
    exact knownTo_step ⟨hs.line, hs.stack.mono nofun⟩ nofun
  | false =>
    refine knownTo_step ⟨hs.line, ?_⟩ fun _ => hrolls
    have hsettled := hs.stack.settle
    rw [List.isEmpty_map] at hsettled
    rwa [State.unsettles, hrolls, Bool.false_or]

/-- A client that watches the line machine goes on knowing what it knows, as far as the steps of the
machine have left it. -/
theorem shown_machine :
    machine.Shown name Client.see (fun stale s => s.unsettles stale) State.KnownTo :=
  Machine.shown_of_client (fun _ client s _ => knownTo_reset client s)
    (fun _ _ client s hs => Machine.shown_load (rewinds s) rfl (knownTo_reset client _) hs)
    (fun _ _ _ hs => knownTo_unsettles hs)
    fun input _ _ _ hs => (displays_resume input _ _ hs).state

/-- Whether what a client knows of the stack is stale after the steps of a line machine: the order
of the values has changed without notice since a step last found the stack empty. -/
def unsettled (strides : List (Session Builtin)) : Bool :=
  strides.foldl
    (fun stale s => match s.state with | .length s => s.unsettles stale | _ => stale) false

end EsotericHost.Length

namespace EsotericHost.Host

variable {draw : Nat → Befunge.Direction} {bound : Nat} {limit : Option Nat}
  {commands : List Command} {steps : List (List Event)} {h : Host Builtin} {s : Session Builtin}

/-- After every run of commands a client that watches the line machine knows its line and the height
of its stack, and the stack itself unless that has become stale. -/
theorem handleAll_lines {state : Length.State}
    (hrun : (Host.new limit).handleAll (.standard draw) bound commands = some (steps, h))
    (hs : h.session = some s) (hstate : s.state = .length state) (hv : s.visualize = true) :
    state.KnownTo
      (Length.unsettled ((Catalogue.standard draw).latest [] commands
        ((Host.new limit).stridesAll (.standard draw) bound commands)))
      ((Client.start 0).watch ((Catalogue.standard draw).latest [] commands steps)) := by
  obtain ⟨start, hbuilt, hkept⟩ := Builtin.shown_of_handleAll
    (fun stale b => match b with | .length s => s.unsettles stale | _ => stale)
    Builtin.copies_length Length.shown_machine hrun hs hstate hv
  cases hbuilt with
  | length => exact hkept false _ ⟨rfl, (Tallies.nil : Tallies false [] [])⟩

/-- A program that pushes two numbers, moves the lower one to the top, and drops both before it
pushes a third one. -/
def rollsAndDrops : List Command :=
  [.setLanguage "length" ⟨[("updateVisuals", .bool true)]⟩,
    .press .interpret ⟨some ("\n".intercalate
      ([25, 1, 25, 2, 17, 23, 23, 25, 3].map Length.filler)), none⟩]

/-- The machine after that program. -/
def droppedRoll : Length.State :=
  { comments := false, debug := false, lines := #[25, 1, 25, 2, 17, 23, 23, 25, 3]
    stack := [3], line := 9, waiting := false }

/-- Once the rolled values are gone, a client knows what is pushed. -/
theorem handleAll_lines_dropped :
    ∃ steps h, (Host.new none).handleAll (.standard fun _ => .right) 9 rollsAndDrops =
        some (steps, h) ∧
      ((Client.start 0).watch
        ((Catalogue.standard fun _ => .right).latest [] rollsAndDrops steps)).lists none =
          [Length.shown 3] := by
  have hend : (((Host.new none).handleAll (.standard fun _ => .right) 9 rollsAndDrops).bind
      fun run => run.2.session.map fun s => (s.state, s.visualize)) =
      some (.length droppedRoll, true) := by decide +kernel
  have hsettled : Length.unsettled ((Catalogue.standard fun _ => .right).latest [] rollsAndDrops
      ((Host.new none).stridesAll (.standard fun _ => .right) 9 rollsAndDrops)) = false := by
    decide +kernel
  obtain ⟨⟨steps, h⟩, hrun, hend⟩ := Option.bind_eq_some_iff.mp hend
  obtain ⟨s, hs, hend⟩ := Option.map_eq_some_iff.mp hend
  obtain ⟨hstate, hv⟩ := Prod.mk.inj hend
  exact ⟨steps, h, hrun, (handleAll_lines hrun hs hstate hv).stack.eq_reverse hsettled⟩

/-- A program that pushes two numbers and moves the lower one to the top. -/
def rolls : List Command :=
  [.setLanguage "length" ⟨[("updateVisuals", .bool true)]⟩,
    .press .interpret ⟨some ("\n".intercalate ([25, 1, 25, 2, 17].map Length.filler)), none⟩]

/-- The machine after that program. -/
def rolled : Length.State :=
  { comments := false, debug := false, lines := #[25, 1, 25, 2, 17]
    stack := [1, 2], line := 5, waiting := false }

/-- A client that watches that program has the values in the order in which they were pushed. -/
theorem handleAll_lines_rolled :
    ∃ steps h s, (Host.new none).handleAll (.standard fun _ => .right) 9 rolls = some (steps, h) ∧
      h.session = some s ∧ s.state = .length rolled ∧ s.visualize = true ∧
      ((Client.start 0).watch
        ((Catalogue.standard fun _ => .right).latest [] rolls steps)).lists none ≠
          (rolled.stack.map Length.shown).reverse := by
  have hend : (((Host.new none).handleAll (.standard fun _ => .right) 9 rolls).bind
      fun run => run.2.session.map fun s => (s.state, s.visualize,
        (((Client.start 0).watch
          ((Catalogue.standard fun _ => .right).latest [] rolls run.1)).lists none).map
            Json.compact)) =
      some (.length rolled, true, ["1", "2"]) := by decide +kernel
  obtain ⟨⟨steps, h⟩, hrun, hend⟩ := Option.bind_eq_some_iff.mp hend
  obtain ⟨s, hs, hend⟩ := Option.map_eq_some_iff.mp hend
  simp only [Prod.mk.injEq] at hend
  obtain ⟨hstate, hv, htexts⟩ := hend
  refine ⟨steps, h, s, hrun, hs, hstate, hv, fun heq => ?_⟩
  -- The machine has the two values the other way round.
  rw [heq] at htexts
  revert htexts
  decide +kernel

end EsotericHost.Host
