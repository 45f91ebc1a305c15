import EsotericHost.Proofs.Client.Host
import EsotericHost.Wire.Record

/-!
# Clients that follow the token machine

The token machine gives notice of every value that comes on a stack or goes from it, and of the
place of the next token. It gives none when it moves a value from a depth of the main stack to its
top. A client that watches always knows the control stack, the height of the main stack, and, once
it has been told of one, the place. It knows the main stack itself as well until a value of it is
moved to another place, and again from the first step that finds the stack empty
(`Host.handleAll_tokens`).
-/

namespace EsotericHost.Element

open Act

variable {stale : Bool} {client : Client} {s : State}

/-- A client that knows the control stack of a machine, the height of its main stack, and the place
of its next token as soon as it has been told of a place. It knows the main stack itself unless what
it knows of it is stale. -/
structure State.KnownTo (stale : Bool) (client : Client) (s : State) : Prop where
  main : Tallies stale (client.lists (some "main")) (s.main.map Value.toJson)
  control : Tallies false (client.lists (some "control")) (s.control.map Value.toJson)
  place : ∀ value, client.entries "pointers" "ip" = some value → value = .ofNat s.sourcePosition

/-- A stack after the value at a depth has been moved to its top. -/
def raised (depth : Nat) (main : List Value) : List Value :=
  match main[depth]? with
  | some v => v :: main.eraseIdx depth
  | none => main

/-- Whether a main stack takes another order when the depth on its top is carried out. -/
def disorders : List Value → Bool
  | [] => false
  | depth :: rest => raised (Decimal.truncateNat depth.toFloat) rest ≠ rest

/-- Whether the next step changes the order of the main stack without notice. -/
def State.raises (s : State) : Bool :=
  match s.program[s.next]? with
  | some token => !s.waiting && token.op = .command .raise && disorders s.main
  | none => false

/-- Whether a client that has known the main stack, or has not, knows it no longer after the next
step: a value that is moved makes it stale, and an empty stack makes it known. -/
def State.unsettles (stale : Bool) (s : State) : Bool :=
  s.raises || stale && !s.main.isEmpty

/-- A value that is moved to the top leaves the stack as high as it was. -/
theorem length_raised (depth : Nat) (main : List Value) :
    (raised depth main).length = main.length := by
  unfold raised
  cases h : main[depth]? with
  | none => rfl
  | some v =>
    obtain ⟨hdepth, -⟩ := List.getElem?_eq_some_iff.mp h
    dsimp only
    rw [List.length_cons, List.length_eraseIdx_of_lt hdepth]
    omega

/-- A part of a call after which a client still knows what it has known of the machine. -/
abbrev Displays (stale : Bool) {α : Type} (act : Step α) : Prop :=
  act.Shows Client.see Notice.tokenUpdates (State.KnownTo stale) fun _ => State.KnownTo stale

/-- A client knows nothing of the loops, the variables and the input that a machine waits for. -/
theorem displays_modify {f : State → State} (hmain : ∀ s, (f s).main = s.main)
    (hcontrol : ∀ s, (f s).control = s.control)
    (hplace : ∀ s, (f s).sourcePosition = s.sourcePosition) : Displays stale (Act.modify f) :=
  shows_modify fun _ s hs =>
    ⟨by rw [hmain]; exact hs.main, by rw [hcontrol]; exact hs.control,
      fun value hvalue => by rw [hplace]; exact hs.place value hvalue⟩

/-- A push is told to the client, on either stack. -/
theorem displays_pushOn (stack : Stack) (v : Value) : Displays stale (pushOn stack v) := by
  intro client s hs
  cases stack with
  | main =>
    refine .of_state ⟨?_, ?_, hs.place⟩
    · exact hs.main.push v.toJson
    · exact hs.control
  | control =>
    refine .of_state ⟨?_, ?_, hs.place⟩
    · exact hs.main
    · exact hs.control.push v.toJson

/-- A pop is told to the client, and one of an empty stack fails. -/
theorem displays_popFrom (stack : Stack) : Displays stale (popFrom stack) := by
  intro client s hs
  unfold popFrom
  rw [get_bind_apply]
  cases hstack : s.stack stack with
  | nil => exact .of_state hs
  | cons v rest =>
    cases stack with
    | main =>
      have htallies := hs.main
      rw [show s.main = v :: rest from hstack] at htallies
      exact .of_state ⟨htallies.pop, hs.control, hs.place⟩
    | control =>
      have htallies := hs.control
      rw [show s.control = v :: rest from hstack] at htallies
      exact .of_state ⟨hs.main, htallies.pop, hs.place⟩

/-- A jump tells of the place, which does not have to be known before. -/
theorem knownTo_goTo (index : Nat)
    (hmain : Tallies stale (client.lists (some "main")) (s.main.map Value.toJson))
    (hcontrol : Tallies false (client.lists (some "control")) (s.control.map Value.toJson)) :
    (goTo index s).state.KnownTo stale
      (client.watch (shownEvents Notice.tokenUpdates (goTo index s).effects)) :=
  ⟨hmain, hcontrol, fun _ hvalue => (Option.some.inj hvalue).symm⟩

/-- The place of the next token is told to the client. -/
theorem displays_goTo (index : Nat) : Displays stale (goTo index) :=
  fun _ _ hs => .of_state (knownTo_goTo index hs.main hs.control)

/-- What a client is told of a variable is no stack and no place. -/
theorem knownTo_binding (hs : s.KnownTo stale client) (name : String) (value : Json) :
    s.KnownTo stale
      (client.watch (shownEvents Notice.tokenUpdates [.notify (.binding name value)])) := by
  have hplace (told : Option Json) :
      (client.withEntry "vars" name told).entries "pointers" "ip" =
        client.entries "pointers" "ip" :=
    Client.entries_withEntry_of_ne fun h => absurd h.1 (by decide)
  cases value <;> exact ⟨hs.main, hs.control, fun _ hvalue => hs.place _ (hplace _ ▸ hvalue)⟩

/-- To give a variable a value does not concern the stacks. -/
theorem displays_assign (name : String) (v : Value) : Displays stale (assign name v) :=
  .bind (fun _ _ hs => .of_state (knownTo_binding hs name v.toJson)) fun _ =>
    displays_modify (fun _ => rfl) (fun _ => rfl) fun _ => rfl

/-- The parts of a token that moves no value. -/
theorem displays_basic {raises loops : Prop} (hraises : ¬ raises) {α : Type} {x : Step α}
    (hx : Basic raises loops α x) : Displays stale x := by
  cases hx with
  | pushOn stack v => exact displays_pushOn stack v
  | popFrom stack => exact displays_popFrom stack
  | assign name v => exact displays_assign name v
  | raise allowed depth => exact absurd allowed hraises
  | frames allowed f => exact displays_modify (fun _ => rfl) (fun _ => rfl) fun _ => rfl

/-- The value at the depth is moved without notice. -/
theorem shows_raise {depth : Nat} (hs : s.KnownTo stale client)
    (hsame : stale = false → raised depth s.main = s.main) :
    (raise depth s).Shows Client.see Notice.tokenUpdates (State.KnownTo stale)
      (fun _ => State.KnownTo stale) client := by
  unfold raise
  rw [get_bind_apply]
  have hlength := length_raised depth s.main
  unfold raised at hsame hlength
  cases hvalue : s.main[depth]? with
  | none => exact .of_state hs
  | some v =>
    rw [hvalue] at hsame hlength
    refine .of_state ⟨hs.main.reorder ?_ fun hstale => ?_, hs.control, hs.place⟩
    · rw [List.length_map, List.length_map]
      exact hlength
    · exact congrArg (List.map Value.toJson) (hsame hstale)

/-- A value that has been taken was on top. -/
theorem main_of_pop {v : Value} (hpop : (pop s).result = .ok v) :
    s.main = v :: (pop s).state.main := by
  unfold pop popFrom at hpop ⊢
  rw [get_bind_apply] at hpop ⊢
  cases hmain : s.stack .main with
  | nil =>
    rw [hmain] at hpop
    cases hpop
  | cons top rest =>
    rw [hmain] at hpop
    cases hpop
    exact hmain

/-- The command that moves a value takes its depth from the stack first. -/
theorem shows_command_raise (hs : s.KnownTo stale client)
    (hsame : stale = false → disorders s.main = false) :
    (command .raise s).Shows Client.see Notice.tokenUpdates (State.KnownTo stale)
      (fun _ => State.KnownTo stale) client := by
  have hpop := displays_popFrom .main client s hs
  refine Shows.bind_from hpop fun depth hdepth => ?_
  refine shows_raise (hpop.ok depth hdepth) fun hstale => ?_
  have hkept := hsame hstale
  rw [main_of_pop hdepth] at hkept
  simpa [disorders] using hkept

/-- Moving a value is the only thing after which a client that has known the main stack knows it no
longer. -/
theorem shows_execute (here : Nat) {token : Token} (hs : s.KnownTo stale client)
    (hsame : stale = false → token.op = .command .raise → disorders s.main = false) :
    (execute here token s).Shows Client.see Notice.tokenUpdates (State.KnownTo stale)
      (fun _ => State.KnownTo stale) client := by
  by_cases hraises : token.op = .command .raise
  · unfold execute
    rw [hraises]
    exact Shows.bind_at (shows_command_raise hs fun hstale => hsame hstale hraises) fun _ =>
      shows_pure _
  · have hshows : Displays stale (execute here token) :=
      (composed_execute here token).shows (fun _ _ hx => displays_basic hraises hx)
        (fun _ _ => rfl) fun _ _ _ _ hs => hs
    exact hshows client s hs

/-- A step that moves no value leaves what a client knows. -/
theorem knownTo_step (hs : s.KnownTo stale client) (hraises : stale = false → s.raises = false) :
    (step s).state.KnownTo stale (client.watch (machine.shown machine.step s)) := by
  suffices hshows : (step s).Shows Client.see Notice.tokenUpdates (State.KnownTo stale)
      (fun _ => State.KnownTo stale) client from hshows.state
  unfold step
  rw [get_bind_apply]
  by_cases hwaiting : s.waiting = true
  · rw [if_pos hwaiting]
    exact shows_pure _ client s hs
  · rw [if_neg hwaiting]
    cases htoken : s.program[s.next]? with
    | none => exact shows_pure _ client s hs
    | some token =>
      dsimp only
      split
      · refine Shows.bind (displays_modify ?_ ?_ ?_) (fun _ => shows_pure _) client s hs <;>
          exact fun _ => rfl
      · have hgoOn (index : Nat) :
            Displays stale (goTo index >>= fun _ => (pure .progressed : Step Outcome)) :=
          .bind (displays_goTo index) fun _ => shows_pure _
        refine Shows.bind_at (shows_execute s.next hs fun hstale hop => ?_) hgoOn
        have hkept := hraises hstale
        unfold State.raises at hkept
        simpa [htoken, hop, hwaiting] using hkept

/-- A reset tells everything, so that nothing has to be known before. -/
theorem knownTo_reset (client : Client) (s : State) :
    (reset s).state.KnownTo stale (client.watch (machine.shown machine.reset s)) := by
  unfold Machine.shown
  rw [reset_effects, shownEvents_append]
  unfold Client.watch
  rw [List.foldl_append]
  exact knownTo_goTo 0 .nil .nil

/-- A program that is loaded is told of by the reset that follows, and one that is not changes
nothing. -/
theorem knownTo_load (source : String) (hs : s.KnownTo stale client) :
    (Session.load machine source s).state.KnownTo stale
      (client.watch (machine.shown (Session.load machine source) s)) := by
  refine Machine.shown_load (rewinds s) ?_ (knownTo_reset client _) hs
  rw [load_eq]
  split <;> rfl

/-- An input is told to the client. -/
theorem displays_resume (input : Input) : Displays stale (resume input) := by
  refine .bind shows_get fun s => ?_
  split
  · refine .bind (displays_modify (fun _ => rfl) (fun _ => rfl) fun _ => rfl) fun _ => ?_
    exact .bind (displays_pushOn _ _) fun _ => displays_goTo _
  · exact shows_fail fun _ _ hs => hs

/-- A step settles what a client knows of the main stack. -/
theorem knownTo_unsettles (hs : s.KnownTo stale client) :
    (step s).state.KnownTo (s.unsettles stale) (client.watch (machine.shown machine.step s)) := by
  cases hraises : s.raises with
  | true =>
    have hstale : s.unsettles stale = true := by simp [State.unsettles, hraises]
    rw [hstale]
    exact knownTo_step ⟨hs.main.mono nofun, hs.control, hs.place⟩ nofun
  | false =>
    refine knownTo_step ⟨?_, hs.control, hs.place⟩ fun _ => hraises
    have hsettled := hs.main.settle
    rw [List.isEmpty_map] at hsettled
    rwa [State.unsettles, hraises, Bool.false_or]

/-- A client that watches the token machine goes on knowing what it knows, as far as the steps of
the machine have left it. -/
theorem shown_machine :
    machine.Shown name Client.see (fun stale s => s.unsettles stale) State.KnownTo :=
  Machine.shown_of_client (fun _ client s _ => knownTo_reset client s)
    (fun source _ _ _ hs => knownTo_load source hs)
    (fun _ _ _ hs => knownTo_unsettles hs)
    fun input _ _ _ hs => (displays_resume input _ _ hs).state

/-- Whether what a client knows of the main stack is stale after the steps of a token machine: the
order of the values has changed without notice since a step last found the stack empty. -/
def unsettled (strides : List (Session Builtin)) : Bool :=
  strides.foldl
    (fun stale s => match s.state with | .element s => s.unsettles stale | _ => stale) false

end EsotericHost.Element

namespace EsotericHost.Host

variable {draw : Nat → Befunge.Direction} {bound : Nat} {limit : Option Nat}
  {commands : List Command} {steps : List (List Event)} {h : Host Builtin} {s : Session Builtin}

/-- After every run of commands a client that watches the token machine knows its control stack, the
height of its main stack and the place that it has been told of last, and the main stack itself
unless that has become stale. -/
theorem handleAll_tokens {state : Element.State}
    (hrun : (Host.new limit).handleAll (.standard draw) bound commands = some (steps, h))
    (hs : h.session = some s) (hstate : s.state = .element state) (hv : s.visualize = true) :
    state.KnownTo
      (Element.unsettled ((Catalogue.standard draw).latest [] commands
        ((Host.new limit).stridesAll (.standard draw) bound commands)))
      ((Client.start 0).watch ((Catalogue.standard draw).latest [] commands steps)) := by
  obtain ⟨start, hbuilt, hkept⟩ := Builtin.shown_of_handleAll
    (fun stale b => match b with | .element s => s.unsettles stale | _ => stale)
    Builtin.copies_element Element.shown_machine hrun hs hstate hv
  cases hbuilt with
  | element => exact hkept false _ ⟨.nil, .nil, nofun⟩

/-- A program that pushes two words, moves the lower one to the top, and prints both before it
pushes a third one. -/
def liftsAndPrints : List Command :=
  [.setLanguage "element" ⟨[("updateVisuals", .bool true)]⟩,
    .press .interpret ⟨some "a b 1 @ \x60 \x60 c", none⟩]

/-- The machine after that program. -/
def printedLift : Element.State :=
  { Element.build .empty with
    program := #[⟨0, .word ['a']⟩, ⟨2, .word ['b']⟩, ⟨4, .word ['1']⟩, ⟨6, .command .raise⟩,
      ⟨8, .command .print⟩, ⟨10, .command .print⟩, ⟨12, .word ['c']⟩]
    next := 7, main := [.text "c"] }

/-- Once the moved values are gone, a client knows what is pushed. -/
theorem handleAll_tokens_printed :
    ∃ steps h, (Host.new none).handleAll (.standard fun _ => .right) 9 liftsAndPrints =
        some (steps, h) ∧
      ((Client.start 0).watch
        ((Catalogue.standard fun _ => .right).latest [] liftsAndPrints steps)).lists
          (some "main") = [.string "c"] := by
  have hend : (((Host.new none).handleAll (.standard fun _ => .right) 9 liftsAndPrints).bind
      fun run => run.2.session.map fun s => (s.state, s.visualize)) =
      some (.element printedLift, true) := by decide +kernel
  have hsettled : Element.unsettled ((Catalogue.standard fun _ => .right).latest []
      liftsAndPrints ((Host.new none).stridesAll (.standard fun _ => .right) 9 liftsAndPrints)) =
      false := by decide +kernel
  obtain ⟨⟨steps, h⟩, hrun, hend⟩ := Option.bind_eq_some_iff.mp hend
  obtain ⟨s, hs, hend⟩ := Option.map_eq_some_iff.mp hend
  obtain ⟨hstate, hv⟩ := Prod.mk.inj hend
  exact ⟨steps, h, hrun, (handleAll_tokens hrun hs hstate hv).main.eq_reverse hsettled⟩

/-- A program that pushes two words and moves the lower one to the top. -/
def lifts : List Command :=
  [.setLanguage "element" ⟨[("updateVisuals", .bool true)]⟩,
    .press .interpret ⟨some "a b 1 @", none⟩]

/-- The machine after that program. -/
def lifted : Element.State :=
  { Element.build .empty with
    program := #[⟨0, .word ['a']⟩, ⟨2, .word ['b']⟩, ⟨4, .word ['1']⟩, ⟨6, .command .raise⟩]
    next := 4, main := [.text "a", .text "b"] }

/-- A client that watches that program has the words in the order in which they were pushed. -/
theorem handleAll_tokens_lifted :
    ∃ steps h s, (Host.new none).handleAll (.standard fun _ => .right) 9 lifts = some (steps, h) ∧
      h.session = some s ∧ s.state = .element lifted ∧ s.visualize = true ∧
      ((Client.start 0).watch
        ((Catalogue.standard fun _ => .right).latest [] lifts steps)).lists (some "main") ≠
          (lifted.main.map Element.Value.toJson).reverse := by
  have hend : (((Host.new none).handleAll (.standard fun _ => .right) 9 lifts).bind
      fun run => run.2.session.map fun s => (s.state, s.visualize,
        (((Client.start 0).watch ((Catalogue.standard fun _ => .right).latest [] lifts
          run.1)).lists (some "main")).map Wire.string?)) =
      some (.element lifted, true, [some "a", some "b"]) := by decide +kernel
  obtain ⟨⟨steps, h⟩, hrun, hend⟩ := Option.bind_eq_some_iff.mp hend
  obtain ⟨s, hs, hend⟩ := Option.map_eq_some_iff.mp hend
  simp only [Prod.mk.injEq] at hend
  obtain ⟨hstate, hv, htexts⟩ := hend
  refine ⟨steps, h, s, hrun, hs, hstate, hv, fun heq => ?_⟩
  -- The machine has the two words the other way round.
  rw [heq] at htexts
  revert htexts
  decide +kernel

end EsotericHost.Host
