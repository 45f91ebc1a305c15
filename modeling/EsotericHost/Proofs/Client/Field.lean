import EsotericHost.Proofs.Client.Host

/-!
# Clients that follow the playfield machine

The playfield machine gives notice of every value that it puts on its stack or takes off it, so that
a client that watches always knows the stack. It gives notice of the moves of its pointer as well,
but not of the crossing that passes its limit: the pointer has moved by then, and the call fails
without a word of that. A client is astray from the report of such a failure until it is told of the
pointer again, and knows the place of the pointer at all other times (`Host.handleAll_field`).
-/

namespace EsotericHost.Befunge

open Act

variable {limit : Option Nat} {astray : Bool} {client : Client} {w : Client × Bool} {s : State}

/-- A client that knows the stack of a machine, and the place of its pointer unless it is astray. -/
structure State.KnownTo (astray : Bool) (client : Client) (s : State) : Prop where
  stack : Tallies false (client.lists none) (s.stack.map shown)
  place : astray = false → client.pointer "x" = .ofNat s.x ∧ client.pointer "y" = .ofNat s.y

/-- The report of a crossing that passes a limit. -/
def wrapError (limit : Nat) : HostError :=
  .failed name (.runtime s!"wrap limit of {limit} exceeded")

/-- Whether a client is astray after an event: such a report leads it astray, and a notice of the
pointer brings it back. -/
def strays (limit : Option Nat) (astray : Bool) : Event → Bool
  | .error text => astray || limit.any fun n => text = (wrapError n).message
  | .update (.entry "pointers" _ .set _) => false
  | _ => astray

/-- A client that keeps count of whether it is astray. -/
def see (limit : Option Nat) (w : Client × Bool) (e : Event) : Client × Bool :=
  (w.1.see e, strays limit w.2 e)

/-- The client that keeps count of being astray watches all the same. -/
theorem foldl_see (limit : Option Nat) (events : List Event) (w : Client × Bool) :
    events.foldl (see limit) w = (w.1.watch events, events.foldl (strays limit) w.2) := by
  induction events generalizing w with
  | nil => rfl
  | cons e events ih => exact ih _

/-- What the host says on its own never brings a client back. -/
theorem strays_of_outward {report : List Event} (hr : ∀ e ∈ report, e.IsOutward)
    (ha : astray = true) : report.foldl (strays limit) astray = true := by
  induction report generalizing astray with
  | nil => exact ha
  | cons e report ih =>
    refine ih (fun x hx => hr x (List.mem_cons_of_mem e hx)) ?_
    have houtward := hr e List.mem_cons_self
    cases e <;> first | exact ha | exact houtward.elim | simp [strays, ha]

/-- The report of a crossing that passes the limit leads a client astray. -/
theorem strays_of_mem {report : List Event} {n : Nat} (hr : ∀ e ∈ report, e.IsOutward)
    (hmem : .error (wrapError n).message ∈ report) :
    report.foldl (strays (some n)) astray = true := by
  obtain ⟨before, after, rfl⟩ := List.append_of_mem hmem
  rw [List.foldl_append, List.foldl_cons]
  refine strays_of_outward (fun e he => hr e (by simp [he])) ?_
  simp [strays]

/-- What holds between a client and the machine while nothing fails. -/
structure Watched (limit : Option Nat) (w : Client × Bool) (s : State) : Prop where
  limit_eq : s.wrapLimit = limit
  known : s.KnownTo w.2 w.1

/-- What holds of them after a failure: the place of the pointer is known unless its limit has been
passed. -/
structure Failed (limit : Option Nat) (trouble : Trouble) (w : Client × Bool) (s : State) :
    Prop where
  limit_eq : s.wrapLimit = limit
  known : (∀ n, trouble ≠ .wrapLimit n) → s.KnownTo w.2 w.1
  passed : ∀ n, trouble = .wrapLimit n → limit = some n ∧ s.KnownTo true w.1

/-- A part of a call after which a client still knows what it has known of the machine. -/
abbrev Displays {α : Type} (limit : Option Nat) (act : Step α) : Prop :=
  act.Shows (see limit) Notice.fieldUpdates (Watched limit) (Failed limit)

/-- A failure that is not about the limit changes nothing. -/
theorem Watched.failed {trouble : Trouble} (hs : Watched limit w s)
    (ht : ∀ n, trouble ≠ .wrapLimit n) : Failed limit trouble w s :=
  ⟨hs.limit_eq, fun _ => hs.known, fun n hn => absurd hn (ht n)⟩

/-- A failure other than that of the limit leaves known what was known. -/
theorem displays_fail {α : Type} {trouble : Trouble} (ht : ∀ n, trouble ≠ .wrapLimit n) :
    Displays limit (Act.fail trouble : Step α) :=
  shows_fail fun _ _ hs => hs.failed ht

/-- A change that concerns neither the stack nor the pointer. -/
theorem displays_modify {f : State → State} (hlimit : ∀ s, (f s).wrapLimit = s.wrapLimit)
    (hstack : ∀ s, (f s).stack = s.stack) (hx : ∀ s, (f s).x = s.x) (hy : ∀ s, (f s).y = s.y) :
    Displays limit (Act.modify f) := by
  refine shows_modify fun w s hs => ⟨(hlimit s).trans hs.limit_eq, ?_, ?_⟩
  · rw [hstack]
    exact hs.known.stack
  · rw [hx, hy]
    exact hs.known.place

/-- A push is told to the client. -/
theorem displays_push (n : Int64) : Displays limit (push n) := by
  refine fun w s hs => ⟨fun _ _ => ?_, fun _ he => nomatch he⟩
  exact ⟨hs.limit_eq, hs.known.stack.push (shown n), hs.known.place⟩

/-- An empty stack gives a zero, and nothing changes. -/
theorem displays_pop : Displays limit pop := by
  intro w s hs
  unfold pop
  rw [get_bind_apply]
  cases hstack : s.stack with
  | nil => exact shows_pure 0 w s hs
  | cons n rest =>
    refine ⟨fun _ _ => ⟨hs.limit_eq, ?_, hs.known.place⟩, fun _ he => nomatch he⟩
    have htallies := hs.known.stack
    rw [hstack] at htallies
    exact htallies.pop

/-- A move is told once it is made, unless it passes the limit. -/
theorem displays_advance : Displays limit advance := by
  intro w s hs
  unfold advance
  split
  · refine ⟨fun _ ha => (nomatch ha), fun e he => ?_⟩
    cases he
    exact hs.failed fun _ => nofun
  · rename_i x y crossed hmove
    dsimp only
    split
    · rename_i n hn
      refine ⟨fun _ ha => (nomatch ha), fun e he => ?_⟩
      cases he
      refine ⟨hs.limit_eq, fun ht => absurd rfl (ht n), fun k hk => ?_⟩
      cases hk
      obtain ⟨hlimit, -⟩ := Option.filter_eq_some_iff.mp hn
      exact ⟨hs.limit_eq.symm.trans hlimit, hs.known.stack, nofun⟩
    · refine ⟨fun _ _ => ⟨hs.limit_eq, hs.known.stack, fun _ => ⟨rfl, rfl⟩⟩, fun _ he => nomatch he⟩

/-- A put leaves stack and pointer known. -/
theorem displays_put : Displays limit put := by
  refine .bind displays_pop fun y => .bind displays_pop fun x => .bind displays_pop fun value => ?_
  refine .bind shows_get fun s => ?_
  split
  · exact displays_fail fun _ => nofun
  · split
    · exact displays_fail fun _ => nofun
    · dsimp only
      split
      · exact displays_fail fun _ => nofun
      · exact displays_modify (fun _ => rfl) (fun _ => rfl) (fun _ => rfl) fun _ => rfl

/-- Every basic part of an instruction tells what it does, as far as it does not pass the limit. -/
theorem displays_basic {moves : Prop} {α : Type} {x : Step α} (hx : Basic moves α x) :
    Displays limit x := by
  cases hx with
  | push n => exact displays_push n
  | pop => exact displays_pop
  | turn d => exact displays_modify (fun _ => rfl) (fun _ => rfl) (fun _ => rfl) fun _ => rfl
  | turnAtRandom draw =>
    exact displays_modify (fun _ => rfl) (fun _ => rfl) (fun _ => rfl) fun _ => rfl
  | quoting b => exact displays_modify (fun _ => rfl) (fun _ => rfl) (fun _ => rfl) fun _ => rfl
  | advance => exact displays_advance
  | put => exact displays_put

/-- What is put together from the parts of an instruction. -/
theorem displays_of_assembled {moves : Prop} {α : Type} {x : Step α} (hx : Assembled moves x) :
    Displays limit x := by
  refine hx.shows (fun _ _ hx => displays_basic hx) (fun _ _ => rfl) ?_
  rintro _ ⟨x, y, rfl⟩ w s hs
  exact hs.failed fun _ => nofun

/-- An instruction tells what it does, as far as it does not pass the limit. -/
theorem displays_perform (draw : Nat → Direction) (quoting : Bool) (c : Char) :
    Displays limit (perform draw quoting c) := by
  have hawait (kind : InputKind) : Displays limit (await kind) :=
    .bind (displays_modify (fun _ => rfl) (fun _ => rfl) (fun _ => rfl) fun _ => rfl) fun _ =>
      shows_pure _
  unfold perform
  split
  · refine .bind (displays_of_assembled (assembled_quoted c)) fun _ => ?_
    exact .bind displays_advance fun _ => shows_pure _
  · split
    · exact hawait .line
    · exact hawait .byte
    · exact .bind (displays_modify (fun _ => rfl) (fun _ => rfl) (fun _ => rfl) fun _ => rfl)
        fun _ => shows_pure _
    · refine .bind (displays_of_assembled (assembled_execute draw _)) fun _ => ?_
      exact .bind displays_advance fun _ => shows_pure _

/-- A step tells what it does, as far as it does not pass the limit. -/
theorem displays_step (draw : Nat → Direction) : Displays limit (step draw) := by
  intro w s hs
  rw [step_eq]
  split
  · exact .after (fun _ _ => rfl) _ (displays_perform draw _ _ w s hs)
  · refine ⟨fun _ _ => hs, fun e he => hs.failed fun n hn => ?_⟩
    change unbegun s = .error e at he
    unfold unbegun at he
    subst hn
    split at he
    · cases he
    · split at he <;> cases he

/-- An input is told to the client. -/
theorem displays_resume (input : Input) : Displays limit (resume input) := by
  refine .bind shows_get fun s => ?_
  split
  · exact displays_fail fun _ => nofun
  · refine .bind (displays_modify (fun _ => rfl) (fun _ => rfl) (fun _ => rfl) fun _ => rfl)
      fun _ => ?_
    split
    · exact .bind (displays_push _) fun _ => displays_advance
    · rename_i trouble hvalue
      refine displays_fail fun n hn => ?_
      subst hn
      unfold inputValue at hvalue
      split at hvalue
      · cases hvalue
      · cases hvalue
      · split at hvalue <;> cases hvalue

/-- What the host says on its own leaves what a client knows. -/
theorem Watched.outward (hs : Watched limit w s) {report : List Event}
    (hr : ∀ e ∈ report, e.IsOutward) : Watched limit (report.foldl (see limit) w) s := by
  rw [foldl_see, Client.watch_of_outward hr]
  refine ⟨hs.limit_eq, hs.known.stack, fun hback => hs.known.place ?_⟩
  exact Bool.eq_false_iff.mpr fun ha => by rw [strays_of_outward hr ha] at hback; cases hback

/-- With the report of a call a client knows the machine again, or that it is astray. -/
theorem watched_reported {α : Type} {act : Step α} (hact : Displays limit act)
    (hs : Watched limit w s) {report : List Event}
    (hr : Reports (.failed name) (act.asCall Trouble.upset s).result report) :
    Watched limit ((shownEvents Notice.fieldUpdates (act s).effects ++ report).foldl (see limit) w)
      (act s).state := by
  obtain ⟨hok, herror⟩ := hact w s hs
  rw [List.foldl_append]
  have hresult : (act.asCall Trouble.upset s).result = (act s).result.mapError Trouble.upset := rfl
  cases he : (act s).result with
  | ok a => exact (hok a he).outward hr.outward
  | error trouble =>
    have hfailed := herror trouble he
    by_cases hpassed : ∃ n, trouble = .wrapLimit n
    · obtain ⟨n, rfl⟩ := hpassed
      obtain ⟨rfl, hknown⟩ := hfailed.passed n rfl
      have hmem : .error (wrapError n).message ∈ report :=
        hr.fault (.runtime s!"wrap limit of {n} exceeded") (by rw [hresult, he]; rfl)
      rw [foldl_see, Client.watch_of_outward hr.outward, strays_of_mem hr.outward hmem]
      exact ⟨hfailed.limit_eq, hknown⟩
    · refine Watched.outward ⟨hfailed.limit_eq, hfailed.known fun n hn => ?_⟩ hr.outward
      exact hpassed ⟨n, hn⟩

/-- A reset tells everything, so that nothing has to be known before. -/
theorem watched_reset (draw : Nat → Direction) (w : Client × Bool) (hs : s.wrapLimit = limit) :
    Watched limit (((machine draw).shown (machine draw).reset s).foldl (see limit) w)
      ((machine draw).reset s).state :=
  ⟨hs, .nil, fun _ => ⟨rfl, rfl⟩⟩

/-- A client that watches the playfield machine goes on knowing it, or knows that it is astray. -/
theorem shown_machine (draw : Nat → Direction) :
    (machine draw).Shown name (see limit) (fun _ _ => ()) fun _ => Watched limit where
  outward _ w s e he hs := hs.outward (show ∀ x ∈ [e], x.IsOutward by simpa using he)
  created _ _ _ _ _ hs := hs
  reset _ w s hs := watched_reset draw w hs.limit_eq
  load source _ w s report hr hs := by
    rw [List.foldl_append]
    refine Watched.outward (Machine.shown_load (rewinds draw s) rfl ?_ hs) hr.outward
    exact watched_reset draw w hs.limit_eq
  step _ w s report hr hs := watched_reported (displays_step draw) hs hr
  resume input _ w s report hr hs := watched_reported (displays_resume input) hs hr

/-- Whether a client is astray after a row of events. -/
def astrayAfter (limit : Option Nat) (events : List Event) : Bool :=
  events.foldl (strays limit) false

/-- A machine that has just been made is known to a client that has been told nothing. -/
theorem watched_start {options : Options} {s : State} (hb : build options = .ok s) :
    Watched (wrapLimitOf options).toOption.join (.start 0, false) s := by
  obtain ⟨limit, hw, rfl⟩ := build_eq_ok hb
  rw [hw]
  exact ⟨rfl, (Tallies.nil : Tallies false [] []), fun _ => ⟨rfl, rfl⟩⟩

end EsotericHost.Befunge

namespace EsotericHost.Host

variable {draw : Nat → Befunge.Direction} {bound : Nat} {limit : Option Nat}
  {commands : List Command} {steps : List (List Event)} {h : Host Builtin} {s : Session Builtin}

/-- After every run of commands a client that watches the playfield machine knows its stack, and the
place of its pointer unless it is astray. -/
theorem handleAll_field {state : Befunge.State}
    (hrun : (Host.new limit).handleAll (.standard draw) bound commands = some (steps, h))
    (hs : h.session = some s) (hstate : s.state = .befunge state) (hv : s.visualize = true) :
    let events := (Catalogue.standard draw).latest [] commands steps
    state.KnownTo (Befunge.astrayAfter state.wrapLimit events) ((Client.start 0).watch events) := by
  obtain ⟨start, hbuilt, hkept⟩ := Builtin.shown_of_handleAll (fun _ _ => ())
    Builtin.copies_befunge (Befunge.shown_machine draw) hrun hs hstate hv
  cases hbuilt with
  | befunge build =>
    have hwatched := hkept () _ (Befunge.watched_start build)
    rw [Befunge.foldl_see] at hwatched
    rw [hwatched.limit_eq]
    exact hwatched.known

/-- A program of two turns that runs round its field until it passes a limit of one crossing. -/
def runsRound : List Command :=
  [.setLanguage "befunge" ⟨[("updateVisuals", .bool true), ("wrapLimit", .ofNat 1)]⟩,
    .press .interpret ⟨some ">>", none⟩]

/-- The machine after that program: it has crossed the edge twice, and its pointer has come to the
left. -/
def roundTwice : Befunge.State :=
  { Befunge.State.new false (some 1) false with
    source := .ofSource ">>".toList, sourceFilled := 2
    grid := .ofSource ">>".toList, filled := 2, wraps := 2 }

/-- A client that is astray knows the pointer again from the next step. -/
theorem handleAll_field_stepped :
    ∃ steps h, (Host.new none).handleAll (.standard fun _ => .right) 9
        (runsRound ++ [.press .step ⟨none, none⟩]) = some (steps, h) ∧
      ((Client.start 0).watch ((Catalogue.standard fun _ => .right).latest []
        (runsRound ++ [.press .step ⟨none, none⟩]) steps)).pointer "x" = .ofNat 1 := by
  have hend : (((Host.new none).handleAll (.standard fun _ => .right) 9
      (runsRound ++ [.press .step ⟨none, none⟩])).bind fun run => run.2.session.map fun s =>
        (s.state, s.visualize, Befunge.astrayAfter (some 1) ((Catalogue.standard fun _ =>
          .right).latest [] (runsRound ++ [.press .step ⟨none, none⟩]) run.1))) =
      some (.befunge { roundTwice with x := 1 }, true, false) := by decide +kernel
  obtain ⟨⟨steps, h⟩, hrun, hend⟩ := Option.bind_eq_some_iff.mp hend
  obtain ⟨s, hs, hend⟩ := Option.map_eq_some_iff.mp hend
  simp only [Prod.mk.injEq] at hend
  obtain ⟨hstate, hv, hback⟩ := hend
  exact ⟨steps, h, hrun, ((handleAll_field hrun hs hstate hv).place hback).1⟩

/-- A client that watches the program pass its limit is told of the pointer on the right and not of
its last move to the left. -/
theorem handleAll_field_astray :
    ∃ steps h s, (Host.new none).handleAll (.standard fun _ => .right) 9 runsRound =
        some (steps, h) ∧
      h.session = some s ∧ s.state = .befunge roundTwice ∧ s.visualize = true ∧
      ((Client.start 0).watch
        ((Catalogue.standard fun _ => .right).latest [] runsRound steps)).pointer "x" ≠
          .ofNat roundTwice.x := by
  have hend : (((Host.new none).handleAll (.standard fun _ => .right) 9 runsRound).bind
      fun run => run.2.session.map fun s => (s.state, s.visualize,
        (((Client.start 0).watch ((Catalogue.standard fun _ => .right).latest [] runsRound
          run.1)).pointer "x").compact)) =
      some (.befunge roundTwice, true, "1") := by decide +kernel
  obtain ⟨⟨steps, h⟩, hrun, hend⟩ := Option.bind_eq_some_iff.mp hend
  obtain ⟨s, hs, hend⟩ := Option.map_eq_some_iff.mp hend
  simp only [Prod.mk.injEq] at hend
  obtain ⟨hstate, hv, htext⟩ := hend
  refine ⟨steps, h, s, hrun, hs, hstate, hv, fun heq => ?_⟩
  rw [heq] at htext
  revert htext
  decide +kernel

end EsotericHost.Host
