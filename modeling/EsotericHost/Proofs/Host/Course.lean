import EsotericHost.Proofs.Host.Effort

/-!
# The courses of a command

Between two commands a host is consistent: `Host.Consistent` collects what its parts then have to do
with each other. From such a host the handling of a command takes one of a few courses, and `Course`
lists them with the events and the host that each comes to: the command is refused, a question is
answered, code is loaded or held back, the session is replaced or reset, or the machine works on an
operation.

The courses are about any machine that may be plugged in, also about one that crashes.
-/

namespace EsotericHost

variable {σ : Type}

/-- What holds of a host between two commands. -/
structure Host.Consistent (h : Host σ) : Prop where
  /-- A request is open as long as an operation is in flight. -/
  busy_iff : h.operation.isSome ↔ h.request.isSome
  /-- An idle host has no labels. -/
  idle_labels : h.operation = none → h.activity = .idle
  /-- The labels of a request and of the operation that made it are there. -/
  busy_labels : ∀ kind, h.request = some kind → 2 ≤ h.activity.depth ∧ h.activity.top = kind.label
  /-- Operations are carried out on a session. -/
  busy_session : h.operation.isSome → h.session.isSome
  /-- Code is held back only when it cannot be loaded. -/
  held_back : h.held.isSome → h.operation.isSome ∨ h.session = none
  /-- Operations begin with no labels under them. -/
  depth_eq : ∀ op, h.operation = some op → op.depth = 0
  /-- All events have been delivered. -/
  delivered : h.transcript = #[]

/-- An idle host has no open request. -/
theorem Host.Consistent.request_of_idle {h : Host σ} (hh : h.Consistent)
    (hop : h.operation = none) : h.request = none := by
  have hb := hh.busy_iff
  rw [hop] at hb
  simpa using hb

/-- An idle host with a session holds no code back. -/
theorem Host.Consistent.held_of_idle {h : Host σ} {s : Session σ} (hh : h.Consistent)
    (hop : h.operation = none) (hs : h.session = some s) : h.held = none := by
  apply Option.not_isSome_iff_eq_none.mp
  intro hheld
  rcases hh.held_back hheld with hbusy | hnone
  · rw [hop] at hbusy
    cases hbusy
  · rw [hs] at hnone
    cases hnone

/-- A host without a session is idle. -/
theorem Host.Consistent.idle_of_session {h : Host σ} (hh : h.Consistent)
    (hs : h.session = none) : h.operation = none := by
  cases hop : h.operation with
  | none => rfl
  | some op =>
    have hb := hh.busy_session (by rw [hop]; rfl)
    rw [hs] at hb
    cases hb

/-- An answer that fits an open request finds the operation that has asked for it, and its
session. -/
theorem Host.Consistent.busy_of_resolve {h : Host σ} (hh : h.Consistent) {value : Json}
    {answer : InputKind × Input} (hr : Request.resolve h.request value = .ok answer) :
    ∃ op s, h.operation = some op ∧ h.session = some s := by
  have hreq : h.request.isSome := by
    cases hq : h.request with
    | none => rw [hq] at hr; cases hr
    | some kind => rfl
  have hbusy := hh.busy_iff.mpr hreq
  obtain ⟨op, hop⟩ := Option.isSome_iff_exists.mp hbusy
  obtain ⟨s, hs⟩ := Option.isSome_iff_exists.mp (hh.busy_session hbusy)
  exact ⟨op, s, hop, hs⟩

namespace Effort

/-- The events of work on an operation and of all that follows from it. -/
def events (m : Machine σ) (held : Option String) (e : Effort σ) : List Event :=
  e.opening ++ e.stretch.events ++
    match e.stretch.rest with
    | .waits kind => [.status kind.label, .request kind]
    | .ends ending =>
      e.labels.unwindReports e.operation.depth ++ endReport e.operation.task ending ++
        e.stretch.session.heldEvents m held

/-- The host after work on an operation. -/
def leaves (m : Machine σ) (h : Host σ) (e : Effort σ) : Host σ :=
  match e.stretch.rest with
  | .waits kind =>
    { h with
      session := some e.stretch.session
      activity := e.labels.push kind.label
      request := some kind
      operation := some { e.operation with budget := e.stretch.budget } }
  | .ends _ =>
    { h with
      session := some (e.stretch.session.withHeld m h.held)
      held := none
      activity := e.labels.unwind e.operation.depth
      request := none
      operation := none }

end Effort

namespace Host

/-- The held code that a new session takes over: none of that held back for an operation. -/
def inherited (h : Host σ) : Option String :=
  if h.operation.isSome then none else h.held

/-- The host whose held code is gone. -/
def unheld (h : Host σ) : Host σ :=
  { h with held := none }

/-- The host with a session in place, and no code held back from it. -/
def seated (s : Session σ) (h : Host σ) : Host σ :=
  { h with session := some s, held := none }

/-- The host that gives its operation up for a new session. -/
def vacated (h : Host σ) : Host σ :=
  { h.released with held := h.inherited }

/-- To take the held code away changes nothing that is said. -/
theorem say_unheld (events : List Event) (h : Host σ) :
    (h.say events).unheld = h.unheld.say events := rfl

/-- To seat a session changes nothing that is said. -/
theorem say_seated (events : List Event) (s : Session σ) (h : Host σ) :
    (h.say events).seated s = (h.seated s).say events := rfl

/-- What is left of a host without its operation is idle. -/
theorem released_operation (h : Host σ) : h.released.operation = none := by
  unfold released
  cases hop : h.operation with
  | none => exact hop
  | some op => rfl

/-- What is left of a consistent host without its operation has no open request. -/
theorem Consistent.released_request {h : Host σ} (hh : h.Consistent) :
    h.released.request = none := by
  unfold released
  cases hop : h.operation with
  | none => exact hh.request_of_idle hop
  | some op => rfl

/-- To release an operation leaves the session in place. -/
theorem released_session (h : Host σ) : h.released.session = h.session := by
  unfold released
  cases h.operation <;> rfl

/-- To release an operation leaves the held code as it is. -/
theorem released_held (h : Host σ) : h.released.held = h.held := by
  unfold released
  cases h.operation <;> rfl

/-- To release an operation takes nothing of the transcript back. -/
theorem released_transcript (h : Host σ) : h.released.transcript = h.transcript := by
  unfold released
  cases h.operation <;> rfl

/-- Whether a command gives up the operation in flight: a reset, or a language that there is. -/
def abandons (c : Catalogue σ) (h : Host σ) : Command → Bool
  | .press .reset _ => h.operation.isSome
  | .setLanguage lang options => h.operation.isSome && (c.openSession lang options).isOk
  | _ => false

/-- The events of the reset of a session: the machine's own, and the report of a crash or the
line that tells of the reset. -/
def resetEvents (m : Machine σ) (s : Session σ) : List Event :=
  s.told m m.reset ++
    match (m.reset s.state).result with
    | .error (.crash message) => [.error (HostError.ofCrash message).message]
    | _ => [.print s!"> interpreter reset --lang {s.lang}\n"]

end Host

/-- The events of a command and the host after it, for a host that is consistent. -/
inductive Course (c : Catalogue σ) (bound : Nat) (h : Host σ) :
    Command → List Event → Host σ → Prop where
  /-- The command is refused. -/
  | refused {command : Command} {e : HostError}
    (dispatched : Handling.dispatch c bound command h = some (.error (.refused e), h))
    (idle : h.effort? c bound command = none) (kept : h.abandons c command = false) :
    Course c bound h command [.error e.message] h
  /-- The machine shortens a program. -/
  | minified {args : ButtonArgs} {s : Session σ} {code : String} (session : h.session = some s)
    (answer : c.machine.minify s.state (args.code.getD "") = .ok (some code)) :
    Course c bound h (.press .minify args)
      [.print s!"> interpreter minify --lang {s.lang} --file ./userInput\n", .minified code] h
  /-- The machine makes a program that prints a text. -/
  | fromText {args : ButtonArgs} {s : Session σ} {code : String} (session : h.session = some s)
    (answer : c.machine.fromText s.state (args.text.getD "") = .ok (some code)) :
    Course c bound h (.press .textToCode args)
      [.print s!"> interpreter --from-text ./userText.txt --lang {s.lang}\n",
        .fromText s.lang code] h
  /-- The machine crashes over a question while no operation is in flight. -/
  | crashed {button : Button} {args : ButtonArgs} {message : Crash}
    (question : button = .minify ∨ button = .textToCode)
    (dispatched : Handling.dispatch c bound (.press button args) h =
      some (.error (.crashed message), h))
    (operation : h.operation = none) :
    Course c bound h (.press button args) [.error (HostError.ofCrash message).message] h
  /-- Code is held back. -/
  | held {source : String} (busy : h.operation.isSome ∨ h.session = none) :
    Course c bound h (.loadCode source) [] { h with held := some source }
  /-- Code is loaded, with or without success. -/
  | loaded {source : String} {s : Session σ} (operation : h.operation = none)
    (session : h.session = some s) :
    Course c bound h (.loadCode source) (s.heldEvents c.machine (some source))
      { h with session := some (s.withHeld c.machine (some source)) }
  /-- A new session is put in place, with the code held back until then. -/
  | opened {lang : String} {options : Options} {s : Session σ}
    (session : c.openSession lang options = .ok s)
    (loads : ∀ message, s.heldResult c.machine h.inherited ≠ .error (.crash message)) :
    Course c bound h (.setLanguage lang options)
      (h.abandonEvents "setLanguage" ++ s.heldEvents c.machine h.inherited ++
        [(s.withHeld c.machine h.inherited).createdEvent c.machine])
      (h.released.seated (s.withHeld c.machine h.inherited))
  /-- The code held back crashes the machine of a new session, which is not put in place. -/
  | openCrashed {lang : String} {options : Options} {s : Session σ} {message : Crash}
    (session : c.openSession lang options = .ok s)
    (crash : s.heldResult c.machine h.inherited = .error (.crash message)) :
    Course c bound h (.setLanguage lang options)
      (h.abandonEvents "setLanguage" ++ s.heldEvents c.machine h.inherited) h.released.unheld
  /-- The session is reset, with the code held back until then. -/
  | reset {args : ButtonArgs} {s : Session σ} (session : h.session = some s)
    (loads : ∀ message, s.heldResult c.machine h.held ≠ .error (.crash message)) :
    Course c bound h (.press .reset args)
      (h.abandonEvents "reset" ++ s.heldEvents c.machine h.held ++
        Host.resetEvents c.machine (s.withHeld c.machine h.held))
      (h.released.seated ((s.withHeld c.machine h.held).left c.machine.reset))
  /-- The code held back crashes the machine, which is not reset. -/
  | resetCrashed {args : ButtonArgs} {s : Session σ} {message : Crash}
    (session : h.session = some s)
    (crash : s.heldResult c.machine h.held = .error (.crash message)) :
    Course c bound h (.press .reset args)
      (h.abandonEvents "reset" ++ s.heldEvents c.machine h.held)
      (h.released.seated (s.withHeld c.machine h.held))
  /-- The machine works on an operation. -/
  | worked {command : Command} {e : Effort σ} (effort : h.effort? c bound command = some e) :
    Course c bound h command (e.events c.machine h.held) (e.leaves c.machine h)

namespace Host

/-- The host that work on an operation finds. -/
def atWork (op : Operation) (labels : Activity) (opening : List Event) (h : Host σ) : Host σ :=
  { h with operation := some op, request := none, activity := labels }.say opening

/-- The host that comes to rest from work has said the events of the work, and nothing else has
changed than what the work leaves. -/
theorem atWork_worked (m : Machine σ) (e : Effort σ) (h : Host σ) :
    (h.atWork e.operation e.labels e.opening).worked m e.operation e.stretch =
      (e.leaves m h).say (e.events m h.held) := by
  obtain ⟨op, labels, opening, rest, s, budget, events⟩ := e
  cases rest with
  | waits kind =>
    simp only [worked, rested, waitingFor, atWork, Effort.leaves, Effort.events]
    simp only [say, Transcript.append_append]
  | ends ending =>
    simp only [worked, rested, ended, closed, unloaded, atWork, Effort.leaves, Effort.events]
    simp only [say, Transcript.append_append, List.append_assoc]

end Host

/-- A command that makes no machine work on an operation leaves an idle host idle. -/
theorem Course.idle {c : Catalogue σ} {bound : Nat} {h h' : Host σ} {command : Command}
    {events : List Event} (hc : Course c bound h command events h') (hop : h.operation = none)
    (hnone : h.effort? c bound command = none) : h'.operation = none := by
  cases hc with
  | refused | minified | fromText | crashed | held | loaded => exact hop
  | opened | openCrashed | reset | resetCrashed => exact h.released_operation
  | worked effort =>
    rw [hnone] at effort
    cases effort

end EsotericHost
