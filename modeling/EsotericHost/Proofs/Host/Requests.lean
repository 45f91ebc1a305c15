import EsotericHost.Proofs.Host.Attunement
import EsotericHost.Proofs.Host.Operations

/-!
# What a command does with the open request

A command asks for input by its last event, if it asks at all, and it does so exactly when it leaves
a request open that was not open before. `Host.RequestStep` says what a command can do with the
request of the host: ask, close what was open, or keep it. Every course of a command is one of these
(`Course.requestStep`). The machines are left open, and may crash.
-/

namespace EsotericHost

variable {σ : Type} {c : Catalogue σ} {m : Machine σ} {bound : Nat} {h h' : Host σ}
  {s : Session σ} {command : Command} {events : List Event}

/-! ## Reports -/

/-- An event by which the host itself tells of what has happened. -/
def Event.IsNote : Event → Prop
  | .print _ | .status _ | .error _ => True
  | _ => False

/-- An event that only tells of what has happened: it neither asks for input, nor hands over a
machine or an answer of one. -/
def Event.IsReport : Event → Prop
  | .print _ | .update _ | .status _ | .error _ => True
  | _ => False

/-- A note of the host only tells of what has happened. -/
theorem Event.IsNote.isReport {e : Event} (he : e.IsNote) : e.IsReport := by
  cases e <;> trivial

/-- A machine only reports. -/
theorem Event.IsOfMachine.isReport {e : Event} (he : e.IsOfMachine) : e.IsReport := by
  cases e <;> trivial

/-- Labels that are taken away are noted. -/
theorem Activity.isNote_unwindReports (a : Activity) (depth : Nat) :
    ∀ e ∈ a.unwindReports depth, e.IsNote := by
  intro e he
  obtain ⟨n, -, rfl⟩ := List.mem_map.mp he
  trivial

/-- A load that fails is noted. -/
theorem Session.isNote_loadReport (lang : String) (answer : Except Upset Unit) :
    ∀ e ∈ loadReport lang answer, e.IsNote := by
  intro e he
  unfold loadReport at he
  split at he
  · cases he
  · obtain rfl := List.mem_singleton.mp he
    trivial
  · obtain rfl := List.mem_singleton.mp he
    trivial

/-- Held code that is loaded is reported on. -/
theorem Session.isReport_heldEvents (m : Machine σ) (s : Session σ) (held : Option String) :
    ∀ e ∈ s.heldEvents m held, e.IsReport := by
  intro e he
  rcases List.mem_append.mp he with he | he
  · cases held with
    | none => cases he
    | some source => exact (isOfMachine_of_mem_told he).isReport
  · exact (isNote_loadReport _ _ e he).isReport

/-- The end of an operation is noted. -/
theorem isNote_endReport (task : Task) (ending : Ending) :
    ∀ e ∈ endReport task ending, e.IsNote := by
  intro e he
  rcases List.mem_append.mp he with he | he
  · obtain ⟨error, -, rfl⟩ := Option.map_eq_some_iff.mp (Option.mem_toList.mp he)
    trivial
  · cases task with
    | run =>
      obtain rfl := List.mem_singleton.mp he
      trivial
    | step =>
      dsimp only at he
      split at he
      · cases he
      · obtain rfl := List.mem_singleton.mp he
        trivial

/-- A reset is reported. -/
theorem Host.isReport_resetEvents (m : Machine σ) (s : Session σ) :
    ∀ e ∈ Host.resetEvents m s, e.IsReport := by
  intro e he
  rcases List.mem_append.mp he with he | he
  · exact (Session.isOfMachine_of_mem_told he).isReport
  · split at he <;>
    · obtain rfl := List.mem_singleton.mp he
      trivial

/-- An operation that is given up is noted. -/
theorem Host.isNote_abandonEvents (h : Host σ) (reason : String) :
    ∀ e ∈ h.abandonEvents reason, e.IsNote := by
  intro e he
  unfold abandonEvents at he
  split at he
  · cases he
  · rcases List.mem_append.mp he with he | he
    · exact h.activity.isNote_unwindReports _ e he
    · obtain rfl := List.mem_singleton.mp he
      trivial

/-- What is said of an operation that is given up only tells of what has happened. -/
theorem Host.isReport_abandonEvents (h : Host σ) (reason : String) :
    ∀ e ∈ h.abandonEvents reason, e.IsReport :=
  fun e he => (h.isNote_abandonEvents reason e he).isReport

/-- What the host says before a machine works is a note. -/
theorem Effort.Origin.isNote_opening {e : Effort σ} (ho : e.Origin h command) :
    ∀ x ∈ e.opening, x.IsNote := by
  intro x hx
  rcases ho.opening_cases hx with ⟨text, rfl⟩ | ⟨label, rfl⟩ <;> trivial

/-! ## Requests on the wire -/

/-- The kind of input that an event asks for. -/
def Event.request? : Event → Option InputKind
  | .request kind => some kind
  | _ => none

/-- The requests among events, in their order. -/
def requestsIn (events : List Event) : List InputKind :=
  events.filterMap Event.request?

/-- Requests of two lists of events. -/
theorem requestsIn_append (first second : List Event) :
    requestsIn (first ++ second) = requestsIn first ++ requestsIn second :=
  List.filterMap_append

/-- An event asks for an input just if the request is among those of the events. -/
theorem mem_requestsIn {kind : InputKind} : kind ∈ requestsIn events ↔ .request kind ∈ events := by
  constructor
  · intro hk
    obtain ⟨e, he, hkind⟩ := List.mem_filterMap.mp hk
    cases e <;> cases hkind
    exact he
  · intro he
    exact List.mem_filterMap.mpr ⟨_, he, rfl⟩

/-- Reports ask for nothing. -/
theorem requestsIn_of_reports (hr : ∀ e ∈ events, e.IsReport) : requestsIn events = [] := by
  apply List.filterMap_eq_nil_iff.mpr
  intro e he
  have hreport := hr e he
  cases e <;> first | rfl | exact hreport.elim

namespace Effort

variable {e : Effort σ}

/-- The events up to the point where a machine comes to rest ask for nothing. -/
theorem requestsIn_toRest (he : h.effort? c bound command = some e) :
    requestsIn (e.opening ++ e.stretch.events) = [] := by
  apply requestsIn_of_reports
  intro x hx
  rcases List.mem_append.mp hx with hx | hx
  · exact ((origin he).isNote_opening x hx).isReport
  · exact (isOfMachine he x hx).isReport

/-- Work that waits asks for input by its last event, and for nothing before. -/
theorem events_of_waits (m : Machine σ) (held : Option String) {kind : InputKind}
    (he : h.effort? c bound command = some e) (hw : e.stretch.rest = .waits kind) :
    ∃ before, e.events m held = before ++ [.request kind] ∧ requestsIn before = [] := by
  refine ⟨e.opening ++ e.stretch.events ++ [.status kind.label], ?_, ?_⟩
  · unfold events
    rw [hw]
    simp
  · rw [requestsIn_append, requestsIn_toRest he]
    rfl

/-- Work that ends its operation asks for nothing. -/
theorem requestsIn_of_ends {ending : Ending} {held : Option String}
    (he : h.effort? c bound command = some e) (hw : e.stretch.rest = .ends ending) :
    requestsIn (e.events m held) = [] := by
  have hends : requestsIn (e.labels.unwindReports e.operation.depth ++
      endReport e.operation.task ending ++ e.stretch.session.heldEvents m held) = [] := by
    apply requestsIn_of_reports
    intro x hx
    rcases List.mem_append.mp hx with hx | hx
    · rcases List.mem_append.mp hx with hx | hx
      · exact (e.labels.isNote_unwindReports _ x hx).isReport
      · exact (isNote_endReport _ _ x hx).isReport
    · exact Session.isReport_heldEvents _ _ _ x hx
  unfold events
  rw [hw, requestsIn_append, requestsIn_toRest he]
  exact hends

end Effort

/-! ## What a command does with the open request -/

namespace Handling

/-- A question to the machine is answered by an echo and the result, crashes the machine or is
refused. -/
theorem asked_apply (supported : Bool) (answer : Except Crash (Option String))
    (lang capability line : String) (result : String → Event) (h : Host σ) :
    (needAnswer supported answer lang capability >>= fun code =>
      print line >>= fun _ => emit (result code)) h =
    match supported, answer with
    | true, .ok (some code) => some (.ok (), h.say [.print line, result code])
    | true, .error crash => some (.error (.crashed crash), h)
    | _, _ => some (.error (.refused (.notSupported lang capability)), h) := by
  cases supported with
  | false => rfl
  | true =>
    match answer with
    | .ok none => rfl
    | .error crash => rfl
    | .ok (some code) =>
      have hn : needAnswer true (.ok (some code)) lang capability h = some (.ok code, h) := rfl
      rw [bind_of_ok hn, bind_of_ok (print_apply _ _), emit_apply, Host.say_say]
      rfl

/-- Code is held back from a busy machine, and from none at all. -/
theorem loadCode_of_held (source : String) (hb : h.operation.isSome ∨ h.session = none) :
    dispatch c bound (.loadCode source) h = some (.ok (), { h with held := some source }) := by
  obtain ⟨limit, session, held, activity, request, operation, out⟩ := h
  rcases hb with hbusy | hnone
  · obtain ⟨op, rfl⟩ := Option.isSome_iff_exists.mp hbusy
    rfl
  · obtain rfl : session = none := hnone
    cases operation <;> rfl

/-- An answer that does not fit the open request is refused. -/
theorem unblock_of_error {value : Json} {popStatus : Bool} {e : HostError}
    (hr : Request.resolve h.request value = .error e) :
    dispatch c bound (.unblock value popStatus) h = some (.error (.refused e), h) := by
  change unblock c.machine bound value popStatus h = _
  unfold unblock
  rw [get_bind, hr]
  rfl

end Handling

namespace Host

/-- Whether a command answers the open request: an answer that is not refused. -/
def answers (c : Catalogue σ) (bound : Nat) (h : Host σ) : Command → Bool
  | .unblock value popStatus => !h.refuses c bound (.unblock value popStatus)
  | _ => false

/-- Whether the machine crashes in the course of a command. -/
def crashes (c : Catalogue σ) (bound : Nat) (h : Host σ) (command : Command) : Bool :=
  match Handling.dispatch c bound command h with
  | some (.error (.crashed _), _) => true
  | _ => false

/-- Whether a command drops the open request: a reset, a language that is not refused, or a crash of
the machine over anything but an answer, which has taken the request by then. -/
def drops (c : Catalogue σ) (bound : Nat) (h : Host σ) : Command → Bool
  | .press .reset _ => h.request.isSome
  | .setLanguage lang options =>
    h.request.isSome && !h.refuses c bound (.setLanguage lang options)
  | .unblock _ _ => false
  | command => h.request.isSome && h.crashes c bound command

/-- Whether the request that is open after a command was opened in the course of it: before, none
was open, or the one that was has been answered or dropped. -/
def opens (c : Catalogue σ) (bound : Nat) (h : Host σ) (command : Command) (h' : Host σ) : Bool :=
  h'.request.isSome &&
    (h.request.isNone || h.answers c bound command || h.drops c bound command)

/-- What a command does with the open request. -/
inductive RequestStep (c : Catalogue σ) (bound : Nat) (h : Host σ) (command : Command)
    (events : List Event) (h' : Host σ) : Prop where
  /-- It asks for input by its last event. -/
  | asked {kind : InputKind} {before : List Event} (outstanding : h'.request = some kind)
    (last : events = before ++ [.request kind]) (silent : requestsIn before = [])
    (closed : h.request = none ∨ h.answers c bound command = true)
  /-- It leaves no request open. -/
  | closed (silent : requestsIn events = []) (outstanding : h'.request = none)
    (closed : h.request = none ∨ h.answers c bound command = true ∨
      h.drops c bound command = true)
  /-- It leaves the request as it is. -/
  | kept (silent : requestsIn events = []) (outstanding : h'.request = h.request)
    (unanswered : h.answers c bound command = false) (undropped : h.drops c bound command = false)

/-- A command that is refused in so many words. -/
theorem refuses_of_dispatch {e : HostError}
    (hd : Handling.dispatch c bound command h = some (.error (.refused e), h')) :
    h.refuses c bound command = true := by
  unfold refuses
  rw [hd]

/-- A refused command has not crashed the machine. -/
theorem crashes_of_refused {e : HostError}
    (hd : Handling.dispatch c bound command h = some (.error (.refused e), h')) :
    h.crashes c bound command = false := by
  unfold crashes
  rw [hd]

/-- An answer is taken just if it fits the open request. -/
theorem answers_iff (hh : h.Consistent) {value : Json} {popStatus : Bool} :
    h.answers c bound (.unblock value popStatus) = true ↔
      ∃ answer, Request.resolve h.request value = .ok answer := by
  constructor
  · intro ha
    cases hr : Request.resolve h.request value with
    | ok answer => exact ⟨answer, rfl⟩
    | error e =>
      change (!h.refuses c bound (.unblock value popStatus)) = true at ha
      rw [refuses_of_dispatch (Handling.unblock_of_error hr)] at ha
      cases ha
  · rintro ⟨answer, hr⟩
    have hnot : h.refuses c bound (.unblock value popStatus) = false := by
      apply Bool.eq_false_iff.mpr
      intro hrefused
      unfold refuses at hrefused
      split at hrefused
      · cases Handling.refusal_of_dispatch hh ‹_› with
        | answer resolve => rw [hr] at resolve; cases resolve
      · cases hrefused
    change (!h.refuses c bound (.unblock value popStatus)) = true
    rw [hnot]
    rfl

/-- Only an open request is answered. -/
theorem request_of_answers (hh : h.Consistent) (ha : h.answers c bound command = true) :
    h.request.isSome = true := by
  cases command with
  | unblock value popStatus =>
    obtain ⟨⟨kind, input⟩, hr⟩ := (answers_iff hh).mp ha
    rw [(Request.resolve_ok hr).1]
    rfl
  | setLanguage lang options => cases ha
  | loadCode source => cases ha
  | press button args => cases ha

/-- Without an open request there is nothing to answer. -/
theorem answers_of_none (hh : h.Consistent) (hr : h.request = none) :
    h.answers c bound command = false := by
  apply Bool.eq_false_iff.mpr
  intro ha
  have hsome := request_of_answers hh ha
  rw [hr] at hsome
  cases hsome

/-- What is answered is not dropped. -/
theorem drops_of_answers (ha : h.answers c bound command = true) :
    h.drops c bound command = false := by
  unfold answers at ha
  split at ha
  · rfl
  · cases ha

/-- What is dropped is not answered. -/
theorem answers_of_drops (hd : h.drops c bound command = true) :
    h.answers c bound command = false := by
  apply Bool.eq_false_iff.mpr
  intro ha
  rw [drops_of_answers ha] at hd
  cases hd

/-- Only an open request is dropped. -/
theorem request_of_drops (hd : h.drops c bound command = true) : h.request.isSome = true := by
  unfold drops at hd
  split at hd
  · exact hd
  · exact (Bool.and_eq_true _ _ ▸ hd).1
  · cases hd
  · exact (Bool.and_eq_true _ _ ▸ hd).1

/-- Without an open request there is nothing to drop. -/
theorem drops_of_none (hr : h.request = none) : h.drops c bound command = false := by
  apply Bool.eq_false_iff.mpr
  intro hd
  have hsome := request_of_drops hd
  rw [hr] at hsome
  cases hsome

/-- A question crashes the machine of a busy host just if its operation ends by that. -/
theorem crashes_question {button : Button} {args : ButtonArgs} {op : Operation}
    (hq : button = .minify ∨ button = .textToCode) (hop : h.operation = some op) :
    h.crashes c bound (.press button args) =
      (h.effort? c bound (.press button args)).isSome := by
  unfold crashes
  cases hs : h.session with
  | none =>
    rw [Handling.press_of_none button args hs]
    rcases hq with rfl | rfl <;> simp only [effort?, hs, Option.bind_none, Option.isSome_none]
  | some s =>
    rcases hq with rfl | rfl
    · rw [Handling.minify_apply hs, Handling.asked_apply]
      simp only [effort?, hs, Option.bind_some, crashEffort, hop]
      cases s.capabilities.minify with
      | false => rfl
      | true => rcases c.machine.minify s.state (args.code.getD "") with _ | _ | _ <;> rfl
    · rw [Handling.textToCode_apply hs, Handling.asked_apply]
      simp only [effort?, hs, Option.bind_some, crashEffort, hop]
      cases s.capabilities.fromText with
      | false => rfl
      | true => rcases c.machine.fromText s.state (args.text.getD "") with _ | _ | _ <;> rfl

/-- A refused command answers nothing. -/
theorem answers_of_refused {e : HostError}
    (hd : Handling.dispatch c bound command h = some (.error (.refused e), h')) :
    h.answers c bound command = false := by
  have hrefuses := refuses_of_dispatch hd
  cases command with
  | unblock value popStatus =>
    show (!h.refuses c bound (.unblock value popStatus)) = false
    rw [hrefuses]
    rfl
  | setLanguage lang options => rfl
  | loadCode source => rfl
  | press button args => rfl

/-- A refused command drops nothing. -/
theorem drops_of_refused {e : HostError} (hh : h.Consistent)
    (hd : Handling.dispatch c bound command h = some (.error (.refused e), h'))
    (hkept : h.abandons c command = false) : h.drops c bound command = false := by
  have hrefuses := refuses_of_dispatch hd
  have hcrashes : (h.request.isSome && h.crashes c bound command) = false := by
    rw [crashes_of_refused hd, Bool.and_false]
  match command with
  | .press .reset args =>
    -- An idle host has no request that a reset could drop.
    have hidle : h.operation = none := by simpa [abandons] using hkept
    exact drops_of_none (hh.request_of_idle hidle)
  | .setLanguage lang options =>
    show (h.request.isSome && !h.refuses c bound (.setLanguage lang options)) = false
    rw [hrefuses, Bool.not_true, Bool.and_false]
  | .unblock value popStatus => rfl
  | .loadCode source => exact hcrashes
  | .press .interpret args => exact hcrashes
  | .press .step args => exact hcrashes
  | .press .minify args => exact hcrashes
  | .press .textToCode args => exact hcrashes

/-- A question drops the open request just if the operation in flight ends by it. -/
theorem drops_question {button : Button} {args : ButtonArgs} (hh : h.Consistent)
    (hq : button = .minify ∨ button = .textToCode) :
    h.drops c bound (.press button args) = (h.effort? c bound (.press button args)).isSome := by
  cases hop : h.operation with
  | none =>
    rw [drops_of_none (hh.request_of_idle hop), effort_of_question hq hop]
    rfl
  | some op =>
    have hreq : h.request.isSome = true := hh.busy_iff.mp (by rw [hop]; rfl)
    have hdrops : h.drops c bound (.press button args) =
        (h.request.isSome && h.crashes c bound (.press button args)) := by
      rcases hq with rfl | rfl <;> rfl
    rw [hdrops, hreq, Bool.true_and, crashes_question hq hop]

/-- Code that is held back crashes nothing. -/
theorem drops_loadCode {source : String} (hb : h.operation.isSome ∨ h.session = none) :
    h.drops c bound (.loadCode source) = false := by
  show (h.request.isSome && h.crashes c bound (.loadCode source)) = false
  unfold crashes
  rw [Handling.loadCode_of_held source hb, Bool.and_false]

/-- A language that can be opened is not refused. -/
theorem refuses_setLanguage {lang : String} {options : Options} {s : Session σ} (hh : h.Consistent)
    (hs : c.openSession lang options = .ok s) :
    h.refuses c bound (.setLanguage lang options) = false := by
  apply Bool.eq_false_iff.mpr
  intro hrefused
  unfold refuses at hrefused
  split at hrefused
  · cases Handling.refusal_of_dispatch hh ‹_› with
    | language opening =>
      rw [hs] at opening
      cases opening
  · cases hrefused

/-- Whatever becomes of the request of a host that gives its operation up has been dropped, if there
was one. -/
theorem closed_of_dropped (hd : h.drops c bound command = h.request.isSome) :
    h.request = none ∨ h.answers c bound command = true ∨ h.drops c bound command = true := by
  cases hreq : h.request with
  | none => exact .inl rfl
  | some kind =>
    rw [hreq] at hd
    exact .inr (.inr hd)

end Host

/-! ## Answers to requests -/

/-- The work on an operation that goes on with an input: the machine is resumed with it, and then
runs on if the operation is a run. -/
def Session.toilWith (m : Machine σ) (bound : Nat) (op : Operation) (s : Session σ)
    (input : Input) : Option (Stretch σ) :=
  s.toilAfter m op (.failed s.lang) (m.resume input) fun s =>
    match op.task with
    | .run => s.toil m bound op
    | .step => some ⟨.ends .progressed, s, op.budget, []⟩

/-- An answer that fits makes the machine go on with the input that it stands for. -/
theorem Effort.of_unblock {e : Effort σ} {value : Json} {popStatus : Bool}
    (he : h.effort? c bound (.unblock value popStatus) = some e) :
    ∃ kind input s, h.operation = some e.operation ∧ h.session = some s ∧
      Request.resolve h.request value = .ok (kind, input) ∧
      s.toilWith c.machine bound e.operation input = some e.stretch := by
  simp only [Host.effort?] at he
  split at he
  · rename_i op s kind input hop hsession hr
    obtain ⟨w, hw, rfl⟩ := Option.map_eq_some_iff.mp he
    exact ⟨kind, input, s, hop, hsession, hr, hw⟩
  · cases he

/-! ## The courses of a command -/

/-- Work on an operation has asked for input by its last event, or leaves no request open. -/
theorem Effort.requestStep {e : Effort σ} (hh : h.Consistent)
    (he : h.effort? c bound command = some e) :
    Host.RequestStep c bound h command (e.events c.machine h.held) (e.leaves c.machine h) := by
  have hclosed (ending : Ending) (hrest : e.stretch.rest = .ends ending) :
      (e.leaves c.machine h).request = none := by
    unfold leaves
    rw [hrest]
  -- What was open before has been answered, or was never there; only a question drops a request.
  have hwork : (h.request = none ∨ h.answers c bound command = true) ∨
      (∃ ending, e.stretch.rest = .ends ending) ∧ h.drops c bound command = true := by
    cases origin he with
    | run idle session operation labels opening => exact .inl (.inl (hh.request_of_idle idle))
    | step idle session supported operation labels opening =>
      exact .inl (.inl (hh.request_of_idle idle))
    | answer busy labels opening =>
      obtain ⟨kind, input, s, -, -, hr, -⟩ := of_unblock he
      exact .inl (.inr ((Host.answers_iff hh).mpr ⟨_, hr⟩))
    | question question busy labels opening rest =>
      refine .inr ⟨⟨_, rest⟩, ?_⟩
      rw [Host.drops_question hh question, he]
      rfl
  cases hrest : e.stretch.rest with
  | waits kind =>
    obtain ⟨before, hevents, hsilent⟩ := events_of_waits c.machine h.held he hrest
    have hreq : (e.leaves c.machine h).request = some kind := by
      unfold leaves
      rw [hrest]
    rcases hwork with hwork | ⟨⟨ending, hends⟩, -⟩
    · exact .asked hreq hevents hsilent hwork
    · rw [hrest] at hends
      cases hends
  | ends ending =>
    refine .closed (requestsIn_of_ends he hrest) (hclosed ending hrest) ?_
    rcases hwork with (hnone | hanswers) | ⟨-, hdrops⟩
    · exact .inl hnone
    · exact .inr (.inl hanswers)
    · exact .inr (.inr hdrops)

/-- Every course of a command asks for input, closes what was open, or keeps it. -/
theorem Course.requestStep (hh : h.Consistent) (hc : Course c bound h command events h') :
    Host.RequestStep c bound h command events h' := by
  have hreleased : h.released.request = none := hh.released_request
  -- What a host says when it gives its operation up, and when it loads held code.
  have hfreed (reason : String) (s : Session σ) (held : Option String) :
      requestsIn (h.abandonEvents reason ++ s.heldEvents c.machine held) = [] := by
    rw [requestsIn_append, requestsIn_of_reports (h.isReport_abandonEvents reason),
      requestsIn_of_reports (s.isReport_heldEvents c.machine held)]
    rfl
  cases hc with
  | refused dispatched idle kept =>
    exact .kept rfl rfl (Host.answers_of_refused dispatched)
      (Host.drops_of_refused hh dispatched kept)
  | minified session answer =>
    rename_i args s code
    have hdrops : h.drops c bound (.press .minify args) = false := by
      rw [Host.drops_question hh (.inl rfl)]
      simp only [Host.effort?, session, answer, Option.bind_some, Host.crashEffort_of_ok,
        Option.isSome_none]
    exact .kept rfl rfl rfl hdrops
  | fromText session answer =>
    rename_i args s code
    have hdrops : h.drops c bound (.press .textToCode args) = false := by
      rw [Host.drops_question hh (.inr rfl)]
      simp only [Host.effort?, session, answer, Option.bind_some, Host.crashEffort_of_ok,
        Option.isSome_none]
    exact .kept rfl rfl rfl hdrops
  | crashed question dispatched operation =>
    exact .kept rfl rfl rfl (Host.drops_of_none (hh.request_of_idle operation))
  | held busy => exact .kept rfl rfl rfl (Host.drops_loadCode busy)
  | loaded operation session =>
    exact .kept (requestsIn_of_reports (Session.isReport_heldEvents _ _ _)) rfl rfl
      (Host.drops_of_none (hh.request_of_idle operation))
  | opened session loads =>
    refine .closed ?_ hreleased (Host.closed_of_dropped ?_)
    · rw [requestsIn_append, hfreed]
      rfl
    · show (h.request.isSome && !h.refuses c bound _) = h.request.isSome
      rw [Host.refuses_setLanguage hh session, Bool.not_false, Bool.and_true]
  | openCrashed session crash =>
    refine .closed (hfreed _ _ _) hreleased (Host.closed_of_dropped ?_)
    show (h.request.isSome && !h.refuses c bound _) = h.request.isSome
    rw [Host.refuses_setLanguage hh session, Bool.not_false, Bool.and_true]
  | reset session loads =>
    refine .closed ?_ hreleased (Host.closed_of_dropped rfl)
    rw [requestsIn_append, hfreed, requestsIn_of_reports (Host.isReport_resetEvents c.machine _)]
    rfl
  | resetCrashed session crash =>
    exact .closed (hfreed _ _ _) hreleased (Host.closed_of_dropped rfl)
  | worked effort => exact Effort.requestStep hh effort

end EsotericHost
