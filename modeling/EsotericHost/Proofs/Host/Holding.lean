import EsotericHost.Proofs.Host.Conservation
import EsotericHost.Proofs.Host.Forgetting

/-!
# Code that is held back

Code that cannot be loaded at once is held back in one place, where the next code takes its place.
`Session.Loads` says what it is to load code into a session, and `Host.KeepsCode` what becomes of
code that a host holds back: nothing depends on it as long as an operation is in flight
(`Host.handle_holding`), and it is loaded exactly once when the operation ends, when it is reset, or
when there is a first session.
-/

namespace EsotericHost

variable {σ : Type} {c : Catalogue σ} {m : Machine σ} {Good : σ → Prop}
  {waits : σ → Option InputKind} {bound : Nat} {h h' : Host σ} {s s' : Session σ} {op : Operation}
  {command : Command} {events : List Event}

/-! ## Loading code -/

/-- Code is loaded into a session: the machine takes it and is reset, with its own events; or it
refuses the code, which is reported by one error, and the session stays as it was. -/
inductive Session.Loads (m : Machine σ) (s : Session σ) (source : String) :
    List Event → Session σ → Prop where
  | loaded (ok : (Session.load m source s.state).result = .ok ()) :
    Loads m s source (s.told m (Session.load m source)) (s.left (Session.load m source))
  | refused {fault : Fault}
    (load : Session.load m source s.state = ⟨.error (.fault fault), s.state, []⟩) :
    Loads m s source [.error (HostError.badCode s.lang fault).message] s

/-- Held code is loaded into a session, if there is any, and then only this and only once. -/
inductive Session.LoadsHeld (m : Machine σ) (s : Session σ) :
    Option String → List Event → Session σ → Prop where
  | nothing : LoadsHeld m s none [] s
  | code {source : String} {events : List Event} {s' : Session σ}
    (loads : s.Loads m source events s') : LoadsHeld m s (some source) events s'

/-- A lawful machine takes code or refuses it without a trace. -/
theorem Session.loads (hm : m.Lawful Good waits) (hs : Good s.state) (source : String) :
    s.Loads m source (s.heldEvents m (some source)) (s.withHeld m (some source)) := by
  rcases (hm s.state hs).load_cases source with ⟨hok, -⟩ | ⟨fault, hfault⟩
  · have hevents : s.heldEvents m (some source) = s.told m (Session.load m source) := by
      simp only [heldEvents, heldTold, heldResult, hok, loadReport, List.append_nil]
    rw [hevents]
    exact .loaded hok
  · have hleft : s.withHeld m (some source) = s := by
      simp only [withHeld, left, hfault]
    have hevents : s.heldEvents m (some source) =
        [.error (HostError.badCode s.lang fault).message] := by
      simp only [heldEvents, heldTold, heldResult, told, hfault, loadReport]
      rfl
    rw [hleft, hevents]
    exact .refused hfault

/-- Held code is taken or refused in the same way. -/
theorem Session.loadsHeld (hm : m.Lawful Good waits) (hs : Good s.state) (held : Option String) :
    s.LoadsHeld m held (s.heldEvents m held) (s.withHeld m held) := by
  cases held with
  | none => exact .nothing
  | some source => exact .code (s.loads hm hs source)

/-! ## The last code -/

/-- The code that a command sends. -/
def Command.code? : Command → Option String
  | .loadCode source => some source
  | _ => none

/-- The last code that a list of commands sends. -/
def lastCode : List Command → Option String
  | [] => none
  | command :: rest => (lastCode rest).or command.code?

namespace Host

/-- The host with other code held back. -/
def holding (held : Option String) (h : Host σ) : Host σ :=
  { h with held }

/-- Of two codes that are held back one after the other, only the second is. -/
@[simp] theorem holding_holding (first second : Option String) (h : Host σ) :
    (h.holding first).holding second = h.holding second := rfl

/-- A busy host may hold back any code. -/
theorem Consistent.holding (hh : h.Consistent) (hbusy : h.operation.isSome)
    (held : Option String) : (h.holding held).Consistent :=
  hh.with_session hh.busy_session fun _ => .inl hbusy

/-! ## Held code is inert -/

/-- The events of a question that does not crash the machine. -/
def askedEvents (supported : Bool) (code : Option String) (lang capability line : String)
    (result : String → Event) : List Event :=
  match supported, code with
  | true, some code => [.print line, result code]
  | _, _ => [.error (HostError.notSupported lang capability).message]

/-- A question that does not crash the machine leaves the host as it was. -/
theorem handle_asked (hh : h.Consistent) {supported : Bool} {code : Option String}
    {lang capability line : String} {result : String → Event}
    (hd : Handling.dispatch c bound command h =
      (Handling.needAnswer supported (.ok code) lang capability >>= fun code =>
        Handling.print line >>= fun _ => Handling.emit (result code)) h) :
    h.handle c bound command =
      some (askedEvents supported code lang capability line result, h) := by
  rw [Handling.asked_apply] at hd
  cases supported with
  | false => exact handle_of_refused hh hd
  | true =>
    cases code with
    | none => exact handle_of_refused hh hd
    | some code => exact handle_of_ok hh hd

/-- A request to shorten a program that does not crash the machine. -/
theorem handle_minify_ok {args : ButtonArgs} {code : Option String} (hh : h.Consistent)
    (hs : h.session = some s)
    (hcode : c.machine.minify s.state (args.code.getD "") = .ok code) :
    h.handle c bound (.press .minify args) =
      some (askedEvents s.capabilities.minify code s.lang "minify"
        s!"> interpreter minify --lang {s.lang} --file ./userInput\n" .minified, h) := by
  apply handle_asked hh
  rw [Handling.minify_apply hs, hcode]

/-- A request for a program that prints a text that does not crash the machine. -/
theorem handle_textToCode_ok {args : ButtonArgs} {code : Option String} (hh : h.Consistent)
    (hs : h.session = some s)
    (hcode : c.machine.fromText s.state (args.text.getD "") = .ok code) :
    h.handle c bound (.press .textToCode args) =
      some (askedEvents s.capabilities.fromText code s.lang "text-to-code"
        s!"> interpreter --from-text ./userText.txt --lang {s.lang}\n" (.fromText s.lang), h) := by
  apply handle_asked hh
  rw [Handling.textToCode_apply hs, hcode]

/-- An answer does the same whatever code is held back, if the operation stays in flight. -/
theorem unblock_holding {value : Json} {popStatus : Bool} (hc : c.Reliable Good waits)
    (hh : h.Consistent) (hs : h.InStep Good waits) (hbusy : h.operation.isSome)
    (hx : h.handle c bound (.unblock value popStatus) = some (events, h'))
    (hstays : h'.operation.isSome) (held : Option String) :
    (h.holding held).handle c bound (.unblock value popStatus) =
      some (events, h'.holding held) := by
  have hk : (h.holding held).Consistent := hh.holding hbusy held
  have hks : (h.holding held).InStep Good waits := hs
  cases hr : Request.resolve h.request value with
  | error e =>
    have hkr : Request.resolve (h.holding held).request value = .error e := hr
    rw [handle_of_refused hh (Handling.unblock_of_error hr)] at hx
    cases hx
    exact handle_of_refused hk (Handling.unblock_of_error hkr)
  | ok answer =>
    obtain ⟨e, he, rfl, rfl⟩ := effort_of_answers hh ((answers_iff hh).mpr ⟨_, hr⟩) hx
    -- The work on the operation does not look at the code that is held back.
    have hke : (h.holding held).effort? c bound (.unblock value popStatus) = some e := he
    rw [handle_of_effort hc hk hks hke]
    unfold Effort.leaves at hstays ⊢
    unfold Effort.events
    cases hrest : e.stretch.rest with
    | waits kind => rfl
    | ends ending =>
      rw [hrest] at hstays
      cases hstays

/-- As long as the operation stays in flight, a command does the same whatever code is held back,
and the code that it sends is all that it changes about that. -/
theorem handle_holding (hc : c.Reliable Good waits) (hh : h.Consistent)
    (hs : h.InStep Good waits) (hbusy : h.operation.isSome)
    (hx : h.handle c bound command = some (events, h')) (hstays : h'.operation.isSome)
    (held : Option String) :
    (h.holding held).handle c bound command =
      some (events, h'.holding (command.code?.or held)) := by
  have hk : (h.holding held).Consistent := hh.holding hbusy held
  have hks : (h.holding held).InStep Good waits := hs
  obtain ⟨s, hsession⟩ := Option.isSome_iff_exists.mp (hh.busy_session hbusy)
  have hksession : (h.holding held).session = some s := hsession
  obtain ⟨op, hop⟩ := Option.isSome_iff_exists.mp hbusy
  have hkop : (h.holding held).operation = some op := hop
  -- A host that has given its operation up is not busy.
  have hgone {k : Host σ} (hk : h' = k) (hidle : k.operation = none) : False := by
    rw [hk, hidle] at hstays
    cases hstays
  match command with
  | .setLanguage lang options =>
    cases ho : c.openSession lang options with
    | ok s' =>
      rw [handle_setLanguage bound hc hh hs ho] at hx
      cases hx
      exact (hgone rfl h.released_operation).elim
    | error e =>
      have hd (k : Host σ) : Handling.dispatch c bound (.setLanguage lang options) k =
          some (.error (.refused e), k) := by
        show Handling.setLanguage c lang options k = _
        unfold Handling.setLanguage
        rw [ho]
        rfl
      rw [handle_of_refused hh (hd h)] at hx
      cases hx
      exact handle_of_refused hk (hd _)
  | .loadCode source =>
    rw [handle_hold source hh (.inl hbusy)] at hx
    cases hx
    exact handle_hold source hk (.inl hbusy)
  | .press .reset args =>
    rw [handle_reset args hc hh hs hsession] at hx
    cases hx
    exact (hgone rfl h.released_operation).elim
  | .press .interpret args =>
    rw [handle_of_refused hh (Handling.interpret_of_busy args hsession hop)] at hx
    cases hx
    exact handle_of_refused hk (Handling.interpret_of_busy args hksession hkop)
  | .press .step args =>
    by_cases hcap : s.capabilities.step = true
    · rw [handle_of_refused hh (Handling.step_of_busy args hsession hcap hop)] at hx
      cases hx
      exact handle_of_refused hk (Handling.step_of_busy args hksession hcap hkop)
    · rw [handle_of_refused hh (Handling.step_of_unsupported args hsession hcap)] at hx
      cases hx
      exact handle_of_refused hk (Handling.step_of_unsupported args hksession hcap)
  | .press .minify args =>
    obtain ⟨code, hcode⟩ := (hc.lawful s.state (hs s hsession).good).minify_ok (args.code.getD "")
    rw [handle_minify_ok hh hsession hcode] at hx
    cases hx
    exact handle_minify_ok hk hksession hcode
  | .press .textToCode args =>
    obtain ⟨code, hcode⟩ :=
      (hc.lawful s.state (hs s hsession).good).fromText_ok (args.text.getD "")
    rw [handle_textToCode_ok hh hsession hcode] at hx
    cases hx
    exact handle_textToCode_ok hk hksession hcode
  | .unblock value popStatus => exact unblock_holding hc hh hs hbusy hx hstays held

/-! ## Runs of commands -/

/-- A busy host that neither ends its operation nor gives it up stays busy. -/
theorem busy_of_account {rest : List Command} (hh : h.Consistent) (hbusy : h.operation.isSome)
    (hx : h.handle c bound command = some (events, h'))
    (hends : (h.account c bound (command :: rest)).ended = 0)
    (habandons : (h.account c bound (command :: rest)).abandoned = 0) :
    h'.operation.isSome ∧ (h'.account c bound rest).ended = 0 ∧
      (h'.account c bound rest).abandoned = 0 := by
  have haccount := account_step hh hx
  unfold account at hends habandons
  rw [hx] at hends habandons
  dsimp only at hends habandons
  rw [hbusy] at haccount
  have hone : h'.operation.isSome.toNat = 1 := by
    have hle : h'.operation.isSome.toNat ≤ 1 := Bool.toNat_le _
    simp only [Bool.toNat_true] at haccount
    omega
  refine ⟨?_, by omega, by omega⟩
  cases hop : h'.operation with
  | none => simp [hop] at hone
  | some op => rfl

/-- As long as the operation stays in flight, a run of commands does the same whatever code is held
back, and the last code that is sent is all that it changes about that. -/
theorem handleAll_holding (hc : c.Reliable Good waits) {later : List Command}
    {steps : List (List Event)} (hh : h.Consistent) (hs : h.InStep Good waits)
    (hbusy : h.operation.isSome) (hrun : h.handleAll c bound later = some (steps, h'))
    (hends : (h.account c bound later).ended = 0)
    (habandons : (h.account c bound later).abandoned = 0) :
    h'.operation.isSome ∧ ∀ held, (h.holding held).handleAll c bound later =
      some (steps, h'.holding ((lastCode later).or held)) := by
  induction later generalizing h steps with
  | nil =>
    cases hrun
    exact ⟨hbusy, fun held => rfl⟩
  | cons command rest ih =>
    obtain ⟨events, h₁, more, hx, hrest, rfl⟩ := handleAll_cons hrun
    obtain ⟨hbusy₁, hends₁, habandons₁⟩ := busy_of_account hh hbusy hx hends habandons
    have hcourse := handle_course hh hx
    obtain ⟨hbusy', hheld⟩ := ih (hcourse.consistent hh) (hcourse.inStep hc hh hs) hbusy₁ hrest
      hends₁ habandons₁
    refine ⟨hbusy', fun held => ?_⟩
    have hfirst := handle_holding hc hh hs hbusy hx hbusy₁ held
    have hlast : (lastCode (command :: rest)).or held =
        (lastCode rest).or (command.code?.or held) := Option.or_assoc
    rw [hlast]
    exact handleAll_of_cons hfirst (hheld _)

/-- Code that is sent to a busy host takes the place of the code held back before. -/
theorem handleAll_loadCode (hh : h.Consistent) (hbusy : h.operation.isSome)
    (sources : List String) (source : String) :
    h.handleAll c bound ((sources ++ [source]).map .loadCode) =
      some (List.replicate (sources.length + 1) [], h.holding (some source)) := by
  induction sources generalizing h with
  | nil => exact handleAll_of_cons (handle_hold source hh (.inl hbusy)) rfl
  | cons first rest ih =>
    have hfirst : h.handle c bound (.loadCode first) = some ([], h.holding (some first)) :=
      handle_hold first hh (.inl hbusy)
    have hlater := ih (hh.holding hbusy (some first)) hbusy
    rw [holding_holding] at hlater
    exact handleAll_of_cons hfirst hlater

end Host

/-- A host without a session that is not given one holds the last code that it has been sent. -/
theorem Course.keeps_code (hc : c.Reliable Good waits) (hs : h.session = none)
    (hx : Course c bound h command events h') (hsilent : events.any Event.isCreated = false) :
    h'.session = none ∧ h'.held = command.code?.or h.held := by
  cases hx with
  | refused dispatched idle kept =>
    refine ⟨hs, ?_⟩
    cases command with
    | loadCode source =>
      -- There is no machine that could refuse the code.
      rw [Handling.loadCode_of_held source (.inr hs)] at dispatched
      cases dispatched
    | setLanguage lang options => rfl
    | press button args => rfl
    | unblock value popStatus => rfl
  | minified session answer => rw [hs] at session; cases session
  | fromText session answer => rw [hs] at session; cases session
  | crashed question dispatched operation => exact ⟨hs, rfl⟩
  | held busy => exact ⟨hs, rfl⟩
  | loaded operation session => rw [hs] at session; cases session
  | opened session loads =>
    rw [List.any_append, Bool.or_eq_false_iff] at hsilent
    cases hsilent.2
  | openCrashed session crash =>
    exact absurd crash (Session.heldResult_ne_crash hc.lawful (hc.opens session).good _ _)
  | reset session loads => rw [hs] at session; cases session
  | resetCrashed session crash => rw [hs] at session; cases session
  | worked effort =>
    obtain ⟨s, state, hsession, -⟩ := Effort.make effort
    rw [hs] at hsession
    cases hsession

namespace Host

/-- A host that has told of no session holds the last code that it has been sent. -/
theorem handleAll_keeps_code (hc : c.Reliable Good waits) {commands : List Command}
    {steps : List (List Event)} (hh : h.Consistent) (hs : h.session = none)
    (hrun : h.handleAll c bound commands = some (steps, h'))
    (hsilent : steps.flatten.any Event.isCreated = false) :
    h'.session = none ∧ h'.held = (lastCode commands).or h.held := by
  induction commands generalizing h steps with
  | nil =>
    cases hrun
    exact ⟨hs, rfl⟩
  | cons command rest ih =>
    obtain ⟨events, h₁, more, hx, hrest, rfl⟩ := handleAll_cons hrun
    rw [List.flatten_cons, List.any_append, Bool.or_eq_false_iff] at hsilent
    have hcourse := handle_course hh hx
    obtain ⟨hs₁, hheld₁⟩ := hcourse.keeps_code hc hs hsilent.1
    obtain ⟨hs', hheld'⟩ := ih (hcourse.consistent hh) hs₁ hrest hsilent.2
    refine ⟨hs', ?_⟩
    calc h'.held = (lastCode rest).or h₁.held := hheld'
      _ = (lastCode rest).or (command.code?.or h.held) := by rw [hheld₁]
      _ = (lastCode (command :: rest)).or h.held := Option.or_assoc.symm

/-! ## What becomes of code -/

/-- What becomes of the code that a client sends to a host, after commands that the host has
answered by telling some events. The machines of new sessions are blank. -/
structure KeepsCode (c : Catalogue σ) (blank : σ → Prop) (bound : Nat) (commands : List Command)
    (told : List Event) (h : Host σ) : Prop where
  /-- Code sent to a busy host is held back without an event, in the place of the code before, and
  nothing else changes. -/
  overwritten : h.operation.isSome → ∀ sources source,
    h.handleAll c bound ((sources ++ [source]).map .loadCode) =
      some (List.replicate (sources.length + 1) [], h.holding (some source))
  /-- As long as the operation stays in flight, nothing that the host does depends on the code that
  it holds back, and it holds back the last code that it has been sent. -/
  inert : h.operation.isSome → ∀ later steps h', h.handleAll c bound later = some (steps, h') →
    (h.account c bound later).ended = 0 → (h.account c bound later).abandoned = 0 →
    h'.operation.isSome ∧ ∀ held, (h.holding held).handleAll c bound later =
      some (steps, h'.holding ((lastCode later).or held))
  /-- A command that ends the operation loads the code after the closing line, and leaves an idle
  host with the session that this leaves. -/
  ended : ∀ command events h', h.handle c bound command = some (events, h') →
    h.ends c bound command h' = true →
    ∃ (e : Effort σ) (ending : Ending) (loading : List Event) (s : Session σ),
      h.effort? c bound command = some e ∧ e.stretch.rest = .ends ending ∧
      e.stretch.session.LoadsHeld c.machine h.held loading s ∧
      events = e.opening ++ e.stretch.events ++ e.labels.unwindReports e.operation.depth ++
        endReport e.operation.task ending ++ loading ∧
      h' = (Host.new h.stepLimit).seated s
  /-- A reset loads the code after the operation is given up, and then resets the machine. -/
  reset : ∀ args s, h.session = some s → ∃ loading s',
    s.LoadsHeld c.machine h.held loading s' ∧
    h.handle c bound (.press .reset args) =
      some (h.abandonEvents "reset" ++ loading ++ resetEvents c.machine s',
        (Host.new h.stepLimit).seated (s'.left c.machine.reset))
  /-- A language that takes the place of an operation in flight has no program, and the code is
  gone. -/
  replaced : h.operation.isSome → ∀ lang options s, c.openSession lang options = .ok s →
    blank s.state ∧ h.handle c bound (.setLanguage lang options) =
      some (h.abandonEvents "setLanguage" ++ [s.createdEvent c.machine],
        (Host.new h.stepLimit).seated s)
  /-- Before there is a session, the host holds the last code that it has been sent, whatever it has
  been sent besides. -/
  waiting : told.any Event.isCreated = false → h.session = none ∧ h.held = lastCode commands
  /-- The first language loads the code before the event that tells of the session. -/
  first : told.any Event.isCreated = false → ∀ lang options s,
    c.openSession lang options = .ok s → blank s.state ∧ ∃ loading s',
      s.LoadsHeld c.machine h.held loading s' ∧
      h.handle c bound (.setLanguage lang options) =
        some (loading ++ [s'.createdEvent c.machine], (Host.new h.stepLimit).seated s')
  /-- A free machine is given code at once, and no code is held back from it. -/
  free : h.operation = none → ∀ s, h.session = some s → h.held = none ∧
    ∀ source, ∃ loading s', s.Loads c.machine source loading s' ∧
      h.handle c bound (.loadCode source) = some (loading, { h with session := some s' })

/-- The end of an operation loads the held code into the session that the work has left. -/
theorem loads_of_ends (hc : c.Reliable Good waits) (hh : h.Consistent) (hs : h.InStep Good waits)
    (hx : h.handle c bound command = some (events, h'))
    (hends : h.ends c bound command h' = true) :
    ∃ (e : Effort σ) (ending : Ending) (loading : List Event) (s : Session σ),
      h.effort? c bound command = some e ∧ e.stretch.rest = .ends ending ∧
      e.stretch.session.LoadsHeld c.machine h.held loading s ∧
      events = e.opening ++ e.stretch.events ++ e.labels.unwindReports e.operation.depth ++
        endReport e.operation.task ending ++ loading ∧
      h' = (Host.new h.stepLimit).seated s := by
  obtain ⟨e, ending, he, hrest, hevents⟩ := effort_of_ends hh hx hends
  obtain ⟨s, -, hsound⟩ := hc.effort_sound hh hs he
  refine ⟨e, ending, e.stretch.session.heldEvents c.machine h.held,
    e.stretch.session.withHeld c.machine h.held, he, hrest,
    Session.loadsHeld hc.lawful hsound.inStep.good _, ?_, ?_⟩
  · rw [hevents, Effort.events, hrest]
    simp only [List.append_assoc]
  · have hx' := handle_of_effort hc hh hs he
    rw [hx] at hx'
    have hleaves : h' = e.leaves c.machine h := (Prod.mk.inj (Option.some.inj hx')).2
    have hout : h.transcript = #[] := hh.delivered
    have hidle : e.labels.unwind e.operation.depth = .idle := by
      rw [((Effort.origin he).depths hh).1, Activity.unwind_zero]
    rw [hleaves, Effort.leaves, hrest]
    dsimp only
    rw [hidle, hout]
    rfl

/-- Code is kept by every host of a catalogue whose machines can be relied on. -/
theorem keepsCode {blank : σ → Prop} (hc : c.Reliable Good waits)
    (hblank : ∀ lang options s, c.openSession lang options = .ok s → blank s.state)
    {limit : Option Nat} {commands : List Command} {steps : List (List Event)}
    (hrun : (Host.new limit).handleAll c bound commands = some (steps, h)) (hh : h.Consistent)
    (hs : h.InStep Good waits) : h.KeepsCode c blank bound commands steps.flatten := by
  have hwaiting (hsilent : steps.flatten.any Event.isCreated = false) :
      h.session = none ∧ h.held = lastCode commands := by
    obtain ⟨hsession, hheld⟩ := handleAll_keeps_code hc (new_consistent limit) rfl hrun hsilent
    exact ⟨hsession, hheld.trans (Option.or_none)⟩
  constructor
  case overwritten => exact fun hbusy => handleAll_loadCode hh hbusy
  case inert => exact fun hbusy later steps h' => handleAll_holding hc hh hs hbusy
  case ended => exact fun command events h' => loads_of_ends hc hh hs
  case reset =>
    intro args s hsession
    refine ⟨_, _, Session.loadsHeld hc.lawful (hs s hsession).good h.held, ?_⟩
    rw [handle_reset args hc hh hs hsession, hh.released_seated]
  case replaced =>
    intro hbusy lang options s ho
    refine ⟨hblank lang options s ho, ?_⟩
    have hinherited : h.inherited = none := if_pos hbusy
    rw [handle_setLanguage bound hc hh hs ho, hinherited, hh.released_seated]
    simp only [Session.heldEvents, Session.heldTold, Session.heldResult, Session.loadReport,
      Session.withHeld, List.append_nil]
  case waiting => exact hwaiting
  case first =>
    intro hsilent lang options s ho
    have hop : h.operation = none := hh.idle_of_session (hwaiting hsilent).1
    have hinherited : h.inherited = h.held := if_neg (by simp [hop])
    have habandoned : h.abandonEvents "setLanguage" = [] := by
      unfold abandonEvents
      rw [hop]
    refine ⟨hblank lang options s ho, _, _,
      Session.loadsHeld hc.lawful (hc.opens ho).good h.held, ?_⟩
    rw [handle_setLanguage bound hc hh hs ho, hinherited, hh.released_seated, habandoned,
      List.nil_append]
  case free =>
    intro hop s hsession
    refine ⟨hh.held_of_idle hop hsession, fun source => ?_⟩
    exact ⟨_, _, Session.loads hc.lawful (hs s hsession).good source,
      handle_load source hh hop hsession⟩

/-- After every run of commands, a host of the built-in languages keeps the code that it is sent:
the last code is held back while an operation is in flight, without any effect; it is loaded once,
or refused, when the operation ends, when it is reset or when there is a first session; and it goes
with an operation that is given up for another language. A free machine is given code at once. -/
theorem code_kept (draw : Nat → Befunge.Direction) (bound : Nat) (limit : Option Nat)
    (commands : List Command) {steps : List (List Event)} {h : Host Builtin}
    (hrun : (Host.new limit).handleAll (.standard draw) bound commands = some (steps, h)) :
    h.KeepsCode (.standard draw) Builtin.Blank bound commands steps.flatten := by
  obtain ⟨⟨hh, hs, -⟩, -⟩ := standard_handleAll hrun
  exact keepsCode (Catalogue.standard_reliable draw) (Catalogue.standard_blank draw) hrun hh hs

/-- A client that has a program wait for a byte, and sends code meanwhile. -/
def sendWhileWaiting : List Command :=
  [.setLanguage "befunge" .empty, .press .interpret ⟨some "~.@", none⟩, .loadCode "1.@"]

/-- Of the code that such a client sends next only the last is held back, and a reset loads the code
that is. -/
theorem code_kept_waiting :
    ∃ steps h s, (Host.new none).handleAll (.standard fun _ => .right) 5 sendWhileWaiting =
        some (steps, h) ∧ h.session = some s ∧ h.held = some "1.@" ∧
      h.handleAll (.standard fun _ => .right) 5 [.loadCode "2.@", .loadCode "3.@"] =
        some ([[], []], h.holding (some "3.@")) ∧
      ∃ loading s', s.LoadsHeld (Builtin.machine fun _ => .right) (some "1.@") loading s' ∧
        h.handle (.standard fun _ => .right) 5 (.press .reset ⟨none, none⟩) =
          some (h.abandonEvents "reset" ++ loading ++
              resetEvents (Builtin.machine fun _ => .right) s',
            (Host.new h.stepLimit).seated (s'.left (Builtin.machine fun _ => .right).reset)) := by
  have hwaiting : ((Host.new none).handleAll (.standard fun _ => .right) 5
      sendWhileWaiting).map (fun run => (run.2.operation.isSome, run.2.held)) =
        some (true, some "1.@") := by decide +kernel
  obtain ⟨⟨steps, h⟩, hrun, hfacts⟩ := Option.map_eq_some_iff.mp hwaiting
  obtain ⟨hbusy, hheld⟩ : h.operation.isSome = true ∧ h.held = some "1.@" := by
    simpa only [Prod.mk.injEq] using hfacts
  have hkeeps := code_kept _ 5 none _ hrun
  obtain ⟨s, hsession⟩ := Option.isSome_iff_exists.mp
    ((handleAll_consistent (new_consistent none) hrun).busy_session hbusy)
  obtain ⟨loading, s', hloads, hreset⟩ := hkeeps.reset ⟨none, none⟩ s hsession
  rw [hheld] at hloads
  exact ⟨steps, h, s, hrun, hsession, hheld, hkeeps.overwritten hbusy ["2.@"] "3.@", loading, s',
    hloads, hreset⟩

end Host

end EsotericHost
