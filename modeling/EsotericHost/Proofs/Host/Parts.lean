import EsotericHost.Host.Handling

/-!
# The parts of a handling

What each part of the handling of a command does to the host, as an equation. A call of the machine
leaves a session (`Session.left`) and tells events (`Session.told`); the host says events
(`Host.say`), lets go of an operation (`Host.released`) and loads its held code (`Host.unloaded`).

`rescue` is what the host makes of a refusal or a crash. The end of an operation is stated together
with it: code that is loaded last may crash, and the report of the crash then follows
(`rescue_finish`).
-/

namespace EsotericHost

variable {σ α β : Type}

/-- Adding two lists of events is adding them in one. -/
theorem Transcript.append_append (out : Transcript) (first second : List Event) :
    out ++ first ++ second = out ++ (first ++ second) := by
  apply Array.ext'
  simp

/-- The error that reports a crash. -/
def HostError.ofCrash (message : Crash) : HostError :=
  .internal (message.getD "interpreter panicked")

namespace Session

/-- The session with the state that a call leaves. -/
def left (act : Act Upset σ α) (s : Session σ) : Session σ :=
  { s with state := (act s.state).state }

/-- The events of a call. -/
def told (m : Machine σ) (act : Act Upset σ α) (s : Session σ) : List Event :=
  (s.left act).events m (act s.state).effects

/-- A call gives the result of the act, and adds the events of its effects. -/
theorem call_eq (m : Machine σ) (act : Act Upset σ α) (s : Session σ) (out : Transcript) :
    s.call m act out = ((act s.state).result, s.left act, out ++ s.told m act) := rfl

/-- A call leaves the language of its session as it is. -/
@[simp] theorem left_lang (act : Act Upset σ α) (s : Session σ) : (s.left act).lang = s.lang := rfl

/-- What a run adds to a transcript does not depend on what is in it. -/
theorem run_eq_map (m : Machine σ) (bound : Nat) (budget : Budget) (s : Session σ)
    (out : Transcript) :
    s.run m bound budget out = (s.run m bound budget #[]).map
      fun (answer, budget, s, more) => (answer, budget, s, out ++ more.toList) := by
  induction bound generalizing budget s out with
  | zero => rfl
  | succ bound ih =>
    unfold run
    simp only [call_eq]
    cases (m.step s.state).result with
    | error upset => simp
    | ok outcome =>
      cases outcome with
      | halted => simp
      | suspended kind => simp
      | progressed =>
        cases budget.charge.exceeded? with
        | some limit => simp
        | none =>
          dsimp only
          -- Both runs go on from the same session, one with what was in the transcript in front.
          rw [ih budget.charge (s.left m.step) (out ++ s.told m m.step),
            ih budget.charge (s.left m.step) (#[] ++ s.told m m.step), Option.map_map]
          congr 1
          funext r
          simp [Transcript.append_append]

/-- A run ends with the step of a session that it has come to, in which all that its steps preserve
holds. Its answer is that of the step, unless the budget is used up. -/
theorem run_ends {m : Machine σ} {P : Session σ → Transcript → Prop} {bound : Nat}
    {budget budget' : Budget} {s s' : Session σ} {out out' : Transcript}
    {answer : Except Upset Outcome}
    (hr : s.run m bound budget out = some (answer, budget', s', out')) (hp : P s out)
    (hstep : ∀ s out, P s out → P (s.left m.step) (out ++ s.told m m.step)) :
    ∃ last before, P last before ∧ s' = last.left m.step ∧
      out' = before ++ last.told m m.step ∧
      (answer = (m.step last.state).result ∨ (m.step last.state).result = .ok .progressed ∧
        ∃ limit, answer = .error (.fault (.stepLimit limit))) := by
  -- The induction is on the bound, from the session that each step leaves.
  induction bound generalizing budget s out with
  | zero => cases hr
  | succ bound ih =>
    unfold run at hr
    simp only [call_eq] at hr
    cases hres : (m.step s.state).result with
    | error upset =>
      rw [hres] at hr
      cases hr
      exact ⟨s, out, hp, rfl, rfl, .inl hres.symm⟩
    | ok outcome =>
      rw [hres] at hr
      cases outcome with
      | halted => cases hr; exact ⟨s, out, hp, rfl, rfl, .inl hres.symm⟩
      | suspended kind => cases hr; exact ⟨s, out, hp, rfl, rfl, .inl hres.symm⟩
      | progressed =>
        dsimp only at hr
        split at hr
        · cases hr
          exact ⟨s, out, hp, rfl, rfl, .inr ⟨hres, _, rfl⟩⟩
        · exact ih hr (hstep s out hp)

/-- A run does not change the language. -/
theorem run_lang {m : Machine σ} {bound : Nat} {budget budget' : Budget} {s s' : Session σ}
    {out out' : Transcript} {answer : Except Upset Outcome}
    (hr : s.run m bound budget out = some (answer, budget', s', out')) : s'.lang = s.lang := by
  obtain ⟨last, before, hlang, rfl, -, -⟩ :=
    run_ends (P := fun k _ => k.lang = s.lang) hr rfl fun _ _ hk => hk
  exact hlang

/-- The error that a failed load of held code is reported by. -/
def loadReport (lang : String) : Except Upset Unit → List Event
  | .ok () => []
  | .error (.fault fault) => [.error (HostError.badCode lang fault).message]
  | .error (.crash message) => [.error (HostError.ofCrash message).message]

/-- The session after the held code, if there is any, has been loaded. -/
def withHeld (m : Machine σ) (s : Session σ) : Option String → Session σ
  | none => s
  | some source => s.left (load m source)

/-- What came of loading the held code, if there is any. -/
def heldResult (m : Machine σ) (s : Session σ) : Option String → Except Upset Unit
  | none => .ok ()
  | some source => (load m source s.state).result

/-- The events of loading the held code, if there is any, without a report of how it went. -/
def heldTold (m : Machine σ) (s : Session σ) : Option String → List Event
  | none => []
  | some source => s.told m (load m source)

/-- The events of loading the held code, if there is any, with the report of a failure. -/
def heldEvents (m : Machine σ) (s : Session σ) (held : Option String) : List Event :=
  s.heldTold m held ++ loadReport s.lang (s.heldResult m held)

/-- To load held code leaves the language of its session as it is. -/
@[simp] theorem withHeld_lang (m : Machine σ) (s : Session σ) (held : Option String) :
    (s.withHeld m held).lang = s.lang := by
  cases held <;> rfl

end Session

namespace Host

/-- The host with more events in its transcript. -/
def say (h : Host σ) (events : List Event) : Host σ :=
  { h with transcript := h.transcript ++ events }

/-- What is said in two parts might have been said at once. -/
@[simp] theorem say_say (h : Host σ) (first second : List Event) :
    (h.say first).say second = h.say (first ++ second) := by
  simp only [say, Transcript.append_append]

/-- To say nothing changes nothing. -/
@[simp] theorem say_nil (h : Host σ) : h.say [] = h := by
  simp only [say, Array.appendList_nil]

/-- The host after a call of the machine in use. -/
def called (m : Machine σ) (act : Act Upset σ α) (s : Session σ) (h : Host σ) : Host σ :=
  { h with session := some (s.left act) }.say (s.told m act)

/-- The host without its operation, if it had one, and without the request and the labels of it. -/
def released (h : Host σ) : Host σ :=
  match h.operation with
  | none => h
  | some op =>
    { h with operation := none, request := none, activity := h.activity.unwind op.depth }

/-- The events of giving up an operation, if there is one. -/
def abandonEvents (h : Host σ) (reason : String) : List Event :=
  match h.operation with
  | none => []
  | some op =>
    h.activity.unwindReports op.depth ++ [.error (Handling.abandonment op h.request reason)]

/-- The host that waits for input. -/
def waitingFor (kind : InputKind) (h : Host σ) : Host σ :=
  { h with request := some kind, activity := h.activity.push kind.label }.say
    [.status kind.label, .request kind]

/-- The host after its held code, if there is any, has been loaded into the session in use. -/
def unloaded (m : Machine σ) (s : Session σ) (h : Host σ) : Host σ :=
  { h with held := none, session := some (s.withHeld m h.held) }.say (s.heldEvents m h.held)

end Host

/-- The events that report how an operation ended, after its labels are gone. -/
def endReport (task : Task) (ending : Ending) : List Event :=
  (ending.error?.map fun e => .error e.message).toList ++
    match task with
    | .run => [.print (Handling.closingLine (if ending.error?.isSome then 1 else 0))]
    | .step => if ending = .progressed then [] else [.print "Unable to complete step\n"]

/-- The host after the report of the end of an operation. -/
def Host.closed (op : Operation) (ending : Ending) (h : Host σ) : Host σ :=
  { h with operation := none, request := none, activity := h.activity.unwind op.depth }.say
    (h.activity.unwindReports op.depth ++ endReport op.task ending)

/-- The host after the end of an operation, with its held code loaded. -/
def Host.ended (m : Machine σ) (op : Operation) (ending : Ending) (s : Session σ) (h : Host σ) :
    Host σ :=
  (h.closed op ending).unloaded m s

namespace Handling

/-! ## Small steps -/

/-- A part that goes on hands its value and the host to the next part. -/
theorem bind_of_ok {x : Handling σ α} {f : α → Handling σ β} {h h' : Host σ} {a : α}
    (hx : x h = some (.ok a, h')) : (x >>= f) h = f a h' := by
  change Handling.bind x f h = f a h'
  unfold Handling.bind
  rw [hx]

/-- A part that stops stops the whole. -/
theorem bind_of_stop {x : Handling σ α} {f : α → Handling σ β} {h h' : Host σ} {stop : Stop}
    (hx : x h = some (.error stop, h')) : (x >>= f) h = some (.error stop, h') := by
  change Handling.bind x f h = _
  unfold Handling.bind
  rw [hx]

/-- A part without an answer leaves the whole without one. -/
theorem bind_of_none {x : Handling σ α} {f : α → Handling σ β} {h : Host σ} (hx : x h = none) :
    (x >>= f) h = none := by
  change Handling.bind x f h = none
  unfold Handling.bind
  rw [hx]

/-- Two parts that come to the same have the same continuations. -/
theorem bind_congr {x y : Handling σ α} (f : α → Handling σ β) {h h' : Host σ} (hx : x h = y h') :
    (x >>= f) h = (y >>= f) h' := by
  change Handling.bind x f h = Handling.bind y f h'
  unfold Handling.bind
  rw [hx]

/-- To give a value leaves the host as it is. -/
theorem pure_apply (a : α) (h : Host σ) : (pure a : Handling σ α) h = some (.ok a, h) := rfl

/-- A part that begins by looking at the host goes on with it. -/
theorem get_bind (f : Host σ → Handling σ β) (h : Host σ) : (get >>= f) h = f h h := rfl

/-- A change of the host is made without more ado. -/
theorem modify_apply (f : Host σ → Host σ) (h : Host σ) : modify f h = some (.ok (), f h) := rfl

/-- A part that begins by a change of the host goes on with the changed one. -/
theorem modify_bind (g : Host σ → Host σ) (f : Unit → Handling σ β) (h : Host σ) :
    (modify g >>= f) h = f () (g h) := rfl

/-- To emit an event is to say it. -/
theorem emit_apply (e : Event) (h : Host σ) : emit e h = some (.ok (), h.say [e]) := by
  simp only [emit, modify_apply, Host.say, Array.appendList_cons, Array.appendList_nil]

/-- To print a text is to say that it has been printed. -/
theorem print_apply (text : String) (h : Host σ) :
    print text h = some (.ok (), h.say [.print text]) :=
  emit_apply _ h

/-- To report an error is to say its message. -/
theorem report_apply (e : HostError) (h : Host σ) :
    report e h = some (.ok (), h.say [.error e.message]) :=
  emit_apply _ h

/-- A label that is pushed becomes the status. -/
theorem pushLabel_apply (label : String) (h : Host σ) :
    pushLabel label h =
      some (.ok (), { h with activity := h.activity.push label }.say [.status label]) := by
  simp only [pushLabel, modify_apply, Host.say, Array.appendList_cons, Array.appendList_nil]
  rfl

/-- A label that is popped gives the status back to the one below it. -/
theorem popLabel_apply (h : Host σ) :
    popLabel h =
      some (.ok (), { h with activity := h.activity.pop }.say [h.activity.pop.report]) := by
  simp only [popLabel, modify_apply, Host.say, Array.appendList_cons, Array.appendList_nil]

/-- The labels above a depth are popped one by one, each with its report. -/
theorem unwindLabels_apply (depth : Nat) (h : Host σ) :
    unwindLabels depth h =
      some (.ok (), { h with activity := h.activity.unwind depth }.say
        (h.activity.unwindReports depth)) := rfl

/-- A result is settled as it is. -/
theorem settle_ok (a : α) (h : Host σ) : settle (.ok a) h = some (.ok (.ok a), h) := rfl

/-- A fault of the machine is settled, to be reported later. -/
theorem settle_fault (fault : Fault) (h : Host σ) :
    (settle (.error (.fault fault)) : Handling σ (Except Fault α)) h =
      some (.ok (.error fault), h) := rfl

/-- A crash of the machine is not settled: it stops the command. -/
theorem settle_crash (message : Crash) (h : Host σ) :
    (settle (.error (.crash message)) : Handling σ (Except Fault α)) h =
      some (.error (.crashed message), h) := rfl

/-- A call of the machine in use leaves its session in place, whatever came of it. -/
theorem call_apply (m : Machine σ) (act : Act Upset σ α) (s : Session σ) (h : Host σ) :
    call m act s h = settle (act s.state).result (h.called m act s) := rfl

/-- A call on a session that is not in use only adds its events. -/
theorem callOn_apply (m : Machine σ) (act : Act Upset σ α) (s : Session σ) (h : Host σ) :
    callOn m act s h =
      (do return (← settle (act s.state).result, s.left act)) (h.say (s.told m act)) := rfl

/-- A run that passes the bound leaves the handling without an answer. -/
theorem run_of_none (m : Machine σ) (bound : Nat) (op : Operation) (s : Session σ)
    (hr : s.run m bound op.budget #[] = none) (h : Host σ) : run m bound op s h = none := by
  unfold run
  rw [Session.run_eq_map, hr]
  rfl

/-- A run that does not pass the bound leaves its session and its budget in place. -/
theorem run_of_some (m : Machine σ) (bound : Nat) (op : Operation) (s : Session σ)
    {answer : Except Upset Outcome} {budget : Budget} {s' : Session σ} {more : Transcript}
    (hr : s.run m bound op.budget #[] = some (answer, budget, s', more)) (h : Host σ) :
    run m bound op s h = settle answer
      ({ h with session := some s', operation := some { op with budget } }.say more.toList) := by
  unfold run
  rw [Session.run_eq_map, hr]
  rfl

/-! ## Loading held code -/

/-- Loading held code that does not crash the machine. -/
theorem loadHeld_apply (m : Machine σ) {h : Host σ} {s : Session σ} (hop : h.operation = none)
    (hs : h.session = some s)
    (hc : ∀ message, s.heldResult m h.held ≠ .error (.crash message)) :
    loadHeld m h = some (.ok (), h.unloaded m s) := by
  obtain ⟨limit, session, held, activity, request, operation, out⟩ := h
  obtain rfl : operation = none := hop
  obtain rfl : session = some s := hs
  cases held with
  | none => rfl
  | some source =>
    unfold loadHeld
    rw [get_bind]
    dsimp only
    rw [modify_bind]
    cases hr : (Session.load m source s.state).result with
    | ok =>
      -- The code is gone before the load, and the session is in place after it.
      rw [bind_of_ok (by rw [call_apply, hr]; rfl)]
      dsimp only
      rw [pure_apply]
      simp only [Host.called, Host.unloaded, Session.withHeld, Session.heldEvents,
        Session.heldTold, Session.heldResult, hr, Session.loadReport, List.append_nil]
    | error upset =>
      cases upset with
      | fault fault =>
        rw [bind_of_ok (by rw [call_apply, hr]; rfl)]
        dsimp only
        rw [report_apply]
        simp only [Host.called, Host.unloaded, Session.withHeld, Session.heldEvents,
          Session.heldTold, Session.heldResult, hr, Session.loadReport, Host.say_say]
      | crash message => exact absurd hr (hc message)

/-- Loading held code that crashes the machine stops the handling; the report of the crash is all
that is missing then. -/
theorem loadHeld_of_crash (m : Machine σ) {h : Host σ} {s : Session σ} {message : Crash}
    (hop : h.operation = none) (hs : h.session = some s)
    (hc : s.heldResult m h.held = .error (.crash message)) :
    ∃ h', loadHeld m h = some (.error (.crashed message), h') ∧ h'.operation = none ∧
      h'.request = h.request ∧
      h'.say [.error (HostError.ofCrash message).message] = h.unloaded m s := by
  obtain ⟨limit, session, held, activity, request, operation, out⟩ := h
  obtain rfl : operation = none := hop
  obtain rfl : session = some s := hs
  cases held with
  | none => cases hc
  | some source =>
    have hr : (Session.load m source s.state).result = .error (.crash message) := hc
    -- The host that the crash leaves has let go of the code and holds the session after the call.
    refine ⟨Host.called m (Session.load m source) s
      ⟨limit, some s, none, activity, request, none, out⟩, ?_, rfl, rfl, ?_⟩
    · unfold loadHeld
      rw [get_bind]
      dsimp only
      rw [modify_bind, bind_of_stop (by rw [call_apply, hr]; rfl)]
    · simp only [Host.called, Host.unloaded, Session.withHeld, Session.heldEvents,
        Session.heldTold, Session.heldResult, hr, Session.loadReport, Host.say_say]

/-! ## The end of an operation -/

/-- What the host makes of the way in which a command was dispatched. -/
def rescue (m : Machine σ) :
    Option (Except Stop Unit × Host σ) → Option (Except Stop Unit × Host σ)
  | none => none
  | some (.ok (), h) => some (.ok (), h)
  | some (.error (.refused e), h) => report e h
  | some (.error (.crashed message), h) => recover m message h

/-- A command is dispatched, and rescued if it stops. -/
theorem handleCommand_eq (c : Catalogue σ) (bound : Nat) (command : Command) (h : Host σ) :
    handleCommand c bound command h = rescue c.machine (dispatch c bound command h) := rfl

/-- A crash of an idle host is reported. -/
theorem recover_of_idle (m : Machine σ) (message : Crash) {h : Host σ} (hop : h.operation = none)
    (hr : h.request = none) :
    recover m message h =
      some (.ok (), h.say [.error (HostError.ofCrash message).message]) := by
  unfold recover
  rw [get_bind, hop]
  dsimp only
  rw [modify_bind, report_apply, ← hr]
  rfl

/-- To close an operation says how it ended. -/
theorem close_apply (task : Task) (ending : Ending) (h : Host σ) :
    close task ending h = some (.ok (), h.say (endReport task ending)) := by
  unfold close endReport
  -- Six small cases, each a row of at most two events.
  cases task <;> cases ending <;>
    simp [bind_of_ok (report_apply _ _), print_apply, pure_apply, Ending.error?, Host.say]

/-- The end of an operation, up to the code that is loaded after it. -/
theorem finish_eq (m : Machine σ) (ending : Ending) {h : Host σ} {op : Operation}
    (hop : h.operation = some op) : finish m ending h = loadHeld m (h.closed op ending) := by
  unfold finish
  rw [get_bind, hop]
  dsimp only
  rw [modify_bind, bind_of_ok (unwindLabels_apply _ _), bind_of_ok (close_apply _ _ _),
    Host.say_say]
  rfl

/-- An operation ends with all that it has to report, whatever becomes of the code that was held
until then. -/
theorem rescue_finish (m : Machine σ) (ending : Ending) {h : Host σ} {op : Operation}
    {s : Session σ} (hop : h.operation = some op) (hs : h.session = some s) :
    rescue m (finish m ending h) = some (.ok (), h.ended m op ending s) := by
  have hop' : (h.closed op ending).operation = none := rfl
  have hs' : (h.closed op ending).session = some s := hs
  rw [finish_eq m ending hop]
  -- The operation is over before the held code is loaded, so a crash of that has its own report.
  by_cases hc : ∃ message, s.heldResult m (h.closed op ending).held = .error (.crash message)
  · obtain ⟨message, hc⟩ := hc
    obtain ⟨h', hl, hop', hr', he⟩ := loadHeld_of_crash m hop' hs' hc
    rw [hl]
    change recover m message h' = _
    rw [recover_of_idle m message hop' hr', he]
    rfl
  · rw [loadHeld_apply m hop' hs' (fun message hm => hc ⟨message, hm⟩)]
    rfl

/-- The end of an operation by a crash has an answer only if the code held until then does not crash
the machine once more. -/
theorem recover_eq (m : Machine σ) (message : Crash) {h h' : Host σ} {op : Operation}
    {s : Session σ} (hop : h.operation = some op) (hs : h.session = some s)
    (hr : recover m message h = some (.ok (), h')) :
    h' = h.ended m op (.failed (.ofCrash message)) s := by
  unfold recover at hr
  rw [get_bind, hop] at hr
  dsimp only at hr
  change finish m (.failed (.ofCrash message)) h = _ at hr
  -- The end of the operation is itself rescued, and here it had no need of that.
  have hf := rescue_finish m (.failed (.ofCrash message)) hop hs
  rw [hr] at hf
  simpa [rescue] using hf

/-! ## Giving an operation up, and leaving it in flight -/

/-- To abandon an operation releases it, and says so if there is one. -/
theorem abandon_apply (reason : String) (h : Host σ) :
    abandon reason h =
      some (.ok h.operation.isSome, h.released.say (h.abandonEvents reason)) := by
  obtain ⟨limit, session, held, activity, request, operation, out⟩ := h
  cases operation with
  | none =>
    simp only [Host.released, Host.abandonEvents, Host.say_nil]
    rfl
  | some op =>
    unfold abandon
    -- The error names the request of the host before, which is gone by then.
    rw [get_bind]
    dsimp only
    rw [modify_bind, bind_of_ok (unwindLabels_apply _ _), bind_of_ok (emit_apply _ _),
      Host.say_say]
    rfl

/-- A host that has no open request waits for the input that it is suspended for. -/
theorem suspend_apply (m : Machine σ) (kind : InputKind) {h : Host σ} (hr : h.request = none) :
    suspend m kind h = some (.ok (), h.waitingFor kind) := by
  unfold suspend
  rw [get_bind, hr]
  change (modify _ >>= _) h = _
  rw [modify_bind, bind_of_ok (pushLabel_apply _ _), emit_apply, Host.say_say]
  rfl

end Handling

end EsotericHost
