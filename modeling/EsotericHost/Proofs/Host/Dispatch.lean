import EsotericHost.Proofs.Host.Course

/-!
# The handling of commands

Command by command: from a consistent host the handling takes one of the courses of the command
(`Course`). A handling that has an answer leaves a host with events to deliver, and `Follows` says
of it that these events and the rest of the host are those of a course. The work on an operation
comes in by `CarriesOut`, so that a button which begins an operation only has to show what it does
before.

The main statement is `Host.handle_course`.
-/

namespace EsotericHost

variable {σ : Type}

namespace Handling

variable {c : Catalogue σ} {bound : Nat} {h h' : Host σ} {command : Command}

/-- A host with events to deliver comes from one of the courses of a command. -/
def Follows (c : Catalogue σ) (bound : Nat) (h : Host σ) (command : Command) (h' : Host σ) : Prop :=
  Course c bound h command h'.transcript.toList { h' with transcript := #[] }

/-- A host that has nothing to deliver has, after some events, just these to deliver. -/
theorem follows_say {h₀ : Host σ} {events : List Event} (hc : Course c bound h command events h₀)
    (h0 : h₀.transcript = #[]) : Follows c bound h command (h₀.say events) := by
  obtain ⟨limit, session, held, activity, request, operation, out⟩ := h₀
  obtain rfl : out = #[] := h0
  have hl : ((#[] : Transcript) ++ events).toList = events := by simp
  unfold Follows
  rw [show (Host.say ⟨limit, session, held, activity, request, operation, #[]⟩
    events).transcript.toList = events from hl]
  exact hc

/-- A host that has nothing to deliver comes from a course without events. -/
theorem follows_silent {h₀ : Host σ} (hc : Course c bound h command [] h₀)
    (h0 : h₀.transcript = #[]) : Follows c bound h command h₀ := by
  rw [← h₀.say_nil]
  exact follows_say hc h0

/-- A refused command leaves the host as it was. -/
theorem follows_refused {e : HostError} (hh : h.Consistent)
    (hd : dispatch c bound command h = some (.error (.refused e), h))
    (hn : h.effort? c bound command = none) (hk : h.abandons c command = false)
    (hx : rescue c.machine (dispatch c bound command h) = some (.ok (), h')) :
    Follows c bound h command h' := by
  rw [hd] at hx
  change report e h = _ at hx
  rw [report_apply] at hx
  cases hx
  exact follows_say (.refused hd hn hk) hh.delivered

/-- Work that is carried out is the work of the command. -/
theorem follows_worked {e : Effort σ} (hh : h.Consistent)
    (he : h.effort? c bound command = some e)
    (hw : h' = (h.atWork e.operation e.labels e.opening).worked c.machine e.operation e.stretch) :
    Follows c bound h command h' := by
  rw [hw, Host.atWork_worked]
  refine follows_say (.worked he) ?_
  unfold Effort.leaves
  cases e.stretch.rest <;> exact hh.delivered

/-- Work that a part carries out is the work of the command. -/
theorem follows_carried {op : Operation} {labels : Activity} {opening : List Event}
    {work : Option (Stretch σ)} {x : Handling σ Unit} (hh : h.Consistent)
    (he : h.effort? c bound command = work.map fun w => ⟨op, labels, opening, w⟩)
    (hc : CarriesOut c.machine op (h.atWork op labels opening) x work)
    (hx : rescue c.machine (x (h.atWork op labels opening)) = some (.ok (), h')) :
    Follows c bound h command h' := by
  obtain ⟨w, hw, hh'⟩ := hc h' hx
  refine follows_worked (e := ⟨op, labels, opening, w⟩) hh ?_ hh'
  rw [he, hw, Option.map_some]

/-! ## Refusals -/

/-- A button is refused as long as there is no language. -/
theorem needSession_of_none (action : String) (hs : h.session = none) :
    needSession action h = some (.error (.refused (.noLanguage action)), h) := by
  unfold needSession
  rw [get_bind, hs]
  rfl

/-- A button goes on with the session in use. -/
theorem needSession_of_some (action : String) {s : Session σ} (hs : h.session = some s) :
    needSession action h = some (.ok s, h) := by
  unfold needSession
  rw [get_bind, hs]
  rfl

/-- An idle host refuses no button. -/
theorem needIdle_of_none (lang : String) (hop : h.operation = none) :
    needIdle lang h = some (.ok (), h) := by
  unfold needIdle
  rw [get_bind, hop]
  rfl

/-- A busy host refuses a button that begins an operation. -/
theorem needIdle_of_some (lang : String) {op : Operation} (hop : h.operation = some op) :
    needIdle lang h = some (.error (.refused (.busy lang op.task.action)), h) := by
  unfold needIdle
  rw [get_bind, hop]
  rfl

/-- Every button is refused as long as there is no language. -/
theorem press_of_none (button : Button) (args : ButtonArgs) (hs : h.session = none) :
    dispatch c bound (.press button args) h =
      some (.error (.refused (.noLanguage button.name)), h) := by
  cases button <;> exact bind_of_stop (needSession_of_none _ hs)

/-- A busy host refuses to run a program. -/
theorem interpret_of_busy {s : Session σ} {op : Operation} (args : ButtonArgs)
    (hs : h.session = some s) (hop : h.operation = some op) :
    dispatch c bound (.press .interpret args) h =
      some (.error (.refused (.busy s.lang op.task.action)), h) := by
  change interpretButton c.machine bound args.code h = _
  unfold interpretButton
  rw [bind_of_ok (needSession_of_some _ hs), bind_of_stop (needIdle_of_some _ hop)]

/-- A busy host refuses a single step. -/
theorem step_of_busy {s : Session σ} {op : Operation} (args : ButtonArgs)
    (hs : h.session = some s) (hcap : s.capabilities.step = true) (hop : h.operation = some op) :
    dispatch c bound (.press .step args) h =
      some (.error (.refused (.busy s.lang op.task.action)), h) := by
  change stepButton c.machine bound h = _
  unfold stepButton
  rw [bind_of_ok (needSession_of_some _ hs), if_neg (not_not_intro hcap),
    bind_of_stop (needIdle_of_some _ hop)]

/-- A single step of a machine that does not do them is refused. -/
theorem step_of_unsupported {s : Session σ} (args : ButtonArgs) (hs : h.session = some s)
    (hcap : ¬ s.capabilities.step = true) :
    dispatch c bound (.press .step args) h =
      some (.error (.refused (.notSupported s.lang "step")), h) := by
  change stepButton c.machine bound h = _
  unfold stepButton
  rw [bind_of_ok (needSession_of_some _ hs), if_pos hcap]
  rfl

/-! ## Buttons that begin an operation -/

/-- An operation of an idle host begins with its label. -/
theorem begin_apply (task : Task) (lang : String) (echo : List Event) (hr : h.request = none) :
    begin task lang (h.say echo) = some (.ok (), h.atWork (h.beginning task lang)
      (h.activity.push (task.label lang)) (echo ++ [.status (task.label lang)])) := by
  obtain ⟨limit, session, held, activity, request, operation, out⟩ := h
  obtain rfl : request = none := hr
  unfold begin
  rw [modify_bind, pushLabel_apply]
  unfold Host.atWork
  rw [← Host.say_say]
  rfl

/-- Work on an operation that begins is the work of the command. -/
theorem follows_begun {task : Task} {s : Session σ} {echo : List Event} {x : Handling σ Unit}
    {stretch : Operation → Option (Stretch σ)} (hh : h.Consistent)
    (he : h.effort? c bound command = h.beginEffort task s echo stretch)
    (hc : CarriesOut c.machine (h.beginning task s.lang)
      (h.atWork (h.beginning task s.lang) (h.activity.push (task.label s.lang))
        (echo ++ [.status (task.label s.lang)])) x (stretch (h.beginning task s.lang)))
    (hop : h.operation = none)
    (hx : rescue c.machine ((begin task s.lang >>= fun _ => x) (h.say echo)) =
      some (.ok (), h')) :
    Follows c bound h command h' := by
  rw [bind_of_ok (begin_apply task s.lang echo (hh.request_of_idle hop))] at hx
  exact follows_carried hh he hc hx

/-- The button that runs a program is refused, or the machine works on the operation it begins. -/
theorem follows_interpret {args : ButtonArgs} (hh : h.Consistent)
    (hx : rescue c.machine (dispatch c bound (.press .interpret args) h) = some (.ok (), h')) :
    Follows c bound h (.press .interpret args) h' := by
  cases hs : h.session with
  | none =>
    refine follows_refused hh (press_of_none .interpret args hs) ?_ rfl hx
    -- Whether the host is busy makes no difference without a session.
    cases hop : h.operation <;> simp only [Host.effort?, hs, hop]
  | some s =>
    cases hop : h.operation with
    | some op =>
      refine follows_refused hh (interpret_of_busy args hs hop) ?_ rfl hx
      simp only [Host.effort?, hs, hop]
    | none =>
      change rescue c.machine (interpretButton c.machine bound args.code h) = _ at hx
      unfold interpretButton at hx
      rw [bind_of_ok (needSession_of_some _ hs), bind_of_ok (needIdle_of_none _ hop),
        bind_of_ok (print_apply _ _)] at hx
      refine follows_begun hh (by simp only [Host.effort?, hs, hop]; rfl) ?_ hop hx
      -- What is left is the work itself, with a load in front if code came with the button.
      cases args.code with
      | none => exact carriesOut_drive c.machine bound rfl hs rfl
      | some source =>
        refine carriesOut_call (s := s) c.machine _ _ rfl ?_ (fun fault => rfl)
        exact carriesOut_drive c.machine bound rfl rfl rfl

/-- The button for one instruction is refused, or the machine works on the operation it begins. -/
theorem follows_step {args : ButtonArgs} (hh : h.Consistent)
    (hx : rescue c.machine (dispatch c bound (.press .step args) h) = some (.ok (), h')) :
    Follows c bound h (.press .step args) h' := by
  cases hs : h.session with
  | none =>
    refine follows_refused hh (press_of_none .step args hs) ?_ rfl hx
    cases hop : h.operation <;> simp only [Host.effort?, hs, hop]
  | some s =>
    by_cases hcap : s.capabilities.step = true
    · cases hop : h.operation with
      | some op =>
        refine follows_refused hh (step_of_busy args hs hcap hop) ?_ rfl hx
        simp only [Host.effort?, hs, hop]
      | none =>
        change rescue c.machine (stepButton c.machine bound h) = _ at hx
        unfold stepButton at hx
        rw [bind_of_ok (needSession_of_some _ hs), if_neg (not_not_intro hcap),
          bind_of_ok (needIdle_of_none _ hop), ← h.say_nil] at hx
        refine follows_begun hh (by simp only [Host.effort?, hs, hop, if_pos hcap]; rfl) ?_ hop hx
        exact carriesOut_drive c.machine bound rfl hs rfl
    · refine follows_refused hh (step_of_unsupported args hs hcap) ?_ rfl hx
      cases hop : h.operation <;> simp only [Host.effort?, hs, hop, if_neg hcap]

/-! ## Questions -/

/-- A request to shorten a program is a question to the machine in use. -/
theorem minify_apply {s : Session σ} {args : ButtonArgs} (hs : h.session = some s) :
    dispatch c bound (.press .minify args) h =
      (needAnswer s.capabilities.minify (c.machine.minify s.state (args.code.getD "")) s.lang
          "minify" >>= fun code =>
        print s!"> interpreter minify --lang {s.lang} --file ./userInput\n" >>= fun _ =>
          emit (.minified code)) h :=
  bind_of_ok (needSession_of_some _ hs)

/-- A request for a program that prints a text is a question to the machine in use. -/
theorem textToCode_apply {s : Session σ} {args : ButtonArgs} (hs : h.session = some s) :
    dispatch c bound (.press .textToCode args) h =
      (needAnswer s.capabilities.fromText (c.machine.fromText s.state (args.text.getD "")) s.lang
          "text-to-code" >>= fun code =>
        print s!"> interpreter --from-text ./userText.txt --lang {s.lang}\n" >>= fun _ =>
          emit (.fromText s.lang code)) h :=
  bind_of_ok (needSession_of_some _ hs)

/-- A question to the machine is refused, crashes the machine or is answered by two events. -/
theorem follows_asked {s : Session σ} (supported : Bool) {answer : Except Crash (Option String)}
    (capability : String) {line : String} {result : String → Event} {button : Button}
    {args : ButtonArgs} (hq : button = .minify ∨ button = .textToCode) (hh : h.Consistent)
    (hs : h.session = some s)
    (hd : dispatch c bound (.press button args) h =
      (needAnswer supported answer s.lang capability >>= fun code =>
        print line >>= fun _ => emit (result code)) h)
    (he : h.effort? c bound (.press button args) = h.crashEffort s supported answer)
    (hok : ∀ code, answer = .ok (some code) →
      Course c bound h (.press button args) [.print line, result code] h)
    (hx : rescue c.machine (dispatch c bound (.press button args) h) = some (.ok (), h')) :
    Follows c bound h (.press button args) h' := by
  have hk : h.abandons c (.press button args) = false := by
    rcases hq with rfl | rfl <;> rfl
  have hrefused (hn : needAnswer supported answer s.lang capability h =
      some (.error (.refused (.notSupported s.lang capability)), h))
      (he' : h.crashEffort s supported answer = none) :
      Follows c bound h (.press button args) h' := by
    rw [bind_of_stop hn] at hd
    exact follows_refused hh hd (by rw [he, he']) hk hx
  cases supported with
  | false => exact hrefused rfl (h.crashEffort_of_unsupported s answer)
  | true =>
    cases answer with
    | ok code =>
      cases code with
      | none => exact hrefused rfl (h.crashEffort_of_ok s true none)
      | some code =>
        -- An answer is echoed and passed on, and nothing in the host has changed.
        have hn : needAnswer true (.ok (some code)) s.lang capability h = some (.ok code, h) := rfl
        rw [hd, bind_of_ok hn, bind_of_ok (print_apply _ _), emit_apply, Host.say_say] at hx
        cases hx
        exact follows_say (hok code rfl) hh.delivered
    | error message =>
      have hn : needAnswer true (.error message) s.lang capability h =
          some (.error (.crashed message), h) := rfl
      rw [bind_of_stop hn] at hd
      rw [hd] at hx
      change recover c.machine message h = _ at hx
      -- A crash is reported, and it ends the operation in flight, if there is one.
      cases hop : h.operation with
      | none =>
        rw [recover_of_idle c.machine message hop (hh.request_of_idle hop)] at hx
        cases hx
        exact follows_say (.crashed hq hd hop) hh.delivered
      | some op =>
        refine follows_worked (e := ⟨op, h.activity, [],
          ⟨.ends (.failed (.ofCrash message)), s, op.budget, []⟩⟩) hh ?_ ?_
        · rw [he]
          simp only [Host.crashEffort, hop]
        · rw [recover_eq c.machine message hop hs hx]
          simp only [Host.worked, Host.atWork, Host.say_nil, ← hs]
          rfl

/-- The button that shortens a program is a question to the machine. -/
theorem follows_minify {args : ButtonArgs} (hh : h.Consistent)
    (hx : rescue c.machine (dispatch c bound (.press .minify args) h) = some (.ok (), h')) :
    Follows c bound h (.press .minify args) h' := by
  cases hs : h.session with
  | none =>
    refine follows_refused hh (press_of_none .minify args hs) ?_ rfl hx
    simp only [Host.effort?, hs, Option.bind_none]
  | some s =>
    refine follows_asked s.capabilities.minify "minify" (.inl rfl) hh hs (minify_apply hs) ?_
      (fun code => .minified hs) hx
    simp only [Host.effort?, hs, Option.bind_some]

/-- The button that makes a program for a text is a question to the machine. -/
theorem follows_textToCode {args : ButtonArgs} (hh : h.Consistent)
    (hx : rescue c.machine (dispatch c bound (.press .textToCode args) h) = some (.ok (), h')) :
    Follows c bound h (.press .textToCode args) h' := by
  cases hs : h.session with
  | none =>
    refine follows_refused hh (press_of_none .textToCode args hs) ?_ rfl hx
    simp only [Host.effort?, hs, Option.bind_none]
  | some s =>
    refine follows_asked s.capabilities.fromText "text-to-code" (.inr rfl) hh hs
      (textToCode_apply hs) ?_ (fun code => .fromText hs) hx
    simp only [Host.effort?, hs, Option.bind_some]

/-! ## Code and sessions -/

/-- Code that a free machine loads, refuses or crashes over leaves the same host but for the
events. -/
theorem rescue_loadCode {source : String} {s : Session σ} (hop : h.operation = none)
    (hreq : h.request = none) (hs : h.session = some s) :
    rescue c.machine (dispatch c bound (.loadCode source) h) = some (.ok (),
      { h with session := some (s.withHeld c.machine (some source)) }.say
        (s.heldEvents c.machine (some source))) := by
  obtain ⟨limit, session, held, activity, request, operation, out⟩ := h
  obtain rfl : operation = none := hop
  obtain rfl : request = none := hreq
  obtain rfl : session = some s := hs
  change rescue c.machine (loadCode c.machine source _) = _
  unfold loadCode
  rw [get_bind]
  dsimp only
  rw [bind_congr _ (call_apply _ _ _ _)]
  simp only [Host.called, Session.withHeld, Session.heldEvents, Session.heldTold,
    Session.heldResult]
  cases hl : (Session.load c.machine source s.state).result with
  | ok =>
    rw [bind_of_ok (settle_ok _ _)]
    simp only [Session.loadReport, List.append_nil]
    rfl
  | error upset =>
    cases upset with
    | fault fault =>
      rw [bind_of_ok (settle_fault _ _)]
      change report (.badCode s.lang fault) _ = _
      rw [report_apply, Host.say_say]
      rfl
    | crash message =>
      rw [bind_of_stop (settle_crash _ _)]
      change recover c.machine message _ = _
      rw [recover_of_idle c.machine message rfl rfl, Host.say_say]
      rfl

/-- Code is held back, or loaded with whatever comes of it. -/
theorem follows_loadCode {source : String} (hh : h.Consistent)
    (hx : rescue c.machine (dispatch c bound (.loadCode source) h) = some (.ok (), h')) :
    Follows c bound h (.loadCode source) h' := by
  cases hop : h.operation with
  | some op =>
    change rescue c.machine (loadCode c.machine source h) = _ at hx
    unfold loadCode at hx
    rw [get_bind, hop] at hx
    cases hx
    exact follows_silent (.held (.inl (by rw [hop]; rfl))) hh.delivered
  | none =>
    cases hs : h.session with
    | none =>
      change rescue c.machine (loadCode c.machine source h) = _ at hx
      unfold loadCode at hx
      rw [get_bind, hop, hs] at hx
      cases hx
      exact follows_silent (.held (.inr hs)) hh.delivered
    | some s =>
      rw [rescue_loadCode hop (hh.request_of_idle hop) hs] at hx
      cases hx
      exact follows_say (.loaded hop hs) hh.delivered

/-- Giving the operation up for a new session also gives up the code held back for it. -/
theorem abandon_inherited (f : Unit → Handling σ Unit) (h : Host σ) :
    (abandon "setLanguage" >>= fun abandoned =>
      if abandoned then (modify fun h => { h with held := none }) >>= f else f ()) h =
    f () (h.vacated.say (h.abandonEvents "setLanguage")) := by
  obtain ⟨limit, session, held, activity, request, operation, out⟩ := h
  rw [bind_of_ok (abandon_apply _ _)]
  cases operation <;> rfl

/-- An idle host has nothing to give up. -/
theorem abandon_of_idle (reason : String) (hop : h.operation = none) :
    abandon reason h = some (.ok false, h) := by
  unfold abandon
  rw [get_bind, hop]
  rfl

/-- A new session is put in place with the event that tells of it. -/
theorem install_apply (s : Session σ) (h : Host σ) :
    setLanguage.install c s h =
      some (.ok (), { h with session := some s }.say [s.createdEvent c.machine]) := by
  unfold setLanguage.install
  rw [bind_of_ok (emit_apply _ _), modify_apply]
  rfl

/-- Replacing the session of a busy host is replacing that of the host without its operation. -/
theorem setLanguage_released {lang : String} {options : Options} {s : Session σ}
    (hc : c.openSession lang options = .ok s) (h : Host σ) :
    setLanguage c lang options h =
      setLanguage c lang options (h.vacated.say (h.abandonEvents "setLanguage")) := by
  have hopen (h : Host σ) : (ofExcept (.ok s) : Handling σ (Session σ)) h = some (.ok s, h) := rfl
  unfold setLanguage
  rw [hc, bind_of_ok (hopen h), bind_of_ok (hopen _)]
  dsimp only
  -- The operation and the code held back for it are gone on both sides.
  rw [abandon_inherited, abandon_inherited]
  obtain ⟨limit, session, held, activity, request, operation, out⟩ := h
  cases operation <;> simp only [Host.say, Host.vacated, Host.released, Host.inherited,
    Host.abandonEvents, Array.appendList_nil, Option.isSome_none, Option.isSome_some, if_true,
    Bool.false_eq_true, if_false]

/-- An idle host takes a new session with the code held back until then. -/
theorem rescue_setLanguage {lang : String} {options : Options} {s : Session σ}
    (hc : c.openSession lang options = .ok s) (hop : h.operation = none)
    (hl : ∀ message, s.heldResult c.machine h.held ≠ .error (.crash message)) :
    rescue c.machine (setLanguage c lang options h) = some (.ok (),
      (h.seated (s.withHeld c.machine h.held)).say (s.heldEvents c.machine h.held ++
        [(s.withHeld c.machine h.held).createdEvent c.machine])) := by
  have hopen : (ofExcept (.ok s) : Handling σ (Session σ)) h = some (.ok s, h) := rfl
  unfold setLanguage
  rw [hc, bind_of_ok hopen]
  dsimp only
  rw [bind_of_ok (abandon_of_idle _ hop), if_neg Bool.false_ne_true, get_bind]
  obtain ⟨limit, session, held, activity, request, operation, out⟩ := h
  obtain rfl : operation = none := hop
  cases held with
  | none =>
    change rescue c.machine (setLanguage.install c s _) = _
    rw [install_apply]
    rfl
  | some source =>
    dsimp only
    rw [modify_bind, bind_congr _ (callOn_apply _ _ _ _)]
    -- A fault is reported between the events of the load and that of the session.
    cases hr : (Session.load c.machine source s.state).result with
    | ok =>
      rw [bind_of_ok (bind_of_ok (settle_ok _ _))]
      dsimp only
      rw [install_apply]
      simp only [rescue, Host.say, Host.seated, Session.withHeld, Session.heldEvents,
        Session.heldTold, Session.heldResult, hr, Session.loadReport, Transcript.append_append,
        List.append_nil]
    | error upset =>
      cases upset with
      | fault fault =>
        rw [bind_of_ok (bind_of_ok (settle_fault _ _))]
        dsimp only
        rw [bind_of_ok (report_apply _ _), install_apply]
        simp only [rescue, Host.say, Host.seated, Session.withHeld, Session.heldEvents,
          Session.heldTold, Session.heldResult, hr, Session.loadReport, Transcript.append_append,
          List.append_assoc, Session.left_lang]
      | crash message => exact absurd hr (hl message)

/-- Code held back that crashes the machine leaves an idle host without the new session. -/
theorem rescue_setLanguage_of_crash {lang : String} {options : Options} {s : Session σ}
    {message : Crash} (hc : c.openSession lang options = .ok s) (hop : h.operation = none)
    (hreq : h.request = none) (hl : s.heldResult c.machine h.held = .error (.crash message)) :
    rescue c.machine (setLanguage c lang options h) =
      some (.ok (), h.unheld.say (s.heldEvents c.machine h.held)) := by
  have hopen : (ofExcept (.ok s) : Handling σ (Session σ)) h = some (.ok s, h) := rfl
  unfold setLanguage
  rw [hc, bind_of_ok hopen]
  dsimp only
  rw [bind_of_ok (abandon_of_idle _ hop), if_neg Bool.false_ne_true, get_bind]
  obtain ⟨limit, session, held, activity, request, operation, out⟩ := h
  obtain rfl : operation = none := hop
  obtain rfl : request = none := hreq
  cases held with
  | none => cases hl
  | some source =>
    have hr : (Session.load c.machine source s.state).result = .error (.crash message) := hl
    dsimp only
    -- The crash comes before `install`, so only the code is gone afterwards.
    rw [modify_bind, bind_congr _ (callOn_apply _ _ _ _), hr,
      bind_of_stop (bind_of_stop (settle_crash _ _))]
    change recover c.machine message _ = _
    rw [recover_of_idle c.machine message rfl rfl, Host.say_say]
    simp only [Session.heldEvents, Session.heldTold, Session.heldResult, hr, Session.loadReport]
    rfl

/-- A language is refused, or its session takes the place of the one in use. -/
theorem follows_setLanguage {lang : String} {options : Options} (hh : h.Consistent)
    (hx : rescue c.machine (dispatch c bound (.setLanguage lang options) h) = some (.ok (), h')) :
    Follows c bound h (.setLanguage lang options) h' := by
  cases hc : c.openSession lang options with
  | error e =>
    refine follows_refused (e := e) hh ?_ rfl ?_ hx
    · change setLanguage c lang options h = _
      unfold setLanguage
      rw [hc]
      rfl
    · simp only [Host.abandons, hc, Except.isOk, Except.toBool, Bool.and_false]
  | ok s =>
    -- The host without its operation, which is the one that takes the new session.
    obtain ⟨k, hk⟩ : ∃ k, k = h.vacated.say (h.abandonEvents "setLanguage") := ⟨_, rfl⟩
    have hop : k.operation = none := by rw [hk]; exact h.released_operation
    have hreq : k.request = none := by rw [hk]; exact hh.released_request
    have hheld : k.held = h.inherited := by rw [hk]; rfl
    have h0 : h.released.transcript = #[] := h.released_transcript.trans hh.delivered
    change rescue c.machine (setLanguage c lang options h) = _ at hx
    rw [setLanguage_released hc h, ← hk] at hx
    -- The new session is put in place unless the code held back crashes its machine.
    by_cases hl : ∃ message, s.heldResult c.machine k.held = .error (.crash message)
    · obtain ⟨message, hl⟩ := hl
      rw [rescue_setLanguage_of_crash hc hop hreq hl, hheld, hk, Host.say_unheld,
        Host.say_say] at hx
      cases hx
      exact follows_say (.openCrashed hc (hheld ▸ hl)) h0
    · have hl' (message : Crash) : s.heldResult c.machine k.held ≠ .error (.crash message) :=
        fun hm => hl ⟨message, hm⟩
      rw [rescue_setLanguage hc hop hl', hheld, hk, Host.say_seated, Host.say_say,
        ← List.append_assoc] at hx
      cases hx
      exact follows_say (.opened hc (hheld ▸ hl')) h0

/-- An idle host resets a session and puts it in place. -/
theorem rescue_call_reset (m : Machine σ) (s : Session σ) (hop : h.operation = none)
    (hreq : h.request = none) :
    rescue m ((call m m.reset s >>= fun _ =>
      print s!"> interpreter reset --lang {s.lang}\n") h) =
    some (.ok (), { h with session := some (s.left m.reset) }.say (Host.resetEvents m s)) := by
  have hop' : (h.called m m.reset s).operation = none := hop
  have hreq' : (h.called m m.reset s).request = none := hreq
  unfold Host.resetEvents
  rw [bind_congr _ (call_apply _ _ _ _), ← Host.say_say]
  cases hr : (m.reset s.state).result with
  | ok =>
    rw [bind_of_ok (settle_ok _ _), print_apply]
    rfl
  | error upset =>
    cases upset with
    -- A fault of the reset is not looked at; only a crash keeps the line from being said.
    | fault fault =>
      rw [bind_of_ok (settle_fault _ _), print_apply]
      rfl
    | crash message =>
      rw [bind_of_stop (settle_crash _ _)]
      change recover m message _ = _
      rw [recover_of_idle m message hop' hreq']
      rfl

/-- The button that resets is refused, or all that is in flight is given up before the reset. -/
theorem follows_reset {args : ButtonArgs} (hh : h.Consistent)
    (hx : rescue c.machine (dispatch c bound (.press .reset args) h) = some (.ok (), h')) :
    Follows c bound h (.press .reset args) h' := by
  cases hs : h.session with
  | none =>
    refine follows_refused hh (press_of_none .reset args hs) rfl ?_ hx
    simp only [Host.abandons, hh.idle_of_session hs, Option.isSome_none]
  | some s =>
    -- The host without its operation, which is the one that loads the held code.
    obtain ⟨k, hk⟩ : ∃ k, k = h.released.say (h.abandonEvents "reset") := ⟨_, rfl⟩
    have hop : k.operation = none := by rw [hk]; exact h.released_operation
    have hreq : k.request = none := by rw [hk]; exact hh.released_request
    have hsk : k.session = some s := by rw [hk]; exact h.released_session.trans hs
    have hheld : k.held = h.held := by rw [hk]; exact h.released_held
    have hunloaded : k.unloaded c.machine s = (h.released.seated (s.withHeld c.machine h.held)).say
        (h.abandonEvents "reset" ++ s.heldEvents c.machine h.held) := by
      rw [← Host.say_say, ← hheld, hk]
      rfl
    have h0 : h.released.transcript = #[] := h.released_transcript.trans hh.delivered
    change rescue c.machine (resetButton c.machine h) = _ at hx
    unfold resetButton at hx
    rw [bind_of_ok (needSession_of_some _ hs), bind_of_ok (abandon_apply _ _), ← hk] at hx
    -- The reset follows unless the code held back crashes the machine.
    by_cases hl : ∃ message, s.heldResult c.machine k.held = .error (.crash message)
    · obtain ⟨message, hl⟩ := hl
      obtain ⟨h₁, hload, hop₁, hreq₁, hsay⟩ := loadHeld_of_crash c.machine hop hsk hl
      rw [bind_of_stop hload] at hx
      change recover c.machine message h₁ = _ at hx
      rw [recover_of_idle c.machine message hop₁ (hreq₁.trans hreq), hsay, hunloaded] at hx
      cases hx
      exact follows_say (.resetCrashed hs (hheld ▸ hl)) h0
    · rw [bind_of_ok (loadHeld_apply c.machine hop hsk fun message hm => hl ⟨message, hm⟩),
        get_bind, hunloaded] at hx
      rw [← s.withHeld_lang c.machine h.held] at hx
      change rescue c.machine ((call c.machine c.machine.reset (s.withHeld c.machine h.held) >>=
        fun _ => print _) _) = _ at hx
      rw [rescue_call_reset] at hx
      · cases hx
        change Follows c bound h _ (((h.released.seated _).say _).say _)
        rw [Host.say_say]
        exact follows_say (.reset hs fun message hm => hl ⟨message, hheld ▸ hm⟩) h0
      · exact h.released_operation
      · exact hh.released_request

/-! ## Answers to requests -/

/-- An answered request leaves the operation that made it to be worked on. -/
theorem answered_apply {op : Operation} (popStatus : Bool) (f : Unit → Handling σ Unit)
    (hop : h.operation = some op) :
    ((modify fun h => { h with request := none }) >>= fun _ =>
      if popStatus then popLabel >>= f else f ()) h =
    f () (h.atWork op (h.answeredLabels popStatus)
      (if popStatus then [(h.answeredLabels popStatus).report] else [])) := by
  obtain ⟨limit, session, held, activity, request, operation, out⟩ := h
  obtain rfl : operation = some op := hop
  rw [modify_bind]
  cases popStatus with
  | true =>
    rw [if_pos rfl, bind_of_ok (popLabel_apply _)]
    rfl
  | false =>
    rw [if_neg Bool.false_ne_true, if_neg Bool.false_ne_true, Host.atWork, Host.say_nil]
    rfl

/-- An answer is refused, or the machine works on the operation that has asked for it. -/
theorem follows_unblock {value : Json} {popStatus : Bool} (hh : h.Consistent)
    (hx : rescue c.machine (dispatch c bound (.unblock value popStatus) h) = some (.ok (), h')) :
    Follows c bound h (.unblock value popStatus) h' := by
  cases hr : Request.resolve h.request value with
  | error e =>
    refine follows_refused (e := e) hh ?_ ?_ rfl hx
    · change unblock c.machine bound value popStatus h = _
      unfold unblock
      rw [get_bind, hr]
      rfl
    · cases hop : h.operation <;> cases hs : h.session <;> simp only [Host.effort?, hop, hs, hr]
  | ok answer =>
    obtain ⟨kind, input⟩ := answer
    obtain ⟨op, s, hop, hs⟩ := hh.busy_of_resolve hr
    have hanswer : (ofExcept (.ok (kind, input)) : Handling σ (InputKind × Input)) h =
        some (.ok (kind, input), h) := rfl
    change rescue c.machine (unblock c.machine bound value popStatus h) = _ at hx
    unfold unblock at hx
    rw [get_bind, hr, bind_of_ok hanswer] at hx
    dsimp only at hx
    -- The request is answered before the machine goes on with the operation.
    rw [answered_apply popStatus _ hop, hs] at hx
    dsimp only at hx
    refine follows_carried hh (by simp only [Host.effort?, hop, hs, hr]; rfl) ?_ hx
    -- A run goes on after the input; a single step is over with it.
    refine carriesOut_call c.machine _ _ rfl ?_ ?_
    · rw [hop]
      dsimp only
      cases op.task with
      | run => exact carriesOut_drive c.machine bound rfl rfl rfl
      | step => exact carriesOut_finish c.machine rfl rfl _
    · intro fault
      rw [hop]

/-! ## The handling of a command -/

/-- The handling of a command takes one of its courses, whatever the machine does. -/
theorem follows_dispatch (hh : h.Consistent)
    (hx : rescue c.machine (dispatch c bound command h) = some (.ok (), h')) :
    Follows c bound h command h' := by
  match command with
  | .setLanguage lang options => exact follows_setLanguage hh hx
  | .loadCode source => exact follows_loadCode hh hx
  | .press .reset args => exact follows_reset hh hx
  | .press .minify args => exact follows_minify hh hx
  | .press .interpret args => exact follows_interpret hh hx
  | .press .step args => exact follows_step hh hx
  | .press .textToCode args => exact follows_textToCode hh hx
  | .unblock value popStatus => exact follows_unblock hh hx

end Handling

/-- The answer to a command comes from one of the courses of the command, whatever the machine
does. -/
theorem Host.handle_course {c : Catalogue σ} {bound : Nat} {h h' : Host σ} {command : Command}
    {events : List Event} (hh : h.Consistent)
    (hx : h.handle c bound command = some (events, h')) : Course c bound h command events h' := by
  unfold handle at hx
  rw [Handling.handleCommand_eq] at hx
  split at hx
  · cases hx
    exact Handling.follows_dispatch hh ‹_›
  · cases hx

end EsotericHost
