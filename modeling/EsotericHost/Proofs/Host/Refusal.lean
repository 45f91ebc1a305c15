import EsotericHost.Proofs.Host.Invariant

/-!
# How commands stop

A command is refused before it has changed anything, except for code that a free machine fails to
load; `Refusal` lists the ways. All that comes after the checks of a command goes on unless the
machine crashes: such a part `Proceeds`.

Which crashes a machine comes to is left open. `Keeps` says of a machine that its calls preserve
some property of the sessions and come only to crashes of some kind. Any machine keeps the property
that always holds and comes to any crash; a lawful machine keeps its invariant and comes to none.
The main statement, `dispatch_stops`, covers both.
-/

namespace EsotericHost.Handling

variable {σ α β : Type} {c : Catalogue σ} {bound : Nat} {h h' : Host σ} {command : Command}
  {K : Session σ → Prop} {Q : Crash → Prop}

/-! ## Parts that go on -/

/-- A call that preserves a property of the session and comes only to crashes of some kind. -/
def KeepsCall (K : Session σ → Prop) (Q : Crash → Prop) (act : Act Upset σ α) (s : Session σ) :
    Prop :=
  K (s.left act) ∧ ∀ message, (act s.state).result = .error (.crash message) → Q message

/-- The calls of a machine that come with every command preserve a property of the sessions and
come only to crashes of some kind. -/
structure Keeps (m : Machine σ) (K : Session σ → Prop) (Q : Crash → Prop) : Prop where
  load : ∀ source s, K s → KeepsCall K Q (Session.load m source) s
  reset : ∀ s, K s → KeepsCall K Q m.reset s
  step : ∀ s, K s → KeepsCall K Q m.step s
  minify : ∀ source s crash, K s → m.minify s.state source = .error crash → Q crash
  fromText : ∀ text s crash, K s → m.fromText s.state text = .error crash → Q crash

/-- The session of a host, if there is one, has a property. -/
def Holds (K : Session σ → Prop) (h : Host σ) : Prop :=
  ∀ s, h.session = some s → K s

/-- A part that preserves the property of the session and stops only by a crash of some kind. -/
def Proceeds (K : Session σ → Prop) (Q : Crash → Prop) (x : Handling σ α) : Prop :=
  ∀ h r h', Holds K h → x h = some (r, h') →
    Holds K h' ∧ ∀ stop, r = .error stop → ∃ message, stop = .crashed message ∧ Q message

/-- Two parts that proceed do so one after the other. -/
theorem proceeds_bind {x : Handling σ α} {f : α → Handling σ β} (hx : Proceeds K Q x)
    (hf : ∀ a, Proceeds K Q (f a)) : Proceeds K Q (x >>= f) := by
  intro h r h' hh hr
  -- The first part either stops, as it may, or leaves a host for the second one.
  cases hxh : x h with
  | none =>
    rw [bind_of_none hxh] at hr
    cases hr
  | some result =>
    obtain ⟨answer, h₁⟩ := result
    obtain ⟨hh₁, hstop⟩ := hx h answer h₁ hh hxh
    cases answer with
    | ok a =>
      rw [bind_of_ok hxh] at hr
      exact hf a h₁ r h' hh₁ hr
    | error stop =>
      rw [bind_of_stop hxh] at hr
      cases hr
      refine ⟨hh₁, fun stop' hs => ?_⟩
      cases hs
      exact hstop stop rfl

/-- A part that reads the host goes on from what it finds there. -/
theorem proceeds_get {f : Host σ → Handling σ β} (hf : ∀ h, Holds K h → Proceeds K Q (f h)) :
    Proceeds K Q (get >>= f) := by
  intro h r h' hh hr
  rw [get_bind] at hr
  exact hf h hh h r h' hh hr

/-- To give a value proceeds. -/
theorem proceeds_pure (a : α) : Proceeds K Q (pure a : Handling σ α) := by
  intro h r h' hh hr
  cases hr
  exact ⟨hh, fun stop hs => nomatch hs⟩

/-- A change of the host proceeds if it preserves the property of the session. -/
theorem proceeds_modify {f : Host σ → Host σ} (hf : ∀ h, Holds K h → Holds K (f h)) :
    Proceeds K Q (modify f) := by
  intro h r h' hh hr
  cases hr
  exact ⟨hf h hh, fun stop hs => nomatch hs⟩

/-- A change that is made or left out before a part that goes on. -/
theorem proceeds_modifyIf (b : Bool) {g : Host σ → Host σ} {f : Unit → Handling σ β}
    (hg : ∀ h, Holds K h → Holds K (g h)) (hf : Proceeds K Q (f ())) :
    Proceeds K Q (if b then modify g >>= f else f ()) := by
  cases b with
  | true => exact proceeds_bind (proceeds_modify hg) fun _ => hf
  | false => exact hf

/-- The answer of a call is passed on unless it is a crash. -/
theorem proceeds_settle {answer : Except Upset α}
    (hQ : ∀ message, answer = .error (.crash message) → Q message) :
    Proceeds K Q (settle answer (σ := σ)) := by
  intro h r h' hh hr
  match answer with
  | .ok a =>
    cases hr
    exact ⟨hh, fun stop hs => nomatch hs⟩
  | .error (.fault fault) =>
    cases hr
    exact ⟨hh, fun stop hs => nomatch hs⟩
  | .error (.crash message) =>
    cases hr
    refine ⟨hh, fun stop hs => ?_⟩
    cases hs
    exact ⟨message, rfl, hQ message rfl⟩

/-- A call proceeds if it preserves the property of the session. -/
theorem proceeds_call (m : Machine σ) {act : Act Upset σ α} {s : Session σ}
    (hact : KeepsCall K Q act s) : Proceeds K Q (call m act s) := by
  intro h r h' hh hr
  rw [call_apply] at hr
  refine proceeds_settle hact.2 _ r h' (fun s' hs' => ?_) hr
  cases hs'
  exact hact.1

/-- A call on a session that is not in use leaves one with the property. -/
theorem proceeds_callOn (m : Machine σ) {act : Act Upset σ α} {s : Session σ}
    (hact : KeepsCall K Q act s) {f : Except Fault α × Session σ → Handling σ β}
    (hf : ∀ answer, Proceeds K Q (f (answer, s.left act))) :
    Proceeds K Q (callOn m act s >>= f) := by
  intro h r h' hh hr
  have hh' : Holds K (h.say (s.told m act)) := hh
  rw [bind_congr f (callOn_apply m act s h)] at hr
  -- The session after the call is handed on, and only the answer can stop the handling.
  have hrest : Proceeds K Q ((settle (act s.state).result >>= fun answer =>
      (pure (answer, s.left act) : Handling σ _)) >>= f) := by
    intro h r h' hh hr
    cases hres : settle (act s.state).result h with
    | none =>
      rw [bind_of_none (bind_of_none hres)] at hr
      cases hr
    | some result =>
      obtain ⟨answer, h₁⟩ := result
      obtain ⟨hh₁, hstop⟩ := proceeds_settle hact.2 h answer h₁ hh hres
      cases answer with
      | ok a =>
        rw [bind_of_ok (bind_of_ok hres)] at hr
        exact hf a h₁ r h' hh₁ hr
      | error stop =>
        rw [bind_of_stop (bind_of_stop hres)] at hr
        cases hr
        refine ⟨hh₁, fun stop' hs => ?_⟩
        cases hs
        exact hstop stop rfl
  exact hrest _ r h' hh' hr

/-- A run goes on as its instructions do. -/
theorem keeps_run {m : Machine σ} (hm : Keeps m K Q) {bound : Nat} {budget budget' : Budget}
    {s s' : Session σ} {out out' : Transcript} {answer : Except Upset Outcome} (hs : K s)
    (hr : s.run m bound budget out = some (answer, budget', s', out')) :
    K s' ∧ ∀ message, answer = .error (.crash message) → Q message := by
  obtain ⟨last, -, hlast, rfl, -, hanswer⟩ :=
    Session.run_ends (P := fun k _ => K k) hr hs fun k _ hk => (hm.step k hk).1
  -- The answer is that of the last instruction, or the budget has run out.
  obtain ⟨hleft, hcrash⟩ := hm.step last hlast
  refine ⟨hleft, fun message hm => ?_⟩
  rcases hanswer with hanswer | ⟨-, limit, hanswer⟩
  · exact hcrash message (hanswer.symm.trans hm)
  · rw [hanswer] at hm
    cases hm

/-- A run proceeds: each of its steps is a call that does. -/
theorem proceeds_run {m : Machine σ} (hm : Keeps m K Q) (bound : Nat) (op : Operation)
    {s : Session σ} (hs : K s) : Proceeds K Q (run m bound op s) := by
  intro h r h' hh hr
  cases hrun : s.run m bound op.budget #[] with
  | none =>
    rw [run_of_none m bound op s hrun] at hr
    cases hr
  | some result =>
    obtain ⟨hs', hcrash⟩ := keeps_run hm hs hrun
    rw [run_of_some m bound op s hrun] at hr
    refine proceeds_settle hcrash _ r h' (fun s₁ hs₁ => ?_) hr
    cases hs₁
    exact hs'

/-- To close an operation proceeds. -/
theorem proceeds_close (task : Task) (ending : Ending) :
    Proceeds K Q (close task ending (σ := σ)) := by
  intro h r h' hh hr
  rw [close_apply] at hr
  cases hr
  exact ⟨hh, fun stop hs => nomatch hs⟩

/-- Held code that does not load is reported, not refused. -/
theorem proceeds_loadHeld {m : Machine σ} (hm : Keeps m K Q) : Proceeds K Q (loadHeld m) := by
  refine proceeds_get fun h hh => ?_
  split
  · rename_i s source hop hs hheld
    refine proceeds_bind (proceeds_modify fun h hh => hh) fun _ => ?_
    refine proceeds_bind (proceeds_call m (hm.load source s (hh s hs))) fun answer => ?_
    -- A fault comes back as an answer here, so neither case stops.
    cases answer with
    | ok => exact proceeds_pure _
    | error fault => exact proceeds_modify fun h hh => hh
  · exact proceeds_pure _

/-- To finish an operation proceeds, also with code that is loaded then. -/
theorem proceeds_finish {m : Machine σ} (hm : Keeps m K Q) (ending : Ending) :
    Proceeds K Q (finish m ending) := by
  refine proceeds_get fun h _ => ?_
  split
  · exact proceeds_pure _
  · refine proceeds_bind (proceeds_modify fun h hh => hh) fun _ => ?_
    refine proceeds_bind (proceeds_modify fun h hh => hh) fun _ => ?_
    exact proceeds_bind (proceeds_close _ _) fun _ => proceeds_loadHeld hm

/-- To abandon an operation proceeds. -/
theorem proceeds_abandon (reason : String) : Proceeds K Q (abandon reason (σ := σ)) := by
  intro h r h' hh hr
  rw [abandon_apply] at hr
  cases hr
  exact ⟨fun s hs => hh s (h.released_session.symm.trans hs), fun stop hs => nomatch hs⟩

/-- To suspend an operation proceeds. -/
theorem proceeds_suspend {m : Machine σ} (hm : Keeps m K Q) (kind : InputKind) :
    Proceeds K Q (suspend m kind) := by
  refine proceeds_get fun h _ => ?_
  split
  · refine proceeds_bind (proceeds_modify fun h hh => hh) fun _ => ?_
    refine proceeds_bind (proceeds_modify fun h hh => hh) fun _ => ?_
    exact proceeds_modify fun h hh => hh
  · exact proceeds_finish hm _

/-- To conclude work with an answer of the machine proceeds. -/
theorem proceeds_conclude {m : Machine σ} (hm : Keeps m K Q) (lang : String)
    (answer : Except Fault Outcome) : Proceeds K Q (conclude m lang answer) := by
  match answer with
  | .ok (.suspended kind) => exact proceeds_suspend hm kind
  | .ok .halted => exact proceeds_finish hm _
  | .ok .progressed => exact proceeds_finish hm _
  | .error fault => exact proceeds_finish hm _

/-- To drive an operation on proceeds. -/
theorem proceeds_drive {m : Machine σ} (hm : Keeps m K Q) (bound : Nat) :
    Proceeds K Q (drive m bound) := by
  refine proceeds_get fun h hh => ?_
  split
  · rename_i op s hop hs
    split
    · exact proceeds_bind (proceeds_run hm _ _ (hh s hs)) fun _ => proceeds_conclude hm _ _
    · exact proceeds_bind (proceeds_call m (hm.step s (hh s hs))) fun _ =>
        proceeds_conclude hm _ _
  · exact proceeds_pure _

/-- To begin an operation proceeds. -/
theorem proceeds_begin (task : Task) (lang : String) :
    Proceeds K Q (begin task lang (σ := σ)) :=
  proceeds_bind (proceeds_modify fun _ hh => hh) fun _ => proceeds_modify fun _ hh => hh

/-- To install a session proceeds if it has the property itself. -/
theorem proceeds_install {s : Session σ} (hs : K s) :
    Proceeds K Q (setLanguage.install c s) := by
  refine proceeds_bind (proceeds_modify fun h hh => hh) fun _ => ?_
  refine proceeds_modify fun h hh s' hs' => ?_
  cases hs'
  exact hs

/-! ## Checks -/

/-- The ways in which a command is refused, with the error and the host after it. -/
inductive Refusal (c : Catalogue σ) (h : Host σ) : Command → HostError → Host σ → Prop where
  /-- There is no such language, or not with these options. -/
  | language {lang : String} {options : Options} {e : HostError}
    (opening : c.openSession lang options = .error e) :
    Refusal c h (.setLanguage lang options) e h
  /-- A button needs a session. -/
  | noSession {button : Button} {args : ButtonArgs} (session : h.session = none) :
    Refusal c h (.press button args) (.noLanguage button.name) h
  /-- A button that begins an operation needs an idle host. -/
  | busy {button : Button} {args : ButtonArgs} {s : Session σ} {op : Operation}
    (session : h.session = some s) (operation : h.operation = some op) :
    Refusal c h (.press button args) (.busy s.lang op.task.action) h
  /-- The machine does not do what a button asks for. -/
  | unsupported {button : Button} {args : ButtonArgs} {s : Session σ} {capability : String}
    (session : h.session = some s) :
    Refusal c h (.press button args) (.notSupported s.lang capability) h
  /-- An answer does not fit the open request, or no request is open. -/
  | answer {value : Json} {popStatus : Bool} {e : HostError}
    (resolve : Request.resolve h.request value = .error e) :
    Refusal c h (.unblock value popStatus) e h
  /-- A free machine fails to load code. It has been called by then. -/
  | code {source : String} {s : Session σ} {fault : Fault} (operation : h.operation = none)
    (session : h.session = some s)
    (load : (Session.load c.machine source s.state).result = .error (.fault fault)) :
    Refusal c h (.loadCode source) (.badCode s.lang fault)
      (h.called c.machine (Session.load c.machine source) s)

/-- How a command stops: it is refused, or the machine comes to a crash of some kind. -/
def Stopped (c : Catalogue σ) (Q : Crash → Prop) (h : Host σ) (command : Command) (h' : Host σ) :
    Stop → Prop
  | .refused e => Refusal c h command e h'
  | .crashed message => Q message

/-- What stops after the checks of a command stops by a crash. -/
theorem Proceeds.stopped {x : Handling σ Unit} {h₁ : Host σ} {stop : Stop}
    (hx : Proceeds K Q x) (hh : Holds K h₁) (hr : x h₁ = some (.error stop, h')) :
    Stopped c Q h command h' stop := by
  obtain ⟨message, rfl, hQ⟩ := (hx h₁ _ h' hh hr).2 stop rfl
  exact hQ

/-- A button is refused without a session, and goes on with the session in use. -/
theorem stopped_needSession {button : Button} {args : ButtonArgs}
    {f : Session σ → Handling σ Unit} {stop : Stop}
    (hr : (needSession button.name >>= f) h = some (.error stop, h'))
    (hf : ∀ s, h.session = some s → f s h = some (.error stop, h') →
      Stopped c Q h (.press button args) h' stop) :
    Stopped c Q h (.press button args) h' stop := by
  cases hs : h.session with
  | none =>
    rw [bind_of_stop (needSession_of_none _ hs)] at hr
    cases hr
    exact Refusal.noSession hs
  | some s =>
    rw [bind_of_ok (needSession_of_some _ hs)] at hr
    exact hf s hs hr

/-- A button that begins an operation is refused by a busy host, and goes on otherwise. -/
theorem stopped_needIdle {button : Button} {args : ButtonArgs} {s : Session σ}
    {f : Unit → Handling σ Unit} {stop : Stop} (hh : Holds K h) (hs : h.session = some s)
    (hf : Proceeds K Q (f ()))
    (hr : (needIdle s.lang >>= f) h = some (.error stop, h')) :
    Stopped c Q h (.press button args) h' stop := by
  cases hop : h.operation with
  | none =>
    rw [bind_of_ok (needIdle_of_none _ hop)] at hr
    exact hf.stopped hh hr
  | some op =>
    rw [bind_of_stop (needIdle_of_some _ hop)] at hr
    cases hr
    exact Refusal.busy hs hop

/-- A question is refused by a machine that does not answer it, and goes on with the answer. -/
theorem stopped_needAnswer {button : Button} {args : ButtonArgs} {s : Session σ}
    {supported : Bool} {answer : Except Crash (Option String)} {capability : String}
    {f : String → Handling σ Unit} {stop : Stop} (hh : Holds K h) (hs : h.session = some s)
    (hQ : ∀ crash, answer = .error crash → Q crash) (hf : ∀ code, Proceeds K Q (f code))
    (hr : (needAnswer supported answer s.lang capability >>= f) h = some (.error stop, h')) :
    Stopped c Q h (.press button args) h' stop := by
  cases supported with
  | false =>
    cases hr
    exact Refusal.unsupported hs
  | true =>
    match answer with
    | .ok none =>
      cases hr
      exact Refusal.unsupported hs
    | .ok (some code) => exact (hf code).stopped hh hr
    | .error crash =>
      cases hr
      exact hQ crash rfl

/-! ## The commands -/

/-- A language is refused, or its session is put in place unless its machine crashes. -/
theorem stopped_setLanguage {lang : String} {options : Options} {stop : Stop}
    (hm : Keeps c.machine K Q) (hh : Holds K h)
    (hopen : ∀ s, c.openSession lang options = .ok s → K s)
    (hd : setLanguage c lang options h = some (.error stop, h')) :
    Stopped c Q h (.setLanguage lang options) h' stop := by
  unfold setLanguage at hd
  cases ho : c.openSession lang options with
  | error e =>
    rw [ho] at hd
    cases hd
    exact Refusal.language ho
  | ok s =>
    have hs : (ofExcept (.ok s) : Handling σ (Session σ)) h = some (.ok s, h) := rfl
    rw [ho, bind_of_ok hs] at hd
    refine Proceeds.stopped (K := K) (proceeds_bind (proceeds_abandon _) fun abandoned => ?_) hh hd
    refine proceeds_modifyIf _ (fun h hh => hh) (proceeds_get fun k _ => ?_)
    split
    · exact proceeds_install (hopen s ho)
    · rename_i source hheld
      have hload := hm.load source s (hopen s ho)
      refine proceeds_bind (proceeds_modify fun h hh => hh) fun _ => ?_
      refine proceeds_callOn c.machine hload fun answer => ?_
      cases answer with
      | ok => exact proceeds_install hload.1
      | error fault =>
        exact proceeds_bind (proceeds_modify fun h hh => hh) fun _ => proceeds_install hload.1

/-- Code is refused if a free machine fails to load it, and held back without a free machine. -/
theorem stopped_loadCode {source : String} {stop : Stop} (hm : Keeps c.machine K Q)
    (hh : Holds K h) (hd : loadCode c.machine source h = some (.error stop, h')) :
    Stopped c Q h (.loadCode source) h' stop := by
  unfold loadCode at hd
  rw [get_bind] at hd
  cases hop : h.operation with
  | some op =>
    rw [hop] at hd
    cases hd
  | none =>
    cases hs : h.session with
    | none =>
      rw [hop, hs] at hd
      cases hd
    | some s =>
      rw [hop, hs] at hd
      dsimp only at hd
      rw [bind_congr _ (call_apply _ _ _ _)] at hd
      cases hl : (Session.load c.machine source s.state).result with
      | ok =>
        rw [hl, bind_of_ok (settle_ok _ _)] at hd
        cases hd
      | error upset =>
        cases upset with
        | fault fault =>
          rw [hl, bind_of_ok (settle_fault _ _)] at hd
          cases hd
          exact Refusal.code hop hs hl
        | crash message =>
          rw [hl, bind_of_stop (settle_crash _ _)] at hd
          cases hd
          exact (hm.load source s (hh s hs)).2 message hl

/-- A reset with a session in use has nothing left to refuse. -/
theorem proceeds_resetWith {m : Machine σ} (hm : Keeps m K Q) (lang : String) :
    Proceeds K Q (do
      let _ ← abandon "reset"
      loadHeld m
      let h ← get
      match h.session with
      | some s => let _ ← call m m.reset s
      | none => pure ()
      print s!"> interpreter reset --lang {lang}\n") := by
  refine proceeds_bind (proceeds_abandon _) fun _ => ?_
  refine proceeds_bind (proceeds_loadHeld hm) fun _ => proceeds_get fun k hk => ?_
  split
  · rename_i s' hs'
    exact proceeds_bind (proceeds_call m (hm.reset s' (hk s' hs'))) fun _ =>
      proceeds_modify fun h hh => hh
  · exact proceeds_modify fun h hh => hh

/-- A reset is refused without a session, and goes on otherwise. -/
theorem stopped_reset {args : ButtonArgs} {stop : Stop} (hm : Keeps c.machine K Q)
    (hh : Holds K h) (hd : resetButton c.machine h = some (.error stop, h')) :
    Stopped c Q h (.press .reset args) h' stop :=
  stopped_needSession hd fun s _ hr =>
    Proceeds.stopped (K := K) (proceeds_resetWith hm s.lang) hh hr

/-- A run is refused without a session or by a busy host, and goes on otherwise. -/
theorem stopped_interpret {args : ButtonArgs} {stop : Stop} (hm : Keeps c.machine K Q)
    (hh : Holds K h) (hd : interpretButton c.machine bound args.code h = some (.error stop, h')) :
    Stopped c Q h (.press .interpret args) h' stop := by
  refine stopped_needSession hd fun s hs hr => stopped_needIdle (K := K) hh hs ?_ hr
  refine proceeds_bind (proceeds_modify fun h hh => hh) fun _ => ?_
  refine proceeds_bind (proceeds_begin _ _) fun _ => ?_
  cases args.code with
  | none => exact proceeds_drive hm bound
  | some source =>
    refine proceeds_bind (proceeds_call c.machine (hm.load source s (hh s hs))) fun answer => ?_
    cases answer with
    | ok => exact proceeds_drive hm bound
    | error fault => exact proceeds_finish hm _

/-- A step is refused without a session or by a busy host, or if the machine does not do single
steps, and goes on otherwise. -/
theorem stopped_step {args : ButtonArgs} {stop : Stop} (hm : Keeps c.machine K Q)
    (hh : Holds K h) (hd : stepButton c.machine bound h = some (.error stop, h')) :
    Stopped c Q h (.press .step args) h' stop := by
  refine stopped_needSession hd fun s hs hr => ?_
  split at hr
  · cases hr
    exact Refusal.unsupported hs
  · refine stopped_needIdle (K := K) hh hs ?_ hr
    exact proceeds_bind (proceeds_begin _ _) fun _ => proceeds_drive hm bound

/-- A question is refused without a session or by a machine that does not answer it. -/
theorem stopped_minify {args : ButtonArgs} {stop : Stop} (hm : Keeps c.machine K Q)
    (hh : Holds K h)
    (hd : minifyButton c.machine (args.code.getD "") h = some (.error stop, h')) :
    Stopped c Q h (.press .minify args) h' stop := by
  refine stopped_needSession hd fun s hs hr => ?_
  refine stopped_needAnswer (K := K) hh hs (hm.minify _ s · (hh s hs)) (fun code => ?_) hr
  exact proceeds_bind (proceeds_modify fun h hh => hh) fun _ => proceeds_modify fun h hh => hh

/-- A text that is asked to be turned into code stops as the host refuses it, or by a crash of the
machine. -/
theorem stopped_textToCode {args : ButtonArgs} {stop : Stop} (hm : Keeps c.machine K Q)
    (hh : Holds K h)
    (hd : textToCodeButton c.machine (args.text.getD "") h = some (.error stop, h')) :
    Stopped c Q h (.press .textToCode args) h' stop := by
  refine stopped_needSession hd fun s hs hr => ?_
  refine stopped_needAnswer (K := K) hh hs (hm.fromText _ s · (hh s hs)) (fun code => ?_) hr
  exact proceeds_bind (proceeds_modify fun h hh => hh) fun _ => proceeds_modify fun h hh => hh

/-- An answer is refused if it does not fit the open request, and completes the instruction that
waits for it otherwise. -/
theorem stopped_unblock {value : Json} {popStatus : Bool} {stop : Stop}
    (hm : Keeps c.machine K Q) (hc : h.Consistent) (hh : Holds K h)
    (hresume : ∀ s kind input, h.session = some s →
      Request.resolve h.request value = .ok (kind, input) →
      KeepsCall K Q (c.machine.resume input) s)
    (hd : unblock c.machine bound value popStatus h = some (.error stop, h')) :
    Stopped c Q h (.unblock value popStatus) h' stop := by
  unfold unblock at hd
  rw [get_bind] at hd
  cases hr : Request.resolve h.request value with
  | error e =>
    rw [hr] at hd
    cases hd
    exact Refusal.answer hr
  | ok answer =>
    obtain ⟨kind, input⟩ := answer
    obtain ⟨op, s, hop, hs⟩ := hc.busy_of_resolve hr
    have hanswer : (ofExcept (.ok (kind, input)) : Handling σ (InputKind × Input)) h =
        some (.ok (kind, input), h) := rfl
    rw [hr, bind_of_ok hanswer] at hd
    dsimp only at hd
    rw [answered_apply popStatus _ hop, hs, hop] at hd
    dsimp only at hd
    -- The host at work has the session of the host before, so the property still holds of it.
    have hh' : Holds K (h.atWork op (h.answeredLabels popStatus)
        (if popStatus then [(h.answeredLabels popStatus).report] else [])) := hh
    refine Proceeds.stopped ?_ hh' hd
    refine proceeds_bind (proceeds_call c.machine (hresume s kind input hs hr)) fun answer => ?_
    cases answer with
    | error fault => exact proceeds_finish hm _
    | ok =>
      dsimp only
      split
      · exact proceeds_drive hm bound
      · exact proceeds_finish hm _

/-- A command stops by a refusal or by a crash of some kind, if the calls that it makes of the
machine preserve a property of the session and come only to such crashes. -/
theorem dispatch_stops {stop : Stop} (hm : Keeps c.machine K Q) (hc : h.Consistent)
    (hh : Holds K h) (hopen : ∀ lang options s, c.openSession lang options = .ok s → K s)
    (hresume : ∀ s value kind input, h.session = some s →
      Request.resolve h.request value = .ok (kind, input) →
      KeepsCall K Q (c.machine.resume input) s)
    (hd : dispatch c bound command h = some (.error stop, h')) :
    Stopped c Q h command h' stop := by
  match command with
  | .setLanguage lang options => exact stopped_setLanguage hm hh (hopen lang options) hd
  | .loadCode source => exact stopped_loadCode hm hh hd
  | .press .reset args => exact stopped_reset hm hh hd
  | .press .minify args => exact stopped_minify hm hh hd
  | .press .interpret args => exact stopped_interpret hm hh hd
  | .press .step args => exact stopped_step hm hh hd
  | .press .textToCode args => exact stopped_textToCode hm hh hd
  | .unblock value popStatus =>
    exact stopped_unblock hm hc hh (fun s kind input => hresume s value kind input) hd

/-- Whatever the machine does, a command is refused in one of the ways listed. -/
theorem refusal_of_dispatch {e : HostError} (hc : h.Consistent)
    (hd : dispatch c bound command h = some (.error (.refused e), h')) :
    Refusal c h command e h' := by
  -- Nothing is asked of the machine: any property of a session will do, and any crash.
  have hcall {α : Type} (act : Act Upset σ α) (s : Session σ) :
      KeepsCall (fun _ => True) (fun _ => True) act s := ⟨trivial, fun _ _ => trivial⟩
  have hm : Keeps c.machine (fun _ => True) fun _ => True :=
    ⟨fun _ s _ => hcall _ s, fun s _ => hcall _ s, fun s _ => hcall _ s,
      fun _ _ _ _ _ => trivial, fun _ _ _ _ _ => trivial⟩
  exact dispatch_stops hm hc (fun _ _ => trivial) (fun _ _ _ _ => trivial)
    (fun s _ _ _ _ _ => hcall _ s) hd

end EsotericHost.Handling

namespace EsotericHost.Host

variable {σ : Type} {c : Catalogue σ} {bound : Nat} {h h' : Host σ} {command : Command}

/-- A command that is refused in its place is answered by the error alone, and the host stays as it
was. -/
theorem handle_of_refused {e : HostError} (hh : h.Consistent)
    (hd : Handling.dispatch c bound command h = some (.error (.refused e), h)) :
    h.handle c bound command = some ([.error e.message], h) := by
  obtain ⟨limit, session, held, activity, request, operation, out⟩ := h
  obtain rfl : out = #[] := hh.delivered
  have hreport : Handling.rescue c.machine
      (some (.error (.refused e), ⟨limit, session, held, activity, request, operation, #[]⟩)) =
      some (.ok (), Host.say ⟨limit, session, held, activity, request, operation, #[]⟩
        [.error e.message]) := Handling.report_apply e _
  unfold handle
  rw [Handling.handleCommand_eq, hd, hreport]
  simp [say]

/-- A busy host refuses every command that would begin an operation. -/
theorem refused_of_busy {button : Button} {args : ButtonArgs}
    (hb : button = .interpret ∨ button = .step) (hh : h.Consistent) (hop : h.operation.isSome) :
    ∃ e, Handling.dispatch c bound (.press button args) h = some (.error (.refused e), h) := by
  obtain ⟨s, hs⟩ := Option.isSome_iff_exists.mp (hh.busy_session hop)
  obtain ⟨op, hop⟩ := Option.isSome_iff_exists.mp hop
  rcases hb with rfl | rfl
  · exact ⟨_, Handling.interpret_of_busy args hs hop⟩
  · by_cases hcap : s.capabilities.step = true
    · exact ⟨_, Handling.step_of_busy args hs hcap hop⟩
    · exact ⟨_, Handling.step_of_unsupported args hs hcap⟩

end EsotericHost.Host
