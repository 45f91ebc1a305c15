import EsotericHost.Proofs.Host.Strides

/-!
# The history of a session

From the command that opens a session to any later command the session goes through a row of calls
of its machine, and all that the host says between these calls shows nothing of the inside of the
machine. `Session.History` is such a row, with its events and with the sessions from which steps
were taken. A call that fails with a fault is followed by the report of the fault, before anything
else of the machine is told.

A command adds to the history of the session in use (`Course.history`), or it opens another session
and begins the history of that one (`Course.history_opened`). So after a run of commands the events
since the last session was opened are the history of that session (`Host.handleAll_history`).
-/

namespace EsotericHost

variable {σ α : Type} {c : Catalogue σ} {m : Machine σ} {bound : Nat} {h h' : Host σ}
  {s t u : Session σ} {op : Operation} {command : Command} {events : List Event}
  {strides : List (Session σ)} {Source : String → Prop} {Good : σ → Prop}
  {waits : σ → Option InputKind}

/-! ## Histories -/

/-- An event that shows nothing of the inside of a machine. -/
def Event.IsOutward : Event → Prop
  | .update _ | .created .. => False
  | _ => True

/-- A note of the host shows nothing of the inside of a machine. -/
theorem Event.IsNote.isOutward {e : Event} (he : e.IsNote) : e.IsOutward := by
  cases e <;> trivial

/-- A call whose failure the host reports: the call, how a fault of it is worded, and the sessions
from which it takes a step. Programs may be restricted to those of a given kind. -/
inductive Machine.Call (m : Machine σ) (Source : String → Prop) (s : Session σ) :
    {α : Type} → Act Upset σ α → (Fault → HostError) → List (Session σ) → Prop where
  | load {source : String} (given : Source source) :
    Call m Source s (Session.load m source) (.badCode s.lang) []
  | step : Call m Source s m.step (.failed s.lang) [s]
  | resume (input : Input) : Call m Source s (m.resume input) (.failed s.lang) []

/-- What the host says of the result of a call: nothing of the inside of the machine, and the fault
if there is one. -/
structure Reports (error : Fault → HostError) (result : Except Upset α) (report : List Event) :
    Prop where
  outward : ∀ e ∈ report, e.IsOutward
  fault : ∀ fault, result = .error (.fault fault) → .error (error fault).message ∈ report

/-- What a session goes through: the sessions from which steps were taken, the events, and the
session that it comes to. -/
inductive Session.History (m : Machine σ) (Source : String → Prop) (s : Session σ) :
    List (Session σ) → List Event → Session σ → Prop where
  | start : History m Source s [] [] s
  /-- The host says something that shows nothing of the machine. -/
  | said {strides : List (Session σ)} {events : List Event} {t : Session σ} {e : Event}
    (before : History m Source s strides events t) (outward : e.IsOutward) :
    History m Source s strides (events ++ [e]) t
  /-- The client is told of the machine. -/
  | shown {strides : List (Session σ)} {events : List Event} {t : Session σ}
    (before : History m Source s strides events t) :
    History m Source s strides (events ++ [t.createdEvent m]) t
  /-- The machine is reset, and nothing is made of how that goes. -/
  | reset {strides : List (Session σ)} {events : List Event} {t : Session σ}
    (before : History m Source s strides events t) :
    History m Source s strides (events ++ t.told m m.reset) (t.left m.reset)
  /-- The machine is called, and the host says how that went. -/
  | called {strides more : List (Session σ)} {events report : List Event} {t : Session σ}
    {α : Type} {act : Act Upset σ α} {error : Fault → HostError}
    (before : History m Source s strides events t) (call : m.Call Source t act error more)
    (reports : Reports error (act t.state).result report) :
    History m Source s (strides ++ more) (events ++ (t.told m act ++ report)) (t.left act)

/-- A call without a fault needs no report. -/
theorem Reports.nothing {error : Fault → HostError} {result : Except Upset α}
    (hr : ∀ fault, result ≠ .error (.fault fault)) : Reports error result [] :=
  ⟨fun _ he => absurd he List.not_mem_nil, fun fault hf => absurd hf (hr fault)⟩

namespace Session.History

/-- What a session goes through may go on with more. -/
theorem trans {strides more : List (Session σ)} {events later : List Event}
    (hs : s.History m Source strides events t) (ht : t.History m Source more later u) :
    s.History m Source (strides ++ more) (events ++ later) u := by
  induction ht with
  | start =>
    rw [List.append_nil, List.append_nil]
    exact hs
  | said _ outward ih =>
    rw [← List.append_assoc]
    exact ih.said outward
  | shown _ ih =>
    rw [← List.append_assoc]
    exact ih.shown
  | reset _ ih =>
    rw [← List.append_assoc]
    exact ih.reset
  | called _ call reports ih =>
    rw [← List.append_assoc, ← List.append_assoc]
    exact ih.called call reports

/-- A history goes on with all that the host says. -/
theorem say (hs : s.History m Source strides events t) {more : List Event}
    (hm : ∀ e ∈ more, e.IsOutward) : s.History m Source strides (events ++ more) t := by
  induction more generalizing events with
  | nil =>
    rw [List.append_nil]
    exact hs
  | cons e more ih =>
    rw [List.append_cons]
    exact ih (hs.said (hm e List.mem_cons_self)) fun x hx => hm x (List.mem_cons_of_mem e hx)

/-- What the host says at first. -/
theorem of_outward {more : List Event} (hm : ∀ e ∈ more, e.IsOutward) :
    s.History m Source [] more s :=
  start.say hm

/-- One call and what the host says of it. -/
theorem of_call {act : Act Upset σ α} {error : Fault → HostError} {report : List Event}
    (call : m.Call Source s act error strides)
    (reports : Reports error (act s.state).result report) :
    s.History m Source strides (s.told m act ++ report) (s.left act) :=
  start.called call reports

/-- Only the state of a session changes. -/
theorem make (hs : s.History m Source strides events t) : t = { s with state := t.state } := by
  induction hs with
  | start => rfl
  | said _ _ ih => exact ih
  | shown _ ih => exact ih
  | reset _ ih =>
    unfold left
    rw [ih]
  | called _ _ _ ih =>
    unfold left
    rw [ih]

end Session.History

/-! ## The parts of a command -/

/-- Held code is loaded, or not, and its failure is reported. -/
theorem Session.history_heldEvents {held : Option String}
    (hheld : ∀ source, held = some source → Source source) :
    s.History m Source [] (s.heldEvents m held) (s.withHeld m held) := by
  cases held with
  | none => exact .start
  | some source =>
    refine .of_call (.load (hheld source rfl)) ⟨fun e he => ?_, fun fault hf => ?_⟩
    · exact (isNote_loadReport _ _ e he).isOutward
    · rw [heldResult, hf]
      exact List.mem_singleton_self _

/-- A stretch of work that a session goes through, with anything that the host says of it in the
end. -/
def Stretch.Follows (m : Machine σ) (Source : String → Prop) (s : Session σ)
    (strides : List (Session σ)) (w : Stretch σ) : Prop :=
  ∀ report : List Event, (∀ e ∈ report, e.IsOutward) →
    (∀ error, w.rest = .ends (.failed error) → .error error.message ∈ report) →
    s.History m Source strides (w.events ++ report) w.session

/-- A stretch of work changes only the state of the session. -/
theorem Stretch.Follows.make {w : Stretch σ} (hw : w.Follows m Source s strides) :
    w.session = { s with state := w.session.state } := by
  -- Whatever has to be said of the work in the end can be said.
  cases hrest : w.rest with
  | waits kind =>
    exact (hw [] (by simp) fun error hf => by rw [hrest] at hf; cases hf).make
  | ends ending =>
    refine (hw (endReport .run ending) (fun e he => ?_) fun error hf => ?_).make
    · exact (isNote_endReport _ _ e he).isOutward
    · rw [hrest] at hf
      cases hf
      exact List.mem_append_left _ List.mem_cons_self

/-- A stretch of work without a call. -/
theorem Stretch.follows_nothing {w : Stretch σ} (hs : w.session = s) (he : w.events = []) :
    w.Follows m Source s [] := by
  intro report hout _
  rw [he, hs]
  exact .of_outward hout

namespace Session

/-- A run goes through its strides. -/
theorem history_run {budget budget' : Budget} {out out' : Transcript}
    {answer : Except Upset Outcome} {report : List Event}
    (hr : s.run m bound budget out = some (answer, budget', t, out'))
    (hreport : Reports (.failed s.lang) answer report) :
    s.History m Source (s.strides m bound budget)
      (stridesTold m (s.strides m bound budget) ++ report) t := by
  -- The induction is on the bound, as the run recurses, from the session that each step leaves.
  induction bound generalizing budget s out with
  | zero => cases hr
  | succ bound ih =>
    unfold run at hr
    unfold strides
    simp only [call_eq] at hr
    have hlast (hs : Reports (.failed s.lang) (m.step s.state).result report) :
        s.History m Source [s] (stridesTold m [s] ++ report) (s.left m.step) := by
      rw [show stridesTold m [s] = s.told m m.step from List.append_nil _]
      exact .of_call .step hs
    cases hres : (m.step s.state).result with
    | error upset =>
      rw [hres] at hr
      cases hr
      exact hlast (hres ▸ hreport)
    | ok outcome =>
      have hnone : ∀ fault, (m.step s.state).result ≠ .error (.fault fault) := by
        rw [hres]
        exact fun _ hf => nomatch hf
      rw [hres] at hr
      cases outcome with
      | halted => cases hr; exact hlast (hres ▸ hreport)
      | suspended kind => cases hr; exact hlast (hres ▸ hreport)
      | progressed =>
        dsimp only at hr ⊢
        cases hex : budget.charge.exceeded? with
        -- The fault is that of the budget, and not of the step.
        | some limit =>
          rw [hex] at hr
          cases hr
          exact hlast ⟨hreport.outward, fun fault hf => absurd hf (hnone fault)⟩
        | none =>
          rw [hex] at hr
          have hstep : s.History m Source [s] (s.told m m.step) (s.left m.step) := by
            rw [← List.append_nil (s.told m m.step)]
            exact .of_call .step (.nothing hnone)
          have hrest := hstep.trans (ih hr hreport)
          rw [← List.append_assoc] at hrest
          exact hrest

/-- Work goes through its strides. -/
theorem follows_toil {w : Stretch σ} (hw : s.toil m bound op = some w) :
    w.Follows m Source s (s.toilStrides m bound op) := by
  intro report hout hfailed
  unfold toil at hw
  unfold toilStrides
  cases htask : op.task with
  | run =>
    rw [htask] at hw
    obtain ⟨⟨answer, budget, t, out⟩, hr, rfl⟩ := Option.map_eq_some_iff.mp hw
    have htold : out.toList = stridesTold m (s.strides m bound op.budget) := by
      rw [told_of_run hr, Array.toList_appendList]
      rfl
    dsimp only at hfailed ⊢
    rw [htold]
    refine history_run hr ⟨hout, fun fault hf => hfailed _ ?_⟩
    rw [hf, run_lang hr]
    rfl
  | step =>
    rw [htask] at hw
    cases hw
    refine .of_call .step ⟨hout, fun fault hf => hfailed _ ?_⟩
    dsimp only
    rw [hf]
    rfl

/-- Work after a call goes through the call and then through the strides of the work. -/
theorem follows_toilAfter {error : Fault → HostError} {act : Act Upset σ Unit}
    {next : Session σ → Option (Stretch σ)} {strides : Session σ → List (Session σ)}
    {w : Stretch σ} (call : m.Call Source s act error [])
    (hnext : ∀ s w, next s = some w → w.Follows m Source s (strides s))
    (hw : s.toilAfter m op error act next = some w) :
    w.Follows m Source s (s.stridesAfter act strides) := by
  intro report hout hfailed
  unfold toilAfter at hw
  unfold stridesAfter
  cases hr : (act s.state).result with
  | ok _ =>
    rw [hr] at hw
    obtain ⟨w', hw', rfl⟩ := Option.map_eq_some_iff.mp hw
    have hcall : s.History m Source [] (s.told m act) (s.left act) := by
      rw [← List.append_nil (s.told m act)]
      refine .of_call call (.nothing fun fault => ?_)
      rw [hr]
      exact fun hf => nomatch hf
    have hrest := hcall.trans (hnext _ w' hw' report hout hfailed)
    rw [← List.append_assoc] at hrest
    exact hrest
  | error upset =>
    rw [hr] at hw
    cases hw
    refine .of_call call ⟨hout, fun fault hf => hfailed _ ?_⟩
    rw [hr] at hf
    cases hf
    rfl

end Session

/-! ## Commands -/

/-- The program that a command brings along. -/
def Command.source? : Command → Option String
  | .loadCode source => some source
  | .press .interpret args => args.code
  | _ => none

namespace Effort

/-- Work in the course of a command goes through the strides of the command. -/
theorem follows {e : Effort σ} (he : h.effort? c bound command = some e)
    (hsource : ∀ source, command.source? = some source → Source source) :
    ∃ s, h.session = some s ∧
      e.stretch.Follows c.machine Source s (h.strides c bound command) := by
  match command with
  | .press .interpret args =>
    simp only [Host.effort?] at he
    split at he
    · rename_i s hop hs
      obtain ⟨-, -, -, hw⟩ := of_beginEffort he
      refine ⟨s, hs, ?_⟩
      simp only [Host.strides, hop, hs]
      cases hcode : args.code with
      | none =>
        rw [hcode] at hw
        exact Session.follows_toil hw
      | some source =>
        rw [hcode] at hw
        exact Session.follows_toilAfter (.load (hsource source hcode))
          (fun s w hw => Session.follows_toil hw) hw
    · cases he
  | .press .step args =>
    simp only [Host.effort?] at he
    split at he
    · rename_i s hop hs
      split at he
      · rename_i hcap
        obtain ⟨-, -, -, hw⟩ := of_beginEffort he
        refine ⟨s, hs, ?_⟩
        simp only [Host.strides, hop, hs, hcap, if_true]
        exact Session.follows_toil hw
      · cases he
    · cases he
  | .unblock value popStatus =>
    obtain ⟨kind, input, s, hop, hs, hr, hw⟩ := of_unblock he
    refine ⟨s, hs, ?_⟩
    simp only [Host.strides, hop, hs, hr]
    refine Session.follows_toilAfter (.resume input) (fun s w hw => ?_) hw
    cases htask : e.operation.task with
    | run =>
      rw [htask] at hw
      exact Session.follows_toil hw
    | step =>
      rw [htask] at hw
      cases hw
      exact Stretch.follows_nothing rfl rfl
  | .press .minify args =>
    obtain ⟨s, hs, he⟩ := Option.bind_eq_some_iff.mp he
    obtain ⟨op, message, hop, rfl⟩ := of_crashEffort he
    exact ⟨s, hs, Stretch.follows_nothing rfl rfl⟩
  | .press .textToCode args =>
    obtain ⟨s, hs, he⟩ := Option.bind_eq_some_iff.mp he
    obtain ⟨op, message, hop, rfl⟩ := of_crashEffort he
    exact ⟨s, hs, Stretch.follows_nothing rfl rfl⟩
  | .press .reset args => cases he
  | .setLanguage lang options => cases he
  | .loadCode source => cases he

/-- The session in use goes through the work of a command, its report and the held code. -/
theorem history {e : Effort σ} (ho : e.Origin h command)
    (hw : e.stretch.Follows m Source s strides)
    (hheld : ∀ source, h.held = some source → Source source) :
    ∃ t, (e.leaves m h).session = some t ∧
      s.History m Source strides (e.events m h.held) t := by
  have hopening : s.History m Source [] e.opening s :=
    .of_outward fun x hx => (ho.isNote_opening x hx).isOutward
  unfold Effort.leaves Effort.events
  cases hrest : e.stretch.rest with
  | waits kind =>
    refine ⟨_, rfl, ?_⟩
    dsimp only
    rw [List.append_assoc]
    refine hopening.trans (hw _ (fun x hx => ?_) fun error hf => ?_)
    · rcases List.mem_cons.mp hx with rfl | hx
      · trivial
      · obtain rfl := List.mem_singleton.mp hx
        trivial
    · rw [hrest] at hf
      cases hf
  | ends ending =>
    refine ⟨_, rfl, ?_⟩
    dsimp only
    have hwork := hw (e.labels.unwindReports e.operation.depth ++
      endReport e.operation.task ending) (fun x hx => ?_) (fun error hf => ?_)
    · have hall := (hopening.trans hwork).trans (Session.history_heldEvents hheld)
      simp only [List.nil_append, List.append_nil, List.append_assoc] at hall ⊢
      exact hall
    · rcases List.mem_append.mp hx with hx | hx
      · exact (Activity.isNote_unwindReports _ _ x hx).isOutward
      · exact (isNote_endReport _ _ x hx).isOutward
    · rw [hrest] at hf
      cases hf
      exact List.mem_append_right _ (List.mem_append_left _ List.mem_cons_self)

end Effort

/-- A command that is refused takes no stride. -/
theorem Host.strides_of_refused {e : HostError} (hh : h.Consistent)
    (hd : Handling.dispatch c bound command h = some (.error (.refused e), h))
    (hidle : h.effort? c bound command = none) : h.strides c bound command = [] := by
  match command with
  | .press .interpret args =>
    simp only [strides]
    split
    · rename_i s hop hs
      -- An idle host with a session would have begun to work.
      obtain ⟨w, hw⟩ := effort_of_interpret hh hop hs (handle_of_refused hh hd)
      rw [hidle] at hw
      cases hw
    · rfl
  | .press .step args =>
    simp only [strides]
    split
    · rename_i s hop hs
      split
      · rename_i hcap
        simp only [effort?, hop, hs, hcap, if_true] at hidle
        cases hidle
      · rfl
    · rfl
  | .unblock value popStatus =>
    cases Handling.refusal_of_dispatch hh hd with
    | answer resolve =>
      simp only [strides, resolve]
      cases h.operation <;> cases h.session <;> rfl
  | .press .reset args => rfl
  | .press .minify args => rfl
  | .press .textToCode args => rfl
  | .setLanguage lang options => rfl
  | .loadCode source => rfl

/-- Giving an operation up shows nothing of the machine. -/
theorem Host.isOutward_abandonEvents (h : Host σ) (reason : String) :
    ∀ e ∈ h.abandonEvents reason, e.IsOutward :=
  fun e he => (h.isNote_abandonEvents reason e he).isOutward

/-- Held code that a new session takes over was held by the host. -/
theorem Host.held_of_inherited {source : String} (hi : h.inherited = some source) :
    h.held = some source := by
  unfold inherited at hi
  split at hi
  · cases hi
  · exact hi

/-- Whether a command opens a session. -/
def Catalogue.makes (c : Catalogue σ) : Command → Bool
  | .setLanguage lang options => (c.openSession lang options).isOk
  | _ => false

namespace Course

/-- A command to a host without a session that opens none shows nothing of a machine. -/
theorem outward (hx : Course c bound h command events h') (hs : h.session = none)
    (hm : c.makes command = false) : h'.session = none ∧ ∀ e ∈ events, e.IsOutward := by
  cases hx with
  | refused dispatched idle kept =>
    exact ⟨hs, fun e he => by cases List.mem_singleton.mp he; trivial⟩
  | crashed question dispatched operation =>
    exact ⟨hs, fun e he => by cases List.mem_singleton.mp he; trivial⟩
  | minified session answer => rw [hs] at session; cases session
  | fromText session answer => rw [hs] at session; cases session
  | held busy => exact ⟨hs, fun _ he => absurd he List.not_mem_nil⟩
  | loaded operation session => rw [hs] at session; cases session
  | opened session loads => rw [Catalogue.makes, session] at hm; cases hm
  | openCrashed session crash => rw [Catalogue.makes, session] at hm; cases hm
  | reset session loads => rw [hs] at session; cases session
  | resetCrashed session crash => rw [hs] at session; cases session
  | worked effort =>
    obtain ⟨s, session, -⟩ :=
      Effort.follows effort fun _ _ => trivial
    rw [hs] at session
    cases session

/-- A command that opens no session adds to the history of the session in use. -/
theorem history (hx : Course c bound h command events h') (hh : h.Consistent)
    (hs : h.session = some s) (hm : c.makes command = false)
    (hheld : ∀ source, h.held = some source → Source source)
    (hsource : ∀ source, command.source? = some source → Source source) :
    ∃ t, h'.session = some t ∧
      s.History c.machine Source (h.strides c bound command) events t := by
  have hgiven : s.History c.machine Source [] (h.abandonEvents "reset") s :=
    .of_outward (h.isOutward_abandonEvents _)
  cases hx with
  | refused dispatched idle kept =>
    rw [Host.strides_of_refused hh dispatched idle]
    exact ⟨s, hs, .of_outward fun e he => by cases List.mem_singleton.mp he; trivial⟩
  | crashed question dispatched operation =>
    rename_i button args message
    have hstrides : h.strides c bound (.press button args) = [] := by
      rcases question with rfl | rfl <;> rfl
    rw [hstrides]
    exact ⟨s, hs, .of_outward fun e he => by cases List.mem_singleton.mp he; trivial⟩
  | minified session answer =>
    refine ⟨s, hs, .of_outward fun e he => ?_⟩
    rcases List.mem_cons.mp he with rfl | he
    · trivial
    · obtain rfl := List.mem_singleton.mp he
      trivial
  | fromText session answer =>
    refine ⟨s, hs, .of_outward fun e he => ?_⟩
    rcases List.mem_cons.mp he with rfl | he
    · trivial
    · obtain rfl := List.mem_singleton.mp he
      trivial
  | held busy => exact ⟨s, hs, .start⟩
  | loaded operation session =>
    cases hs.symm.trans session
    refine ⟨_, rfl, Session.history_heldEvents ?_⟩
    rintro _ ⟨⟩
    exact hsource _ rfl
  | opened session loads => rw [Catalogue.makes, session] at hm; cases hm
  | openCrashed session crash => rw [Catalogue.makes, session] at hm; cases hm
  | resetCrashed session crash =>
    cases hs.symm.trans session
    exact ⟨_, rfl, hgiven.trans (Session.history_heldEvents hheld)⟩
  | reset session loads =>
    cases hs.symm.trans session
    have hreset := (hgiven.trans (Session.history_heldEvents hheld)).reset
    refine ⟨_, rfl, ?_⟩
    rw [Host.resetEvents, ← List.append_assoc]
    refine hreset.say fun e he => ?_
    split at he <;>
    · obtain rfl := List.mem_singleton.mp he
      trivial
  | worked effort =>
    obtain ⟨t, session, hfollows⟩ := Effort.follows effort hsource
    cases hs.symm.trans session
    exact Effort.history (Effort.origin effort) hfollows hheld

/-- A command that opens a session begins the history of it. The session is put in place unless the
held code crashes its machine. -/
theorem history_opened (hx : Course c bound h command events h') (hh : h.Consistent)
    (hm : c.makes command = true) (hheld : ∀ source, h.held = some source → Source source) :
    ∃ lang options s t, c.openSession lang options = .ok s ∧
      s.History c.machine Source (h.strides c bound command) events t ∧
      (h'.session = some t ∨ h'.session = h.session ∧
        ∃ message, s.heldResult c.machine h.inherited = .error (.crash message)) := by
  have hinherited : ∀ source, h.inherited = some source → Source source :=
    fun source hi => hheld source (Host.held_of_inherited hi)
  have hgiven {s : Session σ} : s.History c.machine Source [] (h.abandonEvents "setLanguage") s :=
    .of_outward (h.isOutward_abandonEvents _)
  cases hx with
  | opened session loads =>
    exact ⟨_, _, _, _, session, (hgiven.trans (Session.history_heldEvents hinherited)).shown,
      .inl rfl⟩
  | openCrashed session crash =>
    exact ⟨_, _, _, _, session, hgiven.trans (Session.history_heldEvents hinherited),
      .inr ⟨h.released_session, _, crash⟩⟩
  | refused dispatched idle kept =>
    -- A language that can be opened is not refused.
    cases command with
    | setLanguage lang options =>
      cases Handling.refusal_of_dispatch hh dispatched with
      | language opening => rw [Catalogue.makes, opening] at hm; cases hm
    | loadCode source => cases hm
    | press button args => cases hm
    | unblock value popStatus => cases hm
  | crashed question dispatched operation => rcases question with rfl | rfl <;> cases hm
  | minified session answer => cases hm
  | fromText session answer => cases hm
  | held busy => cases hm
  | loaded operation session => cases hm
  | reset session loads => cases hm
  | resetCrashed session crash => cases hm
  | worked effort =>
    cases Effort.origin effort with
    | question question busy labels opening rest => rcases question with rfl | rfl <;> cases hm
    | run idle session operation labels opening => cases hm
    | step idle session supported operation labels opening => cases hm
    | answer busy labels opening => cases hm

end Course

/-! ## Runs of commands -/

/-- What is left of a row, with one entry for each command, that is to do with the session opened
last. -/
def Catalogue.latest (c : Catalogue σ) (seen : List α) : List Command → List (List α) → List α
  | command :: commands, entry :: row =>
    c.latest (if c.makes command then entry else seen ++ entry) commands row
  | _, _ => seen

/-- The sessions from which the machine takes a step, for each of a run of commands. -/
def Host.stridesAll (c : Catalogue σ) (bound : Nat) :
    List Command → Host σ → List (List (Session σ))
  | [], _ => []
  | command :: rest, h =>
    h.strides c bound command ::
      match h.handle c bound command with
      | none => []
      | some (_, h') => stridesAll c bound rest h'

/-- A session that the catalogue has opened and that has gone through something since. -/
def Session.Stems (c : Catalogue σ) (strides : List (Session σ)) (events : List Event)
    (s : Session σ) : Prop :=
  ∃ lang options opened, c.openSession lang options = .ok opened ∧
    opened.History c.machine (fun _ => True) strides events s

/-- A command adds to what the session in use stems from, or begins it anew. -/
theorem Course.stems (hc : c.Reliable Good waits) (hh : h.Consistent)
    (hx : Course c bound h command events h') {seen : List Event}
    (hstems : ∀ s, h.session = some s → s.Stems c strides seen) :
    ∀ s, h'.session = some s →
      s.Stems c
        (if c.makes command then h.strides c bound command
          else strides ++ h.strides c bound command)
        (if c.makes command then events else seen ++ events) := by
  intro t ht
  cases hm : c.makes command with
  | true =>
    obtain ⟨lang, options, opened, t', hopened, hhistory, hplace⟩ :=
      hx.history_opened hh hm fun _ _ => trivial
    rcases hplace with ht' | ⟨-, message, hcrash⟩
    · obtain rfl := Option.some.inj (ht.symm.trans ht')
      exact ⟨lang, options, opened, hopened, hhistory⟩
    · exact absurd hcrash (Session.heldResult_ne_crash hc.lawful (hc.opens hopened).good _ _)
  | false =>
    cases hs : h.session with
    | none =>
      rw [(hx.outward hs hm).1] at ht
      cases ht
    | some s =>
      obtain ⟨lang, options, opened, hopened, hbefore⟩ := hstems s hs
      obtain ⟨t', ht', hhistory⟩ :=
        hx.history hh hs hm (fun _ _ => trivial) fun _ _ => trivial
      obtain rfl := Option.some.inj (ht.symm.trans ht')
      exact ⟨lang, options, opened, hopened, hbefore.trans hhistory⟩

namespace Host

/-- A run of commands adds to what the session in use stems from, or begins it anew. -/
theorem stems_of_handleAll (hc : c.Reliable Good waits) {commands : List Command}
    {steps : List (List Event)} {seen : List Event} (hh : h.Consistent)
    (hstems : ∀ s, h.session = some s → s.Stems c strides seen)
    (hrun : h.handleAll c bound commands = some (steps, h')) :
    ∀ s, h'.session = some s →
      s.Stems c (c.latest strides commands (h.stridesAll c bound commands))
        (c.latest seen commands steps) := by
  induction commands generalizing h strides seen steps with
  | nil =>
    cases hrun
    exact hstems
  | cons command rest ih =>
    obtain ⟨events, h₁, more, hx, hrest, rfl⟩ := handleAll_cons hrun
    have hcourse := handle_course hh hx
    rw [stridesAll, hx]
    exact ih (hcourse.consistent hh) (hcourse.stems hc hh hstems) hrest

/-- After a run of commands on a new host, the events since the session in use was opened are those
of its history. -/
theorem handleAll_history (hc : c.Reliable Good waits) {limit : Option Nat}
    {commands : List Command} {steps : List (List Event)}
    (hrun : (Host.new limit).handleAll c bound commands = some (steps, h))
    (hs : h.session = some s) :
    s.Stems c (c.latest [] commands ((Host.new limit).stridesAll c bound commands))
      (c.latest [] commands steps) :=
  stems_of_handleAll hc (new_consistent limit) (by rintro _ ⟨⟩) hrun s hs

end Host

end EsotericHost
