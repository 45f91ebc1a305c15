import EsotericHost.Catalogue.Standard
import EsotericHost.Proofs.Host.Dispatch

/-!
# The invariant of the host

A host stays consistent whatever its client asks of it and whatever the machine does, and the label
that its client was shown last is the one on top. Each course of a command preserves both
(`Course.consistent`, `Course.shows`), and by induction so does a run of commands.

On the way: where an operation comes from that the machine works on (`Effort.Origin`), and that a
machine can only cause prints and updates (`Event.IsOfMachine`).
-/

namespace EsotericHost

variable {σ α : Type} {c : Catalogue σ} {bound : Nat} {h h' : Host σ} {command : Command}
  {events : List Event}

/-! ## Events of a machine -/

/-- The events that a machine can cause. -/
def Event.IsOfMachine : Event → Prop
  | .print _ | .update _ => True
  | _ => False

/-- The effects of a machine are prints and updates. -/
theorem Session.isOfMachine_of_mem_told {m : Machine σ} {act : Act Upset σ α} {s : Session σ}
    {e : Event} (he : e ∈ s.told m act) : e.IsOfMachine := by
  unfold told events at he
  obtain ⟨effect, -, he⟩ := List.mem_flatMap.mp he
  cases effect with
  | print text =>
    obtain rfl := List.mem_singleton.mp he
    exact trivial
  | notify notice =>
    simp only [Effect.events] at he
    split at he
    · obtain ⟨u, -, rfl⟩ := List.mem_map.mp he
      exact trivial
    · cases he

/-- A run adds only events of the machine. -/
theorem Session.isOfMachine_of_mem_run {m : Machine σ} {bound : Nat} {budget budget' : Budget}
    {s s' : Session σ} {out out' : Transcript} {answer : Except Upset Outcome}
    (hr : s.run m bound budget out = some (answer, budget', s', out'))
    (ho : ∀ e ∈ out.toList, e.IsOfMachine) {e : Event} (he : e ∈ out'.toList) :
    e.IsOfMachine := by
  -- One step adds only what it tells.
  have hstep (k : Session σ) (before : Transcript) (hb : ∀ e ∈ before.toList, e.IsOfMachine) :
      ∀ e ∈ (before ++ k.told m m.step).toList, e.IsOfMachine := by
    intro e he
    rw [Array.toList_appendList, List.mem_append] at he
    exact he.elim (hb e) isOfMachine_of_mem_told
  -- What holds of the transcript before every instruction holds before the last one.
  obtain ⟨last, before, hb, -, rfl, -⟩ :=
    run_ends (P := fun _ out => ∀ e ∈ out.toList, e.IsOfMachine) hr ho hstep
  exact hstep last before hb e he

/-- The work of a machine causes only events of the machine. -/
theorem Session.isOfMachine_of_toil {m : Machine σ} {op : Operation} {s : Session σ}
    {w : Stretch σ} (hw : s.toil m bound op = some w) {e : Event} (he : e ∈ w.events) :
    e.IsOfMachine := by
  unfold toil at hw
  split at hw
  · obtain ⟨⟨answer, budget, s', out⟩, hr, rfl⟩ := Option.map_eq_some_iff.mp hw
    exact isOfMachine_of_mem_run hr (fun e he => nomatch he) he
  · cases hw
    exact isOfMachine_of_mem_told he

/-- The same holds for work after a call that prepares it. -/
theorem Session.isOfMachine_of_toilAfter {m : Machine σ} {op : Operation} {s : Session σ}
    {error : Fault → HostError} {act : Act Upset σ Unit} {next : Session σ → Option (Stretch σ)}
    {w : Stretch σ} (hw : s.toilAfter m op error act next = some w)
    (hn : ∀ w', next (s.left act) = some w' → ∀ e ∈ w'.events, e.IsOfMachine)
    {e : Event} (he : e ∈ w.events) : e.IsOfMachine := by
  unfold toilAfter at hw
  split at hw
  · obtain ⟨w', hw', rfl⟩ := Option.map_eq_some_iff.mp hw
    rcases List.mem_append.mp he with he | he
    · exact isOfMachine_of_mem_told he
    · exact hn w' hw' e he
  · cases hw
    exact isOfMachine_of_mem_told he

/-! ## Where operations come from -/

namespace Effort

/-- Where an operation comes from that the machine works on in the course of a command, and what
the host does before the machine works. -/
inductive Origin (h : Host σ) (e : Effort σ) : Command → Prop where
  /-- A run begins. -/
  | run {args : ButtonArgs} {s : Session σ} (idle : h.operation = none)
    (session : h.session = some s) (operation : e.operation = h.beginning .run s.lang)
    (labels : e.labels = h.activity.push (Task.run.label s.lang))
    (opening : e.opening =
      [.print s!"\n> interpreter execute --lang {s.lang} --file ./userInput\n",
        .status (Task.run.label s.lang)]) :
    Origin h e (.press .interpret args)
  /-- A single step begins. -/
  | step {args : ButtonArgs} {s : Session σ} (idle : h.operation = none)
    (session : h.session = some s) (supported : s.capabilities.step)
    (operation : e.operation = h.beginning .step s.lang)
    (labels : e.labels = h.activity.push (Task.step.label s.lang))
    (opening : e.opening = [.status (Task.step.label s.lang)]) :
    Origin h e (.press .step args)
  /-- The operation in flight goes on with an answer to its request. -/
  | answer {value : Json} {popStatus : Bool} (busy : h.operation = some e.operation)
    (labels : e.labels = h.answeredLabels popStatus)
    (opening : e.opening = if popStatus then [(h.answeredLabels popStatus).report] else []) :
    Origin h e (.unblock value popStatus)
  /-- The operation in flight ends because the machine crashes over a question. -/
  | question {button : Button} {args : ButtonArgs} {message : Crash}
    (question : button = .minify ∨ button = .textToCode) (busy : h.operation = some e.operation)
    (labels : e.labels = h.activity) (opening : e.opening = [])
    (rest : e.stretch.rest = .ends (.failed (.ofCrash message))) :
    Origin h e (.press button args)

/-- Before the work the host prints and shows labels, and tells nothing else. -/
theorem Origin.opening_cases {e : Effort σ} {x : Event} (ho : Origin h e command)
    (hx : x ∈ e.opening) : (∃ text, x = .print text) ∨ ∃ label, x = .status label := by
  cases ho with
  | run idle session operation labels opening =>
    rw [opening] at hx
    rcases List.mem_cons.mp hx with rfl | hx
    · exact .inl ⟨_, rfl⟩
    · exact .inr ⟨_, List.mem_singleton.mp hx⟩
  | step idle session supported operation labels opening =>
    rw [opening] at hx
    exact .inr ⟨_, List.mem_singleton.mp hx⟩
  | answer busy labels opening =>
    rw [opening] at hx
    split at hx
    · exact .inr ⟨_, List.mem_singleton.mp hx⟩
    · cases hx
  | question question busy labels opening rest =>
    rw [opening] at hx
    cases hx

/-- Work that begins an operation has the operation, the labels and the events of its begin. -/
theorem of_beginEffort {task : Task} {s : Session σ} {echo : List Event}
    {stretch : Operation → Option (Stretch σ)} {e : Effort σ}
    (he : h.beginEffort task s echo stretch = some e) :
    e.operation = h.beginning task s.lang ∧ e.labels = h.activity.push (task.label s.lang) ∧
      e.opening = echo ++ [.status (task.label s.lang)] ∧
      stretch (h.beginning task s.lang) = some e.stretch := by
  obtain ⟨w, hw, rfl⟩ := Option.map_eq_some_iff.mp he
  exact ⟨rfl, rfl, rfl, hw⟩

/-- A crash ends the operation in flight and nothing else. -/
theorem of_crashEffort {s : Session σ} {supported : Bool}
    {answer : Except Crash (Option String)} {e : Effort σ}
    (he : h.crashEffort s supported answer = some e) :
    ∃ op message, h.operation = some op ∧
      e = ⟨op, h.activity, [], ⟨.ends (.failed (.ofCrash message)), s, op.budget, []⟩⟩ := by
  unfold Host.crashEffort at he
  split at he
  · cases he
    exact ⟨_, _, ‹_›, rfl⟩
  · cases he

/-- Work on an operation has an origin. -/
theorem origin {e : Effort σ} (he : h.effort? c bound command = some e) : Origin h e command := by
  match command with
  | .press .interpret args =>
    simp only [Host.effort?] at he
    split at he
    · obtain ⟨hop, hl, ho, -⟩ := of_beginEffort he
      exact .run ‹_› ‹_› hop hl ho
    · cases he
  | .press .step args =>
    simp only [Host.effort?] at he
    split at he
    · split at he
      · obtain ⟨hop, hl, ho, -⟩ := of_beginEffort he
        exact .step ‹_› ‹_› ‹_› hop hl ho
      · cases he
    · cases he
  | .press .minify args =>
    obtain ⟨s, -, he⟩ := Option.bind_eq_some_iff.mp he
    obtain ⟨op, message, hop, rfl⟩ := of_crashEffort he
    exact .question (.inl rfl) hop rfl rfl rfl
  | .press .textToCode args =>
    obtain ⟨s, -, he⟩ := Option.bind_eq_some_iff.mp he
    obtain ⟨op, message, hop, rfl⟩ := of_crashEffort he
    exact .question (.inr rfl) hop rfl rfl rfl
  | .unblock value popStatus =>
    simp only [Host.effort?] at he
    split at he
    · obtain ⟨w, -, rfl⟩ := Option.map_eq_some_iff.mp he
      exact .answer ‹_› rfl rfl
    · cases he
  | .press .reset args => cases he
  | .setLanguage lang options => cases he
  | .loadCode source => cases he

/-- The machine's part of the work causes only events of the machine. -/
theorem isOfMachine {e : Effort σ} (he : h.effort? c bound command = some e) :
    ∀ x ∈ e.stretch.events, x.IsOfMachine := by
  intro x hx
  match command with
  | .press .interpret args =>
    simp only [Host.effort?] at he
    split at he
    · obtain ⟨-, -, -, hw⟩ := of_beginEffort he
      split at hw
      · exact Session.isOfMachine_of_toil hw hx
      · exact Session.isOfMachine_of_toilAfter hw
          (fun w' hw' x hx => Session.isOfMachine_of_toil hw' hx) hx
    · cases he
  | .press .step args =>
    simp only [Host.effort?] at he
    split at he
    · split at he
      · obtain ⟨-, -, -, hw⟩ := of_beginEffort he
        exact Session.isOfMachine_of_toil hw hx
      · cases he
    · cases he
  | .press .minify args =>
    obtain ⟨s, -, he⟩ := Option.bind_eq_some_iff.mp he
    obtain ⟨op, message, hop, rfl⟩ := of_crashEffort he
    cases hx
  | .press .textToCode args =>
    obtain ⟨s, -, he⟩ := Option.bind_eq_some_iff.mp he
    obtain ⟨op, message, hop, rfl⟩ := of_crashEffort he
    cases hx
  | .unblock value popStatus =>
    simp only [Host.effort?] at he
    split at he
    · obtain ⟨w, hw, rfl⟩ := Option.map_eq_some_iff.mp he
      refine Session.isOfMachine_of_toilAfter hw (fun w' hw' x hx => ?_) hx
      split at hw'
      · exact Session.isOfMachine_of_toil hw' hx
      · cases hw'
        cases hx
    · cases he
  | .press .reset args => cases he
  | .setLanguage lang options => cases he
  | .loadCode source => cases he

end Effort

/-! ## The label that the client shows -/

/-- The label that a report of the activity brings. -/
def Event.label? : Event → Option String
  | .status label => some label
  | _ => none

/-- The label that a client shows after events, if it showed the given one before. -/
def shownAfter (label : String) (events : List Event) : String :=
  events.foldl (fun label e => e.label?.getD label) label

/-- Events shown in two parts. -/
theorem shownAfter_append (label : String) (first second : List Event) :
    shownAfter label (first ++ second) = shownAfter (shownAfter label first) second :=
  List.foldl_append

/-- Events without a report of the activity leave the label as it is. -/
theorem shownAfter_of_quiet {label : String} (hq : ∀ e ∈ events, e.label? = none) :
    shownAfter label events = label := by
  induction events with
  | nil => rfl
  | cons e events ih =>
    have he : e.label? = none := hq e List.mem_cons_self
    have hrest : shownAfter label events = label :=
      ih fun e he => hq e (List.mem_cons_of_mem _ he)
    change shownAfter (e.label?.getD label) events = label
    rw [he]
    exact hrest

/-- A machine does not report activities. -/
theorem Event.IsOfMachine.label?_eq_none {e : Event} (he : e.IsOfMachine) : e.label? = none := by
  cases e <;> first | rfl | exact he.elim

/-- A stack that is cut down label by label shows the label that is on top at the end. -/
theorem Activity.shownAfter_unwindReports (a : Activity) (depth : Nat) :
    shownAfter a.top (a.unwindReports depth) = (a.unwind depth).top := by
  cases hn : a.depth - depth with
  | zero =>
    unfold unwindReports unwind
    rw [hn]
    rfl
  | succ n =>
    -- Only the last report counts, and it is that of the stack at the depth.
    have hlast : a.depth - (n + 1) = min depth a.depth := by omega
    -- A depth that is not reached is no depth to cut down to.
    have hmin : a.unwind (min depth a.depth) = a.unwind depth := by
      unfold unwind
      congr 2
      omega
    unfold unwindReports
    rw [hn, List.range_succ, List.map_append, shownAfter_append, List.map_singleton, hlast, hmin]
    rfl

/-- The report of a failed load shows no label. -/
theorem Session.quiet_heldEvents (m : Machine σ) (s : Session σ) (held : Option String) :
    ∀ e ∈ s.heldEvents m held, e.label? = none := by
  intro e he
  rcases List.mem_append.mp he with he | he
  · cases held with
    | none => cases he
    | some source => exact (isOfMachine_of_mem_told he).label?_eq_none
  · unfold loadReport at he
    split at he
    · cases he
    · obtain rfl := List.mem_singleton.mp he
      rfl
    · obtain rfl := List.mem_singleton.mp he
      rfl

/-- The report of the end of an operation shows no label. -/
theorem quiet_endReport (task : Task) (ending : Ending) :
    ∀ e ∈ endReport task ending, e.label? = none := by
  intro e he
  unfold endReport at he
  rcases List.mem_append.mp he with he | he
  · obtain ⟨error, -, rfl⟩ := Option.map_eq_some_iff.mp (Option.mem_toList.mp he)
    rfl
  · cases task with
    | run =>
      obtain rfl := List.mem_singleton.mp he
      rfl
    | step =>
      dsimp only at he
      split at he
      · cases he
      · obtain rfl := List.mem_singleton.mp he
        rfl

/-- The events of a reset show no label. -/
theorem Host.quiet_resetEvents (m : Machine σ) (s : Session σ) :
    ∀ e ∈ Host.resetEvents m s, e.label? = none := by
  intro e he
  rcases List.mem_append.mp he with he | he
  · exact (Session.isOfMachine_of_mem_told he).label?_eq_none
  · split at he <;>
    · obtain rfl := List.mem_singleton.mp he
      rfl

/-- Giving an operation up shows the label under it. -/
theorem Host.shownAfter_abandonEvents (h : Host σ) (reason : String) :
    shownAfter h.activity.top (h.abandonEvents reason) = h.released.activity.top := by
  unfold abandonEvents released
  cases h.operation with
  | none => rfl
  | some op =>
    rw [shownAfter_append, h.activity.shownAfter_unwindReports]
    rfl

namespace Effort

variable {e : Effort σ}

/-- The events before the machine works show the label that is on top while it works. -/
theorem Origin.shows (ho : Origin h e command) :
    shownAfter h.activity.top e.opening = e.labels.top := by
  cases ho with
  | run idle session operation labels opening => rw [labels, opening]; rfl
  | step idle session supported operation labels opening => rw [labels, opening]; rfl
  | answer busy labels opening =>
    rw [labels, opening]
    unfold Host.answeredLabels
    split <;> rfl
  | question question busy labels opening rest => rw [labels, opening]; rfl

/-- A machine works with a label on top and on an operation that began without any. -/
theorem Origin.depths (hh : h.Consistent) (ho : Origin h e command) :
    e.operation.depth = 0 ∧ 1 ≤ e.labels.depth := by
  -- With an operation in flight there are its label and that of its request.
  have hbusy (op : Operation) (hop : h.operation = some op) : 2 ≤ h.activity.depth := by
    obtain ⟨kind, hk⟩ := Option.isSome_iff_exists.mp (hh.busy_iff.mp (by rw [hop]; rfl))
    exact (hh.busy_labels kind hk).1
  cases ho with
  | run idle session operation labels opening =>
    rw [operation, labels]
    have hd : h.activity = .idle := hh.idle_labels idle
    exact ⟨by simp only [Host.beginning, hd]; rfl, Nat.succ_le_succ (Nat.zero_le _)⟩
  | step idle session supported operation labels opening =>
    rw [operation, labels]
    have hd : h.activity = .idle := hh.idle_labels idle
    exact ⟨by simp only [Host.beginning, hd]; rfl, Nat.succ_le_succ (Nat.zero_le _)⟩
  | answer busy labels opening =>
    refine ⟨hh.depth_eq _ busy, ?_⟩
    have hd := hbusy _ busy
    rw [labels]
    unfold Host.answeredLabels
    -- An answer takes one label away at most, and there were two.
    split
    · simp only [Activity.depth, Activity.pop, List.length_tail] at hd ⊢
      omega
    · omega
  | question question busy labels opening rest =>
    refine ⟨hh.depth_eq _ busy, ?_⟩
    have hd := hbusy _ busy
    rw [labels]
    omega

end Effort

/-! ## One command -/

/-- Nothing is left of the labels of an operation that began without any. -/
theorem Activity.unwind_zero (a : Activity) : a.unwind 0 = .idle := by
  unfold unwind depth
  rw [Nat.sub_zero, List.drop_length]
  rfl

/-- A consistent host without its operation is idle, without labels and without a request. -/
theorem Host.Consistent.released_activity (hh : h.Consistent) : h.released.activity = .idle := by
  unfold released
  cases hop : h.operation with
  | none => exact hh.idle_labels hop
  | some op =>
    change h.activity.unwind op.depth = .idle
    rw [hh.depth_eq op hop, Activity.unwind_zero]

/-- A host is consistent if it is idle and holds no code back from a session. -/
theorem Host.Consistent.of_idle (hop : h.operation = none) (hreq : h.request = none)
    (hact : h.activity = .idle) (hheld : h.held.isSome → h.session = none)
    (hout : h.transcript = #[]) : h.Consistent where
  busy_iff := by simp only [hop, hreq, Option.isSome_none]
  idle_labels _ := hact
  busy_labels kind hk := by rw [hreq] at hk; cases hk
  busy_session hb := by rw [hop] at hb; cases hb
  held_back hb := .inr (hheld hb)
  depth_eq op ho := by rw [hop] at ho; cases ho
  delivered := hout

/-- A host that waits for input is consistent if the labels of the request and of the operation
are there. -/
theorem Host.Consistent.of_busy {op : Operation} {kind : InputKind} {s : Session σ}
    {labels : Activity} (hop : h.operation = some op) (hreq : h.request = some kind)
    (hs : h.session = some s) (hact : h.activity = labels.push kind.label)
    (hlabels : 1 ≤ labels.depth) (hdepth : op.depth = 0) (hout : h.transcript = #[]) :
    h.Consistent where
  busy_iff := by rw [hop, hreq]; exact ⟨fun _ => rfl, fun _ => rfl⟩
  idle_labels hi := by rw [hop] at hi; cases hi
  busy_labels k hk := by
    rw [hreq] at hk
    cases hk
    rw [hact]
    -- The label of the request lies on at least one that was there before.
    exact ⟨Nat.succ_le_succ hlabels, rfl⟩
  busy_session _ := by rw [hs]; rfl
  held_back _ := .inl (by rw [hop]; rfl)
  depth_eq o ho := by
    rw [hop] at ho
    cases ho
    exact hdepth
  delivered := hout

/-- A consistent host can be given another session, or hold code back, as long as it does not hold
code back from a session that is free. -/
theorem Host.Consistent.with_session (hh : h.Consistent) {session : Option (Session σ)}
    {held : Option String} (hs : h.operation.isSome → session.isSome)
    (hheld : held.isSome → h.operation.isSome ∨ session = none) :
    ({ h with session, held } : Host σ).Consistent :=
  { hh with busy_session := hs, held_back := hheld }

/-- Work on an operation leaves a consistent host. -/
theorem Effort.leaves_consistent {e : Effort σ} (hh : h.Consistent)
    (he : h.effort? c bound command = some e) : (e.leaves c.machine h).Consistent := by
  obtain ⟨hdepth, hlabels⟩ := (origin he).depths hh
  unfold leaves
  cases e.stretch.rest with
  | waits kind => exact .of_busy rfl rfl rfl rfl hlabels hdepth hh.delivered
  | ends ending =>
    refine .of_idle rfl rfl ?_ (fun hb => nomatch hb) hh.delivered
    change e.labels.unwind e.operation.depth = .idle
    rw [hdepth, Activity.unwind_zero]

/-- Every course of a command leaves a consistent host. -/
theorem Course.consistent (hh : h.Consistent) (hc : Course c bound h command events h') :
    h'.Consistent := by
  have hout : h.released.transcript = #[] := h.released_transcript.trans hh.delivered
  cases hc with
  | refused dispatched idle kept => exact hh
  | minified session answer => exact hh
  | fromText session answer => exact hh
  | crashed question dispatched operation => exact hh
  | held busy => exact hh.with_session hh.busy_session fun _ => busy
  | loaded operation session =>
    refine hh.with_session (fun _ => rfl) fun hb => ?_
    -- Code was held back only from an operation, since there is a session.
    rcases hh.held_back hb with hbusy | hfree
    · exact .inl hbusy
    · rw [session] at hfree
      cases hfree
  | opened session loads =>
    exact .of_idle h.released_operation hh.released_request hh.released_activity
      (fun hb => nomatch hb) hout
  | openCrashed session crash =>
    exact .of_idle h.released_operation hh.released_request hh.released_activity
      (fun hb => nomatch hb) hout
  | reset session loads =>
    exact .of_idle h.released_operation hh.released_request hh.released_activity
      (fun hb => nomatch hb) hout
  | resetCrashed session crash =>
    exact .of_idle h.released_operation hh.released_request hh.released_activity
      (fun hb => nomatch hb) hout
  | worked effort => exact Effort.leaves_consistent hh effort

/-- The events of work show the label that is on top after it. -/
theorem Effort.shows {e : Effort σ} (he : h.effort? c bound command = some e) :
    shownAfter h.activity.top (e.events c.machine h.held) =
      (e.leaves c.machine h).activity.top := by
  have hquiet : shownAfter e.labels.top e.stretch.events = e.labels.top :=
    shownAfter_of_quiet fun x hx => (isOfMachine he x hx).label?_eq_none
  unfold events leaves
  rw [shownAfter_append, shownAfter_append, (origin he).shows, hquiet]
  cases e.stretch.rest with
  | waits kind => rfl
  | ends ending =>
    dsimp only
    -- Only the labels that are taken away are reported at the end.
    rw [shownAfter_append, shownAfter_append, Activity.shownAfter_unwindReports,
      shownAfter_of_quiet (quiet_endReport _ _),
      shownAfter_of_quiet (Session.quiet_heldEvents _ _ _)]

/-- The events of every course show the label that is on top after it. -/
theorem Course.shows (hc : Course c bound h command events h') :
    shownAfter h.activity.top events = h'.activity.top := by
  cases hc with
  | refused dispatched idle kept => rfl
  | minified session answer => rfl
  | fromText session answer => rfl
  | crashed question dispatched operation => rfl
  | held busy => rfl
  | loaded operation session => exact shownAfter_of_quiet (Session.quiet_heldEvents _ _ _)
  | opened session loads =>
    rw [shownAfter_append, shownAfter_append, h.shownAfter_abandonEvents,
      shownAfter_of_quiet (Session.quiet_heldEvents _ _ _)]
    rfl
  | openCrashed session crash =>
    rw [shownAfter_append, h.shownAfter_abandonEvents,
      shownAfter_of_quiet (Session.quiet_heldEvents _ _ _)]
    rfl
  | reset session loads =>
    rw [shownAfter_append, shownAfter_append, h.shownAfter_abandonEvents,
      shownAfter_of_quiet (Session.quiet_heldEvents _ _ _),
      shownAfter_of_quiet (Host.quiet_resetEvents _ _)]
    rfl
  | resetCrashed session crash =>
    rw [shownAfter_append, h.shownAfter_abandonEvents,
      shownAfter_of_quiet (Session.quiet_heldEvents _ _ _)]
    rfl
  | worked effort => exact Effort.shows effort

/-! ## A run of commands -/

/-- A new host is consistent. -/
theorem Host.new_consistent (limit : Option Nat) : (Host.new limit : Host σ).Consistent :=
  .of_idle rfl rfl rfl (fun hb => nomatch hb) rfl

/-- A run of commands that has an answer begins with a command that has one. -/
theorem Host.handleAll_cons {rest : List Command} {steps : List (List Event)}
    (hrun : h.handleAll c bound (command :: rest) = some (steps, h')) :
    ∃ events h₁ more, h.handle c bound command = some (events, h₁) ∧
      h₁.handleAll c bound rest = some (more, h') ∧ steps = events :: more := by
  unfold handleAll at hrun
  cases hx : h.handle c bound command with
  | none =>
    rw [hx] at hrun
    cases hrun
  | some answer =>
    rw [hx] at hrun
    obtain ⟨⟨more, h₂⟩, hrest, hsteps⟩ := Option.map_eq_some_iff.mp hrun
    cases hsteps
    exact ⟨answer.1, answer.2, more, rfl, hrest, rfl⟩

/-- One command more after a run of commands. -/
theorem Host.handleAll_concat {commands : List Command} {steps : List (List Event)}
    {events : List Event} {h'' : Host σ}
    (hrun : h.handleAll c bound commands = some (steps, h'))
    (hx : h'.handle c bound command = some (events, h'')) :
    h.handleAll c bound (commands ++ [command]) = some (steps ++ [events], h'') := by
  induction commands generalizing h steps with
  | nil =>
    cases hrun
    rw [List.nil_append, handleAll, hx]
    rfl
  | cons first rest ih =>
    obtain ⟨opening, h₁, more, hfirst, hrest, rfl⟩ := handleAll_cons hrun
    rw [List.cons_append, handleAll, hfirst]
    dsimp only
    rw [ih hrest]
    rfl

/-- What every command preserves holds after a run of commands, and what holds of the events of
every command holds of those of the run. -/
theorem Host.handleAll_events {P : Host σ → Prop} {E : Event → Prop} {commands : List Command}
    {steps : List (List Event)}
    (hstep : ∀ h command events h', P h → h.handle c bound command = some (events, h') →
      P h' ∧ ∀ e ∈ events, E e)
    (hrun : h.handleAll c bound commands = some (steps, h')) (hp : P h) :
    P h' ∧ ∀ e ∈ steps.flatten, E e := by
  induction commands generalizing h steps with
  | nil =>
    cases hrun
    exact ⟨hp, fun e he => nomatch he⟩
  | cons command rest ih =>
    obtain ⟨events, h₁, more, hx, hrest, rfl⟩ := handleAll_cons hrun
    obtain ⟨hp₁, hevents⟩ := hstep _ _ _ _ hp hx
    obtain ⟨hp₂, hmore⟩ := ih hrest hp₁
    refine ⟨hp₂, fun e he => ?_⟩
    rw [List.flatten_cons] at he
    exact (List.mem_append.mp he).elim (hevents e) (hmore e)

/-- What every command preserves holds after a run of commands. -/
theorem Host.handleAll_preserves {P : Host σ → Prop} {commands : List Command}
    {steps : List (List Event)}
    (hstep : ∀ h command events h', P h → h.handle c bound command = some (events, h') → P h')
    (hrun : h.handleAll c bound commands = some (steps, h')) (hp : P h) : P h' :=
  (handleAll_events (E := fun _ => True)
    (fun h command events h' hp hx => ⟨hstep h command events h' hp hx, fun _ _ => trivial⟩)
    hrun hp).1

/-- A run of commands keeps a host consistent. -/
theorem Host.handleAll_consistent {commands : List Command} {steps : List (List Event)}
    (hh : h.Consistent) (hrun : h.handleAll c bound commands = some (steps, h')) :
    h'.Consistent :=
  handleAll_preserves (fun _ _ _ _ hh hx => (handle_course hh hx).consistent hh) hrun hh

/-- A run of commands shows the label that is on top after it. -/
theorem Host.handleAll_shows {commands : List Command} {steps : List (List Event)}
    (hh : h.Consistent) (hrun : h.handleAll c bound commands = some (steps, h')) :
    shownAfter h.activity.top steps.flatten = h'.activity.top := by
  induction commands generalizing h steps with
  | nil =>
    cases hrun
    rfl
  | cons command rest ih =>
    obtain ⟨events, h₁, more, hx, hrest, rfl⟩ := handleAll_cons hrun
    have hcourse := handle_course hh hx
    rw [List.flatten_cons, shownAfter_append, hcourse.shows]
    exact ih (hcourse.consistent hh) hrest

/-- After every run of commands, with any machines that may be plugged in: an operation is in flight
as long as a request is open; an idle host has no labels, and a busy one has at least two with that
of the open request on top; a busy host has a session; code is held back only while the host is busy
or has no session; all events have been delivered; and the last report of the activity shows the
label on top. -/
theorem Host.handleAll_invariant (c : Catalogue σ) (bound : Nat) (limit : Option Nat)
    (commands : List Command) {steps : List (List Event)} {h : Host σ}
    (hrun : (Host.new limit).handleAll c bound commands = some (steps, h)) :
    (h.operation.isSome ↔ h.request.isSome) ∧
    (h.operation = none → h.activity.labels = []) ∧
    (h.operation.isSome → ∃ kind, h.request = some kind ∧ 2 ≤ h.activity.labels.length ∧
      h.activity.labels.head? = some kind.label) ∧
    (h.operation.isSome → h.session.isSome) ∧
    (h.held.isSome → h.operation.isSome ∨ h.session = none) ∧
    h.transcript = #[] ∧
    shownAfter "-" steps.flatten = h.activity.labels.head?.getD "-" := by
  have hh : h.Consistent := handleAll_consistent (new_consistent limit) hrun
  refine ⟨hh.busy_iff, fun hop => by rw [hh.idle_labels hop]; rfl, fun hbusy => ?_,
    hh.busy_session, hh.held_back, hh.delivered,
    handleAll_shows (new_consistent limit) hrun⟩
  obtain ⟨kind, hkind⟩ := Option.isSome_iff_exists.mp (hh.busy_iff.mp hbusy)
  obtain ⟨hdepth, htop⟩ := hh.busy_labels kind hkind
  refine ⟨kind, hkind, hdepth, ?_⟩
  cases hl : h.activity.labels with
  | nil => simp [Activity.depth, hl] at hdepth
  | cons label rest =>
    unfold Activity.top at htop
    rw [hl] at htop
    rw [← htop]
    rfl

/-- A program that reads a byte leaves the host waiting, with the label of the request shown. -/
theorem Host.handleAll_invariant_reading :
    ∃ steps h, (Host.new none).handleAll (Catalogue.standard fun _ => .right) 5
        [.setLanguage "length" .empty, .press .interpret ⟨some "xxxxxxxxx", none⟩] =
          some (steps, h) ∧
      h.request = some .byte ∧ h.operation.isSome ∧ h.session.isSome ∧
      shownAfter "-" steps.flatten = "Requesting GETCH" := by
  have hbyte : (((Host.new none).handleAll (Catalogue.standard fun _ => .right) 5
      [.setLanguage "length" .empty, .press .interpret ⟨some "xxxxxxxxx", none⟩]).bind
        fun run => run.2.request) = some .byte := by decide +kernel
  obtain ⟨⟨steps, h⟩, hrun, hreq⟩ := Option.bind_eq_some_iff.mp hbyte
  obtain ⟨hbusy, -, hlabels, hsession, -, -, hshown⟩ := handleAll_invariant _ 5 none _ hrun
  have hop : h.operation.isSome := hbusy.mpr (by rw [hreq]; rfl)
  obtain ⟨kind, hkind, -, htop⟩ := hlabels hop
  obtain rfl : kind = .byte := Option.some.inj (hkind.symm.trans hreq)
  refine ⟨steps, h, hrun, hreq, hop, hsession hop, ?_⟩
  rw [hshown, htop]
  rfl

end EsotericHost
