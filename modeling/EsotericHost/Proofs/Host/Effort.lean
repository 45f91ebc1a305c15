import EsotericHost.Proofs.Host.Parts

/-!
# Work on an operation

A command that begins an operation, or goes on with one, makes the machine work on it. The work
comes to rest when the machine waits for input or when the operation ends. `Host.effort?` says for
each command what that work is, if it makes the machine work at all: the operation, the labels at
the end of the work, the events before the work, and the work itself.

The main statements are that `drive` carries such work out (`carriesOut_drive`), also after a call
of the machine that prepares it (`carriesOut_call`).
-/

namespace EsotericHost

variable {σ α β : Type}

/-- How work on an operation comes to rest. -/
inductive Rest where
  | waits (kind : InputKind)
  | ends (ending : Ending)

/-- How an operation that fails by an upset of the machine ends. -/
def Ending.ofUpset (error : Fault → HostError) : Upset → Ending
  | .fault fault => .failed (error fault)
  | .crash message => .failed (.ofCrash message)

/-- The rest that an answer of the machine brings. -/
def Rest.ofAnswer (lang : String) : Except Upset Outcome → Rest
  | .ok (.suspended kind) => .waits kind
  | .ok .halted => .ends .halted
  | .ok .progressed => .ends .progressed
  | .error upset => .ends (.ofUpset (.failed lang) upset)

/-- A stretch of work: how it comes to rest, the session and the budget that it leaves, and the
events of the machine on the way. -/
structure Stretch (σ : Type) where
  rest : Rest
  session : Session σ
  budget : Budget
  events : List Event

/-- The stretch with more events in front. -/
def Stretch.after (events : List Event) (w : Stretch σ) : Stretch σ :=
  { w with events := events ++ w.events }

/-- The work of a machine that is ready to go on with an operation: a run of instructions or one
step. -/
def Session.toil (m : Machine σ) (bound : Nat) (op : Operation) (s : Session σ) :
    Option (Stretch σ) :=
  match op.task with
  | .run =>
    (s.run m bound op.budget #[]).map fun (answer, budget, s, out) =>
      ⟨.ofAnswer s.lang answer, s, budget, out.toList⟩
  | .step =>
    some ⟨.ofAnswer s.lang (m.step s.state).result, s.left m.step, op.budget, s.told m m.step⟩

/-- The work on an operation after a call that prepares it: nothing more if the call failed. -/
def Session.toilAfter (m : Machine σ) (op : Operation) (s : Session σ)
    (error : Fault → HostError) (act : Act Upset σ Unit)
    (next : Session σ → Option (Stretch σ)) : Option (Stretch σ) :=
  match (act s.state).result with
  | .ok () => (next (s.left act)).map (.after (s.told m act))
  | .error upset => some ⟨.ends (.ofUpset error upset), s.left act, op.budget, s.told m act⟩

/-- Work on an operation in the course of a command. -/
structure Effort (σ : Type) where
  operation : Operation
  /-- The activities under way while the machine works. -/
  labels : Activity
  /-- The events before the machine works. -/
  opening : List Event
  stretch : Stretch σ

namespace Host

/-- The operation that an idle host begins. -/
def beginning (h : Host σ) (task : Task) (lang : String) : Operation :=
  ⟨task, lang, h.activity.depth, .fresh h.stepLimit⟩

/-- The work on an operation that begins. -/
def beginEffort (h : Host σ) (task : Task) (s : Session σ) (echo : List Event)
    (stretch : Operation → Option (Stretch σ)) : Option (Effort σ) :=
  let op := h.beginning task s.lang
  (stretch op).map fun w =>
    ⟨op, h.activity.push (task.label s.lang), echo ++ [.status (task.label s.lang)], w⟩

/-- The end of the operation in flight by a crash of a machine that is asked for something else. -/
def crashEffort (h : Host σ) (s : Session σ) (supported : Bool)
    (answer : Except Crash (Option String)) : Option (Effort σ) :=
  match h.operation, supported, answer with
  | some op, true, .error crash =>
    some ⟨op, h.activity, [], ⟨.ends (.failed (.ofCrash crash)), s, op.budget, []⟩⟩
  | _, _, _ => none

/-- A question ends no operation of an idle host. -/
theorem crashEffort_of_idle {h : Host σ} (hop : h.operation = none) (s : Session σ)
    (supported : Bool) (answer : Except Crash (Option String)) :
    h.crashEffort s supported answer = none := by
  unfold crashEffort
  rw [hop]

/-- A question that the machine answers ends no operation. -/
theorem crashEffort_of_ok (h : Host σ) (s : Session σ) (supported : Bool)
    (code : Option String) : h.crashEffort s supported (.ok code) = none := by
  cases hop : h.operation <;> simp only [crashEffort, hop]

/-- A question that is not put to the machine ends no operation. -/
theorem crashEffort_of_unsupported (h : Host σ) (s : Session σ)
    (answer : Except Crash (Option String)) : h.crashEffort s false answer = none := by
  cases hop : h.operation <;> simp only [crashEffort, hop]

/-- The activities under way after a request has been answered. -/
def answeredLabels (h : Host σ) (popStatus : Bool) : Activity :=
  if popStatus then h.activity.pop else h.activity

/-- The work on an operation that a command makes the machine do, if there is any. -/
def effort? (c : Catalogue σ) (bound : Nat) (h : Host σ) : Command → Option (Effort σ)
  | .press .interpret args =>
    match h.operation, h.session with
    | none, some s =>
      h.beginEffort .run s [.print s!"\n> interpreter execute --lang {s.lang} --file ./userInput\n"]
        fun op =>
          match args.code with
          | none => s.toil c.machine bound op
          | some source =>
            s.toilAfter c.machine op (.badCode s.lang) (Session.load c.machine source)
              (·.toil c.machine bound op)
    | _, _ => none
  | .press .step _ =>
    match h.operation, h.session with
    | none, some s =>
      if s.capabilities.step then
        h.beginEffort .step s [] fun op => s.toil c.machine bound op
      else none
    | _, _ => none
  | .press .minify args =>
    h.session.bind fun s =>
      h.crashEffort s s.capabilities.minify (c.machine.minify s.state (args.code.getD ""))
  | .press .textToCode args =>
    h.session.bind fun s =>
      h.crashEffort s s.capabilities.fromText (c.machine.fromText s.state (args.text.getD ""))
  | .unblock value popStatus =>
    match h.operation, h.session, Request.resolve h.request value with
    | some op, some s, .ok (_, input) =>
      (s.toilAfter c.machine op (.failed s.lang) (c.machine.resume input) fun s =>
        match op.task with
        | .run => s.toil c.machine bound op
        | .step => some ⟨.ends .progressed, s, op.budget, []⟩).map
        fun w =>
          ⟨op, h.answeredLabels popStatus,
            if popStatus then [(h.answeredLabels popStatus).report] else [], w⟩
    | _, _, _ => none
  | _ => none

/-- The host that comes to rest from work on an operation. -/
def rested (m : Machine σ) (op : Operation) (s : Session σ) (h : Host σ) : Rest → Host σ
  | .waits kind => h.waitingFor kind
  | .ends ending => h.ended m op ending s

/-- The host after a stretch of work on the operation in flight. -/
def worked (m : Machine σ) (op : Operation) (w : Stretch σ) (h : Host σ) : Host σ :=
  ({ h with session := some w.session, operation := some { op with budget := w.budget } }.say
    w.events).rested m op w.session w.rest

/-- The budget of an operation does not show in how it comes to rest. -/
theorem rested_budget (m : Machine σ) (op : Operation) (budget : Budget) (s : Session σ)
    (h : Host σ) (rest : Rest) :
    h.rested m { op with budget } s rest = h.rested m op s rest := by
  cases rest <;> rfl

/-- A call before a stretch of work only adds its events to those of the work. -/
theorem called_worked (m : Machine σ) (act : Act Upset σ α) (s : Session σ) (op : Operation)
    (w : Stretch σ) (h : Host σ) :
    (h.called m act s).worked m op w = h.worked m op (w.after (s.told m act)) := by
  simp only [worked, Stretch.after, ← say_say]
  rfl

end Host

namespace Handling

/-- A part carries work on the operation in flight out: it has an answer only if the work has one,
and then the host comes to rest from that work. -/
def CarriesOut (m : Machine σ) (op : Operation) (h : Host σ) (x : Handling σ Unit)
    (work : Option (Stretch σ)) : Prop :=
  ∀ h', rescue m (x h) = some (.ok (), h') → ∃ w, work = some w ∧ h' = h.worked m op w

/-- An operation that ends at once. -/
theorem carriesOut_finish (m : Machine σ) {h : Host σ} {op : Operation} {s : Session σ}
    (hop : h.operation = some op) (hs : h.session = some s) (ending : Ending) :
    CarriesOut m op h (finish m ending) (some ⟨.ends ending, s, op.budget, []⟩) := by
  intro h' hx
  rw [rescue_finish m ending hop hs] at hx
  cases hx
  refine ⟨_, rfl, ?_⟩
  simp only [Host.worked, Host.say_nil, ← hop, ← hs]
  rfl

/-- An answer of the machine brings the operation in flight to rest. -/
theorem rescue_conclude (m : Machine σ) (lang : String) (answer : Except Upset Outcome)
    {h h' : Host σ} {op : Operation} {s : Session σ} (hop : h.operation = some op)
    (hs : h.session = some s) (hr : h.request = none)
    (hx : rescue m ((settle answer >>= conclude m lang) h) = some (.ok (), h')) :
    h' = h.rested m op s (.ofAnswer lang answer) := by
  have hfinish (ending : Ending) (he : rescue m (finish m ending h) = some (.ok (), h')) :
      h' = h.ended m op ending s := by
    rw [rescue_finish m ending hop hs] at he
    cases he
    rfl
  cases answer with
  | ok outcome =>
    rw [bind_of_ok (settle_ok outcome h)] at hx
    cases outcome with
    | suspended kind =>
      change rescue m (suspend m kind h) = _ at hx
      rw [suspend_apply m kind hr] at hx
      cases hx
      rfl
    | halted => exact hfinish .halted hx
    | progressed => exact hfinish .progressed hx
  | error upset =>
    cases upset with
    | fault fault =>
      rw [bind_of_ok (settle_fault fault h)] at hx
      exact hfinish (.failed (.failed lang fault)) hx
    | crash message =>
      rw [bind_of_stop (settle_crash message h)] at hx
      exact recover_eq m message hop hs hx

/-- The machine works on the operation in flight and comes to rest. -/
theorem carriesOut_drive (m : Machine σ) (bound : Nat) {h : Host σ} {op : Operation}
    {s : Session σ} (hop : h.operation = some op) (hs : h.session = some s)
    (hr : h.request = none) : CarriesOut m op h (drive m bound) (s.toil m bound op) := by
  intro h' hx
  obtain ⟨limit, session, held, activity, request, operation, out⟩ := h
  obtain rfl : operation = some op := hop
  obtain rfl : session = some s := hs
  obtain rfl : request = none := hr
  obtain ⟨task, lang, depth, budget⟩ := op
  unfold drive at hx
  rw [get_bind] at hx
  cases task with
  | run =>
    dsimp only at hx
    cases hrun : s.run m bound budget #[] with
    | none =>
      rw [bind_of_none (run_of_none m bound ⟨.run, lang, depth, budget⟩ s hrun _)] at hx
      cases hx
    | some r =>
      obtain ⟨answer, budget', s', more⟩ := r
      rw [bind_congr _ (run_of_some m bound ⟨.run, lang, depth, budget⟩ s hrun _)] at hx
      refine ⟨⟨.ofAnswer s'.lang answer, s', budget', more.toList⟩, ?_, ?_⟩
      · simp only [Session.toil, hrun, Option.map_some]
      -- A run keeps the language, and the operation it leaves differs from `op` in its budget only.
      · rw [← Session.run_lang hrun] at hx
        rw [Host.worked, ← Host.rested_budget m _ budget']
        exact rescue_conclude m s'.lang answer rfl rfl rfl hx
  | step =>
    dsimp only at hx
    rw [bind_congr _ (call_apply m m.step s _)] at hx
    exact ⟨_, rfl, rescue_conclude m s.lang _ rfl rfl rfl hx⟩

/-- A call prepares work on the operation in flight. -/
theorem carriesOut_call (m : Machine σ) (act : Act Upset σ Unit) (error : Fault → HostError)
    {h : Host σ} {op : Operation} {s : Session σ} (hop : h.operation = some op)
    {proceed : Except Fault Unit → Handling σ Unit} {next : Session σ → Option (Stretch σ)}
    (hok : CarriesOut m op (h.called m act s) (proceed (.ok ())) (next (s.left act)))
    (herror : ∀ fault, proceed (.error fault) = finish m (.failed (error fault))) :
    CarriesOut m op h (call m act s >>= proceed) (s.toilAfter m op error act next) := by
  intro h' hx
  rw [bind_congr _ (call_apply m act s h)] at hx
  have hop' : (h.called m act s).operation = some op := hop
  have hs' : (h.called m act s).session = some (s.left act) := rfl
  unfold Session.toilAfter
  cases hr : (act s.state).result with
  | ok _ =>
    rw [hr, bind_of_ok (settle_ok _ _)] at hx
    obtain ⟨w, hw, rfl⟩ := hok h' hx
    exact ⟨w.after (s.told m act), by rw [hw]; rfl, Host.called_worked m act s op w h⟩
  | error upset =>
    -- The call has failed, so the operation ends without any more work.
    have hrest : h' = (h.called m act s).worked m op
        ⟨.ends (.ofUpset error upset), s.left act, op.budget, []⟩ := by
      cases upset with
      | fault fault =>
        rw [hr, bind_of_ok (settle_fault fault _), herror] at hx
        obtain ⟨w, hw, rfl⟩ := carriesOut_finish m hop' hs' _ h' hx
        cases hw
        rfl
      | crash message =>
        rw [hr, bind_of_stop (settle_crash message _)] at hx
        rw [recover_eq m message hop' hs' hx]
        simp only [Host.worked, Host.say_nil, ← hop', ← hs']
        rfl
    exact ⟨_, rfl, by rw [hrest, Host.called_worked, Stretch.after, List.append_nil]⟩

end Handling

end EsotericHost
