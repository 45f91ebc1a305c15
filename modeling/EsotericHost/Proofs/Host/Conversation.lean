import EsotericHost.Proofs.Host.Conservation
import EsotericHost.Proofs.Host.Forgetting
import EsotericHost.Proofs.Host.Unfolding

/-!
# Conversations about a program

A client that has a program run, or stepped, answers its requests until the host is free. A
`Conversation` is what passes between the two: commands and their events, in which the events of the
program can be told from those of the host (`programEvents`).

As long as the host serves such a client and no other, it is at rest with an answer of its machine
(`Host.RestsAt`): idle, or waiting for the next input. A command takes it from one rest to another,
and what it sends on the way is what the machine has told (`Host.RestsAt.turn`).
-/

namespace EsotericHost

variable {σ : Type} {c : Catalogue σ} {m : Machine σ} {Good : σ → Prop}
  {waits : σ → Option InputKind} {bound : Nat} {h h' : Host σ} {s : Session σ} {command : Command}
  {events : List Event} {answer : Except Upset Outcome}

/-! ## The wire -/

/-- An event that a program can cause. -/
def Event.isOfProgram : Event → Bool
  | .print _ | .update _ => true
  | _ => false

/-- The text of an error. -/
def Event.errorText? : Event → Option String
  | .error message => some message
  | _ => none

/-- Whether an event is the line that tells of a step by which a program has halted or failed. -/
def Event.closesStep : Event → Bool
  | .print text => text == "Unable to complete step\n"
  | _ => false

/-- How many events the host sends for a command before the machine works. -/
def Command.heralds : Command → Nat
  | .press .interpret _ => 2
  | .press .step _ => 1
  | .unblock _ popStatus => if popStatus then 1 else 0
  | _ => 0

/-- The events of the program among those of a command: they follow those that the host sends first,
and a status follows them. -/
def programEvents (command : Command) (events : List Event) : List Event :=
  (events.drop command.heralds).takeWhile Event.isOfProgram

/-- The texts of the errors among events. -/
def errorsIn (events : List Event) : List String :=
  events.filterMap Event.errorText?

/-- What a client answers to a request, and whether the label of the request is to go. -/
structure Answer where
  value : Json
  popStatus : Bool

/-- What passes between a client and a host: each command with its events, the answers that have not
been used, and the host at the end. -/
structure Conversation (σ : Type) where
  turns : List (Command × List Event)
  left : List Answer
  host : Host σ

namespace Conversation

/-- The conversation that has begun with some turns before. -/
def after (turns : List (Command × List Event)) (v : Conversation σ) : Conversation σ :=
  { v with turns := turns ++ v.turns }

/-- The events of the program. -/
def program (v : Conversation σ) : List Event :=
  v.turns.flatMap fun turn => programEvents turn.1 turn.2

/-- The errors that the host has reported. -/
def errors (v : Conversation σ) : List String :=
  v.turns.flatMap fun turn => errorsIn turn.2

/-- Whether the conversation has ended with a step by which the program has halted or failed. -/
def isOver (v : Conversation σ) : Bool :=
  v.turns.getLast?.any fun turn => turn.2.getLast?.any Event.closesStep

/-- The events of the program add up over two parts of a conversation. -/
theorem program_after (v w : Conversation σ) :
    (w.after v.turns).program = v.program ++ w.program :=
  List.flatMap_append

/-- The errors of the host add up over two parts of a conversation. -/
theorem errors_after (v w : Conversation σ) : (w.after v.turns).errors = v.errors ++ w.errors :=
  List.flatMap_append

end Conversation

namespace Host

/-- A command, and the conversation that goes on from there. -/
def turn (c : Catalogue σ) (bound : Nat) (command : Command)
    (next : Host σ → Option (Conversation σ)) (h : Host σ) : Option (Conversation σ) :=
  match h.handle c bound command with
  | none => none
  | some (events, h') => (next h').map (.after [(command, events)])

/-- The client gives each request the next answer until no request is open. There is no such
conversation if an answer does not fit or if there are not enough of them. -/
def answering (c : Catalogue σ) (bound : Nat) : List Answer → Host σ → Option (Conversation σ)
  | [], h =>
    match h.request with
    | none => some ⟨[], [], h⟩
    | some _ => none
  | a :: rest, h =>
    match h.request with
    | none => some ⟨[], a :: rest, h⟩
    | some kind =>
      match Request.answer kind a.value with
      | .error _ => none
      | .ok _ => h.turn c bound (.unblock a.value a.popStatus) (answering c bound rest)

/-- The client presses a button and answers what is asked. -/
def pressing (c : Catalogue σ) (bound : Nat) (button : Button) (answers : List Answer)
    (h : Host σ) : Option (Conversation σ) :=
  h.turn c bound (.press button ⟨none, none⟩) (answering c bound answers)

/-- The client runs the program. -/
def running (c : Catalogue σ) (bound : Nat) (answers : List Answer) (h : Host σ) :
    Option (Conversation σ) :=
  h.pressing c bound .interpret answers

/-- The client steps through the program until a step halts or fails, with so many steps at most. -/
def stepping (c : Catalogue σ) (bound : Nat) :
    Nat → List Answer → Host σ → Option (Conversation σ)
  | 0, _, _ => none
  | presses + 1, answers, h =>
    match h.pressing c bound .step answers with
    | none => none
    | some v =>
      if v.isOver then some v
      else (v.host.stepping c bound presses v.left).map (.after v.turns)

/-! ## Turns of a conversation -/

/-- A command that is answered is a turn of every conversation that goes on from there. -/
theorem turn_of_handle {next : Host σ → Option (Conversation σ)}
    (hx : h.handle c bound command = some (events, h')) :
    h.turn c bound command next = (next h').map (.after [(command, events)]) := by
  rw [turn, hx]

/-- A conversation begins with a command that is answered. -/
theorem handle_of_turn {next : Host σ → Option (Conversation σ)} {v : Conversation σ}
    (hv : h.turn c bound command next = some v) :
    ∃ events h' w, h.handle c bound command = some (events, h') ∧ next h' = some w ∧
      v = w.after [(command, events)] := by
  unfold turn at hv
  split at hv
  · cases hv
  · rename_i events h' hx
    obtain ⟨w, hw, rfl⟩ := Option.map_eq_some_iff.mp hv
    exact ⟨events, h', w, hx, hw, rfl⟩

/-- There is nothing to answer if no request is open. -/
theorem answering_of_none (hr : h.request = none) (answers : List Answer) :
    h.answering c bound answers = some ⟨[], answers, h⟩ := by
  cases answers <;> simp only [answering, hr]

/-- An open request is given the next answer, if it fits. -/
theorem answering_of_fits {kind : InputKind} {a : Answer} {input : Input} {rest : List Answer}
    (hr : h.request = some kind) (fits : Request.answer kind a.value = .ok input) :
    h.answering c bound (a :: rest) =
      h.turn c bound (.unblock a.value a.popStatus) (answering c bound rest) := by
  simp only [answering, hr, fits]

/-- An open request is answered only by an answer that fits. -/
theorem fits_of_answering {kind : InputKind} {answers : List Answer} {v : Conversation σ}
    (hr : h.request = some kind) (hv : h.answering c bound answers = some v) :
    ∃ a rest input, answers = a :: rest ∧ Request.answer kind a.value = .ok input := by
  cases answers with
  | nil =>
    simp only [answering, hr] at hv
    cases hv
  | cons a rest =>
    simp only [answering, hr] at hv
    split at hv
    · cases hv
    · exact ⟨a, rest, _, rfl, ‹_›⟩

end Host

/-! ## The events of a turn -/

/-- The errors that the host reports when work has come to rest. -/
def Rest.errors : Rest → List String
  | .waits _ => []
  | .ends ending => (ending.error?.map HostError.message).toList

/-- Whether a step that comes to such a rest has halted or failed. -/
def Rest.isOver : Rest → Bool
  | .waits _ => false
  | .ends ending => ending ≠ .progressed

/-- A machine only causes what a program can cause. -/
theorem Event.IsOfMachine.isOfProgram {x : Event} (hx : x.IsOfMachine) : x.isOfProgram = true := by
  cases x <;> first | rfl | exact hx.elim

/-- A machine reports no errors. -/
theorem Event.IsOfMachine.errorText? {x : Event} (hx : x.IsOfMachine) : x.errorText? = none := by
  cases x <;> first | rfl | exact hx.elim

/-- Errors of two lists of events. -/
theorem errorsIn_append (first second : List Event) :
    errorsIn (first ++ second) = errorsIn first ++ errorsIn second :=
  List.filterMap_append

/-- Labels that are taken away are reported by a status each. -/
theorem Activity.exists_unwindReports {a : Activity} (ha : 1 ≤ a.depth) :
    ∃ label rest, a.unwindReports 0 = .status label :: rest := by
  obtain ⟨n, hn⟩ : ∃ n, a.depth = n + 1 := ⟨a.depth - 1, by omega⟩
  unfold unwindReports
  rw [Nat.sub_zero, hn, List.range_succ_eq_map, List.map_cons]
  exact ⟨_, _, rfl⟩

/-- Labels that are taken away are no errors. -/
theorem Activity.errorsIn_unwindReports (a : Activity) (depth : Nat) :
    errorsIn (a.unwindReports depth) = [] := by
  apply List.filterMap_eq_nil_iff.mpr
  intro x hx
  obtain ⟨n, -, rfl⟩ := List.mem_map.mp hx
  rfl

/-- Labels that are taken away do not tell of the end of a program. -/
theorem Activity.closesStep_unwindReports {a : Activity} (ha : 1 ≤ a.depth) (before : List Event) :
    (before ++ a.unwindReports 0).getLast?.any Event.closesStep = false := by
  obtain ⟨label, rest, hreports⟩ := exists_unwindReports ha
  have hne : a.unwindReports 0 ≠ [] := by
    rw [hreports]
    exact List.cons_ne_nil _ _
  cases hlast : (a.unwindReports 0).getLast? with
  | none => exact absurd (List.getLast?_eq_none_iff.mp hlast) hne
  | some x =>
    obtain ⟨n, -, rfl⟩ := List.mem_map.mp (List.mem_of_getLast? hlast)
    rw [List.getLast?_append, hlast]
    rfl

/-- The end of an operation is reported with the error that it has ended by. -/
theorem errorsIn_endReport (task : Task) (ending : Ending) :
    errorsIn (endReport task ending) = (ending.error?.map HostError.message).toList := by
  cases task <;> cases ending <;> rfl

namespace Effort

variable {e : Effort σ}

/-- The host sends as many events as the command heralds before the machine works. -/
theorem Origin.length_opening (ho : e.Origin h command) : e.opening.length = command.heralds := by
  cases ho with
  | run idle session operation labels opening =>
    rw [opening]
    rfl
  | step idle session supported operation labels opening =>
    rw [opening]
    rfl
  | answer busy labels opening =>
    rw [opening]
    simp only [Command.heralds]
    split <;> rfl
  | question question busy labels opening rest =>
    rw [opening]
    rcases question with rfl | rfl <;> rfl

/-- The host reports no errors before the machine works. -/
theorem Origin.errorsIn_opening (ho : e.Origin h command) : errorsIn e.opening = [] := by
  cases ho with
  | run idle session operation labels opening =>
    rw [opening]
    rfl
  | step idle session supported operation labels opening =>
    rw [opening]
    rfl
  | answer busy labels opening =>
    rw [opening]
    split <;> rfl
  | question question busy labels opening rest =>
    rw [opening]
    rfl

/-- The events of the program can be told from those of the host. -/
theorem programEvents_events (hh : h.Consistent) (he : h.effort? c bound command = some e)
    (held : Option String) : programEvents command (e.events m held) = e.stretch.events := by
  have ho := origin he
  have htail : ∃ label rest,
      e.events m held = e.opening ++ (e.stretch.events ++ .status label :: rest) := by
    unfold events
    cases e.stretch.rest with
    | waits kind => exact ⟨kind.label, [.request kind], List.append_assoc _ _ _⟩
    | ends ending =>
      obtain ⟨hdepth, hlabels⟩ := ho.depths hh
      obtain ⟨label, rest, hreports⟩ := Activity.exists_unwindReports hlabels
      rw [hdepth, hreports]
      exact ⟨label, _, by simp only [List.append_assoc, List.cons_append]; rfl⟩
  obtain ⟨label, rest, hevents⟩ := htail
  have hmachine : ∀ x ∈ e.stretch.events, x.isOfProgram = true :=
    fun x hx => (isOfMachine he x hx).isOfProgram
  rw [programEvents, hevents, ← ho.length_opening, List.drop_left,
    List.takeWhile_append_of_pos hmachine]
  exact List.append_nil _

/-- The host reports an error just if the work has come to rest by one. -/
theorem errorsIn_events (he : h.effort? c bound command = some e) :
    errorsIn (e.events m none) = e.stretch.rest.errors := by
  have hmachine : errorsIn e.stretch.events = [] :=
    List.filterMap_eq_nil_iff.mpr fun x hx => (isOfMachine he x hx).errorText?
  have hopening : errorsIn e.opening = [] := (origin he).errorsIn_opening
  unfold events
  rw [errorsIn_append, errorsIn_append, hopening, hmachine]
  cases e.stretch.rest with
  | waits kind => rfl
  | ends ending =>
    dsimp only
    rw [errorsIn_append, errorsIn_append, Activity.errorsIn_unwindReports, errorsIn_endReport]
    exact List.append_nil _

/-- The last event of a step tells whether it has halted or failed. -/
theorem closesStep_events (hh : h.Consistent) (he : h.effort? c bound command = some e)
    (htask : e.operation.task = .step) :
    (e.events m none).getLast?.any Event.closesStep = e.stretch.rest.isOver := by
  obtain ⟨hdepth, hlabels⟩ := (origin he).depths hh
  unfold events
  rw [htask, hdepth]
  cases e.stretch.rest with
  | waits kind => simp [Event.closesStep, Rest.isOver]
  | ends ending =>
    have hheld : e.stretch.session.heldEvents m none = [] := rfl
    dsimp only
    rw [hheld, List.append_nil, ← List.append_assoc]
    cases ending with
    | halted => simp [endReport, Ending.error?, Event.closesStep, Rest.isOver]
    | progressed =>
      have hreport : endReport .step .progressed = [] := rfl
      rw [hreport, List.append_nil]
      exact Activity.closesStep_unwindReports hlabels _
    | failed error => simp [endReport, Ending.error?, Event.closesStep, Rest.isOver]

end Effort

/-! ## Hosts at rest -/

/-- A host without a step limit that is at rest with an answer of the machine in use: it waits if
the machine does, in the course of an operation of the given task, and is idle otherwise. Nothing
has crashed, and no code is held back. -/
structure Host.RestsAt (Good : σ → Prop) (waits : σ → Option InputKind) (task : Task)
    (answer : Except Upset Outcome) (s : Session σ) (h : Host σ) : Prop where
  consistent : h.Consistent
  inStep : h.InStep Good waits
  unlimited : h.stepLimit = none
  held : h.held = none
  session : h.session = some s
  /-- The language can be stepped through. -/
  steps : s.capabilities.step = true
  uncrashed : ∀ message, answer ≠ .error (.crash message)
  request : h.request = suspension answer
  operation : ∀ op, h.operation = some op → op.task = task ∧ op.budget.limit = none

/-- A command by which a machine has told some events and given an answer: the events of the command
are read as just that, and the host is at rest with the answer. -/
structure Host.TurnsTo (Good : σ → Prop) (waits : σ → Option InputKind) (task : Task)
    (told : List Event) (answer : Except Upset Outcome) (s : Session σ) (command : Command)
    (events : List Event) (h : Host σ) : Prop where
  program : programEvents command events = told
  errors : errorsIn events = (Rest.ofAnswer s.lang answer).errors
  ended : task = .step →
    events.getLast?.any Event.closesStep = (Rest.ofAnswer s.lang answer).isOver
  rests : h.RestsAt Good waits task answer s

/-- The events of the program in a conversation that such a command comes before. -/
theorem Host.TurnsTo.program_after {task : Task} {told : List Event}
    (ht : h.TurnsTo Good waits task told answer s command events) (w : Conversation σ) :
    (w.after [(command, events)]).program = told ++ w.program := by
  rw [← ht.program]
  exact List.flatMap_cons

/-- The errors in a conversation that such a command comes before. -/
theorem Host.TurnsTo.errors_after {task : Task} {told : List Event}
    (ht : h.TurnsTo Good waits task told answer s command events) (w : Conversation σ) :
    (w.after [(command, events)]).errors = (Rest.ofAnswer s.lang answer).errors ++ w.errors := by
  rw [← ht.errors]
  exact List.flatMap_cons

namespace Host.RestsAt

variable {task task' : Task} {answer' : Except Upset Outcome} {s' : Session σ} {e : Effort σ}
  {budget : Budget} {told : List Event}

/-- A host whose machine does not wait is idle. -/
theorem idle (hh : h.RestsAt Good waits task answer s) (ha : suspension answer = none) :
    h.operation = none := by
  have hbusy := hh.consistent.busy_iff
  rw [hh.request, ha] at hbusy
  simpa using hbusy

/-- Such a host is a new host with the session in place. -/
theorem eq_seated (hh : h.RestsAt Good waits task answer s) (ha : suspension answer = none) :
    h = (Host.new none).seated s := by
  have hop := hh.idle ha
  have hreleased : h.released = h := by
    unfold released
    rw [hop]
  have hseated : h.seated s = h := by
    unfold seated
    rw [← hh.session, ← hh.held]
  rw [← hh.unlimited, ← hh.consistent.released_seated, hreleased, hseated]

/-- A host whose machine waits has an operation in flight. -/
theorem busy {kind : InputKind} (hh : h.RestsAt Good waits task (.ok (.suspended kind)) s) :
    ∃ op, h.operation = some op ∧ op.task = task ∧ op.budget.limit = none := by
  have hrequest : h.request = some kind := hh.request
  obtain ⟨op, hop⟩ := Option.isSome_iff_exists.mp
    (hh.consistent.busy_iff.mpr (by rw [hrequest]; rfl))
  exact ⟨op, hop, hh.operation op hop⟩

/-- The machine's work in the course of a command takes the host to the rest that it comes to. -/
theorem turn (hc : c.Reliable Good waits) (hh : h.RestsAt Good waits task answer s)
    (he : h.effort? c bound command = some e) (htask : e.operation.task = task')
    (hw : e.stretch = ⟨.ofAnswer s'.lang answer', s', budget, told⟩) (hb : budget.limit = none) :
    ∃ events h', h.handle c bound command = some (events, h') ∧
      h'.TurnsTo Good waits task' told answer' s' command events := by
  have hx := handle_of_effort hc hh.consistent hh.inStep he
  have hcourse := handle_course hh.consistent hx
  obtain ⟨lang, -, hsound⟩ := hc.effort_sound hh.consistent hh.inStep he
  -- The work leaves the session in use with another state.
  have hsteps : s'.capabilities.step = true := by
    obtain ⟨s₀, state, hs₀, hmake⟩ := Effort.make he
    obtain rfl : s = s₀ := Option.some.inj (hh.session.symm.trans hs₀)
    rw [hw] at hmake
    rw [show s' = { s with state } from hmake]
    exact hh.steps
  have huncrashed (message : Crash) : answer' ≠ .error (.crash message) := by
    rintro rfl
    rcases hsound.blames (.ofCrash message) (by rw [hw]; rfl) with ⟨fault, hf⟩ | ⟨fault, -, hf⟩ <;>
      cases hf
  have hleft : (e.leaves c.machine h).held = none ∧ (e.leaves c.machine h).session = some s' ∧
      (e.leaves c.machine h).request = suspension answer' ∧
      ∀ op, (e.leaves c.machine h).operation = some op →
        op.task = task' ∧ op.budget.limit = none := by
    unfold Effort.leaves
    rw [hw, ← Rest.awaited_ofAnswer s'.lang answer', hh.held]
    dsimp only
    cases Rest.ofAnswer s'.lang answer' with
    | waits kind =>
      refine ⟨rfl, rfl, rfl, fun op hop => ?_⟩
      cases hop
      exact ⟨htask, hb⟩
    | ends ending => exact ⟨rfl, rfl, rfl, fun op hop => nomatch hop⟩
  obtain ⟨hheld, hsession, hrequest, hoperation⟩ := hleft
  rw [hh.held] at hx
  refine ⟨_, _, hx, ?_, ?_, fun ht => ?_, ?_⟩
  · rw [Effort.programEvents_events hh.consistent he, hw]
  · rw [Effort.errorsIn_events he, hw]
  · rw [Effort.closesStep_events hh.consistent he (htask.trans ht), hw]
  · exact
      { consistent := hcourse.consistent hh.consistent
        inStep := hcourse.inStep hc hh.consistent hh.inStep
        unlimited := hcourse.stepLimit_eq.trans hh.unlimited
        held := hheld
        session := hsession
        steps := hsteps
        uncrashed := huncrashed
        request := hrequest
        operation := hoperation }

/-! ## Commands that make the machine work -/

/-- A step takes an idle host to rest with the answer of the machine. -/
theorem step_turn (bound : Nat) (hc : c.Reliable Good waits)
    (hh : h.RestsAt Good waits task answer s) (ha : suspension answer = none) :
    ∃ events h', h.handle c bound (.press .step ⟨none, none⟩) = some (events, h') ∧
      h'.TurnsTo Good waits .step (s.told c.machine c.machine.step)
        (c.machine.step s.state).result (s.left c.machine.step) (.press .step ⟨none, none⟩)
        events := by
  have he : h.effort? c bound (.press .step ⟨none, none⟩) =
      some ⟨h.beginning .step s.lang, h.activity.push (Task.step.label s.lang),
        [.status (Task.step.label s.lang)],
        ⟨.ofAnswer s.lang (c.machine.step s.state).result, s.left c.machine.step,
          .fresh h.stepLimit, s.told c.machine c.machine.step⟩⟩ := by
    simp only [effort?, hh.idle ha, hh.session, hh.steps]
    rfl
  exact hh.turn hc he rfl rfl hh.unlimited

/-- A run takes an idle host to rest with the answer that it stops with. -/
theorem run_turn (hc : c.Reliable Good waits) (hh : h.RestsAt Good waits task answer s)
    (ha : suspension answer = none) {out : Transcript}
    (hr : s.run c.machine bound (.fresh none) #[] = some (answer', budget, s', out))
    (hb : budget.limit = none) :
    ∃ events h', h.handle c bound (.press .interpret ⟨none, none⟩) = some (events, h') ∧
      h'.TurnsTo Good waits .run out.toList answer' s' (.press .interpret ⟨none, none⟩) events := by
  have hwork : s.toil c.machine bound (h.beginning .run s.lang) =
      some ⟨.ofAnswer s'.lang answer', s', budget, out.toList⟩ := by
    simp only [Session.toil, beginning, hh.unlimited, hr]
    rfl
  have he : h.effort? c bound (.press .interpret ⟨none, none⟩) = _ :=
    effort_interpret (hh.idle ha) hh.session
  rw [hwork] at he
  exact hh.turn hc he rfl rfl hb

/-- A run that is answered has stopped. -/
theorem run_of_handle (hh : h.RestsAt Good waits task answer s) (ha : suspension answer = none)
    (hx : h.handle c bound (.press .interpret ⟨none, none⟩) = some (events, h')) :
    ∃ answer' budget s' out,
      s.run c.machine bound (.fresh none) #[] = some (answer', budget, s', out) := by
  obtain ⟨e, he⟩ := effort_of_interpret hh.consistent (hh.idle ha) hh.session hx
  rw [effort_interpret (hh.idle ha) hh.session] at he
  obtain ⟨w, hw, -⟩ := Option.map_eq_some_iff.mp he
  obtain ⟨⟨answer', budget, s', out⟩, hr, -⟩ := Option.map_eq_some_iff.mp hw
  rw [← hh.unlimited]
  exact ⟨answer', budget, s', out, hr⟩

/-- A value that fits answers the request of a host that waits. -/
theorem resolve_eq {kind : InputKind} {value : Json} {input : Input}
    (hh : h.RestsAt Good waits task (.ok (.suspended kind)) s)
    (fits : Request.answer kind value = .ok input) :
    Request.resolve h.request value = .ok (kind, input) := by
  have hrequest : h.request = some kind := hh.request
  rw [hrequest]
  show (Request.answer kind value).map (kind, ·) = .ok (kind, input)
  rw [fits]
  rfl

/-- An answer that fits goes to the operation in flight. -/
theorem effort_unblock (c : Catalogue σ) (bound : Nat) {kind : InputKind} {value : Json}
    (popStatus : Bool) {input : Input}
    (hh : h.RestsAt Good waits task (.ok (.suspended kind)) s)
    (fits : Request.answer kind value = .ok input) :
    ∃ op labels opening, h.operation = some op ∧ op.task = task ∧ op.budget.limit = none ∧
      h.effort? c bound (.unblock value popStatus) =
        (s.toilWith c.machine bound op input).map fun w => ⟨op, labels, opening, w⟩ := by
  obtain ⟨op, hop, htask, hb⟩ := hh.busy
  refine ⟨op, h.answeredLabels popStatus,
    if popStatus then [(h.answeredLabels popStatus).report] else [], hop, htask, hb, ?_⟩
  simp only [effort?, hop, hh.session, hh.resolve_eq fits]
  rfl

/-- An answer takes the host to rest by the input alone if the operation is a step, or if the
machine fails by the input. -/
theorem resume_turn {kind : InputKind} {value : Json} {popStatus : Bool} {input : Input}
    (hc : c.Reliable Good waits) (hh : h.RestsAt Good waits task (.ok (.suspended kind)) s)
    (fits : Request.answer kind value = .ok input)
    (hrests : task = .step ∨ (c.machine.resume input s.state).result ≠ .ok ()) :
    ∃ events h', h.handle c bound (.unblock value popStatus) = some (events, h') ∧
      h'.TurnsTo Good waits task (s.told c.machine (c.machine.resume input))
        (Outcome.ofResume (c.machine.resume input s.state).result)
        (s.left (c.machine.resume input)) (.unblock value popStatus) events := by
  obtain ⟨op, labels, opening, hop, htask, hb, he⟩ :=
    effort_unblock c bound popStatus hh fits
  have hwork : s.toilWith c.machine bound op input =
      some ⟨.ofAnswer (s.left (c.machine.resume input)).lang
          (Outcome.ofResume (c.machine.resume input s.state).result),
        s.left (c.machine.resume input), op.budget,
        s.told c.machine (c.machine.resume input)⟩ := by
    unfold Session.toilWith Session.toilAfter
    match hr : (c.machine.resume input s.state).result with
    | .error upset => rfl
    | .ok () =>
      have hstep : op.task = .step := by
        rcases hrests with rfl | hne
        · exact htask
        · exact absurd hr hne
      simp only [hstep, Option.map_some, Stretch.after, List.append_nil]
      rfl
  rw [hwork] at he
  exact hh.turn hc he htask rfl hb

/-- The answer to a request of a run takes the host to rest with the answer that the machine stops
with after the input. -/
theorem resume_run_turn {kind : InputKind} {value : Json} {popStatus : Bool} {input : Input}
    {out : Transcript} {op : Operation} (hc : c.Reliable Good waits)
    (hh : h.RestsAt Good waits .run (.ok (.suspended kind)) s)
    (fits : Request.answer kind value = .ok input)
    (hresume : (c.machine.resume input s.state).result = .ok ()) (hop : h.operation = some op)
    (hr : (s.left (c.machine.resume input)).run c.machine bound op.budget #[] =
      some (answer', budget, s', out)) (hb : budget.limit = none) :
    ∃ events h', h.handle c bound (.unblock value popStatus) = some (events, h') ∧
      h'.TurnsTo Good waits .run (s.told c.machine (c.machine.resume input) ++ out.toList) answer'
        s' (.unblock value popStatus) events := by
  obtain ⟨op', labels, opening, hop', htask, -, he⟩ :=
    effort_unblock c bound popStatus hh fits
  obtain rfl : op' = op := Option.some.inj (hop'.symm.trans hop)
  have hwork : s.toilWith c.machine bound op' input =
      some ⟨.ofAnswer s'.lang answer', s', budget,
        s.told c.machine (c.machine.resume input) ++ out.toList⟩ := by
    simp only [Session.toilWith, Session.toilAfter, hresume, htask, Session.toil, hr]
    rfl
  rw [hwork] at he
  exact hh.turn hc he htask rfl hb

/-- A run that goes on with an input, and is answered, has stopped. -/
theorem run_of_unblock {kind : InputKind} {value : Json} {popStatus : Bool} {input : Input}
    {op : Operation} (hh : h.RestsAt Good waits .run (.ok (.suspended kind)) s)
    (fits : Request.answer kind value = .ok input)
    (hresume : (c.machine.resume input s.state).result = .ok ()) (hop : h.operation = some op)
    (hx : h.handle c bound (.unblock value popStatus) = some (events, h')) :
    ∃ answer' budget s' out,
      (s.left (c.machine.resume input)).run c.machine bound op.budget #[] =
        some (answer', budget, s', out) := by
  obtain ⟨op', labels, opening, hop', htask, -, he⟩ :=
    effort_unblock c bound popStatus hh fits
  obtain rfl : op' = op := Option.some.inj (hop'.symm.trans hop)
  have hanswers : h.answers c bound (.unblock value popStatus) = true :=
    (answers_iff hh.consistent).mpr ⟨_, hh.resolve_eq fits⟩
  obtain ⟨e, he', -⟩ := effort_of_answers hh.consistent hanswers hx
  obtain ⟨w, hw, -⟩ := Option.map_eq_some_iff.mp (he.symm.trans he')
  simp only [Session.toilWith, Session.toilAfter, hresume, htask, Session.toil] at hw
  obtain ⟨w', hw', -⟩ := Option.map_eq_some_iff.mp hw
  obtain ⟨⟨answer', budget, s', out⟩, hr, -⟩ := Option.map_eq_some_iff.mp hw'
  exact ⟨answer', budget, s', out, hr⟩

end Host.RestsAt

end EsotericHost
