import EsotericHost.Proofs.Host.Conversation

/-!
# Stepping and running agree

A client can run a program, or step through it until a step halts or fails. On a host without a step
limit both conversations come to the same thing: what the program unfolds to with the values that
the client answers (`Conversation.ComesTo`). Each of them comes to it if it ends
(`Host.running_comesTo`, `Host.stepping_comesTo`), and ends if there is something to come to
(`Host.running_of_unfolds`, `Host.stepping_of_unfolds`). A program unfolds in one way only, so the
two end together and agree (`Host.stepping_agrees`).
-/

namespace EsotericHost

variable {σ : Type} {c : Catalogue σ} {m : Machine σ} {Good : σ → Prop}
  {waits : σ → Option InputKind} {bound : Nat} {h h' : Host σ} {s : Session σ} {command : Command}
  {events : List Event} {answers : List Answer} {values : List Json}
  {answer : Except Upset Outcome} {task : Task} {u : Unfolding σ} {v w : Conversation σ}

/-- A conversation with an idle host at its end, by which a program has come to what it unfolds to.
Some errors have been reported before it. -/
structure Conversation.ComesTo (before : List String) (u : Unfolding σ) (v : Conversation σ) :
    Prop where
  left : v.left.map Answer.value = u.left
  program : v.program = u.events
  errors : before ++ v.errors =
    (u.failure.map fun fault => (HostError.failed u.session.lang fault).message).toList
  host : v.host = (Host.new none).seated u.session

/-- A conversation that comes first adds what it tells, and the errors before are its own. -/
theorem Conversation.ComesTo.after (hw : w.ComesTo v.errors u) :
    (w.after v.turns).ComesTo [] (u.after v.program) where
  left := hw.left
  program := by
    rw [program_after, hw.program]
    rfl
  errors := by
    rw [List.nil_append, errors_after, hw.errors]
    rfl
  host := hw.host

/-- A turn that comes first adds what the machine has told. -/
theorem Host.TurnsTo.comesTo {told : List Event}
    (ht : h.TurnsTo Good waits task told answer s command events)
    (hw : w.ComesTo (Rest.ofAnswer s.lang answer).errors u) :
    (w.after [(command, events)]).ComesTo [] (u.after told) where
  left := hw.left
  program := by
    rw [ht.program_after, hw.program]
    rfl
  errors := by
    rw [List.nil_append, ht.errors_after, hw.errors]
    rfl
  host := hw.host

/-- The end of a program is what it unfolds to. -/
theorem Host.RestsAt.comesTo (hh : h.RestsAt Good waits task answer s)
    (ha : suspension answer = none) (hne : answer ≠ .ok .progressed) (answers : List Answer) :
    ∃ u, s.Unfolds m answer (answers.map Answer.value) u ∧
      (⟨[], answers, h⟩ : Conversation σ).ComesTo (Rest.ofAnswer s.lang answer).errors u := by
  have hidle := hh.eq_seated ha
  match answer with
  | .ok .halted => exact ⟨_, .halted, rfl, rfl, rfl, hidle⟩
  | .ok .progressed => exact absurd rfl hne
  | .ok (.suspended kind) => cases ha
  | .error (.fault fault) => exact ⟨_, .failed, rfl, rfl, rfl, hidle⟩
  | .error (.crash message) => exact absurd rfl (hh.uncrashed message)

namespace Host

/-! ## Running -/

/-- A run that begins, and is answered, has stopped with an answer of the machine, and goes on from
there as the program does. -/
theorem RestsAt.begins (hc : c.Reliable Good waits)
    (hh : h.RestsAt Good waits .run (.ok .progressed) s)
    (hx : h.handle c bound (.press .interpret ⟨none, none⟩) = some (events, h')) :
    ∃ told answer s', h'.TurnsTo Good waits .run told answer s' (.press .interpret ⟨none, none⟩)
        events ∧ answer ≠ .ok .progressed ∧
      ∀ values u, s'.Unfolds c.machine answer values u →
        s.Unfolds c.machine (.ok .progressed) values (u.after told) := by
  obtain ⟨answer, budget, s', out, hr⟩ := hh.run_of_handle rfl hx
  obtain ⟨hne, hb, hunfolds⟩ := Session.Unfolds.of_run_told rfl hr
  obtain ⟨events', h'', hx', ht⟩ := hh.run_turn hc rfl hr hb
  obtain ⟨rfl, rfl⟩ := Prod.mk.inj (Option.some.inj (hx.symm.trans hx'))
  exact ⟨out.toList, answer, s', ht, hne, hunfolds⟩

/-- A run that is given an answer goes on as the program does, to its next request or to its end. -/
theorem RestsAt.goes_on {kind : InputKind} {a : Answer} {input : Input}
    (hc : c.Reliable Good waits) (hh : h.RestsAt Good waits .run (.ok (.suspended kind)) s)
    (fits : Request.answer kind a.value = .ok input)
    (hx : h.handle c bound (.unblock a.value a.popStatus) = some (events, h')) :
    ∃ told answer s', h'.TurnsTo Good waits .run told answer s' (.unblock a.value a.popStatus)
        events ∧ answer ≠ .ok .progressed ∧
      ∀ values u, s'.Unfolds c.machine answer values u →
        s.Unfolds c.machine (.ok (.suspended kind)) (a.value :: values) (u.after told) := by
  match hresume : (c.machine.resume input s.state).result with
  | .ok () =>
    obtain ⟨op, hop, -, hlimit⟩ := hh.busy
    obtain ⟨answer, budget, s', out, hr⟩ := hh.run_of_unblock fits hresume hop hx
    obtain ⟨hne, hb, hunfolds⟩ := Session.Unfolds.of_run_told hlimit hr
    obtain ⟨events', h'', hx', ht⟩ := hh.resume_run_turn hc fits hresume hop hr hb
    obtain ⟨rfl, rfl⟩ := Prod.mk.inj (Option.some.inj (hx.symm.trans hx'))
    refine ⟨_, answer, s', ht, hne, fun values u hu => ?_⟩
    have hrest : (s.left (c.machine.resume input)).Unfolds c.machine
        (Outcome.ofResume (c.machine.resume input s.state).result) values (u.after out.toList) := by
      rw [hresume]
      exact hunfolds values u hu
    rw [← Unfolding.after_after]
    exact .resumed fits hrest
  | .error upset =>
    -- The machine has no use for the input, and the program fails.
    have hfails : (c.machine.resume input s.state).result ≠ .ok () := by
      rw [hresume]
      exact fun hp => nomatch hp
    obtain ⟨events', h'', hx', ht⟩ := hh.resume_turn hc fits (.inr hfails)
    obtain ⟨rfl, rfl⟩ := Prod.mk.inj (Option.some.inj (hx.symm.trans hx'))
    refine ⟨_, _, _, ht, ?_, fun values u hu => .resumed fits hu⟩
    rw [hresume]
    exact fun hp => nomatch hp

/-- If the program unfolds to something, a run that begins is answered with every bound that is
large enough. -/
theorem begins_of_unfolds (hc : c.Reliable Good waits)
    (hu : s.Unfolds c.machine (.ok .progressed) values u) :
    ∃ least answer s' u', s'.Unfolds c.machine answer values u' ∧
      ∀ bound (h : Host σ), least ≤ bound → h.RestsAt Good waits .run (.ok .progressed) s →
        ∃ told events h', h.handle c bound (.press .interpret ⟨none, none⟩) = some (events, h') ∧
          h'.TurnsTo Good waits .run told answer s' (.press .interpret ⟨none, none⟩) events := by
  obtain ⟨least, answer, s', u', hu', hrun⟩ := hu.run
  refine ⟨least, answer, s', u', hu', fun bound h hbound hh => ?_⟩
  obtain ⟨budget, out, hr⟩ := hrun bound (.fresh none) hbound rfl
  obtain ⟨-, hb, -⟩ := Session.Unfolds.of_run_told rfl hr
  exact ⟨out.toList, hh.run_turn hc rfl hr hb⟩

/-- If the program unfolds to something with a value for its request, the answer with that value is
answered with every bound that is large enough. -/
theorem goes_on_of_unfolds {kind : InputKind} {a : Answer} (hc : c.Reliable Good waits)
    (hu : s.Unfolds c.machine (.ok (.suspended kind)) (a.value :: values) u) :
    ∃ input, Request.answer kind a.value = .ok input ∧
      ∃ least answer s' u', s'.Unfolds c.machine answer values u' ∧
        ∀ bound (h : Host σ), least ≤ bound →
          h.RestsAt Good waits .run (.ok (.suspended kind)) s →
          ∃ told events h', h.handle c bound (.unblock a.value a.popStatus) = some (events, h') ∧
            h'.TurnsTo Good waits .run told answer s' (.unblock a.value a.popStatus) events := by
  cases hu with
  | resumed fits hrest =>
    rename_i input u
    refine ⟨input, fits, ?_⟩
    match hresume : (c.machine.resume input s.state).result with
    | .ok () =>
      have hready : (s.left (c.machine.resume input)).Unfolds c.machine (.ok .progressed) values
          u := by
        rw [hresume] at hrest
        exact hrest
      obtain ⟨least, answer, s', u', hu', hrun⟩ := hready.run
      refine ⟨least, answer, s', u', hu', fun bound h hbound hh => ?_⟩
      obtain ⟨op, hop, -, hlimit⟩ := hh.busy
      obtain ⟨budget, out, hr⟩ := hrun bound op.budget hbound hlimit
      obtain ⟨-, hb, -⟩ := Session.Unfolds.of_run_told hlimit hr
      exact ⟨_, hh.resume_run_turn hc fits hresume hop hr hb⟩
    | .error upset =>
      have hfails : (c.machine.resume input s.state).result ≠ .ok () := by
        rw [hresume]
        exact fun hp => nomatch hp
      exact ⟨0, _, _, _, hrest, fun bound h _ hh => ⟨_, hh.resume_turn hc fits (.inr hfails)⟩⟩

/-- A conversation at the end of a program comes to the end. -/
theorem RestsAt.comesTo_of_end (hh : h.RestsAt Good waits task answer s)
    (ha : suspension answer = none) (hne : answer ≠ .ok .progressed)
    (hv : h.answering c bound answers = some v) :
    ∃ u, s.Unfolds c.machine answer (answers.map Answer.value) u ∧
      v.ComesTo (Rest.ofAnswer s.lang answer).errors u := by
  rw [answering_of_none (hh.request.trans ha)] at hv
  cases hv
  exact hh.comesTo ha hne answers

/-- A run whose requests are answered to the end comes to what the program unfolds to. -/
theorem answering_comesTo (hc : c.Reliable Good waits) (hh : h.RestsAt Good waits .run answer s)
    (hne : answer ≠ .ok .progressed) (hv : h.answering c bound answers = some v) :
    ∃ u, s.Unfolds c.machine answer (answers.map Answer.value) u ∧
      v.ComesTo (Rest.ofAnswer s.lang answer).errors u := by
  -- The induction is on the answers: each of them is used by one turn.
  induction answers generalizing h s answer v with
  | nil =>
    cases ha : suspension answer with
    | none => exact hh.comesTo_of_end ha hne hv
    | some kind =>
      obtain ⟨a, rest, input, hnil, -⟩ := fits_of_answering (hh.request.trans ha) hv
      cases hnil
  | cons a rest ih =>
    cases ha : suspension answer with
    | none => exact hh.comesTo_of_end ha hne hv
    | some kind =>
      obtain rfl := suspension_eq_some ha
      obtain ⟨a', rest', input, hcons, fits⟩ := fits_of_answering hh.request hv
      obtain ⟨rfl, rfl⟩ := List.cons.inj hcons
      rw [answering_of_fits hh.request fits] at hv
      obtain ⟨events, h', w, hx, hw, rfl⟩ := handle_of_turn hv
      obtain ⟨told, answer', s', ht, hne', hunfolds⟩ := hh.goes_on hc fits hx
      obtain ⟨u, hu, hcomes⟩ := ih ht.rests hne' hw
      exact ⟨_, hunfolds _ u hu, ht.comesTo hcomes⟩

/-- A run that ends comes to what the program unfolds to. -/
theorem running_comesTo (hc : c.Reliable Good waits)
    (hh : h.RestsAt Good waits .run (.ok .progressed) s)
    (hv : h.running c bound answers = some v) :
    ∃ u, s.Unfolds c.machine (.ok .progressed) (answers.map Answer.value) u ∧ v.ComesTo [] u := by
  obtain ⟨events, h', w, hx, hw, rfl⟩ := handle_of_turn hv
  obtain ⟨told, answer, s', ht, hne, hunfolds⟩ := hh.begins hc hx
  obtain ⟨u, hu, hcomes⟩ := answering_comesTo hc ht.rests hne hw
  exact ⟨_, hunfolds _ u hu, ht.comesTo hcomes⟩

/-- A run at rest is answered to its end, with every bound that is large enough, if the program
unfolds to something with the answers. -/
theorem answering_of_unfolds (hc : c.Reliable Good waits)
    (hu : s.Unfolds c.machine answer (answers.map Answer.value) u) :
    ∃ least, ∀ bound (h : Host σ), least ≤ bound → h.RestsAt Good waits .run answer s →
      ∃ v, h.answering c bound answers = some v := by
  induction answers generalizing answer s u with
  | nil =>
    cases ha : suspension answer with
    | none => exact ⟨0, fun bound h _ hh => ⟨_, answering_of_none (hh.request.trans ha) []⟩⟩
    | some kind =>
      obtain rfl := suspension_eq_some ha
      cases hu
  | cons a rest ih =>
    cases ha : suspension answer with
    | none =>
      exact ⟨0, fun bound h _ hh => ⟨_, answering_of_none (hh.request.trans ha) (a :: rest)⟩⟩
    | some kind =>
      obtain rfl := suspension_eq_some ha
      obtain ⟨input, fits, least, answer', s', u', hu', hturn⟩ := goes_on_of_unfolds hc hu
      obtain ⟨least', hends⟩ := ih hu'
      -- The bound is large enough for the turn that uses the answer, and for what follows.
      refine ⟨max least least', fun bound h hbound hh => ?_⟩
      obtain ⟨told, events, h', hx, ht⟩ := hturn bound h (by omega) hh
      obtain ⟨w, hw⟩ := hends bound h' (by omega) ht.rests
      rw [answering_of_fits hh.request fits, turn_of_handle hx, hw]
      exact ⟨_, rfl⟩

/-- A run ends if the program unfolds to something with the answers. -/
theorem running_of_unfolds (hc : c.Reliable Good waits)
    (hh : h.RestsAt Good waits .run (.ok .progressed) s)
    (hu : s.Unfolds c.machine (.ok .progressed) (answers.map Answer.value) u) :
    ∃ bound v, h.running c bound answers = some v := by
  obtain ⟨least, answer, s', u', hu', hturn⟩ := begins_of_unfolds hc hu
  obtain ⟨least', hends⟩ := answering_of_unfolds hc hu'
  obtain ⟨told, events, h', hx, ht⟩ := hturn (max least least') h (by omega) hh
  obtain ⟨w, hw⟩ := hends (max least least') h' (by omega) ht.rests
  refine ⟨max least least', w.after [(.press .interpret ⟨none, none⟩, events)], ?_⟩
  rw [running, pressing, turn_of_handle hx, hw]
  rfl

/-! ## Stepping -/

/-- A conversation about one instruction, which leaves the host at rest with what has come of it. -/
structure Carries (Good : σ → Prop) (waits : σ → Option InputKind) (i : Instruction σ)
    (v : Conversation σ) : Prop where
  left : v.left.map Answer.value = i.left
  program : v.program = i.events
  errors : v.errors = (Rest.ofAnswer i.session.lang i.answer).errors
  ended : v.isOver = (Rest.ofAnswer i.session.lang i.answer).isOver
  settled : suspension i.answer = none
  rests : v.host.RestsAt Good waits .step i.answer i.session

/-- A turn that takes the host to a rest in which nothing is waited for. -/
theorem TurnsTo.carries {told : List Event}
    (ht : h.TurnsTo Good waits .step told answer s command events)
    (ha : suspension answer = none) (left : List Answer) :
    Carries Good waits ⟨answer, s, left.map Answer.value, told⟩ ⟨[(command, events)], left, h⟩ where
  left := rfl
  program := by
    rw [← ht.program]
    exact List.append_nil _
  errors := by
    rw [← ht.errors]
    exact List.append_nil _
  ended := by
    rw [← ht.ended rfl]
    rfl
  settled := ha
  rests := ht.rests

/-- A turn by which the instruction has asked for input comes before the rest of it. -/
theorem Carries.after_turn {kind : InputKind} {told : List Event} {i : Instruction σ}
    (hw : Carries Good waits i w)
    (ht : h.TurnsTo Good waits task told (.ok (.suspended kind)) s command events)
    (hturns : w.turns ≠ []) :
    Carries Good waits (i.after told) (w.after [(command, events)]) where
  left := hw.left
  program := by
    rw [ht.program_after, hw.program]
    rfl
  errors := by
    rw [ht.errors_after, hw.errors]
    rfl
  ended := by
    have hlast : (w.after [(command, events)]).turns.getLast? = w.turns.getLast? := by
      obtain ⟨first, rest, hcons⟩ := List.exists_cons_of_ne_nil hturns
      have hafter : (w.after [(command, events)]).turns = (command, events) :: w.turns := rfl
      rw [hafter, hcons, List.getLast?_cons_cons]
    have hover := hw.ended
    unfold Conversation.isOver at hover ⊢
    rw [hlast]
    exact hover
  settled := hw.settled
  rests := hw.rests

/-- A step, with the answer to its request if it makes one, carries one instruction out. -/
theorem pressing_step (bound : Nat) (hc : c.Reliable Good waits)
    (hh : h.RestsAt Good waits .step (.ok .progressed) s) (answers : List Answer) :
    Option.Rel (Carries Good waits) (s.instruct c.machine (answers.map Answer.value))
      (h.pressing c bound .step answers) := by
  obtain ⟨events, h', hx, ht⟩ := hh.step_turn bound hc rfl
  rw [pressing, turn_of_handle hx, Session.instruct]
  cases ha : suspension (c.machine.step s.state).result with
  | none =>
    rw [Session.complete_of_suspension ha, answering_of_none (ht.rests.request.trans ha)]
    have hcarries := ht.carries ha answers
    rw [← List.append_nil (s.told c.machine c.machine.step)] at hcarries
    exact .some hcarries
  | some kind =>
    have hr := suspension_eq_some ha
    rw [hr] at ht ⊢
    have hrequest : h'.request = some kind := ht.rests.request
    cases answers with
    | nil =>
      simp only [answering, hrequest, Session.complete]
      exact .none
    | cons a rest =>
      rw [List.map_cons]
      cases fits : Request.answer kind a.value with
      | error e =>
        simp only [answering, hrequest, fits, Session.complete]
        exact .none
      | ok input =>
        obtain ⟨events', h'', hx', ht'⟩ := ht.rests.resume_turn hc fits (.inl rfl)
        rw [Session.complete_of_fits fits, answering_of_fits hrequest fits, turn_of_handle hx',
          answering_of_none (ht'.rests.request.trans (Outcome.suspension_ofResume _))]
        have hcarries := ht'.carries (Outcome.suspension_ofResume _) rest
        exact .some (hcarries.after_turn ht (List.cons_ne_nil _ _))

/-- An instruction that can be carried out is carried out by a step. -/
theorem pressing_of_instruct (bound : Nat) {i : Instruction σ} (hc : c.Reliable Good waits)
    (hh : h.RestsAt Good waits .step (.ok .progressed) s)
    (hi : s.instruct c.machine (answers.map Answer.value) = some i) :
    ∃ v, h.pressing c bound .step answers = some v ∧ Carries Good waits i v := by
  have hrel := pressing_step bound hc hh answers
  rw [hi] at hrel
  generalize h.pressing c bound .step answers = pressed at hrel ⊢
  cases hrel with
  | some hcarries => exact ⟨_, rfl, hcarries⟩

/-- A step with all that is asked carries an instruction out. -/
theorem instruct_of_pressing (hc : c.Reliable Good waits)
    (hh : h.RestsAt Good waits .step (.ok .progressed) s)
    (hv : h.pressing c bound .step answers = some v) :
    ∃ i, s.instruct c.machine (answers.map Answer.value) = some i ∧ Carries Good waits i v := by
  have hrel := pressing_step bound hc hh answers
  rw [hv] at hrel
  generalize s.instruct c.machine (answers.map Answer.value) = instruction at hrel ⊢
  cases hrel with
  | some hcarries => exact ⟨_, rfl, hcarries⟩

/-- A step has halted or failed unless the machine has made progress. -/
theorem Carries.isOver_iff {i : Instruction σ} (hv : Carries Good waits i v) :
    v.isOver = true ↔ i.answer ≠ .ok .progressed := by
  have hsettled := hv.settled
  rw [hv.ended]
  obtain ⟨answer, s, left, told⟩ := i
  match answer with
  | .ok .halted => exact ⟨fun _ hp => (nomatch hp), fun _ => rfl⟩
  | .ok .progressed => exact ⟨fun hp => (nomatch hp), fun hne => absurd rfl hne⟩
  | .ok (.suspended kind) => cases hsettled
  | .error (.fault fault) => exact ⟨fun _ hp => (nomatch hp), fun _ => rfl⟩
  | .error (.crash message) => exact ⟨fun _ hp => (nomatch hp), fun _ => rfl⟩

/-- The last instruction of a program ends the conversation, with what the program unfolds to. -/
theorem Carries.comesTo_of_end {i : Instruction σ} (hi : s.instruct m values = some i)
    (hv : Carries Good waits i v) (hne : i.answer ≠ .ok .progressed) :
    ∃ u, s.Unfolds m (.ok .progressed) values u ∧ v.ComesTo [] u := by
  obtain ⟨u, hu, hcomes⟩ := hv.rests.comesTo hv.settled hne v.left
  rw [hv.left] at hu
  rw [← hv.errors] at hcomes
  refine ⟨_, .of_instruct hi hu, ?_⟩
  have hwhole : (⟨[], v.left, v.host⟩ : Conversation σ).after v.turns = v := by
    unfold Conversation.after
    rw [List.append_nil]
  have hafter := hcomes.after
  rw [hwhole, hv.program] at hafter
  exact hafter

/-- Any other instruction is followed by a conversation about the rest of the program. -/
theorem Carries.comesTo_of_progress {i : Instruction σ} (hi : s.instruct m values = some i)
    (hv : Carries Good waits i v) (hp : i.answer = .ok .progressed)
    (hu : i.session.Unfolds m (.ok .progressed) i.left u) (hw : w.ComesTo [] u) :
    ∃ u, s.Unfolds m (.ok .progressed) values u ∧ (w.after v.turns).ComesTo [] u := by
  have herrors : v.errors = [] := by
    rw [hv.errors, hp]
    rfl
  rw [← hp] at hu
  rw [← herrors] at hw
  refine ⟨_, .of_instruct hi hu, ?_⟩
  rw [← hv.program]
  exact hw.after

/-- A conversation of steps that ends comes to what the program unfolds to. -/
theorem stepping_comesTo (hc : c.Reliable Good waits) {presses : Nat}
    (hh : h.RestsAt Good waits .step (.ok .progressed) s)
    (hv : h.stepping c bound presses answers = some v) :
    ∃ u, s.Unfolds c.machine (.ok .progressed) (answers.map Answer.value) u ∧ v.ComesTo [] u := by
  induction presses generalizing h s answers v with
  | zero => cases hv
  | succ presses ih =>
    unfold stepping at hv
    split at hv
    · cases hv
    · rename_i first hfirst
      obtain ⟨i, hi, hcarries⟩ := instruct_of_pressing hc hh hfirst
      split at hv
      · rename_i hover
        cases hv
        exact hcarries.comesTo_of_end hi (hcarries.isOver_iff.mp hover)
      · rename_i hover
        have hprogressed : i.answer = .ok .progressed :=
          Classical.byContradiction fun hne => hover (hcarries.isOver_iff.mpr hne)
        have hrests : first.host.RestsAt Good waits .step (.ok .progressed) i.session := by
          rw [← hprogressed]
          exact hcarries.rests
        obtain ⟨rest, hrest, rfl⟩ := Option.map_eq_some_iff.mp hv
        obtain ⟨u, hu, hcomes⟩ := ih hrests hrest
        rw [hcarries.left] at hu
        exact hcarries.comesTo_of_progress hi hprogressed hu hcomes

/-- A conversation of steps ends if the program unfolds to something with the answers. -/
theorem stepping_of_unfolds (bound : Nat) (hc : c.Reliable Good waits)
    (hh : h.RestsAt Good waits .step (.ok .progressed) s)
    (hu : s.Unfolds c.machine (.ok .progressed) (answers.map Answer.value) u) :
    ∃ presses v, h.stepping c bound presses answers = some v := by
  -- The program is one instruction after the other, and each takes one press.
  refine Session.Unfolds.by_instruction (P := fun s values => ∀ (h : Host σ) answers,
    answers.map Answer.value = values → h.RestsAt Good waits .step (.ok .progressed) s →
      ∃ presses v, h.stepping c bound presses answers = some v) ?_ ?_ hu h answers rfl hh
  · rintro s values i hi hne h answers rfl hh
    obtain ⟨v, hv, hcarries⟩ := pressing_of_instruct bound hc hh hi
    refine ⟨1, v, ?_⟩
    rw [stepping, hv]
    exact if_pos (hcarries.isOver_iff.mpr hne)
  · rintro s values i hi hprogressed hnext h answers rfl hh
    obtain ⟨v, hv, hcarries⟩ := pressing_of_instruct bound hc hh hi
    have hrests : v.host.RestsAt Good waits .step (.ok .progressed) i.session := by
      rw [← hprogressed]
      exact hcarries.rests
    have hover : ¬ v.isOver = true := fun hover => hcarries.isOver_iff.mp hover hprogressed
    obtain ⟨presses, w, hw⟩ := hnext v.host v.left hcarries.left hrests
    refine ⟨presses + 1, w.after v.turns, ?_⟩
    rw [stepping, hv]
    dsimp only
    rw [if_neg hover, hw]
    rfl

end Host

/-! ## Both of them -/

/-- Two conversations about a program of a language that have used the same of the given values, in
which the program has told the same events, and after which the host and the session in use are the
same. Both have reported the fault that the program has failed by, if it has failed, and no other
error. -/
structure Conversation.Agrees (lang : String) (values : List Json) (v w : Conversation σ) :
    Prop where
  used : ∃ used, values = used ++ v.left.map Answer.value ∧
    values = used ++ w.left.map Answer.value
  program : v.program = w.program
  failure : ∃ failure : Option Fault,
    v.errors = (failure.map fun fault => (HostError.failed lang fault).message).toList ∧
    w.errors = (failure.map fun fault => (HostError.failed lang fault).message).toList
  session : ∃ s, v.host.session = some s ∧ w.host.session = some s
  host : v.host = w.host

/-- Conversations that come to the same agree. -/
theorem Conversation.ComesTo.agrees (hu : s.Unfolds m answer values u) (hv : v.ComesTo [] u)
    (hw : w.ComesTo [] u) : v.Agrees s.lang values w where
  used := by
    obtain ⟨used, hused⟩ := hu.left_suffix
    rw [hv.left, hw.left]
    exact ⟨used, hused.symm, hused.symm⟩
  program := hv.program.trans hw.program.symm
  failure := by
    have hverrors := hv.errors
    have hwerrors := hw.errors
    rw [hu.lang_eq, List.nil_append] at hverrors hwerrors
    exact ⟨u.failure, hverrors, hwerrors⟩
  session := by
    rw [hv.host, hw.host]
    exact ⟨u.session, rfl, rfl⟩
  host := hv.host.trans hw.host.symm

/-- All built-in languages can be stepped through. -/
theorem Builtin.steps (draw : Nat → Befunge.Direction) (state : Builtin) :
    ((Builtin.machine draw).capabilities state).step = true := by
  cases state <;> rfl

namespace Host

/-- An idle host of the built-in languages without a step limit is at rest in its session. -/
theorem standard_restsAt {draw : Nat → Befunge.Direction} {commands : List Command}
    {steps : List (List Event)} {h : Host Builtin} {s : Session Builtin}
    (hrun : (Host.new none).handleAll (.standard draw) bound commands = some (steps, h))
    (hidle : h.operation = none) (hsession : h.session = some s) (task : Task) :
    h.RestsAt Builtin.Good Builtin.waits task (.ok .progressed) s := by
  obtain ⟨⟨hh, hs, -⟩, -⟩ := standard_handleAll hrun
  obtain ⟨language, -, state, -, -, hcapabilities, -⟩ := handleAll_made hrun s hsession
  exact
    { consistent := hh
      inStep := hs
      unlimited := handleAll_stepLimit (new_consistent none) hrun
      held := hh.held_of_idle hidle hsession
      session := hsession
      steps := by
        rw [hcapabilities]
        exact Builtin.steps draw state
      uncrashed := fun message hp => nomatch hp
      request := hh.request_of_idle hidle
      operation := fun op hop => nomatch hidle.symm.trans hop }

/-- A client that runs a program and one that steps through it, with answers of the same values,
come to the same. On every idle host of the built-in languages without a step limit, in particular
on one that has just loaded a program: the run ends if and only if a step halts or fails after some
number of them, and then both have used the same values, have been told the same events by the
program and the same failure, if there was one, and leave the same machine. -/
theorem stepping_agrees (draw : Nat → Befunge.Direction) (bound : Nat) (commands : List Command)
    {steps : List (List Event)} {h : Host Builtin} {s : Session Builtin}
    (hrun : (Host.new none).handleAll (.standard draw) bound commands = some (steps, h))
    (hidle : h.operation = none) (hsession : h.session = some s) (bound' : Nat)
    (answers answers' : List Answer)
    (hvalues : answers.map Answer.value = answers'.map Answer.value) :
    ((∃ bound v, h.running (.standard draw) bound answers = some v) ↔
      ∃ presses w, h.stepping (.standard draw) bound' presses answers' = some w) ∧
    ∀ bound v presses w, h.running (.standard draw) bound answers = some v →
      h.stepping (.standard draw) bound' presses answers' = some w →
      v.Agrees s.lang (answers.map Answer.value) w := by
  have hc := Catalogue.standard_reliable draw
  have hready (task : Task) : h.RestsAt Builtin.Good Builtin.waits task (.ok .progressed) s :=
    standard_restsAt hrun hidle hsession task
  refine ⟨⟨?_, ?_⟩, fun bound v presses w hv hw => ?_⟩
  · rintro ⟨bound, v, hv⟩
    obtain ⟨u, hu, -⟩ := running_comesTo hc (hready .run) hv
    rw [hvalues] at hu
    exact stepping_of_unfolds bound' hc (hready .step) hu
  · rintro ⟨presses, w, hw⟩
    obtain ⟨u, hu, -⟩ := stepping_comesTo hc (hready .step) hw
    rw [← hvalues] at hu
    exact running_of_unfolds hc (hready .run) hu
  · obtain ⟨u, hu, hvcomes⟩ := running_comesTo hc (hready .run) hv
    obtain ⟨u', hu', hwcomes⟩ := stepping_comesTo hc (hready .step) hw
    rw [← hvalues] at hu'
    obtain rfl := hu.unique hu'
    exact hvcomes.agrees hu hwcomes

/-- A client that loads a program which reads a byte and prints its number. -/
def loadReader : List Command :=
  [.setLanguage "befunge" .empty, .loadCode "~.@"]

/-- For a client that steps through it the program prints the same number as in a run, whether the
client keeps the labels of its requests or not, and needs no more answers. -/
theorem stepping_agrees_reading :
    ∃ steps h s presses w, (Host.new none).handleAll (.standard fun _ => .right) 5 loadReader =
        some (steps, h) ∧ h.operation = none ∧ h.session = some s ∧
      h.stepping (.standard fun _ => .right) 5 presses [⟨.string "7", false⟩] = some w ∧
      w.left.length = 0 ∧ Transcript.printed w.program.toArray = "55 " := by
  have hready : ((Host.new none).handleAll (.standard fun _ => .right) 5 loadReader).map
      (fun run => (run.2.operation, run.2.session.isSome)) = some (none, true) := by
    decide +kernel
  have hends : ((Host.new none).handleAll (.standard fun _ => .right) 5 loadReader).bind
      (fun run => (run.2.running (.standard fun _ => .right) 5 [⟨.string "7", true⟩]).map
        fun v => (v.left.length, Transcript.printed v.program.toArray)) = some (0, "55 ") := by
    decide +kernel
  obtain ⟨⟨steps, h⟩, hrun, hfacts⟩ := Option.map_eq_some_iff.mp hready
  obtain ⟨hidle, hsome⟩ := Prod.mk.inj hfacts
  obtain ⟨s, hsession⟩ := Option.isSome_iff_exists.mp hsome
  rw [hrun] at hends
  obtain ⟨v, hv, hfacts⟩ := Option.map_eq_some_iff.mp hends
  obtain ⟨hleft, hprinted⟩ := Prod.mk.inj hfacts
  obtain ⟨hiff, hagree⟩ := stepping_agrees _ 5 _ hrun hidle hsession 5 [⟨.string "7", true⟩]
    [⟨.string "7", false⟩] rfl
  obtain ⟨presses, w, hw⟩ := hiff.mp ⟨5, v, hv⟩
  have hagrees := hagree 5 v presses w hv hw
  refine ⟨steps, h, s, presses, w, hrun, hidle, hsession, hw, ?_, ?_⟩
  · obtain ⟨used, hused, hused'⟩ := hagrees.used
    have hsame : v.left.map Answer.value = w.left.map Answer.value :=
      List.append_cancel_left (hused.symm.trans hused')
    have hlength := congrArg List.length hsame
    rw [List.length_map, List.length_map] at hlength
    exact hlength.symm.trans hleft
  · rw [← hagrees.program]
    exact hprinted

end Host

end EsotericHost
