import EsotericHost.Proofs.Machine.Driven
import EsotericHost.Proofs.Machine.Printing
import Mathlib.Data.List.Forall2

/-!
# Machines that are alike

Two states of a machine may differ in something that its calls look at only to say where they
failed. A relation of states is a likeness if a step and an input have like results in like states,
print the same texts and leave like states (`Machine.Likens`); failures have a relation of their
own. It is shown for a call part by part (`Act.Like`).

Machines that are alike stay so, however they are driven. What is seen after each of their steps and
inputs is alike one by one (`Machine.Likens.chronicle`), and so is what an operation comes to
(`Machine.Likens.operate`).
-/

namespace EsotericHost

variable {ε ε' σ α β : Type}

/-! ## Calls -/

/-- Two results that are one value, or failures of which one stands for the other. -/
inductive Agree (E : ε → ε → Prop) : Except ε α → Except ε α → Prop where
  | ok (a : α) : Agree E (.ok a) (.ok a)
  | error {e e' : ε} (failures : E e e') : Agree E (.error e) (.error e')

/-- One of two such results is a success just if the other one is. -/
theorem Agree.ok_iff {E : ε → ε → Prop} {result result' : Except ε α} (h : Agree E result result')
    (a : α) : result = .ok a ↔ result' = .ok a := by
  cases h with
  | ok b => exact Iff.rfl
  | error failures => exact ⟨fun h => (nomatch h), fun h => (nomatch h)⟩

/-- Two results that both agree with a third one agree with each other. -/
theorem Agree.of_common {E : ε → ε → Prop} (hE : ∀ e e' e'', E e e'' → E e' e'' → E e e')
    {result result' common : Except ε α} (h : Agree E result common)
    (h' : Agree E result' common) : Agree E result result' := by
  cases h with
  | ok a =>
    cases h' with
    | ok _ => exact .ok a
  | error failures =>
    cases h' with
    | error failures' => exact .error (hE _ _ _ failures failures')

/-- Two results whose values are the same in what matters are both a value or both a failure. -/
theorem Agree.cases_of_map {E : ε → ε → Prop} {f : α → β} {result result' : Except ε α}
    (h : Agree E (result.map f) (result'.map f)) :
    (∃ a a', result = .ok a ∧ result' = .ok a' ∧ f a = f a') ∨
      ∃ e e', result = .error e ∧ result' = .error e' ∧ E e e' := by
  cases result with
  | ok a =>
    cases result' with
    | ok a' =>
      have hsame : (Except.ok (f a') : Except ε β) = .ok (f a) := (h.ok_iff (f a)).mp rfl
      exact .inl ⟨a, a', rfl, rfl, (Except.ok.inj hsame).symm⟩
    | error e' => cases h
  | error e =>
    cases result' with
    | ok a' => cases h
    | error e' =>
      cases h with
      | error failures => exact .inr ⟨e, e', rfl, rfl, failures⟩

/-- Two optional values that are the same in what matters are both there or both missing. -/
theorem cases_of_map_eq {f : α → β} {x y : Option α} (h : x.map f = y.map f) :
    (x = none ∧ y = none) ∨ ∃ a b, x = some a ∧ y = some b ∧ f a = f b := by
  cases x with
  | none => exact .inl ⟨rfl, Option.map_eq_none_iff.mp h.symm⟩
  | some a =>
    obtain ⟨b, hb, hab⟩ := Option.map_eq_some_iff.mp h.symm
    exact .inr ⟨a, b, rfl, hb, hab.symm⟩

/-- Both wait for the same input, or neither waits. -/
theorem Agree.suspension_eq {E : ε → ε → Prop} {answer answer' : Except ε Outcome}
    (h : Agree E answer answer') : suspension answer = suspension answer' := by
  cases h with
  | ok outcome => rfl
  | error failures => rfl

/-- Two turns with like results and like states that print the same texts. -/
structure Turn.Like (R : σ → σ → Prop) (E : ε → ε → Prop) (t t' : Turn ε σ α) : Prop where
  result : Agree E t.result t'.result
  state : R t.state t'.state
  prints : Effect.prints t.effects = Effect.prints t'.effects

/-- Like turns stay so when their failures are told in other words, if these are alike for like
failures. -/
theorem Turn.Like.mapError {R : σ → σ → Prop} {E : ε → ε → Prop} {E' : ε' → ε' → Prop}
    {describe : ε → ε'} {t t' : Turn ε σ α} (ht : t.Like R E t')
    (hE : ∀ e e', E e e' → E' (describe e) (describe e')) :
    (t.mapError describe).Like R E' (t'.mapError describe) := by
  obtain ⟨result, state, effects⟩ := t
  obtain ⟨result', state', effects'⟩ := t'
  obtain ⟨hresult, hstate, hprints⟩ := ht
  cases hresult with
  | ok a => exact ⟨.ok a, hstate, hprints⟩
  | error failures => exact ⟨.error (hE _ _ failures), hstate, hprints⟩

namespace Act

variable {R : σ → σ → Prop} {E : ε → ε → Prop}

/-- Two parts of a call whose turns are alike in like states. -/
def Like (R : σ → σ → Prop) (E : ε → ε → Prop) (act act' : Act ε σ α) : Prop :=
  ∀ s s', R s s' → (act s).Like R E (act' s')

/-- A sequence is like another one from two states if its parts are. -/
theorem Like.bind_at {x x' : Act ε σ α} {f f' : α → Act ε σ β} {s s' : σ}
    (hx : (x s).Like R E (x' s')) (hf : ∀ a, Like R E (f a) (f' a)) :
    ((x >>= f) s).Like R E ((x' >>= f') s') := by
  obtain ⟨⟨result, state, effects⟩, ht⟩ : ∃ t, x s = t := ⟨_, rfl⟩
  obtain ⟨⟨result', state', effects'⟩, ht'⟩ : ∃ t, x' s' = t := ⟨_, rfl⟩
  rw [ht, ht'] at hx
  obtain ⟨hresult, hstate, hprints⟩ := hx
  cases hresult with
  | ok a =>
    have hnext : (f a state).Like R E (f' a state') := hf a state state' hstate
    rw [bind_of_ok ht, bind_of_ok ht']
    refine ⟨hnext.result, hnext.state, ?_⟩
    rw [Effect.prints_append, Effect.prints_append, hnext.prints]
    exact congrArg (· ++ _) hprints
  | error failures =>
    rw [bind_of_error ht, bind_of_error ht']
    exact ⟨.error failures, hstate, hprints⟩

/-- Parts of a call that are alike are so one after the other. -/
theorem Like.bind {x x' : Act ε σ α} {f f' : α → Act ε σ β} (hx : Like R E x x')
    (hf : ∀ a, Like R E (f a) (f' a)) : Like R E (x >>= f) (x' >>= f') :=
  fun s s' hs => bind_at (hx s s' hs) hf

/-- Parts that read the state and do then what is alike from there. -/
theorem Like.get_bind {f f' : σ → Act ε σ β}
    (hf : ∀ s s', R s s' → (f s s).Like R E (f' s' s')) : Like R E (get >>= f) (get >>= f') := by
  intro s s' hs
  rw [get_bind_apply, get_bind_apply]
  exact hf s s' hs

/-- To give the same value is alike. -/
theorem like_pure (a : α) : Like R E (pure a : Act ε σ α) (pure a) :=
  fun _ _ hs => ⟨.ok a, hs, rfl⟩

/-- Failures that are alike are so as parts of a call. -/
theorem like_fail {e e' : ε} (he : E e e') : Like R E (fail e : Act ε σ α) (fail e') :=
  fun _ _ hs => ⟨.error he, hs, rfl⟩

/-- To print the same text is alike. -/
theorem like_print (text : String) : Like R E (print text : Act ε σ Unit) (print text) :=
  fun _ _ hs => ⟨.ok (), hs, rfl⟩

/-- Changes that lead like states to like states are alike. -/
theorem like_modify {f f' : σ → σ} (hf : ∀ s s', R s s' → R (f s) (f' s')) :
    Like R E (modify f : Act ε σ Unit) (modify f') :=
  fun s s' hs => ⟨.ok (), hf s s' hs, rfl⟩

/-- A part of a call is like itself. -/
theorem like_self (act : Act ε σ α) : Like Eq Eq act act := by
  rintro s _ rfl
  refine ⟨?_, rfl, rfl⟩
  cases (act s).result with
  | ok a => exact .ok a
  | error e => exact .error rfl

/-- Notices may differ, since they print nothing. -/
theorem like_notify (notice notice' : Notice) :
    Like R E (notify notice : Act ε σ Unit) (notify notice') :=
  fun _ _ hs => ⟨.ok (), hs, rfl⟩

end Act

/-! ## Machines -/

/-- What is seen of a machine after a call: its answer, the texts that it has printed in the call,
the budget that is left for it, and its state. -/
structure Moment (σ : Type) where
  answer : Except Upset Outcome
  prints : List String
  budget : Budget
  state : σ

/-- What is seen of a machine that is driven on a budget, with the next input whenever it waits for
one: a moment for each step and each input, up to a number of steps. A step that is charged beyond
the limit is the last one. -/
def Machine.chronicle (m : Machine σ) : Nat → List Input → Budget → σ → List (Moment σ)
  | 0, _, _, _ => []
  | n + 1, inputs, budget, s =>
    let moment (answer : Except Upset Outcome) (budget : Budget) : Moment σ :=
      ⟨answer, Effect.prints (m.step s).effects, budget, (m.step s).state⟩
    match (m.step s).result, inputs with
    | .ok .progressed, _ =>
      match budget.charge.exceeded? with
      | some limit => [moment (.error (.fault (.stepLimit limit))) budget.charge]
      | none =>
        moment (.ok .progressed) budget.charge ::
          m.chronicle n inputs budget.charge (m.step s).state
    | .ok (.suspended kind), input :: inputs =>
      let resumed := m.resume input (m.step s).state
      moment (.ok (.suspended kind)) budget ::
        ⟨Outcome.ofResume resumed.result, Effect.prints resumed.effects, budget, resumed.state⟩ ::
        match resumed.result with
        | .ok () => m.chronicle n inputs budget resumed.state
        | .error _ => []
    | answer, _ => [moment answer budget]

/-- Two moments that are alike, after as much of the budget. -/
structure Moment.Like (R : σ → σ → Prop) (E : Upset → Upset → Prop) (moment moment' : Moment σ) :
    Prop where
  answer : Agree E moment.answer moment'.answer
  prints : moment.prints = moment'.prints
  budget : moment.budget = moment'.budget
  state : R moment.state moment'.state

/-- Two operations that come to the like: to like answers and like states, with the same inputs left
and the same texts printed. -/
structure Drive.Like (R : σ → σ → Prop) (E : Upset → Upset → Prop) (d d' : Drive σ) : Prop where
  answer : Agree E d.answer d'.answer
  left : d.left = d'.left
  state : R d.session.state d'.session.state
  prints : Event.prints d.transcript.toList = Event.prints d'.transcript.toList

/-- A likeness of the states of a machine: a step and an input are alike in like states. Every
failure stands for itself. -/
structure Machine.Likens (m : Machine σ) (R : σ → σ → Prop) (E : Upset → Upset → Prop) : Prop where
  refl : ∀ upset, E upset upset
  step : m.step.Like R E m.step
  resume : ∀ input, (m.resume input).Like R E (m.resume input)

namespace Machine.Likens

variable {m : Machine σ} {R : σ → σ → Prop} {E : Upset → Upset → Prop}

/-- An input is answered alike. -/
theorem ofResume {result result' : Except Upset Unit} (h : Agree E result result') :
    Agree E (Outcome.ofResume result) (Outcome.ofResume result') := by
  cases h with
  | ok a => exact .ok _
  | error failures => exact .error failures

/-- Driven with the same inputs on the same budget, like machines stay alike. -/
theorem chronicle (hm : m.Likens R E) (n : Nat) (inputs : List Input) (budget : Budget) {s s' : σ}
    (hs : R s s') :
    List.Forall₂ (Moment.Like R E) (m.chronicle n inputs budget s)
      (m.chronicle n inputs budget s') := by
  -- The induction is on the number of steps, from the states that a step and its input leave.
  induction n generalizing inputs budget s s' with
  | zero => exact .nil
  | succ n ih =>
    obtain ⟨hresult, hstate, hprints⟩ := hm.step s s' hs
    unfold Machine.chronicle
    generalize (m.step s).result = answer at hresult
    generalize (m.step s').result = answer' at hresult
    cases hresult with
    | error failures =>
      exact .cons ⟨.error failures, hprints, rfl, hstate⟩ .nil
    | ok outcome =>
      cases outcome with
      | halted => exact .cons ⟨.ok _, hprints, rfl, hstate⟩ .nil
      | progressed =>
        dsimp only
        cases budget.charge.exceeded? with
        | some limit => exact .cons ⟨.error (hm.refl _), hprints, rfl, hstate⟩ .nil
        | none =>
          exact .cons ⟨.ok _, hprints, rfl, hstate⟩ (ih inputs budget.charge hstate)
      | suspended kind =>
        cases inputs with
        | nil => exact .cons ⟨.ok _, hprints, rfl, hstate⟩ .nil
        | cons input inputs =>
          obtain ⟨hresumed, hstate', hprints'⟩ := hm.resume input _ _ hstate
          dsimp only
          generalize (m.resume input (m.step s).state).result = resumed at hresumed
          generalize (m.resume input (m.step s').state).result = resumed' at hresumed
          refine .cons ⟨.ok _, hprints, rfl, hstate⟩
            (.cons ⟨ofResume hresumed, hprints', rfl, hstate'⟩ ?_)
          cases hresumed with
          | ok _ => exact ih inputs budget hstate'
          | error failures => exact .nil

variable {s s' : Session σ} {out out' : Transcript}

/-- What a call prints is added to what has been printed. -/
theorem printed {act act' : Act Upset σ α} (hact : (act s.state).Like R E (act' s'.state))
    (hout : Event.prints out.toList = Event.prints out'.toList) :
    Event.prints (out ++ s.told m act).toList = Event.prints (out' ++ s'.told m act').toList := by
  rw [Array.toList_appendList, Array.toList_appendList, Event.prints_append, Event.prints_append,
    Session.told, Session.told, Session.prints_events, Session.prints_events, hout, hact.prints]

/-- What a run comes to, from like states. -/
theorem run (hm : m.Likens R E) (bound : Nat) (budget : Budget) (hs : R s.state s'.state)
    (hout : Event.prints out.toList = Event.prints out'.toList) :
    Option.Rel (fun (answer, budget, s, out) (answer', budget', s', out') =>
        budget = budget' ∧
          Drive.Like R E ⟨answer, [], s, out⟩ ⟨answer', [], s', out'⟩)
      (s.run m bound budget out) (s'.run m bound budget out') := by
  induction bound generalizing budget s s' out out' with
  | zero => exact .none
  | succ bound ih =>
    have hstep := hm.step s.state s'.state hs
    have hprinted := printed hstep hout (m := m)
    obtain ⟨hresult, hstate, -⟩ := hstep
    unfold Session.run
    rw [Session.call_eq, Session.call_eq]
    generalize (m.step s.state).result = answer at hresult
    generalize (m.step s'.state).result = answer' at hresult
    cases hresult with
    | error failures => exact .some ⟨rfl, .error failures, rfl, hstate, hprinted⟩
    | ok outcome =>
      cases outcome with
      | halted => exact .some ⟨rfl, .ok _, rfl, hstate, hprinted⟩
      | suspended kind => exact .some ⟨rfl, .ok _, rfl, hstate, hprinted⟩
      | progressed =>
        dsimp only
        cases budget.charge.exceeded? with
        | some limit => exact .some ⟨rfl, .error (hm.refl _), rfl, hstate, hprinted⟩
        | none => exact ih budget.charge hstate hprinted

/-- What follows a run, from like states. -/
theorem proceed (hm : m.Likens R E) (bound : Nat) (inputs : List Input)
    {answer answer' : Except Upset Outcome} (budget : Budget) (ha : Agree E answer answer')
    (hs : R s.state s'.state) (hout : Event.prints out.toList = Event.prints out'.toList) :
    Option.Rel (fun (budget, d) (budget', d') => budget = budget' ∧ Drive.Like R E d d')
      (Session.proceed m bound inputs (answer, budget, s, out))
      (Session.proceed m bound inputs (answer', budget, s', out')) := by
  induction inputs generalizing answer answer' budget s s' out out' with
  | nil => exact .some ⟨rfl, ha, rfl, hs, hout⟩
  | cons input inputs ih =>
    have hsame := ha.suspension_eq
    cases hkind : suspension answer with
    | none =>
      rw [hkind] at hsame
      rw [Session.proceed_of_rest hkind, Session.proceed_of_rest hsame.symm]
      exact .some ⟨rfl, ha, rfl, hs, hout⟩
    | some kind =>
      rw [hkind] at hsame
      have hresume := hm.resume input s.state s'.state hs
      have hprinted := printed hresume hout (m := m)
      have hresult := hresume.result
      have hstate : R (s.left (m.resume input)).state (s'.left (m.resume input)).state :=
        hresume.state
      unfold Session.proceed
      rw [hkind, ← hsame]
      dsimp only
      rw [Session.call_eq, Session.call_eq]
      generalize (m.resume input s.state).result = result at hresult
      generalize (m.resume input s'.state).result = result' at hresult
      cases hresult with
      | error failures => exact .some ⟨rfl, .error failures, rfl, hstate, hprinted⟩
      | ok _ =>
        dsimp only
        have hrun := hm.run bound budget hstate hprinted
        generalize Session.run m bound budget (s.left (m.resume input)) _ = ended at hrun ⊢
        generalize Session.run m bound budget (s'.left (m.resume input)) _ = ended' at hrun ⊢
        cases hrun with
        | none => exact .none
        | @some ended ended' hlike =>
          obtain ⟨answer, charged, left, told⟩ := ended
          obtain ⟨answer', charged', left', told'⟩ := ended'
          obtain ⟨rfl, hdrive⟩ := hlike
          exact ih charged hdrive.answer hdrive.state hdrive.prints

/-- An operation comes to the like from like states: with the same budget used, the same inputs left
and the same texts printed. -/
theorem operate (hm : m.Likens R E) (bound : Nat) (inputs : List Input) (budget : Budget)
    (hs : R s.state s'.state) (hout : Event.prints out.toList = Event.prints out'.toList) :
    Option.Rel (fun (budget, d) (budget', d') => budget = budget' ∧ Drive.Like R E d d')
      (s.operate m bound inputs budget out) (s'.operate m bound inputs budget out') := by
  have hrun := hm.run bound budget hs hout
  unfold Session.operate
  generalize Session.run m bound budget s out = ended at hrun
  generalize Session.run m bound budget s' out' = ended' at hrun
  cases hrun with
  | none => exact .none
  | @some ended ended' hlike =>
    obtain ⟨answer, charged, left, told⟩ := ended
    obtain ⟨answer', charged', left', told'⟩ := ended'
    obtain ⟨rfl, hdrive⟩ := hlike
    exact hm.proceed bound inputs charged hdrive.answer hdrive.state hdrive.prints

/-- Every machine is like itself. -/
theorem eq (m : Machine σ) : m.Likens Eq Eq :=
  ⟨fun _ => rfl, Act.like_self _, fun _ => Act.like_self _⟩

end Machine.Likens

/-! ## Sources -/

/-- Two sources between which a machine makes no difference but for what is likened: it loads both
or neither, and does the like with either, however it is driven. -/
structure Machine.Exchanges (m : Machine σ) (R : σ → σ → Prop) (E : Upset → Upset → Prop)
    (source source' : String) : Prop where
  load : ∀ s, (m.load source s).Like R E (m.load source' s)
  load_ok_iff : ∀ s, (m.load source s).result = .ok () ↔ (m.load source' s).result = .ok ()
  chronicle : ∀ (s : σ) n inputs limit, List.Forall₂ (Moment.Like R E)
    (m.chronicle n inputs (.fresh limit) (Session.load m source s).state)
    (m.chronicle n inputs (.fresh limit) (Session.load m source' s).state)
  operate : ∀ (s : Session σ) bound inputs limit, Option.Rel
    (fun (budget, d) (budget', d') => budget = budget' ∧ Drive.Like R E d d')
    ((s.left (Session.load m source)).operate m bound inputs (.fresh limit) #[])
    ((s.left (Session.load m source')).operate m bound inputs (.fresh limit) #[])

/-- Sources that are loaded alike are exchanged. -/
theorem Machine.Likens.exchanges {m : Machine σ} {R : σ → σ → Prop} {E : Upset → Upset → Prop}
    {source source' : String} (hm : m.Likens R E) (hR : ∀ s, R s s)
    (hload : (m.load source).Like R E (m.load source')) (hreset : m.reset.Like R E m.reset) :
    m.Exchanges R E source source' := by
  have hready (s : σ) : R (Session.load m source s).state (Session.load m source' s).state :=
    (Act.Like.bind hload (fun _ => hreset) s s (hR s)).state
  exact {
    load := fun s => hload s s (hR s)
    load_ok_iff := fun s => (hload s s (hR s)).result.ok_iff ()
    chronicle := fun s n inputs limit => hm.chronicle n inputs (.fresh limit) (hready s)
    operate := fun s bound inputs limit =>
      hm.operate bound inputs (.fresh limit) (hready s.state) rfl }

/-- Sources that are loaded as the same program are exchanged. -/
theorem Machine.exchanges_of_eq {m : Machine σ} {source source' : String}
    (h : m.load source' = m.load source) : m.Exchanges Eq Eq source source' := by
  refine (Likens.eq m).exchanges (fun _ => rfl) ?_ (Act.like_self _)
  rw [h]
  exact Act.like_self _

end EsotericHost
