import EsotericHost.Catalogue.Basic
import EsotericHost.Proofs.Machine.Composition

/-!
# Lawful machines

What the host relies on when it calls a machine. A lawful machine has an invariant and can tell from
its state whether it waits for input and for which kind; each of its calls keeps the invariant,
never crashes, and says by its result whether the machine waits afterwards (`Machine.Lawful`).

Calls are shown to be safe part by part: `Act.Safe` says that a part keeps a property of the state
and fails only with errors of a given kind.
-/

namespace EsotericHost

variable {ε ε' σ τ α β : Type}

/-- An error that the host expects of a machine in use: no crash, and no complaint that the machine
does not wait for input. -/
def Upset.Mild : Upset → Prop
  | .fault f => f ≠ .notSuspended
  | .crash _ => False

/-! ## Safe parts of a call -/

/-- A turn whose state has a property and whose error, if there is one, is of a given kind. -/
def Turn.Safe (P : σ → Prop) (E : ε → Prop) (t : Turn ε σ α) : Prop :=
  P t.state ∧ ∀ e, t.result = .error e → E e

/-- A turn whose state has a stronger property. -/
theorem Turn.Safe.mono {P Q : σ → Prop} {E : ε → Prop} {t : Turn ε σ α} (ht : t.Safe P E)
    (hPQ : ∀ s, P s → Q s) : t.Safe Q E :=
  ⟨hPQ _ ht.1, ht.2⟩

/-- A turn that succeeds does not fail. -/
theorem Turn.Safe.of_ok {P : σ → Prop} {E : ε → Prop} {t : Turn ε σ α} {a : α}
    (hok : t.result = .ok a) (hs : P t.state) : t.Safe P E := by
  refine ⟨hs, fun e he => ?_⟩
  rw [hok] at he
  cases he

namespace Act

/-- A part of a call that keeps a property of the state and fails only with errors of a given
kind. -/
def Safe (P : σ → Prop) (E : ε → Prop) (act : Act ε σ α) : Prop :=
  ∀ s, P s → (act s).Safe P E

variable {P : σ → Prop} {E : ε → Prop} {s : σ}

/-- A part that succeeds hands its value and the state to the next part. -/
theorem bind_of_ok {x : Act ε σ α} {f : α → Act ε σ β} {s' : σ} {a : α} {effects : List Effect}
    (hx : x s = ⟨.ok a, s', effects⟩) :
    (x >>= f) s = ⟨(f a s').result, (f a s').state, effects ++ (f a s').effects⟩ := by
  change Act.bind x f s = _
  unfold Act.bind
  rw [hx]

/-- A part that fails fails the whole. -/
theorem bind_of_error {x : Act ε σ α} {f : α → Act ε σ β} {s' : σ} {e : ε}
    {effects : List Effect} (hx : x s = ⟨.error e, s', effects⟩) :
    (x >>= f) s = ⟨.error e, s', effects⟩ := by
  change Act.bind x f s = _
  unfold Act.bind
  rw [hx]

/-- Reading the state and going on from it. -/
theorem get_bind_apply (f : σ → Act ε σ β) (s : σ) : (get >>= f) s = f s s := rfl

/-- A sequence is safe from a state if its first part is, and its second part is safe. -/
theorem Safe.bind_at {x : Act ε σ α} {f : α → Act ε σ β} (hx : (x s).Safe P E)
    (hf : ∀ a, Safe P E (f a)) : ((x >>= f) s).Safe P E := by
  obtain ⟨t, ht⟩ : ∃ t, x s = t := ⟨_, rfl⟩
  obtain ⟨result, s', effects⟩ := t
  rw [ht] at hx
  cases result with
  | ok a =>
    rw [bind_of_ok ht]
    exact hf a s' hx.1
  | error e =>
    rw [bind_of_error ht]
    refine ⟨hx.1, fun e' he => ?_⟩
    cases he
    exact hx.2 e rfl

/-- A sequence of safe parts is safe. -/
theorem Safe.bind {x : Act ε σ α} {f : α → Act ε σ β} (hx : Safe P E x)
    (hf : ∀ a, Safe P E (f a)) : Safe P E (x >>= f) :=
  fun s hs => bind_at (hx s hs) hf

/-- A part that reads the state is safe if what it does then is safe from that state. -/
theorem Safe.get_bind {f : σ → Act ε σ β} (hf : ∀ s, P s → (f s s).Safe P E) :
    Safe P E (get >>= f) := by
  intro s hs
  rw [get_bind_apply]
  exact hf s hs

/-- To give a value is safe. -/
theorem safe_pure (a : α) : Safe P E (pure a : Act ε σ α) :=
  fun _ hs => ⟨hs, fun _ he => nomatch he⟩

/-- To look at the state is safe. -/
theorem safe_get : Safe P E (get : Act ε σ σ) :=
  fun _ hs => ⟨hs, fun _ he => nomatch he⟩

/-- A change that keeps the property of the state is safe. -/
theorem safe_modify {f : σ → σ} (hf : ∀ s, P s → P (f s)) : Safe P E (modify f) :=
  fun s hs => ⟨hf s hs, fun _ he => nomatch he⟩

/-- A failure is safe if it is of the given kind. -/
theorem safe_fail {e : ε} (he : E e) : Safe P E (fail e : Act ε σ α) := by
  refine fun s hs => ⟨hs, fun e' he' => ?_⟩
  cases he'
  exact he

/-- To print is safe. -/
theorem safe_print (text : String) : Safe P E (print text) :=
  fun _ hs => ⟨hs, fun _ he => nomatch he⟩

/-- To tell of a change is safe. -/
theorem safe_notify (notice : Notice) : Safe P E (notify notice) :=
  fun _ hs => ⟨hs, fun _ he => nomatch he⟩

/-- What is put together from safe parts is safe. -/
theorem Composed.safe {B : (α : Type) → Act ε σ α → Prop} {x : Act ε σ α} (hx : Composed E B x)
    (hB : ∀ (α : Type) (x : Act ε σ α), B α x → Safe P E x) : Safe P E x := by
  induction hx with
  | basic hx => exact hB _ _ hx
  | pure a => exact safe_pure a
  | get => exact safe_get
  | print text => exact safe_print text
  | fail he => exact safe_fail he
  | bind _ _ ihx ihf => exact .bind ihx ihf

/-- The same property in other words. -/
theorem Safe.congr {P' : σ → Prop} {act : Act ε σ α} (hact : Safe P E act)
    (hP : ∀ s, P s ↔ P' s) : Safe P' E act := by
  intro s hs
  obtain ⟨hstate, herror⟩ := hact s ((hP s).mpr hs)
  exact ⟨(hP _).mp hstate, herror⟩

end Act

/-- Errors in other words. -/
theorem Turn.Safe.mapError {P : σ → Prop} {E : ε → Prop} {E' : ε' → Prop} {describe : ε → ε'}
    {t : Turn ε σ α} (ht : t.Safe P E) (hE : ∀ e, E e → E' (describe e)) :
    (t.mapError describe).Safe P E' := by
  refine ⟨ht.1, fun u hu => ?_⟩
  change t.result.mapError describe = .error u at hu
  cases hr : t.result with
  | ok a => rw [hr] at hu; cases hu
  | error e =>
    rw [hr] at hu
    cases hu
    exact hE e (ht.2 e hr)

/-! ## Instructions -/

/-- The input that an answer of a machine says it waits for. -/
def suspension : Except ε Outcome → Option InputKind
  | .ok (.suspended kind) => some kind
  | _ => none

/-- Putting an error in other words does not change whether the machine waits. -/
theorem suspension_mapError (f : ε → ε') (r : Except ε Outcome) :
    suspension (r.mapError f) = suspension r := by
  cases r with
  | ok outcome => cases outcome <;> rfl
  | error e => rfl

/-- An answer by which a machine waits says so. -/
theorem suspension_eq_some {r : Except ε Outcome} {kind : InputKind}
    (hr : suspension r = some kind) : r = .ok (.suspended kind) := by
  match r with
  | .ok (.suspended asked) => rw [Option.some.inj hr]
  | .ok .halted => cases hr
  | .ok .progressed => cases hr
  | .error e => cases hr

/-- A machine that can wait for one kind of input does not wait just if it says so. -/
theorem await_eq_none {waiting : Bool} {kind : InputKind} :
    (if waiting then some kind else none) = none ↔ waiting = false := by
  cases waiting <;> simp

/-- Such a machine waits just if it says so, and then for that kind. -/
theorem await_eq_some {waiting : Bool} {kind asked : InputKind} :
    (if waiting then some kind else none) = some asked ↔ waiting = true ∧ asked = kind := by
  cases waiting <;> simp [eq_comm]

namespace Act

/-- A part of an instruction that, from a state in which the machine does not wait, keeps the
invariant and says truly whether the machine waits afterwards. -/
def Candid (Good : σ → Prop) (waits : σ → Option InputKind) (E : ε → Prop)
    (act : Act ε σ Outcome) : Prop :=
  ∀ s, Good s → waits s = none →
    (act s).Safe Good E ∧ waits (act s).state = suspension (act s).result

variable {Good : σ → Prop} {waits : σ → Option InputKind} {E : ε → Prop}

/-- An instruction that is candid from the state of a machine in which more holds. -/
theorem Candid.weaken {Strong : σ → Prop} {act : Act ε σ Outcome}
    (hc : Candid Strong waits E act) {s : σ} (hs : Strong s) (hw : waits s = none)
    (hmono : ∀ s, Strong s → Good s) :
    (act s).Safe Good E ∧ waits (act s).state = suspension (act s).result :=
  ⟨(hc s hs hw).1.mono hmono, (hc s hs hw).2⟩

/-- A safe part before a candid one. -/
theorem Candid.bind {x : Act ε σ α} {f : α → Act ε σ Outcome}
    (hx : Safe (fun s => Good s ∧ waits s = none) E x) (hf : ∀ a, Candid Good waits E (f a)) :
    Candid Good waits E (x >>= f) := by
  intro s hs hw
  obtain ⟨⟨hgood, hnone⟩, herror⟩ := hx s ⟨hs, hw⟩
  obtain ⟨t, ht⟩ : ∃ t, x s = t := ⟨_, rfl⟩
  obtain ⟨result, s', effects⟩ := t
  rw [ht] at hgood hnone herror
  cases result with
  | ok a =>
    rw [bind_of_ok ht]
    exact hf a s' hgood hnone
  | error e =>
    rw [bind_of_error ht]
    refine ⟨⟨hgood, fun e' he => ?_⟩, hnone⟩
    cases he
    exact herror e rfl

/-- An instruction that reads the state first. -/
theorem Candid.get_bind {f : σ → Act ε σ Outcome}
    (hf : ∀ s, Good s → waits s = none → Candid Good waits E (f s)) :
    Candid Good waits E (get >>= f) := by
  intro s hs hw
  rw [get_bind_apply]
  exact hf s hs hw s hs hw

/-- An instruction that may be told of before it is carried out. -/
theorem Candid.echoed {p : Prop} [Decidable p] {x : Act ε σ α} {f : Act ε σ Outcome}
    (hx : Safe (fun s => Good s ∧ waits s = none) E x) (hf : Candid Good waits E f) :
    Candid Good waits E (if p then x >>= fun _ => f else f) := by
  split
  · exact .bind hx fun _ => hf
  · exact hf

/-- An instruction that ends without a wait. -/
theorem candid_pure {outcome : Outcome} (ho : suspension (.ok outcome : Except ε Outcome) = none) :
    Candid Good waits E (pure outcome) := by
  intro s hs hw
  exact ⟨⟨hs, fun _ he => nomatch he⟩, hw.trans ho.symm⟩

/-- An instruction that begins to wait. -/
theorem candid_await {f : σ → σ} {kind : InputKind}
    (hf : ∀ s, Good s → Good (f s) ∧ waits (f s) = some kind) :
    Candid Good waits E (modify f >>= fun _ => pure (.suspended kind)) := by
  intro s hs _
  exact ⟨⟨(hf s hs).1, fun _ he => nomatch he⟩, (hf s hs).2⟩

end Act

/-! ## Lawful machines -/

/-- A call that has succeeded and leaves a machine that does not wait. -/
def Turn.Ready (Good : σ → Prop) (waits : σ → Option InputKind) (t : Turn ε σ Unit) : Prop :=
  t.result = .ok () ∧ Good t.state ∧ waits t.state = none

/-- What the host relies on when it calls a machine in a state: the invariant is kept, nothing
crashes, the machine waits for input exactly when it says so, and a load that fails leaves no
trace. -/
structure Machine.LawfulAt (m : Machine σ) (Good : σ → Prop) (waits : σ → Option InputKind)
    (s : σ) : Prop where
  /-- A program is loaded and ready to run, or it is refused without a trace. -/
  load_cases : ∀ source, (Session.load m source s).Ready Good waits ∨
    ∃ fault, Session.load m source s = ⟨.error (.fault fault), s, []⟩
  /-- A reset always succeeds. -/
  reset_ready : (m.reset s).Ready Good waits
  /-- A step keeps the invariant, whatever comes of it. -/
  step_safe : (m.step s).Safe Good Upset.Mild
  /-- The machine waits after a step just if the step says so. -/
  step_waits : waits (m.step s).state = suspension (m.step s).result
  /-- The next step of a machine that waits does nothing but say so. -/
  waits_iff : ∀ kind, waits s = some kind ↔ m.step s = ⟨.ok (.suspended kind), s, []⟩
  /-- An input of the kind that is waited for ends the wait, whether it can be used or not. -/
  resume_safe : ∀ input, waits s = some input.kind →
    (m.resume input s).Safe (fun s => Good s ∧ waits s = none) Upset.Mild
  /-- The machine can be asked to shorten a program. -/
  minify_ok : ∀ source, ∃ answer, m.minify s source = .ok answer
  /-- The machine can be asked for a program that prints a text. -/
  fromText_ok : ∀ text, ∃ answer, m.fromText s text = .ok answer

/-- A machine that the host can rely on in every state in which its invariant holds. -/
def Machine.Lawful (m : Machine σ) (Good : σ → Prop) (waits : σ → Option InputKind) : Prop :=
  ∀ s, Good s → m.LawfulAt Good waits s

/-- What a machine needs of its instructions: they are candid, and a machine that waits goes on
waiting. -/
theorem Act.Candid.lawful_step {Good : σ → Prop} {waits : σ → Option InputKind} {E : ε → Prop}
    {step : Act ε σ Outcome} {describe : ε → Upset} (hc : Candid Good waits E step)
    (hwaiting : ∀ s kind, waits s = some kind → step s = ⟨.ok (.suspended kind), s, []⟩)
    (hE : ∀ e, E e → (describe e).Mild) {s : σ} (hs : Good s) :
    (step.asCall describe s).Safe Good Upset.Mild ∧
      waits (step.asCall describe s).state = suspension (step.asCall describe s).result ∧
      ∀ kind, waits s = some kind ↔ step.asCall describe s = ⟨.ok (.suspended kind), s, []⟩ := by
  cases hw : waits s with
  | none =>
    -- Not waiting before the step, the machine waits after it just if the step says so.
    obtain ⟨hsafe, htells⟩ := hc s hs hw
    have htells' : waits (step.asCall describe s).state =
        suspension (step.asCall describe s).result :=
      htells.trans (suspension_mapError describe _).symm
    refine ⟨?_, htells', fun kind => ⟨fun hk => (nomatch hk), fun hk => ?_⟩⟩
    · exact hsafe.mapError hE
    · rw [hk, hw] at htells'
      exact htells'
  | some kind =>
    -- A machine that waits does nothing but say so.
    have hstep : step.asCall describe s = ⟨.ok (.suspended kind), s, []⟩ := by
      unfold Act.asCall
      rw [hwaiting s kind hw]
      rfl
    rw [hstep]
    refine ⟨⟨hs, fun _ he => nomatch he⟩, hw, fun k => ⟨fun hk => ?_, fun hk => ?_⟩⟩
    · rw [Option.some.inj hk]
    · rw [Turn.mk.injEq, Except.ok.injEq, Outcome.suspended.injEq] at hk
      rw [hk.1]

/-- What a machine needs of its reading of programs: a program that is read makes a reset possible,
and one that is not read leaves no trace. -/
theorem Session.load_cases {m : Machine σ} {Good Loaded : σ → Prop}
    {waits : σ → Option InputKind} {source : String} {s : σ}
    (hload : (∃ s' effects, m.load source s = ⟨.ok (), s', effects⟩ ∧ Loaded s') ∨
      ∃ fault, m.load source s = ⟨.error (.fault fault), s, []⟩)
    (hreset : ∀ s, Loaded s → (m.reset s).Ready Good waits) :
    (load m source s).Ready Good waits ∨
      ∃ fault, load m source s = ⟨.error (.fault fault), s, []⟩ := by
  rcases hload with ⟨s', effects, hload, hs'⟩ | ⟨fault, hload⟩
  -- Whatever is loaded is reset at once.
  · refine .inl ?_
    unfold load
    rw [Act.bind_of_ok hload]
    exact hreset s' hs'
  · exact .inr ⟨fault, Act.bind_of_error hload⟩

/-! ## Catalogues of lawful machines -/

/-- A catalogue whose machines the host can rely on: they are lawful, and none of them waits from
the start. -/
structure Catalogue.Reliable (c : Catalogue σ) (Good : σ → Prop) (waits : σ → Option InputKind) :
    Prop where
  lawful : c.machine.Lawful Good waits
  builds : ∀ language ∈ c.languages, ∀ options s, language.build options = .ok s →
    Good s ∧ waits s = none

/-- A session that a catalogue opens has the machine that a language of the catalogue builds, and
the name of that language. -/
theorem Catalogue.openSession_ok {c : Catalogue σ} {s : Session σ} {lang : String}
    {options : Options} (hs : c.openSession lang options = .ok s) :
    ∃ language ∈ c.languages, language.build options = .ok s.state ∧ s.lang = language.name := by
  unfold openSession at hs
  split at hs
  · cases hs
  · rename_i language hl
    split at hs
    · cases hs
    · rename_i state hb
      cases hs
      exact ⟨language, List.mem_of_find?_eq_some hl, hb, rfl⟩

end EsotericHost
