import EsotericHost.Proofs.Host.Parts
import EsotericHost.Proofs.Machine.Builtin

/-!
# Machines that can be rewound

A reset brings a machine back to the start of its program. Three parts of a state are told apart
here: `still` leaves out what a reset may keep, `ready` is the state at the start of the program
that is loaded, and `bare` is the machine as its options made it, without any program. A machine
can be rewound (`Machine.RewindsAt`) if its instructions change nothing of what is ready, its reset
leaves just that, and a load depends on nothing but the bare machine.

`Machine.Visits` lists the states that calls of a machine come to, with the source that was loaded
last. Whatever the calls were, the machine is ready for that source as if it were new
(`Machine.Visits.ready_eq`).
-/

namespace EsotericHost

variable {σ τ : Type}

/-! ## Parts of a call that keep a view of the state -/

namespace Act

variable {ε α β ρ : Type} {view : σ → ρ}

/-- A part of a call that does not change what a view shows of the state, whether it fails or
not. -/
def Keeps (view : σ → ρ) (act : Act ε σ α) : Prop :=
  ∀ s, view (act s).state = view s

/-- Parts of a call that keep a view do so one after the other. -/
theorem Keeps.bind {x : Act ε σ α} {f : α → Act ε σ β} (hx : Keeps view x)
    (hf : ∀ a, Keeps view (f a)) : Keeps view (x >>= f) := by
  intro s
  have hs := hx s
  obtain ⟨t, ht⟩ : ∃ t, x s = t := ⟨_, rfl⟩
  obtain ⟨result, s', effects⟩ := t
  rw [ht] at hs
  cases result with
  | ok a =>
    rw [bind_of_ok ht]
    exact (hf a s').trans hs
  | error e =>
    rw [bind_of_error ht]
    exact hs

/-- To give a value keeps every view. -/
theorem keeps_pure (a : α) : Keeps view (pure a : Act ε σ α) := fun _ => rfl

/-- To look at the state keeps every view. -/
theorem keeps_get : Keeps view (get : Act ε σ σ) := fun _ => rfl

/-- A change of the state keeps a view that does not show it. -/
theorem keeps_modify {f : σ → σ} (hf : ∀ s, view (f s) = view s) :
    Keeps view (modify f : Act ε σ Unit) := hf

/-- A failure keeps every view. -/
theorem keeps_fail (e : ε) : Keeps view (fail e : Act ε σ α) := fun _ => rfl

/-- To print keeps every view. -/
theorem keeps_print (text : String) : Keeps view (print text : Act ε σ Unit) := fun _ => rfl

/-- To tell of a change keeps every view. -/
theorem keeps_notify (notice : Notice) : Keeps view (notify notice : Act ε σ Unit) := fun _ => rfl

/-- What is put together from such parts. -/
theorem Composed.keeps {E : ε → Prop} {B : (α : Type) → Act ε σ α → Prop} {x : Act ε σ α}
    (hx : Composed E B x) (hB : ∀ (α : Type) (x : Act ε σ α), B α x → Keeps view x) :
    Keeps view x := by
  induction hx with
  | basic hx => exact hB _ _ hx
  | pure a => exact keeps_pure a
  | get => exact keeps_get
  | print text => exact keeps_print text
  | fail _ => exact keeps_fail _
  | bind _ _ ihx ihf => exact .bind ihx ihf

/-- A part that may be left out. -/
theorem Keeps.when {p : Prop} [Decidable p] {x : Act ε σ α} {f : Act ε σ β}
    (hx : Keeps view x) (hf : Keeps view f) : Keeps view (if p then x >>= fun _ => f else f) := by
  split
  · exact .bind hx fun _ => hf
  · exact hf

end Act

/-! ## Rewinding -/

/-- What a reset and a load do in a state of a machine that can be rewound. -/
structure Machine.RewindsAt (m : Machine σ) (still ready bare : σ → σ) (s : σ) : Prop where
  /-- A reset always succeeds. -/
  reset_ok : (m.reset s).result = .ok ()
  /-- It leaves the machine at the start of its program. -/
  still_reset : still (m.reset s).state = ready s
  /-- What is ready stays so, whatever the machine is asked to do but load. -/
  ready_reset : ready (m.reset s).state = ready s
  ready_step : ready (m.step s).state = ready s
  ready_resume : ∀ input, ready (m.resume input s).state = ready s
  /-- A source loads if it loads on the bare machine, and gives the same program there. -/
  load_result : ∀ source, (m.load source s).result = (m.load source (bare s)).result
  ready_load : ∀ source, (m.load source s).result = .ok () →
    ready (m.load source s).state = ready (m.load source (bare s)).state
  /-- A source that does not load changes nothing. -/
  load_refused : ∀ source upset, (m.load source s).result = .error upset →
    (m.load source s).state = s
  /-- Loading leaves the options that the machine was made with. -/
  bare_load : ∀ source, bare (m.load source s).state = bare s
  bare_ready : bare (ready s) = bare s

/-- A machine that can be rewound in every state. -/
def Machine.Rewinds (m : Machine σ) (still ready bare : σ → σ) : Prop :=
  ∀ s, m.RewindsAt still ready bare s

/-- A machine can be rewound in the states of another one that it mirrors. -/
theorem Machine.Mirrors.rewindsAt {m : Machine σ} {n : Machine τ} {f : τ → σ}
    {still ready bare : σ → σ} {still' ready' bare' : τ → τ} (hm : m.Mirrors n f)
    (hstill : ∀ s, still (f s) = f (still' s)) (hready : ∀ s, ready (f s) = f (ready' s))
    (hbare : ∀ s, bare (f s) = f (bare' s)) {s : τ} (hs : n.RewindsAt still' ready' bare' s) :
    m.RewindsAt still ready bare (f s) where
  reset_ok := by
    rw [hm.reset]
    exact hs.reset_ok
  still_reset := by
    rw [hm.reset, hready, ← hs.still_reset]
    exact hstill _
  ready_reset := by
    rw [hm.reset, hready s, ← hs.ready_reset]
    exact hready _
  ready_step := by
    rw [hm.step, hready s, ← hs.ready_step]
    exact hready _
  ready_resume input := by
    rw [hm.resume, hready s, ← hs.ready_resume input]
    exact hready _
  load_result source := by
    rw [hbare, hm.load, hm.load]
    exact hs.load_result source
  ready_load source hok := by
    rw [hm.load] at hok
    rw [hbare, hm.load, hm.load]
    calc ready (f (n.load source s).state)
        = f (ready' (n.load source s).state) := hready _
      _ = f (ready' (n.load source (bare' s)).state) := by rw [hs.ready_load source hok]
      _ = ready (f (n.load source (bare' s)).state) := (hready _).symm
  load_refused source upset herror := by
    rw [hm.load] at herror ⊢
    exact congrArg f (hs.load_refused source upset herror)
  bare_load source := by
    rw [hm.load, hbare s, ← hs.bare_load source]
    exact hbare _
  bare_ready := by rw [hready, hbare, hbare, hs.bare_ready]

/-- The states that a machine comes to from the one it is made in, by loads, resets, steps, runs and
inputs in any order, with the source that was loaded last. A source that loads is reset at once. -/
inductive Machine.Visits (m : Machine σ) (start : σ) : Option String → σ → Prop where
  | made : Visits m start none start
  | loaded {last : Option String} {s : σ} {source : String} (before : Visits m start last s)
    (ok : (m.load source s).result = .ok ()) :
    Visits m start (some source) (Session.load m source s).state
  | refused {last : Option String} {s : σ} {source : String} {upset : Upset}
    (before : Visits m start last s) (error : (m.load source s).result = .error upset) :
    Visits m start last (m.load source s).state
  | reset {last : Option String} {s : σ} (before : Visits m start last s) :
    Visits m start last (m.reset s).state
  | stepped {last : Option String} {s : σ} (before : Visits m start last s) :
    Visits m start last (m.step s).state
  | ran {last : Option String} {s s' : Session σ} {bound : Nat} {budget budget' : Budget}
    {out out' : Transcript} {answer : Except Upset Outcome} (before : Visits m start last s.state)
    (run : s.run m bound budget out = some (answer, budget', s', out')) :
    Visits m start last s'.state
  | resumed {last : Option String} {s : σ} {input : Input} (before : Visits m start last s) :
    Visits m start last (m.resume input s).state

/-- A machine just made, with the given source loaded and ready to run, if any is given. -/
def Machine.fresh (m : Machine σ) (start : σ) : Option String → σ
  | none => start
  | some source => (Session.load m source start).state

namespace Machine

variable {m : Machine σ} {still ready bare : σ → σ} {start s : σ} {last : Option String}
  {source : String}

/-- A source that loads is reset after that. -/
theorem load_of_ok (hok : (m.load source s).result = .ok ()) :
    (Session.load m source s).result = (m.reset (m.load source s).state).result ∧
      (Session.load m source s).state = (m.reset (m.load source s).state).state ∧
      (Session.load m source s).effects =
        (m.load source s).effects ++ (m.reset (m.load source s).state).effects := by
  obtain ⟨t, ht⟩ : ∃ t, m.load source s = t := ⟨_, rfl⟩
  obtain ⟨result, s', effects⟩ := t
  rw [ht] at hok
  obtain rfl : result = .ok () := hok
  unfold Session.load
  rw [Act.bind_of_ok ht, ht]
  exact ⟨rfl, rfl, rfl⟩

/-- A source that does not load is not reset. -/
theorem load_of_error {upset : Upset}
    (herror : (m.load source s).result = .error upset) :
    Session.load m source s = m.load source s := by
  obtain ⟨t, ht⟩ : ∃ t, m.load source s = t := ⟨_, rfl⟩
  obtain ⟨result, s', effects⟩ := t
  rw [ht] at herror
  obtain rfl : result = .error upset := herror
  unfold Session.load
  rw [Act.bind_of_error ht, ht]

/-- What is ready after a step is ready after a run. -/
theorem Rewinds.ready_run (hm : m.Rewinds still ready bare) {s s' : Session σ} {bound : Nat}
    {budget budget' : Budget} {out out' : Transcript} {answer : Except Upset Outcome}
    (hr : s.run m bound budget out = some (answer, budget', s', out')) :
    ready s'.state = ready s.state := by
  obtain ⟨before, -, hbefore, rfl, -, -⟩ :=
    Session.run_ends (P := fun k _ => ready k.state = ready s.state) hr rfl
      fun k _ hk => ((hm k.state).ready_step).trans hk
  exact ((hm before.state).ready_step).trans hbefore

/-- The bare machine is the same in states for which the same is ready. -/
theorem Rewinds.bare_of_ready (hm : m.Rewinds still ready bare) {t : σ}
    (hst : ready s = ready t) : bare s = bare t := by
  rw [← (hm s).bare_ready, hst, (hm t).bare_ready]

/-- What a source that loads makes ready depends on the bare machine only. -/
theorem Rewinds.ready_loaded (hm : m.Rewinds still ready bare)
    (hok : (m.load source s).result = .ok ()) :
    ready (Session.load m source s).state = ready (m.load source (bare s)).state := by
  rw [(load_of_ok hok).2.1, (hm _).ready_reset]
  exact (hm s).ready_load source hok

/-- A source that loads leaves the same, apart from what a reset keeps, as on the bare machine. -/
theorem Rewinds.still_loaded (hm : m.Rewinds still ready bare)
    (hok : (m.load source s).result = .ok ()) :
    still (Session.load m source s).state = ready (m.load source (bare s)).state := by
  rw [(load_of_ok hok).2.1, (hm _).still_reset]
  exact (hm s).ready_load source hok

/-- Loading a source and making it ready leaves the bare machine, whether the source loads or
not. -/
theorem Rewinds.bare_loaded (hm : m.Rewinds still ready bare) (source : String) (s : σ) :
    bare (Session.load m source s).state = bare s := by
  cases hr : (m.load source s).result with
  | ok _ =>
    rw [(load_of_ok hr).2.1, hm.bare_of_ready (hm _).ready_reset]
    exact (hm s).bare_load source
  | error upset =>
    rw [load_of_error hr]
    exact (hm s).bare_load source

/-- No call changes the bare machine. -/
theorem Visits.bare_eq (hm : m.Rewinds still ready bare) (hstart : bare start = start)
    (hv : m.Visits start last s) : bare s = start := by
  induction hv with
  | made => exact hstart
  | @loaded last s source before ok ih =>
    exact (hm.bare_loaded source s).trans ih
  | @refused last s source upset before error ih =>
    rw [(hm s).load_refused source upset error]
    exact ih
  | @reset last s before ih => exact (hm.bare_of_ready (hm s).ready_reset).trans ih
  | @stepped last s before ih => exact (hm.bare_of_ready (hm s).ready_step).trans ih
  | @ran last s s' bound budget budget' out out' answer before run ih =>
    exact (hm.bare_of_ready (hm.ready_run run)).trans ih
  | @resumed last s input before ih =>
    exact (hm.bare_of_ready ((hm s).ready_resume input)).trans ih

/-- Whatever calls a machine has seen, what is ready is what the last source that loaded makes
ready on a new machine. -/
theorem Visits.ready_eq (hm : m.Rewinds still ready bare) (hstart : bare start = start)
    (hready : ready start = still start) (hv : m.Visits start last s) :
    ready s = still (m.fresh start last) := by
  induction hv with
  | made => exact hready
  | @loaded last s source before ok ih =>
    have hbare : bare s = start := before.bare_eq hm hstart
    -- The source loads on the new machine because it loads on this one.
    have hok : (m.load source start).result = .ok () := by
      rw [← hbare, ← (hm s).load_result source]
      exact ok
    calc ready (Session.load m source s).state
        = ready (m.load source (bare s)).state := hm.ready_loaded ok
      _ = ready (m.load source (bare start)).state := by rw [hbare, hstart]
      _ = still (Session.load m source start).state := (hm.still_loaded hok).symm
  | @refused last s source upset before error ih =>
    rw [(hm s).load_refused source upset error]
    exact ih
  | @reset last s before ih => exact (hm s).ready_reset.trans ih
  | @stepped last s before ih => exact (hm s).ready_step.trans ih
  | @ran last s s' bound budget budget' out out' answer before run ih =>
    exact (hm.ready_run run).trans ih
  | @resumed last s input before ih => exact ((hm s).ready_resume input).trans ih

/-- A machine that has been made in one state and has come to another one, after the given source
was loaded last, has forgotten everything else that was asked of it as soon as it loads code or is
reset. -/
structure ForgetsAt (m : Machine σ) (still : σ → σ) (start : σ) (last : Option String) (s : σ) :
    Prop where
  /-- A source that loads leaves, with the reset that follows, what it leaves of a new machine. -/
  loads : ∀ source, (m.load source s).result = .ok () →
    (Session.load m source s).result = .ok () ∧ (Session.load m source start).result = .ok () ∧
      still (Session.load m source s).state = still (Session.load m source start).state
  /-- A source that does not load leaves everything as it is. -/
  refuses : ∀ source upset, (m.load source s).result = .error upset → (m.load source s).state = s
  /-- A reset leaves what the source that was loaded last leaves of a new machine. -/
  resets : (m.reset s).result = .ok () ∧ still (m.reset s).state = still (m.fresh start last)

/-- A machine that can be rewound forgets. -/
theorem Visits.forgetsAt (hm : m.Rewinds still ready bare) (hstart : bare start = start)
    (hready : ready start = still start) (hv : m.Visits start last s) :
    m.ForgetsAt still start last s where
  loads source hok := by
    have hbare : bare s = start := hv.bare_eq hm hstart
    have hnew : (m.load source start).result = .ok () := by
      rw [← hbare, ← (hm s).load_result source]
      exact hok
    refine ⟨(load_of_ok hok).1.trans (hm _).reset_ok, (load_of_ok hnew).1.trans (hm _).reset_ok, ?_⟩
    rw [hm.still_loaded hok, hm.still_loaded hnew, hbare, hstart]
  refuses source upset herror := (hm s).load_refused source upset herror
  resets := ⟨(hm s).reset_ok, (hm s).still_reset.trans (hv.ready_eq hm hstart hready)⟩

end Machine

end EsotericHost
