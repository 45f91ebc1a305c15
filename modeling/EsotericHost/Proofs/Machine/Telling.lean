import EsotericHost.Machine.Basic
import EsotericHost.Proofs.Machine.Lawful

/-!
# What a machine tells

A machine gives notice of the changes inside it. `Act.Tells` says that a part of a call keeps a
property of the state and gives only notices of a given kind; it is shown part by part, like the
safety of a call. `Machine.Tells` says it of all calls of a machine, for the programs of a given
kind.
-/

namespace EsotericHost

variable {ε ε' σ τ α β : Type} {P : σ → Prop} {N : Notice → Prop}

/-- A turn whose state has a property and whose notices are of a given kind. -/
structure Turn.Tells (P : σ → Prop) (N : Notice → Prop) (t : Turn ε σ α) : Prop where
  state : P t.state
  notices : ∀ notice, .notify notice ∈ t.effects → N notice

/-- A turn without notices. -/
theorem Turn.tells_quietly {t : Turn ε σ α} (hs : P t.state) (hq : t.effects = []) :
    t.Tells P N :=
  ⟨hs, fun _ hn => by rw [hq] at hn; cases hn⟩

namespace Act

/-- A part of a call that keeps a property of the state and gives only notices of a given kind. -/
def Tells (P : σ → Prop) (N : Notice → Prop) (act : Act ε σ α) : Prop :=
  ∀ s, P s → (act s).Tells P N

variable {s : σ}

/-- A sequence tells from a state what it should if its first part does, and its second part
does from every state. -/
theorem Tells.bind_at {x : Act ε σ α} {f : α → Act ε σ β} (hx : (x s).Tells P N)
    (hf : ∀ a, Tells P N (f a)) : ((x >>= f) s).Tells P N := by
  obtain ⟨t, ht⟩ : ∃ t, x s = t := ⟨_, rfl⟩
  obtain ⟨result, s', effects⟩ := t
  rw [ht] at hx
  cases result with
  | ok a =>
    rw [bind_of_ok ht]
    obtain ⟨hstate, hnotices⟩ := hf a s' hx.state
    exact ⟨hstate, fun notice hn => (List.mem_append.mp hn).elim (hx.notices _) (hnotices _)⟩
  | error e =>
    rw [bind_of_error ht]
    exact ⟨hx.state, hx.notices⟩

/-- A sequence of such parts. -/
theorem Tells.bind {x : Act ε σ α} {f : α → Act ε σ β} (hx : Tells P N x)
    (hf : ∀ a, Tells P N (f a)) : Tells P N (x >>= f) :=
  fun s hs => bind_at (hx s hs) hf

/-- A part that reads the state first. -/
theorem Tells.get_bind {f : σ → Act ε σ β} (hf : ∀ s, P s → (f s s).Tells P N) :
    Tells P N (get >>= f) := by
  intro s hs
  rw [get_bind_apply]
  exact hf s hs

/-- To give a value tells nothing. -/
theorem tells_pure (a : α) : Tells P N (pure a : Act ε σ α) :=
  fun _ hs => Turn.tells_quietly hs rfl

/-- To look at the state tells nothing. -/
theorem tells_get : Tells P N (get : Act ε σ σ) :=
  fun _ hs => Turn.tells_quietly hs rfl

/-- A change that keeps the property of the state tells nothing. -/
theorem tells_modify {f : σ → σ} (hf : ∀ s, P s → P (f s)) :
    Tells P N (modify f : Act ε σ Unit) :=
  fun s hs => Turn.tells_quietly (hf s hs) rfl

/-- A failure tells nothing. -/
theorem tells_fail (e : ε) : Tells P N (fail e : Act ε σ α) :=
  fun _ hs => Turn.tells_quietly hs rfl

/-- To print tells nothing. -/
theorem tells_print (text : String) : Tells P N (print text : Act ε σ Unit) :=
  fun _ hs => ⟨hs, fun _ hn => by simp [print] at hn⟩

/-- A notice of the given kind may be told. -/
theorem tells_notify {notice : Notice} (hn : N notice) :
    Tells P N (notify notice : Act ε σ Unit) := by
  refine fun s hs => ⟨hs, fun told htold => ?_⟩
  cases List.mem_singleton.mp htold
  exact hn

/-- Effects may be told if their notices are of the given kind. -/
theorem tells_emit {effects : List Effect} (he : ∀ notice, .notify notice ∈ effects → N notice) :
    Tells P N (emit effects : Act ε σ Unit) :=
  fun _ hs => ⟨hs, he⟩

/-- What is put together from such parts. -/
theorem Composed.tells {E : ε → Prop} {B : (α : Type) → Act ε σ α → Prop} {x : Act ε σ α}
    (hx : Composed E B x) (hB : ∀ (α : Type) (x : Act ε σ α), B α x → Tells P N x) :
    Tells P N x := by
  induction hx with
  | basic hx => exact hB _ _ hx
  | pure a => exact tells_pure a
  | get => exact tells_get
  | print text => exact tells_print text
  | fail _ => exact tells_fail _
  | bind _ _ ihx ihf => exact .bind ihx ihf

/-- An instruction that may be told of by a text before it is carried out. -/
theorem Tells.echoed_at {p : Prop} [Decidable p] (text : String) {f : Act ε σ α}
    (hf : (f s).Tells P N) : ((if p then print text >>= fun _ => f else f) s).Tells P N := by
  split
  · refine ⟨hf.state, fun notice hn => ?_⟩
    rcases List.mem_cons.mp hn with hn | hn
    · cases hn
    · exact hf.notices notice hn
  · exact hf

/-- A part of a call may print an echo before it tells what it tells. -/
theorem Tells.echoed {p : Prop} [Decidable p] (text : String) {f : Act ε σ α}
    (hf : Tells P N f) : Tells P N (if p then print text >>= fun _ => f else f) :=
  fun s hs => echoed_at text (hf s hs)

/-- The wording of its errors does not change what a call tells. -/
theorem Tells.asCall {act : Act ε σ α} (hact : Tells P N act) (describe : ε → Upset) :
    Tells P N (act.asCall describe) :=
  fun s hs => ⟨(hact s hs).state, (hact s hs).notices⟩

end Act

/-- A machine that keeps a property of its state and gives only notices of a given kind, as long as
it is given programs of a given kind. -/
structure Machine.Tells (m : Machine σ) (Source : String → Prop) (P : σ → Prop)
    (N : Notice → Prop) : Prop where
  load : ∀ source, Source source → (m.load source).Tells P N
  reset : m.reset.Tells P N
  step : m.step.Tells P N
  resume : ∀ input, (m.resume input).Tells P N

end EsotericHost
