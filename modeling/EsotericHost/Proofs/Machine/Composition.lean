import EsotericHost.Machine.Act

/-!
# Parts of a call

The instructions of a machine are put together from a few parts that change the state and give
notice of it. Between them an instruction reads the state, prints, and fails. `Act.Composed` says so
of a part of a call, once for all that is shown of it: what holds of the basic parts and of what
comes between them, and of two parts in sequence as soon as it holds of each, holds of the whole.
-/

namespace EsotericHost

/-- A result under a function is a success if it is one itself. -/
theorem exists_of_map_eq_ok {ε α β : Type} {result : Except ε α} {f : α → β} {b : β}
    (h : result.map f = .ok b) : ∃ a, result = .ok a ∧ f a = b := by
  cases result with
  | ok a => exact ⟨a, rfl, Except.ok.inj h⟩
  | error e => cases h

/-- A result under a function fails just as it does itself. -/
theorem eq_error_of_map {ε α β : Type} {result : Except ε α} {f : α → β} {e : ε}
    (h : result.map f = .error e) : result = .error e := by
  cases result with
  | ok a => cases h
  | error e' => exact congrArg Except.error (Except.error.inj h)

namespace Act

variable {ε σ α : Type}

/-- A part of a call that is put together from basic parts, and fails outside them only with errors
of a given kind. -/
inductive Composed (E : ε → Prop) (B : (α : Type) → Act ε σ α → Prop) :
    {α : Type} → Act ε σ α → Prop
  | basic {α : Type} {x : Act ε σ α} (basic : B α x) : Composed E B x
  | pure {α : Type} (a : α) : Composed E B (pure a : Act ε σ α)
  | get : Composed E B get
  | print (text : String) : Composed E B (print text)
  | fail {α : Type} {e : ε} (expected : E e) : Composed E B (fail e : Act ε σ α)
  | bind {α β : Type} {x : Act ε σ α} {f : α → Act ε σ β} (first : Composed E B x)
      (second : ∀ a, Composed E B (f a)) : Composed E B (x >>= f)

/-- More errors may be expected, and more parts may count as basic. -/
theorem Composed.mono {E E' : ε → Prop} {B B' : (α : Type) → Act ε σ α → Prop} {x : Act ε σ α}
    (hx : Composed E B x) (hE : ∀ e, E e → E' e)
    (hB : ∀ (α : Type) (x : Act ε σ α), B α x → B' α x) : Composed E' B' x := by
  induction hx with
  | basic hx => exact .basic (hB _ _ hx)
  | pure a => exact .pure a
  | get => exact .get
  | print text => exact .print text
  | fail he => exact .fail (hE _ he)
  | bind _ _ ihx ihf => exact .bind ihx ihf

end Act

end EsotericHost
