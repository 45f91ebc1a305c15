import EsotericHost.Machine.Notice

/-!
# Acts of a machine

An `Act` is one call of a machine: from a state it gives a `Turn`, which holds a result or an
error, the state afterwards, and the effects on the way. What was done before an error stays done:
the state and the effects survive it.
-/

namespace EsotericHost

/-- What came of a call. -/
structure Turn (ε σ α : Type) where
  result : Except ε α
  state : σ
  effects : List Effect

/-- A call that may change the state, have effects and fail. -/
def Act (ε σ α : Type) : Type := σ → Turn ε σ α

namespace Turn

variable {ε ε' σ τ α : Type}

/-- The turn with its error put in other words. -/
def mapError (f : ε → ε') (t : Turn ε σ α) : Turn ε' σ α :=
  ⟨t.result.mapError f, t.state, t.effects⟩

/-- The turn with its state as a part of a larger one. -/
def mapState (f : σ → τ) (t : Turn ε σ α) : Turn ε τ α :=
  ⟨t.result, f t.state, t.effects⟩

end Turn

namespace Act

variable {ε σ α β : Type}

/-- Does nothing and answers with a value. -/
protected def pure (a : α) : Act ε σ α :=
  fun s => ⟨.ok a, s, []⟩

/-- Does one call and then, if it succeeded, another. -/
protected def bind (m : Act ε σ α) (f : α → Act ε σ β) : Act ε σ β :=
  fun s =>
    match m s with
    | ⟨.ok a, s, effects⟩ =>
      let next := f a s
      ⟨next.result, next.state, effects ++ next.effects⟩
    | ⟨.error e, s, effects⟩ => ⟨.error e, s, effects⟩

instance : Monad (Act ε σ) where
  pure := Act.pure
  bind := Act.bind

/-- The state. -/
def get : Act ε σ σ :=
  fun s => ⟨.ok s, s, []⟩

/-- Changes the state. -/
def modify (f : σ → σ) : Act ε σ Unit :=
  fun s => ⟨.ok (), f s, []⟩

/-- Fails. -/
def fail (e : ε) : Act ε σ α :=
  fun s => ⟨.error e, s, []⟩

/-- Prints a text. -/
def print (text : String) : Act ε σ Unit :=
  fun s => ⟨.ok (), s, [.print text]⟩

/-- Gives notice of a change. -/
def notify (notice : Notice) : Act ε σ Unit :=
  fun s => ⟨.ok (), s, [.notify notice]⟩

/-- Has several effects. -/
def emit (effects : List Effect) : Act ε σ Unit :=
  fun s => ⟨.ok (), s, effects⟩

end Act

end EsotericHost
