import EsotericHost.Proofs.Host.Totality

/-!
# The strides of a command

While the machine works on an operation it takes one step after another. `Host.strides` gives, for
each command, the sessions from which it does so, in their order. They hold all that a step depends
on, so that what happens in the course of a command can be counted and compared step by step: a run
tells what its strides tell (`Session.told_of_run`), and its budget counts the strides that make
progress (`Session.used_of_run`).
-/

namespace EsotericHost

variable {σ : Type} {c : Catalogue σ} {m : Machine σ} {bound : Nat} {h : Host σ} {s : Session σ}
  {op : Operation} {command : Command}

namespace Session

/-- Whether the next step of the machine makes progress. -/
def progresses (m : Machine σ) (s : Session σ) : Bool :=
  match (m.step s.state).result with
  | .ok .progressed => true
  | _ => false

/-- The sessions from which a run takes its steps. -/
def strides (m : Machine σ) : Nat → Budget → Session σ → List (Session σ)
  | 0, _, _ => []
  | bound + 1, budget, s =>
    s :: match (m.step s.state).result with
      | .ok .progressed =>
        match budget.charge.exceeded? with
        | some _ => []
        | none => strides m bound budget.charge (s.left m.step)
      | _ => []

/-- The sessions from which work on an operation takes its steps: a run, or one step. -/
def toilStrides (m : Machine σ) (bound : Nat) (op : Operation) (s : Session σ) :
    List (Session σ) :=
  match op.task with
  | .run => s.strides m bound op.budget
  | .step => [s]

/-- The sessions from which work after a call takes its steps: none if the call failed. -/
def stridesAfter (s : Session σ) (act : Act Upset σ Unit) (next : Session σ → List (Session σ)) :
    List (Session σ) :=
  match (act s.state).result with
  | .ok () => next (s.left act)
  | .error _ => []

/-- The events of steps, without anything before or after them. -/
def stridesTold (m : Machine σ) (strides : List (Session σ)) : List Event :=
  strides.flatMap (·.told m m.step)

end Session

/-- The sessions from which the machine takes a step in the course of a command. -/
def Host.strides (c : Catalogue σ) (bound : Nat) (h : Host σ) : Command → List (Session σ)
  | .press .interpret args =>
    match h.operation, h.session with
    | none, some s =>
      let op := h.beginning .run s.lang
      match args.code with
      | none => s.toilStrides c.machine bound op
      | some source =>
        s.stridesAfter (Session.load c.machine source) (·.toilStrides c.machine bound op)
    | _, _ => []
  | .press .step _ =>
    match h.operation, h.session with
    | none, some s => if s.capabilities.step then [s] else []
    | _, _ => []
  | .unblock value _ =>
    match h.operation, h.session, Request.resolve h.request value with
    | some op, some s, .ok (_, input) =>
      s.stridesAfter (c.machine.resume input) fun s =>
        match op.task with
        | .run => s.toilStrides c.machine bound op
        | .step => []
    | _, _, _ => []
  | _ => []

/-- How many instructions make progress in the course of a command. -/
def Host.progress (c : Catalogue σ) (bound : Nat) (h : Host σ) (command : Command) : Nat :=
  (h.strides c bound command).countP (·.progresses c.machine)

/-! ## Runs -/

namespace Session

/-- A run tells what its strides tell. -/
theorem told_of_run {budget budget' : Budget} {s s' : Session σ} {out out' : Transcript}
    {answer : Except Upset Outcome}
    (hr : s.run m bound budget out = some (answer, budget', s', out')) :
    out' = out ++ stridesTold m (s.strides m bound budget) := by
  -- The induction is on the bound, as the run recurses, from the session that each step leaves.
  induction bound generalizing budget s out with
  | zero => cases hr
  | succ bound ih =>
    unfold run at hr
    unfold strides stridesTold
    simp only [call_eq] at hr
    rw [List.flatMap_cons]
    cases hres : (m.step s.state).result with
    | error upset =>
      rw [hres] at hr
      cases hr
      simp
    | ok outcome =>
      rw [hres] at hr
      cases outcome with
      | halted => cases hr; simp
      | suspended kind => cases hr; simp
      | progressed =>
        dsimp only at hr ⊢
        cases hex : budget.charge.exceeded? with
        | some limit =>
          rw [hex] at hr
          cases hr
          simp
        | none =>
          rw [hex] at hr
          rw [ih hr, Transcript.append_append]
          rfl

/-- What every step preserves of a session, together with an account of the steps, a run preserves
with the account of its strides. -/
theorem run_foldl {α : Type} {P : α → Session σ → Prop} {f : α → Session σ → α} {a : α}
    {budget budget' : Budget} {s s' : Session σ} {out out' : Transcript}
    {answer : Except Upset Outcome}
    (hr : s.run m bound budget out = some (answer, budget', s', out')) (hs : P a s)
    (hstep : ∀ a s, P a s → P (f a s) (s.left m.step)) :
    P ((s.strides m bound budget).foldl f a) s' := by
  induction bound generalizing budget s out a with
  | zero => cases hr
  | succ bound ih =>
    have hone := hstep a s hs
    unfold run at hr
    unfold strides
    simp only [call_eq] at hr
    rw [List.foldl_cons]
    cases hres : (m.step s.state).result with
    | error upset =>
      rw [hres] at hr
      cases hr
      exact hone
    | ok outcome =>
      rw [hres] at hr
      cases outcome with
      | halted | suspended _ =>
        cases hr
        exact hone
      | progressed =>
        dsimp only at hr ⊢
        cases hex : budget.charge.exceeded? with
        | some limit =>
          rw [hex] at hr
          cases hr
          exact hone
        | none =>
          rw [hex] at hr
          exact ih hr hone

/-- Of the strides of a run all but the last make progress, and the answer is that of the last, unless
the budget is used up. -/
theorem strides_of_run {budget budget' : Budget} {s s' : Session σ} {out out' : Transcript}
    {answer : Except Upset Outcome}
    (hr : s.run m bound budget out = some (answer, budget', s', out')) :
    ∃ before last, s.strides m bound budget = before ++ [last] ∧
      (∀ x ∈ before, (m.step x.state).result = .ok .progressed) ∧
      (answer = (m.step last.state).result ∨ (m.step last.state).result = .ok .progressed ∧
        ∃ limit, answer = .error (.fault (.stepLimit limit))) := by
  induction bound generalizing budget s out with
  | zero => cases hr
  | succ bound ih =>
    unfold run at hr
    unfold strides
    simp only [call_eq] at hr
    cases hres : (m.step s.state).result with
    | error upset =>
      rw [hres] at hr
      cases hr
      exact ⟨[], s, rfl, fun _ hx => absurd hx List.not_mem_nil, .inl hres.symm⟩
    | ok outcome =>
      rw [hres] at hr
      cases outcome with
      | halted | suspended _ =>
        cases hr
        exact ⟨[], s, rfl, fun _ hx => absurd hx List.not_mem_nil, .inl hres.symm⟩
      | progressed =>
        dsimp only at hr ⊢
        cases hex : budget.charge.exceeded? with
        | some limit =>
          rw [hex] at hr
          cases hr
          exact ⟨[], s, rfl, fun _ hx => absurd hx List.not_mem_nil, .inr ⟨hres, limit, rfl⟩⟩
        | none =>
          rw [hex] at hr
          obtain ⟨before, last, hstrides, hbefore, hanswer⟩ := ih hr
          refine ⟨s :: before, last, congrArg (s :: ·) hstrides, fun x hx => ?_, hanswer⟩
          rcases List.mem_cons.mp hx with rfl | hx
          · exact hres
          · exact hbefore x hx

/-- The budget of a run counts the strides that make progress, and a run that ends for another
reason than its limit has kept within the limit. -/
theorem used_of_run {budget budget' : Budget} {s s' : Session σ} {out out' : Transcript}
    {answer : Except Upset Outcome}
    (hr : s.run m bound budget out = some (answer, budget', s', out')) :
    budget'.limit = budget.limit ∧
      budget'.used = budget.used + (s.strides m bound budget).countP (·.progresses m) ∧
      ((∀ limit, answer ≠ .error (.fault (.stepLimit limit))) →
        ∀ limit, budget.limit = some limit → budget.used ≤ limit → budget'.used ≤ limit) := by
  induction bound generalizing budget s out with
  | zero => cases hr
  | succ bound ih =>
    unfold run at hr
    unfold strides
    simp only [call_eq] at hr
    rw [List.countP_cons]
    have hprogresses : s.progresses m = match (m.step s.state).result with
      | .ok .progressed => true
      | _ => false := rfl
    cases hres : (m.step s.state).result with
    | error upset =>
      rw [hres] at hr hprogresses
      cases hr
      exact ⟨rfl, by simp [hprogresses], fun _ _ _ hle => hle⟩
    | ok outcome =>
      rw [hres] at hr hprogresses
      cases outcome with
      | halted => cases hr; exact ⟨rfl, by simp [hprogresses], fun _ _ _ hle => hle⟩
      | suspended kind => cases hr; exact ⟨rfl, by simp [hprogresses], fun _ _ _ hle => hle⟩
      | progressed =>
        dsimp only at hr ⊢
        cases hex : budget.charge.exceeded? with
        | some limit =>
          rw [hex] at hr
          cases hr
          exact ⟨rfl, by simp [hprogresses, Budget.charge], fun hne => absurd rfl (hne limit)⟩
        | none =>
          rw [hex] at hr
          obtain ⟨hlimit, hused, hwithin⟩ := ih hr
          refine ⟨hlimit, ?_, fun hne limit hl hle => hwithin hne limit hl ?_⟩
          · rw [hused, hprogresses]
            simp only [Budget.charge, if_true]
            omega
          -- The charge has not passed the limit, or the run would have ended here.
          · unfold Budget.exceeded? Budget.charge at hex
            rw [hl] at hex
            have hle : budget.used + 1 ≤ limit := by simpa [Option.filter] using hex
            exact hle

end Session

end EsotericHost
