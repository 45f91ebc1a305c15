import EsotericHost.Host.Request
import EsotericHost.Proofs.Host.Parts
import EsotericHost.Proofs.Machine.Lawful

/-!
# How a program unfolds

What a program does depends on its machine and on the values that its requests are answered by, and
on nothing else: `Session.Unfolds` says what comes of it, one call of the machine at a time, and
there is at most one such thing (`Session.Unfolds.unique`).

Two ways to drive a machine follow it. A run without a limit goes on to the next request or to the
end of the program (`Session.Unfolds.of_run`, `Session.Unfolds.run`). A single instruction is
complete when the request that it makes, if it makes one, has been answered; a program is one such
instruction after the other (`Session.Unfolds.of_instruct`, `Session.Unfolds.by_instruction`).
-/

namespace EsotericHost

/-- What comes of a program that ends: its events, the fault that it fails by, if it does, the
values that it has no use for, and the session that it leaves. -/
structure Unfolding (σ : Type) where
  events : List Event
  failure : Option Fault
  left : List Json
  session : Session σ

variable {σ : Type} {m : Machine σ} {s : Session σ} {values : List Json}
  {answer : Except Upset Outcome} {u : Unfolding σ}

/-- What comes of a program that has told some events before. -/
def Unfolding.after (told : List Event) (u : Unfolding σ) : Unfolding σ :=
  { u with events := told ++ u.events }

/-- Events that come first are told in their order. -/
theorem Unfolding.after_after (first second : List Event) (u : Unfolding σ) :
    (u.after second).after first = u.after (first ++ second) := by
  simp only [after, List.append_assoc]

/-- What the machine answers by an instruction that has been given its input: it has made progress,
unless it has failed. -/
def Outcome.ofResume : Except Upset Unit → Except Upset Outcome
  | .ok () => .ok .progressed
  | .error upset => .error upset

/-- An instruction that has been given its input does not wait for more. -/
theorem Outcome.suspension_ofResume (result : Except Upset Unit) :
    suspension (ofResume result) = none := by
  cases result <;> rfl

/-- A budget without a limit is never exceeded. -/
theorem Budget.exceeded?_of_none {budget : Budget} (hb : budget.limit = none) :
    budget.exceeded? = none := by
  unfold exceeded?
  rw [hb]
  rfl

namespace Session

/-- What comes of a program whose requests are answered by some values, from the session in which
its machine has given an answer. A machine that has made progress is ready for its next instruction.
Nothing comes of a machine that crashes, nor of a request without a value that fits. -/
inductive Unfolds (m : Machine σ) :
    Except Upset Outcome → Session σ → List Json → Unfolding σ → Prop where
  /-- The program is at its end. -/
  | halted {s : Session σ} {values : List Json} :
    Unfolds m (.ok .halted) s values ⟨[], none, values, s⟩
  /-- The program has failed. -/
  | failed {fault : Fault} {s : Session σ} {values : List Json} :
    Unfolds m (.error (.fault fault)) s values ⟨[], some fault, values, s⟩
  /-- The machine carries out its next instruction. -/
  | stepped {s : Session σ} {values : List Json} {u : Unfolding σ}
    (rest : Unfolds m (m.step s.state).result (s.left m.step) values u) :
    Unfolds m (.ok .progressed) s values (u.after (s.told m m.step))
  /-- The machine is given the input that it waits for. -/
  | resumed {kind : InputKind} {s : Session σ} {value : Json} {values : List Json} {input : Input}
    {u : Unfolding σ} (fits : Request.answer kind value = .ok input)
    (rest : Unfolds m (Outcome.ofResume (m.resume input s.state).result) (s.left (m.resume input))
      values u) :
    Unfolds m (.ok (.suspended kind)) s (value :: values) (u.after (s.told m (m.resume input)))

/-- A program unfolds in one way only. -/
theorem Unfolds.unique {u' : Unfolding σ} (hu : Unfolds m answer s values u)
    (hu' : Unfolds m answer s values u') : u = u' := by
  induction hu generalizing u' with
  | halted =>
    cases hu'
    rfl
  | failed =>
    cases hu'
    rfl
  | stepped rest ih =>
    cases hu' with
    | stepped rest' => rw [ih rest']
  | resumed fits rest ih =>
    cases hu' with
    | resumed fits' rest' =>
      obtain rfl := Except.ok.inj (fits.symm.trans fits')
      rw [ih rest']

/-- A program leaves a session of its language. -/
theorem Unfolds.lang_eq (hu : Unfolds m answer s values u) : u.session.lang = s.lang := by
  induction hu with
  | halted => rfl
  | failed => rfl
  | stepped rest ih => exact ih
  | resumed fits rest ih => exact ih

/-- The values that a program has no use for are the last ones. -/
theorem Unfolds.left_suffix (hu : Unfolds m answer s values u) : u.left <:+ values := by
  induction hu with
  | halted => exact List.suffix_refl _
  | failed => exact List.suffix_refl _
  | stepped rest ih => exact ih
  | resumed fits rest ih => exact ih.trans (List.suffix_cons _ _)

/-! ## Runs -/

/-- A run without a limit goes on after an instruction that makes progress. -/
theorem run_of_progress {budget : Budget} (hb : budget.limit = none) (bound : Nat)
    (out : Transcript) (hp : (m.step s.state).result = .ok .progressed) :
    s.run m (bound + 1) budget out =
      (s.left m.step).run m bound budget.charge (out ++ s.told m m.step) := by
  have hcharge : budget.charge.exceeded? = none := Budget.exceeded?_of_none hb
  rw [run, call_eq, hp]
  dsimp only
  rw [hcharge]

/-- A run stops after an instruction that makes none. -/
theorem run_of_rest (budget : Budget) (bound : Nat) (out : Transcript)
    (hp : (m.step s.state).result ≠ .ok .progressed) :
    s.run m (bound + 1) budget out =
      some ((m.step s.state).result, budget, s.left m.step, out ++ s.told m m.step) := by
  rw [run, call_eq]
  match hr : (m.step s.state).result with
  | .error upset => rfl
  | .ok .halted => rfl
  | .ok (.suspended kind) => rfl
  | .ok .progressed => exact absurd hr hp

/-- A run without a limit does not stop at progress, and goes on as the program does: whatever comes
of the program after the run comes of it before. -/
theorem Unfolds.of_run {bound : Nat} {budget budget' : Budget} {s' : Session σ}
    {out out' : Transcript} (hb : budget.limit = none)
    (hr : s.run m bound budget out = some (answer, budget', s', out')) :
    answer ≠ .ok .progressed ∧ budget'.limit = none ∧ ∃ told : List Event, out' = out ++ told ∧
      ∀ values u, Unfolds m answer s' values u →
        Unfolds m (.ok .progressed) s values (u.after told) := by
  induction bound generalizing s budget out with
  | zero => cases hr
  | succ bound ih =>
    by_cases hp : (m.step s.state).result = .ok .progressed
    · rw [run_of_progress hb bound out hp] at hr
      have hcharge : budget.charge.limit = none := hb
      obtain ⟨hne, hb', told, rfl, hu⟩ := ih hcharge hr
      refine ⟨hne, hb', s.told m m.step ++ told, Transcript.append_append _ _ _,
        fun values u h => ?_⟩
      have hnext : Unfolds m (m.step s.state).result (s.left m.step) values (u.after told) := by
        rw [hp]
        exact hu values u h
      rw [← Unfolding.after_after]
      exact .stepped hnext
    · rw [run_of_rest budget bound out hp] at hr
      cases hr
      exact ⟨hp, hb, s.told m m.step, rfl, fun values u h => .stepped h⟩

/-- The same, told by the transcript of the run. -/
theorem Unfolds.of_run_told {bound : Nat} {budget budget' : Budget} {s' : Session σ}
    {out : Transcript} (hb : budget.limit = none)
    (hr : s.run m bound budget #[] = some (answer, budget', s', out)) :
    answer ≠ .ok .progressed ∧ budget'.limit = none ∧
      ∀ values u, Unfolds m answer s' values u →
        Unfolds m (.ok .progressed) s values (u.after out.toList) := by
  obtain ⟨hne, hb', told, rfl, hunfolds⟩ := of_run hb hr
  have htold : ((#[] : Transcript) ++ told).toList = told := by simp
  rw [htold]
  exact ⟨hne, hb', hunfolds⟩

/-- A program of which something comes runs to the next request or to its end with every bound that
is large enough. -/
theorem Unfolds.run (hu : Unfolds m (.ok .progressed) s values u) :
    ∃ least answer s' u', Unfolds m answer s' values u' ∧
      ∀ bound budget, least ≤ bound → budget.limit = none →
        ∃ budget' out, s.run m bound budget #[] = some (answer, budget', s', out) := by
  generalize hready : (.ok .progressed : Except Upset Outcome) = ready at hu
  induction hu with
  | halted => cases hready
  | failed => cases hready
  | resumed fits rest ih => cases hready
  | stepped rest ih =>
    rename_i s values u
    by_cases hp : (m.step s.state).result = .ok .progressed
    · obtain ⟨least, answer, s', u', hu', hrun⟩ := ih hp.symm
      refine ⟨least + 1, answer, s', u', hu', fun bound budget hbound hb => ?_⟩
      obtain ⟨bound, rfl⟩ : ∃ n, bound = n + 1 := ⟨bound - 1, by omega⟩
      obtain ⟨budget', out, hr⟩ := hrun bound budget.charge (by omega) hb
      rw [run_of_progress hb bound #[] hp, run_eq_map, hr]
      exact ⟨budget', _, rfl⟩
    · refine ⟨1, _, _, _, rest, fun bound budget hbound hb => ?_⟩
      obtain ⟨bound, rfl⟩ : ∃ n, bound = n + 1 := ⟨bound - 1, by omega⟩
      rw [run_of_rest budget bound #[] hp]
      exact ⟨budget, _, rfl⟩

end Session

/-! ## Single instructions -/

/-- An instruction that is complete: what the machine has answered by it, the session and the
values that are left, and its events. -/
structure Instruction (σ : Type) where
  answer : Except Upset Outcome
  session : Session σ
  left : List Json
  events : List Event

/-- The instruction that has told some events before. -/
def Instruction.after (told : List Event) (i : Instruction σ) : Instruction σ :=
  { i with events := told ++ i.events }

namespace Session

/-- The instruction that the machine has given an answer by is complete, unless it waits for input;
then it is complete when it has been given the next answer. -/
def complete (m : Machine σ) (s : Session σ) :
    Except Upset Outcome → List Json → Option (Instruction σ)
  | .ok (.suspended _), [] => none
  | .ok (.suspended kind), value :: rest =>
    match Request.answer kind value with
    | .error _ => none
    | .ok input =>
      some ⟨Outcome.ofResume (m.resume input s.state).result, s.left (m.resume input), rest,
        s.told m (m.resume input)⟩
  | answer, values => some ⟨answer, s, values, []⟩

/-- Carries out one instruction, with the next answer if it waits for input. -/
def instruct (m : Machine σ) (values : List Json) (s : Session σ) : Option (Instruction σ) :=
  ((s.left m.step).complete m (m.step s.state).result values).map (.after (s.told m m.step))

/-- An instruction that does not wait for input is complete. -/
theorem complete_of_suspension (ha : suspension answer = none) (values : List Json) :
    s.complete m answer values = some ⟨answer, s, values, []⟩ := by
  match answer with
  | .ok .halted => rfl
  | .ok .progressed => rfl
  | .ok (.suspended kind) => cases ha
  | .error upset => rfl

/-- An instruction that waits for input is complete when it has been given an answer that fits. -/
theorem complete_of_fits {kind : InputKind} {value : Json} {input : Input} {rest : List Json}
    (fits : Request.answer kind value = .ok input) :
    s.complete m (.ok (.suspended kind)) (value :: rest) =
      some ⟨Outcome.ofResume (m.resume input s.state).result, s.left (m.resume input), rest,
        s.told m (m.resume input)⟩ := by
  simp only [complete, fits]

/-- Whatever comes of the program after an instruction comes of it before. -/
theorem Unfolds.of_complete {i : Instruction σ} (hi : s.complete m answer values = some i)
    (hu : Unfolds m i.answer i.session i.left u) :
    Unfolds m answer s values (u.after i.events) := by
  unfold complete at hi
  split at hi
  · cases hi
  · split at hi
    · cases hi
    · cases hi
      exact .resumed ‹_› hu
  · cases hi
    exact hu

/-- Whatever comes of the program after its next instruction comes of it before. -/
theorem Unfolds.of_instruct {i : Instruction σ} (hi : s.instruct m values = some i)
    (hu : Unfolds m i.answer i.session i.left u) :
    Unfolds m (.ok .progressed) s values (u.after i.events) := by
  obtain ⟨i', hi', rfl⟩ := Option.map_eq_some_iff.mp hi
  have hrest : Unfolds m _ (s.left m.step) values (u.after i'.events) := of_complete hi' hu
  have hstep := Unfolds.stepped hrest
  rw [Unfolding.after_after] at hstep
  exact hstep

/-- What holds of a program whose next instruction is the last, and before any instruction after
which it holds, holds of every program of which something comes. -/
theorem Unfolds.by_instruction {P : Session σ → List Json → Prop}
    (last : ∀ s values i, s.instruct m values = some i → i.answer ≠ .ok .progressed →
      P s values)
    (next : ∀ s values i, s.instruct m values = some i → i.answer = .ok .progressed →
      P i.session i.left → P s values)
    (hu : Unfolds m (.ok .progressed) s values u) : P s values := by
  -- The induction is over the calls of the machine, in the course of an instruction too: from each,
  -- the instruction can be completed, and the property holds after it if the program goes on.
  have hcomplete {answer : Except Upset Outcome} {s : Session σ} {values : List Json}
      {u : Unfolding σ} (hu : Unfolds m answer s values u) :
      ∃ i, s.complete m answer values = some i ∧
        (i.answer = .ok .progressed → P i.session i.left) := by
    induction hu with
    | halted => exact ⟨_, complete_of_suspension rfl _, fun h => nomatch h⟩
    | failed => exact ⟨_, complete_of_suspension rfl _, fun h => nomatch h⟩
    | stepped rest ih =>
      rename_i s values u
      obtain ⟨i, hi, hp⟩ := ih
      have hinstruct : s.instruct m values = some (i.after (s.told m m.step)) := by
        rw [instruct, hi]
        rfl
      refine ⟨_, complete_of_suspension rfl _, fun _ => ?_⟩
      by_cases hgoes : i.answer = .ok .progressed
      · exact next s values _ hinstruct hgoes (hp hgoes)
      · exact last s values _ hinstruct hgoes
    | resumed fits rest ih =>
      obtain ⟨i, hi, hp⟩ := ih
      rw [complete_of_suspension (Outcome.suspension_ofResume _)] at hi
      cases hi
      exact ⟨_, complete_of_fits fits, hp⟩
  obtain ⟨i, hi, hp⟩ := hcomplete hu
  rw [complete_of_suspension rfl] at hi
  cases hi
  exact hp rfl

end Session

end EsotericHost
