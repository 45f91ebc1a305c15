import EsotericHost.Proofs.Host.Unfolding

/-!
# Driven machines

A machine is driven with some inputs by running it and giving it the next input whenever it waits
for one. `Session.drive` does so without a limit. `Session.operate` carries a budget from each run
to the next one, as an operation of the host does.

However the runs are cut, the machine carries out one instruction after the other: `Driven.attempt`
is one instruction, with the input for it if it waits for one. An operation goes on as the attempts
do (`Driven.work_of_goesOn`), ends when one of them ends (`Driven.work_of_stops`), and is given up
after the first one that is charged beyond its limit (`Driven.work_of_passes`). Without a limit it
comes to an end exactly if the attempts do (`Session.drive_iff`).
-/

namespace EsotericHost

/-- What comes of a machine that is driven: its last answer, the inputs that it has no use for, the
session that it leaves, and its transcript. -/
structure Drive (σ : Type) where
  answer : Except Upset Outcome
  left : List Input
  session : Session σ
  transcript : Transcript

variable {σ α : Type} {m : Machine σ}

/-- A budget is not exceeded as long as what has been used is within the limit. -/
theorem Budget.exceeded?_of_le {limit : Option Nat} {used : Nat}
    (h : ∀ most ∈ limit, used ≤ most) : (⟨limit, used⟩ : Budget).exceeded? = none := by
  unfold exceeded?
  cases limit with
  | none => rfl
  | some most =>
    have hle : ¬ most < used := Nat.not_lt.mpr (h most rfl)
    simpa using hle

/-- A budget of which more has been used than it has is exceeded. -/
theorem Budget.exceeded?_of_lt {most used : Nat} (h : most < used) :
    (⟨some most, used⟩ : Budget).exceeded? = some most := by
  unfold exceeded?
  simpa using h

namespace Session

variable {s : Session σ} {limit : Option Nat} {used : Nat}

/-- A run goes on after an instruction that is charged within its limit. -/
theorem run_of_charge (hp : (m.step s.state).result = .ok .progressed)
    (hwithin : ∀ most ∈ limit, used + 1 ≤ most) (bound : Nat) (out : Transcript) :
    s.run m (bound + 1) ⟨limit, used⟩ out =
      (s.left m.step).run m bound ⟨limit, used + 1⟩ (out ++ s.told m m.step) := by
  have hcharge : (Budget.charge ⟨limit, used⟩).exceeded? = none := Budget.exceeded?_of_le hwithin
  rw [run, call_eq, hp]
  dsimp only
  rw [hcharge]
  rfl

/-- A run is given up after an instruction that is charged beyond its limit. -/
theorem run_of_passed {most : Nat} (hp : (m.step s.state).result = .ok .progressed)
    (hpassed : most < used + 1) (bound : Nat) (out : Transcript) :
    s.run m (bound + 1) ⟨some most, used⟩ out =
      some (.error (.fault (.stepLimit most)), ⟨some most, used + 1⟩, s.left m.step,
        out ++ s.told m m.step) := by
  have hcharge : (Budget.charge ⟨some most, used⟩).exceeded? = some most :=
    Budget.exceeded?_of_lt hpassed
  rw [run, call_eq, hp]
  dsimp only
  rw [hcharge]
  rfl

/-- What follows a run: a machine that waits is given the next input and runs again, until it stops
for another reason or there is no input left. -/
def carryOn (m : Machine σ) (bound : Nat) :
    List Input → Except Upset Outcome × Budget × Session σ × Transcript → Option (Drive σ)
  | [], (answer, _, s, out) => some ⟨answer, [], s, out⟩
  | input :: inputs, (answer, _, s, out) =>
    match suspension answer with
    | none => some ⟨answer, input :: inputs, s, out⟩
    | some _ =>
      match s.call m (m.resume input) out with
      | (.ok (), s, out) => (s.run m bound (.fresh none) out).bind (carryOn m bound inputs)
      | (.error upset, s, out) => some ⟨.error upset, inputs, s, out⟩

/-- Drives a machine with some inputs, or answers nothing if one of its runs takes more instructions
than the bound. -/
def drive (m : Machine σ) (bound : Nat) (inputs : List Input) (s : Session σ) (out : Transcript) :
    Option (Drive σ) :=
  (s.run m bound (.fresh none) out).bind (carryOn m bound inputs)

/-- A machine that does not wait is at the end of its drive. -/
theorem carryOn_of_rest {m : Machine σ} {bound : Nat} {answer : Except Upset Outcome}
    (ha : suspension answer = none) (inputs : List Input) (budget : Budget) (s : Session σ)
    (out : Transcript) :
    carryOn m bound inputs (answer, budget, s, out) = some ⟨answer, inputs, s, out⟩ := by
  cases inputs with
  | nil => rfl
  | cons input inputs => rw [carryOn, ha]

/-- A machine that waits runs again when it has been given the next input. -/
theorem carryOn_of_input {m : Machine σ} {bound : Nat} {kind : InputKind} {input : Input}
    {s : Session σ} (hr : (m.resume input s.state).result = .ok ()) (inputs : List Input)
    (budget : Budget) (out : Transcript) :
    carryOn m bound (input :: inputs) (.ok (.suspended kind), budget, s, out) =
      ((s.left (m.resume input)).run m bound (.fresh none) (out ++ s.told m (m.resume input))).bind
        (carryOn m bound inputs) := by
  rw [carryOn, call_eq, hr]
  rfl

/-- What follows a run of an operation: a machine that waits is given the next input and runs again
with what is left of its budget. -/
def proceed (m : Machine σ) (bound : Nat) :
    List Input → Except Upset Outcome × Budget × Session σ × Transcript →
      Option (Budget × Drive σ)
  | [], (answer, budget, s, out) => some (budget, ⟨answer, [], s, out⟩)
  | input :: inputs, (answer, budget, s, out) =>
    match suspension answer with
    | none => some (budget, ⟨answer, input :: inputs, s, out⟩)
    | some _ =>
      match s.call m (m.resume input) out with
      | (.ok (), s, out) => (s.run m bound budget out).bind (proceed m bound inputs)
      | (.error upset, s, out) => some (budget, ⟨.error upset, inputs, s, out⟩)

/-- Drives a machine with some inputs on one budget, or answers nothing if one of its runs takes
more instructions than the bound. -/
def operate (m : Machine σ) (bound : Nat) (inputs : List Input) (budget : Budget) (s : Session σ)
    (out : Transcript) : Option (Budget × Drive σ) :=
  (s.run m bound budget out).bind (proceed m bound inputs)

/-- A machine that does not wait is at the end of its operation. -/
theorem proceed_of_rest {bound : Nat} {answer : Except Upset Outcome}
    (ha : suspension answer = none) (inputs : List Input) (budget : Budget) (s : Session σ)
    (out : Transcript) :
    proceed m bound inputs (answer, budget, s, out) = some (budget, ⟨answer, inputs, s, out⟩) := by
  cases inputs with
  | nil => rfl
  | cons input inputs => rw [proceed, ha]

/-- A machine that waits runs again when it has been given the next input. -/
theorem proceed_of_input {bound : Nat} {kind : InputKind} {input : Input} {s : Session σ}
    (hr : (m.resume input s.state).result = .ok ()) (inputs : List Input) (budget : Budget)
    (out : Transcript) :
    proceed m bound (input :: inputs) (.ok (.suspended kind), budget, s, out) =
      ((s.left (m.resume input)).run m bound budget (out ++ s.told m (m.resume input))).bind
        (proceed m bound inputs) := by
  rw [proceed, call_eq, hr]
  rfl

/-- A machine that cannot use the input that it is given is at the end of its operation. -/
theorem proceed_of_refused {bound : Nat} {kind : InputKind} {input : Input} {s : Session σ}
    {upset : Upset} (hr : (m.resume input s.state).result = .error upset) (inputs : List Input)
    (budget : Budget) (out : Transcript) :
    proceed m bound (input :: inputs) (.ok (.suspended kind), budget, s, out) =
      some (budget, ⟨.error upset, inputs, s.left (m.resume input),
        out ++ s.told m (m.resume input)⟩) := by
  rw [proceed, call_eq, hr]
  rfl

/-- How much of a budget has been used does not matter to a run without a limit. -/
theorem run_unlimited (bound used : Nat) (s : Session σ) (out : Transcript) :
    s.run m bound ⟨none, used⟩ out = (s.run m bound (.fresh none) out).map
      fun (answer, budget, s, out) => (answer, ⟨none, used + budget.used⟩, s, out) := by
  -- The induction is on the bound, and each step charges both budgets.
  have hadded (first : Nat) : s.run m bound ⟨none, used + first⟩ out =
      (s.run m bound ⟨none, first⟩ out).map
        fun (answer, budget, s, out) => (answer, ⟨none, used + budget.used⟩, s, out) := by
    induction bound generalizing first s out with
    | zero => rfl
    | succ bound ih =>
      by_cases hp : (m.step s.state).result = .ok .progressed
      · rw [run_of_progress rfl bound out hp, run_of_progress rfl bound out hp]
        exact ih _ _ (first + 1)
      · rw [run_of_rest _ bound out hp, run_of_rest _ bound out hp]
        rfl
  exact hadded 0

/-- To carry on is to proceed on any budget without a limit. -/
theorem carryOn_eq_proceed (bound used : Nat) (inputs : List Input) (answer : Except Upset Outcome)
    (budget : Budget) (s : Session σ) (out : Transcript) :
    carryOn m bound inputs (answer, budget, s, out) =
      (proceed m bound inputs (answer, ⟨none, used⟩, s, out)).map Prod.snd := by
  induction inputs generalizing used answer budget s out with
  | nil => rfl
  | cons input inputs ih =>
    cases ha : suspension answer with
    | none =>
      rw [carryOn_of_rest ha, proceed_of_rest ha]
      rfl
    | some kind =>
      rw [carryOn, proceed, ha]
      dsimp only
      rw [call_eq]
      cases hr : (m.resume input s.state).result with
      | error upset => rfl
      | ok _ =>
        dsimp only
        rw [run_unlimited bound used, Option.bind_map, Option.map_bind]
        exact congrArg _ (funext fun ended => ih _ _ _ _ _)

end Session

/-! ## Attempts -/

/-- A machine that is driven: its session, the inputs that it has not been given, what it has told,
and how many of its instructions have been charged. -/
structure Driven (σ : Type) where
  session : Session σ
  inputs : List Input
  transcript : Transcript
  charges : Nat

/-- What comes of an instruction of a driven machine. -/
inductive Attempt (σ : Type) where
  | goesOn (x : Driven σ)
  | stops (answer : Except Upset Outcome) (x : Driven σ)

namespace Driven

/-- The driven machine after a call. -/
def after (m : Machine σ) (act : Act Upset σ α) (x : Driven σ) : Driven σ :=
  { x with session := x.session.left act, transcript := x.transcript ++ x.session.told m act }

/-- What the driven machine leaves behind when it stops with an answer. -/
def ends (answer : Except Upset Outcome) (x : Driven σ) : Drive σ :=
  ⟨answer, x.inputs, x.session, x.transcript⟩

/-- Carries out one instruction, with the next input if it waits for one. An instruction that makes
progress is charged; one that is completed by an input is not. -/
def attempt (m : Machine σ) (x : Driven σ) : Attempt σ :=
  match (m.step x.session.state).result, x.inputs with
  | .ok .progressed, _ => .goesOn { x.after m m.step with charges := x.charges + 1 }
  | .ok (.suspended _), input :: inputs =>
    let waiting := { x.after m m.step with inputs }
    match (m.resume input waiting.session.state).result with
    | .ok () => .goesOn (waiting.after m (m.resume input))
    | .error upset => .stops (.error upset) (waiting.after m (m.resume input))
  | answer, _ => .stops answer (x.after m m.step)

/-- The driven machine comes to another point after some attempts that go on. -/
inductive Reaches (m : Machine σ) : Nat → Driven σ → Driven σ → Prop where
  | rest {x : Driven σ} : Reaches m 0 x x
  | next {n : Nat} {x y z : Driven σ} (goes : x.attempt m = .goesOn y) (rest : Reaches m n y z) :
    Reaches m (n + 1) x z

/-- What comes of the driven machine when it runs with one bound first, and with another one after
every input. -/
def work (m : Machine σ) (limit : Option Nat) (first bound : Nat) (x : Driven σ) :
    Option (Budget × Drive σ) :=
  (x.session.run m first ⟨limit, x.charges⟩ x.transcript).bind (Session.proceed m bound x.inputs)

variable {x y z : Driven σ} {answer : Except Upset Outcome} {limit : Option Nat}
  {first bound n k : Nat}

/-- An instruction that makes progress is an attempt that goes on. -/
theorem attempt_of_progress (hstep : (m.step x.session.state).result = .ok .progressed) :
    x.attempt m = .goesOn { x.after m m.step with charges := x.charges + 1 } := by
  unfold attempt
  rw [hstep]

/-- So is one that is completed by an input. -/
theorem attempt_of_input {kind : InputKind} {input : Input} {inputs : List Input}
    (hstep : (m.step x.session.state).result = .ok (.suspended kind))
    (hinputs : x.inputs = input :: inputs)
    (hresume : (m.resume input (x.after m m.step).session.state).result = .ok ()) :
    x.attempt m = .goesOn ({ x.after m m.step with inputs }.after m (m.resume input)) := by
  unfold attempt
  rw [hstep, hinputs]
  dsimp only
  rw [hresume]

/-- An instruction that makes no progress is the last attempt, unless it waits for an input that is
there. -/
theorem attempt_of_rest (hstep : (m.step x.session.state).result = answer)
    (hp : answer ≠ .ok .progressed) (hrest : suspension answer = none ∨ x.inputs = []) :
    x.attempt m = .stops answer (x.after m m.step) := by
  unfold attempt
  rw [hstep]
  match answer, hrest with
  | .error upset, _ => rfl
  | .ok .halted, _ => rfl
  | .ok .progressed, _ => exact absurd rfl hp
  | .ok (.suspended kind), .inr hinputs => rw [hinputs]

/-- The ways in which an attempt goes on. -/
theorem attempt_goesOn (h : x.attempt m = .goesOn y) :
    ((m.step x.session.state).result = .ok .progressed ∧
        y = { x.after m m.step with charges := x.charges + 1 }) ∨
      ∃ kind input inputs, (m.step x.session.state).result = .ok (.suspended kind) ∧
        x.inputs = input :: inputs ∧
        (m.resume input (x.after m m.step).session.state).result = .ok () ∧
        y = { x.after m m.step with inputs }.after m (m.resume input) := by
  unfold attempt at h
  split at h
  · rename_i hstep
    cases h
    exact .inl ⟨hstep, rfl⟩
  · rename_i kind input inputs hstep hinputs
    dsimp only at h
    split at h
    · rename_i hresume
      cases h
      exact .inr ⟨kind, input, inputs, hstep, hinputs, hresume, rfl⟩
    · cases h
  · cases h

/-- The ways in which an attempt is the last one. -/
theorem attempt_stops (h : x.attempt m = .stops answer z) :
    ((m.step x.session.state).result = answer ∧ answer ≠ .ok .progressed ∧
        (suspension answer = none ∨ x.inputs = []) ∧ z = x.after m m.step) ∨
      ∃ kind input inputs upset, (m.step x.session.state).result = .ok (.suspended kind) ∧
        x.inputs = input :: inputs ∧
        (m.resume input (x.after m m.step).session.state).result = .error upset ∧
        answer = .error upset ∧ z = { x.after m m.step with inputs }.after m (m.resume input) := by
  unfold attempt at h
  split at h
  · cases h
  · rename_i kind input inputs hstep hinputs
    dsimp only at h
    split at h
    · cases h
    · rename_i upset hresume
      cases h
      exact .inr ⟨kind, input, inputs, upset, hstep, hinputs, hresume, rfl, rfl⟩
  · rename_i hprogressed hsuspended
    cases h
    refine .inl ⟨rfl, fun hp => hprogressed hp, ?_, rfl⟩
    by_cases hinputs : x.inputs = []
    · exact .inr hinputs
    · obtain ⟨input, inputs, hinputs⟩ := List.exists_cons_of_ne_nil hinputs
      refine .inl (Option.eq_none_iff_forall_ne_some.mpr fun kind hkind => ?_)
      exact hsuspended kind input inputs (suspension_eq_some hkind) hinputs

/-- Attempts that lead on may be followed by others. -/
theorem Reaches.trans (h : Reaches m n x y) (h' : Reaches m k y z) : Reaches m (n + k) x z := by
  induction h with
  | rest => rwa [Nat.zero_add]
  | next goes _ ih =>
    rw [Nat.add_right_comm]
    exact .next goes (ih h')

/-! ## Operations -/

/-- An instruction within the limit takes an operation on, in the same run or, when an input has
been given, in the next one. -/
theorem work_of_goesOn (h : x.attempt m = .goesOn y) (limit : Option Nat)
    (hwithin : ∀ most ∈ limit, y.charges ≤ most) (first bound : Nat) :
    ∃ second, (second = first ∧ y.charges = x.charges + 1 ∧ y.inputs = x.inputs ∨
        second = bound ∧ y.charges = x.charges ∧ y.inputs.length < x.inputs.length) ∧
      x.work m limit (first + 1) bound = y.work m limit second bound := by
  rcases attempt_goesOn h with ⟨hstep, rfl⟩ | ⟨kind, input, inputs, hstep, hinputs, hresume, rfl⟩
  · refine ⟨first, .inl ⟨rfl, rfl, rfl⟩, ?_⟩
    unfold work
    rw [Session.run_of_charge hstep hwithin]
    rfl
  · refine ⟨bound, .inr ⟨rfl, rfl, ?_⟩, ?_⟩
    · rw [hinputs]
      exact Nat.lt_succ_self _
    · unfold work
      rw [Session.run_of_rest _ first _ (by rw [hstep]; exact nofun), Option.bind_some, hstep,
        hinputs]
      exact Session.proceed_of_input hresume _ _ _

/-- An operation ends with the attempt that is the last one. -/
theorem work_of_stops (h : x.attempt m = .stops answer z) (first bound : Nat)
    (limit : Option Nat) :
    x.work m limit (first + 1) bound = some (⟨limit, z.charges⟩, z.ends answer) := by
  unfold work
  rcases attempt_stops h with ⟨hstep, hrest, hends, rfl⟩ |
    ⟨kind, input, inputs, upset, hstep, hinputs, hresume, rfl, rfl⟩
  · rw [Session.run_of_rest _ first _ (by rwa [hstep]), Option.bind_some, hstep]
    rcases hends with hends | hends
    · exact Session.proceed_of_rest hends _ _ _ _
    · unfold ends after
      rw [hends]
      rfl
  · rw [Session.run_of_rest _ first _ (by rw [hstep]; exact nofun), Option.bind_some, hstep,
      hinputs]
    exact Session.proceed_of_refused hresume _ _ _

/-- An operation is given up after the instruction that is charged beyond its limit. -/
theorem work_of_passes {most : Nat} (h : x.attempt m = .goesOn y) (hx : x.charges ≤ most)
    (hy : most < y.charges) (first bound : Nat) :
    x.work m (some most) (first + 1) bound =
      some (⟨some most, y.charges⟩, y.ends (.error (.fault (.stepLimit most)))) := by
  rcases attempt_goesOn h with ⟨hstep, rfl⟩ | ⟨_, _, _, -, -, -, rfl⟩
  · unfold work
    rw [Session.run_of_passed hstep hy]
    exact Session.proceed_of_rest rfl _ _ _ _
  · exact absurd hy (Nat.not_lt.mpr hx)

/-- Without a limit an operation ends with the attempt that is the last one, if the bounds allow for
all attempts. -/
theorem Reaches.work (h : Reaches m n x y) (hs : y.attempt m = .stops answer z)
    (hfirst : n < first) (hbound : n < bound) :
    x.work m none first bound = some (⟨none, z.charges⟩, z.ends answer) := by
  induction h generalizing first with
  | rest =>
    obtain ⟨first, rfl⟩ := Nat.exists_eq_succ_of_ne_zero (Nat.ne_zero_of_lt hfirst)
    exact work_of_stops hs first bound none
  | next goes rest ih =>
    obtain ⟨first, rfl⟩ := Nat.exists_eq_succ_of_ne_zero (Nat.ne_zero_of_lt hfirst)
    obtain ⟨second, hsecond, hwork⟩ := work_of_goesOn goes none nofun first bound
    rw [hwork]
    refine ih hs ?_ (Nat.lt_of_succ_lt hbound)
    rcases hsecond with ⟨rfl, -⟩ | ⟨rfl, -⟩
    · exact Nat.lt_of_succ_lt_succ hfirst
    · exact Nat.lt_of_succ_lt hbound

/-- An operation without a limit that comes to an end does so after some attempts. -/
theorem reaches_of_work {r : Budget × Drive σ} (h : x.work m none first bound = some r) :
    ∃ n y answer z, Reaches m n x y ∧ y.attempt m = .stops answer z ∧
      r = (⟨none, z.charges⟩, z.ends answer) := by
  -- Every run uses up an input, and every instruction of a run some of its bound.
  induction hl : x.inputs.length using Nat.strongRecOn generalizing x first with
  | _ l ihinputs =>
    induction first generalizing x with
    | zero => cases h
    | succ first ihfirst =>
      cases ha : x.attempt m with
      | stops answer z =>
        rw [work_of_stops ha first bound none] at h
        exact ⟨0, x, answer, z, .rest, ha, (Option.some.inj h).symm⟩
      | goesOn x' =>
        obtain ⟨second, hsecond, hwork⟩ :=
          work_of_goesOn ha none nofun first bound
        rw [hwork] at h
        have hrest : ∃ n y answer z, Reaches m n x' y ∧ y.attempt m = .stops answer z ∧
            r = (⟨none, z.charges⟩, z.ends answer) := by
          rcases hsecond with ⟨rfl, -, hsame⟩ | ⟨-, -, hless⟩
          · exact ihfirst h (by rw [hsame, hl])
          · exact ihinputs _ (by omega) h rfl
        obtain ⟨n, y, answer, z, hreaches, hstops, hr⟩ := hrest
        exact ⟨n + 1, y, answer, z, .next ha hreaches, hstops, hr⟩

end Driven

/-- To drive a machine is to operate it without a limit. -/
theorem Session.drive_eq_work (bound : Nat) (inputs : List Input) (s : Session σ)
    (out : Transcript) :
    s.drive m bound inputs out =
      ((⟨s, inputs, out, 0⟩ : Driven σ).work m none bound bound).map Prod.snd := by
  have hrun : s.run m bound ⟨none, 0⟩ out = _ := run_unlimited bound 0 s out
  unfold drive Driven.work
  dsimp only
  rw [hrun, Option.bind_map, Option.map_bind]
  exact congrArg _ (funext fun ended => carryOn_eq_proceed _ _ _ _ _ _ _)

/-- A machine that is driven comes to an end with some bound exactly if its attempts do. -/
theorem Session.drive_iff {inputs : List Input} {s : Session σ} {out : Transcript} {d : Drive σ} :
    (∃ bound, s.drive m bound inputs out = some d) ↔
      ∃ n y answer z, Driven.Reaches m n ⟨s, inputs, out, 0⟩ y ∧
        y.attempt m = .stops answer z ∧ z.ends answer = d := by
  constructor
  · rintro ⟨bound, hd⟩
    rw [drive_eq_work] at hd
    obtain ⟨r, hr, rfl⟩ := Option.map_eq_some_iff.mp hd
    obtain ⟨n, y, answer, z, hreaches, hstops, rfl⟩ := Driven.reaches_of_work hr
    exact ⟨n, y, answer, z, hreaches, hstops, rfl⟩
  · rintro ⟨n, y, answer, z, hreaches, hstops, rfl⟩
    refine ⟨n + 1, ?_⟩
    rw [drive_eq_work, hreaches.work hstops (Nat.lt_succ_self n) (Nat.lt_succ_self n)]
    rfl

end EsotericHost
