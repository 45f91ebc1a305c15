import EsotericHost.Proofs.Machine.Printing
import EsotericHost.Proofs.Machine.Recast
import Mathlib.Data.Int.ModEq

/-!
# Arithmetic on two stacks

The line machine and the playfield machine have four operations in common. Each takes two numbers of
64 bits off a stack and puts there the residue of the exact result, which is the only number of 64
bits that is congruent to it modulo `2 ^ 64`; a division by zero fails (`arithmetic_agrees`).

One quotient does not fit: the least number divided by -1. Its residue is the least number again,
and the playfield machine goes on with that. The line machine takes the division for one by zero
(`quotient_differs`).
-/

namespace EsotericHost

/-- The operations that both machines have. -/
inductive Calculation where
  | add
  | sub
  | mul
  | div
  deriving Repr, DecidableEq

namespace Calculation

/-- The result for two integers; a quotient is cut off toward zero. -/
def exact (b a : Int) : Calculation → Int
  | add => b + a
  | sub => b - a
  | mul => b * a
  | div => b.tdiv a

/-- The length of the line that stands for the operation in one language. -/
def lineLength : Calculation → Nat
  | add => 10
  | sub => 11
  | mul => 20
  | div => 21

/-- The character that stands for the operation in the other language. -/
def sign : Calculation → Char
  | add => '+'
  | sub => '-'
  | mul => '*'
  | div => '/'

/-- The result for two numbers of 64 bits, with `a` on top of `b`. -/
def wrapped (b a : Int64) : Calculation → Int64
  | add => b + a
  | sub => b - a
  | mul => b * a
  | div => b / a

/-- A number that is wrapped to 64 bits is congruent to what it was. -/
theorem bmod_modEq (n : Int) : n.bmod (2 ^ 64) ≡ n [ZMOD 2 ^ 64] := Int.bmod_emod

/-- The result is congruent to the exact one. -/
theorem wrapped_modEq (c : Calculation) (b a : Int64) :
    (c.wrapped b a).toInt ≡ c.exact b.toInt a.toInt [ZMOD 2 ^ 64] := by
  cases c with
  | add =>
    rw [wrapped, Int64.toInt_add]
    exact bmod_modEq _
  | sub =>
    rw [wrapped, Int64.toInt_sub]
    exact bmod_modEq _
  | mul =>
    rw [wrapped, Int64.toInt_mul]
    exact bmod_modEq _
  | div =>
    rw [wrapped, Int64.toInt_div]
    exact bmod_modEq _

/-- Two numbers of 64 bits that are congruent are the same. -/
theorem eq_of_modEq {r r' : Int64} (h : r.toInt ≡ r'.toInt [ZMOD 2 ^ 64]) : r = r' := by
  have hlow := r.le_toInt
  have hhigh := r.toInt_lt
  have hlow' := r'.le_toInt
  have hhigh' := r'.toInt_lt
  apply Int64.toInt_inj.mp
  have hmod : r.toInt % 2 ^ 64 = r'.toInt % 2 ^ 64 := h
  omega

end Calculation

open Act

/-! ## The line machine -/

namespace Length

/-- The machine is about to carry out an operation on `a`, on top of `b`. -/
structure State.Faces (c : Calculation) (b a : Int64) (rest : List Int64) (s : State) : Prop where
  waiting_eq : s.waiting = false
  line_eq : s.lines[s.line]? = some c.lineLength
  stack_eq : s.stack = a :: b :: rest

/-- A number is divided by zero, or the quotient does not fit. -/
def Unfit (c : Calculation) (b a : Int64) : Prop :=
  c = .div ∧ (a = 0 ∨ b = Int64.minValue ∧ a = -1)

/-- The operation as the machine carries it out: a quotient that does not fit is none. -/
def operation? : Calculation → Int64 → Int64 → Option Int64
  | .add => fun b a => some (b + a)
  | .sub => fun b a => some (b - a)
  | .mul => fun b a => some (b * a)
  | .div => quotient?

variable {c : Calculation} {b a r : Int64} {rest : List Int64} {s : State}
  {operation : Int64 → Int64 → Option Int64}

/-- The line machine refuses an operation that is unfit. -/
theorem operation_of_unfit (h : Unfit c b a) : operation? c b a = none := by
  obtain ⟨rfl, hunfit⟩ := h
  exact if_pos hunfit

/-- The line machine carries out an operation that is fit, with its result for 64 bits. -/
theorem operation_of_fit (h : ¬ Unfit c b a) : operation? c b a = some (c.wrapped b a) := by
  cases c with
  | add | sub | mul => rfl
  | div => exact if_neg fun hunfit => h ⟨rfl, hunfit⟩

/-- The value on top of the stack is popped, and told. -/
theorem pop_apply (hs : s.stack = a :: rest) :
    pop s = ⟨.ok a, { s with stack := rest }, [.notify (.popped none (shown a))]⟩ := by
  unfold pop
  rw [get_bind_apply, hs]
  rfl

/-- The result takes the place of the two topmost numbers. -/
theorem binary_of_some (hs : s.stack = a :: b :: rest) (hr : operation b a = some r) :
    ∃ effects, binary operation s = ⟨.ok (), { s with stack := r :: rest }, effects⟩ := by
  unfold binary
  rw [get_bind_apply, bind_of_ok (pop_apply hs), bind_of_ok (pop_apply rfl), hr]
  exact ⟨_, rfl⟩

/-- An operation without a result fails as a division by zero, with the two values gone. -/
theorem binary_of_none (hs : s.stack = a :: b :: rest) (hr : operation b a = none) :
    ∃ effects, binary operation s =
      ⟨.error (.divisionByZero s.line), { s with stack := rest }, effects⟩ := by
  unfold binary
  rw [get_bind_apply, bind_of_ok (pop_apply hs), bind_of_ok (pop_apply rfl), hr]
  exact ⟨_, rfl⟩

namespace State.Faces

/-- A step carries the operation out, and goes on to the next line. -/
theorem step_eq (h : s.Faces c b a rest) :
    step s = (((binary (operation? c) >>= fun _ => goTo (s.line + 1)) >>= fun _ =>
      pure .progressed : Step Outcome) s).after (if s.debug then echo s else []) := by
  have hbegun : begun? s = some (.ofLength c.lineLength) := by
    rw [begun?, h.waiting_eq, h.line_eq]
    rfl
  rw [Length.step_eq, hbegun]
  cases c <;> rfl

/-- The result of an operation that fits is on top of the stack after the step. -/
theorem step_of_fit (h : s.Faces c b a rest) (hfit : ¬ Unfit c b a) :
    (step s).result = .ok .progressed ∧ (step s).state.stack = c.wrapped b a :: rest := by
  obtain ⟨effects, hbinary⟩ := binary_of_some h.stack_eq (operation_of_fit hfit)
  have hgoTo := bind_of_ok (f := fun _ => goTo (s.line + 1)) hbinary
  rw [h.step_eq, bind_of_ok hgoTo]
  exact ⟨rfl, rfl⟩

/-- A step at an unfit operation fails. -/
theorem step_of_unfit (h : s.Faces c b a rest) (hunfit : Unfit c b a) :
    (step s).result = .error (.divisionByZero s.line) := by
  obtain ⟨effects, hbinary⟩ := binary_of_none h.stack_eq (operation_of_unfit hunfit)
  have hgoTo := bind_of_error (f := fun _ => goTo (s.line + 1)) hbinary
  rw [h.step_eq, bind_of_error hgoTo]
  rfl

end State.Faces

end Length

/-! ## The playfield machine -/

namespace Befunge

/-- The machine is about to carry out an operation on `a`, on top of `b`. -/
structure State.Faces (c : Calculation) (b a : Int64) (rest : List Int64) (s : State) : Prop where
  waiting_eq : s.waiting = none
  halted_eq : s.halted = false
  filled_ne : s.filled ≠ 0
  quoting_eq : s.quoting = false
  cell_eq : s.grid.cell? s.x s.y = some c.sign
  stack_eq : s.stack = a :: b :: rest

/-- The operation as the machine has it. -/
def operation : Calculation → Arithmetic
  | .add => .add
  | .sub => .sub
  | .mul => .mul
  | .div => .div

variable {c : Calculation} {b a : Int64} {rest : List Int64} {s : State}

/-- The field machine has a result for all but a division by zero. -/
theorem result_of_defined (h : ¬ (c = .div ∧ a = 0)) :
    (operation c).result? b a = some (c.wrapped b a) := by
  cases c with
  | add | sub | mul => rfl
  | div => exact if_neg fun ha => h ⟨rfl, ha⟩

/-- The value on top of the stack is popped, and told. -/
theorem pop_apply (hs : s.stack = a :: rest) :
    pop s = ⟨.ok a, { s with stack := rest }, [.notify (.popped none (shown a))]⟩ := by
  unfold pop
  rw [get_bind_apply, hs]
  rfl

/-- Moving the pointer leaves the stack as it is and divides nothing. -/
theorem advance_calm (s : State) :
    (advance s).state.stack = s.stack ∧
      ∀ x y, (advance s).result ≠ .error (.divisionByZero x y) := by
  unfold advance
  split
  · exact ⟨rfl, nofun⟩
  · dsimp only
    split
    · exact ⟨rfl, nofun⟩
    · exact ⟨rfl, nofun⟩

/-- The result takes the place of the two topmost numbers. -/
theorem execute_of_defined (draw : Nat → Direction) (hs : s.stack = a :: b :: rest)
    (h : ¬ (c = .div ∧ a = 0)) :
    ∃ effects, execute draw (.arithmetic (operation c)) s =
      ⟨.ok (), { s with stack := c.wrapped b a :: rest }, effects⟩ := by
  unfold execute
  dsimp only
  rw [bind_of_ok (pop_apply hs), bind_of_ok (pop_apply rfl), get_bind_apply, result_of_defined h]
  exact ⟨_, rfl⟩

/-- A division by zero fails, with the two values gone. -/
theorem execute_of_zero (draw : Nat → Direction) (hs : s.stack = 0 :: b :: rest) :
    ∃ effects, execute draw (.arithmetic .div) s =
      ⟨.error (.divisionByZero s.x s.y), { s with stack := rest }, effects⟩ := by
  have hnone : Arithmetic.div.result? b 0 = none := rfl
  unfold execute
  dsimp only
  rw [bind_of_ok (pop_apply hs), bind_of_ok (pop_apply rfl), get_bind_apply, hnone]
  exact ⟨_, rfl⟩

namespace State.Faces

/-- A step carries the operation out, and moves the pointer on. -/
theorem step_eq (draw : Nat → Direction) (h : s.Faces c b a rest) :
    step draw s = ((execute draw (.arithmetic (operation c)) >>= fun _ => advance >>= fun _ =>
      pure .progressed : Step Outcome) s).after (if s.debug then echo s else []) := by
  have hbegun : begun? s = some c.sign := by
    simp [begun?, h.waiting_eq, h.halted_eq, h.filled_ne, h.cell_eq]
  rw [Befunge.step_eq, hbegun, h.quoting_eq]
  cases c <;> rfl

/-- The result is on top of the stack after the step, even if the pointer has passed its limit on
the way. -/
theorem step_of_defined (draw : Nat → Direction) (h : s.Faces c b a rest)
    (hdefined : ¬ (c = .div ∧ a = 0)) :
    (step draw s).state.stack = c.wrapped b a :: rest ∧
      ∀ x y, (step draw s).result ≠ .error (.divisionByZero x y) := by
  obtain ⟨effects, hexecute⟩ := execute_of_defined draw h.stack_eq hdefined
  obtain ⟨hstack, hcalm⟩ := advance_calm { s with stack := c.wrapped b a :: rest }
  rw [h.step_eq, bind_of_ok hexecute]
  obtain ⟨t, ht⟩ : ∃ t, advance { s with stack := c.wrapped b a :: rest } = t := ⟨_, rfl⟩
  obtain ⟨result, s', more⟩ := t
  rw [ht] at hstack hcalm
  cases result with
  | ok _ =>
    rw [bind_of_ok ht]
    exact ⟨hstack, nofun⟩
  | error e =>
    rw [bind_of_error ht]
    refine ⟨hstack, fun x y hresult => hcalm x y ?_⟩
    cases hresult
    rfl

/-- A step at a division by zero fails. -/
theorem step_of_zero (draw : Nat → Direction) (h : s.Faces .div b 0 rest) :
    (step draw s).result = .error (.divisionByZero s.x s.y) := by
  obtain ⟨effects, hexecute⟩ := execute_of_zero draw h.stack_eq
  rw [h.step_eq]
  change ((execute draw (.arithmetic .div) >>= _ : Step Outcome) s).result = _
  rw [bind_of_error hexecute]

end State.Faces

end Befunge

/-! ## Both machines -/

namespace Calculation

/-- **The two machines calculate alike.** Whatever two numbers are on top of their stacks, with `a`
on top of `b`, both machines replace them by the number of 64 bits that is congruent to the exact
result, and the division on the playfield fails just if `a` is zero. The division of lines fails
also for the one quotient that does not fit; no other result is affected. -/
theorem arithmetic_agrees (c : Calculation) (b a : Int64) (draw : Nat → Befunge.Direction)
    {rest rest' : List Int64} {l : Length.State} {f : Befunge.State} (hl : l.Faces c b a rest)
    (hf : f.Faces c b a rest') :
    ((Befunge.step draw f).result = .error (.divisionByZero f.x f.y) ↔ c = .div ∧ a = 0) ∧
    ((Length.step l).result = .error (.divisionByZero l.line) ↔
      c = .div ∧ (a = 0 ∨ b = Int64.minValue ∧ a = -1)) ∧
    (¬ (c = .div ∧ a = 0) → ∃ r : Int64, r.toInt ≡ c.exact b.toInt a.toInt [ZMOD 2 ^ 64] ∧
      (∀ r' : Int64, r'.toInt ≡ c.exact b.toInt a.toInt [ZMOD 2 ^ 64] → r' = r) ∧
      (Befunge.step draw f).state.stack = r :: rest' ∧
      (¬ (c = .div ∧ b = Int64.minValue ∧ a = -1) →
        (Length.step l).result = .ok .progressed ∧ (Length.step l).state.stack = r :: rest)) := by
  refine ⟨⟨fun herror => ?_, ?_⟩, ⟨fun herror => ?_, hl.step_of_unfit⟩, fun hdefined => ?_⟩
  · apply Classical.byContradiction
    intro hdefined
    exact (hf.step_of_defined draw hdefined).2 f.x f.y herror
  · rintro ⟨rfl, rfl⟩
    exact hf.step_of_zero draw
  · apply Classical.byContradiction
    intro hfit
    rw [(hl.step_of_fit hfit).1] at herror
    cases herror
  · have hmod := c.wrapped_modEq b a
    refine ⟨c.wrapped b a, hmod, fun r' hr' => eq_of_modEq (hr'.trans hmod.symm),
      (hf.step_of_defined draw hdefined).1, fun hfits => hl.step_of_fit ?_⟩
    rintro ⟨hdiv, hzero | hquotient⟩
    · exact hdefined ⟨hdiv, hzero⟩
    · exact hfits ⟨hdiv, hquotient⟩

/-- The line machine that has been given two numbers, before a line of some length. -/
def onLines (length : Nat) (b a : Int64) : Length.State :=
  let source := "\n".intercalate [Length.filler 9, Length.filler 9, Length.filler length]
  let s := (Session.load Length.machine source (Length.build .empty)).state
  let s := (Length.machine.resume (.byte b) (Length.machine.step s).state).state
  (Length.machine.resume (.byte a) (Length.machine.step s).state).state

/-- The playfield machine that has been given two numbers, before a character. -/
def onField (sign : Char) (b a : Int64) : Befunge.State :=
  let m := Befunge.machine fun _ => .right
  let s := (Session.load m s!"~~{sign}@" (.new false none false)).state
  let s := (m.resume (.byte b) (m.step s).state).state
  (m.resume (.byte a) (m.step s).state).state

/-- The product of the least number and -1 is one more than the greatest, and both machines make the
least number of it. -/
theorem arithmetic_agrees_least :
    let least := Int64.minValue
    (onLines 20 least (-1)).Faces .mul least (-1) [] ∧
      (onField '*' least (-1)).Faces .mul least (-1) [] ∧
      (Length.step (onLines 20 least (-1))).state.stack = [least] ∧
      (Befunge.step (fun _ => .right) (onField '*' least (-1))).state.stack = [least] := by
  intro least
  have hl : (onLines 20 least (-1)).Faces .mul least (-1) [] :=
    ⟨by decide +kernel, by decide +kernel, by decide +kernel⟩
  have hf : (onField '*' least (-1)).Faces .mul least (-1) [] :=
    ⟨by decide +kernel, by decide +kernel, by decide +kernel, by decide +kernel,
      by decide +kernel, by decide +kernel⟩
  obtain ⟨-, -, hall⟩ := arithmetic_agrees .mul least (-1) (fun _ => .right) hl hf
  obtain ⟨r, -, hunique, hfield, hlines⟩ := hall (by rintro ⟨h, -⟩; cases h)
  have hr : least = r := hunique least (by decide +kernel)
  refine ⟨hl, hf, ?_, ?_⟩
  · rw [(hlines (by rintro ⟨h, -⟩; cases h)).2, hr]
  · rw [hfield, hr]

/-- The least number divided by -1 is the least number again for the one machine, and a division by
zero for the other. -/
theorem quotient_differs :
    let least := Int64.minValue
    (onLines 21 least (-1)).Faces .div least (-1) [] ∧
      (onField '/' least (-1)).Faces .div least (-1) [] ∧ (-1 : Int64) ≠ 0 ∧
      (Befunge.step (fun _ => .right) (onField '/' least (-1))).result = .ok .progressed ∧
      (Befunge.step (fun _ => .right) (onField '/' least (-1))).state.stack = [least] ∧
      least.toInt ≡ exact least.toInt (-1 : Int64).toInt .div [ZMOD 2 ^ 64] ∧
      (Length.step (onLines 21 least (-1))).result =
        .error (.divisionByZero (onLines 21 least (-1)).line) := by
  intro least
  have hl : (onLines 21 least (-1)).Faces .div least (-1) [] :=
    ⟨by decide +kernel, by decide +kernel, by decide +kernel⟩
  have hf : (onField '/' least (-1)).Faces .div least (-1) [] :=
    ⟨by decide +kernel, by decide +kernel, by decide +kernel, by decide +kernel,
      by decide +kernel, by decide +kernel⟩
  have hprogress : (Befunge.step (fun _ => .right) (onField '/' least (-1))).result =
      .ok .progressed := eq_ok_of_toOption (by decide +kernel)
  exact ⟨hl, hf, by decide, hprogress, by decide +kernel, by decide +kernel,
    hl.step_of_unfit ⟨rfl, .inr ⟨rfl, rfl⟩⟩⟩

end Calculation

end EsotericHost
