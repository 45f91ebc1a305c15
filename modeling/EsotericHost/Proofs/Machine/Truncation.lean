import EsotericHost.Catalogue.Standard
import EsotericHost.Proofs.Machine.Driven
import EsotericHost.Proofs.Machine.Printing

/-!
# What a limit does to a run

A run without a limit takes one step after the other until one of them makes no progress. A limit
cuts this short and changes nothing else: a run whose progress is within the limit is the run
without one, and any other ends after the first step that is charged beyond the limit, with the
state and the events of the steps up to that one. So a run with a limit always ends.

A session that goes on for some steps and then finds the end of its program (`Session.Goes`) runs to
the end in as many.

An operation that waits for input is cut into several runs. Its charges are counted as in one run,
whatever the cuts (`Driven.Ends`, `Session.run_truncates`).
-/

namespace EsotericHost

variable {σ : Type} {m : Machine σ}

namespace Session

/-- The session after some steps, whatever they answer. -/
def ahead (m : Machine σ) : Nat → Session σ → Session σ
  | 0, s => s
  | n + 1, s => ahead m n (s.left m.step)

/-- The events of some steps. -/
def tale (m : Machine σ) : Nat → Session σ → List Event
  | 0, _ => []
  | n + 1, s => s.told m m.step ++ tale m n (s.left m.step)

/-- The answer of the step that comes after some steps. -/
def answerAt (m : Machine σ) (n : Nat) (s : Session σ) : Except Upset Outcome :=
  (m.step (s.ahead m n).state).result

/-- Some steps make progress, and the one that comes after them does not. -/
structure RestsAfter (m : Machine σ) (n : Nat) (s : Session σ) : Prop where
  progresses : ∀ k < n, s.answerAt m k = .ok .progressed
  rests : s.answerAt m n ≠ .ok .progressed

variable {s : Session σ} {limit : Option Nat} {n used bound : Nat}

/-- Steps that do not come to rest within a number of steps make progress that often. -/
theorem progresses_of_not_rests (hn : ∀ k, s.RestsAfter m k → n < k) (k : Nat) (hk : k ≤ n) :
    s.answerAt m k = .ok .progressed := by
  induction k using Nat.strongRecOn with
  | _ k ih =>
    refine Classical.byContradiction fun hrests => ?_
    have hlt := hn k ⟨fun j hj => ih j hj (by omega), hrests⟩
    omega

/-- A run whose progress is within its limit, if it has one, ends with the first step that makes
none. -/
theorem run_of_rests (hs : s.RestsAfter m n) (hwithin : ∀ most ∈ limit, used + n ≤ most)
    (hbound : n < bound) (out : Transcript) :
    s.run m bound ⟨limit, used⟩ out =
      some (s.answerAt m n, ⟨limit, used + n⟩, s.ahead m (n + 1), out ++ s.tale m (n + 1)) := by
  induction n generalizing s used bound out with
  | zero =>
    obtain ⟨bound, rfl⟩ := Nat.exists_eq_succ_of_ne_zero (Nat.ne_zero_of_lt hbound)
    have hrests : (m.step s.state).result ≠ .ok .progressed := hs.rests
    rw [Nat.succ_eq_add_one, run_of_rest _ bound out hrests, tale, tale, List.append_nil]
    rfl
  | succ n ih =>
    obtain ⟨bound, rfl⟩ := Nat.exists_eq_succ_of_ne_zero (Nat.ne_zero_of_lt hbound)
    have hfirst : (m.step s.state).result = .ok .progressed := hs.progresses 0 (Nat.zero_lt_succ n)
    have hrest : (s.left m.step).RestsAfter m n :=
      ⟨fun k hk => hs.progresses (k + 1) (Nat.succ_lt_succ hk), hs.rests⟩
    have hmost (most : Nat) (h : most ∈ limit) : used + 1 + n ≤ most := by
      have hle := hwithin most h
      omega
    rw [Nat.succ_eq_add_one,
      run_of_charge hfirst (fun most h => Nat.le_trans (Nat.le_add_right _ n) (hmost most h)),
      ih hrest hmost (Nat.lt_of_succ_lt_succ hbound), Transcript.append_append,
      Nat.add_right_comm, Nat.add_assoc]
    rfl

/-- A run that goes on making progress is given up after the step that is charged beyond its
limit. -/
theorem run_of_passes {most : Nat} (hp : ∀ k ≤ n, s.answerAt m k = .ok .progressed)
    (hn : used + n = most) (hbound : n < bound) (out : Transcript) :
    s.run m bound ⟨some most, used⟩ out =
      some (.error (.fault (.stepLimit most)), ⟨some most, most + 1⟩, s.ahead m (n + 1),
        out ++ s.tale m (n + 1)) := by
  induction n generalizing s used bound out with
  | zero =>
    obtain ⟨bound, rfl⟩ := Nat.exists_eq_succ_of_ne_zero (Nat.ne_zero_of_lt hbound)
    obtain rfl : used = most := hn
    have hfirst : (m.step s.state).result = .ok .progressed := hp 0 (Nat.le_refl 0)
    rw [Nat.succ_eq_add_one, run_of_passed hfirst (Nat.lt_succ_self _), tale, tale,
      List.append_nil]
    rfl
  | succ n ih =>
    obtain ⟨bound, rfl⟩ := Nat.exists_eq_succ_of_ne_zero (Nat.ne_zero_of_lt hbound)
    have hfirst : (m.step s.state).result = .ok .progressed := hp 0 (Nat.zero_le _)
    have hwithin (limit : Nat) (h : limit ∈ some most) : used + 1 ≤ limit := by
      cases h
      omega
    have hrest (k : Nat) (hk : k ≤ n) : (s.left m.step).answerAt m k = .ok .progressed :=
      hp (k + 1) (Nat.succ_le_succ hk)
    rw [Nat.succ_eq_add_one, run_of_charge hfirst hwithin,
      ih hrest (by omega) (Nat.lt_of_succ_lt_succ hbound), Transcript.append_append]
    rfl

/-! ## Courses -/

/-- A session goes on for some steps that all make progress, from states which have a property, and
prints some texts. -/
inductive Goes (m : Machine σ) (P : σ → Prop) :
    Nat → Session σ → List String → Session σ → Prop where
  | here {s : Session σ} : Goes m P 0 s [] s
  | step {n : Nat} {s s' : Session σ} {texts : List String} (holds : P s.state)
    (progress : (m.step s.state).result = .ok .progressed)
    (rest : Goes m P n (s.left m.step) texts s') :
    Goes m P (n + 1) s (Effect.prints (m.step s.state).effects ++ texts) s'

/-- A session that goes on and then finds the end of its program runs for as many steps, and its
states have the property throughout. -/
theorem Goes.halts {P : σ → Prop} {n : Nat} {s s' : Session σ} {texts : List String}
    (h : s.Goes m P n texts s') (hlast : P s'.state)
    (hhalts : m.step s'.state = ⟨.ok .halted, s'.state, []⟩) :
    s.RestsAfter m n ∧ s.answerAt m n = .ok .halted ∧
      Event.prints (s.tale m (n + 1)) = texts ∧ ∀ k ≤ n + 1, P (s.ahead m k).state := by
  induction h with
  | @here s =>
    have hanswer : s.answerAt m 0 = .ok .halted := congrArg Turn.result hhalts
    have hstay : s.left m.step = s := by
      rw [left, hhalts]
    refine ⟨⟨fun _ hk => absurd hk (Nat.not_lt_zero _), ?_⟩, hanswer, ?_, fun k hk => ?_⟩
    · rw [hanswer]
      intro h
      cases h
    · rw [tale, tale, List.append_nil, told, prints_events, hhalts]
      rfl
    · rcases Nat.le_one_iff_eq_zero_or_eq_one.mp hk with rfl | rfl
      · exact hlast
      · rw [ahead, hstay]
        exact hlast
  | @step n s s' texts holds progress rest ih =>
    obtain ⟨hrests, hanswer, hprints, hstates⟩ := ih hlast hhalts
    refine ⟨⟨fun k hk => ?_, hrests.rests⟩, hanswer, ?_, fun k hk => ?_⟩
    · cases k with
      | zero => exact progress
      | succ k => exact hrests.progresses k (Nat.lt_of_succ_lt_succ hk)
    · rw [tale, Event.prints_append, hprints, told, prints_events]
    · cases k with
      | zero => exact holds
      | succ k => exact hstates k (Nat.le_of_succ_le_succ hk)

/-- Such a session stands at the end after the step that finds it. -/
theorem Goes.ahead_eq {P : σ → Prop} {n : Nat} {s s' : Session σ} {texts : List String}
    (h : s.Goes m P n texts s') (hhalts : m.step s'.state = ⟨.ok .halted, s'.state, []⟩) :
    s.ahead m (n + 1) = s' := by
  induction h with
  | @here s =>
    rw [ahead, ahead, left, hhalts]
  | step holds progress rest ih => exact ih hhalts

/-- Without a limit, such a session runs to the end of its program and prints the texts. -/
theorem Goes.prints {P : σ → Prop} {n : Nat} {s s' : Session σ} {texts : List String}
    (h : s.Goes m P n texts s') (hlast : P s'.state)
    (hhalts : m.step s'.state = ⟨.ok .halted, s'.state, []⟩) :
    s.Prints m (String.join texts) := by
  obtain ⟨hrests, hanswer, hprints, -⟩ := h.halts hlast hhalts
  refine ⟨n + 1, fun bound budget hbound hb => ?_⟩
  obtain ⟨limit, used⟩ := budget
  obtain rfl : limit = none := hb
  have hfree (most : Nat) (h : most ∈ (none : Option Nat)) : used + n ≤ most := nomatch h
  have hrun := run_of_rests hrests hfree hbound #[]
  rw [hanswer] at hrun
  refine ⟨_, _, _, hrun, ?_⟩
  calc Transcript.printed (#[] ++ s.tale m (n + 1))
    _ = "" ++ Event.texts (s.tale m (n + 1)) := Transcript.printed_append _ _
    _ = String.join texts := by rw [String.empty_append, Event.texts_eq_join, hprints]

end Session

/-! ## Operations -/

/-- How an operation with a limit ends: with the attempt that is the last one, or after the first
one that is charged beyond the limit. The charges are those of all attempts, whatever inputs come
between them. -/
inductive Driven.Ends (m : Machine σ) (limit : Nat) :
    Driven σ → Except Upset Outcome → Driven σ → Prop where
  | stops {x y : Driven σ} {answer : Except Upset Outcome} (last : x.attempt m = .stops answer y) :
    Ends m limit x answer y
  | passes {x y : Driven σ} (goes : x.attempt m = .goesOn y) (beyond : limit < y.charges) :
    Ends m limit x (.error (.fault (.stepLimit limit))) y
  | next {x y z : Driven σ} {answer : Except Upset Outcome} (goes : x.attempt m = .goesOn y)
    (within : y.charges ≤ limit) (rest : Ends m limit y answer z) : Ends m limit x answer z

/-- An operation with a limit ends, if the bounds allow for one instruction more than is left of
it. -/
theorem Driven.work_ends {limit : Nat} (x : Driven σ) (hx : x.charges ≤ limit) {first bound : Nat}
    (hfirst : limit < x.charges + first) (hbound : limit < x.charges + bound) :
    ∃ answer z, Ends m limit x answer z ∧
      x.work m (some limit) first bound = some (⟨some limit, z.charges⟩, z.ends answer) := by
  -- Every attempt uses up some of the limit, or an input.
  induction hsize : limit - x.charges + x.inputs.length using Nat.strongRecOn
    generalizing x first with
  | _ size ih =>
    obtain ⟨first, rfl⟩ := Nat.exists_eq_succ_of_ne_zero (n := first) (by omega)
    cases ha : x.attempt m with
    | stops answer z => exact ⟨answer, z, .stops ha, work_of_stops ha first bound _⟩
    | goesOn y =>
      by_cases hy : y.charges ≤ limit
      · have hwithin (most : Nat) (h : most ∈ some limit) : y.charges ≤ most := by
          cases h
          exact hy
        obtain ⟨second, hsecond, hwork⟩ := work_of_goesOn ha (some limit) hwithin first bound
        have hless : limit - y.charges + y.inputs.length < size ∧ limit < y.charges + second ∧
            limit < y.charges + bound := by
          rcases hsecond with ⟨rfl, hc, hi⟩ | ⟨rfl, hc, hi⟩
          · rw [hi]
            omega
          · omega
        obtain ⟨answer, z, hends, hz⟩ := ih _ hless.1 y hy hless.2.1 hless.2.2 rfl
        exact ⟨answer, z, .next ha hy hends, hwork.trans hz⟩
      · have hlt := Nat.lt_of_not_le hy
        exact ⟨_, y, .passes ha hlt, work_of_passes ha hx hlt first bound⟩

namespace Session

/-- **A limit cuts a run short and changes nothing else.** A run whose progress is within what is
left of the limit ends as the run without a limit does. Any other is given up after the first step
beyond it. With a bound beyond the limit a run always ends, and so does an operation, in which the
charges of its runs are counted as those of one. -/
theorem run_truncates (m : Machine σ) (s : Session σ) (out : Transcript) {limit used bound : Nat}
    (hused : used ≤ limit) (hbound : limit < used + bound) :
    (∀ n, s.RestsAfter m n → used + n ≤ limit →
      s.run m bound ⟨some limit, used⟩ out =
          some (s.answerAt m n, ⟨some limit, used + n⟩, s.ahead m (n + 1),
            out ++ s.tale m (n + 1)) ∧
        ∀ more, n < more → s.run m more ⟨none, used⟩ out =
          some (s.answerAt m n, ⟨none, used + n⟩, s.ahead m (n + 1), out ++ s.tale m (n + 1))) ∧
    ((∀ n, s.RestsAfter m n → limit < used + n) →
      (∀ k ≤ limit - used, s.answerAt m k = .ok .progressed) ∧
        s.run m bound ⟨some limit, used⟩ out =
          some (.error (.fault (.stepLimit limit)), ⟨some limit, limit + 1⟩,
            s.ahead m (limit - used + 1), out ++ s.tale m (limit - used + 1))) ∧
    (s.run m bound ⟨some limit, used⟩ out).isSome ∧
    ∀ inputs, ∃ answer z, Driven.Ends m limit ⟨s, inputs, out, used⟩ answer z ∧
      s.operate m bound inputs ⟨some limit, used⟩ out =
        some (⟨some limit, z.charges⟩, z.ends answer) := by
  have hrests (n : Nat) (hn : s.RestsAfter m n) (hle : used + n ≤ limit) :
      s.run m bound ⟨some limit, used⟩ out =
        some (s.answerAt m n, ⟨some limit, used + n⟩, s.ahead m (n + 1),
          out ++ s.tale m (n + 1)) := by
    refine run_of_rests hn (fun most hmost => ?_) (by omega) out
    cases hmost
    exact hle
  have hpasses (hn : ∀ n, s.RestsAfter m n → limit < used + n) :
      (∀ k ≤ limit - used, s.answerAt m k = .ok .progressed) ∧
        s.run m bound ⟨some limit, used⟩ out =
          some (.error (.fault (.stepLimit limit)), ⟨some limit, limit + 1⟩,
            s.ahead m (limit - used + 1), out ++ s.tale m (limit - used + 1)) := by
    have hp := progresses_of_not_rests fun k hk => Nat.sub_lt_left_of_lt_add hused (hn k hk)
    exact ⟨hp, run_of_passes hp (by omega) (by omega) out⟩
  refine ⟨fun n hn hle => ⟨hrests n hn hle, fun more hmore => ?_⟩, hpasses, ?_, fun inputs => ?_⟩
  · have hfree (most : Nat) (h : most ∈ (none : Option Nat)) : used + n ≤ most := nomatch h
    exact run_of_rests hn hfree hmore out
  · by_cases h : ∃ n, s.RestsAfter m n ∧ used + n ≤ limit
    · obtain ⟨n, hn, hle⟩ := h
      rw [hrests n hn hle]
      rfl
    · rw [(hpasses fun n hn => Nat.lt_of_not_le fun hle => h ⟨n, hn, hle⟩).2]
      rfl
  · exact Driven.work_ends ⟨s, inputs, out, used⟩ hused hbound hbound

/-- A session whose tape machine has loaded `+[]`. -/
def spinning : Session Builtin :=
  ⟨Brainfuck.name, .empty, ⟨true, true, true, true⟩, false, .brainfuck
    { Brainfuck.State.new .uint8 1 with
      program := ⟨#[⟨0, .increment⟩, ⟨1, .opening 2⟩, ⟨2, .closing 1⟩], 3⟩ }⟩

/-- With two steps left of its limit that program is given up after three. -/
theorem run_truncates_spinning :
    let m := (Catalogue.standard fun _ => .right).machine
    1 ≤ 3 ∧ 3 < 1 + 3 ∧
      spinning.run m 3 ⟨some 3, 1⟩ #[] =
        some (.error (.fault (.stepLimit 3)), ⟨some 3, 4⟩, spinning.ahead m 3,
          (#[] : Transcript) ++ spinning.tale m 3) := by
  intro m
  have hruns := (run_truncates m spinning #[] (by decide : 1 ≤ 3) (by decide : 3 < 1 + 3)).2.1
  refine ⟨by decide, by decide, (hruns fun n hn => ?_).2⟩
  -- The first three steps make progress.
  match n with
  | 0 => exact absurd rfl hn.rests
  | 1 => exact absurd rfl hn.rests
  | 2 => exact absurd rfl hn.rests
  | n + 3 => omega

end Session

end EsotericHost
