import EsotericHost.Proofs.Machine.Instructions

/-!
# The line machine is lawful

No call of the line machine breaks down: lines are looked up, never indexed, and what would overflow
is a fault. So all that there is to keep track of is whether the machine waits. Only the input
instruction makes it wait, and only `resume` and `reset` end that.
-/

namespace EsotericHost.Length

/-- The input that the machine waits for: a byte. -/
def waits (s : State) : Option InputKind :=
  if s.waiting then some .byte else none

/-- A part of a call that neither waits for input nor ends a wait, and does not complain that the
machine does not wait. -/
abbrev Steady {α : Type} (act : Step α) : Prop :=
  ∀ b, act.Safe (fun s => s.waiting = b) (· ≠ .notWaiting)

open Act

/-- Every basic part of an instruction is steady. -/
theorem steady_basic {line : Nat} {rolls : Prop} {α : Type} {x : Step α}
    (hx : Basic line rolls α x) : Steady x := by
  intro b
  cases hx with
  | push n => exact .bind (safe_modify fun _ hs => hs) fun _ => safe_notify _
  | pop =>
    refine .bind safe_get fun s => ?_
    split
    · exact safe_fail Trouble.noConfusion
    · refine .bind (safe_modify fun _ hs => hs) fun _ => ?_
      exact .bind (safe_notify _) fun _ => safe_pure _
  | goTo following => exact .bind (safe_modify fun _ hs => hs) fun _ => safe_notify _
  | roll allowed f => exact safe_modify fun _ hs => hs

/-- An instruction that does not wait leaves the wait as it is. -/
theorem steady_execute (instruction : Instruction) : Steady (execute instruction) := by
  intro b s hs
  obtain ⟨act, hact, hassembled⟩ := assembled_execute instruction s
  rw [hact]
  exact hassembled.safe (fun _ _ hx => steady_basic hx b) s hs

/-! ## The calls -/

/-- A steady part is safe for a machine that does not wait. -/
theorem Steady.safe {α : Type} {act : Step α} (hact : Steady act) :
    Safe (fun s => True ∧ waits s = none) (· ≠ .notWaiting) act :=
  (hact false).congr fun s => by
    rw [waits, await_eq_none, true_and]

/-- A machine that waits goes on waiting. -/
theorem step_of_waiting (s : State) (kind : InputKind) (hw : waits s = some kind) :
    step s = ⟨.ok (.suspended kind), s, []⟩ := by
  obtain ⟨hs, rfl⟩ := await_eq_some.mp hw
  unfold step
  rw [get_bind_apply, hs]
  rfl

/-- One instruction says truly whether the machine waits after it. -/
theorem candid_step : Candid (fun _ => True) waits (· ≠ .notWaiting) step := by
  refine .get_bind fun s hs hw => ?_
  rw [await_eq_none.mp hw, if_neg Bool.false_ne_true]
  split
  · exact candid_pure rfl
  · refine .echoed (safe_print _) ?_
    split
    · exact candid_await fun s _ => ⟨trivial, rfl⟩
    · exact .bind (steady_execute _).safe fun _ => candid_pure rfl

/-- An input ends the wait for it. -/
theorem resume_apply (input : Input) {s : State} (hs : s.waiting = true) :
    ∃ s' effects, resume input s = ⟨.ok (), s', effects⟩ ∧ s'.waiting = false := by
  unfold resume
  rw [get_bind_apply, hs]
  exact ⟨_, _, rfl, rfl⟩

/-- A fault of this machine is not a crash. -/
theorem mild_fault (e : Trouble) (he : e ≠ .notWaiting) :
    ((Upset.fault ∘ Trouble.fault) e).Mild := by
  cases e with
  | notWaiting => exact absurd rfl he
  | _ => exact Fault.noConfusion

/-- The line machine is lawful in every state. -/
theorem lawful : machine.Lawful (fun _ => True) waits := by
  intro s hs
  -- What a step says about waiting, and that it does not crash, come from one lemma.
  obtain ⟨hsafe, htells, hiff⟩ := candid_step.lawful_step step_of_waiting mild_fault hs
  refine ⟨fun source => .inl ⟨rfl, trivial, rfl⟩, ⟨rfl, trivial, rfl⟩, hsafe, htells, hiff,
    fun input hw => ?_, fun source => ⟨none, rfl⟩, fun text => ⟨_, rfl⟩⟩
  -- An input never fails here, whatever it is.
  obtain ⟨s', effects, hresume, hs'⟩ := resume_apply input (await_eq_some.mp hw).1
  change Turn.Safe _ _ ((resume input s).mapError _)
  rw [hresume]
  exact ⟨⟨trivial, await_eq_none.mpr hs'⟩, fun _ he => nomatch he⟩

end EsotericHost.Length
