import EsotericHost.Proofs.Bounds.Basic
import EsotericHost.Proofs.Machine.Instructions
import EsotericHost.Proofs.Text.Lines

/-!
# What the line machine tells

The line machine tells of the line that it goes on with. That is the target of a jump, which has 64
bits with a sign, or it stands close behind a line of the program, of which there are no more than
the text has characters, and one.
-/

namespace EsotericHost.Length

open Act

/-- The program has no more lines than a text in memory, and a machine that waits does so on one of
them. -/
structure State.Bounded (s : State) : Prop where
  lines : (s.lines.size : Int) ≤ Word.intBound
  line : s.waiting → (s.line : Int) < Word.intBound

/-- A machine that does not wait. -/
structure State.Runs (s : State) : Prop where
  lines : (s.lines.size : Int) ≤ Word.intBound
  waiting : s.waiting = false

/-- A machine that runs a program within the bounds is within them itself. -/
theorem State.Runs.bounded {s : State} (hs : s.Runs) : s.Bounded :=
  ⟨hs.lines, fun hw => by rw [hs.waiting] at hw; cases hw⟩

/-- A part of a call that does not wait, keeps the bounds and tells nothing beyond them. -/
abbrev Keeps {α : Type} (act : Step α) : Prop :=
  act.Tells State.Runs Notice.Fits

/-- A push keeps the bounds, and tells of an integer of 64 bits. -/
theorem keeps_push (n : Int64) : Keeps (push n) :=
  .bind (tells_modify fun _ hs => ⟨hs.lines, hs.waiting⟩) fun _ => tells_notify (fits_toInt n)

/-- A pop keeps the bounds. -/
theorem keeps_pop : Keeps pop := by
  refine .bind tells_get fun s => ?_
  split
  · exact tells_fail _
  · refine .bind (tells_modify fun _ hs => ⟨hs.lines, hs.waiting⟩) fun _ => ?_
    exact .bind (tells_notify (fits_toInt _)) fun _ => tells_pure _

/-- A jump to a line that a word counts keeps the bounds. -/
theorem keeps_goTo {line : Nat} (hl : line < Word.natBound) : Keeps (goTo line) :=
  .bind (tells_modify fun _ hs => ⟨hs.lines, hs.waiting⟩) fun _ => tells_notify hl

/-- An instruction on a line of the program goes on to lines within the bounds. -/
theorem Following.lt {line target : Nat} (hf : Following line target)
    (hline : (line : Int) < Word.intBound) : target < Word.natBound := by
  rw [Word.intBound] at hline
  rw [Word.natBound]
  rcases hf with rfl | rfl | hf
  · omega
  · omega
  · rw [Word.intBound] at hf
    omega

/-- Every basic part of an instruction keeps the bounds, on a line that a signed word counts. -/
theorem keeps_basic {line : Nat} (hline : (line : Int) < Word.intBound) {rolls : Prop}
    {α : Type} {x : Step α} (hx : Basic line rolls α x) : Keeps x := by
  cases hx with
  | push n => exact keeps_push n
  | pop => exact keeps_pop
  | goTo following => exact keeps_goTo (following.lt hline)
  | roll allowed f => exact tells_modify fun _ hs => ⟨hs.lines, hs.waiting⟩

/-- The places that an instruction goes on to stand behind one of the lines, or a number names
them. -/
theorem tells_execute {s : State} (hs : s.Runs) (hline : s.line < s.lines.size)
    (instruction : Instruction) :
    (execute instruction s).Tells State.Runs Notice.Fits := by
  have hlt : (s.line : Int) < Word.intBound :=
    Int.lt_of_lt_of_le (Int.ofNat_lt.mpr hline) hs.lines
  obtain ⟨act, hact, hassembled⟩ := assembled_execute instruction s
  rw [hact]
  exact hassembled.tells (fun _ _ hx => keeps_basic hlt hx) s hs

/-- What a machine that runs tells, a machine within the bounds may tell. -/
theorem tells_of_runs {ε α : Type} {t : Turn ε State α} (ht : t.Tells State.Runs Notice.Fits) :
    t.Tells State.Bounded Notice.Fits :=
  ⟨ht.state.bounded, ht.notices⟩

/-- A step keeps the bounds, be it that it goes on, jumps or waits. -/
theorem tells_step : step.Tells State.Bounded Notice.Fits := by
  refine .get_bind fun s hs => ?_
  split
  · exact tells_pure _ s hs
  rename_i hwaiting
  have hruns : s.Runs := ⟨hs.lines, by simpa using hwaiting⟩
  cases hline : s.lines[s.line]? with
  | none => exact tells_pure _ s hs
  | some length =>
    have hlt : s.line < s.lines.size := (Array.getElem?_eq_some_iff.mp hline).1
    refine Tells.echoed_at _ ?_
    split
    · have hline : (s.line : Int) < Word.intBound :=
        Int.lt_of_lt_of_le (Int.ofNat_lt.mpr hlt) hs.lines
      exact Turn.tells_quietly ⟨hs.lines, fun _ => hline⟩ rfl
    · exact tells_of_runs (Tells.bind_at (tells_execute hruns hlt _) fun _ => tells_pure _)

/-- A source has no more lines than line feeds and one. -/
theorem length_lengths_le (comments : Bool) (source : List Char) :
    (lengths comments source).length ≤ source.length + 1 := by
  have hpieces := Text.length_pieces '\n' source
  unfold lengths
  split
  · exact Nat.zero_le _
  · rw [List.length_map]
    omega

/-- An input keeps the bounds. -/
theorem tells_resume (input : Input) : (resume input).Tells State.Bounded Notice.Fits := by
  refine .get_bind fun s hs => ?_
  split
  · rename_i hwaiting
    have hline := hs.line hwaiting
    have hfollowing : s.line + 1 < Word.natBound := by
      rw [Word.intBound] at hline
      rw [Word.natBound]
      omega
    have hruns : Keeps (push (inputValue input) >>= fun _ => goTo (s.line + 1)) :=
      .bind (keeps_push _) fun _ => keeps_goTo hfollowing
    exact tells_of_runs (hruns { s with waiting := false } ⟨hs.lines, rfl⟩)
  · exact tells_fail _ s hs

/-- The line machine keeps its bounds and tells nothing that does not fit, call by call. -/
theorem tells : machine.Tells Text.InMemory State.Bounded Notice.Fits where
  load source hsource := by
    refine Tells.asCall (fun s hs => Turn.tells_quietly ⟨?_, hs.line⟩ rfl) _
    have hlength := length_lengths_le s.comments source.toList
    rw [Text.InMemory, ← String.length_toList] at hsource
    change (((lengths s.comments source.toList).length : Nat) : Int) ≤ _
    omega
  reset := by
    have hruns : Keeps (Act.notify (.cleared none) >>= fun _ => goTo 0) :=
      .bind (tells_notify trivial) fun _ => keeps_goTo (by decide)
    exact Tells.asCall (fun s hs => tells_of_runs
      (hruns { s with stack := [], waiting := false } ⟨hs.lines, rfl⟩)) _
  step := tells_step.asCall _
  resume input := (tells_resume input).asCall _

end EsotericHost.Length
