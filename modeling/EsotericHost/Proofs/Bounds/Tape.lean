import EsotericHost.Proofs.Bounds.Basic
import EsotericHost.Proofs.Machine.Brainfuck

/-!
# What the tape machine tells

The tape machine tells of places on its reel, which is short, and of places in the text of its
program, where its commands stand (`Scan.position_lt_of_read`).
-/

namespace EsotericHost.Brainfuck

open Act

/-- The commands that have been read and the brackets that wait stand before a place. -/
structure Scan.Before (scan : Scan) (n : Nat) : Prop where
  code : ∀ instruction ∈ scan.code, instruction.position < n
  pending : ∀ bracket ∈ scan.pending, bracket.2 < n

namespace Scan

variable {scan scan' : Scan} {n : Nat}

/-- What stands before a place stands before the next one. -/
theorem Before.mono (hs : scan.Before n) : scan.Before (n + 1) :=
  ⟨fun i hi => Nat.lt_succ_of_lt (hs.code i hi), fun b hb => Nat.lt_succ_of_lt (hs.pending b hb)⟩

/-- One more instruction stands where it was read, before the next place. -/
theorem lt_succ_of_mem_push {code : Array Instruction} {op : Op}
    (hc : ∀ instruction ∈ code, instruction.position < n) :
    ∀ instruction ∈ code.push ⟨n, op⟩, instruction.position < n + 1 := by
  intro instruction hi
  rcases Array.mem_push.mp hi with hi | rfl
  · exact Nat.lt_succ_of_lt (hc instruction hi)
  · exact Nat.lt_succ_self n

/-- Reading a character brings nothing that stands behind it. -/
theorem Before.next (hs : scan.Before n) {c : Char} (h : scan.next n c = .ok scan') :
    scan'.Before (n + 1) := by
  unfold Scan.next at h
  split at h
  · cases h
    refine ⟨lt_succ_of_mem_push hs.code, fun bracket hb => ?_⟩
    rcases List.mem_cons.mp hb with rfl | hb
    · exact Nat.lt_succ_self n
    · exact hs.mono.pending bracket hb
  · split at h
    · unfold Scan.closeBracket at h
      split at h
      · cases h
      · rename_i start startPosition outer hpending
        cases h
        refine ⟨lt_succ_of_mem_push fun instruction hi => ?_, fun bracket hb => ?_⟩
        · rcases Array.mem_or_eq_of_mem_set hi with hi | rfl
          · exact hs.code instruction hi
          · exact hs.pending (start, startPosition) (by rw [hpending]; exact List.mem_cons_self)
        · exact hs.mono.pending bracket (by rw [hpending]; exact List.mem_cons_of_mem _ hb)
    · split at h <;> cases h
      · exact ⟨lt_succ_of_mem_push hs.code, hs.mono.pending⟩
      · exact hs.mono

/-- Every instruction of the code stands before the end of the text that it was read from. -/
theorem position_lt_of_read {cs : List Char} {code : Array Instruction} (hs : scan.Before n)
    (h : scan.read n cs = .ok code) :
    ∀ instruction ∈ code, instruction.position < n + cs.length := by
  induction cs generalizing scan n with
  | nil =>
    unfold Scan.read at h
    split at h <;> cases h
    exact hs.code
  | cons c cs ih =>
    unfold Scan.read at h
    split at h
    · rename_i next hnext
      rw [List.length_cons, ← Nat.add_assoc, Nat.add_right_comm]
      exact ih (hs.next hnext) h
    · cases h

end Scan

/-- A good machine whose program stands in a text in memory. -/
structure State.Bounded (s : State) : Prop where
  good : s.Good
  reel : s.reelLength ≤ maxReelLength
  code : ∀ instruction ∈ s.program.code, instruction.position < Word.natBound
  length : s.program.sourceLength < Word.natBound

/-- The place in the source that is shown is counted by a machine word. -/
theorem State.Bounded.sourcePosition_lt {s : State} (hs : s.Bounded) :
    s.sourcePosition < Word.natBound := by
  unfold State.sourcePosition
  split
  · rename_i instruction hi
    obtain ⟨hlt, rfl⟩ := Array.getElem?_eq_some_iff.mp hi
    exact hs.code _ (Array.getElem_mem hlt)
  · exact hs.length

/-- Every cell of the reel is counted by a machine word. -/
theorem State.Bounded.lt {s : State} (hs : s.Bounded) {n : Nat} (hn : n < s.reelLength) :
    n < Word.natBound := by
  have hreel := hs.reel
  simp only [maxReelLength, Word.natBound] at *
  omega

/-- A number in the range of the cells fits a machine word. -/
theorem holdsInt_of_inRange {value : Int} (hv : inRange value) : Word.holdsInt value := by
  have hadd : Word.holdsInt (value + 0) := holdsInt_add hv (by omega)
  rwa [Int.add_zero] at hadd

/-- A part of a call that keeps the bounds and tells nothing beyond them. -/
abbrev Keeps {α : Type} (act : Step α) : Prop :=
  act.Tells State.Bounded Notice.Fits

/-- To read the current cell keeps the bounds. -/
theorem keeps_cell : Keeps cell := by
  intro s hs
  unfold cell
  split
  · exact Turn.tells_quietly hs rfl
  · exact Turn.tells_quietly hs rfl

/-- To store a value keeps the bounds, and tells of a number that a cell holds. -/
theorem keeps_store (value : Int) : Keeps (store value) := by
  intro s hs
  have hgood : (store value s).state.Good := (steady_store value s.waiting s ⟨hs.good, rfl⟩).1.1
  unfold store at hgood ⊢
  dsimp only at hgood ⊢
  split
  · rename_i hlt
    rw [dif_pos hlt] at hgood
    refine ⟨⟨hgood, hs.reel, hs.code, hs.length⟩, fun notice hn => ?_⟩
    cases List.mem_singleton.mp hn
    exact ⟨hs.lt hs.good.pointer_lt, holdsInt_of_inRange (s.cellType.inRange_wrap value)⟩
  · exact Turn.tells_quietly hs rfl

/-- To raise or lower the current cell keeps the bounds. -/
theorem keeps_add (difference : Int) : Keeps (add difference) := by
  refine .bind keeps_cell fun value => ?_
  split
  · exact keeps_store _
  · exact tells_fail _

/-- To go on behind an instruction keeps the bounds. -/
theorem keeps_goOnAfter (index : Nat) : Keeps (goOnAfter index) := by
  intro s hs
  have hbounded : ({ s with next := index + 1 } : State).Bounded :=
    ⟨{ hs.good with }, hs.reel, hs.code, hs.length⟩
  refine ⟨hbounded, fun notice hn => ?_⟩
  cases List.mem_singleton.mp hn
  exact hbounded.sourcePosition_lt

/-- To go on to the next instruction keeps the bounds. -/
theorem keeps_goOn : Keeps goOn := fun s hs => keeps_goOnAfter s.next s hs

/-- To move the pointer to a cell of the reel keeps the bounds. -/
theorem tells_moveTo {s : State} (hs : s.Bounded) {pointer : Nat} (hp : pointer < s.reelLength) :
    (moveTo pointer s).Tells State.Bounded Notice.Fits := by
  refine ⟨⟨{ hs.good with pointer_lt := hp }, hs.reel, hs.code, hs.length⟩, fun notice hn => ?_⟩
  cases List.mem_singleton.mp hn
  exact hs.lt hp

/-- To carry out an instruction keeps the bounds, whichever it is. -/
theorem keeps_execute (instruction : Instruction) : Keeps (execute instruction) := by
  refine .get_bind fun s hs => ?_
  have hpointer := hs.good.pointer_lt
  cases instruction.op with
  | right =>
    dsimp only
    split
    · exact tells_fail _ s hs
    · exact Tells.bind_at (tells_moveTo hs (by omega)) fun _ => keeps_goOn
  | left =>
    dsimp only
    split
    · exact tells_fail _ s hs
    · exact Tells.bind_at (tells_moveTo hs (by omega)) fun _ => keeps_goOn
  | increment => exact Tells.bind (keeps_add 1) (fun _ => keeps_goOn) s hs
  | decrement => exact Tells.bind (keeps_add (-1)) (fun _ => keeps_goOn) s hs
  | output =>
    exact Tells.bind keeps_cell (fun _ => .bind (tells_print _) fun _ => keeps_goOn) s hs
  | input => exact keeps_goOn s hs
  | opening close =>
    refine Tells.bind keeps_cell (fun value => ?_) s hs
    split
    · exact keeps_goOnAfter close
    · exact keeps_goOn
  | closing start =>
    refine Tells.bind keeps_cell (fun value => ?_) s hs
    split
    · exact keeps_goOn
    · exact keeps_goOnAfter start

/-- A step keeps the bounds. -/
theorem keeps_step : Keeps step := by
  intro s hs
  unfold step
  split
  · exact Turn.tells_quietly hs rfl
  · split
    · exact Turn.tells_quietly hs rfl
    · split
      · exact Turn.tells_quietly ⟨{ hs.good with }, hs.reel, hs.code, hs.length⟩ rfl
      · exact Tells.bind (keeps_execute _) (fun _ => tells_pure _) s hs

/-- The commands of a text stand in it. -/
theorem bounded_ofSource {source : String} (hsource : Text.InMemory source) {program : Program}
    (h : Program.ofSource source = .ok program) :
    (∀ instruction ∈ program.code, instruction.position < Word.natBound) ∧
      program.sourceLength < Word.natBound := by
  have hlength := hsource.length_lt
  unfold Program.ofSource at h
  dsimp only at h
  cases hread : Scan.start.read 0 source.toList with
  | error bracket =>
    rw [hread] at h
    cases h
  | ok code =>
    rw [hread] at h
    cases h
    have hstart : Scan.start.Before 0 := ⟨by simp [Scan.start], by simp [Scan.start]⟩
    refine ⟨fun instruction hi => ?_, by dsimp only; omega⟩
    have hlt := Scan.position_lt_of_read hstart hread instruction hi
    omega

/-- A load of a text in memory keeps the bounds. -/
theorem keeps_load {source : String} (hsource : Text.InMemory source) : Keeps (load source) := by
  intro s hs
  unfold load
  split
  · rename_i program hprogram
    obtain ⟨hcode, hlength⟩ := bounded_ofSource hsource hprogram
    exact Turn.tells_quietly ⟨{ hs.good with }, hs.reel, hcode, hlength⟩ rfl
  · exact Turn.tells_quietly hs rfl

/-- A reset keeps the bounds: it clears the reel and goes to the first instruction. -/
theorem keeps_reset : Keeps reset := by
  intro s hs
  have hbounded : (reset s).state.Bounded :=
    ⟨(reset_ready hs.good).2.1, hs.reel, hs.code, hs.length⟩
  refine ⟨hbounded, fun notice hn => ?_⟩
  rcases List.mem_cons.mp hn with hn | hn
  · cases hn
    intro value hv
    rw [Array.toList_replicate, List.mem_replicate] at hv
    rw [hv.2]
    rfl
  rcases List.mem_cons.mp hn with hn | hn
  · cases hn
    exact hs.lt (Nat.zero_lt_of_lt hs.good.pointer_lt)
  · cases List.mem_singleton.mp hn
    exact hbounded.sourcePosition_lt

/-- An input keeps the bounds. -/
theorem keeps_resume (input : Input) : Keeps (resume input) := by
  intro s hs
  unfold resume
  split
  · exact Tells.bind (keeps_store _) (fun _ => keeps_goOn) _
      ⟨{ hs.good with }, hs.reel, hs.code, hs.length⟩
  · exact tells_fail _ s hs

/-- The tape machine keeps its bounds and tells nothing that does not fit, call by call. -/
theorem tells : machine.Tells Text.InMemory State.Bounded Notice.Fits where
  load _ hsource := (keeps_load hsource).asCall _
  reset := keeps_reset.asCall _
  step := keeps_step.asCall _
  resume input := (keeps_resume input).asCall _

/-- No option asks for a longer reel than the longest. -/
theorem reelLengthOf_le {options : Options} {n : Nat} (hn : reelLengthOf options = .ok n) :
    n ≤ maxReelLength := by
  unfold reelLengthOf at hn
  split at hn
  · cases hn
    decide
  · split at hn
    · cases hn
      omega
    · cases hn

/-- A machine that has been built is within its bounds. -/
theorem build_bounded {options : Options} {s : State} (hb : build options = .ok s) :
    s.Bounded := by
  have hgood := (build_good hb).1
  obtain ⟨cellType, reelLength, -, hr, rfl⟩ := build_eq_ok hb
  exact ⟨hgood, reelLengthOf_le hr, by simp [State.new], (by decide : 0 < Word.natBound)⟩

end EsotericHost.Brainfuck
