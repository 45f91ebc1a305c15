import EsotericHost.Proofs.Generated.Tape

/-!
# The course of a generated tape program

The machine takes one step for each command of a generated program, on the first cell alone, and
halts behind the last one. Each character of the text is printed as far as a cell can hold its code
point (`generated_course`).
-/

namespace EsotericHost.Brainfuck

variable {t : CellType}

/-- If a cell can hold the code points of a text, its characters come through the cell unchanged. -/
theorem map_single_of_fits {text : String} (hfits : ∀ c ∈ text.toList, t.Holds c.toNat) :
    text.toList.map (fun c => Text.single (Text.charOfCode (t.wrap c.toNat))) =
      text.toList.map Text.single := by
  refine List.map_congr_left fun c hc => ?_
  rw [(hfits c hc).wrap_eq, Text.charOfCode_toNat]

/-- **What a generated program does.** The program that the machine generates for a text is loaded
without printing anything. Run from there it makes progress with every step until it halts, its
pointer stays on the first cell and the other cells stay zero, and it prints one character after the
other, each by way of the cell. A run without a limit comes to this end, with every bound that is
large enough. If the cell can hold the code points of the text, what is printed is the text. -/
theorem generated_course (s : Session State) (hreel : 1 ≤ s.state.reelLength) (text : String) :
    ∃ code, machine.fromText s.state text = .ok (some code) ∧
      (Session.load machine code s.state).result = .ok () ∧
      Event.prints (s.told machine (Session.load machine code)) = [] ∧
      ∃ x n, x = s.left (Session.load machine code) ∧ x.RestsAfter machine n ∧
        x.answerAt machine n = .ok .halted ∧
        (∀ k ≤ n + 1, OnFirstCell s.state.reelLength (x.ahead machine k).state) ∧
        Event.prints (x.tale machine (n + 1)) =
          text.toList.map (fun c => Text.single (Text.charOfCode (s.state.cellType.wrap c.toNat))) ∧
        (∀ bound used out, n < bound → x.run machine bound ⟨none, used⟩ out =
          some (.ok .halted, ⟨none, used + n⟩, x.ahead machine (n + 1),
            out ++ x.tale machine (n + 1))) ∧
        ((∀ c ∈ text.toList, s.state.cellType.Holds c.toNat) →
          Event.texts (x.tale machine (n + 1)) = text) := by
  have hload := load_withCode (reads_ofText text) s
  obtain ⟨x', hgoes, hcell, hend⟩ := goes_ofText s hreel text
  obtain ⟨hrests, hanswer, hprints, hstates⟩ := hgoes.halts hcell hend
  refine ⟨ofText text, rfl, by rw [hload]; rfl, ?_, _, _, rfl, hrests, hanswer, hstates, hprints,
    fun bound used out hbound => ?_, fun hfits => ?_⟩
  · rw [Session.told, Session.prints_events, hload]
    rfl
  · have hfree (most : Nat) (h : most ∈ (none : Option Nat)) :
        used + (strokes 0 text.toList).length ≤ most := by
      cases h
    rw [Session.run_of_rests hrests hfree hbound out, hanswer]
  · rw [Event.texts_eq_join, hprints, map_single_of_fits hfits, join_single, String.ofList_toList]

/-- On a reel of one cell that holds eight bits with a sign, the program for `hi` prints `hi`. -/
theorem generated_course_hi :
    let s : Session State := ⟨name, .empty, ⟨true, true, true, true⟩, false, .new .int8 1⟩
    1 ≤ s.state.reelLength ∧ (∀ c ∈ "hi".toList, CellType.int8.Holds c.toNat) ∧
      ∃ code x n, machine.fromText s.state "hi" = .ok (some code) ∧
        x = s.left (Session.load machine code) ∧ x.answerAt machine n = .ok .halted ∧
        Event.texts (x.tale machine (n + 1)) = "hi" := by
  intro s
  have hreel : 1 ≤ s.state.reelLength := Nat.le_refl 1
  have hall : "hi".toList.all (fun c => decide (CellType.int8.Holds c.toNat)) = true := by decide
  have hfits : ∀ c ∈ "hi".toList, CellType.int8.Holds c.toNat := fun c hc =>
    of_decide_eq_true (List.all_eq_true.mp hall c hc)
  obtain ⟨code, hcode, -, -, x, n, hx, -, hanswer, -, -, -, hsame⟩ := generated_course s hreel "hi"
  exact ⟨hreel, hfits, code, x, n, hcode, hx, hanswer, hsame hfits⟩

end EsotericHost.Brainfuck
