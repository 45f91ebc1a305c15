import EsotericHost.Length.Machine
import EsotericHost.Proofs.Machine.Truncation
import EsotericHost.Proofs.Text.Lines

/-!
# Generated line programs

The program that the line machine writes for a text has three lines for each character: one that
pushes the length of the next, one as long as the code point, and one that prints. The machine reads
these lengths back from the program, whether it heeds comments or not (`lengths_ofText`), and so
prints the text (`performs_ofText`).
-/

namespace EsotericHost.Length

/-! ## The lines -/

/-- The lengths of the three lines of a character. -/
def lengthsOf (c : Char) : List Nat := [25, c.toNat, 16]

/-- A line of one letter repeated holds no carriage return and no comment. -/
theorem measure_filler (comments : Bool) (n : Nat) : measure comments (filler n).toList = n := by
  rw [filler, String.toList_ofList]
  have hreturn : Text.dropReturn '\r' (List.replicate n 'x') = List.replicate n 'x' := by
    unfold Text.dropReturn
    rw [List.getLast?_replicate]
    split <;> simp
  unfold measure
  dsimp only
  have hcomment : (List.replicate n 'x').takeWhile (· ≠ '#') = List.replicate n 'x' := by
    rw [List.takeWhile_replicate]
    rfl
  rw [hreturn, hcomment, ite_self, List.length_replicate]

/-- The lines of a generated program have the lengths that were asked for. -/
theorem lengths_ofText (comments : Bool) (text : String) :
    lengths comments (ofText text).toList = text.toList.flatMap lengthsOf := by
  have hlines : (text.toList.flatMap fun c => [filler 25, filler c.toNat, filler 16]) =
      (text.toList.flatMap lengthsOf).map filler := by
    rw [List.map_flatMap]
    rfl
  have hsource : (ofText text).toList =
      ['\n'].intercalate ((text.toList.flatMap lengthsOf).map (String.toList ∘ filler)) := by
    rw [ofText, hlines, String.toList_intercalate, List.map_map]
    rfl
  rw [hsource]
  cases htext : text.toList with
  | nil => rfl
  | cons c cs =>
    -- The first line is not empty, so the source is not either.
    have hne : (['\n'].intercalate (((c :: cs).flatMap lengthsOf).map
        (String.toList ∘ filler))).isEmpty = false := rfl
    have hpieces : ∀ line ∈ ((c :: cs).flatMap lengthsOf).map (String.toList ∘ filler),
        '\n' ∉ line := by
      intro line hline hmem
      obtain ⟨n, -, rfl⟩ := List.mem_map.mp hline
      rw [Function.comp_apply, filler, String.toList_ofList] at hmem
      exact absurd (List.eq_of_mem_replicate hmem) (by decide)
    unfold lengths
    rw [hne, if_neg Bool.false_ne_true, Text.pieces_intercalate ?_ hpieces, List.map_map]
    · refine (List.map_congr_left fun n _ => ?_).trans (List.map_id _)
      exact measure_filler comments n
    · exact List.cons_ne_nil _ _

/-! ## The machine -/

/-- The machine at a line, with a stack. -/
def State.at (s : State) (line : Nat) (stack : List Int64) : State :=
  { s with line, stack, waiting := false }

variable {s : State} {line : Nat} {stack : List Int64}

/-- The step of a machine at a line that makes it neither wait nor echo. -/
theorem step_at (hdebug : s.debug = false) {length : Nat} (hline : s.lines[line]? = some length)
    (hinput : Instruction.ofLength length ≠ .input) :
    step (s.at line stack) =
      (do execute (.ofLength length); return Outcome.progressed) (s.at line stack) := by
  have hlookup : (s.at line stack).lines[(s.at line stack).line]? = some length := hline
  have hquiet : (s.at line stack).debug = false := hdebug
  unfold step
  rw [Act.get_bind_apply]
  simp only [hlookup, hquiet, if_neg hinput]
  rfl

/-- A push line puts the length of the next line on the stack and passes over it. -/
theorem step_push (hdebug : s.debug = false) {n : Nat} (hpush : s.lines[line]? = some 25)
    (hvalue : s.lines[line + 1]? = some n) :
    machine.step (s.at line stack) =
      ⟨.ok .progressed, s.at (line + 2) (.ofNat n :: stack),
        [.notify (.pushed none (shown (.ofNat n))), .notify (.line (line + 2))]⟩ := by
  have hlookup : (s.at line stack).lines[(s.at line stack).line + 1]? = some n := hvalue
  change (step (s.at line stack)).mapError _ = _
  rw [step_at hdebug hpush (by decide)]
  have hexecute : execute (.ofLength 25) (s.at line stack) =
      ⟨.ok (), s.at (line + 2) (.ofNat n :: stack),
        [.notify (.pushed none (shown (.ofNat n))), .notify (.line (line + 2))]⟩ := by
    unfold execute
    rw [Act.get_bind_apply]
    dsimp only [Instruction.ofLength]
    rw [hlookup]
    rfl
  rw [Act.bind_of_ok hexecute]
  rfl

/-- A print line takes the top off the stack and prints it as a character. -/
theorem step_print (hdebug : s.debug = false) {n : Int64} (hprint : s.lines[line]? = some 16) :
    machine.step (s.at line (n :: stack)) =
      ⟨.ok .progressed, s.at (line + 1) stack,
        [.notify (.popped none (shown n)), .print (Text.single (Text.charOfCode n.toInt)),
          .notify (.line (line + 1))]⟩ := by
  change (step (s.at line (n :: stack))).mapError _ = _
  rw [step_at hdebug hprint (by decide)]
  rfl

/-- Behind the last line the machine halts. -/
theorem step_end (hend : s.lines[line]? = none) :
    machine.step (s.at line stack) = ⟨.ok .halted, s.at line stack, []⟩ := by
  have hlookup : (s.at line stack).lines[(s.at line stack).line]? = none := hend
  change (step (s.at line stack)).mapError _ = _
  unfold step
  rw [Act.get_bind_apply]
  simp only [hlookup]
  rfl

/-- A code point that a line has pushed stands for its character. -/
theorem charOfCode_ofNat (c : Char) : Text.charOfCode (Int64.ofNat c.toNat).toInt = c := by
  have hrange := Text.toNat_lt_size c
  rw [Int64.toInt_ofNat_of_lt (by omega)]
  exact Text.charOfCode_toNat c

/-- The session whose machine is at a line, with a stack. -/
def atLine (base : Session State) (line : Nat) (stack : List Int64) : Session State :=
  { base with state := base.state.at line stack }

/-- The three lines of a character take two steps, of which the second one prints it. -/
theorem goes_character {base : Session State} (hdebug : base.state.debug = false) {start n : Nat}
    {c : Char} {texts : List String} {x : Session State} (hstart : start % 3 = 0)
    (hlines : ∀ k < 3, base.state.lines[start + k]? = (lengthsOf c)[k]?)
    (rest : (atLine base (start + 3) []).Goes machine (fun s => s.line % 3 ≠ 1) n texts x) :
    (atLine base start []).Goes machine (fun s => s.line % 3 ≠ 1) (n + 2)
      (Text.single c :: texts) x := by
  have hpush : base.state.lines[start]? = some 25 := hlines 0 (by omega)
  have hvalue : base.state.lines[start + 1]? = some c.toNat := hlines 1 (by omega)
  have hprint : base.state.lines[start + 2]? = some 16 := hlines 2 (by omega)
  have hpushes : machine.step (atLine base start []).state = _ := step_push hdebug hpush hvalue
  have hprints : machine.step (atLine base (start + 2) [.ofNat c.toNat]).state = _ :=
    step_print hdebug hprint
  have hpushed : (atLine base start []).left machine.step =
      atLine base (start + 2) [.ofNat c.toNat] := by
    rw [Session.left, hpushes]
    rfl
  have hprinted : (atLine base (start + 2) [.ofNat c.toNat]).left machine.step =
      atLine base (start + 3) [] := by
    rw [Session.left, hprints]
    rfl
  have hsilent : Effect.prints (machine.step (atLine base start []).state).effects = [] := by
    rw [hpushes]
    rfl
  have hspoken :
      Effect.prints (machine.step (atLine base (start + 2) [.ofNat c.toNat]).state).effects =
        [Text.single c] := by
    rw [hprints, charOfCode_ofNat]
    rfl
  -- The second step comes before the rest, and the first one before both.
  rw [← hprinted] at rest
  have hsecond := rest.step (show (start + 2) % 3 ≠ 1 by omega) (congrArg Turn.result hprints)
  rw [hspoken, ← hpushed] at hsecond
  have hfirst := hsecond.step (show start % 3 ≠ 1 by omega) (congrArg Turn.result hpushes)
  rw [hsilent] at hfirst
  exact hfirst

/-- From a line on at which the lines of some characters begin, the machine takes two steps for each
character, prints it and comes to stand behind its lines, with an empty stack. It passes over the
lines that are values, which are the second ones of three. -/
theorem goes_lengths {base : Session State} (hdebug : base.state.debug = false) {start : Nat}
    (hstart : start % 3 = 0) {cs : List Char}
    (hlines : ∀ k, base.state.lines[start + k]? = (cs.flatMap lengthsOf)[k]?) :
    (atLine base start []).Goes machine (fun s => s.line % 3 ≠ 1) (2 * cs.length)
      (cs.map Text.single) (atLine base (start + 3 * cs.length) []) := by
  induction cs generalizing start with
  | nil => exact .here
  | cons c cs ih =>
    have hfirst : ∀ k < 3, base.state.lines[start + k]? = (lengthsOf c)[k]? := by
      intro k hk
      rw [hlines, List.flatMap_cons, List.getElem?_append_left hk]
    have hrest : ∀ k, base.state.lines[start + 3 + k]? = (cs.flatMap lengthsOf)[k]? := by
      intro k
      have hpast : (lengthsOf c).length ≤ 3 + k := Nat.le_add_right 3 k
      rw [Nat.add_assoc, hlines, List.flatMap_cons, List.getElem?_append_right hpast]
      congr 1
      exact Nat.add_sub_cancel_left 3 k
    have hbehind : start + 3 * (cs.length + 1) = start + 3 + 3 * cs.length := by omega
    rw [List.length_cons, hbehind]
    exact goes_character hdebug hstart hfirst (ih (by omega) hrest)

/-- The session that a generated program is loaded into. -/
theorem left_ofText (s : Session State) (text : String) :
    s.left (Session.load machine (ofText text)) =
      let lines := (text.toList.flatMap lengthsOf).toArray
      atLine { s with state := { s.state with lines } } 0 [] := by
  rw [← lengths_ofText s.state.comments]
  rfl

/-- A machine that has loaded a generated program takes two steps for each character and then finds
the end, with an empty stack. -/
theorem goes_ofText (s : Session State) (hdebug : s.state.debug = false) (text : String) :
    ∃ x', (s.left (Session.load machine (ofText text))).Goes machine (fun s => s.line % 3 ≠ 1)
        (2 * text.length) (text.toList.map Text.single) x' ∧
      x'.state.line % 3 ≠ 1 ∧ x'.state.stack = [] ∧
      machine.step x'.state = ⟨.ok .halted, x'.state, []⟩ := by
  obtain ⟨base, hbase⟩ : ∃ base : Session State, base =
      { s with state := { s.state with lines := (text.toList.flatMap lengthsOf).toArray } } :=
    ⟨_, rfl⟩
  have hquiet : base.state.debug = false := by
    rw [hbase]
    exact hdebug
  have hlines : ∀ k, base.state.lines[0 + k]? = (text.toList.flatMap lengthsOf)[k]? := by
    intro k
    rw [Nat.zero_add, hbase, List.getElem?_toArray]
  have hlength : (text.toList.flatMap lengthsOf).length = 3 * text.toList.length := by
    rw [List.length_flatMap]
    simp [lengthsOf, Nat.mul_comm]
  have hend : base.state.lines[0 + 3 * text.toList.length]? = none := by
    rw [hlines, List.getElem?_eq_none_iff]
    exact Nat.le_of_eq hlength
  have hgoes := goes_lengths hquiet (Nat.zero_mod 3) hlines
  have hleft : s.left (Session.load machine (ofText text)) = atLine base 0 [] := by
    rw [left_ofText, hbase]
  rw [hleft, ← String.length_toList]
  refine ⟨_, hgoes, ?_, rfl, step_end hend⟩
  show (0 + 3 * text.toList.length) % 3 ≠ 1
  omega

/-- The machine performs the program that it generates for a text, unless it is in debug mode. -/
theorem performs_ofText (s : Session State) (hdebug : s.state.debug = false) (text : String) :
    s.Performs machine (ofText text) text := by
  have htexts : String.join (text.toList.map Text.single) = text := by
    rw [join_single, String.ofList_toList]
  obtain ⟨x', hgoes, hline, -, hend⟩ := goes_ofText s hdebug text
  have hprints := hgoes.prints hline hend
  rw [htexts] at hprints
  exact ⟨rfl, rfl, hprints⟩

end EsotericHost.Length
