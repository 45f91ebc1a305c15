import EsotericHost.Proofs.Brainfuck.Cells
import EsotericHost.Proofs.Brainfuck.Driving
import EsotericHost.Proofs.Machine.Truncation

/-!
# Generated tape programs

The program that the tape machine writes for a text has no loop: each of its commands counts the
first cell up or down or prints it (`Stroke`). So the machine takes one step for each command, on
the first cell alone, and halts behind the last one (`goes_ofText`). The generator counts in exact
numbers and the machine in a cell, which holds the residue of the generator's number at every step.
What is printed is the text by way of a cell (`throughCell`); it is the text itself if the code
points fit (`throughCell_of_fits`).
-/

namespace EsotericHost.Brainfuck

/-- A text of which each character is stored in a cell and printed from there. -/
def throughCell (t : CellType) (text : String) : String :=
  String.ofList (text.toList.map fun c => Text.charOfCode (t.wrap c.toNat))

variable {t : CellType} {w : World}

namespace World

/-- What is stored in the current cell is read from it, wrapped. -/
theorem cell_store (hw : w.pointer < w.tape.size) (value : Int) :
    (w.store t value).cell = t.wrap value := by
  unfold cell store
  dsimp only
  rw [Array.getElem?_setIfInBounds_self_of_lt hw]
  rfl

/-- Only the last of two numbers that are stored is kept. -/
theorem store_store (value value' : Int) : (w.store t value).store t value' = w.store t value' := by
  unfold store
  dsimp only
  rw [Array.setIfInBounds_setIfInBounds]

/-- A count of a cell counts what was stored in it, even if it could not hold that. -/
theorem store_cell_add (hw : w.pointer < w.tape.size) (value difference : Int) :
    (w.store t value).store t ((w.store t value).cell + difference) =
      w.store t (value + difference) := by
  rw [cell_store hw, store_store]
  unfold store
  rw [CellType.wrap_wrap_add]

/-- The pointer begins on the reel. -/
theorem start_pointer_lt {reelLength : Nat} (hreel : 1 ≤ reelLength) (inputs : List Input) :
    (start reelLength inputs).pointer < (start reelLength inputs).tape.size := by
  change 0 < (Array.replicate reelLength (0 : Int)).size
  rw [Array.size_replicate]
  exact hreel

/-- The first cell of a new reel holds zero already. -/
theorem start_store_zero (t : CellType) (reelLength : Nat) (inputs : List Input) :
    (start reelLength inputs).store t 0 = start reelLength inputs := by
  unfold store start
  dsimp only
  rw [CellType.wrap_zero, Array.setIfInBounds_replicate_self]

end World

/-! ## Strokes -/

/-- A command of a generated program. -/
inductive Stroke where
  | up
  | down
  | put
  deriving Repr, DecidableEq

namespace Stroke

/-- The command as any program has it. -/
def basic : Stroke → Basic
  | up => .increment
  | down => .decrement
  | put => .output

/-- The number that is counted, after the command. -/
def after (number : Int) : Stroke → Int
  | up => number + 1
  | down => number - 1
  | put => number

/-- What the command prints. -/
def texts (t : CellType) (number : Int) : Stroke → List String
  | put => [Text.single (Text.charOfCode (t.wrap number))]
  | _ => []

end Stroke

/-- The commands that print each character in turn when the cell holds the code point of the one
before. -/
def strokes (current : Nat) : List Char → List Stroke
  | [] => []
  | c :: rest =>
    List.replicate (c.toNat - current) .up ++
      (List.replicate (current - c.toNat) .down ++ .put :: strokes c.toNat rest)

/-- The tree of some commands, which begin at a place in the source. -/
def row (n : Nat) : List Stroke → Tree
  | [] => .done
  | k :: ks => .command n k.basic (row (n + 1) ks)

/-- What some commands print, when the number that is counted is given. -/
def spoken (t : CellType) (number : Int) : List Stroke → List String
  | [] => []
  | k :: ks => k.texts t number ++ spoken t (k.after number) ks

variable {s : State} {number : Int} {ks : List Stroke} {i n : Nat}

/-- The program for some characters is spelled by their strokes. -/
theorem printing_eq_strokes (current : Nat) (cs : List Char) :
    printing current cs = (strokes current cs).map (·.basic.character) := by
  induction cs generalizing current with
  | nil => rfl
  | cons c cs ih =>
    rw [printing, strokes, ih, List.map_append, List.map_append, List.map_replicate,
      List.map_replicate, List.append_assoc]
    rfl

/-- The characters of some strokes spell their row. -/
theorem reads_row (n : Nat) (ks : List Stroke) :
    Reads n (ks.map (·.basic.character)) (row n ks) := by
  induction ks generalizing n with
  | nil => exact .done
  | cons k ks ih => exact .command k.basic (ih (n + 1))

/-- A row has one instruction for each stroke. -/
theorem size_row (n : Nat) (ks : List Stroke) : (row n ks).size = ks.length := by
  induction ks generalizing n with
  | nil => rfl
  | cons k ks ih => rw [row, Tree.size, ih, List.length_cons]

/-- Counting prints nothing: the commands behind it print as from the number that is reached. -/
theorem spoken_counting {k : Stroke} {difference : Int}
    (hafter : ∀ number, k.after number = number + difference)
    (htexts : ∀ number, k.texts t number = []) (number : Int) (times : Nat) (ks : List Stroke) :
    spoken t number (List.replicate times k ++ ks) = spoken t (number + times * difference) ks := by
  induction times generalizing number with
  | zero => simp
  | succ times ih =>
    have hsum : number + difference + times * difference =
        number + (times + 1 : Nat) * difference := by
      rw [Nat.cast_succ, Int.add_mul, Int.one_mul, Int.add_assoc, Int.add_comm difference]
    rw [List.replicate_succ, List.cons_append, spoken, hafter, htexts, ih, hsum, List.nil_append]

/-- The commands for a text print its characters, as far as the cell holds their code points. -/
theorem spoken_strokes (t : CellType) (current : Nat) (cs : List Char) :
    spoken t current (strokes current cs) =
      cs.map fun c => Text.single (Text.charOfCode (t.wrap c.toNat)) := by
  induction cs generalizing current with
  | nil => rfl
  | cons c cs ih =>
    -- One of the two counts is empty.
    have hcode : (current : Int) + (c.toNat - current : Nat) * 1 +
        (current - c.toNat : Nat) * (-1) = c.toNat := by
      omega
    have hup := @spoken_counting t .up 1 (fun _ => rfl) fun _ => rfl
    have hdown := @spoken_counting t .down (-1) (fun _ => rfl) fun _ => rfl
    rw [strokes, hup, hdown, hcode, spoken, Stroke.after, ih]
    rfl

/-! ## The machine -/

/-- A reel of zeros whose first cell holds the residue of a number. -/
def World.counted (s : State) (number : Int) : World :=
  (World.start s.reelLength []).store s.cellType number

/-- The pointer is on the first cell of a reel, and all other cells are zero. -/
structure OnFirstCell (reelLength : Nat) (s : State) : Prop where
  pointer_eq : s.pointer = 0
  size_eq : s.tape.size = reelLength
  others : ∀ index, 0 < index → index < reelLength → s.tape[index]? = some 0

/-- The reel stays as long as it was. -/
@[simp] theorem World.size_counted (s : State) (number : Int) :
    (World.counted s number).tape.size = s.reelLength := by
  change ((Array.replicate s.reelLength (0 : Int)).setIfInBounds 0 _).size = s.reelLength
  rw [Array.size_setIfInBounds, Array.size_replicate]

/-- While a generated program counts, only its first cell holds anything. -/
theorem onFirstCell_counted (s : State) (number : Int) (i : Nat) :
    OnFirstCell s.reelLength ((World.counted s number).state s i) where
  pointer_eq := rfl
  size_eq := World.size_counted s number
  others index hpos hlt := by
    change ((Array.replicate s.reelLength 0).setIfInBounds 0 _)[index]? = some 0
    rw [Array.getElem?_setIfInBounds_ne (Nat.ne_of_lt hpos), Array.getElem?_replicate, if_pos hlt]

/-- The current cell holds the residue of the number that is counted. -/
theorem cell_counted (hreel : 1 ≤ s.reelLength) (number : Int) :
    (World.counted s number).cell = s.cellType.wrap number :=
  World.cell_store (World.start_pointer_lt hreel []) number

/-- A count of the cell is a count of the number. -/
theorem counted_add (hreel : 1 ≤ s.reelLength) (number difference : Int) :
    (World.counted s number).store s.cellType ((World.counted s number).cell + difference) =
      World.counted s (number + difference) :=
  World.store_cell_add (World.start_pointer_lt hreel []) number difference

/-- A program that has counted nothing works on what it began with. -/
theorem counted_zero (s : State) : World.counted s 0 = World.start s.reelLength [] :=
  World.start_store_zero s.cellType s.reelLength []

/-- A machine that counts is in a good state. -/
theorem good_counted (hreel : 1 ≤ s.reelLength) (number : Int) (i : Nat) :
    ((World.counted s number).state s i).Good where
  size_eq := World.size_counted s number
  pointer_lt := hreel
  range value hv := by
    have hmem : value ∈ (Array.replicate s.reelLength (0 : Int)).setIfInBounds 0
      (s.cellType.wrap number) := hv
    rcases Array.mem_or_eq_of_mem_setIfInBounds hmem with hv | rfl
    · rw [(Array.mem_replicate.mp hv).2]
      exact ⟨by decide, by decide⟩
    · exact s.cellType.inRange_wrap number

/-- A command that counts by one counts the number on, and prints nothing. -/
theorem execute_counting (hreel : 1 ≤ s.reelLength) (number : Int) (i position : Nat) {op : Op}
    {difference : Int} (hdifference : difference.natAbs = 1)
    (hop : ∀ s', execute ⟨position, op⟩ s' = (do add difference; goOn) s') :
    ∃ effects, execute ⟨position, op⟩ ((World.counted s number).state s i) =
        ⟨.ok (), (World.counted s (number + difference)).state s (i + 1), effects⟩ ∧
      Effect.prints effects = [] := by
  obtain ⟨notice, hadd⟩ := add_state (good_counted hreel number i) difference (by omega)
  rw [counted_add hreel] at hadd
  exact ⟨_, (hop _).trans (Act.bind_of_ok hadd), rfl⟩

/-- A command counts the number on, or prints it, and nothing else is printed. -/
theorem execute_stroke (hreel : 1 ≤ s.reelLength) (number : Int) (i position : Nat) (k : Stroke) :
    ∃ effects, execute ⟨position, k.basic.op⟩ ((World.counted s number).state s i) =
        ⟨.ok (), (World.counted s (k.after number)).state s (i + 1), effects⟩ ∧
      Effect.prints effects = k.texts s.cellType number := by
  cases k with
  | up => exact execute_counting hreel number i position rfl fun _ => rfl
  | down => exact execute_counting hreel number i position rfl fun _ => rfl
  | put =>
    have hcell := cell_state (good_counted hreel number i)
    rw [cell_counted hreel] at hcell
    have hexecute : execute ⟨position, .output⟩ ((World.counted s number).state s i) =
        (do
          let value ← cell
          Act.print (Text.single (Text.charOfCode value))
          goOn) ((World.counted s number).state s i) := rfl
    exact ⟨_, hexecute.trans (Act.bind_of_ok hcell), rfl⟩

/-- The step at such a command makes progress. -/
theorem step_stroke (hreel : 1 ≤ s.reelLength) (number : Int) {position : Nat} {k : Stroke}
    (hcode : s.program.code.toList[i]? = some ⟨position, k.basic.op⟩) :
    ∃ effects, machine.step ((World.counted s number).state s i) =
        ⟨.ok .progressed, (World.counted s (k.after number)).state s (i + 1), effects⟩ ∧
      Effect.prints effects = k.texts s.cellType number := by
  obtain ⟨effects, hexecute, hprints⟩ := execute_stroke hreel number i position k
  have hinput : k.basic.op ≠ .input := by
    cases k <;> exact Op.noConfusion
  refine ⟨effects ++ [], ?_, ?_⟩
  · rw [step_of_instruction hcode hinput, Act.bind_of_ok hexecute]
    rfl
  · rw [List.append_nil]
    exact hprints

/-- Some commands of a program, up to its end, take the machine to the end, one step for each, and
print what they say. -/
theorem goes_row {base : Session State} (hreel : 1 ≤ base.state.reelLength)
    (hcode : base.state.program.code.toList.drop i = (row n ks).code i) (number : Int) :
    ∃ final, ((World.counted base.state number).session base i).Goes machine
      (OnFirstCell base.state.reelLength) ks.length (spoken base.state.cellType number ks)
      ((World.counted base.state final).session base (i + ks.length)) := by
  induction ks generalizing i n number with
  | nil => exact ⟨number, .here⟩
  | cons k ks ih =>
    have hsplit : base.state.program.code.toList.drop i =
        ⟨n, k.basic.op⟩ :: (row (n + 1) ks).code (i + 1) := hcode
    have hfirst : base.state.program.code.toList[i]? = some ⟨n, k.basic.op⟩ := by
      rw [← List.head?_drop, hsplit]
      rfl
    have hrest : base.state.program.code.toList.drop (i + 1) = (row (n + 1) ks).code (i + 1) := by
      rw [← List.tail_drop, hsplit]
      rfl
    obtain ⟨effects, hstep, hprints⟩ := step_stroke hreel number hfirst
    obtain ⟨final, hgoes⟩ := ih hrest (k.after number)
    have hbehind : i + (ks.length + 1) = i + 1 + ks.length := by omega
    -- The step leaves the session from which the other commands go on.
    have hleft : ((World.counted base.state number).session base i).left machine.step =
        (World.counted base.state (k.after number)).session base (i + 1) := by
      unfold Session.left World.session
      rw [hstep]
    have heffects :
        (machine.step ((World.counted base.state number).session base i).state).effects = effects :=
      congrArg Turn.effects hstep
    rw [← hleft] at hgoes
    have hall := Session.Goes.step (onFirstCell_counted base.state number i)
      (congrArg Turn.result hstep) hgoes
    rw [heffects, hprints] at hall
    refine ⟨final, ?_⟩
    rw [List.length_cons, hbehind]
    exact hall

/-- Behind its last command the machine has halted. -/
theorem step_behind {w : World} (hcode : s.program.code.toList[i]? = none) :
    machine.step (w.state s i) = ⟨.ok .halted, w.state s i, []⟩ := by
  change (step (w.state s i)).mapError Trouble.upset = _
  unfold step
  rw [if_neg (not_waiting s i w), found hcode]
  rfl

/-- The commands of a generated text. -/
theorem reads_ofText (text : String) :
    Reads 0 (ofText text).toList (row 0 (strokes 0 text.toList)) := by
  rw [ofText, String.toList_ofList, printing_eq_strokes]
  exact reads_row 0 _

/-- A machine that has loaded a generated program takes a step for each command, on the first cell,
prints the characters and then finds the end. -/
theorem goes_ofText (s : Session State) (hreel : 1 ≤ s.state.reelLength) (text : String) :
    ∃ x', (s.left (Session.load machine (ofText text))).Goes machine
        (OnFirstCell s.state.reelLength) (strokes 0 text.toList).length
        (text.toList.map fun c => Text.single (Text.charOfCode (s.state.cellType.wrap c.toNat)))
        x' ∧
      OnFirstCell s.state.reelLength x'.state ∧
      machine.step x'.state = ⟨.ok .halted, x'.state, []⟩ := by
  have hreads := reads_ofText text
  have hspoken := spoken_strokes s.state.cellType 0 text.toList
  generalize strokes 0 text.toList = ks at *
  obtain ⟨base, hbase⟩ : ∃ base, base = withCode s (row 0 ks) (ofText text) := ⟨_, rfl⟩
  have hreelLength : base.state.reelLength = s.state.reelLength := by
    rw [hbase]
    rfl
  have hcellType : base.state.cellType = s.state.cellType := by
    rw [hbase]
    rfl
  have hcode : base.state.program.code.toList = (row 0 ks).code 0 := by
    rw [hbase]
    rfl
  -- A reel of zeros counts nothing yet.
  have hleft : s.left (Session.load machine (ofText text)) =
      (World.counted base.state 0).session base 0 := by
    rw [left_load hreads s [], counted_zero, hbase]
    rfl
  rw [← hreelLength] at hreel ⊢
  have hall : base.state.program.code.toList.drop 0 = (row 0 ks).code 0 := hcode
  obtain ⟨final, hgoes⟩ := goes_row hreel hall 0
  have hend : base.state.program.code.toList[0 + ks.length]? = none := by
    rw [hcode, List.getElem?_eq_none_iff, Tree.length_code, size_row]
    omega
  rw [hleft, ← hspoken, ← hcellType]
  exact ⟨_, hgoes, onFirstCell_counted base.state final _, step_behind hend⟩

/-- The machine performs the program that it generates for a text, which comes out by way of its
cell. -/
theorem performs_ofText (s : Session State) (hreel : 1 ≤ s.state.reelLength) (text : String) :
    s.Performs machine (ofText text) (throughCell s.state.cellType text) := by
  have htexts : String.join (text.toList.map fun c =>
      Text.single (Text.charOfCode (s.state.cellType.wrap c.toNat))) =
      throughCell s.state.cellType text := by
    rw [throughCell, ← join_single, List.map_map]
    rfl
  have hload := load_withCode (reads_ofText text) s
  obtain ⟨x', hgoes, hcell, hend⟩ := goes_ofText s hreel text
  have hprints := hgoes.prints hcell hend
  rw [htexts] at hprints
  exact ⟨by rw [hload]; rfl, by rw [hload]; rfl, hprints⟩

/-- A text whose code points a cell can hold comes through it unchanged. -/
theorem throughCell_of_fits {text : String}
    (hfits : ∀ c ∈ text.toList, t.wrap c.toNat = c.toNat) : throughCell t text = text := by
  have hsame : text.toList.map (fun c => Text.charOfCode (t.wrap c.toNat)) = text.toList := by
    refine (List.map_congr_left fun c hc => ?_).trans (List.map_id _)
    rw [hfits c hc, Text.charOfCode_toNat]
    rfl
  rw [throughCell, hsame, String.ofList_toList]

end EsotericHost.Brainfuck
