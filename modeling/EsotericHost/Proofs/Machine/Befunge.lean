import EsotericHost.Proofs.Machine.Instructions

/-!
# The playfield machine is lawful

A playfield has as many characters as its columns and rows give places (`Field.Whole`), and its
count of filled places is right after every change of one of them (`Field.recount_set`). The pointer
stays on the field, on which it moves as on a torus (`Direction.move_ok`). So no place is looked up
in vain, no remainder by zero is taken, and the count never falls below zero.

A machine without a program has no field; there is nothing filled on it, so it halts at once.
-/

namespace EsotericHost.Befunge

/-! ## Fields -/

namespace Field

/-- A field with one character for each of its places. -/
def Whole (f : Field) : Prop := f.cells.size = f.width * f.height

/-- The places that are not spaces, counted. -/
theorem filled_eq_countP (f : Field) : f.filled = f.cells.countP (· ≠ ' ') := by
  have hcount (cs : List Char) (n : Nat) :
      cs.foldl (fun n c => if c = ' ' then n else n + 1) n = n + cs.countP (· ≠ ' ') := by
    induction cs generalizing n with
    | nil => rfl
    | cons c cs ih =>
      rw [List.foldl_cons, ih, List.countP_cons]
      by_cases hc : c = ' '
      · simp [hc]
      · simp [hc]
        omega
  unfold filled
  rw [← Array.foldl_toList, hcount, Nat.zero_add, Array.countP_toList]

/-- A place on a whole field has a character. -/
theorem Whole.cell?_isSome {f : Field} (hf : f.Whole) {x y : Nat} (hx : x < f.width)
    (hy : y < f.height) : ∃ c, f.cell? x y = some c := by
  have hlt : y * f.width + x < f.cells.size := by
    rw [hf]
    calc y * f.width + x < y * f.width + f.width := by omega
      _ = (y + 1) * f.width := by rw [Nat.succ_mul]
      _ ≤ f.height * f.width := Nat.mul_le_mul_right _ hy
      _ = f.width * f.height := Nat.mul_comm _ _
  refine ⟨f.cells[y * f.width + x], ?_⟩
  unfold cell?
  rw [if_pos ⟨Int.natCast_nonneg x, by omega, Int.natCast_nonneg y, by omega⟩, Int.toNat_natCast,
    Int.toNat_natCast, Array.getElem?_eq_getElem hlt]

/-- A field with a character replaced is as whole as before. -/
theorem Whole.set {f : Field} (hf : f.Whole) (x y : Int) (c : Char) : (f.set x y c).Whole :=
  (Array.size_setIfInBounds).trans hf

/-- The recounting after a character has been replaced does not fail, and is right. -/
theorem recount_set {f : Field} {x y : Int} {old : Char} (hc : f.cell? x y = some old)
    (new : Char) : recount f.filled old new = .ok (f.set x y new).filled := by
  unfold cell? at hc
  split at hc
  · obtain ⟨hlt, hold⟩ := Array.getElem?_eq_some_iff.mp hc
    have hset : (f.set x y new).filled = (f.cells.set (y.toNat * f.width + x.toNat) new).countP
        (· ≠ ' ') := by
      rw [filled_eq_countP]
      unfold Field.set
      rw [Array.setIfInBounds_def, dif_pos hlt]
    -- Replacing one character takes the old one off the count and adds the new one.
    rw [hset, Array.countP_set, hold, ← filled_eq_countP]
    unfold recount
    -- A place that is filled is counted, so that the count does not fall below zero.
    have hpos : old ≠ ' ' → 0 < f.filled := by
      intro ho
      rw [filled_eq_countP, Array.countP_pos_iff]
      exact ⟨old, hold ▸ Array.getElem_mem hlt, by simpa using ho⟩
    by_cases ho : old = ' ' <;> by_cases hn : new = ' '
    · simp [ho, hn]
    · simp [ho, hn]
    · have := hpos ho
      simp [ho, hn]
      omega
    · have := hpos ho
      simp [ho, hn]
      omega
  · cases hc

/-- A maximum over a list is one of its numbers at least. -/
theorem le_foldl_max (rows : List (List Char)) (n : Nat) :
    n ≤ rows.foldl (fun n row => max n row.length) n ∧
      ∀ row ∈ rows, row.length ≤ rows.foldl (fun n row => max n row.length) n := by
  induction rows generalizing n with
  | nil => exact ⟨Nat.le_refl n, fun row hr => nomatch hr⟩
  | cons first rest ih =>
    obtain ⟨hn, hrest⟩ := ih (max n first.length)
    rw [List.foldl_cons]
    refine ⟨by omega, fun row hr => ?_⟩
    rcases List.mem_cons.mp hr with rfl | hr
    · omega
    · exact hrest row hr

/-- Rows that are filled up to one width have as many characters as the rectangle. -/
theorem length_flatMap_full {rows : List (List Char)} {width : Nat}
    (hw : ∀ row ∈ rows, row.length ≤ width) :
    (rows.flatMap fun row => row ++ List.replicate (width - row.length) ' ').length =
      rows.length * width := by
  induction rows with
  | nil => simp
  | cons row rest ih =>
    have hrow := hw row List.mem_cons_self
    rw [List.flatMap_cons, List.length_append, List.length_append, List.length_replicate,
      ih fun row hr => hw row (List.mem_cons_of_mem _ hr), List.length_cons, Nat.succ_mul]
    omega

/-- The field on which a source stands is whole and has a place. -/
theorem ofSource_whole (source : List Char) :
    (ofSource source).Whole ∧ 0 < (ofSource source).width ∧ 0 < (ofSource source).height := by
  unfold ofSource Whole
  generalize (Text.lines '\n' source).map Text.dropReturns = rows
  dsimp only
  refine ⟨?_, by omega, by omega⟩
  cases rows with
  | nil => simp
  | cons row rest =>
    have hle := (le_foldl_max (row :: rest) 0).2
    rw [if_neg (by simp), List.size_toArray, length_flatMap_full fun r hr => by
      have := hle r hr
      omega, List.length_cons, Nat.mul_comm]
    congr 1

end Field

/-! ## The pointer -/

/-- The pointer moves from a place on the field to a place on the field. -/
theorem Direction.move_ok (d : Direction) {width height x y : Nat} (hx : x < width)
    (hy : y < height) :
    ∃ x' y' crossed,
      d.move width height x y = .ok (x', y', crossed) ∧ x' < width ∧ y' < height := by
  unfold move
  cases d with
  | right =>
    exact ⟨(x + 1) % width, y, (x + 1) % width = 0, if_neg (by omega), Nat.mod_lt _ (by omega), hy⟩
  | left =>
    dsimp only
    -- Off the left edge the pointer comes to the last column, and there is one.
    by_cases h0 : 0 < x
    · exact ⟨x - 1, y, false, if_pos h0, by omega, hy⟩
    · refine ⟨width - 1, y, true, ?_, by omega, hy⟩
      rw [if_neg h0, if_neg (by omega)]
  | down =>
    exact ⟨x, (y + 1) % height, (y + 1) % height = 0, if_neg (by omega), hx,
      Nat.mod_lt _ (by omega)⟩
  | up =>
    dsimp only
    by_cases h0 : 0 < y
    · exact ⟨x, y - 1, false, if_pos h0, hx, by omega⟩
    · refine ⟨x, height - 1, true, ?_, hx, by omega⟩
      rw [if_neg h0, if_neg (by omega)]

/-- The machine has a field, its counts are right and its pointer is on the field. -/
structure State.Placed (s : State) : Prop where
  width_eq : s.source.width = s.grid.width
  height_eq : s.source.height = s.grid.height
  source_whole : s.source.Whole
  grid_whole : s.grid.Whole
  sourceFilled_eq : s.sourceFilled = s.source.filled
  filled_eq : s.filled = s.grid.filled
  x_lt : s.x < s.grid.width
  y_lt : s.y < s.grid.height

/-- The machine has no program and does not wait. -/
structure State.Blank (s : State) : Prop where
  source_eq : s.source = .empty
  sourceFilled_eq : s.sourceFilled = 0
  grid_eq : s.grid = .empty
  filled_eq : s.filled = 0
  waiting_eq : s.waiting = none

/-- What holds of the machine between two calls. -/
def State.Good (s : State) : Prop := s.Placed ∨ s.Blank

/-- A part of a call that keeps the machine on its field, neither waits for input nor ends a wait,
and fails only as the host expects. -/
abbrev Steady {α : Type} (act : Step α) : Prop :=
  ∀ k, act.Safe (fun s => s.Placed ∧ s.waiting = k) (·.upset.Mild)

open Act

/-- A push is steady. -/
theorem steady_push (n : Int64) : Steady (push n) := fun _ =>
  .bind (safe_modify fun _ hs => ⟨{ hs.1 with }, hs.2⟩) fun _ => safe_notify _

/-- A pop is steady: it takes zero from an empty stack. -/
theorem steady_pop : Steady pop := by
  refine fun k => .bind safe_get fun s => ?_
  split
  · exact safe_pure _
  · refine .bind (safe_modify fun _ hs => ⟨{ hs.1 with }, hs.2⟩) fun _ => ?_
    exact .bind (safe_notify _) fun _ => safe_pure _

/-- The pointer stays on the field, also when it crosses an edge for once too often. -/
theorem steady_advance : Steady advance := by
  intro k s hs
  have hx : s.x < s.source.width := by
    rw [hs.1.width_eq]
    exact hs.1.x_lt
  have hy : s.y < s.source.height := by
    rw [hs.1.height_eq]
    exact hs.1.y_lt
  obtain ⟨x, y, crossed, hmove, hx, hy⟩ := s.direction.move_ok hx hy
  -- Only the place of the pointer and the count of crossings change.
  have hplaced (wraps : Nat) : ({ s with x, y, wraps } : State).Placed :=
    { hs.1 with
      x_lt := by rw [← hs.1.width_eq]; exact hx
      y_lt := by rw [← hs.1.height_eq]; exact hy }
  unfold advance
  rw [hmove]
  dsimp only
  split
  · refine ⟨⟨hplaced _, hs.2⟩, fun e he => ?_⟩
    cases he
    exact Fault.noConfusion
  · exact ⟨⟨hplaced _, hs.2⟩, fun _ he => nomatch he⟩

/-- A program that changes its own field changes the count with it. -/
theorem steady_put : Steady put := by
  refine fun k => .bind (steady_pop k) fun y => .bind (steady_pop k) fun x => ?_
  refine .bind (steady_pop k) fun value => .get_bind fun s hs => ?_
  by_cases hm : s.selfModification = true
  · rw [if_neg (not_not_intro hm)]
    cases hc : s.grid.cell? x.toInt y.toInt with
    | none => exact safe_fail Fault.noConfusion s hs
    | some old =>
      dsimp only
      -- The count is right for the field before the change, so two characters correct it.
      rw [hs.1.filled_eq, Field.recount_set hc]
      refine ⟨⟨?_, hs.2⟩, fun _ he => nomatch he⟩
      exact { hs.1 with grid_whole := hs.1.grid_whole.set _ _ _, filled_eq := rfl }
  · rw [if_pos hm]
    exact safe_fail Fault.noConfusion s hs

/-- Every basic part of an instruction is steady. -/
theorem steady_basic {moves : Prop} {α : Type} {x : Step α} (hx : Basic moves α x) : Steady x := by
  intro k
  cases hx with
  | push n => exact steady_push n k
  | pop => exact steady_pop k
  | turn d => exact safe_modify fun _ hs => ⟨{ hs.1 with }, hs.2⟩
  | turnAtRandom draw => exact safe_modify fun _ hs => ⟨{ hs.1 with }, hs.2⟩
  | quoting b => exact safe_modify fun _ hs => ⟨{ hs.1 with }, hs.2⟩
  | advance => exact steady_advance k
  | put => exact steady_put k

/-- A part that is put together from those of an instruction keeps the machine on its field. -/
theorem steady_of_assembled {moves : Prop} {α : Type} {x : Step α} (hx : Assembled moves x) :
    Steady x := by
  intro k
  refine (hx.mono ?_ fun _ _ hx => hx).safe fun _ _ hx => steady_basic hx k
  rintro _ ⟨x, y, rfl⟩
  exact Fault.noConfusion

/-- There is a character under the pointer. -/
theorem steady_here : Steady here := by
  intro k s hs
  obtain ⟨c, hc⟩ := hs.1.grid_whole.cell?_isSome hs.1.x_lt hs.1.y_lt
  unfold here
  rw [hc]
  exact ⟨hs, fun _ he => nomatch he⟩

/-! ## The calls -/

/-- The input that the machine waits for. -/
def waits (s : State) : Option InputKind := s.waiting

/-- A machine that waits goes on waiting. -/
theorem step_of_waiting (draw : Nat → Direction) (s : State) (kind : InputKind)
    (hw : waits s = some kind) : step draw s = ⟨.ok (.suspended kind), s, []⟩ := by
  have hs : s.waiting = some kind := hw
  unfold step
  rw [get_bind_apply]
  dsimp only
  rw [hs]
  rfl

/-- A machine that waits for input is on its field. -/
theorem candid_await (kind : InputKind) :
    Candid State.Placed waits (·.upset.Mild) (await kind) :=
  Act.candid_await fun _ hs => ⟨{ hs with }, rfl⟩

/-- One instruction says truly whether the machine waits after it. -/
theorem candid_step (draw : Nat → Direction) :
    Candid State.Good waits (·.upset.Mild) (step draw) := by
  intro s hs hw
  have hnone : s.waiting = none := hw
  unfold step
  rw [get_bind_apply]
  dsimp only
  rw [hnone]
  dsimp only
  by_cases hstop : (s.halted || decide (s.filled = 0)) = true
  · rw [if_pos hstop]
    exact ⟨⟨hs, fun _ he => nomatch he⟩, hw⟩
  · rw [if_neg hstop]
    have hplaced : s.Placed := by
      rcases hs with hs | hs
      · exact hs
      -- A machine without a program has nothing filled on its field, so it has halted by now.
      · rw [hs.filled_eq] at hstop
        simp at hstop
    refine Candid.weaken ?_ hplaced hw fun _ => .inl
    refine .bind (steady_here none) fun c => .echoed (safe_print _) ?_
    split
    · refine .bind (steady_of_assembled (assembled_quoted c) none) fun _ => ?_
      exact .bind (steady_advance none) fun _ => candid_pure rfl
    · split
      -- The two input instructions, the one that stops the program, and all others.
      · exact candid_await .line
      · exact candid_await .byte
      · exact .bind (safe_modify fun _ hs => ⟨{ hs.1 with }, hs.2⟩) fun _ => candid_pure rfl
      · refine .bind (steady_of_assembled (assembled_execute draw _) none) fun _ => ?_
        exact .bind (steady_advance none) fun _ => candid_pure rfl

/-- The loaded field is whole and counted, and it has a place unless nothing has been loaded. -/
structure State.Loaded (s : State) : Prop where
  source_whole : s.source.Whole
  sourceFilled_eq : s.sourceFilled = s.source.filled
  source_cases : s.source = .empty ∨ 0 < s.source.width ∧ 0 < s.source.height

/-- A good machine has its loaded field in order. -/
theorem State.Good.loaded {s : State} (hs : s.Good) : s.Loaded := by
  rcases hs with hs | hs
  · refine ⟨hs.source_whole, hs.sourceFilled_eq, .inr ?_⟩
    rw [hs.width_eq, hs.height_eq]
    exact ⟨Nat.zero_lt_of_lt hs.x_lt, Nat.zero_lt_of_lt hs.y_lt⟩
  · refine ⟨?_, ?_, .inl hs.source_eq⟩
    · rw [hs.source_eq]; rfl
    · rw [hs.sourceFilled_eq, hs.source_eq]; rfl

/-- Every source can be loaded. -/
theorem load_loaded (draw : Nat → Direction) (source : String) (s : State) :
    ∃ s' effects, (machine draw).load source s = ⟨.ok (), s', effects⟩ ∧ s'.Loaded := by
  obtain ⟨hwhole, hwidth, hheight⟩ := Field.ofSource_whole source.toList
  exact ⟨_, _, rfl, ⟨hwhole, rfl, .inr ⟨hwidth, hheight⟩⟩⟩

/-- A reset puts the loaded field in place and ends every wait. -/
theorem reset_ready (draw : Nat → Direction) {s : State} (hs : s.Loaded) :
    ((machine draw).reset s).Ready State.Good waits := by
  refine ⟨rfl, ?_, rfl⟩
  rcases hs.source_cases with hempty | ⟨hwidth, hheight⟩
  · have hfilled : s.sourceFilled = 0 := by
      rw [hs.sourceFilled_eq, hempty]
      rfl
    exact .inr ⟨hempty, hfilled, hempty, hfilled, rfl⟩
  · exact .inl ⟨rfl, rfl, hs.source_whole, hs.source_whole, hs.sourceFilled_eq,
      hs.sourceFilled_eq, hwidth, hheight⟩

/-- An input that the machine cannot use is not a number. -/
theorem mild_of_inputValue {kind : InputKind} {input : Input} {trouble : Trouble}
    (hv : inputValue kind input = .error trouble) : trouble.upset.Mild := by
  unfold inputValue at hv
  split at hv
  · cases hv
  · cases hv
  · split at hv
    · cases hv
    · cases hv
      exact Fault.noConfusion

/-- An input ends the wait for it, whether the machine can use it or not. -/
theorem resume_safe (input : Input) {s : State} {kind : InputKind} (hs : s.Good)
    (hw : waits s = some kind) :
    (resume input s).Safe (fun s => s.Placed ∧ s.waiting = none) (·.upset.Mild) := by
  have hwaiting : s.waiting = some kind := hw
  have hplaced : s.Placed := by
    rcases hs with hs | hs
    · exact hs
    -- A machine without a program does not wait.
    · rw [hs.waiting_eq] at hwaiting
      cases hwaiting
  unfold resume
  rw [get_bind_apply, hwaiting]
  dsimp only
  refine Safe.bind_at ⟨⟨{ hplaced with }, rfl⟩, fun _ he => nomatch he⟩ fun _ => ?_
  cases hv : inputValue kind input with
  | ok n => exact .bind (steady_push n none) fun _ => steady_advance none
  | error trouble => exact safe_fail (mild_of_inputValue hv)

/-- The playfield machine is lawful, whatever random directions it draws. -/
theorem lawful (draw : Nat → Direction) : (machine draw).Lawful State.Good waits := by
  intro s hs
  obtain ⟨hsafe, htells, hiff⟩ :=
    (candid_step draw).lawful_step (step_of_waiting draw) (fun _ he => he) hs
  refine ⟨fun source => Session.load_cases (.inl (load_loaded draw source s)) fun s hs =>
    reset_ready draw hs, reset_ready draw hs.loaded, hsafe, htells, hiff, fun input hw => ?_,
    fun source => ⟨none, rfl⟩, fun text => ⟨none, rfl⟩⟩
  have hplaced := (resume_safe input hs hw).mono (fun s hs => (⟨.inl hs.1, hs.2⟩ :
    s.Good ∧ waits s = none))
  exact hplaced.mapError fun _ he => he

/-- A machine is built with the limit on crossings that the options choose. -/
theorem build_eq_ok {options : Options} {s : State} (hb : build options = .ok s) :
    ∃ limit, wrapLimitOf options = .ok limit ∧
      s = .new (options.flag "debug") limit (options.flag "selfModification") := by
  unfold build at hb
  cases hw : wrapLimitOf options with
  | error detail => rw [hw] at hb; cases hb
  | ok limit =>
    rw [hw] at hb
    cases hb
    exact ⟨limit, rfl, rfl⟩

/-- The machine that the options choose has no program and does not wait. -/
theorem build_good {options : Options} {s : State} (hb : build options = .ok s) :
    s.Good ∧ waits s = none := by
  obtain ⟨limit, -, rfl⟩ := build_eq_ok hb
  exact ⟨.inr ⟨rfl, rfl, rfl, rfl, rfl⟩, rfl⟩

/-- A machine that has just been built has no program. -/
theorem build_blank {options : Options} {s : State} (hb : build options = .ok s) :
    s.source = .empty ∧ s.grid = .empty := by
  obtain ⟨limit, -, rfl⟩ := build_eq_ok hb
  exact ⟨rfl, rfl⟩

end EsotericHost.Befunge
