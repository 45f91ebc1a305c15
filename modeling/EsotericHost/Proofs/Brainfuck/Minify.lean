import EsotericHost.Proofs.Brainfuck.Code
import EsotericHost.Proofs.Machine.Likeness
import EsotericHost.Proofs.Rewinding.Machines

/-!
# Programs without their comments

A program and its minified form hold the same commands in the same order, with the same jumps: a
scan that leaves out the comments has the same brackets waiting at every command
(`Scan.Like.read`). They differ in the places of the commands in the source, which the machine looks
at only to show where it is and to say where it failed. So the machine does the same with either of
them, step by step and input by input (`minify_preserves`).
-/

namespace EsotericHost.Brainfuck

/-- Failures that are worded alike, but for the place in the source that they may mention. -/
inductive Displaced : Upset → Upset → Prop where
  | same (upset : Upset) : Displaced upset upset
  | closing (position position' : Nat) :
    Displaced (Trouble.unmatched (.closing position)).upset
      (Trouble.unmatched (.closing position')).upset
  | opening (position position' : Nat) :
    Displaced (Trouble.unmatched (.opening position)).upset
      (Trouble.unmatched (.opening position')).upset
  | pastEnd (length position position' : Nat) :
    Displaced (Trouble.pastEnd length position).upset (Trouble.pastEnd length position').upset
  | beforeStart (position position' : Nat) :
    Displaced (Trouble.beforeStart position).upset (Trouble.beforeStart position').upset

/-- The commands of a program without their places in the source. -/
def ops (code : Array Instruction) : Array Op := code.map (·.op)

/-- Machines that differ at most in the places of their commands in the source. -/
structure State.Like (s s' : State) : Prop where
  cellType_eq : s.cellType = s'.cellType
  reelLength_eq : s.reelLength = s'.reelLength
  ops_eq : ops s.program.code = ops s'.program.code
  tape_eq : s.tape = s'.tape
  pointer_eq : s.pointer = s'.pointer
  next_eq : s.next = s'.next
  waiting_eq : s.waiting = s'.waiting

/-- A failure of the machine stands for another one that is worded alike. -/
def Trouble.Displaced (trouble trouble' : Trouble) : Prop :=
  Brainfuck.Displaced trouble.upset trouble'.upset

/-! ## Scans -/

/-- Brackets without a partner of one kind. -/
inductive Unmatched.Like : Unmatched → Unmatched → Prop where
  | closing (position position' : Nat) : Like (.closing position) (.closing position')
  | opening (position position' : Nat) : Like (.opening position) (.opening position')

/-- Scans that have read the same commands and have the same brackets waiting. -/
structure Scan.Like (scan scan' : Scan) : Prop where
  ops_eq : ops scan.code = ops scan'.code
  pending_eq : scan.pending.map Prod.fst = scan'.pending.map Prod.fst

namespace Scan

variable {scan scan' : Scan} {n n' : Nat}

/-- Scans that are alike have read as many commands. -/
theorem Like.size_eq (h : scan.Like scan') : scan.code.size = scan'.code.size := by
  have hsize := congrArg Array.size h.ops_eq
  simpa only [ops, Array.size_map] using hsize

/-- The same command keeps scans alike, wherever it stands. -/
theorem Like.extend (h : scan.Like scan') (op : Op) :
    (scan.extend [⟨n, op⟩]).Like (scan'.extend [⟨n', op⟩]) where
  ops_eq := by
    have hops : scan.code.map (·.op) = scan'.code.map (·.op) := h.ops_eq
    simp only [Scan.extend, ops, Array.map_append, hops, List.map_toArray, List.map_cons]
  pending_eq := h.pending_eq

/-- An opening bracket keeps scans alike. -/
theorem Like.openBracket (h : scan.Like scan') :
    (scan.openBracket n).Like (scan'.openBracket n') where
  ops_eq := by
    have hops : scan.code.map (·.op) = scan'.code.map (·.op) := h.ops_eq
    simp only [Scan.openBracket, ops, Array.map_push, hops, h.size_eq]
  pending_eq := by
    simp only [Scan.openBracket, List.map_cons, h.pending_eq, h.size_eq]

/-- Where no bracket waits, a closing one is without a partner. -/
theorem closeBracket_of_nil (h : scan.pending = []) :
    scan.closeBracket n = .error (.closing n) := by
  unfold closeBracket
  split
  · rfl
  · rename_i hpending
    rw [h] at hpending
    cases hpending

/-- What a closing bracket makes of a scan in which a bracket waits for it. -/
theorem closeBracket_of_cons {start place : Nat} {outer : List (Nat × Nat)}
    (h : scan.pending = (start, place) :: outer) :
    ∃ closed, scan.closeBracket n = .ok closed ∧ closed.pending = outer ∧
      ops closed.code =
        ((ops scan.code).setIfInBounds start (.opening scan.code.size)).push (.closing start) := by
  unfold closeBracket
  split
  · rename_i hpending
    rw [h] at hpending
    cases hpending
  · rename_i hpending
    rw [h] at hpending
    cases hpending
    refine ⟨_, rfl, rfl, ?_⟩
    have hlt : start < (ops scan.code).size := by
      rw [ops, Array.size_map]
      exact scan.pending_lt _ (by rw [h]; exact List.mem_cons_self)
    rw [Array.setIfInBounds, dif_pos hlt]
    simp only [ops, Array.map_push, Array.map_set]

/-- A closing bracket meets its partner in both of two like scans, or in neither. -/
theorem Like.closeBracket (h : scan.Like scan') (n n' : Nat) :
    (∃ closed closed', scan.closeBracket n = .ok closed ∧ scan'.closeBracket n' = .ok closed' ∧
        closed.Like closed') ∨
      scan.closeBracket n = .error (.closing n) ∧ scan'.closeBracket n' = .error (.closing n') := by
  have hpending := h.pending_eq
  cases hp : scan.pending with
  | nil =>
    rw [hp, List.map_nil] at hpending
    exact .inr ⟨closeBracket_of_nil hp, closeBracket_of_nil (List.map_eq_nil_iff.mp hpending.symm)⟩
  | cons bracket outer =>
    obtain ⟨start, place⟩ := bracket
    rw [hp, List.map_cons] at hpending
    obtain ⟨⟨start', place'⟩, outer', hp', hstart, houter⟩ :=
      List.map_eq_cons_iff.mp hpending.symm
    obtain rfl : start' = start := hstart
    obtain ⟨closed, hclosed, hrest, hops⟩ := closeBracket_of_cons hp (n := n)
    obtain ⟨closed', hclosed', hrest', hops'⟩ := closeBracket_of_cons hp' (n := n')
    refine .inl ⟨closed, closed', hclosed, hclosed', ?_, ?_⟩
    · rw [hops, hops', h.ops_eq, h.size_eq]
    · rw [hrest, hrest', houter]

/-- A closing bracket without a partner is complained of. -/
theorem read_closing_error (hmiss : scan.closeBracket n = .error (.closing n)) (cs : List Char) :
    scan.read n (']' :: cs) = .error (.closing n) := by
  rw [Scan.read, next, if_neg (by decide), if_pos rfl, hmiss]

/-- A scan that leaves out the comments reads the same commands, or complains of the same
bracket. -/
theorem Like.read (h : scan.Like scan') (cs : List Char) :
    Agree Unmatched.Like ((scan.read n cs).map ops)
      ((scan'.read n' (cs.filter isCommand)).map ops) := by
  induction cs generalizing scan scan' n n' with
  | nil =>
    have hpending := h.pending_eq
    rw [List.filter_nil, Scan.read, Scan.read]
    cases hp : scan.pending with
    | nil =>
      rw [hp, List.map_nil] at hpending
      rw [List.map_eq_nil_iff.mp hpending.symm]
      dsimp only [Except.map]
      rw [h.ops_eq]
      exact .ok _
    | cons bracket outer =>
      rw [hp, List.map_cons] at hpending
      obtain ⟨bracket', outer', hp', -, -⟩ := List.map_eq_cons_iff.mp hpending.symm
      rw [hp']
      exact .error (.opening _ _)
  | cons c cs ih =>
    rcases character_cases c with ⟨b, rfl⟩ | rfl | rfl | hc
    · rw [List.filter_cons_of_pos b.isCommand_character, read_character, read_character]
      exact ih (h.extend b.op)
    · rw [List.filter_cons_of_pos rfl, read_opening, read_opening]
      exact ih h.openBracket
    · rw [List.filter_cons_of_pos rfl]
      rcases h.closeBracket n n' with ⟨closed, closed', hclosed, hclosed', hlike⟩ | ⟨hmiss, hmiss'⟩
      · rw [read_closing hclosed, read_closing hclosed']
        exact ih hlike
      · rw [read_closing_error hmiss, read_closing_error hmiss']
        exact .error (.closing _ _)
    · have hneg : ¬ isCommand c = true := Bool.eq_false_iff.mp hc
      rw [List.filter_cons_of_neg hneg, read_of_comment hc]
      exact ih h

end Scan

/-- The minified form of a source has a program with the same commands, or lacks the partner of the
same bracket. -/
theorem ofSource_minify (source : String) :
    Agree Unmatched.Like ((Program.ofSource source).map fun program => ops program.code)
      ((Program.ofSource (minify source)).map fun program => ops program.code) := by
  have hstart : Scan.start.Like Scan.start := ⟨rfl, rfl⟩
  have hread : Agree Unmatched.Like ((Scan.start.read 0 source.toList).map ops)
      ((Scan.start.read 0 (source.toList.filter isCommand)).map ops) :=
    hstart.read source.toList
  have hsource (source : String) :
      ((Program.ofSource source).map fun program => ops program.code) =
        (Scan.start.read 0 source.toList).map ops := by
    unfold Program.ofSource
    dsimp only
    cases Scan.start.read 0 source.toList with
    | error unmatched => rfl
    | ok code => rfl
  rw [hsource, hsource, minify, String.toList_ofList]
  exact hread

/-! ## Calls -/

variable {s s' : State}

/-- A machine that is like another one is that machine with another program. -/
theorem State.Like.exists_program (h : s.Like s') :
    ∃ program, ops s.program.code = ops program.code ∧ s' = { s with program } := by
  refine ⟨s'.program, h.ops_eq, ?_⟩
  obtain ⟨hcellType, hreelLength, -, htape, hpointer, hnext, hwaiting⟩ := h
  cases s
  cases s'
  cases hcellType
  cases hreelLength
  cases htape
  cases hpointer
  cases hnext
  cases hwaiting
  rfl

/-- Programs with the same commands make like machines. -/
theorem like_with (s : State) {program : Program} (h : ops s.program.code = ops program.code) :
    s.Like { s with program } :=
  ⟨rfl, rfl, h, rfl, rfl, rfl, rfl⟩

/-- Two parts of a call that do the same in like machines. -/
abbrev Alike {α : Type} (act act' : Step α) : Prop := act.Like State.Like Trouble.Displaced act'

open Act

/-- At the end of the tape like machines fail in like ways. -/
theorem alike_offTape {α : Type} : Alike (offTape : Step α) offTape := by
  intro s s' h
  obtain ⟨program, hops, rfl⟩ := h.exists_program
  exact ⟨.error (.same _), like_with s hops, rfl⟩

/-- Like machines read the same from the current cell. -/
theorem alike_cell : Alike cell cell := by
  intro s s' h
  obtain ⟨program, hops, rfl⟩ := h.exists_program
  unfold cell
  dsimp only
  cases s.tape[s.pointer]? with
  | some value => exact ⟨.ok value, like_with s hops, rfl⟩
  | none => exact alike_offTape s _ (like_with s hops)

/-- Like machines store a value alike. -/
theorem alike_store (value : Int) : Alike (store value) (store value) := by
  intro s s' h
  obtain ⟨program, hops, rfl⟩ := h.exists_program
  unfold store
  dsimp only
  by_cases hlt : s.pointer < s.tape.size
  · rw [dif_pos hlt, dif_pos hlt]
    exact ⟨.ok (), ⟨rfl, rfl, hops, rfl, rfl, rfl, rfl⟩, rfl⟩
  · rw [dif_neg hlt, dif_neg hlt]
    exact alike_offTape s _ (like_with s hops)

/-- Like machines raise or lower the current cell alike. -/
theorem alike_add (difference : Int) : Alike (add difference) (add difference) := by
  refine .bind alike_cell fun value => ?_
  split
  · exact alike_store _
  · exact like_fail (.same _)

/-- Like machines move the pointer alike. -/
theorem alike_moveTo (pointer : Nat) : Alike (moveTo pointer) (moveTo pointer) := by
  intro s s' h
  obtain ⟨program, hops, rfl⟩ := h.exists_program
  exact ⟨.ok (), ⟨rfl, rfl, hops, rfl, rfl, rfl, rfl⟩, rfl⟩

/-- Where the next command stands is told to a client that watches, and printed nowhere. -/
theorem alike_goOnAfter (index : Nat) : Alike (goOnAfter index) (goOnAfter index) := by
  intro s s' h
  obtain ⟨program, hops, rfl⟩ := h.exists_program
  exact ⟨.ok (), ⟨rfl, rfl, hops, rfl, rfl, rfl, rfl⟩, rfl⟩

/-- Like machines go on to the next instruction alike. -/
theorem alike_goOn : Alike goOn goOn := by
  intro s s' h
  have hnext := alike_goOnAfter s.next s s' h
  unfold goOn
  rw [← h.next_eq]
  exact hnext

/-- A command does the same wherever it stands in the source. -/
theorem alike_execute {instruction instruction' : Instruction}
    (hop : instruction.op = instruction'.op) :
    Alike (execute instruction) (execute instruction') := by
  refine .get_bind fun s s' h => ?_
  rw [← hop, ← h.reelLength_eq, ← h.pointer_eq]
  cases instruction.op with
  | right =>
    dsimp only
    split
    · exact like_fail (.pastEnd _ _ _) s s' h
    · exact Like.bind (alike_moveTo _) (fun _ => alike_goOn) s s' h
  | left =>
    dsimp only
    split
    · exact like_fail (.beforeStart _ _) s s' h
    · exact Like.bind (alike_moveTo _) (fun _ => alike_goOn) s s' h
  | increment => exact Like.bind (alike_add 1) (fun _ => alike_goOn) s s' h
  | decrement => exact Like.bind (alike_add (-1)) (fun _ => alike_goOn) s s' h
  | output =>
    exact Like.bind alike_cell (fun _ => .bind (like_print _) fun _ => alike_goOn) s s' h
  | input => exact alike_goOn s s' h
  | opening close =>
    refine Like.bind alike_cell (fun value => ?_) s s' h
    split
    · exact alike_goOnAfter close
    · exact alike_goOn
  | closing start =>
    refine Like.bind alike_cell (fun value => ?_) s s' h
    split
    · exact alike_goOn
    · exact alike_goOnAfter start

/-- Like machines make like steps. -/
theorem alike_step : Alike step step := by
  intro s s' h
  obtain ⟨program, hops, rfl⟩ := h.exists_program
  have hsame : s.program.code[s.next]?.map (·.op) = program.code[s.next]?.map (·.op) := by
    have hget := congrArg (fun row : Array Op => row[s.next]?) hops
    simpa only [ops, Array.getElem?_map] using hget
  unfold step
  dsimp only
  by_cases hw : s.waiting = true
  · rw [if_pos hw, if_pos hw]
    exact ⟨.ok _, like_with s hops, rfl⟩
  · rw [if_neg hw, if_neg hw]
    -- Both have come to the end, or to the same command.
    obtain ⟨hhere, hthere⟩ | ⟨instruction, instruction', hhere, hthere, hop⟩ :=
      cases_of_map_eq hsame
    · rw [hhere, hthere]
      exact ⟨.ok _, like_with s hops, rfl⟩
    · rw [hhere, hthere]
      dsimp only
      by_cases hinput : instruction.op = .input
      · rw [if_pos hinput, if_pos (hop.symm.trans hinput)]
        exact ⟨.ok _, ⟨rfl, rfl, hops, rfl, rfl, rfl, rfl⟩, rfl⟩
      · rw [if_neg hinput, if_neg (by rwa [← hop])]
        exact Like.bind (alike_execute hop) (fun _ => like_pure _) s _ (like_with s hops)

/-- Like machines take an input in like ways. -/
theorem alike_resume (input : Input) : Alike (resume input) (resume input) := by
  intro s s' h
  obtain ⟨program, hops, rfl⟩ := h.exists_program
  unfold resume
  dsimp only
  by_cases hw : s.waiting = true
  · rw [if_pos hw, if_pos hw]
    exact Like.bind (alike_store _) (fun _ => alike_goOn) _ _ ⟨rfl, rfl, hops, rfl, rfl, rfl, rfl⟩
  · rw [if_neg hw, if_neg hw]
    exact like_fail (.same _) s _ (like_with s hops)

/-- The places of the commands in the source matter to no step and to no input. -/
theorem likens : machine.Likens State.Like Displaced where
  refl := .same
  step s s' h := (alike_step s s' h).mapError fun _ _ he => he
  resume input s s' h := (alike_resume input s s' h).mapError fun _ _ he => he

/-! ## Loads -/

/-- Like machines are reset alike. -/
theorem alike_reset : Alike reset reset := by
  intro s s' h
  obtain ⟨program, hops, rfl⟩ := h.exists_program
  exact ⟨.ok (), ⟨rfl, rfl, hops, rfl, rfl, rfl, rfl⟩, rfl⟩

/-- Sources whose programs are the same but for the places of the commands are loaded alike. -/
theorem like_load {source source' : String}
    (hsource : Agree Unmatched.Like
      ((Program.ofSource source).map fun program => ops program.code)
      ((Program.ofSource source').map fun program => ops program.code)) :
    (machine.load source).Like State.Like Displaced (machine.load source') := by
  intro s s' h
  obtain ⟨program, hops, rfl⟩ := h.exists_program
  rw [load_eq, load_eq]
  obtain ⟨loaded, loaded', hloaded, hloaded', hsame⟩ |
    ⟨bracket, bracket', hmiss, hmiss', hkind⟩ := hsource.cases_of_map
  · rw [hloaded, hloaded']
    exact ⟨.ok (), ⟨rfl, rfl, hsame, rfl, rfl, rfl, rfl⟩, rfl⟩
  · rw [hmiss, hmiss']
    refine ⟨.error ?_, like_with s hops, rfl⟩
    cases hkind with
    | closing position position' => exact .closing position position'
    | opening position position' => exact .opening position position'

/-- A machine is like itself. -/
theorem State.Like.refl (s : State) : s.Like s := like_with s rfl

/-- A source and its minified form are loaded alike, and the program is the same but for the places
of its commands. -/
theorem load_minify (source : String) (s : State) :
    Agree Displaced (machine.load source s).result (machine.load (minify source) s).result ∧
      ((machine.load source s).result = .ok () →
        (machine.load source s).state.Like (machine.load (minify source) s).state) := by
  have hlike := like_load (ofSource_minify source) s s (.refl s)
  exact ⟨hlike.result, fun _ => hlike.state⟩

/-- A reset is done alike by like machines. -/
theorem like_reset : machine.reset.Like State.Like Displaced machine.reset :=
  fun s s' h => (alike_reset s s' h).mapError fun _ _ he => he

/-- A machine that has loaded a source and is reset is like one that has loaded the minified
form. -/
theorem left_load_minify (source : String) (s : Session State) :
    (s.left (Session.load machine source)).state.Like
      (s.left (Session.load machine (minify source))).state :=
  (Like.bind (like_load (ofSource_minify source)) (fun _ => like_reset) s.state s.state
    (.refl s.state)).state

/-- Sources with the same minified form are exchanged for each other. -/
theorem exchanges_of_minify {source source' : String} (h : minify source = minify source') :
    machine.Exchanges State.Like Displaced source source' := by
  have hcommon (e e' e'' : Unmatched) (he : e.Like e'') (he' : e'.Like e'') : e.Like e' := by
    cases he with
    | closing => cases he' with | closing => exact .closing _ _
    | opening => cases he' with | opening => exact .opening _ _
  have hsource := ofSource_minify source
  rw [h] at hsource
  exact likens.exchanges .refl (like_load (hsource.of_common hcommon (ofSource_minify source')))
    like_reset

/-- A text that has been minified is minified already. -/
theorem minify_minify (source : String) : minify (minify source) = minify source := by
  rw [minify, minify, String.toList_ofList, List.filter_filter]
  simp only [Bool.and_self]

/-- **Minifying preserves programs.** The machine loads the minified form of a source just if it
loads the source, and complains of the same bracket otherwise. Driven from there with the same
inputs and the same limit, it gives the same answers, prints the same texts, uses as much of its
budget and has the same tape and the same pointer after every step and every input; only the places
that its failures mention may differ. A minified form is minified already, and holds nothing but
commands. -/
theorem minify_preserves (source : String) (s : Session State) :
    ∃ minified, machine.minify s.state source = .ok (some minified) ∧
      ((machine.load source s.state).result = .ok () ↔
        (machine.load minified s.state).result = .ok ()) ∧
      Agree Displaced (machine.load source s.state).result (machine.load minified s.state).result ∧
      ((machine.load source s.state).result = .ok () → ∀ (inputs : List Input) (limit : Option Nat),
        (∀ n, List.Forall₂ (Moment.Like State.Like Displaced)
          (machine.chronicle n inputs (.fresh limit) (s.left (Session.load machine source)).state)
          (machine.chronicle n inputs (.fresh limit)
            (s.left (Session.load machine minified)).state)) ∧
        ∀ bound, Option.Rel
          (fun (budget, d) (budget', d') => budget = budget' ∧ Drive.Like State.Like Displaced d d')
          ((s.left (Session.load machine source)).operate machine bound inputs (.fresh limit) #[])
          ((s.left (Session.load machine minified)).operate machine bound inputs (.fresh limit)
            #[])) ∧
      machine.minify s.state minified = .ok (some minified) ∧
      ∀ c ∈ minified.toList, c ∈ "><+-.,[]".toList := by
  obtain ⟨hagree, -⟩ := load_minify source s.state
  refine ⟨minify source, rfl, hagree.ok_iff (), hagree, fun _ inputs limit => ?_, ?_,
    fun c hc => ?_⟩
  · have hlike := left_load_minify source s
    exact ⟨fun n => likens.chronicle n inputs (.fresh limit) hlike,
      fun bound => likens.operate bound inputs (.fresh limit) hlike rfl⟩
  · change Except.ok (some (minify (minify source))) = _
    rw [minify_minify]
  · rw [minify, String.toList_ofList] at hc
    have hcommand : isCommand c = true := List.of_mem_filter hc
    simpa [isCommand, or_assoc] using hcommand

end EsotericHost.Brainfuck
