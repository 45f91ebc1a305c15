import EsotericHost.Proofs.Rewinding.Basic

/-!
# The built-in machines can be rewound

Each of the four machines keeps its options and its program apart from what a program works on, and
its reset restores all of the latter. So each state has a `ready` one, at the start of the program
that is loaded, and a `bare` one, without a program, and no instruction changes either. The
playfield machine alone keeps something over a reset: the count of the random directions it has
used.
-/

namespace EsotericHost

open Act

/-! ## The line machine -/

namespace Length

/-- The machine at the start of its program. -/
def State.ready (s : State) : State := { s with stack := [], line := 0, waiting := false }

/-- The machine as its options made it. -/
def State.bare (s : State) : State := { s.ready with lines := #[] }

/-- A part of a call that leaves the options and the program as they are. -/
abbrev Keeping {α : Type} (act : Step α) : Prop := act.Keeps State.ready

/-- A push changes neither the options nor the program. -/
theorem keeping_push (n : Int64) : Keeping (push n) :=
  .bind (keeps_modify fun _ => rfl) fun _ => keeps_notify _

/-- A pop changes neither the options nor the program. -/
theorem keeping_pop : Keeping pop := by
  refine .bind keeps_get fun s => ?_
  split
  · exact keeps_fail _
  · refine .bind (keeps_modify fun _ => rfl) fun _ => ?_
    exact .bind (keeps_notify _) fun _ => keeps_pure _

/-- A jump changes neither the options nor the program. -/
theorem keeping_goTo (line : Nat) : Keeping (goTo line) :=
  .bind (keeps_modify fun _ => rfl) fun _ => keeps_notify _

/-- Every basic part of an instruction leaves the options and the program as they are. -/
theorem keeping_basic {line : Nat} {rolls : Prop} {α : Type} {x : Step α}
    (hx : Basic line rolls α x) : Keeping x := by
  cases hx with
  | push n => exact keeping_push n
  | pop => exact keeping_pop
  | goTo following => exact keeping_goTo _
  | roll allowed f => exact keeps_modify fun _ => rfl

/-- An instruction leaves the options and the program as they are. -/
theorem keeping_execute (instruction : Instruction) : Keeping (execute instruction) := by
  intro s
  obtain ⟨act, hact, hassembled⟩ := assembled_execute instruction s
  rw [hact]
  exact hassembled.keeps (fun _ _ hx => keeping_basic hx) s

/-- A step leaves the options and the program as they are. -/
theorem keeping_step : Keeping step := by
  refine .bind keeps_get fun s => ?_
  split
  · exact keeps_pure _
  · split
    · exact keeps_pure _
    · refine .when (keeps_print _) ?_
      split
      · exact .bind (keeps_modify fun _ => rfl) fun _ => keeps_pure _
      · exact .bind (keeping_execute _) fun _ => keeps_pure _

/-- An input leaves the options and the program as they are. -/
theorem keeping_resume (input : Input) : Keeping (resume input) := by
  refine .bind keeps_get fun s => ?_
  split
  · refine .bind (keeps_modify fun _ => rfl) fun _ => ?_
    exact .bind (keeping_push _) fun _ => keeping_goTo _
  · exact keeps_fail _

/-- The line machine can be rewound: every source loads, and a reset clears the stack. -/
theorem rewinds : machine.Rewinds id State.ready State.bare := fun s =>
  { reset_ok := rfl
    still_reset := rfl
    ready_reset := rfl
    ready_step := keeping_step s
    ready_resume := fun input => keeping_resume input s
    load_result := fun _ => rfl
    ready_load := fun _ _ => rfl
    load_refused := fun _ _ herror => nomatch herror
    bare_load := fun _ => rfl
    bare_ready := rfl }

end Length

/-! ## The tape machine -/

namespace Brainfuck

/-- The machine at the start of its program. -/
def State.ready (s : State) : State :=
  { s with tape := Array.replicate s.reelLength 0, pointer := 0, next := 0, waiting := false }

/-- The machine as its options made it. -/
def State.bare (s : State) : State := { s.ready with program := ⟨#[], 0⟩ }

/-- A part of a call that leaves the options and the program as they are. -/
abbrev Keeping {α : Type} (act : Step α) : Prop := act.Keeps State.ready

/-- To read the current cell changes neither the options nor the program. -/
theorem keeping_cell : Keeping cell := by
  intro s
  unfold cell
  split <;> rfl

/-- To store a value changes neither the options nor the program. -/
theorem keeping_store (value : Int) : Keeping (store value) := by
  intro s
  unfold store
  dsimp only
  split <;> rfl

/-- To raise or lower the current cell changes neither the options nor the program. -/
theorem keeping_add (difference : Int) : Keeping (add difference) := by
  refine .bind keeping_cell fun value => ?_
  split
  · exact keeping_store _
  · exact keeps_fail _

/-- To go on behind an instruction changes neither the options nor the program. -/
theorem keeping_goOnAfter (index : Nat) : Keeping (goOnAfter index) := fun _ => rfl

/-- To go on to the next instruction changes neither the options nor the program. -/
theorem keeping_goOn : Keeping goOn := fun _ => rfl

/-- To move the pointer changes neither the options nor the program. -/
theorem keeping_moveTo (pointer : Nat) : Keeping (moveTo pointer) := fun _ => rfl

/-- A command leaves the options and the program as they are. -/
theorem keeping_execute (instruction : Instruction) : Keeping (execute instruction) := by
  refine .bind keeps_get fun s => ?_
  cases instruction.op with
  | right =>
    dsimp only
    split
    · exact keeps_fail _
    · exact .bind (keeping_moveTo _) fun _ => keeping_goOn
  | left =>
    dsimp only
    split
    · exact keeps_fail _
    · exact .bind (keeping_moveTo _) fun _ => keeping_goOn
  | increment => exact .bind (keeping_add _) fun _ => keeping_goOn
  | decrement => exact .bind (keeping_add _) fun _ => keeping_goOn
  | output => exact .bind keeping_cell fun _ => .bind (keeps_print _) fun _ => keeping_goOn
  | input => exact keeping_goOn
  | opening close =>
    refine .bind keeping_cell fun value => ?_
    split
    · exact keeping_goOnAfter close
    · exact keeping_goOn
  | closing start =>
    refine .bind keeping_cell fun value => ?_
    split
    · exact keeping_goOn
    · exact keeping_goOnAfter start

/-- A step leaves the options and the program as they are. -/
theorem keeping_step : Keeping step := by
  intro s
  unfold step
  split
  · rfl
  · split
    · rfl
    · split
      · rfl
      · exact Keeps.bind (keeping_execute _) (fun _ => keeps_pure _) s

/-- An input leaves the options and the program as they are. -/
theorem keeping_resume (input : Input) : Keeping (resume input) := by
  intro s
  unfold resume
  split
  · exact Keeps.bind (keeping_store _) (fun _ => keeping_goOn) { s with waiting := false }
  · rfl

/-- What a load makes of a state: the program is replaced, or nothing is. -/
theorem load_eq (source : String) (s : State) :
    machine.load source s = match Program.ofSource source with
      | .ok program => ⟨.ok (), { s with program }, []⟩
      | .error bracket => ⟨.error (Trouble.unmatched bracket).upset, s, []⟩ := by
  change (load source s).mapError _ = _
  unfold load
  cases Program.ofSource source <;> rfl

/-- The tape machine can be rewound: a reset clears the reel, and a source with a bracket that has
no partner changes nothing. -/
theorem rewinds : machine.Rewinds id State.ready State.bare := fun s =>
  { reset_ok := rfl
    still_reset := rfl
    ready_reset := rfl
    ready_step := keeping_step s
    ready_resume := fun input => keeping_resume input s
    load_result := fun source => by
      rw [load_eq, load_eq]
      split <;> rfl
    ready_load := fun source hok => by
      rw [load_eq] at hok ⊢
      rw [load_eq]
      split at hok
      · rfl
      · cases hok
    load_refused := fun source upset herror => by
      rw [load_eq] at herror ⊢
      split at herror
      · cases herror
      · rfl
    bare_load := fun source => by
      rw [load_eq]
      split <;> rfl
    bare_ready := rfl }

/-- The machine that the options choose is bare. -/
theorem build_bare {options : Options} {s : State} (hb : build options = .ok s) :
    s.bare = s ∧ s.ready = s := by
  obtain ⟨cellType, reelLength, -, -, rfl⟩ := build_eq_ok hb
  exact ⟨rfl, rfl⟩

end Brainfuck

/-! ## The playfield machine -/

namespace Befunge

/-- The machine without its count of random directions. -/
def State.still (s : State) : State := { s with draws := 0 }

/-- The machine at the start of its program, with no random direction used. -/
def State.ready (s : State) : State :=
  { s with
    grid := s.source, filled := s.sourceFilled, x := 0, y := 0, direction := .right
    stack := [], quoting := false, halted := false, wraps := 0, waiting := none, draws := 0 }

/-- The machine as its options made it. -/
def State.bare (s : State) : State :=
  { s.ready with source := .empty, sourceFilled := 0, grid := .empty, filled := 0 }

/-- A part of a call that leaves the options and the loaded field as they are. -/
abbrev Keeping {α : Type} (act : Step α) : Prop := act.Keeps State.ready

/-- A push changes neither the options nor the loaded field. -/
theorem keeping_push (n : Int64) : Keeping (push n) :=
  .bind (keeps_modify fun _ => rfl) fun _ => keeps_notify _

/-- A pop changes neither the options nor the loaded field. -/
theorem keeping_pop : Keeping pop := by
  refine .bind keeps_get fun s => ?_
  split
  · exact keeps_pure _
  · refine .bind (keeps_modify fun _ => rfl) fun _ => ?_
    exact .bind (keeps_notify _) fun _ => keeps_pure _

/-- An advance changes neither the options nor the loaded field. -/
theorem keeping_advance : Keeping advance := by
  intro s
  unfold advance
  split
  · rfl
  · dsimp only
    split <;> rfl

/-- A program that changes its field does so on the copy that it runs on. -/
theorem keeping_put : Keeping put := by
  refine .bind keeping_pop fun y => .bind keeping_pop fun x => .bind keeping_pop fun value => ?_
  refine .bind keeps_get fun s => ?_
  split
  · exact keeps_fail _
  · split
    · exact keeps_fail _
    · dsimp only
      split
      · exact keeps_fail _
      · exact keeps_modify fun _ => rfl

/-- Every basic part of an instruction leaves the options and the loaded field as they are: a put
changes the field in use only. -/
theorem keeping_basic {moves : Prop} {α : Type} {x : Step α} (hx : Basic moves α x) :
    Keeping x := by
  cases hx with
  | push n => exact keeping_push n
  | pop => exact keeping_pop
  | turn d => exact keeps_modify fun _ => rfl
  | turnAtRandom draw => exact keeps_modify fun _ => rfl
  | quoting b => exact keeps_modify fun _ => rfl
  | advance => exact keeping_advance
  | put => exact keeping_put

/-- What is put together from the parts of an instruction. -/
theorem keeping_of_assembled {moves : Prop} {α : Type} {x : Step α} (hx : Assembled moves x) :
    Keeping x :=
  hx.keeps fun _ _ hx => keeping_basic hx

/-- To look at the place of the pointer changes neither the options nor the loaded field. -/
theorem keeping_here : Keeping here := by
  intro s
  unfold here
  split <;> rfl

/-- To ask for input changes neither the options nor the loaded field. -/
theorem keeping_await (kind : InputKind) : Keeping (await kind) :=
  .bind (keeps_modify fun _ => rfl) fun _ => keeps_pure _

/-- A step leaves the options and the loaded field as they are. -/
theorem keeping_step (draw : Nat → Direction) : Keeping (step draw) := by
  refine .bind keeps_get fun s => ?_
  dsimp only
  split
  · exact keeps_pure _
  · split
    · exact keeps_pure _
    · refine .bind keeping_here fun c => .when (keeps_print _) ?_
      split
      · refine .bind (keeping_of_assembled (assembled_quoted c)) fun _ => ?_
        exact .bind keeping_advance fun _ => keeps_pure _
      · split
        · exact keeping_await .line
        · exact keeping_await .byte
        · exact .bind (keeps_modify fun _ => rfl) fun _ => keeps_pure _
        · refine .bind (keeping_of_assembled (assembled_execute draw _)) fun _ => ?_
          exact .bind keeping_advance fun _ => keeps_pure _

/-- An input leaves the options and the loaded field as they are. -/
theorem keeping_resume (input : Input) : Keeping (resume input) := by
  refine .bind keeps_get fun s => ?_
  split
  · exact keeps_fail _
  · refine .bind (keeps_modify fun _ => rfl) fun _ => ?_
    split
    · exact .bind (keeping_push _) fun _ => keeping_advance
    · exact keeps_fail _

/-- The playfield machine can be rewound: every source loads, and a reset puts its field back in
place. -/
theorem rewinds (draw : Nat → Direction) :
    (machine draw).Rewinds State.still State.ready State.bare := fun s =>
  { reset_ok := rfl
    still_reset := rfl
    ready_reset := rfl
    ready_step := keeping_step draw s
    ready_resume := fun input => keeping_resume input s
    load_result := fun _ => rfl
    ready_load := fun _ _ => rfl
    load_refused := fun _ _ herror => nomatch herror
    bare_load := fun _ => rfl
    bare_ready := rfl }

/-- The machine that the options choose is bare. -/
theorem build_bare {options : Options} {s : State} (hb : build options = .ok s) :
    s.bare = s ∧ s.ready = s ∧ s.still = s := by
  obtain ⟨limit, -, rfl⟩ := build_eq_ok hb
  exact ⟨rfl, rfl, rfl⟩

end Befunge

/-! ## The token machine -/

namespace Element

/-- The machine at the start of its program. -/
def State.ready (s : State) : State :=
  { s with next := 0, main := [], control := [], bindings := [], loops := [], waiting := false }

/-- The machine as its options made it. -/
def State.bare (s : State) : State := { s.ready with program := #[] }

/-- A part of a call that leaves the options and the program as they are. -/
abbrev Keeping {α : Type} (act : Step α) : Prop := act.Keeps State.ready

/-- What is put on a stack is gone at the start of the program. -/
theorem ready_withStack (s : State) (stack : Stack) (values : List Value) :
    (s.withStack stack values).ready = s.ready := by
  cases stack <;> rfl

/-- A push changes neither the options nor the program. -/
theorem keeping_pushOn (stack : Stack) (v : Value) : Keeping (pushOn stack v) :=
  .bind (keeps_modify fun s => ready_withStack s _ _) fun _ => keeps_notify _

/-- A pop changes neither the options nor the program. -/
theorem keeping_popFrom (stack : Stack) : Keeping (popFrom stack) := by
  refine .bind keeps_get fun s => ?_
  split
  · exact keeps_fail _
  · refine .bind (keeps_modify fun s => ready_withStack s _ _) fun _ => ?_
    exact .bind (keeps_notify _) fun _ => keeps_pure _

/-- To go to a token changes neither the options nor the program. -/
theorem keeping_goTo (index : Nat) : Keeping (goTo index) :=
  .bind (keeps_modify fun _ => rfl) fun _ => .bind keeps_get fun _ => keeps_notify _

/-- Every basic part of a token leaves the options and the program as they are. -/
theorem keeping_basic {raises loops : Prop} {α : Type} {x : Step α}
    (hx : Basic raises loops α x) : Keeping x := by
  cases hx with
  | pushOn stack v => exact keeping_pushOn stack v
  | popFrom stack => exact keeping_popFrom stack
  | assign name v => exact .bind (keeps_notify _) fun _ => keeps_modify fun _ => rfl
  | raise allowed depth =>
    refine .bind keeps_get fun s => ?_
    split
    · exact keeps_modify fun _ => rfl
    · exact keeps_fail _
  | frames allowed f => exact keeps_modify fun _ => rfl

/-- A token leaves the options and the program as they are. -/
theorem keeping_execute (here : Nat) (token : Token) : Keeping (execute here token) :=
  (composed_execute here token).keeps fun _ _ hx => keeping_basic hx

/-- A step leaves the options and the program as they are. -/
theorem keeping_step : Keeping step := by
  refine .bind keeps_get fun s => ?_
  split
  · exact keeps_pure _
  · split
    · exact keeps_pure _
    · split
      · exact .bind (keeps_modify fun _ => rfl) fun _ => keeps_pure _
      · refine .bind (keeping_execute _ _) fun index => .bind (keeping_goTo index) fun _ => ?_
        exact keeps_pure _

/-- An input leaves the options and the program as they are. -/
theorem keeping_resume (input : Input) : Keeping (resume input) := by
  refine .bind keeps_get fun s => ?_
  split
  · refine .bind (keeps_modify fun _ => rfl) fun _ => ?_
    exact .bind (keeping_pushOn _ _) fun _ => keeping_goTo _
  · exact keeps_fail _

/-- What a load makes of a state: the program is replaced, or nothing is. -/
theorem load_eq (source : String) (s : State) :
    machine.load source s = match tokenize source.toList with
      | .ok program => ⟨.ok (), { s with program }, []⟩
      | .error bracket => ⟨.error (Trouble.unmatched bracket).upset, s, []⟩ := by
  change (load source s).mapError _ = _
  unfold load
  cases tokenize source.toList <;> rfl

/-- The token machine can be rewound: a reset clears both stacks, the variables and the loops, and a
source with a bracket that has no partner changes nothing. -/
theorem rewinds : machine.Rewinds id State.ready State.bare := fun s =>
  { reset_ok := rfl
    still_reset := rfl
    ready_reset := rfl
    ready_step := keeping_step s
    ready_resume := fun input => keeping_resume input s
    load_result := fun source => by
      rw [load_eq, load_eq]
      split <;> rfl
    ready_load := fun source hok => by
      rw [load_eq] at hok ⊢
      rw [load_eq]
      split at hok
      · rfl
      · cases hok
    load_refused := fun source upset herror => by
      rw [load_eq] at herror ⊢
      split at herror
      · cases herror
      · rfl
    bare_load := fun source => by
      rw [load_eq]
      split <;> rfl
    bare_ready := rfl }

/-- The variables that a reset forgets, and the rest of its effects. -/
theorem reset_effects (s : State) :
    (machine.reset s).effects =
      s.bindings.map (fun b => .notify (.binding b.1 .null)) ++
        (machine.reset s.ready).effects := by
  rfl

end Element

/-! ## The built-in machines -/

namespace Builtin

/-- The machine without its count of random directions, if it uses any. -/
def still : Builtin → Builtin
  | befunge s => befunge s.still
  | brainfuck s => brainfuck s
  | element s => element s
  | length s => length s

/-- The machine at the start of its program, with no random direction used. -/
def ready : Builtin → Builtin
  | befunge s => befunge s.ready
  | brainfuck s => brainfuck s.ready
  | element s => element s.ready
  | length s => length s.ready

/-- The machine as its options made it. -/
def bare : Builtin → Builtin
  | befunge s => befunge s.bare
  | brainfuck s => brainfuck s.bare
  | element s => element s.bare
  | length s => length s.bare

/-- The built-in machines can be rewound, each in its states. -/
theorem rewinds (draw : Nat → Befunge.Direction) : (machine draw).Rewinds still ready bare := by
  intro s
  cases s with
  | befunge s =>
    exact (mirrors_befunge draw).rewindsAt (fun _ => rfl) (fun _ => rfl) (fun _ => rfl)
      (Befunge.rewinds draw s)
  | brainfuck s =>
    exact (mirrors_brainfuck draw).rewindsAt (fun _ => rfl) (fun _ => rfl) (fun _ => rfl)
      (Brainfuck.rewinds s)
  | element s =>
    exact (mirrors_element draw).rewindsAt (fun _ => rfl) (fun _ => rfl) (fun _ => rfl)
      (Element.rewinds s)
  | length s =>
    exact (mirrors_length draw).rewindsAt (fun _ => rfl) (fun _ => rfl) (fun _ => rfl)
      (Length.rewinds s)

end Builtin

end EsotericHost
