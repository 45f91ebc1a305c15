import EsotericHost.Brainfuck.Machine
import EsotericHost.Proofs.Brainfuck.Code
import EsotericHost.Proofs.Machine.Code
import EsotericHost.Proofs.Machine.Composition

/-!
# What a bracket tree does

The meaning of a tape program that is read as a tree: `[B]` does `B` while the current cell is not
zero. `Evaluates` says how a tree ends and what it leaves of a tape, a data pointer, the inputs that
it may ask for and the text that it prints; it knows neither an index nor a jump. A tree for which
it says nothing runs forever.

The code of the tree is followed by its index instead (`advance`, `Arrives`). At a bracket the code
looks at the current cell, and a closing bracket goes where its partner would go
(`advance_closing`), so that the code ends as the tree does (`evaluates_iff_arrives`).
-/

namespace EsotericHost.Brainfuck

/-- What a program works on. -/
structure World where
  tape : Array Int
  pointer : Nat
  /-- The inputs that the program has not asked for yet. -/
  inputs : List Input
  printed : String
  deriving DecidableEq

namespace World

/-- A reel of zeros with the pointer on its first cell. -/
def start (reelLength : Nat) (inputs : List Input) : World :=
  ⟨Array.replicate reelLength 0, 0, inputs, ""⟩

/-- The number in the current cell. -/
def cell (w : World) : Int := w.tape[w.pointer]?.getD 0

/-- Stores a value, wrapped, in the current cell. -/
def store (t : CellType) (value : Int) (w : World) : World :=
  { w with tape := w.tape.setIfInBounds w.pointer (t.wrap value) }

end World

/-- How a program ends: at its end, at a command that would take the pointer off the reel, or at one
that asks for an input when there is none. -/
inductive Verdict where
  | ended
  | pastEnd (position : Nat)
  | beforeStart (position : Nat)
  | starved
  deriving Repr, DecidableEq

/-- What the machine answers when a program ends. -/
def Verdict.answer (reelLength : Nat) : Verdict → Except Upset Outcome
  | ended => .ok .halted
  | pastEnd position => .error (Trouble.pastEnd reelLength position).upset
  | beforeStart position => .error (Trouble.beforeStart position).upset
  | starved => .ok (.suspended .byte)

/-- What a command at a place in the source does, or how the program ends there. -/
def Basic.effect (t : CellType) (position : Nat) (w : World) : Basic → Except Verdict World
  | right =>
    if w.pointer + 1 < w.tape.size then .ok { w with pointer := w.pointer + 1 }
    else .error (.pastEnd position)
  | left =>
    if 0 < w.pointer then .ok { w with pointer := w.pointer - 1 }
    else .error (.beforeStart position)
  | increment => .ok (w.store t (w.cell + 1))
  | decrement => .ok (w.store t (w.cell - 1))
  | output => .ok { w with printed := w.printed ++ Text.single (Text.charOfCode w.cell) }
  | input =>
    match w.inputs with
    | [] => .error .starved
    | value :: inputs => .ok { w.store t (inputValue value) with inputs }

/-- A command is not the end of a program. -/
theorem Basic.effect_ne_ended {t : CellType} {position : Nat} {w : World} {v : Verdict} {b : Basic}
    (hv : b.effect t position w = .error v) : v ≠ .ended := by
  cases b with
  | increment => cases hv
  | decrement => cases hv
  | output => cases hv
  | right =>
    rw [effect] at hv
    split at hv
    · cases hv
    · cases hv
      exact Verdict.noConfusion
  | left =>
    rw [effect] at hv
    split at hv
    · cases hv
    · cases hv
      exact Verdict.noConfusion
  | input =>
    rw [effect] at hv
    split at hv
    · cases hv
      exact Verdict.noConfusion
    · cases hv

/-- How a tree ends that is evaluated in a world, and the world that it leaves. -/
inductive Evaluates (t : CellType) : Tree → World → Verdict → World → Prop where
  | done {w : World} : Evaluates t .done w .ended w
  | command {position : Nat} {b : Basic} {rest : Tree} {w w' w'' : World} {v : Verdict}
    (does : b.effect t position w = .ok w') (after : Evaluates t rest w' v w'') :
    Evaluates t (.command position b rest) w v w''
  | stuck {position : Nat} {b : Basic} {rest : Tree} {w : World} {v : Verdict}
    (ends : b.effect t position w = .error v) : Evaluates t (.command position b rest) w v w
  | skip {opened closed : Nat} {body rest : Tree} {w w' : World} {v : Verdict} (zero : w.cell = 0)
    (after : Evaluates t rest w v w') : Evaluates t (.loop opened closed body rest) w v w'
  | again {opened closed : Nat} {body rest : Tree} {w w' w'' : World} {v : Verdict}
    (nonzero : w.cell ≠ 0) (inside : Evaluates t body w .ended w')
    (after : Evaluates t (.loop opened closed body rest) w' v w'') :
    Evaluates t (.loop opened closed body rest) w v w''
  | broken {opened closed : Nat} {body rest : Tree} {w w' : World} {v : Verdict}
    (nonzero : w.cell ≠ 0) (inside : Evaluates t body w v w') (ends : v ≠ .ended) :
    Evaluates t (.loop opened closed body rest) w v w'

/-! ## The code -/

/-- What the instruction with an index does: the index of the next one and the world for it, or how
the program ends. -/
def advance (t : CellType) (code : List Instruction) (i : Nat) (w : World) :
    Except Verdict (Nat × World) :=
  match code[i]? with
  | none => .error .ended
  | some ⟨position, op⟩ =>
    match op with
    | .right => go position .right
    | .left => go position .left
    | .increment => go position .increment
    | .decrement => go position .decrement
    | .output => go position .output
    | .input => go position .input
    | .opening close => .ok (if w.cell = 0 then close + 1 else i + 1, w)
    | .closing start => .ok (if w.cell = 0 then i + 1 else start + 1, w)
where
  /-- A command that is no bracket goes on to the next instruction. -/
  go (position : Nat) (b : Basic) : Except Verdict (Nat × World) :=
    (b.effect t position w).map fun w => (i + 1, w)

/-- How the code ends that is followed from an index, after some number of instructions. -/
inductive Arrives (t : CellType) (code : List Instruction) :
    Nat → Nat → World → Verdict → World → Prop where
  | stop {i : Nat} {w : World} {v : Verdict} (ends : advance t code i w = .error v) :
    Arrives t code 0 i w v w
  | next {n i j : Nat} {w w' w'' : World} {v : Verdict}
    (goes : advance t code i w = .ok (j, w')) (rest : Arrives t code n j w' v w'') :
    Arrives t code (n + 1) i w v w''

variable {t : CellType} {code : List Instruction} {n i j : Nat} {w w' w'' : World} {v v' : Verdict}

/-- Where there is no instruction the program is at its end. -/
theorem advance_end (hi : code[i]? = none) : advance t code i w = .error .ended := by
  rw [advance, hi]

/-- A command does what its effect says, and goes on behind itself. -/
theorem advance_command {position : Nat} {b : Basic} (hi : code[i]? = some ⟨position, b.op⟩) :
    advance t code i w = (b.effect t position w).map fun w => (i + 1, w) := by
  rw [advance, hi]
  cases b <;> rfl

/-- An opening bracket goes on to its body, or behind its partner if the cell holds zero. -/
theorem advance_opening {position close : Nat} (hi : code[i]? = some ⟨position, .opening close⟩) :
    advance t code i w = .ok (if w.cell = 0 then close + 1 else i + 1, w) := by
  rw [advance, hi]

/-- A closing bracket goes where its partner would go. -/
theorem advance_closing {opened closed : Nat} (hi : code[i]? = some ⟨opened, .opening j⟩)
    (hj : code[j]? = some ⟨closed, .closing i⟩) : advance t code j w = advance t code i w := by
  rw [advance_opening hi, advance, hj]

/-- The three kinds of instructions. -/
theorem op_cases (op : Op) :
    (∃ b : Basic, op = b.op) ∨ (∃ close, op = .opening close) ∨ ∃ start, op = .closing start := by
  cases op with
  | right => exact .inl ⟨.right, rfl⟩
  | left => exact .inl ⟨.left, rfl⟩
  | increment => exact .inl ⟨.increment, rfl⟩
  | decrement => exact .inl ⟨.decrement, rfl⟩
  | output => exact .inl ⟨.output, rfl⟩
  | input => exact .inl ⟨.input, rfl⟩
  | opening close => exact .inr (.inl ⟨close, rfl⟩)
  | closing start => exact .inr (.inr ⟨start, rfl⟩)

/-- The code goes on from a command to the next instruction, and from a bracket by the current cell,
which changes nothing in the world. -/
theorem advance_eq_ok (ha : advance t code i w = .ok (j, w')) :
    (∃ position b, code[i]? = some ⟨position, Basic.op b⟩ ∧ b.effect t position w = .ok w' ∧
      j = i + 1) ∨
    (∃ position close, code[i]? = some ⟨position, .opening close⟩ ∧
      j = (if w.cell = 0 then close + 1 else i + 1) ∧ w' = w) ∨
    ∃ position start, code[i]? = some ⟨position, .closing start⟩ ∧
      j = (if w.cell = 0 then i + 1 else start + 1) ∧ w' = w := by
  cases hcode : code[i]? with
  | none => exact nomatch (advance_end hcode).symm.trans ha
  | some instruction =>
    obtain ⟨position, op⟩ := instruction
    rcases op_cases op with ⟨b, rfl⟩ | ⟨close, rfl⟩ | ⟨start, rfl⟩
    · rw [advance_command hcode] at ha
      obtain ⟨w₁, he, hnext⟩ := exists_of_map_eq_ok ha
      cases hnext
      exact .inl ⟨position, b, rfl, he, rfl⟩
    · rw [advance_opening hcode] at ha
      cases ha
      exact .inr (.inl ⟨position, close, rfl, rfl, rfl⟩)
    · rw [advance, hcode] at ha
      cases ha
      exact .inr (.inr ⟨position, start, rfl, rfl, rfl⟩)

/-- The code ends behind its last instruction, or at a command that does not go on. -/
theorem advance_eq_error (ha : advance t code i w = .error v) :
    (code[i]? = none ∧ v = .ended) ∨
    ∃ position b, code[i]? = some ⟨position, Basic.op b⟩ ∧ b.effect t position w = .error v := by
  cases hcode : code[i]? with
  | none =>
    rw [advance_end hcode] at ha
    cases ha
    exact .inl ⟨rfl, rfl⟩
  | some instruction =>
    obtain ⟨position, op⟩ := instruction
    rcases op_cases op with ⟨b, rfl⟩ | ⟨close, rfl⟩ | ⟨start, rfl⟩
    · refine .inr ⟨position, b, rfl, ?_⟩
      rw [advance_command hcode] at ha
      exact eq_error_of_map ha
    · rw [advance_opening hcode] at ha
      cases ha
    · rw [advance, hcode] at ha
      cases ha

/-- Code that ends at its first instruction has gone through none before. -/
theorem Arrives.of_error (h : Arrives t code n i w v w') (hi : advance t code i w = .error v') :
    n = 0 ∧ v = v' ∧ w' = w := by
  cases h with
  | stop ends => exact ⟨rfl, Except.error.inj (ends.symm.trans hi), rfl⟩
  | next goes rest => exact nomatch goes.symm.trans hi

/-- Code that goes on from its first instruction ends as it does from there, with one instruction
less. -/
theorem Arrives.of_ok (h : Arrives t code n i w v w') (hi : advance t code i w = .ok (j, w'')) :
    ∃ m, n = m + 1 ∧ Arrives t code m j w'' v w' := by
  cases h with
  | stop ends => exact nomatch ends.symm.trans hi
  | next goes rest =>
    cases goes.symm.trans hi
    exact ⟨_, rfl, rest⟩

/-- The code ends as it does from an instruction that does the same. -/
theorem Arrives.congr (h : Arrives t code n i w v w')
    (hsame : advance t code j w = advance t code i w) : Arrives t code n j w v w' := by
  cases h with
  | stop ends => exact .stop (hsame.trans ends)
  | next goes rest => exact .next (hsame.trans goes) rest

/-! ## The code of a tree -/

/-- The code holds the code of the tree from an index on. -/
def Tree.At (code : List Instruction) (base : Nat) (tree : Tree) : Prop :=
  tree.code base <+: code.drop base

/-- The code of a row that begins with a command has it first, and behind it that of the rest. -/
theorem Tree.At.command {base position : Nat} {b : Basic} {rest : Tree}
    (h : (Tree.command position b rest).At code base) :
    code[base]? = some ⟨position, b.op⟩ ∧ rest.At code (base + 1) :=
  prefix_drop_cons h

/-- The code of a row that begins with a loop has the two brackets, the body between them and the
rest behind. -/
theorem Tree.At.loop {base opened closed : Nat} {body rest : Tree}
    (h : (Tree.loop opened closed body rest).At code base) :
    code[base]? = some ⟨opened, .opening (base + body.size + 1)⟩ ∧ body.At code (base + 1) ∧
      code[base + body.size + 1]? = some ⟨closed, .closing base⟩ ∧
      rest.At code (base + body.size + 2) := by
  obtain ⟨hopening, hinside⟩ := prefix_drop_cons h
  obtain ⟨hbody, hclosing⟩ := prefix_drop_append hinside
  have hplace : base + 1 + (body.code (base + 1)).length = base + body.size + 1 := by
    rw [Tree.length_code]
    omega
  rw [hplace] at hclosing
  obtain ⟨hpartner, hrest⟩ := prefix_drop_cons hclosing
  exact ⟨hopening, hbody, hpartner, hrest⟩

/-- What comes of the code after a tree in it has ended in a world: the code goes on behind a tree
that has come to its end, and any other ending of the tree is one of the whole. -/
def Onward (t : CellType) (code : List Instruction) (n behind : Nat) (v : Verdict) (w : World)
    (v' : Verdict) (w' : World) : Prop :=
  (v = .ended ∧ Arrives t code n behind w v' w') ∨ (v ≠ .ended ∧ v' = v ∧ w' = w)

/-- A tree that is evaluated takes its code to where it ends. -/
theorem Evaluates.arrives {tree : Tree} {base : Nat} (he : Evaluates t tree w v w')
    (hat : tree.At code base) (ho : Onward t code n (base + tree.size) v w' v' w'') :
    ∃ n, Arrives t code n base w v' w'' := by
  induction he generalizing base n v' w'' with
  | done =>
    rcases ho with ⟨-, h⟩ | ⟨hne, -⟩
    · exact ⟨n, h⟩
    · exact absurd rfl hne
  | @command position b rest w w₁ w₂ v does after ih =>
    obtain ⟨hcode, hrest⟩ := hat.command
    have hbehind : base + (Tree.command position b rest).size = base + 1 + rest.size := by
      rw [Tree.size]
      omega
    rw [hbehind] at ho
    obtain ⟨n, h⟩ := ih hrest ho
    refine ⟨n + 1, .next ?_ h⟩
    rw [advance_command hcode, does]
    rfl
  | stuck ends =>
    obtain ⟨hcode, -⟩ := hat.command
    rcases ho with ⟨rfl, -⟩ | ⟨-, rfl, rfl⟩
    · exact absurd rfl (Basic.effect_ne_ended ends)
    · refine ⟨0, .stop ?_⟩
      rw [advance_command hcode, ends]
      rfl
  | @skip opened closed body rest w w₁ v zero after ih =>
    obtain ⟨hopening, -, -, hrest⟩ := hat.loop
    have hbehind : base + (Tree.loop opened closed body rest).size =
        base + body.size + 2 + rest.size := by
      rw [Tree.size]
      omega
    rw [hbehind] at ho
    obtain ⟨n, h⟩ := ih hrest ho
    refine ⟨n + 1, .next ?_ h⟩
    rw [advance_opening hopening, if_pos zero]
  | @again opened closed body rest w w₁ w₂ v nonzero inside after ihinside ihafter =>
    obtain ⟨hopening, hbody, hclosing, -⟩ := hat.loop
    -- From the closing bracket on, the code ends as it does from the opening one.
    obtain ⟨n, h⟩ := ihafter hat ho
    have hback := h.congr (advance_closing hopening hclosing)
    have hbehind : base + body.size + 1 = base + 1 + body.size := by omega
    rw [hbehind] at hback
    obtain ⟨m, hm⟩ := ihinside hbody (.inl ⟨rfl, hback⟩)
    refine ⟨m + 1, .next ?_ hm⟩
    rw [advance_opening hopening, if_neg nonzero]
  | @broken opened closed body rest w w₁ v nonzero inside ends ih =>
    obtain ⟨hopening, hbody, -, -⟩ := hat.loop
    rcases ho with ⟨rfl, -⟩ | hother
    · exact absurd rfl ends
    · obtain ⟨m, hm⟩ := ih (n := 0) hbody (.inr hother)
      refine ⟨m + 1, .next ?_ hm⟩
      rw [advance_opening hopening, if_neg nonzero]

/-- The code of a tree ends as the tree that is evaluated, and then goes on behind it. -/
theorem Arrives.evaluates {tree : Tree} {base : Nat} (h : Arrives t code n base w v' w'')
    (hat : tree.At code base) : ∃ v w' m, m ≤ n ∧ Evaluates t tree w v w' ∧
      Onward t code m (base + tree.size) v w' v' w'' := by
  -- Every round of a loop takes an instruction at least, so the induction is on their number.
  induction n using Nat.strong_induction_on generalizing tree base w with
  | _ n ih =>
    cases tree with
    | done => exact ⟨.ended, w, n, Nat.le_refl n, .done, .inl ⟨rfl, h⟩⟩
    | command position b rest =>
      obtain ⟨hcode, hrest⟩ := hat.command
      cases hb : b.effect t position w with
      | error v =>
        have hstop : advance t code base w = .error v := by
          rw [advance_command hcode, hb]
          rfl
        obtain ⟨-, rfl, rfl⟩ := h.of_error hstop
        exact ⟨v', w'', 0, Nat.zero_le n, .stuck hb, .inr ⟨Basic.effect_ne_ended hb, rfl, rfl⟩⟩
      | ok w₁ =>
        have hgoes : advance t code base w = .ok (base + 1, w₁) := by
          rw [advance_command hcode, hb]
          rfl
        obtain ⟨k, rfl, hk⟩ := h.of_ok hgoes
        obtain ⟨v, w', m, hm, he, ho⟩ := ih k (Nat.lt_succ_self k) hk hrest
        refine ⟨v, w', m, Nat.le_succ_of_le hm, .command hb he, ?_⟩
        rwa [Tree.size, Nat.add_comm rest.size, ← Nat.add_assoc]
    | loop opened closed body rest =>
      obtain ⟨hopening, hbody, hclosing, hrest⟩ := hat.loop
      have hfirst := advance_opening (t := t) (w := w) hopening
      obtain ⟨k, rfl, hk⟩ := h.of_ok hfirst
      by_cases hz : w.cell = 0
      · rw [if_pos hz] at hk
        obtain ⟨v, w', m, hm, he, ho⟩ := ih k (Nat.lt_succ_self k) hk hrest
        refine ⟨v, w', m, Nat.le_succ_of_le hm, .skip hz he, ?_⟩
        have hbehind : base + (Tree.loop opened closed body rest).size =
            base + body.size + 2 + rest.size := by
          rw [Tree.size]
          omega
        rwa [hbehind]
      · rw [if_neg hz] at hk
        obtain ⟨v, w', m, hm, he, ho⟩ := ih k (Nat.lt_succ_self k) hk hbody
        rcases ho with ⟨rfl, hback⟩ | ⟨hne, rfl, rfl⟩
        · -- The body is at its end, and so the code goes on as from the opening bracket.
          have hbehind : base + 1 + body.size = base + body.size + 1 := by omega
          rw [hbehind] at hback
          have hround := hback.congr (advance_closing hopening hclosing).symm
          obtain ⟨v, w', l, hl, hagain, ho⟩ := ih m (by omega) hround hat
          exact ⟨v, w', l, by omega, .again hz he hagain, ho⟩
        · exact ⟨v', w'', 0, Nat.zero_le _, .broken hz he hne, .inr ⟨hne, rfl, rfl⟩⟩

/-- The code of a tree, followed from its first instruction, ends as the tree does. -/
theorem evaluates_iff_arrives {tree : Tree} :
    Evaluates t tree w v w' ↔ ∃ n, Arrives t (tree.code 0) n 0 w v w' := by
  have hat : tree.At (tree.code 0) 0 := by
    unfold Tree.At
    rw [List.drop_zero]
  have hend : ∀ w, advance t (tree.code 0) (0 + tree.size) w = .error .ended := by
    intro w
    refine advance_end (List.getElem?_eq_none ?_)
    rw [Tree.length_code, Nat.zero_add]
  constructor
  · intro he
    by_cases hv : v = .ended
    · subst hv
      exact he.arrives hat (.inl ⟨rfl, .stop (hend w')⟩)
    · exact he.arrives (n := 0) hat (.inr ⟨hv, rfl, rfl⟩)
  · rintro ⟨n, h⟩
    obtain ⟨v₁, w₁, m, -, he, ho⟩ := h.evaluates hat
    rcases ho with ⟨rfl, hbehind⟩ | ⟨-, rfl, rfl⟩
    · obtain ⟨-, rfl, rfl⟩ := hbehind.of_error (hend w₁)
      exact he
    · exact he

end EsotericHost.Brainfuck
