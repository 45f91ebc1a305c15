import EsotericHost.Proofs.Element.Code
import Mathlib.Data.List.Pairwise

/-!
# Partners

The loops of a tree are pairs of tokens: the one that opens the loop and the one that closes it
(`Tree.pairs`). The brackets among the tokens are those of the pairs, and point to their partners
(`Tree.closing_iff`, `Tree.counting_iff`, `Tree.testing_iff`). Two pairs lie one behind the other or
one inside the other (`Tree.pairs_apart`).
-/

namespace EsotericHost.Element

/-- A loop, by the indices of the tokens that open and close it. -/
structure Pair where
  kind : Loop
  start : Nat
  close : Nat
  deriving Repr, DecidableEq

/-- Two loops that share no token, or of which one is inside the other. -/
def Pair.Apart (p q : Pair) : Prop :=
  p.close < q.start ∨ q.close < p.start ∨ (p.start < q.start ∧ q.close < p.close) ∨
    (q.start < p.start ∧ p.close < q.close)

instance : Std.Symm Pair.Apart where
  symm p q h := by
    unfold Pair.Apart at h ⊢
    omega

namespace Tree

/-- The loops of a tree whose first token has the given index, in the order in which they are
opened. -/
def pairs : Nat → Tree → List Pair
  | _, done => []
  | base, plain _ _ rest => rest.pairs (base + 1)
  | base, loop kind _ _ body rest =>
    ⟨kind, base, base + body.size + 1⟩ ::
      (body.pairs (base + 1) ++ rest.pairs (base + body.size + 2))

/-- What the tokens of a tree do, each with its index. -/
def marks (base : Nat) (t : Tree) : List (Op × Nat) := ((t.code base).map (·.op)).zipIdx base

variable {base i j n opened closed : Nat} {op : Op} {p : Plain} {kind : Loop} {body rest t : Tree}
  {pair pair' : Pair}

/-- The tokens of a row are its first one and those behind it. -/
theorem mem_marks_plain : (op, i) ∈ (plain n p rest).marks base ↔
    (op = p.op ∧ i = base) ∨ (op, i) ∈ rest.marks (base + 1) := by
  rw [marks, code, List.map_cons, List.zipIdx_cons, List.mem_cons, Prod.mk.injEq]
  rfl

/-- The tokens of a loop are its two brackets, those of its body and those behind it. -/
theorem mem_marks_loop : (op, i) ∈ (loop kind opened closed body rest).marks base ↔
    (op = kind.openOp (base + body.size + 1) ∧ i = base) ∨ (op, i) ∈ body.marks (base + 1) ∨
      (op = kind.closeOp base ∧ i = base + body.size + 1) ∨
        (op, i) ∈ rest.marks (base + body.size + 2) := by
  have hclose : base + 1 + body.size = base + body.size + 1 := by omega
  have hbehind : base + body.size + 1 + 1 = base + body.size + 2 := by omega
  rw [marks, code, List.map_cons, List.map_append, List.map_cons, List.zipIdx_cons,
    List.zipIdx_append, List.zipIdx_cons, List.length_map, length_code, hclose, hbehind,
    List.mem_cons, List.mem_append, List.mem_cons, Prod.mk.injEq, Prod.mk.injEq]
  rfl

/-- The loops of a row that begins with one are that loop, those in its body and those behind it. -/
theorem mem_pairs_loop : pair ∈ (loop kind opened closed body rest).pairs base ↔
    pair = ⟨kind, base, base + body.size + 1⟩ ∨ pair ∈ body.pairs (base + 1) ∨
      pair ∈ rest.pairs (base + body.size + 2) := by
  rw [pairs, List.mem_cons, List.mem_append]

/-! ## Brackets -/

/-- The tokens that close a loop are those of the pairs, and know the partner. -/
theorem closing_iff (kind : Loop) :
    (kind.closeOp i, j) ∈ t.marks base ↔ ⟨kind, i, j⟩ ∈ t.pairs base := by
  induction t generalizing base with
  | done => exact ⟨fun h => (nomatch h), fun h => (nomatch h)⟩
  | plain n p rest ih =>
    have hplain : kind.closeOp i ≠ p.op := by
      cases kind <;> cases p <;> exact Op.noConfusion
    rw [mem_marks_plain, ih, pairs]
    exact or_iff_right fun h => hplain h.1
  | loop kind' opened closed body rest ihbody ihrest =>
    have hopen (close : Nat) : kind.closeOp i ≠ kind'.openOp close := by
      cases kind <;> cases kind' <;> exact Op.noConfusion
    have hclose (start : Nat) : kind.closeOp i = kind'.closeOp start ↔ kind = kind' ∧ i = start := by
      cases kind <;> cases kind' <;> simp [Loop.closeOp]
    rw [mem_marks_loop, mem_pairs_loop, ihbody, ihrest, hclose, Pair.mk.injEq, and_assoc]
    rw [or_iff_right fun h => hopen _ h.1]
    exact or_left_comm

/-- A token that opens a loop is one of a pair, and does what the kind of the loop asks. -/
theorem opening_iff (hplain : ∀ p : Plain, op ≠ p.op)
    (hclose : ∀ (kind : Loop) (start : Nat), op ≠ kind.closeOp start) :
    (op, i) ∈ t.marks base ↔
      ∃ (kind : Loop) (j : Nat), op = kind.openOp j ∧ ⟨kind, i, j⟩ ∈ t.pairs base := by
  induction t generalizing base with
  | done => exact ⟨fun h => (nomatch h), fun ⟨_, _, _, h⟩ => (nomatch h)⟩
  | plain n p rest ih =>
    rw [mem_marks_plain, ih]
    exact or_iff_right fun h => hplain p h.1
  | loop kind opened closed body rest ihbody ihrest =>
    rw [mem_marks_loop, ihbody, ihrest]
    constructor
    · rintro (⟨rfl, rfl⟩ | ⟨kind', j, rfl, h⟩ | ⟨h, -⟩ | ⟨kind', j, rfl, h⟩)
      · exact ⟨kind, _, rfl, mem_pairs_loop.mpr (.inl rfl)⟩
      · exact ⟨kind', j, rfl, mem_pairs_loop.mpr (.inr (.inl h))⟩
      · exact absurd h (hclose kind _)
      · exact ⟨kind', j, rfl, mem_pairs_loop.mpr (.inr (.inr h))⟩
    · rintro ⟨kind', j, rfl, h⟩
      rcases mem_pairs_loop.mp h with h | h | h
      · obtain ⟨rfl, rfl, rfl⟩ := Pair.mk.inj h
        exact .inl ⟨rfl, rfl⟩
      · exact .inr (.inl ⟨kind', j, rfl, h⟩)
      · exact .inr (.inr (.inr ⟨kind', j, rfl, h⟩))

/-- The token that opens a counted loop knows its partner. -/
theorem counting_iff {close : Option Nat} :
    (.repeatStart close, i) ∈ t.marks base ↔
      ∃ j, close = some j ∧ ⟨.counted, i, j⟩ ∈ t.pairs base := by
  have hplain (p : Plain) : Op.repeatStart close ≠ p.op := by
    cases p <;> exact Op.noConfusion
  have hclose (kind : Loop) (start : Nat) : Op.repeatStart close ≠ kind.closeOp start := by
    cases kind <;> exact Op.noConfusion
  rw [opening_iff hplain hclose]
  constructor
  · rintro ⟨kind, j, hop, h⟩
    cases kind with
    | counted => exact ⟨j, Op.repeatStart.inj hop, h⟩
    | conditional => cases hop
  · rintro ⟨j, rfl, h⟩
    exact ⟨.counted, j, rfl, h⟩

/-- The token that opens a conditional loop has a partner. -/
theorem testing_iff :
    (.whileStart, i) ∈ t.marks base ↔ ∃ j, ⟨.conditional, i, j⟩ ∈ t.pairs base := by
  have hplain (p : Plain) : Op.whileStart ≠ p.op := by
    cases p <;> exact Op.noConfusion
  have hclose (kind : Loop) (start : Nat) : Op.whileStart ≠ kind.closeOp start := by
    cases kind <;> exact Op.noConfusion
  rw [opening_iff hplain hclose]
  constructor
  · rintro ⟨kind, j, hop, h⟩
    cases kind with
    | counted => cases hop
    | conditional => exact ⟨j, h⟩
  · rintro ⟨j, h⟩
    exact ⟨.conditional, j, rfl, h⟩

/-! ## Pairs -/

/-- A loop is closed after it is opened, and both within the tree. -/
theorem bounds_of_mem_pairs (h : pair ∈ t.pairs base) :
    base ≤ pair.start ∧ pair.start < pair.close ∧ pair.close < base + t.size := by
  induction t generalizing base with
  | done => cases h
  | plain n p rest ih =>
    have hrest := ih h
    rw [size]
    omega
  | loop kind opened closed body rest ihbody ihrest =>
    rw [size]
    rcases mem_pairs_loop.mp h with rfl | h | h
    · dsimp only
      omega
    · have hbody := ihbody h
      omega
    · have hrest := ihrest h
      omega

/-- Of the loops of a tree, any two are one behind the other or one inside the other. -/
theorem pairs_apart (base : Nat) (t : Tree) : (t.pairs base).Pairwise Pair.Apart := by
  induction t generalizing base with
  | done => exact .nil
  | plain n p rest ih => exact ih (base + 1)
  | loop kind opened closed body rest ihbody ihrest =>
    rw [pairs, List.pairwise_cons, List.pairwise_append]
    refine ⟨fun pair h => ?_, ihbody _, ihrest _, fun pair h pair' h' => ?_⟩
    · unfold Pair.Apart
      rcases List.mem_append.mp h with h | h
      · have hbody := bounds_of_mem_pairs h
        dsimp only
        omega
      · have hrest := bounds_of_mem_pairs h
        dsimp only
        omega
    · have hbody := bounds_of_mem_pairs h
      have hrest := bounds_of_mem_pairs h'
      unfold Pair.Apart
      omega

end Tree

end EsotericHost.Element
