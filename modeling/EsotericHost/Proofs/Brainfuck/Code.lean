import EsotericHost.Proofs.Brainfuck.Tree

/-!
# The code of a tree

Laid out as a row of instructions, a tree has its commands in the order of the source, and each
bracket has the index of its partner (`Tree.code`). This is what the scan makes of a source that
spells the tree (`Reads.ofSource`), and a source that spells none is refused, so that the sources
with a program are those with balanced brackets (`ofSource_isOk_iff`).
-/

namespace EsotericHost.Brainfuck

namespace Tree

/-- The number of instructions of a tree. -/
def size : Tree → Nat
  | done => 0
  | command _ _ rest => rest.size + 1
  | loop _ _ body rest => body.size + rest.size + 2

/-- The instructions of a tree whose first one has the given index. -/
def code : Nat → Tree → List Instruction
  | _, done => []
  | base, command position b rest => ⟨position, b.op⟩ :: rest.code (base + 1)
  | base, loop opened closed body rest =>
    ⟨opened, .opening (base + body.size + 1)⟩ ::
      (body.code (base + 1) ++ ⟨closed, .closing base⟩ :: rest.code (base + body.size + 2))

/-- The code of a tree has as many instructions as the tree. -/
@[simp] theorem length_code (base : Nat) (t : Tree) : (t.code base).length = t.size := by
  induction t generalizing base with
  | done => rfl
  | command position b rest ih => rw [code, List.length_cons, ih, size]
  | loop opened closed body rest ihbody ihrest =>
    rw [code, List.length_cons, List.length_append, List.length_cons, ihbody, ihrest, size]
    omega

end Tree

namespace Scan

variable {scan : Scan} {position : Nat} {cs : List Char} {instructions : List Instruction}

/-- Adds some instructions none of which waits for a partner. -/
def extend (scan : Scan) (instructions : List Instruction) : Scan where
  code := scan.code ++ instructions.toArray
  pending := scan.pending
  pending_lt bracket h := by
    have hlt := scan.pending_lt bracket h
    rw [Array.size_append]
    omega

/-- A scan that is extended has that many more instructions. -/
@[simp] theorem size_extend (scan : Scan) (instructions : List Instruction) :
    (scan.extend instructions).code.size = scan.code.size + instructions.length := by
  simp only [extend, Array.size_append, List.size_toArray]

/-- An opening bracket adds one instruction. -/
@[simp] theorem size_openBracket (scan : Scan) (position : Nat) :
    (scan.openBracket position).code.size = scan.code.size + 1 :=
  Array.size_push _

/-- A scan is what it has read and what waits for a partner. -/
theorem ext_of_code {scan scan' : Scan} (hcode : scan.code = scan'.code)
    (hpending : scan.pending = scan'.pending) : scan = scan' := by
  cases scan
  cases scan'
  cases hcode
  cases hpending
  rfl

/-- Nothing is added where no instruction is. -/
theorem extend_nil (scan : Scan) : scan.extend [] = scan :=
  ext_of_code (Array.append_empty) rfl

/-- Instructions that are added one list after the other might have been added at once. -/
theorem extend_extend (scan : Scan) (first second : List Instruction) :
    (scan.extend first).extend second = scan.extend (first ++ second) := by
  refine ext_of_code ?_ rfl
  unfold extend
  simp only [Array.append_assoc, List.append_toArray]

/-- To push a command is to extend the scan by its instruction alone. -/
theorem push_eq_extend (scan : Scan) (position : Nat) (op : Op) :
    scan.push position op = scan.extend [⟨position, op⟩] :=
  ext_of_code (Array.push_eq_append) rfl

/-- A character of a comment is passed over. -/
theorem read_of_comment {c : Char} (hc : isCommand c = false) :
    scan.read position (c :: cs) = scan.read (position + 1) cs := by
  obtain ⟨hopening, hclosing⟩ := ne_brackets_of_comment hc
  rw [read, next, if_neg hopening, if_neg hclosing, simpleOp?_of_comment hc]

/-- The character of a command adds its instruction. -/
theorem read_character (b : Basic) :
    scan.read position (b.character :: cs) =
      (scan.extend [⟨position, b.op⟩]).read (position + 1) cs := by
  rw [read, next, if_neg b.character_ne_opening, if_neg b.character_ne_closing,
    b.simpleOp?_character, ← push_eq_extend]

/-- An opening bracket is kept waiting for its partner. -/
theorem read_opening :
    scan.read position ('[' :: cs) = (scan.openBracket position).read (position + 1) cs := rfl

/-- A closing bracket is read on behind, if there is a partner for it. -/
theorem read_closing {scan' : Scan} (hclose : scan.closeBracket position = .ok scan') :
    scan.read position (']' :: cs) = scan'.read (position + 1) cs := by
  rw [read, next, if_neg (by decide), if_pos rfl, hclose]

/-- A closing bracket is the partner of one that waits for it. -/
theorem pending_of_closeBracket {scan' : Scan} (hclose : scan.closeBracket position = .ok scan') :
    scan.pending.length = scan'.pending.length + 1 := by
  unfold closeBracket at hclose
  split at hclose
  · cases hclose
  · rename_i hpending
    cases hclose
    exact congrArg List.length hpending

/-- An opening bracket that meets its partner gets the index of it. -/
theorem closeBracket_extend_openBracket (opened closed : Nat) :
    ((scan.openBracket opened).extend instructions).closeBracket closed =
      .ok (scan.extend (⟨opened, .opening (scan.code.size + instructions.length + 1)⟩ ::
        (instructions ++ [⟨closed, .closing scan.code.size⟩]))) := by
  refine congrArg Except.ok (ext_of_code (Array.ext' ?_) rfl)
  -- The bracket stands behind what was read before it, so that it alone is replaced.
  simp only [extend, openBracket, Array.toList_push, Array.toList_set, Array.toList_append,
    Array.size_append, Array.size_push, List.size_toArray, List.append_assoc, List.cons_append,
    List.nil_append]
  rw [List.set_append_right _ _ (Nat.le_of_eq Array.length_toList), Array.length_toList,
    Nat.sub_self, List.set_cons_zero]
  simp only [List.append_assoc, List.cons_append, Nat.add_right_comm]

end Scan

/-- The scan of a text that begins with a row goes on behind the code of its tree. -/
theorem Reads.read_append {n : Nat} {cs : List Char} {t : Tree} (ht : Reads n cs t) (scan : Scan)
    (rest : List Char) : scan.read n (cs ++ rest) =
      (scan.extend (t.code scan.code.size)).read (n + cs.length) rest := by
  induction ht generalizing scan rest with
  | done => rw [Tree.code, Scan.extend_nil]; rfl
  | comment hc _ ih =>
    rw [List.cons_append, Scan.read_of_comment hc, ih, List.length_cons]
    congr 1
    omega
  | command b _ ih =>
    rw [List.cons_append, Scan.read_character, ih, Scan.extend_extend, Tree.code, List.length_cons,
      Scan.size_extend]
    congr 1
    omega
  | @loop n inner cs body t inside _ ihbody ihrest =>
    -- The body is read behind the opening bracket, and the rest behind the closing one.
    rw [List.cons_append, List.append_assoc, List.cons_append, Scan.read_opening, ihbody,
      Scan.read_closing (Scan.closeBracket_extend_openBracket _ _)]
    have hclosed : n + 1 + inner.length = n + inner.length + 1 := by omega
    rw [hclosed, ihrest, Scan.extend_extend]
    simp only [Scan.size_extend, Scan.size_openBracket, Tree.code, Tree.length_code,
      List.length_cons, List.length_append, List.length_nil, List.cons_append, List.append_assoc,
      List.nil_append]
    have hbehind : scan.code.size + (body.size + (0 + 1) + 1) = scan.code.size + body.size + 2 := by
      omega
    have hend : n + inner.length + 2 + cs.length = n + (inner.length + (cs.length + 1) + 1) := by
      omega
    rw [hbehind, hend]

/-- The program of a source that spells a tree is the code of the tree. -/
theorem Reads.ofSource {source : String} {t : Tree} (ht : Reads 0 source.toList t) :
    Program.ofSource source = .ok ⟨(t.code 0).toArray, source.toList.length⟩ := by
  have hread : Scan.start.read 0 source.toList = .ok (t.code 0).toArray := by
    have happend := ht.read_append .start []
    rw [List.append_nil] at happend
    rw [happend]
    change Except.ok (#[] ++ (t.code 0).toArray) = _
    rw [Array.empty_append]
  unfold Program.ofSource
  dsimp only
  rw [hread]
  rfl

/-- A text that is read to its end closes the brackets that were open before it. -/
theorem balancedFrom_of_read {scan : Scan} {n : Nat} {cs : List Char} {code : Array Instruction}
    (hread : scan.read n cs = .ok code) : BalancedFrom scan.pending.length cs := by
  induction cs generalizing scan n with
  | nil =>
    rw [Scan.read] at hread
    split at hread
    · rename_i hpending
      rw [hpending]
      exact balancedFrom_nil.mpr rfl
    · cases hread
  | cons c cs ih =>
    rcases character_cases c with ⟨b, rfl⟩ | rfl | rfl | hc
    · rw [Scan.read_character] at hread
      have hrest := ih hread
      exact (balancedFrom_other b.character_ne_opening b.character_ne_closing).mpr hrest
    · rw [Scan.read_opening] at hread
      have hrest := ih hread
      exact balancedFrom_opening.mpr hrest
    · cases hclose : scan.closeBracket n with
      | error unmatched =>
        rw [Scan.read, Scan.next, if_neg (by decide), if_pos rfl, hclose] at hread
        cases hread
      | ok scan' =>
        rw [Scan.read_closing hclose] at hread
        rw [Scan.pending_of_closeBracket hclose]
        exact balancedFrom_closing.mpr (ih hread)
    · obtain ⟨hopening, hclosing⟩ := ne_brackets_of_comment hc
      rw [Scan.read_of_comment hc] at hread
      exact (balancedFrom_other hopening hclosing).mpr (ih hread)

/-- The sources that have a program are those whose brackets are balanced. -/
theorem ofSource_ok_iff {source : String} :
    (∃ program, Program.ofSource source = .ok program) ↔ Balanced source.toList := by
  constructor
  · rintro ⟨program, hprogram⟩
    unfold Program.ofSource at hprogram
    cases hread : Scan.start.read 0 source.toList with
    | error unmatched =>
      simp only [hread] at hprogram
      cases hprogram
    | ok code => exact balancedFrom_zero.mp (balancedFrom_of_read hread)
  · intro h
    obtain ⟨t, ht⟩ := balanced_iff_reads.mp h
    exact ⟨_, ht.ofSource⟩

end EsotericHost.Brainfuck
