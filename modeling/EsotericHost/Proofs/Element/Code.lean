import EsotericHost.Proofs.Element.Tree

/-!
# The code of a token tree

Laid out as a row of tokens, a tree has its words and commands in the order of the source, and a
bracket has the index of its partner where it needs it (`Tree.code`). This is what the reader of
tokens makes of a source that spells the tree (`Reads.tokenize`), and every source that it accepts
spells one (`tokenize_ok_iff`).
-/

namespace EsotericHost.Element

/-- What the bracket does that opens a loop whose closing one has the given index. -/
def Loop.openOp (close : Nat) : Loop → Op
  | counted => .repeatStart (some close)
  | conditional => .whileStart

/-- What the bracket does that closes a loop whose opening one has the given index. -/
def Loop.closeOp (start : Nat) : Loop → Op
  | counted => .repeatEnd start
  | conditional => .whileEnd start

namespace Tree

/-- The number of tokens of a tree. -/
def size : Tree → Nat
  | done => 0
  | plain _ _ rest => rest.size + 1
  | loop _ _ _ body rest => body.size + rest.size + 2

/-- The tokens of a tree whose first one has the given index. -/
def code : Nat → Tree → List Token
  | _, done => []
  | base, plain position p rest => ⟨position, p.op⟩ :: rest.code (base + 1)
  | base, loop kind opened closed body rest =>
    ⟨opened, kind.openOp (base + body.size + 1)⟩ ::
      (body.code (base + 1) ++ ⟨closed, kind.closeOp base⟩ :: rest.code (base + body.size + 2))

/-- The code of a tree has as many tokens as the tree. -/
@[simp] theorem length_code (base : Nat) (t : Tree) : (t.code base).length = t.size := by
  induction t generalizing base with
  | done => rfl
  | plain position p rest ih => rw [code, List.length_cons, ih, size]
  | loop kind opened closed body rest ihbody ihrest =>
    rw [code, List.length_cons, List.length_append, List.length_cons, ihbody, ihrest, size]
    omega

end Tree

namespace Scan

variable {scan scan' : Scan} {position : Nat} {cs : List Char} {tokens : List Token}

/-- Adds some tokens none of which waits for a partner. -/
def extend (scan : Scan) (tokens : List Token) : Scan where
  tokens := scan.tokens ++ tokens.toArray
  opened := scan.opened
  word := scan.word
  opened_lt bracket h := by
    have hlt := scan.opened_lt bracket h
    rw [Array.size_append]
    omega

/-- Tokens are added beside the word that is being read. -/
@[simp] theorem word_extend : (scan.extend tokens).word = scan.word := rfl

/-- A scan that is extended has that many more tokens. -/
@[simp] theorem size_extend :
    (scan.extend tokens).tokens.size = scan.tokens.size + tokens.length := by
  simp only [extend, Array.size_append, List.size_toArray]

/-- A bracket that opens a loop adds one token. -/
@[simp] theorem size_openLoop {loop : Loop} :
    (scan.openLoop position loop).tokens.size = scan.tokens.size + 1 :=
  Array.size_push _

/-- A scan is what it has read, what waits for a partner, and the word that is being read. -/
theorem ext_of_tokens (htokens : scan.tokens = scan'.tokens) (hopened : scan.opened = scan'.opened)
    (hword : scan.word = scan'.word) : scan = scan' := by
  cases scan
  cases scan'
  cases htokens
  cases hopened
  cases hword
  rfl

/-- Nothing is added where no token is. -/
theorem extend_nil (scan : Scan) : scan.extend [] = scan :=
  ext_of_tokens Array.append_empty rfl rfl

/-- Tokens that are added one list after the other might have been added at once. -/
theorem extend_extend (scan : Scan) (first second : List Token) :
    (scan.extend first).extend second = scan.extend (first ++ second) := by
  refine ext_of_tokens ?_ rfl rfl
  unfold extend
  simp only [Array.append_assoc, List.append_toArray]

/-- To push a token is to extend the scan by it alone. -/
theorem push_eq_extend (scan : Scan) (position : Nat) (op : Op) :
    scan.push position op = scan.extend [⟨position, op⟩] :=
  ext_of_tokens Array.push_eq_append rfl rfl

/-! ### Words -/

/-- Where no word is being read there is none to end. -/
theorem endWord_of_none (hw : scan.word = none) : scan.endWord = scan := by
  unfold endWord
  rw [hw]

/-- The scan that is in the middle of a word which begins at a place. -/
def within (scan : Scan) (position : Nat) (letters : List Char) : Scan :=
  { scan with word := some (position, letters.reverse) }

/-- A word that ends is added as one token, at the place where it began. -/
theorem endWord_within (hw : scan.word = none) (letters : List Char) :
    (scan.within position letters).endWord = scan.extend [⟨position, .word letters⟩] := by
  rw [← push_eq_extend]
  unfold endWord within
  dsimp only
  rw [List.reverse_reverse]
  exact ext_of_tokens rfl rfl hw.symm

/-- No word is being read after one has ended. -/
theorem word_endWord : scan.endWord.word = none := by
  unfold endWord
  split
  · assumption
  · rfl

/-- The end of a word leaves the brackets that wait as they are. -/
theorem opened_endWord : scan.endWord.opened = scan.opened := by
  unfold endWord
  split <;> rfl

/-- A word ends before whatever is no letter. -/
theorem read_endWord (hcs : Severed cs) :
    scan.endWord.read position cs = scan.read position cs := by
  have htwice : scan.endWord.endWord = scan.endWord := endWord_of_none word_endWord
  cases cs with
  | nil =>
    unfold read
    rw [opened_endWord, htwice]
  | cons c cs =>
    have hc := hcs c rfl
    have hnext : scan.endWord.next position c = scan.next position c := by
      unfold next
      rw [htwice]
      cases hclass : Class.of c with
      | letter => exact absurd hclass hc
      | _ => rfl
    unfold read
    rw [hnext]

/-- A word is read letter by letter. -/
theorem read_within {more : List Char} (hletters : ∀ c ∈ more, Class.of c = .letter) (start : Nat)
    (letters cs : List Char) : (scan.within start letters).read position (more ++ cs) =
      (scan.within start (letters ++ more)).read (position + more.length) cs := by
  induction more generalizing position letters with
  | nil =>
    rw [List.append_nil]
    rfl
  | cons c more ih =>
    have hnext : (scan.within start letters).next position c =
        .ok (scan.within start (letters ++ [c])) := by
      unfold next within
      rw [hletters c List.mem_cons_self, List.reverse_append]
      rfl
    have hmore : ∀ d ∈ more, Class.of d = .letter := fun d hd =>
      hletters d (List.mem_cons_of_mem c hd)
    rw [List.cons_append, read, hnext]
    dsimp only
    rw [ih hmore, List.append_assoc, List.singleton_append, List.length_cons]
    congr 1
    omega

/-- Letters that no letter follows are read as one word. -/
theorem read_word (hw : scan.word = none) {letters : List Char} (nonempty : letters ≠ [])
    (hletters : ∀ c ∈ letters, Class.of c = .letter) (hcs : Severed cs) :
    scan.read position (letters ++ cs) =
      (scan.extend [⟨position, .word letters⟩]).read (position + letters.length) cs := by
  obtain ⟨c, more, rfl⟩ := List.exists_cons_of_ne_nil nonempty
  have hnext : scan.next position c = .ok (scan.within position [c]) := by
    unfold next
    rw [hletters c List.mem_cons_self, hw]
    rfl
  have hmore : ∀ d ∈ more, Class.of d = .letter := fun d hd =>
    hletters d (List.mem_cons_of_mem c hd)
  rw [List.cons_append, read, hnext]
  dsimp only
  rw [read_within hmore, ← read_endWord hcs, endWord_within hw, List.singleton_append,
    List.length_cons, Nat.add_right_comm]
  rfl

/-! ### Other characters -/

/-- A blank is passed over. -/
theorem read_blank (hw : scan.word = none) {c : Char} (hc : Class.of c = .blank) :
    scan.read position (c :: cs) = scan.read (position + 1) cs := by
  rw [read, next, hc, endWord_of_none hw]

/-- The character of a command adds its token. -/
theorem read_command (hw : scan.word = none) {c : Char} {k : Command}
    (hc : Class.of c = .command k) : scan.read position (c :: cs) =
      (scan.extend [⟨position, .command k⟩]).read (position + 1) cs := by
  rw [read, next, hc, endWord_of_none hw, ← push_eq_extend]

/-- A bracket that opens a loop is kept waiting for its partner. -/
theorem read_opener (hw : scan.word = none) (kind : Loop) :
    scan.read position (kind.opener :: cs) =
      (scan.openLoop position kind).read (position + 1) cs := by
  rw [read, next, Class.of_opener, endWord_of_none hw]

/-- A bracket that closes a loop looks for its partner. -/
theorem next_closer (hw : scan.word = none) (kind : Loop) :
    scan.next position kind.closer = scan.closeLoop position kind := by
  rw [next, Class.of_closer, endWord_of_none hw]

/-- A bracket that closes a loop is read on behind, if there is a partner for it. -/
theorem read_closer (hw : scan.word = none) {kind : Loop}
    (hclose : scan.closeLoop position kind = .ok scan') :
    scan.read position (kind.closer :: cs) = scan'.read (position + 1) cs := by
  rw [read, next_closer hw, hclose]

/-- A closing bracket is the partner of one of its kind that waits for it. -/
theorem opened_of_closeLoop {kind : Loop} (hclose : scan.closeLoop position kind = .ok scan') :
    scan.opened.map (·.loop) = kind :: scan'.opened.map (·.loop) ∧ scan'.word = scan.word := by
  unfold closeLoop at hclose
  split at hclose
  · cases hclose
  · rename_i partner outer hopened
    split at hclose
    · cases hclose
    · rename_i hkind
      rw [hopened, List.map_cons, not_not.mp hkind]
      cases kind <;> cases hclose <;> exact ⟨rfl, rfl⟩

/-- An opening bracket that meets its partner gets the index of it, if it needs it. -/
theorem closeLoop_extend_openLoop (kind : Loop) (opened closed : Nat) :
    ((scan.openLoop opened kind).extend tokens).closeLoop closed kind =
      .ok (scan.extend (⟨opened, kind.openOp (scan.tokens.size + tokens.length + 1)⟩ ::
        (tokens ++ [⟨closed, kind.closeOp scan.tokens.size⟩]))) := by
  cases kind with
  | conditional =>
    refine congrArg Except.ok (ext_of_tokens (Array.ext' ?_) rfl rfl)
    simp only [push, extend, openLoop, Array.toList_push, Array.toList_append, List.append_assoc,
      List.cons_append, List.nil_append, Loop.openOp, Loop.closeOp]
  | counted =>
    refine congrArg Except.ok (ext_of_tokens (Array.ext' ?_) rfl rfl)
    -- The bracket stands behind what was read before it, so that it alone is replaced.
    simp only [push, extend, openLoop, Array.toList_push, Array.toList_set, Array.toList_append,
      Array.size_append, Array.size_push, List.size_toArray, List.append_assoc, List.cons_append,
      List.nil_append]
    rw [List.set_append_right _ _ (Nat.le_of_eq Array.length_toList), Array.length_toList,
      Nat.sub_self, List.set_cons_zero]
    simp only [List.append_assoc, List.cons_append, Nat.add_right_comm, Loop.openOp, Loop.closeOp]

end Scan

/-! ## Trees of sources -/

/-- The scan of a text that begins with a row goes on behind the code of its tree. -/
theorem Reads.read_append {n : Nat} {cs : List Char} {t : Tree} (ht : Reads n cs t) (scan : Scan)
    (hw : scan.word = none) {rest : List Char} (hrest : Ends rest) : scan.read n (cs ++ rest) =
      (scan.extend (t.code scan.tokens.size)).read (n + cs.length) rest := by
  induction ht generalizing scan rest with
  | done =>
    rw [Tree.code, Scan.extend_nil]
    rfl
  | blank hc _ ih =>
    rw [List.cons_append, Scan.read_blank hw hc, ih scan hw hrest, List.length_cons]
    congr 1
    omega
  | word nonempty hletters ends _ ih =>
    rw [List.append_assoc, Scan.read_word hw nonempty hletters (ends.append hrest),
      ih (scan.extend _) hw hrest, Scan.extend_extend, Tree.code, List.length_append,
      Scan.size_extend, Nat.add_assoc]
    rfl
  | command hc _ ih =>
    rw [List.cons_append, Scan.read_command hw hc, ih (scan.extend _) hw hrest,
      Scan.extend_extend, Tree.code, List.length_cons, Scan.size_extend]
    congr 1
    omega
  | @loop n kind inner cs body t _ _ ihbody ihrest =>
    -- The body is read behind the opening bracket, and the rest behind the closing one.
    have hopened : (scan.openLoop n kind).word = none := hw
    rw [List.cons_append, List.append_assoc, List.cons_append, Scan.read_opener hw,
      ihbody _ hopened (ends_closer kind _),
      Scan.read_closer (Scan.word_extend.trans hopened) (Scan.closeLoop_extend_openLoop kind _ _)]
    have hclosed : n + 1 + inner.length = n + inner.length + 1 := by omega
    rw [hclosed, ihrest (scan.extend _) hw hrest, Scan.extend_extend]
    simp only [Scan.size_extend, Scan.size_openLoop, Tree.code, Tree.length_code,
      List.length_cons, List.length_append, List.length_nil, List.cons_append, List.append_assoc,
      List.nil_append]
    have hbehind : scan.tokens.size + (body.size + (0 + 1) + 1) =
        scan.tokens.size + body.size + 2 := by
      omega
    have hend : n + inner.length + 2 + cs.length = n + (inner.length + (cs.length + 1) + 1) := by
      omega
    rw [hbehind, hend]

/-- The tokens of a source that spells a tree are the code of the tree. -/
theorem Reads.tokenize {cs : List Char} {t : Tree} (ht : Reads 0 cs t) :
    tokenize cs = .ok (t.code 0).toArray := by
  have happend := ht.read_append .start rfl ends_nil
  rw [List.append_nil] at happend
  unfold Element.tokenize
  rw [happend]
  change Except.ok (#[] ++ (t.code 0).toArray) = _
  rw [Array.empty_append]

/-- A text that closes some loops which are open already: between their brackets stand texts that
spell trees. -/
def Closes : List Loop → Nat → List Char → Prop
  | [], n, cs => ∃ t, Reads n cs t
  | kind :: kinds, n, cs => ∃ inner rest t,
    cs = inner ++ kind.closer :: rest ∧ Reads n inner t ∧ Closes kinds (n + inner.length + 1) rest

/-- What can be put in front of a tree can be put in front of a text that closes loops. -/
theorem Closes.prepend {kinds : List Loop} {n : Nat} {cs : List Char} (front : List Char)
    (hfront : ∀ inner t, inner <+: cs → Reads (n + front.length) inner t →
      ∃ t', Reads n (front ++ inner) t')
    (hcs : Closes kinds (n + front.length) cs) : Closes kinds n (front ++ cs) := by
  cases kinds with
  | nil =>
    obtain ⟨t, ht⟩ := hcs
    exact hfront cs t List.prefix_rfl ht
  | cons kind kinds =>
    obtain ⟨inner, rest, t, rfl, ht, hrest⟩ := hcs
    obtain ⟨t', ht'⟩ := hfront inner t (List.prefix_append _ _) ht
    refine ⟨front ++ inner, rest, t', (List.append_assoc _ _ _).symm, ht', ?_⟩
    rw [List.length_append, ← Nat.add_assoc]
    exact hrest

/-- A loop that is opened and closed again can be put in front of a text that closes the others. -/
theorem Closes.loop {kind : Loop} {kinds : List Loop} {n : Nat} {cs : List Char}
    (hcs : Closes (kind :: kinds) (n + 1) cs) : Closes kinds n (kind.opener :: cs) := by
  obtain ⟨inner, rest, body, rfl, hbody, hrest⟩ := hcs
  have hlength : n + (kind.opener :: (inner ++ [kind.closer])).length =
      n + 1 + inner.length + 1 := by
    simp only [List.length_cons, List.length_append, List.length_nil]
    omega
  have hloop : Closes kinds n (kind.opener :: (inner ++ [kind.closer]) ++ rest) := by
    refine Closes.prepend _ (fun text t _ ht => ?_) (by rwa [hlength])
    refine ⟨.loop kind n (n + inner.length + 1) body t, ?_⟩
    rw [hlength] at ht
    rw [List.cons_append, List.append_assoc, List.singleton_append]
    refine .loop hbody ?_
    rwa [show n + inner.length + 2 = n + 1 + inner.length + 1 by omega]
  rwa [List.cons_append, List.append_assoc, List.singleton_append] at hloop

/-- A text that is read to its end closes the loops that were open before it. -/
theorem closes_of_read (scan : Scan) {n : Nat} {cs : List Char} {program : Array Token}
    (hw : scan.word = none) (hread : scan.read n cs = .ok program) :
    Closes (scan.opened.map (·.loop)) n cs := by
  -- A word is read in one go, so the induction is on the length of the text.
  induction hlength : cs.length using Nat.strong_induction_on generalizing scan n cs with
  | _ length ih =>
    cases cs with
    | nil =>
      rw [Scan.read] at hread
      split at hread
      · rename_i hopened
        rw [hopened]
        exact ⟨.done, .done⟩
      · cases hread
    | cons c cs =>
      have hless : cs.length < length := hlength ▸ Nat.lt_succ_self _
      rcases Class.of_cases c with hc | hc | ⟨k, hc⟩ | ⟨kind, rfl⟩ | ⟨kind, rfl⟩
      · rw [Scan.read_blank hw hc] at hread
        exact (ih _ hless scan hw hread rfl).prepend [c] fun _ t _ ht => ⟨t, .blank hc ht⟩
      · obtain ⟨letters, rest, htext, nonempty, hletters, ends⟩ := exists_word hc cs
        rw [htext, Scan.read_word hw nonempty hletters ends] at hread
        have hshorter : rest.length < length := by
          have hpos := List.length_pos_iff.mpr nonempty
          rw [← hlength, htext, List.length_append]
          omega
        have hrest := ih _ hshorter (scan.extend _) hw hread rfl
        rw [htext]
        exact hrest.prepend letters fun _ t hinner ht =>
          ⟨_, .word nonempty hletters (ends.of_prefix hinner) ht⟩
      · rw [Scan.read_command hw hc] at hread
        have hrest := ih _ hless (scan.extend _) hw hread rfl
        exact hrest.prepend [c] fun _ t _ ht => ⟨_, .command hc ht⟩
      · rw [Scan.read_opener hw] at hread
        exact Closes.loop (ih _ hless (scan.openLoop n kind) hw hread rfl)
      · cases hclose : scan.closeLoop n kind with
        | error unmatched =>
          rw [Scan.read, Scan.next_closer hw, hclose] at hread
          cases hread
        | ok scan' =>
          obtain ⟨hopened, hword⟩ := Scan.opened_of_closeLoop hclose
          rw [Scan.read_closer hw hclose] at hread
          rw [hopened]
          exact ⟨[], cs, .done, rfl, .done, ih _ hless scan' (hword.trans hw) hread rfl⟩

/-- The sources that have tokens are those that spell a tree. -/
theorem tokenize_ok_iff {cs : List Char} :
    (∃ program, tokenize cs = .ok program) ↔ ∃ t, Reads 0 cs t := by
  constructor
  · rintro ⟨program, hprogram⟩
    exact closes_of_read .start rfl hprogram
  · rintro ⟨t, ht⟩
    exact ⟨_, ht.tokenize⟩

end EsotericHost.Element
