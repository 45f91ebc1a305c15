import EsotericHost.Brainfuck.Program
import Mathlib.Data.List.Infix

/-!
# Bracket trees

The structure of a tape program: a row of commands and loops, where a loop holds a row of its own.
`Reads` says which tree a source spells, without an index or a jump in sight. A source spells a tree
just if its brackets are balanced (`balanced_iff_reads`), and then only one (`Reads.unique`).
-/

namespace EsotericHost.Brainfuck

/-- A command that is no bracket. -/
inductive Basic where
  | right
  | left
  | increment
  | decrement
  | output
  | input
  deriving Repr, DecidableEq

namespace Basic

/-- The character of a command. -/
def character : Basic → Char
  | right => '>'
  | left => '<'
  | increment => '+'
  | decrement => '-'
  | output => '.'
  | input => ','

/-- The command as the machine has it. -/
def op : Basic → Op
  | right => .right
  | left => .left
  | increment => .increment
  | decrement => .decrement
  | output => .output
  | input => .input

/-- The character of a command is read as that command. -/
theorem simpleOp?_character (b : Basic) : simpleOp? b.character = some b.op := by
  cases b <;> rfl

/-- The character of a command is one that the machine knows. -/
theorem isCommand_character (b : Basic) : isCommand b.character = true := by
  cases b <;> rfl

/-- The character of a command opens no loop. -/
theorem character_ne_opening (b : Basic) : b.character ≠ '[' := by
  cases b <;> decide

/-- The character of a command closes no loop. -/
theorem character_ne_closing (b : Basic) : b.character ≠ ']' := by
  cases b <;> decide

/-- Different commands have different characters. -/
theorem character_injective : Function.Injective character := by
  intro b b' h
  cases b <;> cases b' <;> first | rfl | exact absurd h (by decide)

end Basic

/-- The characters that may stand in a source: the commands, the two brackets and comments. -/
theorem character_cases (c : Char) :
    (∃ b : Basic, c = b.character) ∨ c = '[' ∨ c = ']' ∨ isCommand c = false := by
  by_cases hc : isCommand c = true
  · simp only [isCommand, Bool.or_eq_true, decide_eq_true_eq] at hc
    rcases hc with ((((((rfl | rfl) | rfl) | rfl) | rfl) | rfl) | rfl) | rfl
    · exact .inl ⟨.right, rfl⟩
    · exact .inl ⟨.left, rfl⟩
    · exact .inl ⟨.increment, rfl⟩
    · exact .inl ⟨.decrement, rfl⟩
    · exact .inl ⟨.output, rfl⟩
    · exact .inl ⟨.input, rfl⟩
    · exact .inr (.inl rfl)
    · exact .inr (.inr (.inl rfl))
  · exact .inr (.inr (.inr (Bool.eq_false_iff.mpr hc)))

/-- A comment is no command. -/
theorem simpleOp?_of_comment {c : Char} (hc : isCommand c = false) : simpleOp? c = none := by
  unfold simpleOp?
  split
  all_goals first | rfl | exact absurd hc (by decide)

/-- A row of commands and loops. Each command knows its place in the source, and each loop the
places of its brackets. -/
inductive Tree where
  | done
  | command (position : Nat) (b : Basic) (rest : Tree)
  | loop (opened closed : Nat) (body rest : Tree)
  deriving Repr, DecidableEq

/-- The tree that a part of a source spells which begins at the given place. -/
inductive Reads : Nat → List Char → Tree → Prop where
  | done {n : Nat} : Reads n [] .done
  | comment {n : Nat} {c : Char} {cs : List Char} {t : Tree} (hc : isCommand c = false)
    (rest : Reads (n + 1) cs t) : Reads n (c :: cs) t
  | command {n : Nat} {cs : List Char} {t : Tree} (b : Basic) (rest : Reads (n + 1) cs t) :
    Reads n (b.character :: cs) (.command n b t)
  | loop {n : Nat} {inner cs : List Char} {body t : Tree} (inside : Reads (n + 1) inner body)
    (rest : Reads (n + inner.length + 2) cs t) :
    Reads n ('[' :: (inner ++ ']' :: cs)) (.loop n (n + inner.length + 1) body t)

/-! ## Balance -/

/-- The brackets of the text that follows some opening brackets without a partner are balanced: no
beginning of it closes more brackets than are open by then, and in the end all are closed. -/
def BalancedFrom (depth : Nat) (cs : List Char) : Prop :=
  (∀ before, before <+: cs → before.count ']' ≤ depth + before.count '[') ∧
    cs.count ']' = depth + cs.count '['

/-- The brackets of a text are balanced: no beginning of it has more closing than opening ones, and
the whole has as many of each. -/
def Balanced (cs : List Char) : Prop :=
  (∀ before, before <+: cs → before.count ']' ≤ before.count '[') ∧ cs.count ']' = cs.count '['

/-- A text that nothing opened before is balanced from there just if it is balanced. -/
theorem balancedFrom_zero {cs : List Char} : BalancedFrom 0 cs ↔ Balanced cs := by
  unfold BalancedFrom Balanced
  simp only [Nat.zero_add]

/-- The empty text is balanced where no bracket is open. -/
theorem balancedFrom_nil {depth : Nat} : BalancedFrom depth [] ↔ depth = 0 := by
  constructor
  · intro h
    have htotal := h.2
    simp only [List.count_nil] at htotal
    omega
  · rintro rfl
    refine ⟨fun before h => ?_, rfl⟩
    rw [List.prefix_nil.mp h]
    exact Nat.le_refl _

/-- A character in front of a text moves the depth of the rest, and the brackets that are open must
allow for it. -/
theorem balancedFrom_cons {depth depth' : Nat} {c : Char} {cs : List Char}
    (hstep : depth + [c].count '[' = depth' + [c].count ']') :
    BalancedFrom depth (c :: cs) ↔ BalancedFrom depth' cs := by
  have hcount : ∀ (d : Char) (l : List Char), (c :: l).count d = [c].count d + l.count d := by
    intro d l
    rw [← List.singleton_append, List.count_append]
  constructor
  · rintro ⟨hbefore, htotal⟩
    rw [hcount ']', hcount '['] at htotal
    refine ⟨fun before h => ?_, by omega⟩
    have hmore := hbefore (c :: before) ((List.prefix_cons_inj c).mpr h)
    rw [hcount ']', hcount '['] at hmore
    omega
  · rintro ⟨hbefore, htotal⟩
    refine ⟨fun before h => ?_, by rw [hcount ']', hcount '[']; omega⟩
    rcases List.prefix_cons_iff.mp h with rfl | ⟨less, rfl, hless⟩
    · exact Nat.zero_le _
    · have hmore := hbefore less hless
      rw [hcount ']', hcount '[']
      omega

/-- An opening bracket makes one more that the rest has to close. -/
theorem balancedFrom_opening {depth : Nat} {cs : List Char} :
    BalancedFrom depth ('[' :: cs) ↔ BalancedFrom (depth + 1) cs :=
  balancedFrom_cons rfl

/-- A closing bracket makes one less that the rest has to close. -/
theorem balancedFrom_closing {depth : Nat} {cs : List Char} :
    BalancedFrom (depth + 1) (']' :: cs) ↔ BalancedFrom depth cs :=
  balancedFrom_cons rfl

/-- A bracket is not closed before it is opened. -/
theorem not_balancedFrom_closing {cs : List Char} : ¬ BalancedFrom 0 (']' :: cs) := by
  intro h
  have hfirst := h.1 [']'] ((List.prefix_cons_inj ']').mpr (List.nil_prefix))
  exact absurd hfirst (by decide)

/-- Any other character does not count. -/
theorem balancedFrom_other {depth : Nat} {c : Char} {cs : List Char} (hopening : c ≠ '[')
    (hclosing : c ≠ ']') : BalancedFrom depth (c :: cs) ↔ BalancedFrom depth cs := by
  refine balancedFrom_cons ?_
  rw [List.count_singleton, List.count_singleton, if_neg (by simpa using hopening),
    if_neg (by simpa using hclosing)]

/-- A character of a comment is no bracket. -/
theorem ne_brackets_of_comment {c : Char} (hc : isCommand c = false) : c ≠ '[' ∧ c ≠ ']' := by
  constructor <;> rintro rfl <;> exact absurd hc (by decide)

/-! ## Trees of balanced texts -/

/-- A text that spells a tree does not change the depth. -/
theorem Reads.balancedFrom_append {n depth : Nat} {cs rest : List Char} {t : Tree}
    (ht : Reads n cs t) : BalancedFrom depth (cs ++ rest) ↔ BalancedFrom depth rest := by
  induction ht generalizing depth rest with
  | done => exact Iff.rfl
  | comment hc _ ih =>
    obtain ⟨hopening, hclosing⟩ := ne_brackets_of_comment hc
    exact (balancedFrom_other hopening hclosing).trans ih
  | command b _ ih =>
    exact (balancedFrom_other b.character_ne_opening b.character_ne_closing).trans ih
  | loop inside _ ihbody ihrest =>
    rw [List.cons_append, List.append_assoc, List.cons_append]
    calc BalancedFrom depth ('[' :: _)
      _ ↔ BalancedFrom (depth + 1) _ := balancedFrom_opening
      _ ↔ BalancedFrom (depth + 1) (']' :: _) := ihbody
      _ ↔ BalancedFrom depth _ := balancedFrom_closing
      _ ↔ BalancedFrom depth rest := ihrest

/-- A text that closes some brackets which are open already: between them stand texts that spell
trees. -/
def Closes : Nat → Nat → List Char → Prop
  | 0, n, cs => ∃ t, Reads n cs t
  | depth + 1, n, cs => ∃ inner rest t,
    cs = inner ++ ']' :: rest ∧ Reads n inner t ∧ Closes depth (n + inner.length + 1) rest

/-- What can be put in front of a tree can be put in front of a text that closes brackets. -/
theorem Closes.prepend {depth n : Nat} {cs : List Char} (front : List Char)
    (hfront : ∀ inner t, Reads (n + front.length) inner t → ∃ t', Reads n (front ++ inner) t')
    (hcs : Closes depth (n + front.length) cs) : Closes depth n (front ++ cs) := by
  cases depth with
  | zero =>
    obtain ⟨t, ht⟩ := hcs
    exact hfront cs t ht
  | succ depth =>
    obtain ⟨inner, rest, t, rfl, ht, hrest⟩ := hcs
    obtain ⟨t', ht'⟩ := hfront inner t ht
    refine ⟨front ++ inner, rest, t', (List.append_assoc _ _ _).symm, ht', ?_⟩
    rw [List.length_append, ← Nat.add_assoc]
    exact hrest

/-- A balanced text closes the brackets that are open before it. -/
theorem closes_of_balancedFrom {depth n : Nat} {cs : List Char} (h : BalancedFrom depth cs) :
    Closes depth n cs := by
  induction cs generalizing depth n with
  | nil =>
    rw [balancedFrom_nil.mp h]
    exact ⟨.done, .done⟩
  | cons c cs ih =>
    rcases character_cases c with ⟨b, rfl⟩ | rfl | rfl | hc
    · have hrest := (balancedFrom_other b.character_ne_opening b.character_ne_closing).mp h
      exact (ih hrest).prepend [b.character] fun _ t ht => ⟨_, .command b ht⟩
    · -- The rest closes this bracket first; what follows then closes the others.
      obtain ⟨inner, rest, body, rfl, hbody, hrest⟩ := ih (n := n + 1) (balancedFrom_opening.mp h)
      have hlength : n + ('[' :: (inner ++ [']'])).length = n + 1 + inner.length + 1 := by
        simp only [List.length_cons, List.length_append, List.length_nil]
        omega
      have hloop : Closes depth n ('[' :: (inner ++ [']']) ++ rest) := by
        refine Closes.prepend _ (fun text t ht => ?_) (by rwa [hlength])
        refine ⟨.loop n (n + inner.length + 1) body t, ?_⟩
        rw [hlength] at ht
        rw [List.cons_append, List.append_assoc, List.singleton_append]
        refine .loop hbody ?_
        rwa [show n + inner.length + 2 = n + 1 + inner.length + 1 by omega]
      rwa [List.cons_append, List.append_assoc, List.singleton_append] at hloop
    · cases depth with
      | zero => exact absurd h not_balancedFrom_closing
      | succ depth => exact ⟨[], cs, .done, rfl, .done, ih (balancedFrom_closing.mp h)⟩
    · obtain ⟨hopening, hclosing⟩ := ne_brackets_of_comment hc
      have hrest := (balancedFrom_other hopening hclosing).mp h
      exact (ih hrest).prepend [c] fun _ t ht => ⟨t, .comment hc ht⟩

/-- The sources that spell a tree are those whose brackets are balanced. -/
theorem balanced_iff_reads {n : Nat} {cs : List Char} : Balanced cs ↔ ∃ t, Reads n cs t := by
  constructor
  · intro h
    exact closes_of_balancedFrom (balancedFrom_zero.mpr h)
  · rintro ⟨t, ht⟩
    have hwhole : BalancedFrom 0 (cs ++ []) ↔ BalancedFrom 0 [] := ht.balancedFrom_append
    rw [List.append_nil] at hwhole
    exact balancedFrom_zero.mp (hwhole.mpr (balancedFrom_nil.mpr rfl))

/-! ## One tree for a source -/

/-- What a text that begins with a given character spells. -/
theorem Reads.cons_cases {n : Nat} {c : Char} {cs : List Char} {t : Tree}
    (h : Reads n (c :: cs) t) :
    (isCommand c = false ∧ Reads (n + 1) cs t) ∨
      (∃ b t', c = b.character ∧ t = .command n b t' ∧ Reads (n + 1) cs t') ∨
      ∃ inner rest body t', c = '[' ∧ cs = inner ++ ']' :: rest ∧
        t = .loop n (n + inner.length + 1) body t' ∧ Reads (n + 1) inner body ∧
        Reads (n + inner.length + 2) rest t' := by
  generalize htext : c :: cs = text at h
  cases h with
  | done => cases htext
  | comment hc rest =>
    cases htext
    exact .inl ⟨hc, rest⟩
  | command b rest =>
    cases htext
    exact .inr (.inl ⟨b, _, rfl, rfl, rest⟩)
  | loop inside rest =>
    cases htext
    exact .inr (.inr ⟨_, _, _, _, rfl, rfl, rfl, inside, rest⟩)

/-- A row does not begin with a closing bracket. -/
theorem Reads.head_ne_closing {n : Nat} {c : Char} {cs : List Char} {t : Tree}
    (h : Reads n (c :: cs) t) : c ≠ ']' := by
  rcases h.cons_cases with ⟨hc, -⟩ | ⟨b, t', rfl, -⟩ | ⟨_, _, _, _, rfl, -⟩
  · exact (ne_brackets_of_comment hc).2
  · exact b.character_ne_closing
  · decide

/-- A comment before a row may be left out of it. -/
theorem Reads.of_comment {n : Nat} {c : Char} {cs : List Char} {t : Tree}
    (hc : isCommand c = false) (h : Reads n (c :: cs) t) : Reads (n + 1) cs t := by
  rcases h.cons_cases with ⟨-, h⟩ | ⟨b, t', rfl, -⟩ | ⟨_, _, _, _, rfl, -⟩
  · exact h
  · rw [b.isCommand_character] at hc
    cases hc
  · exact absurd hc (by decide)

/-- A row that begins with a command has its tree, and the rest spells the tree behind it. -/
theorem Reads.of_command {n : Nat} {b : Basic} {cs : List Char} {t : Tree}
    (h : Reads n (b.character :: cs) t) : ∃ t', t = .command n b t' ∧ Reads (n + 1) cs t' := by
  rcases h.cons_cases with ⟨hc, -⟩ | ⟨b', t', hb, rfl, hrest⟩ | ⟨_, _, _, _, hb, -⟩
  · rw [b.isCommand_character] at hc
    cases hc
  · rw [Basic.character_injective hb]
    exact ⟨t', rfl, hrest⟩
  · exact absurd hb b.character_ne_opening

/-- A row that begins with an opening bracket is a loop, whose body stands up to the bracket that
closes it, and a row behind it. -/
theorem Reads.of_opening {n : Nat} {cs : List Char} {t : Tree} (h : Reads n ('[' :: cs) t) :
    ∃ inner rest body t', cs = inner ++ ']' :: rest ∧ t = .loop n (n + inner.length + 1) body t' ∧
      Reads (n + 1) inner body ∧ Reads (n + inner.length + 2) rest t' := by
  rcases h.cons_cases with ⟨hc, -⟩ | ⟨b, t', hb, -⟩ | ⟨inner, rest, body, t', -, h⟩
  · exact absurd hc (by decide)
  · exact absurd hb.symm b.character_ne_opening
  · exact ⟨inner, rest, body, t', h⟩

/-- A text that does not go on with a row: it is at its end, or closes a bracket. -/
def Ends (cs : List Char) : Prop :=
  ∀ c ∈ cs.head?, c = ']'

/-- A row ends with the text. -/
theorem ends_nil : Ends [] := fun _ h => nomatch h

/-- A row ends at a closing bracket. -/
theorem ends_closing (cs : List Char) : Ends (']' :: cs) := fun _ h => (Option.some.inj h).symm

/-- Two rows that begin one text, and end where it does not go on with a row, are of one length, and
spell one tree. -/
theorem Reads.unique_of_append {n : Nat} {cs cs' rest rest' : List Char} {t t' : Tree}
    (ht : Reads n cs t) (ht' : Reads n cs' t') (hsame : cs ++ rest = cs' ++ rest')
    (hrest : Ends rest) (hrest' : Ends rest') : cs = cs' ∧ t = t' := by
  -- A row that begins with a character makes the other one begin with it.
  have hhead : ∀ {n : Nat} {c : Char} {cs cs' rest rest' : List Char} {t : Tree},
      Reads n (c :: cs) t → c :: cs ++ rest = cs' ++ rest' → Ends rest' →
        ∃ less, cs' = c :: less ∧ cs ++ rest = less ++ rest' := by
    intro n c cs cs' rest rest' t ht hsame hrest'
    cases cs' with
    | nil =>
      rw [List.nil_append] at hsame
      exact absurd (hrest' c (by rw [← hsame]; rfl)) ht.head_ne_closing
    | cons c' less =>
      obtain ⟨rfl, hless⟩ := List.cons.inj hsame
      exact ⟨less, rfl, hless⟩
  induction ht generalizing cs' rest rest' t' with
  | done =>
    cases cs' with
    | nil =>
      cases ht'
      exact ⟨rfl, rfl⟩
    | cons c less =>
      rw [List.nil_append] at hsame
      exact absurd (hrest c (by rw [hsame]; rfl)) ht'.head_ne_closing
  | comment hc h ih =>
    obtain ⟨less, rfl, hless⟩ := hhead (.comment hc h) hsame hrest'
    obtain ⟨rfl, rfl⟩ := ih (ht'.of_comment hc) hless hrest hrest'
    exact ⟨rfl, rfl⟩
  | command b h ih =>
    obtain ⟨less, rfl, hless⟩ := hhead (.command b h) hsame hrest'
    obtain ⟨t'', rfl, ht''⟩ := ht'.of_command
    obtain ⟨rfl, rfl⟩ := ih ht'' hless hrest hrest'
    exact ⟨rfl, rfl⟩
  | loop inside h ihbody ihrest =>
    obtain ⟨less, rfl, hless⟩ := hhead (.loop inside h) hsame hrest'
    obtain ⟨inner, after, body, t'', rfl, rfl, hbody, hafter⟩ := ht'.of_opening
    -- The bodies end at a closing bracket each, so they are one, and so is what follows them.
    rw [List.append_assoc, List.append_assoc] at hless
    obtain ⟨rfl, rfl⟩ := ihbody hbody hless (ends_closing _) (ends_closing _)
    have hafter' := (List.cons.inj (List.append_cancel_left hless)).2
    obtain ⟨rfl, rfl⟩ := ihrest hafter hafter' hrest hrest'
    exact ⟨rfl, rfl⟩

/-- A source spells at most one tree. -/
theorem Reads.unique {n : Nat} {cs : List Char} {t t' : Tree} (ht : Reads n cs t)
    (ht' : Reads n cs t') : t = t' :=
  (ht.unique_of_append ht' rfl ends_nil ends_nil).2

end EsotericHost.Brainfuck
