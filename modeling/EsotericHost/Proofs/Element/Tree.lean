import EsotericHost.Element.Token
import Mathlib.Data.List.TakeWhile

/-!
# Token programs as trees

A token program is a row of words, commands and loops, and a loop holds a row of its own. `Reads`
says which tree a source spells, without an index and without a bracket that waits for its partner;
a word goes as far as there are letters. A source spells at most one tree (`Reads.unique`).
-/

namespace EsotericHost.Element

/-- A token that is no bracket. -/
inductive Plain where
  | word (letters : List Char)
  | command (c : Command)
  deriving Repr, DecidableEq

/-- What such a token does. -/
def Plain.op : Plain → Op
  | word letters => .word letters
  | command c => .command c

/-- A row of plain tokens and loops. Each token knows its place in the source, and each loop the
places of its brackets. -/
inductive Tree where
  | done
  | plain (position : Nat) (p : Plain) (rest : Tree)
  | loop (kind : Loop) (opened closed : Nat) (body rest : Tree)
  deriving Repr, DecidableEq

/-- A text that does not begin with a letter. -/
def Severed (cs : List Char) : Prop := ∀ c ∈ cs.head?, Class.of c ≠ .letter

/-- The tree that a part of a source spells which begins at the given place. -/
inductive Reads : Nat → List Char → Tree → Prop where
  | done {n : Nat} : Reads n [] .done
  | blank {n : Nat} {c : Char} {cs : List Char} {t : Tree} (hc : Class.of c = .blank)
    (rest : Reads (n + 1) cs t) : Reads n (c :: cs) t
  | word {n : Nat} {letters cs : List Char} {t : Tree} (nonempty : letters ≠ [])
    (hletters : ∀ c ∈ letters, Class.of c = .letter) (ends : Severed cs)
    (rest : Reads (n + letters.length) cs t) :
    Reads n (letters ++ cs) (.plain n (.word letters) t)
  | command {n : Nat} {c : Char} {k : Command} {cs : List Char} {t : Tree}
    (hc : Class.of c = .command k) (rest : Reads (n + 1) cs t) :
    Reads n (c :: cs) (.plain n (.command k) t)
  | loop {n : Nat} {kind : Loop} {inner cs : List Char} {body t : Tree}
    (inside : Reads (n + 1) inner body) (rest : Reads (n + inner.length + 2) cs t) :
    Reads n (kind.opener :: (inner ++ kind.closer :: cs))
      (.loop kind n (n + inner.length + 1) body t)

/-! ## Characters -/

/-- A bracket that opens a loop is read as one. -/
theorem Class.of_opener (kind : Loop) : Class.of kind.opener = .opening kind := by
  cases kind <;> decide

/-- A bracket that closes a loop is read as one. -/
theorem Class.of_closer (kind : Loop) : Class.of kind.closer = .closing kind := by
  cases kind <;> decide

/-- The brackets are the only characters of their classes. -/
theorem Class.of_cases (c : Char) :
    Class.of c = .blank ∨ Class.of c = .letter ∨ (∃ k, Class.of c = .command k) ∨
      (∃ kind : Loop, c = kind.opener) ∨ ∃ kind : Loop, c = kind.closer := by
  unfold Class.of
  split
  · exact .inr (.inr (.inr (.inl ⟨.counted, ‹_›⟩)))
  · split
    · exact .inr (.inr (.inr (.inr ⟨.counted, ‹_›⟩)))
    · split
      · exact .inr (.inr (.inr (.inl ⟨.conditional, ‹_›⟩)))
      · split
        · exact .inr (.inr (.inr (.inr ⟨.conditional, ‹_›⟩)))
        · split
          · exact .inr (.inr (.inl ⟨_, rfl⟩))
          · split
            · exact .inl rfl
            · exact .inr (.inl rfl)

/-- Loops of different kinds are opened by different characters. -/
theorem Loop.opener_injective : Function.Injective Loop.opener := by
  intro kind kind' h
  cases kind <;> cases kind' <;> first | rfl | exact absurd h (by decide)

/-- The empty text does not begin with a letter. -/
theorem severed_nil : Severed [] := fun _ h => nomatch h

/-- A beginning of a text that does not begin with a letter does not either. -/
theorem Severed.of_prefix {cs cs' : List Char} (h : Severed cs) (hcs : cs' <+: cs) :
    Severed cs' := by
  obtain ⟨rest, rfl⟩ := hcs
  cases cs' with
  | nil => exact severed_nil
  | cons c cs' => exact fun d hd => h d hd

/-- A word that is read to its end is all the letters that a text begins with. -/
theorem takeWhile_word {letters cs : List Char} (hletters : ∀ c ∈ letters, Class.of c = .letter)
    (hcs : Severed cs) : (letters ++ cs).takeWhile (Class.of · = .letter) = letters := by
  rw [List.takeWhile_append_of_pos fun c hc => decide_eq_true (hletters c hc)]
  cases cs with
  | nil => exact List.append_nil letters
  | cons c cs =>
    rw [List.takeWhile_cons_of_neg (by simpa using hcs c rfl), List.append_nil]

/-- A text that begins with a letter begins with a word that is read to its end. -/
theorem exists_word {c : Char} (hc : Class.of c = .letter) (cs : List Char) :
    ∃ letters rest, c :: cs = letters ++ rest ∧ letters ≠ [] ∧
      (∀ c ∈ letters, Class.of c = .letter) ∧ Severed rest := by
  refine ⟨(c :: cs).takeWhile (Class.of · = .letter), (c :: cs).dropWhile (Class.of · = .letter),
    List.takeWhile_append_dropWhile.symm, ?_, fun d hd => ?_, fun d hd => ?_⟩
  · rw [List.takeWhile_cons_of_pos (by simpa using hc)]
    exact List.cons_ne_nil _ _
  · simpa using List.mem_takeWhile_imp hd
  · have hhead := List.head?_dropWhile_not (Class.of · = .letter) (c :: cs)
    rw [hd] at hhead
    simpa using hhead

/-! ## One tree for a source -/

/-- The empty text spells the empty row. -/
theorem Reads.of_nil {n : Nat} {t : Tree} (h : Reads n [] t) : t = .done := by
  generalize htext : [] = text at h
  cases h with
  | done => rfl
  | word nonempty _ _ _ => exact absurd (List.append_eq_nil_iff.mp htext.symm).1 nonempty
  | blank | command | loop => cases htext

/-- What a text that begins with a given character spells. -/
theorem Reads.cons_cases {n : Nat} {c : Char} {cs : List Char} {t : Tree}
    (h : Reads n (c :: cs) t) :
    (Class.of c = .blank ∧ Reads (n + 1) cs t) ∨
      (∃ letters rest t', c :: cs = letters ++ rest ∧ Class.of c = .letter ∧
        (∀ c ∈ letters, Class.of c = .letter) ∧ Severed rest ∧ t = .plain n (.word letters) t' ∧
        Reads (n + letters.length) rest t') ∨
      (∃ k t', Class.of c = .command k ∧ t = .plain n (.command k) t' ∧ Reads (n + 1) cs t') ∨
      ∃ kind inner rest body t', c = Loop.opener kind ∧ cs = inner ++ kind.closer :: rest ∧
        t = .loop kind n (n + inner.length + 1) body t' ∧ Reads (n + 1) inner body ∧
        Reads (n + inner.length + 2) rest t' := by
  generalize htext : c :: cs = text at h
  cases h with
  | done => cases htext
  | blank hc rest =>
    cases htext
    exact .inl ⟨hc, rest⟩
  | word nonempty hletters ends rest =>
    rename_i letters cs' t'
    obtain ⟨d, letters, rfl⟩ := List.exists_cons_of_ne_nil nonempty
    obtain ⟨rfl, rfl⟩ := List.cons.inj htext
    exact .inr (.inl ⟨_, _, _, rfl, hletters c List.mem_cons_self, hletters, ends, rfl, rest⟩)
  | command hc rest =>
    cases htext
    exact .inr (.inr (.inl ⟨_, _, hc, rfl, rest⟩))
  | loop inside rest =>
    cases htext
    exact .inr (.inr (.inr ⟨_, _, _, _, _, rfl, rfl, rfl, inside, rest⟩))

/-- A row does not begin with a closing bracket. -/
theorem Reads.head_ne_closing {n : Nat} {c : Char} {cs : List Char} {t : Tree}
    (h : Reads n (c :: cs) t) (kind : Loop) : Class.of c ≠ .closing kind := by
  rcases h.cons_cases with ⟨hc, -⟩ | ⟨_, _, _, -, hc, -⟩ | ⟨_, _, hc, -⟩ |
    ⟨kind', _, _, _, _, rfl, -⟩
  · rw [hc]
    exact Class.noConfusion
  · rw [hc]
    exact Class.noConfusion
  · rw [hc]
    exact Class.noConfusion
  · rw [Class.of_opener]
    exact Class.noConfusion

/-- A blank before a row may be left out of it. -/
theorem Reads.of_blank {n : Nat} {c : Char} {cs : List Char} {t : Tree} (hc : Class.of c = .blank)
    (h : Reads n (c :: cs) t) : Reads (n + 1) cs t := by
  rcases h.cons_cases with ⟨-, h⟩ | ⟨_, _, _, -, hc', -⟩ | ⟨_, _, hc', -⟩ |
    ⟨kind, _, _, _, _, rfl, -⟩
  · exact h
  · exact nomatch hc.symm.trans hc'
  · exact nomatch hc.symm.trans hc'
  · exact nomatch hc.symm.trans (Class.of_opener kind)

/-- A row that begins with a command has its tree, and the rest spells the tree behind it. -/
theorem Reads.of_command {n : Nat} {c : Char} {k : Command} {cs : List Char} {t : Tree}
    (hc : Class.of c = .command k) (h : Reads n (c :: cs) t) :
    ∃ t', t = .plain n (.command k) t' ∧ Reads (n + 1) cs t' := by
  rcases h.cons_cases with ⟨hc', -⟩ | ⟨_, _, _, -, hc', -⟩ | ⟨k', t', hc', rfl, hrest⟩ |
    ⟨kind, _, _, _, _, rfl, -⟩
  · exact nomatch hc.symm.trans hc'
  · exact nomatch hc.symm.trans hc'
  · cases hc.symm.trans hc'
    exact ⟨t', rfl, hrest⟩
  · exact nomatch hc.symm.trans (Class.of_opener kind)

/-- A row that begins with a letter is a word, as long as letters follow, and a row behind it. -/
theorem Reads.of_letter {n : Nat} {c : Char} {cs : List Char} {t : Tree}
    (hc : Class.of c = .letter) (h : Reads n (c :: cs) t) :
    ∃ letters rest t', c :: cs = letters ++ rest ∧ (∀ c ∈ letters, Class.of c = .letter) ∧
      Severed rest ∧ t = .plain n (.word letters) t' ∧ Reads (n + letters.length) rest t' := by
  rcases h.cons_cases with ⟨hc', -⟩ | ⟨letters, rest, t', htext, -, h⟩ | ⟨_, _, hc', -⟩ |
    ⟨kind, _, _, _, _, rfl, -⟩
  · exact nomatch hc.symm.trans hc'
  · exact ⟨letters, rest, t', htext, h⟩
  · exact nomatch hc.symm.trans hc'
  · exact nomatch hc.symm.trans (Class.of_opener kind)

/-- A row that begins with an opening bracket is a loop, whose body stands up to the bracket that
closes it, and a row behind it. -/
theorem Reads.of_opener {n : Nat} {kind : Loop} {cs : List Char} {t : Tree}
    (h : Reads n (kind.opener :: cs) t) :
    ∃ inner rest body t', cs = inner ++ kind.closer :: rest ∧
      t = .loop kind n (n + inner.length + 1) body t' ∧ Reads (n + 1) inner body ∧
      Reads (n + inner.length + 2) rest t' := by
  have hc := Class.of_opener kind
  rcases h.cons_cases with ⟨hc', -⟩ | ⟨_, _, _, -, hc', -⟩ | ⟨_, _, hc', -⟩ |
    ⟨kind', inner, rest, body, t', hkind, h⟩
  · exact nomatch hc.symm.trans hc'
  · exact nomatch hc.symm.trans hc'
  · exact nomatch hc.symm.trans hc'
  · obtain rfl := Loop.opener_injective hkind
    exact ⟨inner, rest, body, t', h⟩

/-- A text that does not go on with a row: it is at its end, or closes a loop. -/
def Ends (cs : List Char) : Prop := ∀ c ∈ cs.head?, ∃ kind, Class.of c = .closing kind

/-- A row ends with the text. -/
theorem ends_nil : Ends [] := fun _ h => nomatch h

/-- A row ends at a bracket that closes a loop. -/
theorem ends_closer (kind : Loop) (cs : List Char) : Ends (kind.closer :: cs) :=
  fun _ h => ⟨kind, Option.some.inj h ▸ Class.of_closer kind⟩

/-- A text that does not go on with a word goes on without one before the end of a row. -/
theorem Severed.append {cs rest : List Char} (hcs : Severed cs) (hrest : Ends rest) :
    Severed (cs ++ rest) := by
  cases cs with
  | nil =>
    intro c hc
    obtain ⟨kind, hclosing⟩ := hrest c hc
    rw [hclosing]
    exact Class.noConfusion
  | cons c cs => exact fun d hd => hcs d hd

/-- Two rows that begin one text, and end where it does not go on with a row, are of one length, and
spell one tree. -/
theorem Reads.unique_of_append {n : Nat} {cs cs' rest rest' : List Char} {t t' : Tree}
    (ht : Reads n cs t) (ht' : Reads n cs' t') (hsame : cs ++ rest = cs' ++ rest')
    (hrest : Ends rest) (hrest' : Ends rest') : cs = cs' ∧ t = t' := by
  -- A row that begins with a character makes the other one begin with it.
  have hhead {n : Nat} {c : Char} {cs cs' rest rest' : List Char} {t : Tree}
      (ht : Reads n (c :: cs) t) (hsame : c :: cs ++ rest = cs' ++ rest') (hrest' : Ends rest') :
      ∃ less, cs' = c :: less ∧ cs ++ rest = less ++ rest' := by
    cases cs' with
    | nil =>
      rw [List.nil_append] at hsame
      obtain ⟨kind, hclosing⟩ := hrest' c (by rw [← hsame]; rfl)
      exact absurd hclosing (ht.head_ne_closing kind)
    | cons c' less =>
      obtain ⟨rfl, hless⟩ := List.cons.inj hsame
      exact ⟨less, rfl, hless⟩
  induction ht generalizing cs' rest rest' t' with
  | done =>
    cases cs' with
    | nil => exact ⟨rfl, ht'.of_nil.symm⟩
    | cons c less =>
      rw [List.nil_append] at hsame
      obtain ⟨kind, hclosing⟩ := hrest c (by rw [hsame]; rfl)
      exact absurd hclosing (ht'.head_ne_closing kind)
  | blank hc h ih =>
    obtain ⟨less, rfl, hless⟩ := hhead (.blank hc h) hsame hrest'
    obtain ⟨rfl, rfl⟩ := ih (ht'.of_blank hc) hless hrest hrest'
    exact ⟨rfl, rfl⟩
  | @word n letters cs t nonempty hletters ends h ih =>
    obtain ⟨c, letters, rfl⟩ := List.exists_cons_of_ne_nil nonempty
    obtain ⟨less, rfl, -⟩ := hhead (.word nonempty hletters ends h) hsame hrest'
    obtain ⟨letters', after, t'', htext, hletters', ends', rfl, h'⟩ :=
      ht'.of_letter (hletters c List.mem_cons_self)
    -- Both words are all the letters that the text begins with.
    rw [htext, List.append_assoc, List.append_assoc] at hsame
    have hword := takeWhile_word hletters (ends.append hrest)
    rw [hsame, takeWhile_word hletters' (ends'.append hrest')] at hword
    subst hword
    obtain ⟨rfl, rfl⟩ := ih h' (List.append_cancel_left hsame) hrest hrest'
    exact ⟨htext.symm, rfl⟩
  | command hc h ih =>
    obtain ⟨less, rfl, hless⟩ := hhead (.command hc h) hsame hrest'
    obtain ⟨t'', rfl, ht''⟩ := ht'.of_command hc
    obtain ⟨rfl, rfl⟩ := ih ht'' hless hrest hrest'
    exact ⟨rfl, rfl⟩
  | loop inside h ihbody ihrest =>
    obtain ⟨less, rfl, hless⟩ := hhead (.loop inside h) hsame hrest'
    obtain ⟨inner, after, body, t'', rfl, rfl, hbody, hafter⟩ := ht'.of_opener
    -- The bodies end at a closing bracket each, so they are one, and so is what follows them.
    rw [List.append_assoc, List.append_assoc] at hless
    obtain ⟨rfl, rfl⟩ := ihbody hbody hless (ends_closer _ _) (ends_closer _ _)
    have hafter' := (List.cons.inj (List.append_cancel_left hless)).2
    obtain ⟨rfl, rfl⟩ := ihrest hafter hafter' hrest hrest'
    exact ⟨rfl, rfl⟩

/-- A source spells at most one tree. -/
theorem Reads.unique {n : Nat} {cs : List Char} {t t' : Tree} (ht : Reads n cs t)
    (ht' : Reads n cs t') : t = t' :=
  (ht.unique_of_append ht' rfl ends_nil ends_nil).2

end EsotericHost.Element
