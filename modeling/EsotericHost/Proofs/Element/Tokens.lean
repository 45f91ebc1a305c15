import EsotericHost.Element.Machine
import EsotericHost.Proofs.Element.Nesting
import EsotericHost.Proofs.Element.Partners

/-!
# The tokens of a source

The tokens of a source stand in it one behind the other with nothing but blank characters between
them (`Laid`), each by the text that spells it (`Spelled`). So every character that is not blank
belongs to one token, a command is a token of its own, and a word goes as far as there are letters
on both sides (`LaidOut`). The brackets among the tokens point to their partners (`Partnered`).
-/

namespace EsotericHost.Element

/-! ## Characters -/

/-- The characters that are commands, the brackets among them. -/
def commandCharacters : List Char := "\x60_;~+-*/%^<>=!&|\"'?:#$().,@[]\x7b\x7d".toList

/-- The characters that words are made of. -/
def IsLetter (c : Char) : Prop := Text.isBlank c = false ∧ c ∉ commandCharacters

/-- The brackets are among the characters that are commands. -/
theorem mem_commandCharacters_of_bracket {c : Char} (hc : isBracket c = true) :
    c ∈ commandCharacters := by
  rcases bracket_cases c with hother | ⟨kind, rfl⟩ | ⟨kind, rfl⟩
  · rw [hc] at hother
    cases hother
  · cases kind <;> decide
  · cases kind <;> decide

/-- A character that is no bracket is a command if it is among them. -/
theorem ofChar?_eq_none_iff {c : Char} (hc : isBracket c = false) :
    Command.ofChar? c = none ↔ c ∉ commandCharacters := by
  have hchars : commandCharacters = ['\x60', '_', ';', '~', '+', '-', '*', '/', '%', '^', '<', '>',
      '=', '!', '&', '|', '"', '\'', '?', ':', '#', '$', '(', ')', '.', ',', '@', '[', ']', '\x7b',
      '\x7d'] := by
    decide
  simp only [isBracket, isOpener, isCloser, Bool.or_eq_false_iff, decide_eq_false_iff_not] at hc
  obtain ⟨⟨hsquare, hbrace⟩, hsquare', hbrace'⟩ := hc
  rw [hchars]
  unfold Command.ofChar?
  split <;> simp_all

/-- A character that is no bracket is a command, a blank or a letter. -/
theorem class_of_other {c : Char} (hc : isBracket c = false) :
    Class.of c = match Command.ofChar? c with
      | some k => .command k
      | none => if Text.isBlank c then .blank else .letter := by
  simp only [isBracket, isOpener, isCloser, Bool.or_eq_false_iff, decide_eq_false_iff_not] at hc
  obtain ⟨⟨hsquare, hbrace⟩, hsquare', hbrace'⟩ := hc
  calc Class.of c
    _ = _ := if_neg hsquare
    _ = _ := if_neg hsquare'
    _ = _ := if_neg hbrace
    _ = _ := if_neg hbrace'

/-- No blank is a command. -/
theorem isBlank_of_command {c : Char} (hc : c ∈ commandCharacters) : Text.isBlank c = false := by
  have hall : commandCharacters.all (fun c => !Text.isBlank c) = true := by decide
  have hnot : (!Text.isBlank c) = true := List.all_eq_true.mp hall c hc
  rwa [Bool.not_eq_true'] at hnot

/-- A character is blank, a letter or a command, and the reader of tokens takes it for that. -/
theorem class_cases (c : Char) :
    (Text.isBlank c = true ∧ Class.of c = .blank) ∨ (IsLetter c ∧ Class.of c = .letter) ∨
      (c ∈ commandCharacters ∧ Class.of c ≠ .blank ∧ Class.of c ≠ .letter) := by
  rcases bracket_cases c with hc | ⟨kind, rfl⟩ | ⟨kind, rfl⟩
  · rw [class_of_other hc]
    cases hcommand : Command.ofChar? c with
    | some k =>
      have hmem : c ∈ commandCharacters := by
        by_contra hnot
        rw [(ofChar?_eq_none_iff hc).mpr hnot] at hcommand
        cases hcommand
      exact .inr (.inr ⟨hmem, Class.noConfusion, Class.noConfusion⟩)
    | none =>
      have hnot : c ∉ commandCharacters := (ofChar?_eq_none_iff hc).mp hcommand
      dsimp only
      cases hblank : Text.isBlank c with
      | true => exact .inl ⟨rfl, rfl⟩
      | false => exact .inr (.inl ⟨⟨hblank, hnot⟩, rfl⟩)
  · rw [Class.of_opener]
    exact .inr (.inr ⟨mem_commandCharacters_of_bracket (isBracket_opener kind), Class.noConfusion,
      Class.noConfusion⟩)
  · rw [Class.of_closer]
    exact .inr (.inr ⟨mem_commandCharacters_of_bracket (isBracket_closer kind), Class.noConfusion,
      Class.noConfusion⟩)

/-- What is read as a letter is what words are made of. -/
theorem letter_iff {c : Char} : Class.of c = .letter ↔ IsLetter c := by
  rcases class_cases c with ⟨hblank, hc⟩ | ⟨hletter, hc⟩ | ⟨hcommand, -, hc⟩
  · rw [hc]
    refine ⟨fun h => (nomatch h), fun h => ?_⟩
    rw [h.1] at hblank
    cases hblank
  · exact ⟨fun _ => hletter, fun _ => hc⟩
  · exact ⟨fun h => absurd h hc, fun h => absurd hcommand h.2⟩

/-- What is read as a blank is one. -/
theorem isBlank_of_class {c : Char} (h : Class.of c = .blank) : Text.isBlank c = true := by
  rcases class_cases c with ⟨hblank, -⟩ | ⟨-, hc⟩ | ⟨-, hc, -⟩
  · exact hblank
  · exact nomatch h.symm.trans hc
  · exact absurd h hc

/-! ## Texts of tokens -/

/-- The text that spells a token. -/
inductive Spelled : Op → List Char → Prop where
  | word (letters : List Char) : Spelled (.word letters) letters
  | command {c : Char} {k : Command} (hc : Command.ofChar? c = some k) : Spelled (.command k) [c]
  | repeatStart (close : Option Nat) : Spelled (.repeatStart close) ['[']
  | repeatEnd (start : Nat) : Spelled (.repeatEnd start) [']']
  | whileStart : Spelled .whileStart ['\x7b']
  | whileEnd (start : Nat) : Spelled (.whileEnd start) ['\x7d']

/-- A token that is no word. -/
def Op.Single (op : Op) : Prop := ∀ letters, op ≠ .word letters

/-- The number of characters of a token. -/
def Op.width : Op → Nat
  | word letters => letters.length
  | _ => 1

/-- A token that is no word takes one character. -/
theorem Op.Single.width_eq {op : Op} (h : op.Single) : op.width = 1 := by
  cases op with
  | word letters => exact absurd rfl (h letters)
  | _ => rfl

/-- A token stands at its place in a source. A word is as long as it can be: neither before it nor
behind it comes a letter. -/
structure Token.Stands (source : List Char) (token : Token) : Prop where
  spelled : ∃ text, Spelled token.op text ∧ text <+: source.drop token.position
  nonempty : ∀ letters, token.op = .word letters → letters ≠ []
  letters : ∀ letters, token.op = .word letters → ∀ c ∈ letters, IsLetter c
  starts : ∀ letters, token.op = .word letters →
    ∀ p c, p + 1 = token.position → source[p]? = some c → ¬ IsLetter c
  ends : ∀ letters, token.op = .word letters →
    ∀ c, source[token.position + letters.length]? = some c → ¬ IsLetter c

/-- The tokens of a part of a source that begins at the given place. -/
inductive Laid : Nat → List Char → List Token → Prop where
  | done {n : Nat} : Laid n [] []
  | blank {n : Nat} {c : Char} {cs : List Char} {tokens : List Token} (hc : Class.of c = .blank)
    (rest : Laid (n + 1) cs tokens) : Laid n (c :: cs) tokens
  | word {n : Nat} {letters cs : List Char} {tokens : List Token} (nonempty : letters ≠ [])
    (hletters : ∀ c ∈ letters, Class.of c = .letter) (ends : Severed cs)
    (rest : Laid (n + letters.length) cs tokens) :
    Laid n (letters ++ cs) (⟨n, .word letters⟩ :: tokens)
  | single {n : Nat} {c : Char} {op : Op} {cs : List Char} {tokens : List Token}
    (spelled : Spelled op [c]) (alone : op.Single) (hc : c ∈ commandCharacters)
    (rest : Laid (n + 1) cs tokens) : Laid n (c :: cs) (⟨n, op⟩ :: tokens)

/-- The token that opens a loop is spelled by its bracket, wherever it leads. -/
theorem spelled_openOp (kind : Loop) (close : Nat) : Spelled (kind.openOp close) [kind.opener] := by
  cases kind with
  | counted => exact .repeatStart _
  | conditional => exact .whileStart

/-- The token that closes a loop is spelled by its bracket, wherever it leads. -/
theorem spelled_closeOp (kind : Loop) (start : Nat) :
    Spelled (kind.closeOp start) [kind.closer] := by
  cases kind with
  | counted => exact .repeatEnd start
  | conditional => exact .whileEnd start

/-- The token that opens a loop is no word. -/
theorem single_openOp (kind : Loop) (close : Nat) : (kind.openOp close).Single := by
  cases kind <;> exact fun _ => Op.noConfusion

/-- The token that closes a loop is no word. -/
theorem single_closeOp (kind : Loop) (start : Nat) : (kind.closeOp start).Single := by
  cases kind <;> exact fun _ => Op.noConfusion

/-- A character of the class of a command spells it. -/
theorem ofChar?_of_class {c : Char} {k : Command} (hc : Class.of c = .command k) :
    Command.ofChar? c = some k ∧ c ∈ commandCharacters := by
  rcases bracket_cases c with hother | ⟨kind, rfl⟩ | ⟨kind, rfl⟩
  · rw [class_of_other hother] at hc
    cases hcommand : Command.ofChar? c with
    | none =>
      rw [hcommand] at hc
      dsimp only at hc
      split at hc <;> cases hc
    | some k' =>
      rw [hcommand] at hc
      obtain rfl := Class.command.inj hc
      refine ⟨rfl, ?_⟩
      by_contra hnot
      rw [(ofChar?_eq_none_iff hother).mpr hnot] at hcommand
      cases hcommand
  · exact nomatch hc.symm.trans (Class.of_opener kind)
  · exact nomatch hc.symm.trans (Class.of_closer kind)

/-- The code of a tree is laid out as the text that it is read from, whatever comes behind. -/
theorem Reads.laid {n : Nat} {cs rest : List Char} {t : Tree} {tokens : List Token}
    (ht : Reads n cs t) (base : Nat) (hrest : Ends rest) (hlaid : Laid (n + cs.length) rest tokens) :
    Laid n (cs ++ rest) (t.code base ++ tokens) := by
  induction ht generalizing base rest tokens with
  | done => exact hlaid
  | @blank n c cs t hc _ ih =>
    rw [List.length_cons, ← Nat.add_assoc, Nat.add_right_comm] at hlaid
    exact .blank hc (ih base hrest hlaid)
  | @word n letters cs t nonempty hletters ends _ ih =>
    rw [List.length_append, ← Nat.add_assoc] at hlaid
    rw [List.append_assoc]
    exact .word nonempty hletters (ends.append hrest) (ih (base + 1) hrest hlaid)
  | @command n c k cs t hc _ ih =>
    rw [List.length_cons, ← Nat.add_assoc, Nat.add_right_comm] at hlaid
    obtain ⟨hcommand, hmem⟩ := ofChar?_of_class hc
    exact .single (.command hcommand) (fun _ => Op.noConfusion) hmem (ih (base + 1) hrest hlaid)
  | @loop n kind inner cs body t _ _ ihbody ihrest =>
    -- The rest is laid behind the closing bracket, and the body behind the opening one.
    have hend : n + (kind.opener :: (inner ++ kind.closer :: cs)).length =
        n + inner.length + 2 + cs.length := by
      simp only [List.length_cons, List.length_append]
      omega
    rw [hend] at hlaid
    have hbehind := ihrest (base + body.size + 2) hrest hlaid
    have hclosed : Laid (n + inner.length + 1) (kind.closer :: (cs ++ rest))
        (⟨n + inner.length + 1, kind.closeOp base⟩ :: (t.code (base + body.size + 2) ++ tokens)) :=
      .single (spelled_closeOp kind base) (single_closeOp kind base)
        (mem_commandCharacters_of_bracket (isBracket_closer kind)) hbehind
    rw [show n + inner.length + 1 = n + 1 + inner.length by omega] at hclosed
    have hbody := ihbody (base + 1) (ends_closer kind _) hclosed
    have hall := Laid.single (spelled_openOp kind (base + body.size + 1))
      (single_openOp kind _) (mem_commandCharacters_of_bracket (isBracket_opener kind)) hbody
    rw [Tree.code, List.cons_append, List.append_assoc, List.cons_append, List.cons_append,
      List.append_assoc, List.cons_append, show n + inner.length + 1 = n + 1 + inner.length by omega]
    exact hall

/-! ## Where tokens stand -/

namespace Laid

variable {source cs : List Char} {tokens : List Token} {n : Nat}

/-- What stands at the beginning of a part of a source, and what stands behind it. -/
theorem at_cons {c : Char} (h : source.drop n = c :: cs) :
    source[n]? = some c ∧ source.drop (n + 1) = cs := by
  constructor
  · rw [← List.head?_drop, h]
    rfl
  · rw [← List.tail_drop, h]
    rfl

/-- Behind some letters of a source stands the rest of it, and at their places stand only they. -/
theorem at_append {letters : List Char} (h : source.drop n = letters ++ cs) :
    source.drop (n + letters.length) = cs ∧
      ∀ p c, n ≤ p → p < n + letters.length → source[p]? = some c → c ∈ letters := by
  constructor
  · rw [← List.drop_drop, h, List.drop_left]
  · intro p c hle hlt hp
    have hfirst : (letters ++ cs)[p - n]? = letters[p - n]? :=
      List.getElem?_append_left (by omega)
    have hletter : letters[p - n]? = some c := by
      rw [← hfirst, ← h, List.getElem?_drop, Nat.add_sub_cancel' hle]
      exact hp
    exact List.mem_of_getElem? hletter

/-- The tokens of a part of a source do not stand before it. -/
theorem le_position (h : Laid n cs tokens) : ∀ token ∈ tokens, n ≤ token.position := by
  induction h with
  | done => exact fun _ hmem => absurd hmem List.not_mem_nil
  | blank _ _ ih => exact fun token hmem => Nat.le_of_succ_le (ih token hmem)
  | word _ _ _ _ ih =>
    intro token hmem
    rcases List.mem_cons.mp hmem with rfl | hmem
    · exact Nat.le_refl _
    · exact Nat.le_trans (Nat.le_add_right _ _) (ih token hmem)
  | single _ _ _ _ ih =>
    intro token hmem
    rcases List.mem_cons.mp hmem with rfl | hmem
    · exact Nat.le_refl _
    · exact Nat.le_of_succ_le (ih token hmem)

/-- Every token ends before the next one begins. -/
theorem pairwise (h : Laid n cs tokens) :
    tokens.Pairwise fun token later => token.position + token.op.width ≤ later.position := by
  induction h with
  | done => exact .nil
  | blank _ _ ih => exact ih
  | word _ _ _ rest ih => exact .cons rest.le_position ih
  | single _ alone _ rest ih =>
    refine .cons (fun later hmem => ?_) ih
    rw [alone.width_eq]
    exact rest.le_position later hmem

/-- The tokens stand in the source, if its part is not the rest of a word. -/
theorem stands (h : Laid n cs tokens) (hdrop : source.drop n = cs)
    (hfirst : ∀ p c, p + 1 = n → source[p]? = some c → Class.of c = .letter → Severed cs) :
    ∀ token ∈ tokens, token.Stands source := by
  induction h with
  | done => exact fun _ hmem => absurd hmem List.not_mem_nil
  | @blank n c cs tokens hc rest ih =>
    obtain ⟨hhere, hrest⟩ := at_cons hdrop
    refine ih hrest fun p d hp hd hletter => ?_
    obtain rfl : p = n := Nat.succ.inj hp
    obtain rfl := Option.some.inj (hhere.symm.trans hd)
    exact nomatch hc.symm.trans hletter
  | @word n letters cs tokens nonempty hletters ends rest ih =>
    intro token hmem
    obtain ⟨hrest, -⟩ := at_append hdrop
    rcases List.mem_cons.mp hmem with rfl | hmem
    · refine ⟨⟨letters, .word letters, ?_⟩, fun more hmore => ?_, fun more hmore c hc => ?_,
        fun _ _ p c hp hc hletter => ?_, fun more hmore c hc hletter => ?_⟩
      · rw [hdrop]
        exact List.prefix_append letters cs
      · rwa [← Op.word.inj hmore]
      · rw [← Op.word.inj hmore] at hc
        exact letter_iff.mp (hletters c hc)
      · -- The part would be the rest of a word, and begins with a letter.
        obtain ⟨d, more, rfl⟩ := List.exists_cons_of_ne_nil nonempty
        exact hfirst p c hp hc (letter_iff.mpr hletter) d rfl (hletters d List.mem_cons_self)
      · rw [← Op.word.inj hmore] at hc
        refine ends c ?_ (letter_iff.mpr hletter)
        rw [← hrest, List.head?_drop]
        exact hc
    · exact ih hrest (fun _ _ _ _ _ => ends) token hmem
  | @single n c op cs tokens spelled alone hc rest ih =>
    intro token hmem
    obtain ⟨hhere, hrest⟩ := at_cons hdrop
    rcases List.mem_cons.mp hmem with rfl | hmem
    · refine ⟨⟨[c], spelled, ?_⟩, fun more hmore => absurd hmore (alone more),
        fun more hmore => absurd hmore (alone more), fun more hmore => absurd hmore (alone more),
        fun more hmore => absurd hmore (alone more)⟩
      rw [hdrop]
      exact List.prefix_append [c] cs
    · refine ih hrest (fun p d hp hd hletter => ?_) token hmem
      obtain rfl : p = n := Nat.succ.inj hp
      obtain rfl := Option.some.inj (hhere.symm.trans hd)
      exact absurd hc (letter_iff.mp hletter).2

/-- A character that is not blank belongs to a token, and a command is a token of its own. -/
theorem covers (h : Laid n cs tokens) (hdrop : source.drop n = cs) {p : Nat} {c : Char}
    (hle : n ≤ p) (hp : source[p]? = some c) (hc : Text.isBlank c = false) :
    ∃ token ∈ tokens, token.position ≤ p ∧ p < token.position + token.op.width ∧
      (c ∈ commandCharacters → token.position = p ∧ token.op.Single ∧ Spelled token.op [c]) := by
  induction h with
  | @done n =>
    have hlength : source.length ≤ n := List.drop_eq_nil_iff.mp hdrop
    rw [List.getElem?_eq_none (by omega)] at hp
    cases hp
  | @blank n d cs tokens hblank rest ih =>
    obtain ⟨hhere, hrest⟩ := at_cons hdrop
    refine ih hrest (Nat.lt_of_le_of_ne hle fun heq => ?_)
    rw [← heq, hhere] at hp
    obtain rfl := Option.some.inj hp
    rw [isBlank_of_class hblank] at hc
    cases hc
  | @word n letters cs tokens nonempty hletters ends rest ih =>
    obtain ⟨hrest, hmem⟩ := at_append hdrop
    by_cases hlt : p < n + letters.length
    · refine ⟨_, List.mem_cons_self, hle, hlt, fun hcommand => ?_⟩
      have hletter : IsLetter c := letter_iff.mp (hletters c (hmem p c hle hlt hp))
      exact absurd hcommand hletter.2
    · obtain ⟨token, htoken, hcovers⟩ := ih hrest (Nat.le_of_not_lt hlt)
      exact ⟨token, List.mem_cons_of_mem _ htoken, hcovers⟩
  | @single n d op cs tokens spelled alone hd rest ih =>
    obtain ⟨hhere, hrest⟩ := at_cons hdrop
    rcases Nat.eq_or_lt_of_le hle with rfl | hlt
    · obtain rfl := Option.some.inj (hhere.symm.trans hp)
      refine ⟨_, List.mem_cons_self, Nat.le_refl n, ?_, fun _ => ⟨rfl, alone, spelled⟩⟩
      rw [alone.width_eq]
      exact Nat.lt_succ_self n
    · obtain ⟨token, htoken, hcovers⟩ := ih hrest hlt
      exact ⟨token, List.mem_cons_of_mem _ htoken, hcovers⟩

end Laid

/-! ## Sources and their tokens -/

/-- Tokens that a source is made of. -/
structure LaidOut (source : List Char) (tokens : Array Token) : Prop where
  increasing : ∀ (i j : Nat) (_ : i < j) (_ : j < tokens.size),
    tokens[i].position < tokens[j].position
  stands : ∀ token ∈ tokens, token.Stands source
  /-- A character that is not blank belongs to exactly one token. -/
  covered : ∀ p c, source[p]? = some c → Text.isBlank c = false →
    ∃! i : Nat, ∃ token : Token, tokens[i]? = some token ∧ token.position ≤ p ∧
      p < token.position + token.op.width
  /-- A command is a token of its own. -/
  commands : ∀ p c, source[p]? = some c → c ∈ commandCharacters →
    ∃ token ∈ tokens, token.position = p ∧ token.op.Single ∧ Spelled token.op [c]

/-- What the token with an index does. -/
def opAt (tokens : Array Token) (i : Nat) : Option Op := tokens[i]?.map (·.op)

/-- Tokens whose brackets point to their partners. -/
structure Partnered (tokens : Array Token) : Prop where
  counted : ∀ i j, opAt tokens i = some (.repeatStart (some j)) ↔
    opAt tokens j = some (.repeatEnd i)
  /-- Every bracket that opens a counted loop has a partner. -/
  complete : ∀ i, opAt tokens i ≠ some (.repeatStart none)
  conditional : ∀ i j, opAt tokens j = some (.whileEnd i) → opAt tokens i = some .whileStart
  /-- Brackets that close loops point to different brackets before them, so that the loops lie one
  behind the other or one inside the other. -/
  nested : ∀ (kind kind' : Loop) (i j i' j' : Nat), opAt tokens j = some (kind.closeOp i) →
    opAt tokens j' = some (kind'.closeOp i') → j ≠ j' →
    i < j ∧ i' < j' ∧ i ≠ i' ∧ Pair.Apart ⟨kind, i, j⟩ ⟨kind', i', j'⟩

/-- Laid out tokens cover the source. -/
theorem Laid.laidOut {source : List Char} {tokens : Array Token}
    (h : Laid 0 source tokens.toList) : LaidOut source tokens := by
  have hstands : ∀ token ∈ tokens, token.Stands source := fun token hmem =>
    h.stands rfl (fun _ _ hp => nomatch hp) token (Array.mem_toList_iff.mpr hmem)
  have hapart (i j : Nat) (hij : i < j) (hj : j < tokens.size) :
      tokens[i].position + tokens[i].op.width ≤ tokens[j].position :=
    List.pairwise_iff_getElem.mp h.pairwise i j _ hj hij
  have hwidth : ∀ token ∈ tokens, 0 < token.op.width := by
    intro token hmem
    cases hop : token.op with
    | word letters => exact List.length_pos_iff.mpr ((hstands token hmem).nonempty letters hop)
    | _ => exact Nat.one_pos
  have hcovers {p : Nat} {c : Char} (hp : source[p]? = some c) (hc : Text.isBlank c = false) :=
    h.covers rfl (Nat.zero_le p) hp hc
  refine ⟨fun i j hij hj => ?_, hstands, fun p c hp hc => ?_, fun p c hp hc => ?_⟩
  · have hle := hapart i j hij hj
    have hpos : 0 < tokens[i].op.width := hwidth _ (Array.getElem_mem _)
    omega
  · obtain ⟨token, hmem, hle, hlt, -⟩ := hcovers hp hc
    obtain ⟨i, hi, hget⟩ := List.mem_iff_getElem.mp hmem
    have hsize : i < tokens.size := hi
    have htoken : tokens[i] = token := hget
    refine ⟨i, ⟨token, ?_, hle, hlt⟩, ?_⟩
    · rw [Array.getElem?_eq_getElem hsize, htoken]
    · rintro j ⟨other, hother, hle', hlt'⟩
      obtain ⟨hj, rfl⟩ := Array.getElem?_eq_some_iff.mp hother
      subst htoken
      -- Of two tokens one ends before the other begins.
      rcases Nat.lt_trichotomy i j with hij | rfl | hji
      · have hbefore := hapart i j hij hj
        omega
      · rfl
      · have hbefore := hapart j i hji hsize
        omega
  · obtain ⟨token, hmem, -, -, hcommand⟩ := hcovers hp (isBlank_of_command hc)
    exact ⟨token, Array.mem_toList_iff.mp hmem, hcommand hc⟩

/-- The tokens of the code of a tree are found in it by their indices. -/
theorem mem_marks_iff {t : Tree} {op : Op} {i : Nat} :
    (op, i) ∈ t.marks 0 ↔ opAt (t.code 0).toArray i = some op := by
  rw [Tree.marks, List.mem_zipIdx_iff_getElem?, List.getElem?_map, opAt, List.getElem?_toArray]

/-- The tokens that close a loop are those of the pairs, by their index. -/
theorem Tree.opAt_closeOp_iff {t : Tree} (kind : Loop) (i j : Nat) :
    opAt (t.code 0).toArray j = some (kind.closeOp i) ↔ ⟨kind, i, j⟩ ∈ t.pairs 0 := by
  rw [← mem_marks_iff, closing_iff]

/-- The brackets among the tokens of a tree point to their partners. -/
theorem Tree.partnered (t : Tree) : Partnered (t.code 0).toArray := by
  have hcount (i j : Nat) : opAt (t.code 0).toArray i = some (.repeatStart (some j)) ↔
      ⟨.counted, i, j⟩ ∈ t.pairs 0 := by
    rw [← mem_marks_iff, counting_iff]
    exact ⟨fun ⟨_, hj, h⟩ => Option.some.inj hj ▸ h, fun h => ⟨j, rfl, h⟩⟩
  refine ⟨fun i j => (hcount i j).trans (opAt_closeOp_iff .counted i j).symm, fun i h => ?_,
    fun i j h => ?_, fun kind kind' i j i' j' h h' hne => ?_⟩
  · obtain ⟨_, hnone, -⟩ := counting_iff.mp (mem_marks_iff.mpr h)
    cases hnone
  · exact mem_marks_iff.mp (testing_iff.mpr ⟨j, (opAt_closeOp_iff .conditional i j).mp h⟩)
  · have hpair := (opAt_closeOp_iff kind i j).mp h
    have hpair' := (opAt_closeOp_iff kind' i' j').mp h'
    have hbounds := bounds_of_mem_pairs hpair
    have hbounds' := bounds_of_mem_pairs hpair'
    have hdistinct : (⟨kind, i, j⟩ : Pair) ≠ ⟨kind', i', j'⟩ := fun heq =>
      hne (congrArg Pair.close heq)
    have happart : Pair.Apart ⟨kind, i, j⟩ ⟨kind', i', j'⟩ :=
      (pairs_apart 0 t).forall hpair hpair' hdistinct
    refine ⟨hbounds.2.1, hbounds'.2.1, ?_, happart⟩
    unfold Pair.Apart at happart
    dsimp only at happart hbounds hbounds'
    omega

/-- **What the tokens of a source are.** A source has tokens just if its brackets are properly
nested, and otherwise the machine refuses it for the bracket that has no partner, and says where it
stands. The tokens that a source has are laid out in it without a gap, and their brackets point to
their partners. -/
theorem tokenize_exact (source : String) :
    ((∃ tokens, tokenize source.toList = .ok tokens) ↔ WellNested source.toList) ∧
      (∀ unmatched, tokenize source.toList = .error unmatched ↔
        Complains source.toList unmatched) ∧
      (∀ s : State, (machine.load source s).result =
        match tokenize source.toList with
        | .ok _ => .ok ()
        | .error unmatched => .error (.fault (.badCode
          s!"unmatched '{unmatched.bracket}' at position {unmatched.position}"))) ∧
      ∀ tokens, tokenize source.toList = .ok tokens →
        LaidOut source.toList tokens ∧ Partnered tokens := by
  refine ⟨tokenize_ok_iff_wellNested, fun _ => tokenize_error_iff_complains, fun s => ?_,
    fun tokens htokens => ?_⟩
  · change ((load source s).mapError Trouble.upset).result = _
    unfold load
    cases tokenize source.toList <;> rfl
  · obtain ⟨t, ht⟩ := tokenize_ok_iff.mp ⟨tokens, htokens⟩
    obtain rfl := Except.ok.inj (ht.tokenize.symm.trans htokens)
    have hlaid : Laid 0 source.toList (t.code 0) := by
      have hall := ht.laid 0 ends_nil .done
      rwa [List.append_nil, List.append_nil] at hall
    exact ⟨Laid.laidOut hlaid, t.partnered⟩

end EsotericHost.Element
