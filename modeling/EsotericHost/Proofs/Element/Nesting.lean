import EsotericHost.Proofs.Element.Code

/-!
# Nesting

The brackets of a text are properly nested if they can be built from nothing by putting a pair
around one such row and another such row behind it (`Nested`). A bracket is the innermost of those
that are open behind a text if nothing but properly nested brackets comes after it
(`InnermostOpen`); there is at most one (`InnermostOpen.unique`).

The tokenizer keeps the open brackets on a stack. Behind any text that it has read the stack holds
the open brackets of the text, innermost first (`Open`), and so it complains of the first closing
bracket that does not meet its partner, and otherwise of the innermost bracket that is left open
(`Complains`).
-/

namespace EsotericHost.Element

/-! ## Rows of brackets -/

/-- The characters that open a loop. -/
def isOpener (c : Char) : Bool := c = '[' || c = '\x7b'

/-- The characters that close a loop. -/
def isCloser (c : Char) : Bool := c = ']' || c = '\x7d'

/-- The four brackets. -/
def isBracket (c : Char) : Bool := isOpener c || isCloser c

/-- Properly nested rows of brackets. -/
inductive Nested : List Char → Prop where
  | nil : Nested []
  | loop {inside rest : List Char} (kind : Loop) (hinside : Nested inside) (hrest : Nested rest) :
    Nested (kind.opener :: (inside ++ kind.closer :: rest))

/-- A text whose brackets are properly nested, whatever stands between them. -/
def WellNested (cs : List Char) : Prop := Nested (cs.filter isBracket)

/-- The innermost bracket that is open behind a text is of a kind and has a place: what comes after
it is well nested. -/
def InnermostOpen (kind : Loop) (place : Nat) (before : List Char) : Prop :=
  ∃ outer inner, before = outer ++ kind.opener :: inner ∧ outer.length = place ∧ WellNested inner

/-- A closing bracket meets its partner behind a text: the innermost bracket that is open there is
of its kind. -/
def Meets (kind : Loop) (before : List Char) : Prop := ∃ place, InnermostOpen kind place before

/-- All closing brackets of a text that comes after another one meet their partners. -/
def AllMeet (before cs : List Char) : Prop :=
  ∀ earlier kind later, cs = earlier ++ Loop.closer kind :: later → Meets kind (before ++ earlier)

/-- The bracket of a text that has no partner, if what comes before the text is taken into account:
the first closing bracket that does not meet its partner, or else the innermost one that is left
open. -/
inductive ComplainsBehind (before cs : List Char) : Unmatched → Prop where
  | closer {earlier later : List Char} {kind : Loop} (text : cs = earlier ++ kind.closer :: later)
    (first : AllMeet before earlier) (misses : ¬ Meets kind (before ++ earlier)) :
    ComplainsBehind before cs ⟨kind.closer, (before ++ earlier).length⟩
  | opener {kind : Loop} {place : Nat} (all : AllMeet before cs)
    (left : InnermostOpen kind place (before ++ cs)) :
    ComplainsBehind before cs ⟨kind.opener, place⟩

/-- The bracket of a text that has no partner. -/
def Complains (cs : List Char) (unmatched : Unmatched) : Prop := ComplainsBehind [] cs unmatched

variable {kind kind' : Loop} {before cs inner outer : List Char} {place place' : Nat}

/-- A character that opens a loop is a bracket. -/
theorem isBracket_opener (kind : Loop) : isBracket kind.opener = true := by
  cases kind <;> rfl

/-- A character that closes a loop is a bracket. -/
theorem isBracket_closer (kind : Loop) : isBracket kind.closer = true := by
  cases kind <;> rfl

/-- Loops of different kinds are closed by different characters. -/
theorem Loop.closer_injective : Function.Injective Loop.closer := by
  intro kind kind' h
  cases kind <;> cases kind' <;> first | rfl | exact absurd h (by decide)

/-- No character that opens a loop closes one. -/
theorem Loop.opener_ne_closer (kind kind' : Loop) : kind.opener ≠ kind'.closer := by
  cases kind <;> cases kind' <;> decide

/-! ### What is nested -/

/-- Two rows of brackets that are nested are so one after the other. -/
theorem Nested.append {xs ys : List Char} (hx : Nested xs) (hy : Nested ys) : Nested (xs ++ ys) := by
  induction hx with
  | nil => exact hy
  | loop kind hinside _ _ ih =>
    rw [List.cons_append, List.append_assoc, List.cons_append]
    exact .loop kind hinside ih

/-- The empty text is well nested. -/
theorem wellNested_nil : WellNested [] := .nil

/-- Two well nested texts are so one after the other. -/
theorem WellNested.append (h : WellNested inner) (hcs : WellNested cs) :
    WellNested (inner ++ cs) := by
  unfold WellNested
  rw [List.filter_append]
  exact Nested.append h hcs

/-- What is no bracket does not matter. -/
theorem wellNested_other {c : Char} (hc : isBracket c = false) : WellNested [c] := by
  unfold WellNested
  rw [List.filter_cons_of_neg (Bool.eq_false_iff.mp hc)]
  exact .nil

/-- A well nested text between two brackets of one kind is well nested with them. -/
theorem WellNested.enclose (h : WellNested inner) (kind : Loop) :
    WellNested (kind.opener :: (inner ++ [kind.closer])) := by
  unfold WellNested
  rw [List.filter_cons_of_pos (isBracket_opener kind), List.filter_append,
    List.filter_cons_of_pos (isBracket_closer kind)]
  exact .loop kind h .nil

/-- In a properly nested row every closing bracket comes after its partner, with a properly nested
row between them. -/
theorem Nested.partner {xs ys : List Char} (h : Nested (xs ++ kind.closer :: ys)) :
    ∃ outer inner, xs = outer ++ kind.opener :: inner ∧ Nested inner := by
  generalize hrow : xs ++ kind.closer :: ys = row at h
  induction h generalizing xs ys with
  | nil => exact absurd hrow (by simp)
  | @loop inside rest kind' hinside _ ihinside ihrest =>
    cases xs with
    | nil => exact absurd (List.cons.inj hrow).1.symm (Loop.opener_ne_closer kind' kind)
    | cons x xs =>
      obtain ⟨rfl, htail⟩ := List.cons.inj hrow
      -- The bracket stands inside the first pair, closes it, or stands behind it.
      rcases List.append_eq_append_iff.mp htail with ⟨more, hinside', hmore⟩ | ⟨more, rfl, hmore⟩
      · cases more with
        | nil =>
          obtain ⟨hkind, -⟩ := List.cons.inj hmore
          rw [List.append_nil] at hinside'
          obtain rfl := Loop.closer_injective hkind
          exact ⟨[], xs, rfl, hinside' ▸ hinside⟩
        | cons x more =>
          obtain ⟨hx, -⟩ := List.cons.inj hmore
          obtain ⟨outer, inner, rfl, hinner⟩ := ihinside (by rw [hinside', hx])
          exact ⟨_ :: outer, inner, rfl, hinner⟩
      · cases more with
        | nil =>
          obtain ⟨hkind, -⟩ := List.cons.inj hmore
          obtain rfl := Loop.closer_injective hkind
          exact ⟨[], inside, by rw [List.append_nil]; rfl, hinside⟩
        | cons x more =>
          obtain ⟨-, hbehind⟩ := List.cons.inj hmore
          obtain ⟨outer, inner, rfl, hinner⟩ := ihrest hbehind.symm
          exact ⟨kind'.opener :: (inside ++ x :: outer), inner, by simp, hinner⟩

/-! ### What is open -/

/-- How many more brackets a text opens than it closes. -/
def surplus (cs : List Char) : Int := cs.countP isOpener - cs.countP isCloser

/-- The surplus of two texts adds up. -/
theorem surplus_append (xs ys : List Char) : surplus (xs ++ ys) = surplus xs + surplus ys := by
  unfold surplus
  rw [List.countP_append, List.countP_append]
  push_cast
  omega

/-- A bracket that opens a loop raises the surplus by one. -/
theorem surplus_opener (kind : Loop) (cs : List Char) :
    surplus (kind.opener :: cs) = surplus cs + 1 := by
  have hone : surplus [kind.opener] = 1 := by
    cases kind <;> rfl
  rw [← List.singleton_append, surplus_append, hone]
  omega

/-- A bracket that closes a loop lowers the surplus by one. -/
theorem surplus_closer (kind : Loop) (cs : List Char) :
    surplus (kind.closer :: cs) = surplus cs - 1 := by
  have hone : surplus [kind.closer] = -1 := by
    cases kind <;> rfl
  rw [← List.singleton_append, surplus_append, hone]
  omega

/-- A properly nested row opens as many brackets as it closes, and no end of it opens more. -/
theorem Nested.surplus {xs : List Char} (h : Nested xs) :
    surplus xs = 0 ∧ ∀ front tail, xs = front ++ tail → Element.surplus tail ≤ 0 := by
  induction h with
  | nil =>
    refine ⟨rfl, fun front tail htail => ?_⟩
    rw [(List.append_eq_nil_iff.mp htail.symm).2]
    exact Int.le_refl 0
  | @loop inside rest kind _ _ ihinside ihrest =>
    have hinside : Element.surplus inside = 0 := ihinside.1
    have hrest : Element.surplus rest = 0 := ihrest.1
    have hwhole : Element.surplus (kind.opener :: (inside ++ kind.closer :: rest)) = 0 := by
      rw [surplus_opener, surplus_append, surplus_closer]
      omega
    refine ⟨hwhole, fun front tail htail => ?_⟩
    cases front with
    | nil =>
      rw [List.nil_append] at htail
      rw [← htail]
      exact Int.le_of_eq hwhole
    | cons x front =>
      -- The end begins behind the pair, at its closing bracket, or inside it.
      rcases List.append_eq_append_iff.mp (List.cons.inj htail).2 with
        ⟨more, -, hmore⟩ | ⟨more, hmore, rfl⟩
      · cases more with
        | nil =>
          rw [List.nil_append] at hmore
          rw [← hmore, surplus_closer]
          omega
        | cons y more => exact ihrest.2 more tail (List.cons.inj hmore).2
      · have hle : Element.surplus more ≤ 0 := ihinside.2 front more hmore
        rw [surplus_append, surplus_closer]
        omega

/-- No bracket of a well nested text is left open in it. -/
theorem WellNested.not_innermostOpen (h : WellNested before) : ¬ InnermostOpen kind place before := by
  rintro ⟨outer, inner, rfl, -, hinner⟩
  have hsplit : (outer ++ kind.opener :: inner).filter isBracket =
      outer.filter isBracket ++ kind.opener :: inner.filter isBracket := by
    rw [List.filter_append, List.filter_cons_of_pos (isBracket_opener kind)]
  have hend := (Nested.surplus h).2 _ _ hsplit
  rw [surplus_opener, (Nested.surplus hinner).1] at hend
  omega

/-- Behind a text at most one bracket is the innermost one that is open. -/
theorem InnermostOpen.unique (h : InnermostOpen kind place before)
    (h' : InnermostOpen kind' place' before) : kind = kind' ∧ place = place' := by
  obtain ⟨outer, inner, rfl, rfl, hinner⟩ := h
  obtain ⟨outer', inner', hsame, rfl, hinner'⟩ := h'
  -- If one of them stood inside the other one, that one would not be innermost.
  rcases List.append_eq_append_iff.mp hsame with ⟨more, rfl, hmore⟩ | ⟨more, rfl, hmore⟩
  · cases more with
    | nil =>
      obtain ⟨hkind, -⟩ := List.cons.inj hmore
      rw [List.append_nil]
      exact ⟨Loop.opener_injective hkind, rfl⟩
    | cons x more =>
      obtain ⟨-, rfl⟩ := List.cons.inj hmore
      exact absurd ⟨more, inner', rfl, rfl, hinner'⟩ hinner.not_innermostOpen
  · cases more with
    | nil =>
      obtain ⟨hkind, -⟩ := List.cons.inj hmore
      rw [List.append_nil]
      exact ⟨(Loop.opener_injective hkind).symm, rfl⟩
    | cons x more =>
      obtain ⟨-, rfl⟩ := List.cons.inj hmore
      exact absurd ⟨more, inner, rfl, rfl, hinner⟩ hinner'.not_innermostOpen

/-- In a well nested text every closing bracket meets its partner. -/
theorem WellNested.meets (h : WellNested (before ++ kind.closer :: cs)) : Meets kind before := by
  unfold WellNested at h
  rw [List.filter_append, List.filter_cons_of_pos (isBracket_closer kind)] at h
  obtain ⟨outer, inner, hrow, hinner⟩ := Nested.partner h
  -- The partner stands in the text as it stands in the row of brackets.
  obtain ⟨left, right, rfl, -, hright⟩ := List.filter_eq_append_iff.mp hrow
  obtain ⟨skipped, inside, rfl, -, -, hinside⟩ := List.filter_eq_cons_iff.mp hright
  refine ⟨(left ++ skipped).length, left ++ skipped, inside, ?_, rfl, ?_⟩
  · rw [List.append_assoc]
  · unfold WellNested
    rw [hinside]
    exact hinner

/-! ### Complaints -/

/-- A well nested text has nothing to complain of. -/
theorem WellNested.not_complains (h : WellNested cs) (unmatched : Unmatched) :
    ¬ Complains cs unmatched := by
  intro hc
  cases hc with
  | closer text first misses =>
    rw [text] at h
    exact misses h.meets
  | opener all left => exact h.not_innermostOpen left

/-- There is at most one bracket to complain of. -/
theorem Complains.unique {unmatched unmatched' : Unmatched} (h : Complains cs unmatched)
    (h' : Complains cs unmatched') : unmatched = unmatched' := by
  -- Of two closing brackets that miss their partners, none comes before the other.
  cases h with
  | @closer earlier later kind text first misses =>
    cases h' with
    | @closer earlier' later' kind' text' first' misses' =>
      rw [text] at text'
      rcases List.append_eq_append_iff.mp text' with ⟨more, rfl, hmore⟩ | ⟨more, rfl, hmore⟩
      · cases more with
        | nil =>
          rw [Loop.closer_injective (List.cons.inj hmore).1, List.append_nil]
        | cons x more =>
          obtain ⟨rfl, -⟩ := List.cons.inj hmore
          exact absurd (first' earlier kind more rfl) misses
      · cases more with
        | nil =>
          rw [Loop.closer_injective (List.cons.inj hmore).1, List.append_nil]
        | cons x more =>
          obtain ⟨rfl, -⟩ := List.cons.inj hmore
          exact absurd (first earlier' kind' more rfl) misses'
    | opener all left => exact absurd (all _ _ _ text) misses
  | opener all left =>
    cases h' with
    | closer text first misses => exact absurd (all _ _ _ text) misses
    | opener all' left' =>
      obtain ⟨rfl, rfl⟩ := left.unique left'
      rfl

/-! ## The stack of open brackets -/

/-- The brackets that are open behind a text, innermost first, each with its kind and its place. -/
inductive Open : List (Loop × Nat) → List Char → Prop where
  | none {before : List Char} (all : WellNested before) : Open [] before
  | some {stack : List (Loop × Nat)} {outer inner : List Char} (kind : Loop)
    (others : Open stack outer) (behind : WellNested inner) :
    Open ((kind, outer.length) :: stack) (outer ++ kind.opener :: inner)

namespace Open

variable {stack : List (Loop × Nat)}

/-- A well nested text opens nothing and closes nothing. -/
theorem append {more : List Char} (h : Open stack before) (hmore : WellNested more) :
    Open stack (before ++ more) := by
  cases h with
  | none all => exact .none (all.append hmore)
  | some kind others behind =>
    rw [List.append_assoc, List.cons_append]
    exact .some kind others (behind.append hmore)

/-- A bracket that opens a loop is the innermost one that is open behind it. -/
theorem opener (h : Open stack before) (kind : Loop) :
    Open ((kind, before.length) :: stack) (before ++ [kind.opener]) :=
  .some kind h wellNested_nil

/-- A bracket of the same kind closes the innermost one that is open. -/
theorem closer (h : Open ((kind, place) :: stack) before) : Open stack (before ++ [kind.closer]) := by
  cases h with
  | some _ others behind =>
    rw [List.append_assoc, List.cons_append]
    exact others.append (behind.enclose kind)

/-- The innermost bracket that is open is the first of the row. -/
theorem innermost (h : Open ((kind, place) :: stack) before) : InnermostOpen kind place before := by
  cases h with
  | some _ others behind => exact ⟨_, _, rfl, rfl, behind⟩

/-- A text behind which no bracket is open is well nested. -/
theorem wellNested (h : Open [] before) : WellNested before := by
  cases h with
  | none all => exact all

end Open

/-- Whether a closing bracket meets its partner can be read off the stack. -/
theorem Open.meets_iff {stack : List (Loop × Nat)} (h : Open stack before) :
    Meets kind before ↔ ∃ place outer, stack = (kind, place) :: outer := by
  constructor
  · rintro ⟨place, hplace⟩
    cases h with
    | none all => exact absurd hplace all.not_innermostOpen
    | some kind' others behind =>
      obtain ⟨rfl, -⟩ := hplace.unique ⟨_, _, rfl, rfl, behind⟩
      exact ⟨_, _, rfl⟩
  · rintro ⟨place, outer, rfl⟩
    exact ⟨place, h.innermost⟩

/-- The brackets that wait in a scan, with their kinds and their places. -/
def Scan.stack (scan : Scan) : List (Loop × Nat) :=
  scan.opened.map fun bracket => (bracket.loop, bracket.position)

namespace Scan

variable {scan : Scan} {n : Nat}

/-- A bracket that closes a loop of another kind than the innermost one is complained of. -/
theorem closeLoop_error (h : ∀ place outer, scan.stack ≠ (kind, place) :: outer) :
    scan.closeLoop n kind = .error ⟨kind.closer, n⟩ := by
  unfold closeLoop
  split
  · rfl
  · rename_i partner outer hopened
    have hkind : partner.loop ≠ kind := by
      rintro rfl
      refine h partner.position (outer.map fun bracket => (bracket.loop, bracket.position)) ?_
      rw [stack, hopened, List.map_cons]
    rw [if_pos hkind]

/-- A bracket that closes the innermost loop takes it off the row. -/
theorem closeLoop_ok {outer : List (Loop × Nat)} (h : scan.stack = (kind, place) :: outer) :
    ∃ scan', scan.closeLoop n kind = .ok scan' ∧ scan'.stack = outer := by
  unfold closeLoop
  split
  · rename_i hopened
    rw [stack, hopened] at h
    cases h
  · rename_i partner others hopened
    rw [stack, hopened, List.map_cons] at h
    obtain ⟨hpartner, houter⟩ := List.cons.inj h
    have hkind : partner.loop = kind := congrArg Prod.fst hpartner
    rw [if_neg (not_not.mpr hkind)]
    cases kind with
    | counted => exact ⟨_, rfl, houter⟩
    | conditional => exact ⟨_, rfl, houter⟩

/-- The end of a word leaves the brackets that wait as they are. -/
theorem stack_endWord : scan.endWord.stack = scan.stack := by
  unfold stack
  rw [opened_endWord]

/-- What is no bracket leaves the stack as it is. -/
theorem next_other (scan : Scan) (n : Nat) {c : Char} (hc : isBracket c = false) :
    ∃ scan', scan.next n c = .ok scan' ∧ scan'.stack = scan.stack := by
  unfold next
  rcases Class.of_cases c with hclass | hclass | ⟨k, hclass⟩ | ⟨kind, rfl⟩ | ⟨kind, rfl⟩
  · rw [hclass]
    exact ⟨_, rfl, stack_endWord⟩
  · rw [hclass]
    dsimp only
    split
    · exact ⟨_, rfl, rfl⟩
    · exact ⟨_, rfl, rfl⟩
  · rw [hclass]
    exact ⟨_, rfl, stack_endWord⟩
  · rw [isBracket_opener] at hc
    cases hc
  · rw [isBracket_closer] at hc
    cases hc

/-- A bracket that opens a loop waits in the scan from then on, with its place. -/
theorem next_opener (scan : Scan) (n : Nat) (kind : Loop) :
    ∃ scan', scan.next n kind.opener = .ok scan' ∧ scan'.stack = (kind, n) :: scan.stack := by
  refine ⟨scan.endWord.openLoop n kind, ?_, ?_⟩
  · rw [next, Class.of_opener]
  · unfold stack openLoop
    rw [List.map_cons, opened_endWord]

/-- A bracket that closes a loop ends the word before it and then looks for its partner. -/
theorem next_closing (scan : Scan) (n : Nat) (kind : Loop) :
    scan.next n kind.closer = scan.endWord.closeLoop n kind := by
  rw [next, Class.of_closer]

end Scan

/-- A character is no bracket, or it opens or closes a loop of some kind. -/
theorem bracket_cases (c : Char) :
    isBracket c = false ∨ (∃ kind : Loop, c = kind.opener) ∨ ∃ kind : Loop, c = kind.closer := by
  cases hc : isBracket c with
  | false => exact .inl rfl
  | true =>
    simp only [isBracket, isOpener, isCloser, Bool.or_eq_true, decide_eq_true_eq] at hc
    rcases hc with (rfl | rfl) | (rfl | rfl)
    · exact .inr (.inl ⟨.counted, rfl⟩)
    · exact .inr (.inl ⟨.conditional, rfl⟩)
    · exact .inr (.inr ⟨.counted, rfl⟩)
    · exact .inr (.inr ⟨.conditional, rfl⟩)

/-- A character that closes nothing, or meets its partner, can be read before the rest. -/
theorem AllMeet.cons {c : Char} (hc : ∀ kind, c = Loop.closer kind → Meets kind before)
    (h : AllMeet (before ++ [c]) cs) : AllMeet before (c :: cs) := by
  intro earlier kind later htext
  cases earlier with
  | nil =>
    rw [List.append_nil]
    exact hc kind (List.cons.inj htext).1
  | cons d earlier =>
    obtain ⟨rfl, hrest⟩ := List.cons.inj htext
    have hmeets := h earlier kind later hrest
    rwa [List.append_assoc, List.singleton_append] at hmeets

/-- A bracket that is complained of behind one more character is complained of before it, if that
character meets its partner or closes nothing. -/
theorem ComplainsBehind.cons {c : Char} {unmatched : Unmatched}
    (hc : ∀ kind, c = Loop.closer kind → Meets kind before)
    (h : ComplainsBehind (before ++ [c]) cs unmatched) :
    ComplainsBehind before (c :: cs) unmatched := by
  cases h with
  | @closer earlier later kind text first misses =>
    rw [List.append_assoc, List.singleton_append] at misses
    have htext : c :: cs = (c :: earlier) ++ kind.closer :: later := by rw [text, List.cons_append]
    have hcomplaint := ComplainsBehind.closer htext (first.cons hc) misses
    rwa [List.append_assoc, List.singleton_append]
  | opener all left =>
    rw [List.append_assoc, List.singleton_append] at left
    exact .opener (all.cons hc) left

/-- What a scan does with one more character, if it has the open brackets of the text before it on
its stack: it has those of the longer text, or the character closes what is not open. -/
theorem Open.next {scan : Scan} (h : Open scan.stack before) (c : Char) :
    (∃ scan', scan.next before.length c = .ok scan' ∧ Open scan'.stack (before ++ [c]) ∧
        ∀ kind, c = Loop.closer kind → Meets kind before) ∨
      ∃ kind, c = Loop.closer kind ∧ ¬ Meets kind before ∧
        scan.next before.length c = .error ⟨kind.closer, before.length⟩ := by
  rcases bracket_cases c with hother | ⟨kind, rfl⟩ | ⟨kind, rfl⟩
  · obtain ⟨scan', hnext, hstack⟩ := scan.next_other before.length hother
    refine .inl ⟨scan', hnext, ?_, fun kind hkind => ?_⟩
    · rw [hstack]
      exact h.append (wellNested_other hother)
    · rw [hkind, isBracket_closer] at hother
      cases hother
  · obtain ⟨scan', hnext, hstack⟩ := scan.next_opener before.length kind
    refine .inl ⟨scan', hnext, ?_, fun kind' hkind => absurd hkind (Loop.opener_ne_closer kind kind')⟩
    rw [hstack]
    exact h.opener kind
  · have hnext := scan.next_closing before.length kind
    by_cases hmeets : Meets kind before
    · obtain ⟨place, outer, hstack⟩ := h.meets_iff.mp hmeets
      have hword : scan.endWord.stack = (kind, place) :: outer := Scan.stack_endWord.trans hstack
      obtain ⟨scan', hclose, houter⟩ := Scan.closeLoop_ok hword (n := before.length)
      refine .inl ⟨scan', hnext.trans hclose, ?_, fun kind' hkind => ?_⟩
      · rw [hstack] at h
        rw [houter]
        exact h.closer
      · obtain rfl := Loop.closer_injective hkind
        exact hmeets
    · have hmisses : ∀ place outer, scan.endWord.stack ≠ (kind, place) :: outer := by
        intro place outer hstack
        rw [Scan.stack_endWord] at hstack
        exact hmeets (h.meets_iff.mpr ⟨place, outer, hstack⟩)
      exact .inr ⟨kind, rfl, hmeets, hnext.trans (Scan.closeLoop_error hmisses)⟩

/-- No closing bracket of the empty text lacks its partner. -/
theorem allMeet_nil (before : List Char) : AllMeet before [] :=
  fun _ _ _ htext => absurd htext (by simp)

/-- A scan that has the open brackets of a text on its stack reads on to the end if the whole is
well nested, and complains otherwise. -/
theorem Open.read {scan : Scan} (h : Open scan.stack before) (cs : List Char) :
    (∀ tokens, scan.read before.length cs = .ok tokens → WellNested (before ++ cs)) ∧
      ∀ unmatched, scan.read before.length cs = .error unmatched →
        ComplainsBehind before cs unmatched := by
  -- The induction is on what is still to be read, from the stack of a longer and longer text.
  induction cs generalizing scan before with
  | nil =>
    rw [Scan.read, List.append_nil]
    cases hopened : scan.opened with
    | nil =>
      rw [Scan.stack, hopened] at h
      refine ⟨fun _ _ => h.wellNested, fun _ he => ?_⟩
      cases he
    | cons bracket outer =>
      rw [Scan.stack, hopened, List.map_cons] at h
      refine ⟨fun _ ht => ?_, fun unmatched he => ?_⟩
      · cases ht
      · obtain rfl := Except.error.inj he
        refine .opener (allMeet_nil before) ?_
        rw [List.append_nil]
        exact h.innermost
  | cons c cs ih =>
    rcases h.next c with ⟨scan', hnext, hopen, hc⟩ | ⟨kind, rfl, hmisses, hnext⟩
    · obtain ⟨hok, herror⟩ := ih hopen
      rw [List.append_assoc, List.singleton_append] at hok
      rw [List.length_append, List.length_singleton] at hok herror
      rw [Scan.read, hnext]
      exact ⟨hok, fun unmatched he => (herror unmatched he).cons hc⟩
    · rw [Scan.read, hnext]
      refine ⟨fun _ ht => ?_, fun unmatched he => ?_⟩
      · cases ht
      · obtain rfl := Except.error.inj he
        rw [← List.append_nil before] at hmisses
        have hcomplaint : ComplainsBehind before (kind.closer :: cs)
            ⟨kind.closer, (before ++ []).length⟩ := .closer rfl (allMeet_nil before) hmisses
        rwa [List.append_nil] at hcomplaint

/-- The sources that have tokens are the well nested ones. -/
theorem tokenize_ok_iff_wellNested :
    (∃ tokens, tokenize cs = .ok tokens) ↔ WellNested cs := by
  have hstart : Open Scan.start.stack [] := .none wellNested_nil
  obtain ⟨hok, herror⟩ := hstart.read cs
  constructor
  · rintro ⟨tokens, htokens⟩
    exact hok tokens htokens
  · intro h
    cases htokens : tokenize cs with
    | ok tokens => exact ⟨tokens, rfl⟩
    | error unmatched => exact absurd (herror unmatched htokens) (h.not_complains unmatched)

/-- A source without tokens is refused for the bracket that has no partner. -/
theorem tokenize_error_iff_complains {unmatched : Unmatched} :
    tokenize cs = .error unmatched ↔ Complains cs unmatched := by
  have hstart : Open Scan.start.stack [] := .none wellNested_nil
  obtain ⟨-, herror⟩ := hstart.read cs
  constructor
  · exact herror unmatched
  · intro h
    cases htokens : tokenize cs with
    | ok tokens =>
      have hnested : WellNested cs := tokenize_ok_iff_wellNested.mp ⟨tokens, htokens⟩
      exact absurd h (hnested.not_complains unmatched)
    | error unmatched' =>
      have hcomplaint : Complains cs unmatched' := herror unmatched' htokens
      rw [hcomplaint.unique h]

end EsotericHost.Element
