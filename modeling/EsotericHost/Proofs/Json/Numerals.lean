import EsotericHost.Json.Reader
import Mathlib.Data.List.Basic
import Mathlib.Tactic.SplitIfs

/-!
# Where a number ends

The reader of numbers takes what goes on with a number and leaves the rest alone: behind a number
that is followed by a blank, a comma or a bracket there may stand anything.
-/

namespace EsotericHost.Json

open Decimal (digitValue? takeDigits takeSign)
open Text (Read)

/-- The characters that may go on with a number. -/
def goesOn (c : Char) : Bool :=
  (digitValue? c).isSome || c ∈ ['.', 'e', 'E', '+', '-']

/-- What may stand behind a number. -/
def Stops (rest : List Char) : Prop :=
  ∀ c ∈ rest.head?, goesOn c = false

/-- A number stops at the end of the text. -/
theorem stops_nil : Stops [] := by simp [Stops]

/-- A number stops before a character that cannot go on with it. -/
theorem stops_cons {c : Char} {rest : List Char} : Stops (c :: rest) ↔ goesOn c = false := by
  simp [Stops]

/-- A character that cannot go on with a number is no digit. -/
theorem digitValue?_eq_none {c : Char} (h : goesOn c = false) : digitValue? c = none := by
  simp_all [goesOn]

variable {rest : List Char}

/-- What has been read, with more behind what is left of the text. -/
def leaving {α : Type} (rest : List Char) (p : α × List Char) : α × List Char :=
  (p.1, p.2 ++ rest)

/-- What is left of a text, with more behind it. -/
@[simp]
theorem leaving_mk {α : Type} (rest cs : List Char) (a : α) :
    leaving rest (a, cs) = (a, cs ++ rest) := rfl

/-! ## The parts of a number -/

/-- Digits that count are taken up to where the number stops. -/
theorem takeSignificant_append (hstop : Stops rest) (n count : Nat) (cs : List Char) :
    takeSignificant n count (cs ++ rest) =
      Prod.map id (leaving rest) (takeSignificant n count cs) := by
  induction cs generalizing n count with
  | nil =>
    cases rest with
    | nil => rfl
    | cons c rest => simp [takeSignificant, digitValue?_eq_none (stops_cons.mp hstop)]
  | cons c cs ih =>
    simp only [List.cons_append, takeSignificant]
    split
    · split
      · exact ih _ _
      · rfl
    · rfl

/-- Digits that no longer count are dropped up to where the number stops. -/
theorem dropDigits_append (hstop : Stops rest) (count : Nat) (cs : List Char) :
    dropDigits count (cs ++ rest) = leaving rest (dropDigits count cs) := by
  induction cs generalizing count with
  | nil =>
    cases rest with
    | nil => rfl
    | cons c rest => simp [dropDigits, digitValue?_eq_none (stops_cons.mp hstop)]
  | cons c cs ih =>
    simp only [List.cons_append, dropDigits]
    split
    · exact ih _
    · rfl

/-- All digits are taken up to where the number stops. -/
theorem takeDigits_append (hstop : Stops rest) (cs : List Char) :
    takeDigits (cs ++ rest) = leaving rest (takeDigits cs) := by
  induction cs with
  | nil =>
    cases rest with
    | nil => rfl
    | cons c rest => simp [takeDigits, digitValue?_eq_none (stops_cons.mp hstop)]
  | cons c cs ih =>
    cases hc : digitValue? c with
    | none => simp [takeDigits, hc]
    | some d => simpa [takeDigits, hc] using ih

/-- A sign is taken from what is before the place where the number stops. -/
theorem takeSign_append (hstop : Stops rest) (cs : List Char) :
    takeSign (cs ++ rest) = leaving rest (takeSign cs) := by
  cases cs with
  | nil =>
    cases rest with
    | nil => rfl
    | cons c rest =>
      have hc := stops_cons.mp hstop
      rw [List.nil_append, takeSign]
      · rfl
      all_goals
        rintro _ ⟨⟩
        simp [goesOn] at hc
  | cons c cs =>
    rw [List.cons_append]
    unfold takeSign
    split <;> simp_all

/-- An exponent is read up to where the number stops. -/
theorem readScaled_append (hstop : Stops rest) (negative : Bool) (significand : Nat)
    (exponent : Int) (cs : List Char) :
    readScaled negative significand exponent (cs ++ rest) =
      (readScaled negative significand exponent cs).map (leaving rest) := by
  have hfinish (e : Int) (ds : List Char) :
      (scale? 40 (Float.ofNat significand) e).map
          (fun x => (Number.float (if negative then -x else x), ds ++ rest)) =
        ((scale? 40 (Float.ofNat significand) e).map
          fun x => (Number.float (if negative then -x else x), ds)).map (leaving rest) := by
    rw [Option.map_map]
    rfl
  cases cs with
  | nil =>
    cases rest with
    | nil => exact hfinish _ _
    | cons c rest =>
      have hc := stops_cons.mp hstop
      have he : ¬ (c = 'e' ∨ c = 'E') := by rintro (rfl | rfl) <;> simp [goesOn] at hc
      simp only [List.nil_append, readScaled, he, if_false]
      exact hfinish _ []
  | cons c cs =>
    simp only [List.cons_append, readScaled, takeSign_append hstop]
    by_cases he : c = 'e' ∨ c = 'E'
    · obtain ⟨down, body⟩ := takeSign cs
      simp only [he, if_true, leaving_mk, takeDigits_append hstop]
      obtain ⟨_ | ⟨d, ds⟩, body⟩ := takeDigits body
      · rfl
      · simp only [leaving_mk]
        by_cases hbound : (Decimal.ofDigits (d :: ds) : Int) < exponentBound
        · simp only [hbound, if_true]
          exact hfinish _ _
        · simp only [hbound, if_false]
          by_cases hlarge : significand ≠ 0 ∧ ¬ down
          · rw [if_pos hlarge]
            exact if_pos hlarge
          · rw [if_neg hlarge]
            exact if_neg hlarge
    · simp only [he, if_false]
      exact hfinish _ (c :: cs)

/-- What follows the whole part is read up to where the number stops. -/
theorem whole_append (hstop : Stops rest) (negative : Bool) (significand beyond : Nat)
    (cs : List Char) :
    readUnsigned.whole negative significand beyond (cs ++ rest) =
      (readUnsigned.whole negative significand beyond cs).map (leaving rest) := by
  simp only [readUnsigned.whole, readScaled_append hstop]
  split_ifs <;> rfl

/-- Whether a number begins with a zero is not up to what stands behind it. -/
theorem head?_append_eq_zero (hstop : Stops rest) (cs : List Char) :
    (cs ++ rest).head? = some '0' ↔ cs.head? = some '0' := by
  cases cs with
  | nil =>
    have hzero : '0' ∉ rest.head? := fun h => absurd (hstop _ h) (by decide)
    simpa using hzero
  | cons c cs => simp

/-- A number without its sign is read up to where it stops. -/
theorem readUnsigned_append (hstop : Stops rest) (negative : Bool) (cs : List Char) :
    readUnsigned negative (cs ++ rest) = (readUnsigned negative cs).map (leaving rest) := by
  simp only [readUnsigned, takeSignificant_append hstop, head?_append_eq_zero hstop]
  obtain ⟨significand, count, ds⟩ := takeSignificant 0 0 cs
  simp only [Prod.map, id, leaving_mk, dropDigits_append hstop]
  obtain ⟨beyond, ds⟩ := dropDigits 0 ds
  dsimp only [leaving_mk]
  split_ifs
  · rfl
  · cases ds with
    | nil =>
      have hwhole := whole_append hstop negative significand beyond []
      cases rest with
      | nil => exact hwhole
      | cons c rest =>
        have hc := stops_cons.mp hstop
        have he : ¬ (c = 'e' ∨ c = 'E') := by rintro (rfl | rfl) <;> simp [goesOn] at hc
        have hpoint : c ≠ '.' := by rintro rfl; simp [goesOn] at hc
        simpa [he, hpoint] using hwhole
    | cons c ds =>
      by_cases hpoint : c = '.'
      · subst hpoint
        simp only [List.cons_append, takeSignificant_append hstop]
        obtain ⟨significand, places, ds⟩ := takeSignificant significand 0 ds
        simp only [Prod.map, id, leaving_mk, dropDigits_append hstop]
        obtain ⟨more, ds⟩ := dropDigits 0 ds
        dsimp only [leaving_mk]
        by_cases hplaces : places + more = 0
        · rw [if_pos hplaces]
          exact if_pos hplaces
        · rw [if_neg hplaces]
          exact (if_neg hplaces).trans (readScaled_append hstop _ _ _ _)
      · simp only [List.cons_append]
        split_ifs
        · exact readScaled_append hstop _ _ _ (c :: ds)
        · exact whole_append hstop _ _ _ (c :: ds)

/-- Nothing is made of what stands behind a number. -/
theorem readNumber_append (hstop : Stops rest) (cs : List Char) :
    readNumber (cs ++ rest) = (readNumber cs).map (leaving rest) := by
  by_cases hminus : cs.head? = some '-'
  · obtain ⟨cs, rfl⟩ : ∃ ds, cs = '-' :: ds := List.head?_eq_some_iff.mp hminus
    exact readUnsigned_append hstop true cs
  · have hrest : '-' ∉ rest.head? := fun h => absurd (hstop _ h) (by decide)
    rw [readNumber, readNumber, readUnsigned_append hstop]
    · rintro ds rfl
      exact hminus rfl
    · intro ds hds
      cases cs <;> simp_all

/-! ## What is left of the text -/

/-- A character that has a value as a digit is one, and has the value of its place behind zero. -/
theorem isDigit_of_digitValue? {c : Char} {d : Nat} (h : digitValue? c = some d) :
    c.isDigit ∧ d = c.toNat - '0'.toNat := by
  rw [digitValue?, Option.ite_none_right_eq_some] at h
  obtain ⟨⟨hlow, hhigh⟩, ⟨⟩⟩ := h
  exact ⟨by simpa [Char.isDigit] using ⟨hlow, hhigh⟩, rfl⟩

/-- The digits that are taken stand at the beginning of the text and make the number, as far as a
machine word counts it. -/
theorem takeSignificant_split {n count m k : Nat} {cs ds : List Char}
    (h : takeSignificant n count cs = (m, k, ds)) :
    ∃ taken, cs = taken ++ ds ∧ (∀ c ∈ taken, c.isDigit) ∧ m = Nat.ofDigitChars 10 taken n ∧
      k = count + taken.length ∧ (n < Word.natBound → m < Word.natBound) := by
  induction cs generalizing n count with
  | nil =>
    cases h
    exact ⟨[], rfl, by simp, by simp, by simp, id⟩
  | cons c cs ih =>
    rw [takeSignificant] at h
    split at h
    next d hd =>
      split at h
      next hholds =>
        obtain ⟨hc, rfl⟩ := isDigit_of_digitValue? hd
        obtain ⟨taken, rfl, hdigits, rfl, rfl, hfits⟩ := ih h
        refine ⟨c :: taken, rfl, by simpa using ⟨hc, hdigits⟩, ?_, ?_, fun _ => hfits ?_⟩
        · rw [Nat.ofDigitChars_cons]
        · simp only [List.length_cons]
          omega
        · simpa [Word.holdsNat] using hholds
      next =>
        cases h
        exact ⟨[], rfl, by simp, by simp, by simp, id⟩
    next =>
      cases h
      exact ⟨[], rfl, by simp, by simp, by simp, id⟩

/-- The digits that are dropped stand at the beginning of the text and are counted. -/
theorem dropDigits_split {count k : Nat} {cs ds : List Char} (h : dropDigits count cs = (k, ds)) :
    ∃ dropped, cs = dropped ++ ds ∧ k = count + dropped.length := by
  induction cs generalizing count with
  | nil =>
    cases h
    exact ⟨[], rfl, rfl⟩
  | cons c cs ih =>
    rw [dropDigits] at h
    split at h
    · obtain ⟨dropped, rfl, rfl⟩ := ih h
      exact ⟨c :: dropped, rfl, by simp only [List.length_cons]; omega⟩
    · cases h
      exact ⟨[], rfl, rfl⟩

/-- What a sign leaves is the end of the text. -/
theorem takeSign_suffix (cs : List Char) : (takeSign cs).2 <:+ cs := by
  unfold takeSign
  split
  · exact List.suffix_cons _ _
  · exact List.suffix_cons _ _
  · exact List.suffix_rfl

/-- What the digits leave is the end of the text. -/
theorem takeDigits_suffix (cs : List Char) : (takeDigits cs).2 <:+ cs :=
  List.dropWhile_suffix _

/-- A number with an exponent is a double, and leaves the end of the text. -/
theorem readScaled_suffix {negative : Bool} {significand : Nat} {exponent : Int} {cs : List Char}
    {n : Number} {ds : List Char}
    (h : readScaled negative significand exponent cs = some (n, ds)) :
    (∃ x, n = .float x) ∧ ds <:+ cs := by
  cases cs with
  | nil =>
    obtain ⟨x, -, hx⟩ := Option.map_eq_some_iff.mp h
    cases hx
    exact ⟨⟨_, rfl⟩, List.suffix_rfl⟩
  | cons c cs =>
    have hdigits := (takeDigits_suffix (takeSign cs).2).trans
      ((takeSign_suffix cs).trans (List.suffix_cons c cs))
    simp only [readScaled] at h
    split at h
    · generalize takeDigits (takeSign cs).2 = p at h hdigits
      obtain ⟨_ | ⟨d, ds⟩, body⟩ := p
      · cases h
      · dsimp only at h hdigits
        split at h
        · obtain ⟨x, -, hx⟩ := Option.map_eq_some_iff.mp h
          cases hx
          exact ⟨⟨_, rfl⟩, hdigits⟩
        · split at h
          · cases h
          · cases h
            exact ⟨⟨_, rfl⟩, hdigits⟩
    · obtain ⟨x, -, hx⟩ := Option.map_eq_some_iff.mp h
      cases hx
      exact ⟨⟨_, rfl⟩, List.suffix_rfl⟩

/-- A whole part that has no digits beyond is followed by nothing of the number, or the number is a
double. -/
theorem whole_split {negative : Bool} {m beyond : Nat} {cs ds : List Char} {n : Number}
    (h : readUnsigned.whole negative m beyond cs = some (n, ds)) :
    (beyond = 0 ∧ ds = cs) ∨ (∃ x, n = .float x) ∧ ds <:+ cs := by
  unfold readUnsigned.whole at h
  split_ifs at h with hbeyond
  · exact .inr (readScaled_suffix h)
  all_goals
    cases h
    exact .inl ⟨by omega, rfl⟩

/-! ## Integers -/

/-- A digit is the character of its value. -/
theorem digitChar_of_isDigit {c : Char} (h : c.isDigit) :
    c.toNat - '0'.toNat < 10 ∧ Nat.digitChar (c.toNat - '0'.toNat) = c := by
  obtain ⟨hlow, hhigh⟩ := Char.isDigit_iff_toNat.mp h
  have hzero : '0'.toNat = 48 := rfl
  have hnine : '9'.toNat = 57 := rfl
  have hd : c.toNat - '0'.toNat < 10 := by omega
  refine ⟨hd, ?_⟩
  rw [← Char.toNat_inj, Nat.toNat_digitChar_of_lt_ten hd]
  omega

/-- Digits that follow those of a number are the digits of the number that they make of it. -/
theorem toDigits_ofDigitChars {cs : List Char} (hcs : ∀ c ∈ cs, c.isDigit) {m : Nat}
    (hm : 0 < m) :
    Nat.toDigits 10 (Nat.ofDigitChars 10 cs m) = Nat.toDigits 10 m ++ cs := by
  induction cs generalizing m with
  | nil => simp
  | cons c cs ih =>
    obtain ⟨hd, hchar⟩ := digitChar_of_isDigit (hcs c (by simp))
    rw [Nat.ofDigitChars_cons, ih (fun c hc => hcs c (by simp [hc])) (by omega),
      ← Nat.toDigits_append_toDigits (by decide) hm hd, Nat.toDigits_of_lt_base hd, hchar]
    simp

/-- Digits with no zero in front of others are the digits of the number that they make. -/
theorem toDigits_ofDigitChars_zero {c : Char} {cs : List Char}
    (hcs : ∀ d ∈ c :: cs, d.isDigit) (hzero : c = '0' → cs = []) :
    Nat.toDigits 10 (Nat.ofDigitChars 10 (c :: cs) 0) = c :: cs := by
  obtain ⟨hd, hchar⟩ := digitChar_of_isDigit (hcs c (by simp))
  by_cases hc : c = '0'
  · rw [hzero hc, hc]
    rfl
  · have hpos : 0 < c.toNat - '0'.toNat := by
      obtain ⟨hlow, -⟩ := Char.isDigit_iff_toNat.mp (hcs c (by simp))
      have : c.toNat ≠ '0'.toNat := fun h => hc (Char.toNat_inj.mp h)
      omega
    rw [Nat.ofDigitChars_cons, Nat.mul_zero, Nat.zero_add,
      toDigits_ofDigitChars (fun d hd => hcs d (by simp [hd])) hpos, Nat.toDigits_of_lt_base hd,
      hchar]
    rfl

/-- A number without a sign is the digits of a natural number that fits, with nothing after them,
or else a double. -/
theorem readUnsigned_split {negative : Bool} {cs ds : List Char} {n : Number}
    (h : readUnsigned negative cs = some (n, ds)) :
    (∃ m, cs = Nat.toDigits 10 m ++ ds ∧ m < Word.natBound ∧
      readUnsigned.whole negative m 0 ds = some (n, ds)) ∨ (∃ x, n = .float x) ∧ ds <:+ cs := by
  unfold readUnsigned at h
  generalize htake : takeSignificant 0 0 cs = p at h
  obtain ⟨m, k, es⟩ := p
  obtain ⟨taken, rfl, hdigits, rfl, rfl, hfits⟩ := takeSignificant_split htake
  dsimp only at h
  generalize hdrop : dropDigits 0 es = p at h
  obtain ⟨beyond, fs⟩ := p
  obtain ⟨dropped, rfl, rfl⟩ := dropDigits_split hdrop
  have hsuffix : fs <:+ taken ++ (dropped ++ fs) :=
    (List.suffix_append _ _).trans (List.suffix_append _ _)
  split at h
  · cases h
  rename_i hcount
  have htaken : Nat.toDigits 10 (Nat.ofDigitChars 10 taken 0) = taken := by
    rw [Nat.zero_add, not_or, not_and] at hcount
    obtain ⟨c, taken, rfl⟩ : ∃ c cs, taken = c :: cs :=
      List.exists_cons_of_length_pos (Nat.pos_of_ne_zero hcount.1)
    refine toDigits_ofDigitChars_zero hdigits fun hc => ?_
    have hshort := hcount.2 (congrArg some hc)
    exact List.eq_nil_of_length_eq_zero (by simp only [List.length_cons] at hshort; omega)
  have hwhole (hends : readUnsigned.whole negative (Nat.ofDigitChars 10 taken 0)
      (0 + dropped.length) fs = some (n, ds)) :
      (∃ m, taken ++ (dropped ++ fs) = Nat.toDigits 10 m ++ ds ∧ m < Word.natBound ∧
        readUnsigned.whole negative m 0 ds = some (n, ds)) ∨
        (∃ x, n = .float x) ∧ ds <:+ taken ++ (dropped ++ fs) := by
    rcases whole_split hends with ⟨hnone, rfl⟩ | ⟨hn, hds⟩
    · obtain rfl : dropped = [] := List.eq_nil_of_length_eq_zero (by omega)
      exact .inl ⟨_, by rw [htaken]; rfl, hfits (by decide), hends⟩
    · exact .inr ⟨hn, hds.trans hsuffix⟩
  split at h
  · rename_i after hfs
    dsimp only at hfs
    subst hfs
    generalize htake' : takeSignificant (Nat.ofDigitChars 10 taken 0) 0 after = p at h
    obtain ⟨m, k, es⟩ := p
    obtain ⟨more, rfl, -⟩ := takeSignificant_split htake'
    dsimp only at h
    generalize hdrop' : dropDigits 0 es = p at h
    obtain ⟨k', fs⟩ := p
    obtain ⟨more', rfl, -⟩ := dropDigits_split hdrop'
    split at h
    · cases h
    · obtain ⟨hn, hds⟩ := readScaled_suffix h
      refine .inr ⟨hn, hds.trans (.trans ?_ hsuffix)⟩
      exact (List.suffix_append _ _).trans
        ((List.suffix_append _ _).trans (List.suffix_cons _ _))
  · split at h
    · obtain ⟨hn, hds⟩ := readScaled_suffix h
      exact .inr ⟨hn, hds.trans hsuffix⟩
    · exact hwhole h
  · exact hwhole h

/-- The value of a digit, as the library counts digits. -/
theorem digitValue?_of_isDigit {c : Char} (h : c.isDigit) :
    digitValue? c = some (c.toNat - '0'.toNat) := by
  simp only [Char.isDigit, Bool.and_eq_true, decide_eq_true_eq] at h
  exact if_pos h

/-- More digits make no number smaller. -/
theorem le_ofDigitChars (ds : List Char) (m : Nat) : m ≤ Nat.ofDigitChars 10 ds m := by
  rw [Nat.ofDigitChars_eq_ofDigitChars_zero]
  have := Nat.le_mul_of_pos_left m (Nat.pow_pos (n := ds.length) (by decide : 0 < 10))
  omega

/-- All digits at the front are taken if the number that they make fits. -/
theorem takeSignificant_digits {ds : List Char} (hd : ∀ c ∈ ds, c.isDigit)
    (hrest : ∀ c ∈ rest.head?, digitValue? c = none) (m count : Nat)
    (hfits : Nat.ofDigitChars 10 ds m < Word.natBound) :
    takeSignificant m count (ds ++ rest) =
      (Nat.ofDigitChars 10 ds m, count + ds.length, rest) := by
  induction ds generalizing m count with
  | nil =>
    cases rest with
    | nil => simp [takeSignificant]
    | cons c rest => simp [takeSignificant, hrest c rfl]
  | cons c ds ih =>
    rw [Nat.ofDigitChars_cons] at hfits ⊢
    have hholds : Word.holdsNat (10 * m + (c.toNat - '0'.toNat)) := by
      simpa [Word.holdsNat] using Nat.lt_of_le_of_lt (le_ofDigitChars ds _) hfits
    rw [List.cons_append, takeSignificant, digitValue?_of_isDigit (hd c (by simp))]
    simp only [hholds, if_true]
    rw [ih (fun c hc => hd c (by simp [hc])) _ _ hfits]
    simp [Nat.add_right_comm, Nat.add_assoc]

/-- Only zero is written with a zero in front. -/
theorem eq_zero_of_head?_toDigits {n : Nat} (h : (Nat.toDigits 10 n).head? = some '0') : n = 0 := by
  induction n using Nat.base_induction 10 (by decide) with
  | single m hm => simpa [Nat.toDigits_of_lt_base hm] using h
  | digit m k hk hm ih =>
    rw [← Nat.toDigits_append_toDigits (by decide) hm hk,
      List.head?_append_of_ne_nil _ Nat.toDigits_ne_nil] at h
    have := ih h
    omega

/-- The digits of a natural number that fits are read up to their end. -/
theorem readUnsigned_toDigits (negative : Bool) {n : Nat} (hn : n < Word.natBound) :
    readUnsigned negative (Nat.toDigits 10 n) = readUnsigned.whole negative n 0 [] := by
  have hdigits : ∀ c ∈ Nat.toDigits 10 n, c.isDigit :=
    fun c hc => Nat.isDigit_of_mem_toDigits (by decide) (by decide) hc
  have hend : ∀ c ∈ ([] : List Char).head?, digitValue? c = none := by simp
  have htake := takeSignificant_digits hdigits hend 0 0 (by simpa using hn)
  rw [List.append_nil, Nat.ofDigitChars_ten_toDigits, Nat.zero_add] at htake
  have hlength : (Nat.toDigits 10 n).length ≠ 0 := by simp
  have hzero : ¬ ((Nat.toDigits 10 n).head? = some '0' ∧ 1 < (Nat.toDigits 10 n).length) := by
    rintro ⟨hhead, hlong⟩
    rw [eq_zero_of_head?_toDigits hhead] at hlong
    simp at hlong
  unfold readUnsigned
  simp only [htake, hlength, hzero, or_self, if_false, dropDigits]

/-- A natural number starts with a digit. -/
theorem exists_toDigits_eq_cons (n : Nat) :
    ∃ c cs, Nat.toDigits 10 n = c :: cs ∧ c.isDigit := by
  obtain ⟨c, cs, hcs⟩ := List.exists_cons_of_ne_nil (Nat.toDigits_ne_nil (n := n) (b := 10))
  have hmem : c ∈ Nat.toDigits 10 n := by simp [hcs]
  exact ⟨c, cs, hcs, Nat.isDigit_of_mem_toDigits (by decide) (by decide) hmem⟩

/-- An integer of 64 bits is read from its digits. -/
theorem readNumber_toString {n : Int} (hn : Number.fits n) :
    readNumber (toString n).toList = some (.int n, []) := by
  simp only [Number.fits, Bool.and_eq_true, decide_eq_true_eq] at hn
  obtain ⟨hlow, hhigh⟩ := hn
  rw [Int.toString_eq_repr, Int.repr_eq_if]
  split
  case isTrue h0 =>
    have hfits : n.toNat < Word.natBound := by omega
    obtain ⟨c, cs, hcs, hdigit⟩ := exists_toDigits_eq_cons n.toNat
    have hread : readNumber (c :: cs) = readUnsigned false (c :: cs) := by
      rw [readNumber]
      rintro - ⟨⟩
      simp at hdigit
    rw [Nat.toList_repr, hcs, hread, ← hcs, readUnsigned_toDigits false hfits]
    simp [readUnsigned.whole, Int.toNat_of_nonneg h0]
  case isFalse h0 =>
    have hfits : (-n).toNat < Word.natBound := by
      simp only [Word.intBound, Word.natBound] at *
      omega
    have hbody := readUnsigned_toDigits true hfits
    have hzero : (-n).toNat ≠ 0 := by omega
    have hbound : ¬ Word.intBound < ((-n).toNat : Int) := by omega
    simp only [readUnsigned.whole, hzero, hbound] at hbody
    simp only [String.toList_append, Nat.toList_repr]
    exact hbody.trans (by simp; omega)

/-- What is left after a number is the end of the text. -/
theorem readNumber_suffix {cs ds : List Char} {n : Number} (h : readNumber cs = some (n, ds)) :
    ds <:+ cs := by
  have hunsigned {negative : Bool} {cs : List Char}
      (h : readUnsigned negative cs = some (n, ds)) : ds <:+ cs := by
    obtain ⟨m, rfl, -⟩ | ⟨-, hds⟩ := readUnsigned_split h
    · exact List.suffix_append _ _
    · exact hds
  unfold readNumber at h
  split at h
  · exact (hunsigned h).trans (List.suffix_cons _ _)
  · exact hunsigned h

/-- Only the digits of an integer of 64 bits are read as that integer. -/
theorem eq_toString_of_readNumber {cs : List Char} {n : Int}
    (h : readNumber cs = some (.int n, [])) : Number.fits n ∧ cs = (toString n).toList := by
  have hunsigned {negative : Bool} {cs : List Char}
      (h : readUnsigned negative cs = some (.int n, [])) :
      ∃ m, cs = Nat.toDigits 10 m ∧ m < Word.natBound ∧
        readUnsigned.whole negative m 0 [] = some (.int n, []) := by
    obtain ⟨m, rfl, hm, hends⟩ | ⟨⟨x, hx⟩, -⟩ := readUnsigned_split h
    · exact ⟨m, List.append_nil _, hm, hends⟩
    · cases hx
  have hint : Word.intBound = 9223372036854775808 := rfl
  have hnat : Word.natBound = 18446744073709551616 := rfl
  simp only [Number.fits, Bool.and_eq_true, decide_eq_true_eq]
  rw [Int.toString_eq_repr, Int.repr_eq_if]
  unfold readNumber at h
  split at h
  · obtain ⟨m, rfl, -, hends⟩ := hunsigned h
    simp only [readUnsigned.whole, ne_eq, not_true_eq_false, if_false, if_true] at hends
    split_ifs at hends with hfloat
    · cases hends
    · cases hends
      rw [if_neg (by omega)]
      exact ⟨by omega, by simp⟩
  · obtain ⟨m, rfl, hm, hends⟩ := hunsigned h
    cases hends
    exact ⟨by omega, by simp⟩

/-- A number starts with its sign or with a digit. -/
theorem exists_cons_of_readNumber {cs : List Char} {p : Number × List Char}
    (h : readNumber cs = some p) : ∃ c ds, cs = c :: ds ∧ (c = '-' ∨ c.isDigit) := by
  match cs with
  | [] => simp [readNumber, readUnsigned, takeSignificant] at h
  | c :: ds =>
    refine ⟨c, ds, rfl, ?_⟩
    by_contra hc
    rw [not_or] at hc
    have hdigit : digitValue? c = none := by
      rw [Option.eq_none_iff_forall_ne_some]
      exact fun d hd => hc.2 (isDigit_of_digitValue? hd).1
    have hminus : ∀ es, c :: ds = '-' :: es → False := by
      rintro _ ⟨⟩
      exact hc.1 rfl
    rw [readNumber.eq_2 _ hminus] at h
    simp [readUnsigned, takeSignificant, hdigit] at h

end EsotericHost.Json
