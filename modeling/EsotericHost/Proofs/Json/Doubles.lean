import EsotericHost.Json.Printer
import EsotericHost.Proofs.Json.Numerals
import Mathlib.Data.List.TakeWhile

/-!
# The texts of doubles

The text of a finite double is a numeral: digits, perhaps a point with more digits behind it,
perhaps an exponent. The reader of numbers leaves nothing of a numeral, whatever double it makes of
it. So a number is read from its text up to the end or not at all (`readNumber_text`).
-/

namespace EsotericHost.Json

open Decimal (digitChars digitValue? takeDigits)

/-! ## Numerals -/

/-- Digits and nothing else. -/
def Digital (cs : List Char) : Prop :=
  ∀ c ∈ cs, c.isDigit

/-- The decimal digits of a natural number are digits. -/
theorem digital_toDigits (n : Nat) : Digital (Nat.toDigits 10 n) :=
  fun _ hc => Nat.isDigit_of_mem_toDigits (by decide) (by decide) hc

/-- Zeros are digits. -/
theorem digital_replicate_zero (n : Nat) : Digital (List.replicate n '0') := by
  intro c hc
  rw [List.eq_of_mem_replicate hc]
  rfl

/-- A zero alone is digits. -/
theorem digital_zero : Digital ['0'] :=
  digital_replicate_zero 1

/-- Digits behind digits are digits. -/
theorem Digital.append {cs ds : List Char} (hc : Digital cs) (hd : Digital ds) :
    Digital (cs ++ ds) :=
  fun c h => (List.mem_append.mp h).elim (hc c) (hd c)

/-- The first of some digits are digits. -/
theorem Digital.take {cs : List Char} (hc : Digital cs) (n : Nat) : Digital (cs.take n) :=
  fun c h => hc c (List.mem_of_mem_take h)

/-- What follows the first of some digits is digits. -/
theorem Digital.drop {cs : List Char} (hc : Digital cs) (n : Nat) : Digital (cs.drop n) :=
  fun c h => hc c (List.mem_of_mem_drop h)

/-- What may stand between the whole part of a number and its exponent. -/
inductive Fraction : List Char → Prop
  | absent : Fraction []
  | point {ds : List Char} (h : Digital ds) : Fraction ('.' :: ds)

/-- What may stand at the end of a number. -/
inductive Exponent : List Char → Prop
  | absent : Exponent []
  | power {sign : Char} {ds : List Char} (hsign : sign = '+' ∨ sign = '-') (h : Digital ds) :
      Exponent ('e' :: sign :: ds)

/-- The texts of numbers without a sign. -/
inductive Numeral : List Char → Prop
  | mk {whole fraction exponent : List Char} (hne : whole ≠ []) (hw : Digital whole)
      (hf : Fraction fraction) (he : Exponent exponent) :
      Numeral (whole ++ (fraction ++ exponent))

/-- A numeral begins with a digit. -/
theorem Numeral.exists_cons {cs : List Char} (h : Numeral cs) :
    ∃ c ds, cs = c :: ds ∧ c.isDigit := by
  obtain @⟨_ | ⟨c, whole⟩, fraction, exponent, hne, hw, -, -⟩ := h
  · exact absurd rfl hne
  · exact ⟨c, _, rfl, hw c (by simp)⟩

/-! ## Numerals are read to their end -/

/-- All digits at the front are gone once those that fit are taken and the others dropped. -/
theorem dropDigits_takeSignificant {ds rest : List Char} (hd : Digital ds)
    (hrest : ∀ c ∈ rest.head?, digitValue? c = none) (n count k : Nat) :
    (dropDigits k (takeSignificant n count (ds ++ rest)).2.2).2 = rest := by
  have hdrop (ds : List Char) (hd : Digital ds) (k : Nat) :
      (dropDigits k (ds ++ rest)).2 = rest := by
    induction ds generalizing k with
    | nil =>
      cases rest with
      | nil => rfl
      | cons c rest => simp [dropDigits, hrest c rfl]
    | cons c ds ih =>
      simp [dropDigits, digitValue?_of_isDigit (hd c (by simp)),
        ih fun d h => hd d (List.mem_cons_of_mem c h)]
  induction ds generalizing n count with
  | nil =>
    cases rest with
    | nil => rfl
    | cons c rest => simp [takeSignificant, dropDigits, hrest c rfl]
  | cons c ds ih =>
    rw [List.cons_append, takeSignificant, digitValue?_of_isDigit (hd c (by simp))]
    dsimp only
    split
    · exact ih (fun d h => hd d (List.mem_cons_of_mem c h)) _ _
    · exact hdrop (c :: ds) hd k

/-- An exponent does not begin with a digit. -/
theorem Exponent.head?_eq {cs : List Char} (h : Exponent cs) :
    ∀ c ∈ cs.head?, digitValue? c = none := by
  cases h with
  | absent => simp
  | power hsign hd =>
    rintro c ⟨⟩
    rfl

/-- Nothing is left of an exponent. -/
theorem Exponent.eq_nil_of_read {cs ds : List Char} (h : Exponent cs) {negative : Bool}
    {significand : Nat} {e : Int} {n : Number}
    (hread : readScaled negative significand e cs = some (n, ds)) : ds = [] := by
  cases h with
  | absent => exact List.suffix_nil.mp (readScaled_suffix hread).2
  | @power sign es hsign hd =>
    have htake : (takeDigits es).2 = [] := by
      rw [takeDigits, List.dropWhile_eq_nil_iff]
      intro c hc
      rw [digitValue?_of_isDigit (hd c hc)]
      rfl
    have hsplit : Decimal.takeSign (sign :: es) = (decide (sign = '-'), es) := by
      obtain rfl | rfl := hsign <;> rfl
    simp only [readScaled, hsplit, true_or, if_true] at hread
    generalize takeDigits es = p at hread htake
    obtain ⟨_ | ⟨d, places⟩, left⟩ := p
    · cases hread
    · obtain rfl : left = [] := htake
      dsimp only at hread
      split at hread
      · obtain ⟨x, -, hx⟩ := Option.map_eq_some_iff.mp hread
        cases hx
        rfl
      · split at hread <;> cases hread
        rfl

/-- Nothing is left of a numeral. -/
theorem Numeral.eq_nil_of_read {cs ds : List Char} (h : Numeral cs) {negative : Bool} {n : Number}
    (hread : readUnsigned negative cs = some (n, ds)) : ds = [] := by
  obtain ⟨-, hw, hf, he⟩ := h
  rename_i whole fraction exponent
  have hhead : ∀ c ∈ (fraction ++ exponent).head?, digitValue? c = none := by
    cases hf with
    | absent => exact he.head?_eq
    | point hd =>
      rintro c ⟨⟩
      rfl
  unfold readUnsigned at hread
  have hleft := dropDigits_takeSignificant hw hhead 0 0 0
  generalize takeSignificant 0 0 (whole ++ (fraction ++ exponent)) = p at hread hleft
  obtain ⟨significand, count, left⟩ := p
  dsimp only at hread hleft
  generalize dropDigits 0 left = p at hread hleft
  obtain ⟨beyond, left⟩ := p
  obtain rfl : left = fraction ++ exponent := hleft
  dsimp only at hread
  split at hread
  · cases hread
  cases hf with
  | @point fs hd =>
    split at hread
    case h_1 after hafter =>
      obtain rfl : fs ++ exponent = after := List.tail_eq_of_cons_eq hafter
      have hleft := dropDigits_takeSignificant hd he.head?_eq significand 0 0
      generalize takeSignificant significand 0 (fs ++ exponent) = p at hread hleft
      obtain ⟨significand, places, left⟩ := p
      dsimp only at hread hleft
      generalize dropDigits 0 left = p at hread hleft
      obtain ⟨more, left⟩ := p
      obtain rfl : left = exponent := hleft
      dsimp only at hread
      split at hread
      · cases hread
      · exact he.eq_nil_of_read hread
    case h_2 hpoint hcons => exact absurd (List.head_eq_of_cons_eq hcons).symm hpoint
    case h_3 hnil => cases hnil
  | absent =>
    rw [List.nil_append] at hread
    cases he with
    | power hsign hd => exact (Exponent.power hsign hd).eq_nil_of_read hread
    | absent =>
      rcases whole_split hread with ⟨-, hds⟩ | ⟨-, hds⟩
      · exact hds
      · exact List.suffix_nil.mp hds

/-! ## The texts of numbers -/

/-- The positional notation of a decimal is a numeral. -/
theorem numeral_positional (d : Decimal.Digits) : Numeral (d.positional true).toList := by
  have hd := digital_toDigits d.digits
  have hne : 0 < (Nat.toDigits 10 d.digits).length :=
    List.length_pos_iff.mpr Nat.toDigits_ne_nil
  unfold Decimal.Digits.positional digitChars
  dsimp only
  split
  · have hwhole : Nat.toDigits 10 d.digits ++ List.replicate d.exponent.toNat '0' ≠ [] := by simp
    simpa using Numeral.mk hwhole (hd.append (digital_replicate_zero _)) (.point digital_zero)
      .absent
  · split
    · have htake : (Nat.toDigits 10 d.digits).take
          ((Nat.toDigits 10 d.digits).length + d.exponent).toNat ≠ [] := by
        rw [ne_eq, List.take_eq_nil_iff]
        simp only [Nat.toDigits_ne_nil, or_false]
        omega
      simpa using Numeral.mk htake (hd.take _) (.point (hd.drop _)) .absent
    · simpa using Numeral.mk (by simp) digital_zero (.point ((digital_replicate_zero _).append hd))
        .absent

/-- The scientific notation of a decimal is a numeral. -/
theorem numeral_scientific (d : Decimal.Digits) : Numeral d.scientific.toList := by
  have hd := digital_toDigits d.digits
  unfold Decimal.Digits.scientific digitChars
  dsimp only
  have hfraction : Fraction (if (Nat.toDigits 10 d.digits).length ≤ 1 then []
      else '.' :: (Nat.toDigits 10 d.digits).drop 1) := by
    split
    · exact .absent
    · exact .point (hd.drop 1)
  have htake : (Nat.toDigits 10 d.digits).take 1 ≠ [] := by simp [List.take_eq_nil_iff]
  simpa using Numeral.mk htake (hd.take 1) hfraction
    (.power (by split <;> simp) (digital_toDigits _))

/-- The text of a double is a numeral, perhaps with a sign, unless it is one of three words. -/
theorem write_cases (x : Float) : floatLayout.write x ∈ ["NaN", "inf", "-inf"] ∨
    Numeral (floatLayout.write x).toList ∨
    ∃ cs, (floatLayout.write x).toList = '-' :: cs ∧ Numeral cs := by
  have hpositive (m : Nat) (e : Int) : Numeral (floatLayout.positive m e).toList := by
    unfold Decimal.Layout.positive
    dsimp only
    split
    · exact numeral_positional _
    · exact numeral_scientific _
  have hmagnitude (m : Nat) (e : Int) :
      Numeral (if m = 0 then (if floatLayout.keepsPoint then "0.0" else "0")
        else floatLayout.positive m e).toList := by
    split
    · exact Numeral.mk (by simp) digital_zero (.point digital_zero) .absent
    · exact hpositive m e
  unfold Decimal.Layout.write
  split
  · exact .inl (by simp)
  · exact .inl (by simp)
  · exact .inl (by simp)
  · rename_i negative m e _
    unfold Decimal.Layout.finite
    cases negative with
    | false => exact .inr (.inl (hmagnitude m e))
    | true => exact .inr (.inr ⟨_, by simp, hmagnitude m e⟩)

/-- The words for the doubles that are not finite are not read. -/
theorem readNumber_word {word : String} (h : word ∈ ["NaN", "inf", "-inf"]) :
    readNumber word.toList = none := by
  simp only [List.mem_cons, List.not_mem_nil, or_false] at h
  obtain rfl | rfl | rfl := h <;> rfl

/-- The text of a number starts with its sign, with a digit or with a word. -/
theorem Number.exists_cons_text (n : Number) :
    ∃ c ds, n.text.toList = c :: ds ∧ (c = '-' ∨ c.isDigit ∨ c = 'N' ∨ c = 'i') := by
  cases n with
  | int n =>
    rw [Number.text, Int.toString_eq_repr, Int.repr_eq_if]
    split
    · obtain ⟨c, cs, hcs, hc⟩ := exists_toDigits_eq_cons n.toNat
      exact ⟨c, cs, by rw [Nat.toList_repr, hcs], .inr (.inl hc)⟩
    · exact ⟨'-', _, String.toList_append .., .inl rfl⟩
  | float x =>
    rw [Number.text]
    rcases write_cases x with hword | hplain | ⟨cs, hsigned, -⟩
    · simp only [List.mem_cons, List.not_mem_nil, or_false] at hword
      obtain hword | hword | hword := hword <;> simp [hword]
    · obtain ⟨c, ds, hcs, hc⟩ := hplain.exists_cons
      exact ⟨c, ds, hcs, .inr (.inl hc)⟩
    · exact ⟨_, _, hsigned, .inl rfl⟩

/-- What is read of the text of a number: an integer is kept, and a double is read again. -/
def Number.reread? : Number → Option Number
  | .int n => some (.int n)
  | .float x => (readNumber (floatLayout.write x).toList).map Prod.fst

/-- A number is read from its text to the end, or not at all. -/
theorem readNumber_text {n : Number} (hn : ∀ i, n = .int i → Number.fits i) :
    readNumber n.text.toList = n.reread?.map (·, []) := by
  cases n with
  | int i => exact readNumber_toString (hn i rfl)
  | float x =>
    change readNumber (floatLayout.write x).toList = Option.map _ (Option.map _ _)
    cases hread : readNumber (floatLayout.write x).toList with
    | none => rfl
    | some p =>
      obtain ⟨n, ds⟩ := p
      obtain rfl : ds = [] := by
        rcases write_cases x with hword | hplain | ⟨cs, hsigned, hcs⟩
        · rw [readNumber_word hword] at hread
          cases hread
        · obtain ⟨c, cs, hcons, hdigit⟩ := hplain.exists_cons
          have hunsigned : readUnsigned false (floatLayout.write x).toList = some (n, ds) := by
            rw [hcons] at hread ⊢
            rw [← hread, readNumber.eq_2]
            rintro _ ⟨⟩
            simp at hdigit
          exact hplain.eq_nil_of_read hunsigned
        · rw [hsigned] at hread
          exact hcs.eq_nil_of_read hread
      rfl

end EsotericHost.Json
