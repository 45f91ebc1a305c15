import EsotericHost.Proofs.Decimal.Shortest
import EsotericHost.Proofs.Json.Doubles
import EsotericHost.Proofs.Json.Scaling

/-!
# Finite doubles are read again

The text of a finite double is its shortest decimal in one of two notations. In either the reader
finds digits and a power of ten that make the same number (`Reads.positional`, `Reads.scientific`),
and the double that it makes of them is at most two doubles away from the first (`exists_scale?`). So
every finite double is read again, as a finite double of the same sign near it (`reread?_float`).
-/

namespace EsotericHost.Json

open Decimal

/-! ## Digits -/

variable {whole fraction tail : List Char} {d : Digits} {m : Nat} {e : Int} {negative : Bool}

/-- Nothing is dropped where no digit stands. -/
theorem dropDigits_stop (htail : ∀ c ∈ tail.head?, digitValue? c = none) (k : Nat) :
    dropDigits k tail = (k, tail) := by
  cases tail with
  | nil => rfl
  | cons c tail => simp [dropDigits, htail c rfl]

/-- The digits of a number are taken whole, and make the number again. -/
theorem takeDigits_toDigits (n : Nat) :
    ∃ ds, takeDigits (Nat.toDigits 10 n) = (ds, []) ∧ ds ≠ [] ∧ ofDigits ds = n := by
  have hdigits : ∀ c ∈ Nat.toDigits 10 n, digitValue? c = some (c.toNat - '0'.toNat) :=
    fun c hc => digitValue?_of_isDigit (digital_toDigits n c hc)
  have hall : ∀ c ∈ Nat.toDigits 10 n, (digitValue? c).isSome := by
    intro c hc
    rw [hdigits c hc]
    rfl
  have hvalues : (Nat.toDigits 10 n).filterMap digitValue? =
      (Nat.toDigits 10 n).map fun c => c.toNat - '0'.toNat := by
    rw [← List.filterMap_eq_map]
    exact List.filterMap_congr hdigits
  refine ⟨(Nat.toDigits 10 n).map fun c => c.toNat - '0'.toNat, ?_, ?_, ?_⟩
  · rw [takeDigits, List.takeWhile_eq_self_iff.mpr hall, List.dropWhile_eq_nil_iff.mpr hall, hvalues]
  · simp
  · rw [ofDigits, List.foldl_map]
    exact Nat.ofDigitChars_ten_toDigits

/-! ## Numerals whose digits fit -/

/-- The number in front of a numeral has no needless zero. -/
theorem not_refused (hne : whole ≠ []) (hzero : whole.head? = some '0' → whole.length ≤ 1) :
    ¬ (0 + whole.length = 0 ∨ (whole ++ tail).head? = some '0' ∧ 1 < 0 + whole.length) := by
  rw [List.head?_append_of_ne_nil _ hne, Nat.zero_add]
  rintro (hnone | ⟨hhead, hlong⟩)
  · exact hne (List.eq_nil_of_length_eq_zero hnone)
  · exact absurd (hzero hhead) (by omega)

/-- A numeral with a point: the digits on both sides are the significand. -/
theorem readUnsigned_point (hw : Digital whole) (hne : whole ≠ [])
    (hzero : whole.head? = some '0' → whole.length ≤ 1) (hf : Digital fraction)
    (hne' : fraction ≠ []) (htail : ∀ c ∈ tail.head?, digitValue? c = none)
    (hfits : Nat.ofDigitChars 10 (whole ++ fraction) 0 < Word.natBound) :
    readUnsigned negative (whole ++ '.' :: (fraction ++ tail)) =
      readScaled negative (Nat.ofDigitChars 10 (whole ++ fraction) 0) (-fraction.length) tail := by
  rw [Nat.ofDigitChars_append] at hfits ⊢
  have hpoint : ∀ c ∈ ('.' :: (fraction ++ tail)).head?, digitValue? c = none := by
    rintro c ⟨⟩
    rfl
  have hplaces : 0 + fraction.length + 0 ≠ 0 := by
    rw [Nat.zero_add, Nat.add_zero]
    exact fun h => hne' (List.eq_nil_of_length_eq_zero h)
  unfold readUnsigned
  rw [takeSignificant_digits hw hpoint 0 0 (Nat.lt_of_le_of_lt (le_ofDigitChars _ _) hfits)]
  dsimp only
  rw [dropDigits_stop hpoint, if_neg (not_refused hne hzero)]
  simp only [takeSignificant_digits hf htail _ 0 hfits, dropDigits_stop htail, if_neg hplaces]
  simp

/-- A numeral with an exponent only. -/
theorem readUnsigned_power (hw : Digital whole) (hne : whole ≠ [])
    (hzero : whole.head? = some '0' → whole.length ≤ 1)
    (hfits : Nat.ofDigitChars 10 whole 0 < Word.natBound) :
    readUnsigned negative (whole ++ 'e' :: tail) =
      readScaled negative (Nat.ofDigitChars 10 whole 0) 0 ('e' :: tail) := by
  have hpower : ∀ c ∈ ('e' :: tail).head?, digitValue? c = none := by
    rintro c ⟨⟩
    rfl
  unfold readUnsigned
  rw [takeSignificant_digits hw hpower 0 0 hfits]
  dsimp only
  rw [dropDigits_stop hpower, if_neg (not_refused hne hzero)]
  rfl

/-- The reader finds a significand and a power of ten in the text. -/
def Reads (cs : List Char) (m : Nat) (e : Int) : Prop :=
  ∀ negative, readUnsigned negative cs =
    (scale? 40 (Float.ofNat m) e).map fun x => (.float (if negative then -x else x), [])

/-- The text of an exponent. -/
def powerText (k : Int) : List Char :=
  'e' :: (if k < 0 then '-' else '+') :: Nat.toDigits 10 k.natAbs

/-- The exponent is read from its sign and its digits. -/
theorem readScaled_power {k : Int} (hk : k.natAbs < exponentBound) :
    readScaled negative m e (powerText k) =
      (scale? 40 (Float.ofNat m) (e + k)).map fun x =>
        (.float (if negative then -x else x), []) := by
  obtain ⟨ds, htake, hne, hvalue⟩ := takeDigits_toDigits k.natAbs
  have hsign : takeSign ((if k < 0 then '-' else '+') :: Nat.toDigits 10 k.natAbs) =
      (decide (k < 0), Nat.toDigits 10 k.natAbs) := by
    split
    · rename_i h
      rw [decide_eq_true h]
      rfl
    · rename_i h
      rw [decide_eq_false h]
      rfl
  have hexponent :
      (if decide (k < 0) = true then e - (k.natAbs : Int) else e + k.natAbs) = e + k := by
    by_cases hdown : k < 0
    · rw [decide_eq_true hdown, if_pos rfl]
      omega
    · rw [decide_eq_false hdown, if_neg Bool.false_ne_true]
      omega
  obtain ⟨i, ds, rfl⟩ := List.exists_cons_of_ne_nil hne
  simp only [powerText, readScaled, true_or, if_true, hsign, htake, hvalue, hk, hexponent]

/-! ## The two notations -/

/-- A number has as many digits as it takes. -/
theorem lt_pow_length (n : Nat) : n < 10 ^ (Nat.toDigits 10 n).length :=
  (Nat.length_toDigits_le_iff (by decide) Nat.length_toDigits_pos).mp le_rfl

/-- A positive number starts with no zero. -/
theorem head?_toDigits_ne {n : Nat} (hn : 0 < n) : (Nat.toDigits 10 n).head? ≠ some '0' :=
  fun h => hn.ne' (eq_zero_of_head?_toDigits h)

/-- A numeral with a point and no exponent. -/
theorem Reads.point (hw : Digital whole) (hne : whole ≠ [])
    (hzero : whole.head? = some '0' → whole.length ≤ 1) (hf : Digital fraction)
    (hne' : fraction ≠ []) (hvalue : Nat.ofDigitChars 10 (whole ++ fraction) 0 = m)
    (hfits : m < Word.natBound) : Reads (whole ++ '.' :: fraction) m (-fraction.length) := by
  intro negative
  subst hvalue
  have hend : ∀ c ∈ ([] : List Char).head?, digitValue? c = none := by simp
  have hread : readUnsigned negative (whole ++ '.' :: (fraction ++ [])) = _ :=
    readUnsigned_point hw hne hzero hf hne' hend hfits
  rw [List.append_nil] at hread
  exact hread

variable {ds : List Char}

/-- Digits, zeros, and a zero behind the point: a tenth of ten times the number. -/
theorem Reads.zeros (hd : Digital ds) (hne : ds ≠ []) (hhead : ds.head? ≠ some '0') (k : Nat)
    (hfits : 10 * (10 ^ k * Nat.ofDigitChars 10 ds 0) < Word.natBound) :
    Reads (ds ++ List.replicate k '0' ++ ['.', '0']) (10 * (10 ^ k * Nat.ofDigitChars 10 ds 0))
      (-1) := by
  refine Reads.point (hd.append (digital_replicate_zero k)) (by simp [hne]) ?_ digital_zero
    (by simp) ?_ hfits
  · rw [List.head?_append_of_ne_nil _ hne]
    exact fun h => absurd h hhead
  · rw [Nat.ofDigitChars_append, Nat.ofDigitChars_append, Nat.ofDigitChars_replicate_zero]
    simp [Nat.ofDigitChars_cons]

/-- A point among the digits. -/
theorem Reads.inside (hd : Digital ds) (hhead : ds.head? ≠ some '0') {k : Nat} (hk : 0 < k)
    (hlt : k < ds.length) (hfits : Nat.ofDigitChars 10 ds 0 < Word.natBound) :
    Reads (ds.take k ++ '.' :: ds.drop k) (Nat.ofDigitChars 10 ds 0) (-(ds.length - k : Nat)) := by
  rw [← List.length_drop]
  refine Reads.point (hd.take k) ?_ ?_ (hd.drop k) ?_ (by rw [List.take_append_drop]) hfits
  · rw [ne_eq, List.take_eq_nil_iff]
    rintro (rfl | rfl)
    · exact lt_irrefl _ hk
    · exact absurd hlt (Nat.not_lt_zero k)
  · rw [List.head?_take, if_neg hk.ne']
    exact fun h => absurd h hhead
  · rw [ne_eq, List.drop_eq_nil_iff]
    omega

/-- A zero, and all digits behind the point. -/
theorem Reads.behind (hd : Digital ds) (hne : ds ≠ []) (k : Nat)
    (hfits : Nat.ofDigitChars 10 ds 0 < Word.natBound) :
    Reads ('0' :: '.' :: (List.replicate k '0' ++ ds)) (Nat.ofDigitChars 10 ds 0)
      (-(k + ds.length : Nat)) := by
  have hlength : (List.replicate k '0' ++ ds).length = k + ds.length := by simp
  rw [← hlength]
  refine Reads.point digital_zero (by simp) (by simp) ((digital_replicate_zero k).append hd)
    (by simp [hne]) ?_ hfits
  rw [Nat.ofDigitChars_append, Nat.ofDigitChars_append, Nat.ofDigitChars_replicate_zero]
  simp [Nat.ofDigitChars_cons]

/-- In positional notation the reader finds the number again. -/
theorem Reads.positional (hpos : 0 < d.digits) (hfits : d.digits < Word.natBound)
    (hplaces : ((Nat.toDigits 10 d.digits).length : Int) + d.exponent < 17) :
    ∃ m e, Reads (d.positional true).toList m e ∧ 0 < m ∧ m < Word.natBound ∧
      min (-1) d.exponent ≤ e ∧ (m : ℚ) * 10 ^ e = d.value := by
  have hd := digital_toDigits d.digits
  have hvalue := Nat.ofDigitChars_ten_toDigits (n := d.digits)
  have hhead := head?_toDigits_ne hpos
  have hne := Nat.toDigits_ne_nil (n := d.digits) (b := 10)
  have hlt := lt_pow_length d.digits
  unfold Digits.positional digitChars
  dsimp only
  generalize Nat.toDigits 10 d.digits = ds at *
  have hlength : 0 < ds.length := List.length_pos_iff.mpr hne
  split
  · obtain ⟨k, hk⟩ : ∃ k : Nat, d.exponent = k := ⟨d.exponent.toNat, by omega⟩
    rw [hk, Int.toNat_natCast, if_pos rfl, String.toList_ofList]
    have hbound : 10 * (10 ^ k * d.digits) < Word.natBound :=
      calc 10 * (10 ^ k * d.digits) < 10 * (10 ^ k * 10 ^ ds.length) :=
            Nat.mul_lt_mul_of_pos_left (Nat.mul_lt_mul_of_pos_left hlt (Nat.pow_pos (by decide)))
              (by decide)
        _ = 10 ^ (1 + (k + ds.length)) := by rw [Nat.pow_add 10 1, Nat.pow_add]
        _ ≤ 10 ^ 18 := Nat.pow_le_pow_right (by decide) (by omega)
        _ ≤ Word.natBound := by decide
    refine ⟨_, -1, ?_, ?_, hbound, by omega, ?_⟩
    · have hread := Reads.zeros hd hne hhead k (by rw [hvalue]; exact hbound)
      rwa [hvalue] at hread
    · positivity
    · rw [Digits.value, hk]
      push_cast
      rw [zpow_neg_one, zpow_natCast]
      ring
  · refine ⟨d.digits, d.exponent, ?_, hpos, hfits, by omega, rfl⟩
    split
    · obtain ⟨k, hk⟩ : ∃ k : Nat, (ds.length : Int) + d.exponent = k :=
        ⟨(ds.length + d.exponent).toNat, by omega⟩
      have hread := Reads.inside hd hhead (by omega : 0 < k) (by omega) (by rw [hvalue]; exact hfits)
      rw [hvalue, show -((ds.length - k : Nat) : Int) = d.exponent by omega] at hread
      rw [hk, Int.toNat_natCast, String.toList_ofList]
      exact hread
    · obtain ⟨k, hk⟩ : ∃ k : Nat, -((ds.length : Int) + d.exponent) = k :=
        ⟨(-(ds.length + d.exponent)).toNat, by omega⟩
      have hread := Reads.behind hd hne k (by rw [hvalue]; exact hfits)
      rw [hvalue, show -((k + ds.length : Nat) : Int) = d.exponent by omega] at hread
      rw [hk, Int.toNat_natCast, String.toList_ofList]
      exact hread

/-- One digit and an exponent. -/
theorem Reads.power {c : Char} (hd : Digital [c]) {k : Int} (hk : k.natAbs < exponentBound)
    (hfits : Nat.ofDigitChars 10 [c] 0 < Word.natBound) :
    Reads ([c] ++ powerText k) (Nat.ofDigitChars 10 [c] 0) k := by
  intro negative
  have hread : readUnsigned negative ([c] ++ powerText k) = _ :=
    readUnsigned_power hd (by simp) (by simp) hfits
  rw [hread, ← powerText, readScaled_power hk, zero_add]

/-- One digit before the point, more behind it, and an exponent. -/
theorem Reads.pointPower {c : Char} (hd : Digital (c :: ds)) (hne : ds ≠ []) {k : Int}
    (hk : k.natAbs < exponentBound) (hfits : Nat.ofDigitChars 10 (c :: ds) 0 < Word.natBound) :
    Reads ([c] ++ '.' :: (ds ++ powerText k)) (Nat.ofDigitChars 10 (c :: ds) 0)
      (-ds.length + k) := by
  intro negative
  have hpower : ∀ b ∈ (powerText k).head?, digitValue? b = none := by
    rintro b ⟨⟩
    rfl
  have hread : readUnsigned negative ([c] ++ '.' :: (ds ++ powerText k)) = _ :=
    readUnsigned_point (hd.take 1) (by simp) (by simp) (hd.drop 1) hne hpower hfits
  rw [hread, readScaled_power hk]
  rfl

/-- In scientific notation the reader finds the digits again, and lowers the exponent by those
behind the point. -/
theorem Reads.scientific (hfits : d.digits < Word.natBound)
    (hexponent : ((Nat.toDigits 10 d.digits).length - 1 + d.exponent).natAbs < exponentBound) :
    Reads d.scientific.toList d.digits d.exponent := by
  have hd := digital_toDigits d.digits
  have hvalue := Nat.ofDigitChars_ten_toDigits (n := d.digits)
  have hne := Nat.toDigits_ne_nil (n := d.digits) (b := 10)
  have htext : d.scientific.toList = (Nat.toDigits 10 d.digits).take 1 ++
      ((if (Nat.toDigits 10 d.digits).length ≤ 1 then [] else '.' :: (Nat.toDigits 10 d.digits).drop 1)
        ++ powerText ((Nat.toDigits 10 d.digits).length - 1 + d.exponent)) := by
    rw [← List.append_assoc]
    exact String.toList_ofList
  rw [htext]
  generalize Nat.toDigits 10 d.digits = ds at *
  rw [← hvalue] at hfits ⊢
  obtain ⟨c, ds, rfl⟩ := List.exists_cons_of_ne_nil hne
  rcases ds with _ | ⟨b, ds⟩
  · have hread := Reads.power hd hexponent hfits
    simpa using hread
  · have hread := Reads.pointPower hd (by simp) hexponent hfits
    have hlower : -((b :: ds).length : Int) + ((c :: b :: ds).length - 1 + d.exponent) =
        d.exponent := by
      simp only [List.length_cons]
      omega
    rw [hlower] at hread
    rwa [if_neg (by simp)]

/-! ## The double that comes out -/

variable {n : Nat}

/-- The text of a double is read as digits that fit and a power of ten that make a number with the
double as a nearest one. -/
theorem exists_reads_positive (hn : 0 < n) (hfinite : n < infinityBits) : ∃ m e,
    Reads (floatLayout.positive (mantissaAt n) (exponentAt n)).toList m e ∧ 0 < m ∧
      m < Word.natBound ∧ -324 ≤ e ∧ Nearest (m * 10 ^ e) n := by
  obtain ⟨hnear, hpos, hfits, hleast⟩ := shortest_spec hn hfinite
  unfold Layout.positive
  generalize shortest (mantissaAt n) (exponentAt n) = d at *
  have hlarge := exponent_le hpos hnear hfinite
  have hlength : (Nat.toDigits 10 d.digits).length ≤ 20 :=
    (Nat.length_toDigits_le_iff (by decide) (by decide)).mpr (lt_trans hfits (by decide))
  unfold leastTens at hleast
  dsimp only
  split
  · rename_i hpositional
    have hplaces : ((Nat.toDigits 10 d.digits).length : Int) + d.exponent < 17 := by
      simp only [floatLayout, digitChars, decide_eq_true_eq] at hpositional
      omega
    obtain ⟨m, e, hreads, hm, hbound, he, hvalue⟩ := Reads.positional hpos hfits hplaces
    exact ⟨m, e, hreads, hm, hbound, by omega, hvalue ▸ hnear⟩
  · have hexponent : (((Nat.toDigits 10 d.digits).length - 1 + d.exponent).natAbs : Int) <
        exponentBound := by
      unfold exponentBound
      omega
    exact ⟨_, _, Reads.scientific hfits hexponent, hpos, hfits, hleast, hnear⟩

/-- The reader makes a double without a sign of the text, at most two doubles from a position. -/
def ReadsWithin (text : String) (n : Nat) : Prop :=
  ∃ y, Within y n ∧ ∀ negative,
    readUnsigned negative text.toList = some (.float (if negative then -y else y), [])

/-- The digits that the reader finds make a double. -/
theorem Reads.within {text : String} (h : Reads text.toList m e) {y : Float}
    (hy : scale? 40 (Float.ofNat m) e = some y) (hwithin : Within y n) : ReadsWithin text n :=
  ⟨y, hwithin, fun negative => by rw [h negative, hy]; rfl⟩

/-- The zero that is written is read. -/
theorem readsWithin_zero : ReadsWithin "0.0" 0 := by
  have hreads : Reads "0.0".toList 0 (-1) := fun negative => rfl
  exact hreads.within rfl ⟨by decide +kernel, by decide +kernel, by decide +kernel⟩

/-- The two largest doubles are read, though the positions behind them are those of no doubles. -/
theorem readsWithin_largest (hn : infinityBits ≤ n + 2) (hfinite : n < infinityBits) :
    ReadsWithin (floatLayout.positive (mantissaAt n) (exponentAt n)) n := by
  have hreads {m : Nat} (h : shortest (mantissaAt n) (exponentAt n) = ⟨m, 292⟩)
      (hlength : (Nat.toDigits 10 m).length = 17) (hfits : m < Word.natBound)
      (hwithin : Within (Float.ofNat m * tenPow 292) n) :
      ReadsWithin (floatLayout.positive (mantissaAt n) (exponentAt n)) n := by
    have htext :
        floatLayout.positive (mantissaAt n) (exponentAt n) = (Digits.mk m 292).scientific := by
      rw [Layout.positive, h]
      dsimp only
      rw [digitChars, hlength]
      rfl
    have hexponent : (((17 : Nat) - 1 + 292 : Int).natAbs : Int) < exponentBound := by decide
    rw [htext]
    exact (Reads.scientific hfits (by rw [hlength]; exact hexponent)).within
      (scale?_up (by decide) hwithin) hwithin
  obtain rfl | rfl : n = infinityBits - 1 ∨ n = infinityBits - 2 := by omega
  · have hdigits : shortest (mantissaAt (infinityBits - 1)) (exponentAt (infinityBits - 1)) =
        ⟨17976931348623157, 292⟩ := by decide +kernel
    exact hreads hdigits (by decide) (by decide)
      ⟨by decide +kernel, by decide +kernel, by decide +kernel⟩
  · have hdigits : shortest (mantissaAt (infinityBits - 2)) (exponentAt (infinityBits - 2)) =
        ⟨17976931348623155, 292⟩ := by decide +kernel
    exact hreads hdigits (by decide) (by decide)
      ⟨by decide +kernel, by decide +kernel, by decide +kernel⟩

/-- Every finite double is read from its text without the sign. -/
theorem readsWithin_magnitude (hfinite : n < infinityBits) :
    ReadsWithin (if mantissaAt n = 0 then "0.0"
      else floatLayout.positive (mantissaAt n) (exponentAt n)) n := by
  rcases Nat.eq_zero_or_pos n with rfl | hpos
  · exact readsWithin_zero
  · rw [if_neg (mantissaAt_pos hpos).ne']
    rcases Nat.lt_or_ge (n + 2) infinityBits with hlt | hge
    · obtain ⟨m, e, hreads, hm, hfits, he, hnear⟩ := exists_reads_positive hpos hfinite
      obtain ⟨y, hy, hwithin⟩ := exists_scale? hm hfits he hnear hlt
      exact hreads.within hy hwithin
    · exact readsWithin_largest hge hfinite

/-- Two finite doubles of the same sign with one double between them at most. -/
structure Near (x y : Float) : Prop where
  finite : isFinite y
  sign : isNegative y = isNegative x
  above : position y ≤ position x + 2
  below : position x ≤ position y + 2

/-- Every finite double is read from its own text, as a finite double of the same sign near it. -/
theorem reread?_float {x : Float} (hx : isFinite x) :
    ∃ y, Number.reread? (.float x) = some (.float y) ∧ Near x y := by
  have hfinite : position x < infinityBits := of_decide_eq_true hx
  obtain ⟨y, hy, hread⟩ := readsWithin_magnitude hfinite
  generalize htext : (if mantissaAt (position x) = 0 then "0.0"
    else floatLayout.positive (mantissaAt (position x)) (exponentAt (position x))) = text at hread
  have hwrite : floatLayout.write x = if isNegative x then "-" ++ text else text := by
    rw [← htext, Layout.write, parts_eq hx]
    rfl
  have hnumber : readNumber (floatLayout.write x).toList =
      some (.float (if isNegative x then -y else y), []) := by
    rw [hwrite]
    cases isNegative x with
    | true =>
      rw [if_pos rfl, String.toList_append]
      exact hread true
    | false =>
      rw [if_neg Bool.false_ne_true, readNumber.eq_2]
      · exact hread false
      · intro rest hminus
        have hrefused := hread false
        rw [hminus] at hrefused
        cases hrefused
  have hbits : (if isNegative x then -y else y).toBits.toNat =
      (if isNegative x then signBit else 0) + y.toBits.toNat := by
    cases isNegative x with
    | true => exact toNat_toBits_neg hy.finite
    | false => exact (Nat.zero_add _).symm
  obtain ⟨hsign, hposition⟩ := isNegative_position_of (lt_trans hy.finite (by decide)) hbits
  refine ⟨_, by rw [Number.reread?, hnumber]; rfl, ?_, hsign, ?_, ?_⟩
  · exact decide_eq_true (by rw [hposition]; exact hy.finite)
  · rw [hposition]
    exact hy.above
  · rw [hposition]
    exact hy.below

/-- There are doubles that come back two positions away. -/
example : (Number.reread? (.float (Float.ofBits 5863055209669135853))).any (fun n =>
    match n with
    | .float y => position y = 5863055209669135851
    | .int _ => false) = true := by
  decide +kernel

end EsotericHost.Json
