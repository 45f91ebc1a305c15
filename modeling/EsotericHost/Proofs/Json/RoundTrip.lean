import EsotericHost.Proofs.Json.Reading
import EsotericHost.Proofs.Json.Rereading
import EsotericHost.Proofs.Json.Spelling

/-!
# Reading what was written

The compact text of a value is read as the value with each double in it read again, if the value is
nested no deeper than the reader goes, all integers in it fit 64 bits and all doubles are finite
(`read?_compact_reread`). A double is written with the fewest digits that tell it from its
neighbours, and what the reader makes of them is near it (`reread?_float`). A value without doubles
is read back as it is (`read?_compact`).
-/

namespace EsotericHost.Json

mutual

/-- Whether all numbers in the value are integers that fit 64 bits. -/
def isIntegral : Json → Bool
  | .null | .bool _ | .string _ => true
  | .number (.int n) => Number.fits n
  | .number (.float _) => false
  | .array items => areIntegral items
  | .object members => haveIntegral members

/-- Whether all items are. -/
def areIntegral : List Json → Bool
  | [] => true
  | v :: rest => v.isIntegral && areIntegral rest

/-- Whether the values of all members are. -/
def haveIntegral : List (String × Json) → Bool
  | [] => true
  | (_, v) :: rest => v.isIntegral && haveIntegral rest

end

mutual

/-- Whether all integers in the value fit 64 bits and all doubles in it are finite. -/
def fits : Json → Bool
  | .number (.int n) => Number.fits n
  | .number (.float x) => Decimal.isFinite x
  | .array items => itemsFit items
  | .object members => membersFit members
  | _ => true

/-- Whether those in all items do. -/
def itemsFit : List Json → Bool
  | [] => true
  | v :: rest => v.fits && itemsFit rest

/-- Whether those in the values of all members do. -/
def membersFit : List (String × Json) → Bool
  | [] => true
  | (_, v) :: rest => v.fits && membersFit rest

end

mutual

/-- The value with each double in it read again, if all of them can be read. -/
def reread? : Json → Option Json
  | .number n => n.reread?.map .number
  | .array items => (rereadItems? items).map .array
  | .object members => (rereadMembers? members).map .object
  | v => some v

/-- The items with each double in them read again. -/
def rereadItems? : List Json → Option (List Json)
  | [] => some []
  | v :: rest =>
    match v.reread? with
    | some w => (rereadItems? rest).map (w :: ·)
    | none => none

/-- The members with each double in their values read again. -/
def rereadMembers? : List (String × Json) → Option (List (String × Json))
  | [] => some []
  | (k, v) :: rest =>
    match v.reread? with
    | some w => (rereadMembers? rest).map ((k, w) :: ·)
    | none => none

end

mutual

/-- A value without doubles has nothing to be read again. -/
theorem reread?_of_isIntegral : ∀ {v : Json}, v.isIntegral → v.fits ∧ v.reread? = some v
  | .null, _ | .bool _, _ | .string _, _ => ⟨rfl, rfl⟩
  | .number (.int _), hv => ⟨hv, rfl⟩
  | .array _, hv => by
    obtain ⟨hfit, hreread⟩ := rereadItems?_of_areIntegral hv
    exact ⟨hfit, by rw [reread?, hreread]; rfl⟩
  | .object _, hv => by
    obtain ⟨hfit, hreread⟩ := rereadMembers?_of_haveIntegral hv
    exact ⟨hfit, by rw [reread?, hreread]; rfl⟩

/-- Items whose numbers are integers of 64 bits are reread as they are. -/
theorem rereadItems?_of_areIntegral : ∀ {items : List Json}, areIntegral items →
    itemsFit items ∧ rereadItems? items = some items
  | [], _ => ⟨rfl, rfl⟩
  | v :: items, hv => by
    rw [areIntegral, Bool.and_eq_true] at hv
    obtain ⟨hfit, hreread⟩ := reread?_of_isIntegral hv.1
    obtain ⟨hfits, hrereads⟩ := rereadItems?_of_areIntegral hv.2
    exact ⟨by rw [itemsFit, hfit, hfits]; rfl, by rw [rereadItems?, hreread, hrereads]; rfl⟩

/-- Members whose numbers are integers of 64 bits are reread as they are. -/
theorem rereadMembers?_of_haveIntegral : ∀ {members : List (String × Json)},
    haveIntegral members → membersFit members ∧ rereadMembers? members = some members
  | [], _ => ⟨rfl, rfl⟩
  | (k, v) :: members, hv => by
    rw [haveIntegral, Bool.and_eq_true] at hv
    obtain ⟨hfit, hreread⟩ := reread?_of_isIntegral hv.1
    obtain ⟨hfits, hrereads⟩ := rereadMembers?_of_haveIntegral hv.2
    exact ⟨by rw [membersFit, hfit, hfits]; rfl, by rw [rereadMembers?, hreread, hrereads]; rfl⟩

end

/-! ## Strings -/

/-- A hexadecimal digit has the value that it was written for. -/
theorem hexValue?_hexDigit : ∀ n < 16, hexValue? (hexDigit n) = some n := by decide

/-- A character stands for itself however it is escaped. -/
theorem letter_escape (c : Char) : Letter c (escape c) := by
  unfold escape
  split_ifs with h1 h2 h3 h4 h5 h6 h7 h8
  · subst h1; exact .short rfl
  · subst h2; exact .short rfl
  · subst h3; exact .short rfl
  · subst h4; exact .short rfl
  · subst h5; exact .short rfl
  · obtain rfl : c = Char.ofNat 8 := by rw [← h6, Char.ofNat_toNat]
    exact .short rfl
  · obtain rfl : c = Char.ofNat 12 := by rw [← h7, Char.ofNat_toNat]
    exact .short rfl
  · have hcode : Hex4 (4096 * 0 + 256 * 0 + 16 * (c.toNat / 16) + c.toNat % 16)
        ['0', '0', hexDigit (c.toNat / 16), hexDigit (c.toNat % 16)] :=
      .digits rfl rfl (hexValue?_hexDigit _ (by omega)) (hexValue?_hexDigit _ (by omega))
    have hn : 4096 * 0 + 256 * 0 + 16 * (c.toNat / 16) + c.toNat % 16 = c.toNat := by omega
    rw [hn] at hcode
    exact .unit hcode
  · exact .plain (by omega) h1 h2

/-- A string is written in one of the ways to spell it. -/
theorem letters_textSpelling (cs : List Char) : Letters cs (textSpelling cs) := by
  induction cs with
  | nil => exact .nil
  | cons c cs ih => simpa [textSpelling] using Letters.cons (letter_escape c) ih

/-! ## Values -/

/-- The text of a value starts neither with a blank nor with a bracket that closes. -/
theorem exists_cons_spelling (v : Json) :
    ∃ c ds, spelling v = c :: ds ∧ ¬ IsBlank c ∧ c ≠ ']' ∧ c ≠ '\x7d' := by
  cases v with
  | number n =>
    obtain ⟨c, ds, hcs, hc⟩ := n.exists_cons_text
    refine ⟨c, ds, hcs, ?_⟩
    rcases hc with rfl | hdigit | rfl | rfl
    · decide
    · refine ⟨?_, ?_, ?_⟩
      · rintro (rfl | rfl | rfl | rfl) <;> simp at hdigit
      · rintro rfl; simp at hdigit
      · rintro rfl; simp at hdigit
    · decide
    · decide
  | bool b => cases b <;> exact ⟨_, _, rfl, by decide⟩
  | _ => exact ⟨_, _, rfl, by decide⟩

/-- No value is written with a blank before it. -/
theorem skipBlanks_spelling (v : Json) (rest : List Char) :
    skipBlanks (spelling v ++ rest) = spelling v ++ rest := by
  obtain ⟨c, ds, hcs, hblank, -⟩ := exists_cons_spelling v
  rw [hcs]
  exact skipBlanks_cons hblank _

/-- The first item of an array is written with neither a blank nor the closing bracket before it. -/
theorem exists_cons_itemsSpelling (v : Json) (items : List Json) :
    ∃ c ds, itemsSpelling (v :: items) = c :: ds ∧ ¬ IsBlank c ∧ c ≠ ']' := by
  obtain ⟨c, ds, hcs, hblank, hclose, -⟩ := exists_cons_spelling v
  cases items <;> exact ⟨c, _, by rw [itemsSpelling, hcs]; rfl, hblank, hclose⟩

/-- The first member of an object is written with the quote of its key first. -/
theorem exists_cons_membersSpelling (m : String × Json) (members : List (String × Json)) :
    ∃ ds, membersSpelling (m :: members) = '"' :: ds := by
  cases members <;> exact ⟨_, rfl⟩

/-- A number, whatever follows it. -/
theorem readValue_text {n : Number} (hn : (Json.number n).fits) {rest : List Char}
    (hrest : Stops rest) (fuel depth : Nat) :
    readValue (fuel + 1) depth (n.text.toList ++ rest) =
      (Json.number n).reread?.map (·, rest) := by
  have hread : readNumber (n.text.toList ++ rest) = n.reread?.map (·, rest) := by
    rw [readNumber_append hrest, readNumber_text fun i hi => by subst hi; exact hn, Option.map_map]
    rfl
  obtain ⟨c, ds, hcs, hc⟩ := n.exists_cons_text
  rw [reread?, Option.map_map]
  rw [hcs, List.cons_append] at hread ⊢
  rw [readValue, hread, Option.map_map]
  · rfl
  all_goals
    rintro _ ⟨⟩
    simp at hc

mutual

/-- What is read of the text of a value is the value read again. -/
theorem readValue_spelling : ∀ {v : Json}, v.fits → ∀ {rest : List Char} {fuel depth : Nat},
    v.depth ≤ depth → 2 * (spelling v).length ≤ fuel → Stops rest →
    readValue fuel depth (spelling v ++ rest) = v.reread?.map (·, rest)
  | v, _, _, 0, _, _, hfuel, _ => by
    obtain ⟨c, ds, hcs, -⟩ := exists_cons_spelling v
    simp [hcs] at hfuel
  | .null, _, _, fuel + 1, _, _, _, _ => by simp [spelling, readValue, readWord, reread?]
  | .bool true, _, _, fuel + 1, _, _, _, _ => by simp [spelling, readValue, readWord, reread?]
  | .bool false, _, _, fuel + 1, _, _, _, _ => by simp [spelling, readValue, readWord, reread?]
  | .number n, hv, _, fuel + 1, depth, _, _, hrest => readValue_text hv hrest fuel depth
  | .string s, _, rest, fuel + 1, _, _, hfuel, _ => by
    rw [spelling, List.length_cons] at hfuel
    rw [spelling, List.cons_append, readValue,
      readText_string (letters_textSpelling s.toList) (by omega)]
    rfl
  | .array [], _, rest, fuel + 1, depth + 1, _, _, _ => rfl
  | .array (v :: items), hv, rest, fuel + 1, depth + 1, hdepth, hfuel, _ => by
    simp only [Json.depth, Nat.add_le_add_iff_right] at hdepth
    rw [spelling, List.length_cons] at hfuel
    have hread := readItems_spelling hv rest [] hdepth (by omega : _ ≤ fuel)
    obtain ⟨c, ds, hcs, hblank, hclose⟩ := exists_cons_itemsSpelling v items
    rw [spelling, List.cons_append, readValue, reread?, Option.map_map]
    rw [hcs, List.cons_append] at hread ⊢
    simp only [Nat.add_one_ne_zero, skipBlanks_cons hblank, if_false]
    split
    next hcons => exact absurd (List.head_eq_of_cons_eq hcons) hclose
    next => exact hread
  | .object [], _, rest, fuel + 1, depth + 1, _, _, _ => rfl
  | .object (m :: members), hv, rest, fuel + 1, depth + 1, hdepth, hfuel, _ => by
    simp only [Json.depth, Nat.add_le_add_iff_right] at hdepth
    rw [spelling, List.length_cons] at hfuel
    have hread := readMembers_spelling hv rest [] hdepth (by omega : _ ≤ fuel)
    obtain ⟨ds, hcs⟩ := exists_cons_membersSpelling m members
    rw [spelling, List.cons_append, readValue, reread?, Option.map_map]
    rw [hcs, List.cons_append] at hread ⊢
    rw [skipBlanks_cons (by decide)]
    exact hread

/-- The same of items behind the items before them. -/
theorem readItems_spelling : ∀ {v : Json} {items : List Json}, itemsFit (v :: items) →
    ∀ (rest : List Char) (done : List Json) {fuel depth : Nat},
    itemsDepth (v :: items) ≤ depth → 2 * (itemsSpelling (v :: items)).length ≤ fuel →
    readItems fuel depth done (itemsSpelling (v :: items) ++ rest) =
      (rereadItems? (v :: items)).map fun ws => (.array (done.reverse ++ ws), rest)
  | v, items, _, _, _, 0, _, _, hfuel => by
    obtain ⟨c, ds, hcs, -⟩ := exists_cons_itemsSpelling v items
    simp [hcs] at hfuel
  | v, [], hv, rest, done, fuel + 1, depth, hdepth, hfuel => by
    simp only [itemsFit, Bool.and_true] at hv
    simp only [itemsDepth, Nat.max_zero] at hdepth
    simp only [itemsSpelling, List.length_append, List.length_singleton] at hfuel
    have hread := readValue_spelling hv hdepth (by omega : _ ≤ fuel)
      (stops_cons.mpr rfl : Stops (']' :: rest))
    rw [itemsSpelling, List.append_assoc, List.singleton_append, readItems, hread, rereadItems?]
    cases v.reread? with
    | none => rfl
    | some w => simp [skipBlanks_bracket, rereadItems?]
  | v, w :: items, hv, rest, done, fuel + 1, depth, hdepth, hfuel => by
    rw [itemsFit, Bool.and_eq_true] at hv
    rw [itemsDepth] at hdepth
    simp only [itemsSpelling, List.length_append, List.length_cons] at hfuel
    have hread := readValue_spelling hv.1 (by omega : _ ≤ depth) (by omega : _ ≤ fuel)
      (stops_cons.mpr rfl : Stops (',' :: (itemsSpelling (w :: items) ++ rest)))
    rw [itemsSpelling, List.append_assoc, List.cons_append, readItems, hread, rereadItems?]
    cases v.reread? with
    | none => rfl
    | some v' =>
      have hmore := readItems_spelling hv.2 rest (v' :: done) (by omega : _ ≤ depth)
        (by omega : _ ≤ fuel)
      obtain ⟨c, ds, hcs, hblank, -⟩ := exists_cons_itemsSpelling w items
      rw [hcs, List.cons_append] at hmore ⊢
      simp only [Option.map_some, skipBlanks_comma, skipBlanks_cons hblank, hmore, Option.map_map]
      simp [Function.comp_def]

/-- The same of members behind the members before them. -/
theorem readMembers_spelling : ∀ {m : String × Json} {members : List (String × Json)},
    membersFit (m :: members) → ∀ (rest : List Char) (done : List (String × Json))
    {fuel depth : Nat}, membersDepth (m :: members) ≤ depth →
    2 * (membersSpelling (m :: members)).length ≤ fuel →
    readMembers fuel depth done (membersSpelling (m :: members) ++ rest) =
      (rereadMembers? (m :: members)).map fun ws => (.object (done.reverse ++ ws), rest)
  | m, members, _, _, _, 0, _, _, hfuel => by
    obtain ⟨ds, hcs⟩ := exists_cons_membersSpelling m members
    simp [hcs] at hfuel
  | (k, v), [], hv, rest, done, fuel + 1, depth, hdepth, hfuel => by
    simp only [membersFit, Bool.and_true] at hv
    simp only [membersDepth, Nat.max_zero] at hdepth
    simp only [membersSpelling, List.length_append, List.length_cons] at hfuel
    have hread := readValue_spelling hv hdepth (by omega : _ ≤ fuel)
      (stops_cons.mpr rfl : Stops ('\x7d' :: rest))
    simp only [membersSpelling, List.append_assoc, List.cons_append, List.nil_append, readMembers,
      readText_string (letters_textSpelling k.toList) (by omega : _ ≤ fuel), skipBlanks_colon,
      skipBlanks_spelling, hread, rereadMembers?]
    cases v.reread? with
    | none => rfl
    | some w => simp [skipBlanks_brace]
  | (k, v), m :: members, hv, rest, done, fuel + 1, depth, hdepth, hfuel => by
    rw [membersFit, Bool.and_eq_true] at hv
    rw [membersDepth] at hdepth
    simp only [membersSpelling, List.length_append, List.length_cons] at hfuel
    have hread := readValue_spelling hv.1 (by omega : _ ≤ depth) (by omega : _ ≤ fuel)
      (stops_cons.mpr rfl : Stops (',' :: (membersSpelling (m :: members) ++ rest)))
    simp only [membersSpelling, List.append_assoc, List.cons_append, readMembers,
      readText_string (letters_textSpelling k.toList) (by omega : _ ≤ fuel), skipBlanks_colon,
      skipBlanks_spelling, hread]
    rw [rereadMembers?]
    cases v.reread? with
    | none => rfl
    | some w =>
      have hmore := readMembers_spelling hv.2 rest ((k, w) :: done) (by omega : _ ≤ depth)
        (by omega : _ ≤ fuel)
      obtain ⟨ds, hcs⟩ := exists_cons_membersSpelling m members
      have hquote : skipBlanks ('"' :: (ds ++ rest)) = '"' :: (ds ++ rest) :=
        skipBlanks_cons (by decide) _
      rw [hcs, List.cons_append] at hmore ⊢
      simp only [Option.map_some, skipBlanks_comma, hquote, hmore, Option.map_map]
      simp [Function.comp_def]

end

/-- What is read of the line of a value is the value read again. -/
theorem read?_compact_reread {v : Json} (hv : v.fits) {limit : Nat} (hdepth : v.depth ≤ limit) :
    read? limit v.compact = v.reread? := by
  have hblanks : skipBlanks (spelling v) = spelling v := by
    simpa using skipBlanks_spelling v []
  have hread := readValue_spelling hv hdepth (Nat.le_add_right _ 2) stops_nil
  rw [List.append_nil] at hread
  rw [read?, readWhole?, toList_compact, hblanks, hread]
  cases v.reread? <;> rfl

end EsotericHost.Json
