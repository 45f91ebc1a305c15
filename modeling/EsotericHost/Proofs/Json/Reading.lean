import EsotericHost.Proofs.Json.Grammar
import EsotericHost.Proofs.Json.Numerals
import Mathlib.Data.List.TakeWhile

/-!
# Reading the texts of a value

The reader accepts the texts of the values that are nested no deeper than it goes, and no others,
and it makes of each text the value that it is a text of.

The reader counts down a bound. Along the text of a value every call leaves twice the number of the
characters still to be read, with which the induction over the text goes through.
-/

namespace EsotericHost.Json

open Text (Read)

/-! ## Blanks -/

/-- Blanks before a text are skipped with those that it begins with. -/
theorem skipBlanks_append {ws : List Char} (hws : Blank ws) (rest : List Char) :
    skipBlanks (ws ++ rest) = skipBlanks rest := by
  rw [skipBlanks, List.dropWhile_append_of_pos]
  · rfl
  · simpa [Blank, IsBlank, or_assoc] using hws

/-- Nothing is skipped before a character that is no blank. -/
theorem skipBlanks_cons {c : Char} (hc : ¬ IsBlank c) (rest : List Char) :
    skipBlanks (c :: rest) = c :: rest := by
  rw [skipBlanks, List.dropWhile_cons_of_neg]
  simpa [IsBlank, and_assoc] using hc

/-- A comma is no blank. -/
theorem skipBlanks_comma (rest : List Char) : skipBlanks (',' :: rest) = ',' :: rest := rfl

/-- A colon is no blank. -/
theorem skipBlanks_colon (rest : List Char) : skipBlanks (':' :: rest) = ':' :: rest := rfl

/-- A bracket that closes an array is no blank. -/
theorem skipBlanks_bracket (rest : List Char) : skipBlanks (']' :: rest) = ']' :: rest := rfl

/-- A brace that closes an object is no blank. -/
theorem skipBlanks_brace (rest : List Char) : skipBlanks ('\x7d' :: rest) = '\x7d' :: rest := rfl

/-- What is skipped are blanks. -/
theorem blank_split (cs : List Char) : ∃ ws, Blank ws ∧ cs = ws ++ skipBlanks cs := by
  refine ⟨_, fun c hc => ?_, (List.takeWhile_append_dropWhile ..).symm⟩
  simpa [IsBlank, or_assoc] using List.mem_takeWhile_imp hc

/-- A number stops before blanks, and before what it would stop at behind them. -/
theorem stops_append {ws rest : List Char} (hws : Blank ws) (hrest : Stops rest) :
    Stops (ws ++ rest) := by
  cases ws with
  | nil => exact hrest
  | cons c ws =>
    rw [List.cons_append, stops_cons]
    obtain rfl | rfl | rfl | rfl := hws c (by simp) <;> decide

/-! ## Strings -/

/-- Four hexadecimal digits are read as their number. -/
theorem readHex4_of_hex4 {n : Nat} {cs : List Char} (h : Hex4 n cs) (rest : List Char) :
    readHex4 (cs ++ rest) = some (n, rest) := by
  cases h with
  | digits ha hb hc hd => simp [readHex4, ha, hb, hc, hd]

/-- No character is half of a surrogate pair. -/
theorem toNat_valid (c : Char) : c.toNat < 0xD800 ∨ 0xE000 ≤ c.toNat := by
  have hvalid : c.toNat.isValidChar := c.valid
  rw [Nat.isValidChar] at hvalid
  omega

/-- Each way to write a character is read as that character. -/
theorem readText_letter {c : Char} {cs : List Char} (h : Letter c cs) (fuel : Nat) (out : String)
    (rest : List Char) :
    readText (fuel + 1) out (cs ++ rest) = readText fuel (out.push c) rest := by
  cases h with
  | plain hc hquote hescape =>
    rw [List.singleton_append, readText]
    · simp [hescape]; omega
    all_goals simp_all
  | @short e h =>
    have hu : e ≠ 'u' := by rintro rfl; cases h
    simp [readText, h]
  | @unit cs h =>
    have hread := readHex4_of_hex4 h rest
    simp [readText, readUnicode, hread, toNat_valid c]
  | @pair high low hs ls hh hl hhigh hlow hc =>
    have hread := readHex4_of_hex4 hh ('\\' :: 'u' :: (ls ++ rest))
    have hread' := readHex4_of_hex4 hl rest
    have h1 : ¬ (high < 0xD800 ∨ 0xE000 ≤ high) := by omega
    have h2 : ¬ 0xDC00 ≤ high := by omega
    simp only [List.cons_append, List.append_assoc, readText, readUnicode, hread, h1, h2, hread',
      if_false, hlow, and_self, if_true]
    rw [← hc, Char.ofNat_toNat]

/-- A character takes some text to be written. -/
theorem Letter.length_pos {c : Char} {cs : List Char} (h : Letter c cs) : 0 < cs.length := by
  cases h <;> simp

/-- The text of a string is read as its characters, up to the quote. -/
theorem readText_letters {s cs : List Char} (h : Letters s cs) {fuel : Nat}
    (hfuel : cs.length ≤ fuel) (out : String) (rest : List Char) :
    readText fuel out (cs ++ rest) = some (out ++ String.ofList s, rest) := by
  induction h generalizing fuel out with
  | nil =>
    obtain ⟨fuel, rfl⟩ := Nat.exists_eq_succ_of_ne_zero (Nat.ne_zero_of_lt hfuel)
    simp [readText]
  | @cons c s cs ds h _ ih =>
    have hpos := h.length_pos
    rw [List.length_append] at hfuel
    obtain ⟨fuel, rfl⟩ := Nat.exists_eq_succ_of_ne_zero (Nat.ne_zero_of_lt (by omega : 0 < fuel))
    rw [List.append_assoc, readText_letter h, ih (by omega)]
    simp [← String.toList_inj]

/-- A string as it is read, between its quotes. -/
theorem readText_string {s : String} {cs : List Char} (h : Letters s.toList cs) {fuel : Nat}
    (hfuel : cs.length ≤ fuel) (rest : List Char) :
    readText fuel "" (cs ++ rest) = some (s, rest) := by
  rw [readText_letters h hfuel]
  simp

/-- What is read as a number of four hexadecimal digits is spelled by them. -/
theorem hex4_of_readHex4 {cs ds : List Char} {n : Nat} (h : readHex4 cs = some (n, ds)) :
    ∃ es, Hex4 n es ∧ cs = es ++ ds := by
  unfold readHex4 at h
  split at h
  · split at h
    · cases h
      exact ⟨_, .digits ‹_› ‹_› ‹_› ‹_›, rfl⟩
    · cases h
  · cases h

/-- The value of a hexadecimal digit is below 16. -/
theorem hexValue?_lt {c : Char} {n : Nat} (h : hexValue? c = some n) : n < 16 := by
  have hbound {a b : Char} (h : a ≤ c ∧ c ≤ b) : a.toNat ≤ c.toNat ∧ c.toNat ≤ b.toNat := h
  unfold hexValue? at h
  split_ifs at h with h9 hf hF
  all_goals cases h
  · have := hbound h9
    simp at this
    omega
  · have := hbound hf
    simp at this
    omega
  · have := hbound hF
    simp at this
    omega

/-- Four hexadecimal digits make a number below 65536. -/
theorem Hex4.lt {n : Nat} {cs : List Char} (h : Hex4 n cs) : n < 0x10000 := by
  cases h with
  | digits ha hb hc hd =>
    have := hexValue?_lt ha
    have := hexValue?_lt hb
    have := hexValue?_lt hc
    have := hexValue?_lt hd
    omega

/-- A number that is that of a character is the number of its character. -/
theorem toNat_ofNat {n : Nat} (h : n.isValidChar) : (Char.ofNat n).toNat = n := by
  rw [Char.ofNat, dif_pos h]
  rfl

/-- What is read as a character by its number is one of the ways to write it. -/
theorem letter_of_readUnicode {cs ds : List Char} {c : Char} (h : readUnicode cs = some (c, ds)) :
    ∃ es, Letter c ('\\' :: 'u' :: es) ∧ cs = es ++ ds := by
  unfold readUnicode at h
  split at h
  next => cases h
  next high rest hread =>
    obtain ⟨hs, hh, rfl⟩ := hex4_of_readHex4 hread
    have hlt := hh.lt
    split_ifs at h with hunit hlow
    · simp only [Option.some.injEq, Prod.mk.injEq] at h
      obtain ⟨rfl, rfl⟩ := h
      have hvalid : high.isValidChar := by
        rw [Nat.isValidChar]
        omega
      rw [← toNat_ofNat hvalid] at hh
      exact ⟨hs, .unit hh, rfl⟩
    · split at h
      next rest =>
        split at h
        next low rest hread =>
          obtain ⟨ls, hl, rfl⟩ := hex4_of_readHex4 hread
          split_ifs at h with hpair
          simp only [Option.some.injEq, Prod.mk.injEq] at h
          obtain ⟨rfl, rfl⟩ := h
          refine ⟨hs ++ '\\' :: 'u' :: ls, .pair hh hl ⟨by omega, by omega⟩ hpair ?_, by simp⟩
          apply toNat_ofNat
          rw [Nat.isValidChar]
          omega
        next => cases h
      next => cases h

/-- What is read as a string is spelled by its characters, with the quote behind them. -/
theorem letters_of_readText {fuel : Nat} {out t : String} {cs rest : List Char}
    (h : readText fuel out cs = some (t, rest)) :
    ∃ s ds, Letters s ds ∧ cs = ds ++ rest ∧ t = out ++ String.ofList s := by
  induction fuel generalizing out cs with
  | zero => cases h
  | succ fuel ih =>
    have hcons {c : Char} {es fs : List Char} (hc : Letter c es)
        (h : readText fuel (out.push c) fs = some (t, rest)) :
        ∃ s ds, Letters s ds ∧ es ++ fs = ds ++ rest ∧ t = out ++ String.ofList s := by
      obtain ⟨s, ds, hs, rfl, rfl⟩ := ih h
      exact ⟨c :: s, es ++ ds, .cons hc hs, by simp, by simp [← String.toList_inj]⟩
    unfold readText at h
    split at h
    · cases h
      exact ⟨[], _, .nil, rfl, by simp⟩
    next rest =>
      split at h
      next c rest hread =>
        obtain ⟨es, hc, rfl⟩ := letter_of_readUnicode hread
        exact hcons hc h
      next => cases h
    next c rest =>
      split at h
      next c hread => exact hcons (.short hread) h
      next => cases h
    next c rest hquote _ _ =>
      split at h
      next => cases h
      next hc =>
        rw [not_or, not_lt] at hc
        exact hcons (.plain hc.1 hquote hc.2) h
    · cases h

/-! ## Values -/

/-- The text of a value starts with none of the characters by which the reader would take it for
the end of an array or an object, or pass over it. -/
theorem Spells.exists_cons {v : Json} {cs : List Char} (h : Spells v cs) :
    ∃ c ds, cs = c :: ds ∧ ¬ IsBlank c ∧ c ≠ ']' ∧ c ≠ '\x7d' := by
  have hnumber {cs : List Char} {p : Number × List Char} (h : readNumber cs = some p) :
      ∃ c ds, cs = c :: ds ∧ ¬ IsBlank c ∧ c ≠ ']' ∧ c ≠ '\x7d' := by
    obtain ⟨c, ds, rfl, rfl | hdigit⟩ := exists_cons_of_readNumber h
    · exact ⟨_, _, rfl, by decide⟩
    · refine ⟨c, ds, rfl, ?_, ?_, ?_⟩
      · rintro (rfl | rfl | rfl | rfl) <;> simp at hdigit
      all_goals
        rintro rfl
        simp at hdigit
  cases h with
  | int h => exact hnumber (readNumber_toString h)
  | float h => exact hnumber h
  | _ => exact ⟨_, _, rfl, by decide⟩

/-- A number, whatever follows it. -/
theorem readValue_number {cs rest : List Char} {n : Number} (h : readNumber cs = some (n, []))
    (hrest : Stops rest) (fuel depth : Nat) :
    readValue (fuel + 1) depth (cs ++ rest) = some (.number n, rest) := by
  have hread : readNumber (cs ++ rest) = some (n, rest) := by
    rw [readNumber_append hrest, h]
    rfl
  obtain ⟨c, ds, rfl, hc⟩ := exists_cons_of_readNumber h
  rw [List.cons_append] at hread ⊢
  rw [readValue]
  · simp [hread]
  all_goals
    rintro _ ⟨⟩
    simp at hc

/-- The text of an item, and so that of the items from it on, is no end of an array. -/
theorem SpellsItems.exists_cons {v : Json} {items : List Json} {cs : List Char}
    (h : SpellsItems (v :: items) cs) : ∃ c ds, cs = c :: ds ∧ ¬ IsBlank c ∧ c ≠ ']' := by
  cases h with
  | last h | cons h =>
    obtain ⟨c, ds, rfl, hblank, hclose, -⟩ := h.exists_cons
    exact ⟨c, _, rfl, hblank, hclose⟩

/-- A member begins with the quote of its key. -/
theorem SpellsMember.exists_cons {m : String × Json} {cs : List Char} (h : SpellsMember m cs) :
    ∃ ds, cs = '"' :: ds := by
  cases h
  exact ⟨_, rfl⟩

/-- Members begin with the quote of the first key. -/
theorem SpellsMembers.exists_cons {m : String × Json} {members : List (String × Json)}
    {cs : List Char} (h : SpellsMembers (m :: members) cs) : ∃ ds, cs = '"' :: ds := by
  cases h with
  | last h | cons h =>
    obtain ⟨ds, rfl⟩ := h.exists_cons
    exact ⟨_, rfl⟩

/-- An array that is not empty is read item by item. -/
theorem readValue_array {v : Json} {items : List Json} {ws cs : List Char} (hws : Blank ws)
    (h : SpellsItems (v :: items) cs) (fuel depth : Nat) (rest : List Char) :
    readValue (fuel + 1) (depth + 1) ('[' :: ws ++ cs ++ rest) =
      readItems fuel depth [] (cs ++ rest) := by
  obtain ⟨c, ds, rfl, hblank, hclose⟩ := h.exists_cons
  simp only [List.cons_append, List.append_assoc, readValue, skipBlanks_append hws,
    skipBlanks_cons hblank]
  simp [hclose]

/-- An object that is not empty is read member by member. -/
theorem readValue_object {m : String × Json} {members : List (String × Json)}
    {ws cs : List Char} (hws : Blank ws) (h : SpellsMembers (m :: members) cs) (fuel depth : Nat)
    (rest : List Char) :
    readValue (fuel + 1) (depth + 1) ('\x7b' :: ws ++ cs ++ rest) =
      readMembers fuel depth [] (cs ++ rest) := by
  obtain ⟨ds, rfl⟩ := h.exists_cons
  simp only [List.cons_append, List.append_assoc, readValue, skipBlanks_append hws]
  rw [skipBlanks_cons (by decide)]
  simp

/-- What the reader does behind a member and the blanks after it. -/
def behindMember (fuel depth : Nat) (done : List (String × Json)) : List Char → Read Json
  | ',' :: rest => readMembers fuel depth done (skipBlanks rest)
  | '\x7d' :: rest => some (.object done.reverse, rest)
  | _ => none

mutual

/-- A text of a value is read as the value, whatever follows it. -/
theorem Spells.read : ∀ {v : Json} {cs : List Char}, Spells v cs → ∀ {rest : List Char}
    {fuel depth : Nat}, v.depth ≤ depth → 2 * cs.length ≤ fuel → Stops rest →
    readValue fuel depth (cs ++ rest) = some (v, rest)
  | _, _, h, _, 0, _, _, hfuel, _ => by
    obtain ⟨c, ds, rfl, -⟩ := h.exists_cons
    simp at hfuel
  | _, _, .null, _, fuel + 1, _, _, _, _ => by simp [readValue, readWord]
  | _, _, .true, _, fuel + 1, _, _, _, _ => by simp [readValue, readWord]
  | _, _, .false, _, fuel + 1, _, _, _, _ => by simp [readValue, readWord]
  | _, _, .int h, _, fuel + 1, depth, _, _, hrest =>
    readValue_number (readNumber_toString h) hrest fuel depth
  | _, _, .float h, _, fuel + 1, depth, _, _, hrest => readValue_number h hrest fuel depth
  | _, _, .string h, rest, fuel + 1, _, _, hfuel, _ => by
    rw [List.length_cons] at hfuel
    rw [List.cons_append, readValue, readText_string h (by omega)]
    rfl
  | _, _, @Spells.array [] ws cs hws h, rest, fuel + 1, depth + 1, _, _, _ => by
    cases h
    simp only [List.cons_append, List.append_assoc, readValue, skipBlanks_append hws]
    rfl
  | _, _, @Spells.array (v :: items) ws cs hws h, rest, fuel + 1, depth + 1, hdepth, hfuel, _ => by
    simp only [Json.depth, Nat.add_le_add_iff_right] at hdepth
    simp only [List.length_append, List.length_cons] at hfuel
    rw [readValue_array hws h, h.read (by simp) rest [] hdepth (by omega)]
    rfl
  | _, _, @Spells.object [] ws cs hws h, rest, fuel + 1, depth + 1, _, _, _ => by
    cases h
    simp only [List.cons_append, List.append_assoc, readValue, skipBlanks_append hws]
    rfl
  | _, _, @Spells.object (m :: members) ws cs hws h, rest, fuel + 1, depth + 1, hdepth, hfuel,
      _ => by
    simp only [Json.depth, Nat.add_le_add_iff_right] at hdepth
    simp only [List.length_append, List.length_cons] at hfuel
    rw [readValue_object hws h, h.read (by simp) rest [] hdepth (by omega)]
    rfl

/-- The texts of items are read behind the items before them. -/
theorem SpellsItems.read : ∀ {items : List Json} {cs : List Char}, SpellsItems items cs →
    items ≠ [] → ∀ (rest : List Char) (done : List Json) {fuel depth : Nat},
    itemsDepth items ≤ depth → 2 * cs.length ≤ fuel →
    readItems fuel depth done (cs ++ rest) = some (.array (done.reverse ++ items), rest)
  | _, _, h, _, _, _, 0, _, _, hfuel => by
    cases h <;> simp at hfuel
  | _, _, .nil, hne, _, _, _ + 1, _, _, _ => absurd rfl hne
  | _, _, .last h hws, _, rest, done, fuel + 1, depth, hdepth, hfuel => by
    simp only [itemsDepth, Nat.max_zero] at hdepth
    simp only [List.length_append, List.length_cons, List.length_nil] at hfuel
    have hread := h.read hdepth (by omega : _ ≤ fuel)
      (stops_append hws (stops_cons.mpr rfl : Stops (']' :: rest)))
    simp only [List.append_assoc, List.singleton_append, readItems, hread, skipBlanks_append hws,
      skipBlanks_bracket]
    simp
  | _, _, @SpellsItems.cons v w items cs ws xs ds h hws hxs hitems, _, rest, done, fuel + 1,
      depth, hdepth, hfuel => by
    rw [itemsDepth] at hdepth
    simp only [List.length_append, List.length_cons] at hfuel
    have hread := h.read (by omega : _ ≤ depth) (by omega : _ ≤ fuel)
      (stops_append hws (stops_cons.mpr rfl : Stops (',' :: (xs ++ (ds ++ rest)))))
    have hmore := hitems.read (by simp) rest (v :: done) (by omega : _ ≤ depth)
      (by omega : _ ≤ fuel)
    have hblanks : skipBlanks (ds ++ rest) = ds ++ rest := by
      obtain ⟨c, es, rfl, hblank, -⟩ := hitems.exists_cons
      exact skipBlanks_cons hblank _
    -- The comma leads to the item behind it, past the blanks.
    simp only [List.append_assoc, List.cons_append, readItems, hread, skipBlanks_append hws,
      skipBlanks_append hxs, skipBlanks_comma, hblanks, hmore]
    simp

/-- What becomes of a member is up to what is behind it. -/
theorem SpellsMember.read : ∀ {m : String × Json} {cs : List Char}, SpellsMember m cs →
    ∀ {rest : List Char} (done : List (String × Json)) {fuel depth : Nat},
    m.2.depth ≤ depth → 2 * cs.length ≤ fuel + 1 → Stops rest →
    readMembers (fuel + 1) depth done (cs ++ rest) =
      behindMember fuel depth (m :: done) (skipBlanks rest)
  | _, _, @SpellsMember.mk k v ks ws xs cs hk hws hxs h, rest, done, fuel, depth, hdepth, hfuel,
      hrest => by
    simp only [List.length_append, List.length_cons] at hfuel
    have hread := h.read hdepth (by omega : _ ≤ fuel) hrest
    have hblanks : skipBlanks (cs ++ rest) = cs ++ rest := by
      obtain ⟨c, es, rfl, hblank, -⟩ := h.exists_cons
      exact skipBlanks_cons hblank _
    simp only [List.append_assoc, List.cons_append, readMembers,
      readText_string hk (by omega : _ ≤ fuel), skipBlanks_append hws, skipBlanks_colon,
      skipBlanks_append hxs, hblanks, hread]
    rfl

/-- The texts of members are read behind the members before them. -/
theorem SpellsMembers.read : ∀ {members : List (String × Json)} {cs : List Char},
    SpellsMembers members cs → members ≠ [] → ∀ (rest : List Char)
    (done : List (String × Json)) {fuel depth : Nat},
    membersDepth members ≤ depth → 2 * cs.length ≤ fuel →
    readMembers fuel depth done (cs ++ rest) = some (.object (done.reverse ++ members), rest)
  | _, _, h, _, _, _, 0, _, _, hfuel => by
    cases h <;> simp at hfuel
  | _, _, .nil, hne, _, _, _ + 1, _, _, _ => absurd rfl hne
  | _, _, .last h hws, _, rest, done, fuel + 1, depth, hdepth, hfuel => by
    simp only [membersDepth, Nat.max_zero] at hdepth
    simp only [List.length_append, List.length_cons, List.length_nil] at hfuel
    have hread := h.read done hdepth (by omega : _ ≤ fuel + 1)
      (stops_append hws (stops_cons.mpr rfl : Stops ('\x7d' :: rest)))
    simp only [List.append_assoc, List.singleton_append, hread, skipBlanks_append hws,
      skipBlanks_brace, behindMember]
    simp
  | _, _, @SpellsMembers.cons m n members cs ws xs ds h hws hxs hmembers, _, rest, done, fuel + 1,
      depth, hdepth, hfuel => by
    rw [membersDepth] at hdepth
    simp only [List.length_append, List.length_cons] at hfuel
    have hread := h.read done (by omega : _ ≤ depth) (by omega : _ ≤ fuel + 1)
      (stops_append hws (stops_cons.mpr rfl : Stops (',' :: (xs ++ (ds ++ rest)))))
    have hmore := hmembers.read (by simp) rest (m :: done) (by omega : _ ≤ depth)
      (by omega : _ ≤ fuel)
    have hblanks : skipBlanks (ds ++ rest) = ds ++ rest := by
      obtain ⟨es, rfl⟩ := hmembers.exists_cons
      exact skipBlanks_cons (by decide) _
    simp only [List.append_assoc, List.cons_append, hread, skipBlanks_append hws,
      skipBlanks_append hxs, skipBlanks_comma, hblanks, hmore, behindMember]
    simp

end

/-- Whatever is spelled by the rules is read, if the reader goes deep enough. -/
theorem IsText.read? {v : Json} {text : String} (h : IsText v text) {limit : Nat}
    (hdepth : v.depth ≤ limit) : read? limit text = some v := by
  obtain ⟨hws, h, hxs⟩ := h
  rename_i ws cs xs
  have hblanks : skipBlanks (ws ++ (cs ++ xs)) = cs ++ xs := by
    obtain ⟨c, ds, rfl, hblank, -⟩ := h.exists_cons
    rw [skipBlanks_append hws]
    exact skipBlanks_cons hblank _
  have hend : skipBlanks xs = [] := by simpa [skipBlanks] using skipBlanks_append hxs []
  have hstops : Stops xs := by simpa using stops_append hxs stops_nil
  have hfuel : 2 * cs.length ≤ 2 * (ws ++ (cs ++ xs)).length + 2 := by
    simp only [List.length_append]
    omega
  rw [Json.read?, readWhole?, String.toList_ofList, hblanks, h.read hdepth hfuel hstops]
  simp [hend]

/-! ## What is read -/

/-- What stands before a character that ends a number is blanks, and a number may stop there. -/
theorem blank_split_of_skipBlanks {c : Char} {cs ds : List Char} (h : skipBlanks cs = c :: ds)
    (hc : goesOn c = false) : Stops cs ∧ ∃ ws, Blank ws ∧ cs = ws ++ c :: ds := by
  obtain ⟨ws, hws, hcs⟩ := blank_split cs
  rw [h] at hcs
  rw [hcs]
  exact ⟨stops_append hws (stops_cons.mpr hc), ws, hws, rfl⟩

/-- A word that is read stands at the beginning of the text. -/
theorem split_of_readWord {word cs rest : List Char} {v w : Json}
    (h : readWord word v cs = some (w, rest)) : w = v ∧ cs = word ++ rest := by
  rw [readWord, Option.ite_none_right_eq_some] at h
  obtain ⟨hword, h⟩ := h
  cases h
  obtain ⟨rest, rfl⟩ := List.isPrefixOf_iff_prefix.mp hword
  exact ⟨rfl, by simp⟩

/-- A number is read from a text of it. -/
theorem spells_of_readNumber {cs rest : List Char} {n : Number}
    (h : readNumber cs = some (n, rest)) (hrest : Stops rest) :
    ∃ ds, Spells (.number n) ds ∧ cs = ds ++ rest := by
  obtain ⟨ds, rfl⟩ := readNumber_suffix h
  rw [readNumber_append hrest, Option.map_eq_some_iff] at h
  obtain ⟨⟨m, es⟩, hread, hleft⟩ := h
  simp only [leaving_mk, Prod.mk.injEq, List.append_left_eq_self] at hleft
  obtain ⟨rfl, rfl⟩ := hleft
  refine ⟨ds, ?_, rfl⟩
  cases m with
  | int n =>
    obtain ⟨hn, rfl⟩ := eq_toString_of_readNumber hread
    exact .int hn
  | float x => exact .float hread

mutual

/-- What is read is spelled by what has been taken off the text. -/
theorem spells_of_readValue : ∀ (fuel : Nat) {depth : Nat} {cs rest : List Char} {v : Json},
    readValue fuel depth cs = some (v, rest) → Stops rest →
    ∃ ds, Spells v ds ∧ cs = ds ++ rest ∧ v.depth ≤ depth
  | 0, _, _, _, _, h, _ => by cases h
  | fuel + 1, depth, cs, rest, v, h, hrest => by
    unfold readValue at h
    split at h
    next =>
      obtain ⟨rfl, hcs⟩ := split_of_readWord h
      exact ⟨_, .null, hcs, Nat.zero_le _⟩
    next =>
      obtain ⟨rfl, hcs⟩ := split_of_readWord h
      exact ⟨_, .true, hcs, Nat.zero_le _⟩
    next =>
      obtain ⟨rfl, hcs⟩ := split_of_readWord h
      exact ⟨_, .false, hcs, Nat.zero_le _⟩
    next =>
      obtain ⟨⟨s, ds⟩, hread, hv⟩ := Option.map_eq_some_iff.mp h
      cases hv
      obtain ⟨s, ds, hs, rfl, rfl⟩ := letters_of_readText hread
      exact ⟨'"' :: ds, .string (by simpa using hs), rfl, Nat.zero_le _⟩
    next body =>
      split_ifs at h with hzero
      obtain ⟨ws, hws, hbody⟩ := blank_split body
      split at h
      next more hmore =>
        cases h
        rw [hmore] at hbody
        exact ⟨_, .array hws .nil, by simp [hbody], by simp [Json.depth, itemsDepth]; omega⟩
      next =>
        obtain ⟨items, ds, hitems, -, hds, hdepth, rfl⟩ := spells_of_readItems fuel h
        rw [hds] at hbody
        exact ⟨_, .array hws hitems, by simp [hbody], by simp [Json.depth]; omega⟩
    next body =>
      split_ifs at h with hzero
      obtain ⟨ws, hws, hbody⟩ := blank_split body
      split at h
      next more hmore =>
        cases h
        rw [hmore] at hbody
        exact ⟨_, .object hws .nil, by simp [hbody], by simp [Json.depth, membersDepth]; omega⟩
      next =>
        obtain ⟨members, ds, hmembers, -, hds, hdepth, rfl⟩ := spells_of_readMembers fuel h
        rw [hds] at hbody
        exact ⟨_, .object hws hmembers, by simp [hbody], by simp [Json.depth]; omega⟩
    next =>
      obtain ⟨⟨n, ds⟩, hread, hv⟩ := Option.map_eq_some_iff.mp h
      cases hv
      obtain ⟨ds, hn, rfl⟩ := spells_of_readNumber hread hrest
      exact ⟨ds, hn, rfl, Nat.zero_le _⟩

/-- What is read as items is an array of the items before it and of those that are spelled. -/
theorem spells_of_readItems : ∀ (fuel : Nat) {depth : Nat} {done : List Json}
    {cs rest : List Char} {v : Json}, readItems fuel depth done cs = some (v, rest) →
    ∃ items ds, SpellsItems items ds ∧ items ≠ [] ∧ cs = ds ++ rest ∧ itemsDepth items ≤ depth ∧
      v = .array (done.reverse ++ items)
  | 0, _, _, _, _, _, h => by cases h
  | fuel + 1, depth, done, cs, rest, v, h => by
    unfold readItems at h
    split at h
    next => cases h
    next v rest hread =>
      split at h
      next more hmore =>
        obtain ⟨hstops, ws, hws, rfl⟩ := blank_split_of_skipBlanks hmore rfl
        obtain ⟨ds, hv, rfl, hdepth⟩ := spells_of_readValue fuel hread hstops
        obtain ⟨items, es, hitems, hne, hes, hdepths, rfl⟩ := spells_of_readItems fuel h
        obtain ⟨xs, hxs, hmore⟩ := blank_split more
        obtain ⟨w, items, rfl⟩ := List.exists_cons_of_ne_nil hne
        refine ⟨v :: w :: items, _, .cons hv hws hxs hitems, by simp, ?_, ?_, by simp⟩
        · rw [hmore, hes]
          simp
        · exact max_le hdepth hdepths
      next hmore =>
        cases h
        obtain ⟨hstops, ws, hws, rfl⟩ := blank_split_of_skipBlanks hmore rfl
        obtain ⟨ds, hv, rfl, hdepth⟩ := spells_of_readValue fuel hread hstops
        refine ⟨[v], ds ++ (ws ++ [']']), .last hv hws, by simp, by simp, ?_, by simp⟩
        simpa [itemsDepth] using hdepth
      next => cases h

/-- Likewise for members. -/
theorem spells_of_readMembers : ∀ (fuel : Nat) {depth : Nat} {done : List (String × Json)}
    {cs rest : List Char} {v : Json}, readMembers fuel depth done cs = some (v, rest) →
    ∃ members ds, SpellsMembers members ds ∧ members ≠ [] ∧ cs = ds ++ rest ∧
      membersDepth members ≤ depth ∧ v = .object (done.reverse ++ members)
  | 0, _, _, _, _, _, h => by cases h
  | fuel + 1, depth, done, cs, rest, v, h => by
    unfold readMembers at h
    split at h
    next body =>
      split at h
      next => cases h
      next key after hkey =>
        obtain ⟨s, ks, hks, rfl, rfl⟩ := letters_of_readText hkey
        split at h
        next after' hafter =>
          obtain ⟨-, ws, hws, rfl⟩ := blank_split_of_skipBlanks hafter rfl
          obtain ⟨xs, hxs, hvalue⟩ := blank_split after'
          split at h
          next => cases h
          next v rest hread =>
            -- A key is what has been read of it behind nothing.
            have hletters : Letters ("" ++ String.ofList s).toList ks := by simpa using hks
            split at h
            next more hmore =>
              obtain ⟨hstops, ys, hys, rfl⟩ := blank_split_of_skipBlanks hmore rfl
              obtain ⟨ds, hv, hds, hdepth⟩ := spells_of_readValue fuel hread hstops
              obtain ⟨members, es, hmembers, hne, hes, hdepths, rfl⟩ :=
                spells_of_readMembers fuel h
              obtain ⟨zs, hzs, hmore⟩ := blank_split more
              obtain ⟨m, members, rfl⟩ := List.exists_cons_of_ne_nil hne
              refine ⟨_ :: m :: members, _, .cons (.mk hletters hws hxs hv) hys hzs hmembers,
                by simp, ?_, max_le hdepth hdepths, by simp⟩
              rw [hvalue, hds, hmore, hes]
              simp
            next hmore =>
              cases h
              obtain ⟨hstops, ys, hys, rfl⟩ := blank_split_of_skipBlanks hmore rfl
              obtain ⟨ds, hv, hds, hdepth⟩ := spells_of_readValue fuel hread hstops
              refine ⟨[_], _, .last (.mk hletters hws hxs hv) hys, by simp, ?_, ?_, by simp⟩
              · rw [hvalue, hds]
                simp
              · simpa [membersDepth] using hdepth
            next => cases h
        next => cases h
    next => cases h

end

/-- A text is read as a value exactly if it is a text of the value and the value is nested no
deeper than the reader goes. -/
theorem read?_eq_some_iff {limit : Nat} {text : String} {v : Json} :
    read? limit text = some v ↔ IsText v text ∧ v.depth ≤ limit := by
  refine ⟨fun h => ?_, fun h => h.1.read? h.2⟩
  rw [read?, readWhole?] at h
  split at h
  next v rest hread =>
    split_ifs at h with hend
    cases h
    obtain ⟨ws, hws, hcs⟩ := blank_split text.toList
    obtain ⟨xs, hxs, hrest⟩ := blank_split rest
    rw [List.isEmpty_iff] at hend
    rw [hend, List.append_nil] at hrest
    subst hrest
    have hstops : Stops rest := by simpa using stops_append hxs stops_nil
    obtain ⟨ds, hv, hds, hdepth⟩ := spells_of_readValue _ hread hstops
    refine ⟨?_, hdepth⟩
    have htext : text = String.ofList (ws ++ (ds ++ rest)) := by
      rw [← hds, ← hcs, String.ofList_toList]
    rw [htext]
    exact .mk hws hv hxs
  next => cases h

/-- A text belongs to one value. -/
theorem IsText.unique {v w : Json} {text : String} (hv : IsText v text) (hw : IsText w text) :
    v = w :=
  Option.some.inj <| (hv.read? (Nat.le_max_left v.depth w.depth)).symm.trans
    (hw.read? (Nat.le_max_right v.depth w.depth))

end EsotericHost.Json
