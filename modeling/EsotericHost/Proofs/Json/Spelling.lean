import EsotericHost.Json.Printer
import Mathlib.Tactic.SplitIfs

/-!
# The characters of a JSON text

`Json.compact` appends to a text as it goes. `Json.spelling` is the same text as a list of
characters, built from the characters of the parts; a bracket that closes belongs to what stands
between the brackets. No spelling has a control character in it, so that a value stays on one line.
-/

namespace EsotericHost.Json

/-- The characters of a string from after the opening quote on. -/
def textSpelling (cs : List Char) : List Char :=
  cs.flatMap escape ++ ['"']

mutual

/-- The characters of the compact text of a value. -/
def spelling : Json → List Char
  | .null => ['n', 'u', 'l', 'l']
  | .bool true => ['t', 'r', 'u', 'e']
  | .bool false => ['f', 'a', 'l', 's', 'e']
  | .number n => n.text.toList
  | .string s => '"' :: textSpelling s.toList
  | .array items => '[' :: itemsSpelling items
  | .object members => '\x7b' :: membersSpelling members

/-- The items and the bracket after them. -/
def itemsSpelling : List Json → List Char
  | [] => [']']
  | [v] => spelling v ++ [']']
  | v :: w :: rest => spelling v ++ ',' :: itemsSpelling (w :: rest)

/-- The members and the brace after them. -/
def membersSpelling : List (String × Json) → List Char
  | [] => ['\x7d']
  | [(k, v)] => '"' :: textSpelling k.toList ++ ':' :: spelling v ++ ['\x7d']
  | (k, v) :: m :: rest =>
    '"' :: textSpelling k.toList ++ ':' :: spelling v ++ ',' :: membersSpelling (m :: rest)

end

/-! ## The printer -/

/-- Characters that are pushed one by one stand behind a text in their order. -/
theorem toList_foldl_push (cs : List Char) (s : String) :
    (cs.foldl String.push s).toList = s.toList ++ cs := by
  induction cs generalizing s with
  | nil => simp
  | cons c cs ih => simp [ih, String.toList_push]

/-- Characters that are escaped one by one stand behind a text as they are spelled. -/
theorem toList_foldl_escape (cs : List Char) (s : String) :
    (cs.foldl (fun out c => (escape c).foldl String.push out) s).toList =
      s.toList ++ cs.flatMap escape := by
  induction cs generalizing s with
  | nil => simp
  | cons c cs ih => simp [ih, toList_foldl_push]

/-- A quoted text is spelled with its quotes. -/
theorem toList_quote (s : String) : (quote s).toList = '"' :: textSpelling s.toList := by
  simp [quote, textSpelling, String.foldl_eq_foldl_toList, toList_foldl_escape]

mutual

/-- The printer appends the characters of a value. -/
theorem toList_write : ∀ (v : Json) (out : String), (write out v).toList = out.toList ++ spelling v
  | .null, out | .bool true, out | .bool false, out | .number _, out => by
    simp [write, spelling]
  | .string s, out => by simp [write, spelling, toList_quote]
  | .array items, out => by
    rw [write, String.toList_push, toList_writeItems items, String.toList_push, spelling]
    simp
  | .object members, out => by
    rw [write, String.toList_push, toList_writeMembers members, String.toList_push, spelling]
    simp

/-- Likewise for the items of an array and the bracket after them. -/
theorem toList_writeItems : ∀ (items : List Json) (out : String),
    (writeItems out items).toList ++ [']'] = out.toList ++ itemsSpelling items
  | [], out => by simp [writeItems, itemsSpelling]
  | [v], out => by simp [writeItems, itemsSpelling, toList_write v]
  | v :: w :: rest, out => by
    rw [writeItems, toList_writeItems (w :: rest), String.toList_push, toList_write v,
      itemsSpelling]
    simp
    simp

/-- Likewise for the members of an object and the brace after them. -/
theorem toList_writeMembers : ∀ (members : List (String × Json)) (out : String),
    (writeMembers out members).toList ++ ['\x7d'] = out.toList ++ membersSpelling members
  | [], out => by simp [writeMembers, membersSpelling]
  | [(k, v)], out => by simp [writeMembers, membersSpelling, toList_write v, toList_quote]
  | (k, v) :: m :: rest, out => by
    rw [writeMembers, toList_writeMembers (m :: rest), String.toList_push, toList_write v,
      membersSpelling]
    · simp [toList_quote]
    · simp

end

/-- The characters of the compact text. -/
theorem toList_compact (v : Json) : v.compact.toList = spelling v := by
  simp [compact, toList_write]

/-! ## One line -/

/-- The characters from the blank on, among which there is no ending of a line. -/
def Printable (cs : List Char) : Prop :=
  ∀ c ∈ cs, 32 ≤ c.toNat

instance (cs : List Char) : Decidable (Printable cs) :=
  List.decidableBAll _ cs

/-- The empty text is printable. -/
@[simp]
theorem printable_nil : Printable [] := by simp [Printable]

/-- A text is printable if its first character is and the others are. -/
@[simp]
theorem printable_cons (c : Char) (cs : List Char) :
    Printable (c :: cs) ↔ 32 ≤ c.toNat ∧ Printable cs := by
  simp [Printable]

/-- Two texts are printable one after the other if each of them is. -/
@[simp]
theorem printable_append (cs ds : List Char) :
    Printable (cs ++ ds) ↔ Printable cs ∧ Printable ds := by
  simp [Printable, or_imp, forall_and]

/-- Some characters of a printable text are printable. -/
theorem Printable.of_subset {cs ds : List Char} (h : Printable ds) (hs : cs ⊆ ds) : Printable cs :=
  fun c hc => h c (hs hc)

/-- Zeros are printable. -/
theorem printable_replicate_zero (n : Nat) : Printable (List.replicate n '0') := by
  intro c hc
  rw [List.eq_of_mem_replicate hc]
  decide

/-- The decimal digits of a natural number are printable. -/
theorem printable_toDigits (n : Nat) : Printable (Nat.toDigits 10 n) := by
  intro c hc
  have hdigit := Nat.isDigit_of_mem_toDigits (by decide) (by decide) hc
  simp only [Char.isDigit, Bool.and_eq_true, decide_eq_true_eq] at hdigit
  have : (48 : UInt32).toNat ≤ c.toNat := hdigit.1
  exact Nat.le_trans (by decide) this

/-- The positional notation of a decimal is printable. -/
theorem printable_positional (d : Decimal.Digits) (keepsPoint : Bool) :
    Printable (d.positional keepsPoint).toList := by
  have hd := printable_toDigits d.digits
  unfold Decimal.Digits.positional Decimal.digitChars
  dsimp only
  split
  · cases keepsPoint <;> simp [hd, printable_replicate_zero]
  · split
    · simp [hd.of_subset (List.take_subset _ _), hd.of_subset (List.drop_subset _ _)]
    · simp [hd, printable_replicate_zero]

/-- The scientific notation of a decimal is printable. -/
theorem printable_scientific (d : Decimal.Digits) : Printable d.scientific.toList := by
  have hd := printable_toDigits d.digits
  unfold Decimal.Digits.scientific Decimal.digitChars
  dsimp only
  rw [String.toList_ofList]
  have hfraction : Printable (if (Nat.toDigits 10 d.digits).length ≤ 1 then []
      else '.' :: (Nat.toDigits 10 d.digits).drop 1) := by
    split
    · exact printable_nil
    · exact (printable_cons _ _).mpr ⟨by decide, hd.of_subset (List.drop_subset _ _)⟩
  simp only [printable_append, printable_cons]
  refine ⟨⟨hd.of_subset (List.take_subset _ _), hfraction⟩, by decide, ?_, printable_toDigits _⟩
  split <;> decide

/-- A double is printable in every layout. -/
theorem printable_write (l : Decimal.Layout) (x : Float) : Printable (l.write x).toList := by
  have hpositive (m : Nat) (e : Int) : Printable (l.positive m e).toList := by
    unfold Decimal.Layout.positive
    dsimp only
    split
    · exact printable_positional _ _
    · exact printable_scientific _
  unfold Decimal.Layout.write
  split
  · decide
  · decide
  · decide
  · unfold Decimal.Layout.finite
    dsimp only
    split_ifs <;> simp [hpositive]

/-- The text of a number is printable. -/
theorem Number.printable_text (n : Number) : Printable n.text.toList := by
  cases n with
  | float x => exact printable_write floatLayout x
  | int n =>
    rw [Number.text, Int.toString_eq_repr, Int.repr_eq_if]
    split <;> simp [printable_toDigits]

/-- What is not printable is escaped by what is. -/
theorem printable_escape (c : Char) : Printable (escape c) := by
  have hhex : ∀ n < 16, 32 ≤ (hexDigit n).toNat := by decide
  unfold escape
  split_ifs with _ _ _ _ _ _ _ hcontrol
  iterate 7 decide
  · have := hhex (c.toNat / 16) (by omega)
    have := hhex (c.toNat % 16) (by omega)
    simp [*]
  · simp; omega

/-- The text of a string is printable, whatever is in it. -/
theorem printable_textSpelling (cs : List Char) : Printable (textSpelling cs) := by
  rw [textSpelling, printable_append]
  refine ⟨fun c hc => ?_, by decide⟩
  obtain ⟨d, -, hc⟩ := List.mem_flatMap.mp hc
  exact printable_escape d c hc

mutual

/-- The text of a value is printable, whatever strings are in it. -/
theorem printable_spelling : ∀ v : Json, Printable (spelling v)
  | .null | .bool true | .bool false => by simp [spelling]
  | .number n => n.printable_text
  | .string s => by simp [spelling, printable_textSpelling]
  | .array items => by simp [spelling, printable_itemsSpelling items]
  | .object members => by simp [spelling, printable_membersSpelling members]

/-- The text of the items of an array is printable. -/
theorem printable_itemsSpelling : ∀ items : List Json, Printable (itemsSpelling items)
  | [] => by simp [itemsSpelling]
  | [v] => by simp [itemsSpelling, printable_spelling v]
  | v :: w :: rest => by
    simp [itemsSpelling, printable_spelling v, printable_itemsSpelling (w :: rest)]

/-- The text of the members of an object is printable. -/
theorem printable_membersSpelling : ∀ members : List (String × Json),
    Printable (membersSpelling members)
  | [] => by simp [membersSpelling]
  | [(k, v)] => by simp [membersSpelling, printable_spelling v, printable_textSpelling]
  | (k, v) :: m :: rest => by
    simp [membersSpelling, printable_spelling v, printable_textSpelling,
      printable_membersSpelling (m :: rest)]

end

end EsotericHost.Json
