import EsotericHost.Host.Stream
import Mathlib.Data.List.Basic
import Mathlib.Tactic.SplitIfs

/-!
# Lines of bytes

Where a stream of bytes is cut, and what becomes of a text that stands on a line of it. A byte
below 128 stands for one character wherever it occurs, so a line feed or a carriage return among
the bytes of a text is one among its characters.
-/

namespace EsotericHost.Text

variable {α : Type} [DecidableEq α]

/-! ## Cutting at a separator -/

/-- There is always a piece, be it an empty one. -/
theorem pieces_ne_nil (separator : α) (xs : List α) : pieces separator xs ≠ [] := by
  cases xs with
  | nil => simp [pieces]
  | cons x xs =>
    simp only [pieces, List.foldr_cons]
    split
    · simp
    · split <;> simp

/-- A character that does not separate is the first of its piece. -/
theorem pieces_cons_of_ne {separator x : α} (hx : x ≠ separator) {xs piece : List α}
    {rest : List (List α)} (hxs : pieces separator xs = piece :: rest) :
    pieces separator (x :: xs) = (x :: piece) :: rest := by
  simp only [pieces] at hxs
  simp only [pieces, List.foldr_cons, hxs, hx, if_false]

/-- The first piece ends at the first separator. -/
theorem pieces_append_cons {separator : α} {xs : List α} (hxs : separator ∉ xs) (ys : List α) :
    pieces separator (xs ++ separator :: ys) = xs :: pieces separator ys := by
  induction xs with
  | nil => simp [pieces]
  | cons x xs ih =>
    simp only [List.mem_cons, not_or] at hxs
    exact pieces_cons_of_ne (Ne.symm hxs.1) (ih hxs.2)

/-- What has no separator in it is one piece. -/
theorem pieces_of_not_mem {separator : α} {xs : List α} (hxs : separator ∉ xs) :
    pieces separator xs = [xs] := by
  induction xs with
  | nil => rfl
  | cons x xs ih =>
    simp only [List.mem_cons, not_or] at hxs
    exact pieces_cons_of_ne (Ne.symm hxs.1) (ih hxs.2)

/-- What is joined with a separator that none of it holds is cut there again. -/
theorem pieces_intercalate {separator : α} {all : List (List α)} (hne : all ≠ [])
    (hall : ∀ piece ∈ all, separator ∉ piece) :
    pieces separator ([separator].intercalate all) = all := by
  induction all with
  | nil => exact absurd rfl hne
  | cons piece rest ih =>
    obtain ⟨hpiece, hrest⟩ := List.forall_mem_cons.mp hall
    by_cases hlast : rest = []
    · rw [hlast, List.intercalate_singleton, pieces_of_not_mem hpiece]
    · rw [List.intercalate_cons_of_ne_nil hlast, List.append_assoc, List.singleton_append,
        pieces_append_cons hpiece, ih hlast hrest]

/-- The pieces have all the characters but the separators, and there is one more of them than of the
separators. -/
theorem length_pieces (separator : α) (xs : List α) :
    (pieces separator xs).flatten.length + (pieces separator xs).length = xs.length + 1 := by
  induction xs with
  | nil => rfl
  | cons x xs ih =>
    by_cases hx : x = separator
    · simp only [pieces, List.foldr_cons, if_pos hx, List.flatten_cons, List.length_cons,
        List.nil_append] at ih ⊢
      omega
    · obtain ⟨piece, rest, hrest⟩ := List.exists_cons_of_ne_nil (pieces_ne_nil separator xs)
      rw [pieces_cons_of_ne hx hrest]
      rw [hrest] at ih
      simp only [List.flatten_cons, List.length_append, List.length_cons] at ih ⊢
      omega

/-- No piece is longer than the whole. -/
theorem length_le_of_mem_pieces {separator : α} {xs piece : List α}
    (h : piece ∈ pieces separator xs) : piece.length ≤ xs.length := by
  have hlength := length_pieces separator xs
  have hpiece : piece.length ≤ (pieces separator xs).flatten.length :=
    (List.sublist_flatten_of_mem h).length_le
  have hpos := List.length_pos_of_mem h
  omega

/-- The lines are the pieces, but for an empty one at the end. -/
theorem lines_sublist (terminator : α) (xs : List α) :
    (lines terminator xs).Sublist (pieces terminator xs) := by
  unfold lines
  dsimp only
  split
  · exact List.dropLast_sublist _
  · exact List.Sublist.refl _

/-- The bytes of a text. -/
def bytes (s : String) : List UInt8 :=
  s.toUTF8.data.toList

/-- Code points end before `0x110000`. -/
theorem toNat_lt_size (c : Char) : c.toNat < 0x110000 := by
  have hvalid : c.toNat.isValidChar := c.valid
  unfold Nat.isValidChar at hvalid
  omega

/-- A carriage return at the end is dropped, and nothing else is. -/
theorem dropReturn_concat (cr x : α) (xs : List α) :
    dropReturn cr (xs ++ [x]) = if x = cr then xs else xs ++ [x] := by
  simp [dropReturn]

end EsotericHost.Text

namespace EsotericHost.Host

open Text (bytes)

end EsotericHost.Host
