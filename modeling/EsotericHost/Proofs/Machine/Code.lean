import Mathlib.Data.List.Infix

/-!
# Pieces of code

A piece of code stands in a longer one from an index on if it is a beginning of what is left from
there (`piece <+: code.drop base`). A piece that is put together from others can be taken apart
where it stands.
-/

namespace EsotericHost

variable {α : Type} {code : List α} {base : Nat}

/-- What stands in a code from an index on, piece by piece. -/
theorem prefix_drop_append {first second : List α} (h : first ++ second <+: code.drop base) :
    first <+: code.drop base ∧ second <+: code.drop (base + first.length) := by
  obtain ⟨rest, hrest⟩ := h
  rw [List.append_assoc] at hrest
  refine ⟨⟨_, hrest⟩, rest, ?_⟩
  rw [← List.drop_drop, ← hrest, List.drop_left]

/-- Code that stands at an index has its first instruction there, and the others behind it. -/
theorem prefix_drop_cons {instruction : α} {rest : List α}
    (h : instruction :: rest <+: code.drop base) :
    code[base]? = some instruction ∧ rest <+: code.drop (base + 1) := by
  have happend : [instruction] ++ rest <+: code.drop base := h
  obtain ⟨hfirst, hrest⟩ := prefix_drop_append happend
  refine ⟨?_, hrest⟩
  obtain ⟨more, hmore⟩ := hfirst
  rw [← Nat.add_zero base, ← List.getElem?_drop, ← hmore]
  rfl

end EsotericHost
