import EsotericHost.Json.Basic
import Mathlib.Data.List.Nodup
import Mathlib.Data.String.Basic
import Mathlib.Tactic.SplitIfs

/-!
# Normal forms

The normal form of an object does not depend on the order in which its members are written, as long
as no key is written twice.
-/

namespace EsotericHost

namespace Table

variable {α : Type}

/-- The order in which two keys are put into a table does not matter. -/
theorem insert_insert_comm {k l : String} (hne : k ≠ l) (v w : α) (table : List (String × α)) :
    insert k v (insert l w table) = insert l w (insert k v table) := by
  induction table with
  | nil => grind [insert]
  | cons entry rest ih => grind [insert]

/-- The keys of a table stand in their order. -/
def Sorted (table : List (String × α)) : Prop :=
  table.Pairwise fun m n => m.1 < n.1

/-- A table gets no entry but the one that is put into it. -/
theorem mem_of_mem_insert {table : List (String × α)} {k : String} {v : α} {m : String × α}
    (h : m ∈ insert k v table) : m = (k, v) ∨ m ∈ table := by
  induction table with
  | nil => simpa [insert] using h
  | cons entry rest ih => grind [insert]

/-- An entry that is inserted into a table in order leaves it in order. -/
theorem Sorted.insert {table : List (String × α)} (h : Sorted table) (k : String) (v : α) :
    Sorted (insert k v table) := by
  induction table with
  | nil => simp [Sorted, Table.insert]
  | cons entry rest ih =>
    obtain ⟨l, w⟩ := entry
    obtain ⟨hfront, hrest⟩ := List.pairwise_cons.mp h
    rw [Table.insert]
    split_ifs with hlt heq
    · refine List.pairwise_cons.mpr ⟨fun m hm => ?_, h⟩
      rcases List.mem_cons.mp hm with rfl | hm
      · exact hlt
      · exact hlt.trans (hfront m hm)
    · subst heq
      exact List.pairwise_cons.mpr ⟨hfront, hrest⟩
    · refine List.pairwise_cons.mpr ⟨fun m hm => ?_, ih hrest⟩
      rcases mem_of_mem_insert hm with rfl | hm
      · exact lt_of_le_of_ne (le_of_not_gt hlt) (Ne.symm heq)
      · exact hfront m hm

end Table

namespace Json

/-- The members of an object are inserted one by one. -/
theorem canonicalMembers_eq_foldl (members done : List (String × Json)) :
    canonicalMembers done members =
      members.foldl (fun done m => Table.insert m.1 m.2.canonical done) done := by
  induction members generalizing done with
  | nil => rfl
  | cons m members ih => exact ih _

/-- Members with different keys may be written in any order. -/
theorem canonicalMembers_perm {members written : List (String × Json)}
    (hkeys : (members.map (·.1)).Nodup) (h : written.Perm members) :
    canonicalMembers [] written = canonicalMembers [] members := by
  rw [canonicalMembers_eq_foldl, canonicalMembers_eq_foldl]
  refine (h.symm.foldl_eq' (fun m hm n hn done => ?_) []).symm
  by_cases hmn : m.1 = n.1
  · rw [List.inj_on_of_nodup_map hkeys hm hn hmn]
  · exact Table.insert_insert_comm (Ne.symm hmn) _ _ _

/-- Values that differ only in the order in which objects list their members, at any depth. -/
inductive Rearranged : Json → Json → Prop
  | refl (v : Json) : Rearranged v v
  | trans {u v w : Json} (h : Rearranged u v) (h' : Rearranged v w) : Rearranged u w
  | perm {written members : List (String × Json)} (hkeys : (members.map (·.1)).Nodup)
      (h : written.Perm members) : Rearranged (.object written) (.object members)
  | member {v w : Json} (front back : List (String × Json)) (k : String) (h : Rearranged v w) :
      Rearranged (.object (front ++ (k, v) :: back)) (.object (front ++ (k, w) :: back))
  | item {v w : Json} (front back : List Json) (h : Rearranged v w) :
      Rearranged (.array (front ++ v :: back)) (.array (front ++ w :: back))

/-- The items of a canonical array are canonical each for itself. -/
theorem canonicalItems_eq_map (items : List Json) : canonicalItems items = items.map canonical := by
  induction items with
  | nil => rfl
  | cons v items ih => rw [canonicalItems, ih, List.map_cons]

/-- The order is no part of the normal form. -/
theorem Rearranged.canonical_eq {v w : Json} (h : Rearranged v w) : v.canonical = w.canonical := by
  induction h with
  | refl v => rfl
  | trans _ _ ih ih' => exact ih.trans ih'
  | perm hkeys h => rw [canonical, canonical, canonicalMembers_perm hkeys h]
  | member front back k _ ih =>
    simp only [canonical, canonicalMembers_eq_foldl, List.foldl_append, List.foldl_cons, ih]
  | item front back _ ih =>
    simp only [canonical, canonicalItems_eq_map, List.map_append, List.map_cons, ih]

end Json

end EsotericHost
