import Mathlib.Data.List.AList

/-! Sizes of association lists, and what is left of one behind the removal of a key. -/
namespace AssociationList
variable {Key : Type*} {Item : Key → Type*} {items : AList Item} {key : Key}

theorem length_keys (items : AList Item) : items.keys.length = items.entries.length := List.length_map ..

variable [DecidableEq Key]

theorem mem_of_lookup {item : Item key} (found : items.lookup key = some item) : key ∈ items :=
  AList.lookup_isSome.mp (Option.isSome_of_eq_some found)

theorem length_erase (member : key ∈ items) : (items.erase key).entries.length + 1 = items.entries.length := by
  rw [← length_keys,← length_keys,AList.keys_erase,List.length_erase_of_mem member]
  exact Nat.sub_add_cancel (List.length_pos_of_mem member)

theorem length_replace (member : key ∈ items) (item : Item key) :
    (items.insert key item).entries.length = items.entries.length :=
  length_erase member

theorem length_insert (absent : key ∉ items) (item : Item key) :
    (items.insert key item).entries.length = items.entries.length + 1 := by
  rw [← length_keys,← length_keys,AList.keys_insert,List.length_cons,List.erase_of_not_mem absent]

/-- The entries of the other keys are kept. -/
theorem mem_erase_entries {entry : Sigma Item} (member : entry ∈ items.entries) (other : entry.1 ≠ key) :
    entry ∈ (items.erase key).entries := by
  have found : items.lookup entry.1 = some entry.2 := AList.mem_lookup_iff.mpr member
  exact AList.mem_lookup_iff.mp ((AList.lookup_erase_ne other).trans found)

end AssociationList
