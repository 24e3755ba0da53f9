import QueryAlgebra.NameMap
import Mathlib.Data.List.Nodup
import Mathlib.Tactic.ByContra

/-! # Look-up in finite maps

A map is determined by what is found under its keys. `NameMap.merge` puts the entries of one map
over those of another, and look-up in it asks the first map before the second.
-/

namespace QueryAlgebra.NameMap

variable {α : Type}

/-- A value is found under a key exactly if the two are an entry. -/
theorem find?_eq_some_iff {m : NameMap α} {key : String} {value : α} :
    m.find? key = some value ↔ (key, value) ∈ m.entries := by
  obtain ⟨entries, sorted⟩ := m
  simp only [find?]
  induction entries with
  | nil => simp
  | cons head rest ih =>
    obtain ⟨below, sortedRest⟩ := List.pairwise_cons.1 sorted
    by_cases same : head.1 = key
    · subst same
      have absent : (head.1, value) ∉ rest := fun member =>
        String.lt_irrefl head.1 (below (head.1, value) member)
      simp [absent, Prod.ext_iff, eq_comm]
    · have other : (key, value) ≠ head := fun equal => same (congrArg Prod.fst equal).symm
      simp [same, ih sortedRest, other]

/-- Two lists of entries in order that have the same members are equal. -/
private theorem entries_ext {first second : List (String × α)}
    (sortedFirst : first.Pairwise (fun a b => a.1 < b.1))
    (sortedSecond : second.Pairwise (fun a b => a.1 < b.1))
    (same : ∀ entry, entry ∈ first ↔ entry ∈ second) : first = second := by
  induction first generalizing second with
  | nil =>
    cases second with
    | nil => rfl
    | cons head rest => exact absurd ((same head).2 (List.mem_cons_self ..)) List.not_mem_nil
  | cons head rest ih =>
    cases second with
    | nil => exact absurd ((same head).1 (List.mem_cons_self ..)) List.not_mem_nil
    | cons head' rest' =>
      obtain ⟨below, sortedRest⟩ := List.pairwise_cons.1 sortedFirst
      obtain ⟨below', sortedRest'⟩ := List.pairwise_cons.1 sortedSecond
      -- Were the heads different, each would come before the other.
      have heads : head = head' := by
        by_contra different
        have inRest' := List.mem_of_ne_of_mem different ((same head).1 (List.mem_cons_self ..))
        have inRest :=
          List.mem_of_ne_of_mem (Ne.symm different) ((same head').2 (List.mem_cons_self ..))
        exact String.lt_irrefl _ (String.lt_trans (below _ inRest) (below' _ inRest'))
      subst heads
      refine congrArg (head :: ·) (ih sortedRest sortedRest' fun entry => ?_)
      constructor
      · intro member
        have different : entry ≠ head := fun equal =>
          String.lt_irrefl _ (equal ▸ below _ member)
        exact List.mem_of_ne_of_mem different ((same entry).1 (List.mem_cons_of_mem _ member))
      · intro member
        have different : entry ≠ head := fun equal =>
          String.lt_irrefl _ (equal ▸ below' _ member)
        exact List.mem_of_ne_of_mem different ((same entry).2 (List.mem_cons_of_mem _ member))

/-- A map has no other entries in the order of their keys. -/
theorem eq_entries_of_perm {m : NameMap α} {entries : List (String × α)}
    (sorted : entries.Pairwise (fun a b => a.1 < b.1)) (perm : entries.Perm m.entries) :
    entries = m.entries :=
  entries_ext sorted m.sorted fun _ => perm.mem_iff

/-- Maps in which the same is found under every key are equal. -/
theorem ext_find? {m n : NameMap α} (same : ∀ key, m.find? key = n.find? key) : m = n := by
  refine ext (entries_ext m.sorted n.sorted fun ⟨key, value⟩ => ?_)
  rw [← find?_eq_some_iff, ← find?_eq_some_iff, same]

@[simp] theorem find?_empty (key : String) : (empty : NameMap α).find? key = none := rfl

private theorem find?_insertEntry (key : String) (value : α) (entries : List (String × α))
    (other : String) :
    ((insertEntry key value entries).find? fun entry => entry.1 == other).map (·.2)
      = if key = other then some value
        else (entries.find? fun entry => entry.1 == other).map (·.2) := by
  induction entries with
  | nil => by_cases same : key = other <;> simp [insertEntry, same]
  | cons head rest ih =>
    unfold insertEntry
    split
    · by_cases same : key = other <;> simp [same]
    · split
      · rename_i equal
        by_cases same : key = other
        · simp [same]
        · simp [same, ← equal]
      · rename_i different
        by_cases found : head.1 = other
        · have apart : key ≠ other := fun same => different (same.trans found.symm)
          simp [found, apart]
        · simp [found, ih]

/-- What is found after an entry is put into a map. -/
theorem find?_insert (m : NameMap α) (key : String) (value : α) (other : String) :
    (m.insert key value).find? other = if key = other then some value else m.find? other :=
  find?_insertEntry key value m.entries other

private theorem find?_insertAll {entries : List (String × α)}
    (distinct : (entries.map (·.1)).Nodup) (before : NameMap α) (key : String) (value : α) :
    (entries.foldl (fun m entry => m.insert entry.1 entry.2) before).find? key = some value
      ↔ (key, value) ∈ entries ∨ key ∉ entries.map (·.1) ∧ before.find? key = some value := by
  induction entries generalizing before with
  | nil => simp
  | cons head rest ih =>
    rw [List.map_cons, List.nodup_cons] at distinct
    rw [List.foldl_cons, ih distinct.2, find?_insert]
    by_cases same : head.1 = key
    · subst same
      simp [distinct.1, Prod.ext_iff, eq_comm, or_comm]
    · have other : (key, value) ≠ head := fun equal => same (congrArg Prod.fst equal).symm
      simp [same, other, Ne.symm same]

/-- What is found in the map of entries with different keys. -/
theorem find?_ofList {entries : List (String × α)} (distinct : (entries.map (·.1)).Nodup)
    (key : String) (value : α) :
    (ofList entries).find? key = some value ↔ (key, value) ∈ entries := by
  rw [ofList, find?_insertAll distinct]
  simp

/-- The keys of a map are different. -/
theorem nodup_keys (m : NameMap α) : m.keys.Nodup := by
  rw [keys, List.nodup_iff_pairwise_ne, List.pairwise_map]
  apply m.sorted.imp
  intro first second less same
  exact String.lt_irrefl _ (same ▸ less)

/-- The map of entries with different keys has these entries, in the order of their keys. -/
theorem perm_entries_ofList {entries : List (String × α)} (distinct : (entries.map (·.1)).Nodup) :
    entries.Perm (ofList entries).entries := by
  have ofMap : (ofList entries).entries.Nodup := List.Nodup.of_map _ (ofList entries).nodup_keys
  refine (List.perm_ext_iff_of_nodup distinct.of_map ofMap).2 fun ⟨key, value⟩ => ?_
  rw [← find?_ofList distinct, find?_eq_some_iff]

/-- The order of entries with different keys does not matter. -/
theorem ofList_eq_of_perm {first second : List (String × α)} (distinct : (first.map (·.1)).Nodup)
    (perm : first.Perm second) : ofList first = ofList second := by
  refine ext_find? fun key => Option.ext fun value => ?_
  rw [find?_ofList distinct, find?_ofList ((perm.map _).nodup_iff.1 distinct), perm.mem_iff]

/-- A map is the map of its entries. -/
theorem ofList_entries (m : NameMap α) : ofList m.entries = m := by
  refine ext_find? fun key => Option.ext fun value => ?_
  rw [find?_ofList m.nodup_keys, find?_eq_some_iff]

/-- The entries of a map of a list are members of the list. -/
theorem mem_of_mem_ofList {entries : List (String × α)} {entry : String × α}
    (member : entry ∈ (ofList entries).entries) : entry ∈ entries := by
  have ofFold : ∀ before : NameMap α,
      entry ∈ (entries.foldl (fun m entry => m.insert entry.1 entry.2) before).entries →
      entry ∈ entries ∨ entry ∈ before.entries := by
    clear member
    induction entries with
    | nil => exact fun before member => .inr member
    | cons head rest ih =>
      intro before member
      rcases ih _ member with inRest | inserted
      · exact .inl (List.mem_cons_of_mem _ inRest)
      · rcases key_of_mem_insertEntry inserted with same | inBefore
        · exact .inl (same ▸ List.mem_cons_self)
        · exact .inr inBefore
  exact (ofFold empty member).resolve_right List.not_mem_nil

/-- The entries of a map, and those of a second map under the other keys. -/
def merge (m n : NameMap α) : NameMap α :=
  m.entries.foldr (fun entry merged => merged.insert entry.1 entry.2) n

/-- What is found in a merged map is found in the first map or else in the second. -/
@[simp] theorem find?_merge (m n : NameMap α) (key : String) :
    (m.merge n).find? key = (m.find? key).or (n.find? key) := by
  simp only [merge]
  conv_rhs => simp only [find?]
  induction m.entries with
  | nil => rfl
  | cons head rest ih =>
    rw [List.foldr_cons, find?_insert]
    by_cases same : head.1 = key
    · simp [same]
    · simp only [same, if_false, ih]
      simp [same]

end QueryAlgebra.NameMap
