/-! # Finite maps keyed by names

Rows of solutions, prefix declarations and metadata links are finite maps whose keys are names and
whose entries are listed in the order of their keys. The order is part of the type, so two maps
with the same entries are equal.
-/

namespace QueryAlgebra

/-- A finite map from names, its entries strictly increasing in their keys. -/
structure NameMap (α : Type) where
  entries : List (String × α)
  sorted : entries.Pairwise (fun a b => a.1 < b.1)

namespace NameMap

variable {α : Type}

@[ext] theorem ext {m n : NameMap α} (same : m.entries = n.entries) : m = n := by
  cases m
  cases n
  cases same
  rfl

instance [DecidableEq α] : DecidableEq (NameMap α) := fun m n =>
  if same : m.entries = n.entries then isTrue (ext same)
  else isFalse fun equal => same (congrArg entries equal)

/-- The map without entries. -/
def empty : NameMap α := ⟨[], .nil⟩

instance : Inhabited (NameMap α) := ⟨empty⟩

/-- Put an entry into its place in a list of entries; an entry of the same key is replaced. -/
def insertEntry (key : String) (value : α) : List (String × α) → List (String × α)
  | [] => [(key, value)]
  | head :: rest =>
    if key < head.1 then (key, value) :: head :: rest
    else if key = head.1 then (key, value) :: rest
    else head :: insertEntry key value rest

theorem key_of_mem_insertEntry {key : String} {value : α} {entries : List (String × α)}
    {entry : String × α} (member : entry ∈ insertEntry key value entries) :
    entry = (key, value) ∨ entry ∈ entries := by
  induction entries with
  | nil => simpa [insertEntry] using member
  | cons head rest ih =>
    unfold insertEntry at member
    split at member
    · simpa using member
    · split at member
      · rcases List.mem_cons.1 member with same | inRest
        · exact .inl same
        · exact .inr (List.mem_cons_of_mem _ inRest)
      · rcases List.mem_cons.1 member with same | inRest
        · exact .inr (same ▸ List.mem_cons_self ..)
        · exact (ih inRest).imp id (List.mem_cons_of_mem _)

theorem insertEntry_sorted (key : String) (value : α) {entries : List (String × α)}
    (sorted : entries.Pairwise (fun a b => a.1 < b.1)) :
    (insertEntry key value entries).Pairwise (fun a b => a.1 < b.1) := by
  induction entries with
  | nil => simp [insertEntry]
  | cons head rest ih =>
    obtain ⟨below, sortedRest⟩ := List.pairwise_cons.1 sorted
    unfold insertEntry
    split
    · rename_i less
      refine List.pairwise_cons.2 ⟨fun entry member => ?_, sorted⟩
      rcases List.mem_cons.1 member with same | inRest
      · exact same ▸ less
      · exact String.lt_trans less (below entry inRest)
    · split
      · rename_i same
        exact List.pairwise_cons.2 ⟨fun entry member => by
          simpa [same] using below entry member, sortedRest⟩
      · rename_i notLess different
        have less : head.1 < key :=
          String.not_le.1 fun le => different (String.le_antisymm le (String.not_lt.1 notLess))
        refine List.pairwise_cons.2 ⟨fun entry member => ?_, ih sortedRest⟩
        rcases key_of_mem_insertEntry member with same | inRest
        · exact same ▸ less
        · exact below entry inRest

/-- The map with `key` bound to `value`, whatever it was bound to before. -/
def insert (m : NameMap α) (key : String) (value : α) : NameMap α :=
  ⟨insertEntry key value m.entries, insertEntry_sorted key value m.sorted⟩

/-- The value bound to `key`. -/
def find? (m : NameMap α) (key : String) : Option α :=
  (m.entries.find? fun entry => entry.1 == key).map (·.2)

/-- The map of a list of entries, of which the last with a given key counts. -/
def ofList (entries : List (String × α)) : NameMap α :=
  entries.foldl (fun m entry => m.insert entry.1 entry.2) empty

/-- The keys, in increasing order. -/
def keys (m : NameMap α) : List String := m.entries.map (·.1)

/-- Whether the map has no entries. -/
def isEmpty (m : NameMap α) : Bool := m.entries.isEmpty

end NameMap

end QueryAlgebra
