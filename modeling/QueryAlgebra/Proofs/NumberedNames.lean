import QueryAlgebra.Lowering.Names
import Mathlib.Data.List.Nodup
import Mathlib.Data.List.Perm.Subperm
import Mathlib.Order.Bounds.Basic

/-! # The search through numbered names

Numbers behind a text tell names apart. So a search that tries the names of a numbered sequence one
after another passes by no more of them than are in use (`FirstFree.soon`), and ends at the first
that is free (`tries_firstFree`).
-/

namespace QueryAlgebra

theorem append_toString_injective (text : String) {first second : Nat}
    (same : text ++ toString first = text ++ toString second) : first = second := by
  have texts := congrArg String.toList same
  simp only [String.toList_append, Nat.toString_eq_ofList_toDigits, String.toList_ofList] at texts
  have digits := congrArg (Nat.ofDigitChars 10 · 0) (List.append_cancel_left texts)
  simpa only [Nat.ofDigitChars_ten_toDigits] using digits

theorem append_toString_ne (text : String) (index : Nat) : text ++ toString index ≠ text := by
  intro same
  have texts := congrArg String.toList same
  rw [String.toList_append, Nat.toString_eq_ofList_toDigits, String.toList_ofList] at texts
  exact Nat.toDigits_ne_nil (List.append_right_eq_self.1 texts)

/-! ### The search -/

/-- Names are tried one after another from an index on. Those in use are passed by, and the search
ends at the first that is free. -/
inductive Tries (name : Nat → String) (used : List String) : Nat → Nat → Prop
  | free {index : Nat} : name index ∉ used → Tries name used index index
  | passBy {start index : Nat} :
    name start ∈ used → Tries name used (start + 1) index → Tries name used start index

namespace Tries

variable {name : Nat → String} {used : List String} {start index : Nat}

theorem not_mem (tries : Tries name used start index) : name index ∉ used := by
  induction tries with
  | free isFree => exact isFree
  | passBy _ _ ih => exact ih

/-- A name that the search has come past need not be looked for any more. -/
theorem of_erase (injective : ∀ m n, name m = name n → m = n) {passed : Nat}
    (earlier : passed < start) (tries : Tries name (used.erase (name passed)) start index) :
    Tries name used start index := by
  induction tries with
  | @free index isFree =>
    have other : name index ≠ name passed := fun same => by have := injective _ _ same; omega
    exact .free fun isUsed => isFree ((List.mem_erase_of_ne other).2 isUsed)
  | passBy isUsed _ ih => exact .passBy (List.mem_of_mem_erase isUsed) (ih (by omega))

theorem le (tries : Tries name used start index) : start ≤ index := by
  induction tries with
  | free => exact Nat.le_refl _
  | passBy _ _ ih => omega

/-- All names that are passed by are in use. -/
theorem mem (tries : Tries name used start index) :
    ∀ other, start ≤ other → other < index → name other ∈ used := by
  induction tries with
  | free => exact fun other notBefore before => by omega
  | passBy isUsed _ ih =>
    intro other notBefore before
    rcases Nat.eq_or_lt_of_le notBefore with rfl | later
    · exact isUsed
    · exact ih other later before

/-- A search among names with a fixed beginning goes through their indices in the same way. -/
theorem of_succ {name' : Nat → String} (same : ∀ index, name (index + 1) = name' index)
    (tries : Tries name used (start + 1) (index + 1)) : Tries name' used start index := by
  generalize first : start + 1 = start', last : index + 1 = index' at tries
  induction tries generalizing start with
  | free isFree =>
    obtain rfl : start = index := by omega
    subst last
    exact .free (same _ ▸ isFree)
  | passBy isUsed _ ih =>
    subst first
    exact .passBy (same _ ▸ isUsed) (ih rfl last)

end Tries

/-- The first free name of a sequence is where the search for it ends. -/
theorem tries_firstFree {name : Nat → String} (injective : ∀ m n, name m = name n → m = n)
    (used : List String) (start : Nat) : Tries name used start (firstFree name used start) := by
  rw [firstFree]
  split
  · rename_i member
    have shorter : (used.erase (name start)).length < used.length := by
      have := List.length_pos_of_mem member
      rw [List.length_erase_of_mem member]
      omega
    have later := tries_firstFree injective (used.erase (name start)) (start + 1)
    exact .passBy member (later.of_erase injective (Nat.lt_succ_self start))
  · exact .free ‹_›
termination_by used.length

/-- The first free name of a sequence is not in use. -/
theorem firstFree_not_mem {name : Nat → String} (injective : ∀ m n, name m = name n → m = n)
    (used : List String) (start : Nat) : name (firstFree name used start) ∉ used :=
  (tries_firstFree injective used start).not_mem

/-- A search from an index on ends at the least index whose name is free, after no more names than
are in use. -/
structure FirstFree (name : Nat → String) (used : List String) (start index : Nat) : Prop where
  ends : Tries name used start index
  isLeast : IsLeast {other | start ≤ other ∧ name other ∉ used} index
  soon : index ≤ start + used.length

/-- As many names as have been passed by are in use. -/
theorem length_le_of_passed {name : Nat → String} (injective : ∀ m n, name m = name n → m = n)
    {used : List String} {start count : Nat}
    (passed : ∀ other, start ≤ other → other < start + count → name other ∈ used) :
    count ≤ used.length := by
  have distinct : ((List.range' start count).map name).Nodup :=
    List.Nodup.map (fun m n => injective m n) (List.nodup_range' ..)
  have inUse : (List.range' start count).map name ⊆ used := by
    intro text member
    obtain ⟨other, inRange, rfl⟩ := List.mem_map.1 member
    obtain ⟨notBefore, before⟩ := List.mem_range'_1.1 inRange
    exact passed other notBefore before
  simpa using (List.subperm_of_subset distinct inUse).length_le

theorem Tries.firstFree {name : Nat → String} (injective : ∀ m n, name m = name n → m = n)
    {used : List String} {start index : Nat} (tries : Tries name used start index) :
    FirstFree name used start index where
  ends := tries
  isLeast := by
    refine ⟨⟨tries.le, tries.not_mem⟩, fun other ⟨notBefore, isFree⟩ => ?_⟩
    exact Nat.not_lt.1 fun before => isFree (tries.mem other notBefore before)
  soon := by
    have few : index - start ≤ used.length := length_le_of_passed injective
      fun other notBefore before => tries.mem other notBefore (by have := tries.le; omega)
    omega

end QueryAlgebra
