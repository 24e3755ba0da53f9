import QueryAlgebra.Surface.Names

/-! # A supply of new names

Variables and labels that a request does not mention itself are taken from numbered sequences, in
which the names in use are passed by. `firstFree` finds the first name of a sequence that is not in
use; it ends because every name passed by is one of finitely many.
-/

namespace QueryAlgebra

/-- The first index from `start` on whose name is not in use, for names that are all different. -/
def firstFree (name : Nat → String) (used : List String) (start : Nat) : Nat :=
  if name start ∈ used then firstFree name (used.erase (name start)) (start + 1) else start
termination_by used.length
decreasing_by
  rename_i member
  have := List.length_pos_of_mem member
  rw [List.length_erase_of_mem member]
  omega

/-- The names in use, and where the numbered sequences go on. -/
structure NameSupply where
  vars : List String
  labels : List String
  nextVariable : Nat
  nextLabel : Nat
deriving DecidableEq, Inhabited

namespace NameSupply

/-- The supply at the start of a request. -/
def ofNames (names : Surface.Names) : NameSupply := ⟨names.vars, names.labels, 0, 0⟩

/-- The numbered variables. -/
def variableName (index : Nat) : String := "var" ++ toString index

/-- The numbered labels. -/
def labelName (index : Nat) : String := "g_" ++ toString index

/-- The names tried for a variable that is to be called after a label: the label itself, then the
label with numbers from zero on behind it. -/
def labelledName (label : String) : Nat → String
  | 0 => label
  | index + 1 => label ++ toString index

/-- Take the next numbered variable. -/
def takeVariable (supply : NameSupply) : String × NameSupply :=
  let index := firstFree variableName supply.vars supply.nextVariable
  (variableName index,
    { supply with
      vars := variableName index :: supply.vars
      nextVariable := index + 1 })

/-- Take the next numbered label. -/
def takeLabel (supply : NameSupply) : String × NameSupply :=
  let index := firstFree labelName supply.labels supply.nextLabel
  (labelName index,
    { supply with
      labels := labelName index :: supply.labels
      nextLabel := index + 1 })

/-- Take a variable called after a label. -/
def takeLabelled (supply : NameSupply) (label : String) : String × NameSupply :=
  let name := labelledName label (firstFree (labelledName label) supply.vars 0)
  (name, { supply with vars := name :: supply.vars })

end NameSupply

end QueryAlgebra
