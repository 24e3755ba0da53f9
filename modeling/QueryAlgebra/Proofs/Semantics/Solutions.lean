import QueryAlgebra.Operation
import QueryAlgebra.Proofs.NameMap
import Mathlib.Data.Multiset.Bind
import Mathlib.Data.Multiset.Filter

/-! # Multisets of solutions

A solution binds some variables to terms, and the result of a pattern is a multiset of solutions.
Two solutions go together if they bind no variable to different terms. `join`, `leftJoin`, `minus`
and `extend` are the operations that patterns are made of; joins are associative, and the multiset
of the empty solution is their identity on both sides.
-/

namespace QueryAlgebra

namespace NameMap

variable {α : Type} [DecidableEq α]

/-- Whether no key is bound to different values. -/
def agrees (m n : NameMap α) : Bool :=
  m.entries.all fun entry => (n.find? entry.1).all (· == entry.2)

/-- Whether some key is bound in both maps. -/
def overlaps (m n : NameMap α) : Bool := m.entries.any fun entry => (n.find? entry.1).isSome

theorem agrees_iff {m n : NameMap α} :
    m.agrees n = true
      ↔ ∀ key first second, m.find? key = some first → n.find? key = some second
        → first = second := by
  simp only [agrees, List.all_eq_true]
  constructor
  · intro all key first second inM inN
    have agree := all (key, first) (find?_eq_some_iff.1 inM)
    rw [inN] at agree
    exact (beq_iff_eq.1 agree).symm
  · rintro all ⟨key, first⟩ member
    cases inN : n.find? key with
    | none => rfl
    | some second =>
      exact beq_iff_eq.2 (all key first second (find?_eq_some_iff.2 member) inN).symm

theorem agrees_comm (m n : NameMap α) : m.agrees n = n.agrees m := by
  rw [Bool.eq_iff_iff, agrees_iff, agrees_iff]
  constructor <;> exact fun all key first second inM inN => (all key second first inN inM).symm

@[simp] theorem empty_agrees (m : NameMap α) : (empty : NameMap α).agrees m = true := rfl

@[simp] theorem agrees_empty (m : NameMap α) : m.agrees empty = true := by
  rw [agrees_comm, empty_agrees]

omit [DecidableEq α] in
@[simp] theorem empty_merge (m : NameMap α) : (empty : NameMap α).merge m = m := rfl

omit [DecidableEq α] in
@[simp] theorem merge_empty (m : NameMap α) : m.merge empty = m :=
  ext_find? fun key => by simp

omit [DecidableEq α] in
theorem merge_assoc (m n o : NameMap α) : (m.merge n).merge o = m.merge (n.merge o) :=
  ext_find? fun key => by simp [Option.or_assoc]

theorem merge_comm {m n : NameMap α} (agree : m.agrees n = true) : m.merge n = n.merge m := by
  refine ext_find? fun key => ?_
  rw [find?_merge, find?_merge]
  cases inM : m.find? key with
  | none => simp
  | some first =>
    cases inN : n.find? key with
    | none => simp
    | some second => simp [agrees_iff.1 agree key first second inM inN]

/-- What agrees with each of two maps agrees with both together. -/
theorem agrees_merge {m n o : NameMap α} (agree : n.agrees o = true) :
    m.agrees (n.merge o) = (m.agrees n && m.agrees o) := by
  rw [Bool.eq_iff_iff, Bool.and_eq_true]
  simp only [agrees_iff, find?_merge, Option.or_eq_some_iff]
  rw [agrees_iff] at agree
  constructor
  · intro all
    refine ⟨fun key first second inM inN => all key first second inM (.inl inN), ?_⟩
    intro key first third inM inO
    cases inN : n.find? key with
    | none => exact all key first third inM (.inr ⟨inN, inO⟩)
    | some second =>
      exact (all key first second inM (.inl inN)).trans (agree key second third inN inO)
  · rintro ⟨withN, withO⟩ key first second inM (inN | ⟨-, inO⟩)
    · exact withN key first second inM inN
    · exact withO key first second inM inO

end NameMap

/-- The results of a pattern. -/
abbrev Solutions := Multiset Row

namespace Row

/-- Two solutions as one, if they go together. -/
def together (first second : Row) : Solutions :=
  if first.agrees second then {first.merge second} else 0

@[simp] theorem empty_together (row : Row) : together .empty row = {row} := by
  simp [together]

@[simp] theorem together_empty (row : Row) : together row .empty = {row} := by
  simp [together]

/-- Three solutions go together in any order of putting them together. -/
theorem together_assoc (first second third : Row) :
    (together first second).bind (together · third)
      = (together second third).bind (together first ·) := by
  by_cases left : first.agrees second = true
  · by_cases right : second.agrees third = true
    · have ahead : (first.merge second).agrees third = first.agrees third := by
        rw [NameMap.agrees_comm, NameMap.agrees_merge left, NameMap.agrees_comm third second,
          right, Bool.and_true, NameMap.agrees_comm]
      have behind : first.agrees (second.merge third) = first.agrees third := by
        rw [NameMap.agrees_merge right, left, Bool.true_and]
      simp [together, left, right, ahead, behind, NameMap.merge_assoc]
    · have ahead : (first.merge second).agrees third = false := by
        rw [NameMap.agrees_comm, NameMap.agrees_merge left, NameMap.agrees_comm third second]
        simp [right]
      simp [together, left, right, ahead]
  · by_cases right : second.agrees third = true
    · have behind : first.agrees (second.merge third) = false := by
        rw [NameMap.agrees_merge right]
        simp [left]
      simp [together, left, right, behind]
    · simp [together, left, right]

end Row

namespace Solutions

open Row (together)

/-- All ways in which a solution of each side go together. -/
def join (left right : Solutions) : Solutions :=
  left.bind fun first => right.bind fun second => together first second

/-- The joined solutions in which a condition holds, and the solutions of the left side that have
no such partner. -/
def leftJoin (holds : Row → Bool) (left right : Solutions) : Solutions :=
  (join left right).filter (holds ·)
    + left.filter fun first => ∀ second ∈ right, ∀ both ∈ together first second, holds both = false

/-- The solutions of the left side without a partner that goes together with them and shares a
variable. -/
def minus (left right : Solutions) : Solutions :=
  left.filter fun first => ∀ second ∈ right, first.agrees second → first.overlaps second = false

/-- A solution with a value bound to a variable. A solution stays as it is if there is no value, or
if the variable is bound already, which is excluded where a value may be bound. -/
def bound (name : Variable) (value : Option Term) (row : Row) : Row :=
  match row.find? name.name, value with
  | none, some value => row.insert name.name value
  | _, _ => row

/-- The solutions with a value bound to a variable. -/
def extend (name : Variable) (value : Row → Option Term) (input : Solutions) : Solutions :=
  input.map fun row => bound name (value row) row

/-- The identity of joins. -/
def unit : Solutions := {NameMap.empty}

@[simp] theorem unit_join (right : Solutions) : join unit right = right := by
  rw [join, unit, Multiset.singleton_bind]
  simp only [Row.empty_together]
  rw [Multiset.bind_singleton, Multiset.map_id']

@[simp] theorem join_unit (left : Solutions) : join left unit = left := by
  simp only [join, unit, Multiset.singleton_bind, Row.together_empty]
  rw [Multiset.bind_singleton, Multiset.map_id']

@[simp] theorem join_zero (left : Solutions) : join left 0 = 0 := by
  simp [join]

theorem join_assoc (first second third : Solutions) :
    join (join first second) third = join first (join second third) := by
  simp only [join, Multiset.bind_assoc]
  refine Multiset.bind_congr fun a _ => Multiset.bind_congr fun b _ => ?_
  rw [Multiset.bind_bind]
  exact Multiset.bind_congr fun c _ => Row.together_assoc a b c

/-- The join of a list of results. -/
def joinAll (results : List Solutions) : Solutions := results.foldr join unit

@[simp] theorem joinAll_nil : joinAll [] = unit := rfl

@[simp] theorem joinAll_cons (first : Solutions) (rest : List Solutions) :
    joinAll (first :: rest) = join first (joinAll rest) := rfl

theorem joinAll_append (first second : List Solutions) :
    joinAll (first ++ second) = join (joinAll first) (joinAll second) := by
  induction first with
  | nil => simp
  | cons head rest ih => rw [List.cons_append, joinAll_cons, joinAll_cons, ih, join_assoc]

end Solutions

end QueryAlgebra
