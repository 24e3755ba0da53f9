import QueryAlgebra.Operation
import Mathlib.Data.List.Perm.Basic
import Mathlib.Data.List.Nodup

/-! # Values that are bound around an operation

`Bindings.take` is how a query that shows variables takes up the values that are bound to them. No
value is lost, and if all bindings are to different variables, those that are left are the ones of
variables that are not shown.
-/

namespace QueryAlgebra

/-- Values bound to variables, the innermost first. -/
abbrev Bindings := List (Variable × Expression)

namespace Bindings

/-- The operation with values bound. -/
def extend (bindings : Bindings) (operation : Operation) : Operation :=
  bindings.foldl (fun operation entry => .of (.extend operation entry.1 entry.2)) operation

/-- Variables, each with the first value bound to it that no variable before it has taken, and the
bindings that are left. -/
def take : List Variable → Bindings → List (Variable × Option Expression) × Bindings
  | [], bindings => ([], bindings)
  | name :: names, bindings =>
    let value := (bindings.find? (·.1 = name)).map (·.2)
    let others := take names (bindings.eraseP (·.1 = name))
    ((name, value) :: others.1, others.2)

/-- The values among items that may have none. -/
def ofItems (items : List (Variable × Option Expression)) : Bindings :=
  items.filterMap fun item => item.2.map fun value => (item.1, value)

/-- The values that are taken up and those that are left. -/
theorem perm_take (vars : List Variable) (bindings : Bindings) :
    ((take vars bindings).2 ++ ofItems (take vars bindings).1).Perm bindings := by
  induction vars generalizing bindings with
  | nil => rw [take, ofItems, List.filterMap_nil, List.append_nil]
  | cons name names ih =>
    rw [take]
    cases found : bindings.find? (·.1 = name) with
    | none =>
      have same : bindings.eraseP (·.1 = name) = bindings :=
        List.eraseP_of_forall_not (by simpa using found)
      rw [same]
      exact ih bindings
    | some entry =>
      obtain ⟨bound, before, after, rfl, others⟩ := List.find?_eq_some_iff_append.1 found
      have erased : (before ++ entry :: after).eraseP (·.1 = name) = before ++ after := by
        rw [List.eraseP_append_right _ (by simpa using others), List.eraseP_cons, bound]
        rfl
      rw [erased]
      obtain rfl : entry.1 = name := by simpa using bound
      refine (List.perm_middle (a := entry)).trans ?_
      exact ((ih (before ++ after)).cons entry).trans List.perm_middle.symm

theorem mem_of_shown {vars : List Variable} {bindings : Bindings} {entry : Variable × Expression}
    (member : entry ∈ ofItems (take vars bindings).1) : entry ∈ bindings :=
  (perm_take vars bindings).mem_iff.1 (List.mem_append_right _ member)

theorem mem_of_left {vars : List Variable} {bindings : Bindings} {entry : Variable × Expression}
    (member : entry ∈ (take vars bindings).2) : entry ∈ bindings :=
  (perm_take vars bindings).mem_iff.1 (List.mem_append_left _ member)

/-! ### Different variables -/

private theorem eq_of_names {bindings : Bindings} (distinct : (bindings.map (·.1)).Nodup)
    {first second : Variable × Expression} (inFirst : first ∈ bindings)
    (inSecond : second ∈ bindings) (same : first.1 = second.1) : first = second :=
  List.inj_on_of_nodup_map distinct inFirst inSecond same

/-- The values that are left are those of variables that are not shown. -/
theorem left_eq_filter {vars : List Variable} {bindings : Bindings}
    (distinct : (bindings.map (·.1)).Nodup) :
    (take vars bindings).2 = bindings.filter fun entry => entry.1 ∉ vars := by
  induction vars generalizing bindings with
  | nil => simp [take]
  | cons name names ih =>
    have erased : bindings.eraseP (·.1 = name) = bindings.filter (·.1 ≠ name) := by
      clear ih
      induction bindings with
      | nil => rfl
      | cons head rest ih =>
        rw [List.map_cons, List.nodup_cons] at distinct
        by_cases same : head.1 = name
        · have others : ∀ entry ∈ rest, entry.1 ≠ name := fun entry member equal =>
            distinct.1 (same.trans equal.symm ▸ List.mem_map_of_mem member)
          have kept : rest.filter (·.1 ≠ name) = rest :=
            List.filter_eq_self.2 (by simpa using others)
          simp only [List.eraseP_cons, List.filter_cons, same, kept]
          simp
        · simp only [List.eraseP_cons, List.filter_cons, same, ih distinct.2]
          simp [same]
    have distinctRest : ((bindings.filter (·.1 ≠ name)).map (·.1)).Nodup :=
      distinct.sublist (List.filter_sublist.map _)
    rw [take, erased]
    rw [ih distinctRest, List.filter_filter]
    refine List.filter_congr fun entry _ => ?_
    simp [Bool.and_comm]

theorem names_take (vars : List Variable) (bindings : Bindings) :
    (take vars bindings).1.map (·.1) = vars := by
  induction vars generalizing bindings with
  | nil => rfl
  | cons name names ih => rw [take, List.map_cons, ih]

theorem mem_vars_of_shown {vars : List Variable} {bindings : Bindings}
    {entry : Variable × Expression} (member : entry ∈ ofItems (take vars bindings).1) :
    entry.1 ∈ vars := by
  obtain ⟨item, inside, value⟩ := List.mem_filterMap.1 member
  obtain ⟨expression, _, rfl⟩ := Option.map_eq_some_iff.1 value
  rw [← names_take vars bindings]
  exact List.mem_map_of_mem inside

/-- Lists that functions map to the same list are equal if the functions tell members apart. -/
private theorem eq_of_map_eq {α β : Type} {f g : α → β} {first second : List α}
    (injective : ∀ x ∈ first, ∀ y ∈ second, f x = g y → x = y)
    (same : first.map f = second.map g) : first = second := by
  induction first generalizing second with
  | nil => simpa using same
  | cons head rest ih =>
    cases second with
    | nil => cases same
    | cons head' rest' =>
      rw [List.map_cons, List.map_cons, List.cons.injEq] at same
      rw [injective head (List.mem_cons_self ..) head' (List.mem_cons_self ..) same.1,
        ih (fun x inRest y inRest' => injective x (List.mem_cons_of_mem _ inRest) y
          (List.mem_cons_of_mem _ inRest')) same.2]

/-- If two renamings that agree on what is shown give the variables the same new names in the same
order before and after some values are taken up, the bindings were in that order before. -/
theorem left_append_shown {vars : List Variable} {bindings : Bindings}
    (distinct : (bindings.map (·.1)).Nodup) {f g : Variable → String}
    (injective : ∀ x ∈ bindings, ∀ y ∈ bindings, f x.1 = f y.1 → x.1 = y.1)
    (injective' : ∀ x ∈ bindings, ∀ y ∈ bindings, g x.1 = g y.1 → x.1 = y.1)
    (agree : ∀ x ∈ vars, f x = g x)
    (same : bindings.map (f ·.1)
      = ((take vars bindings).2 ++ ofItems (take vars bindings).1).map (g ·.1)) :
    (take vars bindings).2 ++ ofItems (take vars bindings).1 = bindings := by
  obtain ⟨first, last, split, ofFirst, ofLast⟩ := List.map_eq_append_iff.1
    (same.trans (List.map_append ..))
  have inFirst : ∀ entry ∈ first, entry ∈ bindings := fun entry member =>
    split ▸ List.mem_append_left _ member
  have inLast : ∀ entry ∈ last, entry ∈ bindings := fun entry member =>
    split ▸ List.mem_append_right _ member
  have shown : last = ofItems (take vars bindings).1 := by
    refine eq_of_map_eq (fun x inX y inY renamed => ?_) ofLast
    rw [← agree _ (mem_vars_of_shown inY)] at renamed
    have inY' := mem_of_shown inY
    exact eq_of_names distinct (inLast x inX) inY' (injective _ (inLast x inX) _ inY' renamed)
  -- A shown variable among the first ones would have the new name of one that is left.
  have hidden : ∀ entry ∈ first, entry.1 ∉ vars := by
    intro entry member inVars
    have named : f entry.1 ∈ (take vars bindings).2.map (g ·.1) :=
      ofFirst ▸ List.mem_map_of_mem (f := fun entry : Variable × Expression => f entry.1) member
    obtain ⟨other, isLeft, renamed⟩ := List.mem_map.1 named
    rw [agree _ inVars] at renamed
    have equal := injective' _ (mem_of_left isLeft) _ (inFirst entry member) renamed
    rw [left_eq_filter distinct, List.mem_filter] at isLeft
    exact (by simpa using isLeft.2 : other.1 ∉ vars) (equal ▸ inVars)
  have left : first = (take vars bindings).2 := by
    rw [left_eq_filter distinct, split, List.filter_append]
    have kept : first.filter (·.1 ∉ vars) = first := List.filter_eq_self.2 (by simpa using hidden)
    have dropped : last.filter (·.1 ∉ vars) = [] := by
      rw [List.filter_eq_nil_iff, shown]
      intro entry member
      simpa using mem_vars_of_shown member
    rw [kept, dropped, List.append_nil]
  rw [← left, ← shown, split]

end Bindings

end QueryAlgebra
