import QueryAlgebra.Proofs.Lifting.PlainQueries
import QueryAlgebra.Proofs.Surface.ScopeNames

/-! # Plain queries under new names

The names of a plain query are met from the inside to the outside: those of its core, of its values,
of the keys of its order, and of its form. Two queries with the same clauses that are equal under
renamings are so clause by clause.
-/

namespace QueryAlgebra

namespace Bindings

/-- The names in bound values and of the variables that they are bound to. -/
def localNames (bindings : Bindings) : List LocalName :=
  bindings.flatMap fun entry => entry.2.localNames ++ [.var entry.1.name]

theorem localNames_extend (bindings : Bindings) (operation : Operation) :
    (bindings.extend operation).localNames = operation.localNames ++ bindings.localNames := by
  induction bindings generalizing operation with
  | nil => exact (List.append_nil _).symm
  | cons entry rest ih =>
    have first := ih (.of (.extend operation entry.1 entry.2))
    rw [Operation.of, Operation.localNames_extend] at first
    apply first.trans
    rw [localNames, localNames, List.flatMap_cons]
    simp only [List.append_assoc]

theorem extend_append (first second : Bindings) (operation : Operation) :
    extend (first ++ second) operation = extend second (extend first operation) :=
  List.foldl_append

theorem mem_localNames {bindings : Bindings} {entry : Variable × Expression}
    (member : entry ∈ bindings) : .var entry.1.name ∈ bindings.localNames :=
  List.mem_flatMap.2 ⟨entry, member, List.mem_append_right _ (List.mem_cons_self ..)⟩

theorem localNames_subset {first second : Bindings} (subset : first ⊆ second) :
    first.localNames ⊆ second.localNames := by
  intro name member
  obtain ⟨entry, inside, ofEntry⟩ := List.mem_flatMap.1 member
  exact List.mem_flatMap.2 ⟨entry, subset inside, ofEntry⟩

theorem localNames_append (first second : Bindings) :
    localNames (first ++ second) = first.localNames ++ second.localNames :=
  List.flatMap_append

/-- Operations with as many values bound that are equal under renamings are so without the values,
which are bound to the same variables. -/
theorem eq_of_renamed {f g : LocalName → String} {first second : Bindings}
    (lengths : first.length = second.length) {operation again : Operation}
    (same : (first.extend operation).renameLocal f = (second.extend again).renameLocal g) :
    operation.renameLocal f = again.renameLocal g
      ∧ first.map (fun entry => f (.var entry.1.name))
        = second.map (fun entry => g (.var entry.1.name)) := by
  induction first generalizing second operation again with
  | nil =>
    obtain rfl := List.length_eq_zero_iff.1 lengths.symm
    exact ⟨same, rfl⟩
  | cons entry rest ih =>
    cases second with
    | nil => cases lengths
    | cons entry' rest' =>
      obtain ⟨inner, names⟩ := ih (Nat.succ.inj lengths) same
      obtain ⟨inputs, heads, -⟩ := Operator.extend.inj (Operation.mk.inj inner).1
      refine ⟨inputs, ?_⟩
      rw [List.map_cons, List.map_cons, names]
      exact congrArg (· :: _) (congrArg Variable.name heads)

end Bindings

namespace QueryForm

/-- The terms that a form shows. -/
def terms : QueryForm → List Term
  | .select _ vars => vars.map .var
  | .describe terms => terms
  | _ => []

/-- The names in a form. -/
def localNames : QueryForm → List LocalName
  | .construct template => template.flatMap (Gather.ofLocalNames.pattern .template)
  | form => form.terms.flatMap Term.localNames

theorem localNames_apply (form : QueryForm) (solutions : Operation) :
    (form.apply solutions).localNames = solutions.localNames ++ form.localNames := by
  cases form with
  | select duplicates vars =>
    cases duplicates with
    | keep => rfl
    | distinct | reduced => exact List.append_nil _
  | ask | describe => rfl
  | construct template => exact List.append_nil _

theorem subset_localNames (form : QueryForm) :
    form.terms.flatMap Term.localNames ⊆ form.localNames := by
  cases form with
  | construct template => exact List.nil_subset _
  | _ => exact List.Subset.refl _

variable {f g : LocalName → String} {solutions again : Operation}

private theorem wrap_eq_of_renamed {wrapper wrapper' : Wrapper}
    (same : (Operation.of (.wrap wrapper solutions)).renameLocal f
      = (Operation.of (.wrap wrapper' again)).renameLocal g) :
    wrapper.mapOwnTerms (Term.renameLocal f) = wrapper'.mapOwnTerms (Term.renameLocal g)
      ∧ solutions.renameLocal f = again.renameLocal g :=
  Operator.wrap.inj (Operation.mk.inj same).1

/-- Forms that differ at most in what they show and are equal under renamings show the same under
the renamings, and are laid over solutions that are the same under them. -/
theorem eq_of_renamed {form form' : QueryForm}
    (alike : form' = form ∨ ∃ vars, form' = form.showing vars)
    (same : (form.apply solutions).renameLocal f = (form'.apply again).renameLocal g) :
    solutions.renameLocal f = again.renameLocal g
      ∧ form.terms.map (Term.renameLocal f) = form'.terms.map (Term.renameLocal g) := by
  cases form with
  | select duplicates vars =>
    obtain ⟨vars', rfl⟩ : ∃ vars', form' = .select duplicates vars' := by
      rcases alike with rfl | ⟨vars', rfl⟩
      · exact ⟨vars, rfl⟩
      · exact ⟨vars', rfl⟩
    have projected : (Operation.of (.wrap (.project vars) solutions)).renameLocal f
        = (Operation.of (.wrap (.project vars') again)).renameLocal g := by
      cases duplicates with
      | keep => exact same
      | distinct | reduced => exact (wrap_eq_of_renamed same).2
    obtain ⟨wrappers, inputs⟩ := wrap_eq_of_renamed projected
    refine ⟨inputs, ?_⟩
    have shown := congrArg (List.map Term.var) (Wrapper.project.inj wrappers)
    rw [List.map_map, List.map_map] at shown
    rw [terms, terms, List.map_map, List.map_map]
    exact shown
  | ask =>
    obtain rfl : form' = .ask := by
      rcases alike with rfl | ⟨vars', rfl⟩ <;> rfl
    exact ⟨(wrap_eq_of_renamed same).2, rfl⟩
  | describe terms =>
    obtain ⟨terms', rfl⟩ : ∃ terms', form' = .describe terms' := by
      rcases alike with rfl | ⟨vars', rfl⟩
      · exact ⟨terms, rfl⟩
      · exact ⟨vars'.map .var, rfl⟩
    obtain ⟨wrappers, inputs⟩ := wrap_eq_of_renamed same
    exact ⟨inputs, Wrapper.describe.inj wrappers⟩
  | construct template =>
    obtain rfl : form' = .construct template := by
      rcases alike with rfl | ⟨vars', rfl⟩ <;> rfl
    exact ⟨(Operator.construct.inj (Operation.mk.inj same).1).1, rfl⟩

theorem showing_of_terms {form : QueryForm} {vars : List Variable}
    (same : form.terms = (form.showing vars).terms) : form.showing vars = form := by
  cases form with
  | select duplicates shown =>
    have equal := (List.map_inj_right fun _ _ => Term.var.inj).1 same
    rw [showing, equal]
  | describe terms => exact congrArg describe same.symm
  | ask | construct => rfl

end QueryForm

namespace PlainQuery

variable {f g : LocalName → String} {operation again : Operation}

/-- The names in the keys of an order. -/
def orderNames (order : List (Surface.Direction × Expression)) : List LocalName :=
  Expression.gatherAll .ofLocalNames (order.map fun key => Context.orderKey key.1 key.2)

theorem localNames_ordered (order : List (Surface.Direction × Expression)) :
    (ordered order operation).localNames = operation.localNames ++ orderNames order := by
  cases order with
  | nil => exact (List.append_nil _).symm
  | cons key rest => exact List.append_nil _

theorem localNames_cut (slice : Option (Nat × Option Nat)) :
    (cut slice operation).localNames = operation.localNames := by
  cases slice with
  | none => rfl
  | some slice => exact List.append_nil _

theorem localNames_askedOf (dataset : Option (List NamedNode × List NamedNode)) :
    (askedOf dataset operation).localNames = operation.localNames := by
  cases dataset with
  | none => rfl
  | some graphs => exact List.append_nil _

/-- The names of a plain query, from the inside to the outside. -/
theorem localNames_operation (query : PlainQuery) :
    query.operation.localNames = query.core.localNames ++ query.bindings.localNames
      ++ orderNames query.order ++ query.form.localNames := by
  rw [PlainQuery.operation, localNames_askedOf, localNames_cut, QueryForm.localNames_apply,
    solutions, localNames_ordered, Bindings.localNames_extend]

/-! ### Names that a star stands for -/

/-- A star stands for names of the core and of the values that are left. -/
theorem subset_of_starred {query : PlainQuery} (plain : query.core.isPlain = true) :
    (query.form.showing query.starred).terms.flatMap Term.localNames
      ⊆ query.core.localNames ++ query.left.localNames := by
  have vars : (query.starred.map Term.var).flatMap Term.localNames
      ⊆ query.core.localNames ++ query.left.localNames := by
    intro name member
    obtain ⟨term, inside, ofTerm⟩ := List.mem_flatMap.1 member
    obtain ⟨shown, isStarred, rfl⟩ := List.mem_map.1 inside
    obtain rfl : name = .var shown.name := by
      simpa [Term.localNames, Term.nested] using ofTerm
    rw [starred, Surface.mem_starOrder, List.mem_append] at isStarred
    rw [List.mem_append]
    refine isStarred.imp (Operation.mem_localNames plain) fun isLeft => ?_
    obtain ⟨entry, ofLeft, rfl⟩ := List.mem_map.1 isLeft
    exact Bindings.mem_localNames ofLeft
  cases query.form with
  | select | describe => exact vars
  | ask | construct => exact List.nil_subset _

/-! ### Clauses under renamings -/

theorem eq_of_renamed_ordered (order : List (Surface.Direction × Expression))
    (same : (ordered order operation).renameLocal f = (ordered order again).renameLocal g) :
    operation.renameLocal f = again.renameLocal g := by
  cases order with
  | nil => exact same
  | cons key rest => exact (Operator.orderBy.inj (Operation.mk.inj same).1).1

theorem eq_of_renamed_askedOf (dataset : Option (List NamedNode × List NamedNode))
    (same : (askedOf dataset operation).renameLocal f = (askedOf dataset again).renameLocal g) :
    operation.renameLocal f = again.renameLocal g := by
  cases dataset with
  | none => exact same
  | some graphs => exact (Operator.wrap.inj (Operation.mk.inj same).1).2

/-- A form is no slice, so a slice that is left out makes a difference under all renamings. -/
theorem eq_of_renamed_cut (slice : Option (Nat × Option Nat)) {form form' : QueryForm}
    (same : (cut slice (form.apply operation)).renameLocal f
      = (cut (slice.filter (· ≠ (0, none))) (form'.apply again)).renameLocal g) :
    slice ≠ some (0, none)
      ∧ (form.apply operation).renameLocal f = (form'.apply again).renameLocal g := by
  rcases slice with _ | ⟨start, length⟩
  · exact ⟨nofun, same⟩
  · by_cases whole : (start, length) = (0, none)
    · have dropped : (some (start, length)).filter (· ≠ (0, none)) = none := by
        simp [Option.filter, whole]
      rw [dropped] at same
      cases form' with
      | select duplicates vars => cases duplicates <;> cases same
      | _ => cases same
    · have kept : (some (start, length)).filter (· ≠ (0, none)) = some (start, length) := by
        simp [Option.filter, whole]
      rw [kept] at same
      exact ⟨fun equal => whole (Option.some.inj equal),
        (Operator.wrap.inj (Operation.mk.inj same).1).2⟩

end PlainQuery

end QueryAlgebra
