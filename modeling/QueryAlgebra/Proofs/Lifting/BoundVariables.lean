import QueryAlgebra.Lifting.Operation
import QueryAlgebra.Proofs.Lifting.WrittenTerms
import QueryAlgebra.Proofs.Operation.ScopeMembers

/-! # The variables that a written operation binds

All variables that an operation mentions are in its scope, also those of what it removes and of the
patterns that its expressions ask about. `Operation.bound` lists the variables that are bound by the
pattern that the operation is written as. They are all in scope: `Operation.bound_subset_inScope`.
-/

namespace QueryAlgebra

/-- Whether a projection of an operation is written as a star. -/
def Operation.hasStar (input : Operation) (vars : List Variable) : Bool :=
  match (input.written true).asScope with
  | .ok scope =>
    match (scope.select (input.shows vars) vars).projection with
    | .all => true
    | .items _ => false
  | .error _ => false

mutual

/-- The variables that the written operation binds. A removed part binds none, nor does an
expression, and a star stands for what is bound below it. -/
def Operation.bound : Operation → List Variable
  | ⟨operator, _⟩ => operator.bound

/-- The variables that the written operator with its inputs binds. -/
def Operator.bound : Operator → List Variable
  | .bgp patterns => patterns.flatMap Pattern.listed
  | .values vars _ => vars
  | .nop => []
  | .path subject _ object _ => subject.vars ++ object.vars
  | .manage _ => []
  | .wrap wrapper input =>
    match wrapper with
    | .project vars => if input.hasStar vars then input.bound else vars
    | .graph name => name.vars ++ input.bound
    | .service name _ => name.vars ++ input.bound
    | .ask => []
    | .describe _ => []
    | _ => input.bound
  | .filter input _ => input.bound
  | .extend input name _ => input.bound ++ [name]
  | .group input keys aggregates => input.bound ++ (keys ++ aggregates.map (·.name))
  | .orderBy input _ => input.bound
  | .construct _ _ => []
  | .combine _ inputs => Operation.allBound inputs
  | .leftJoin left right _ => left.bound ++ right.bound
  | .minus left _ => left.bound
  | .deleteInsert .. => []

/-- The variables that the written operations bind. -/
def Operation.allBound : List Operation → List Variable
  | [] => []
  | operation :: rest => operation.bound ++ Operation.allBound rest

end

namespace Operation

theorem shows_of_hasStar {input : Operation} {vars : List Variable}
    (star : input.hasStar vars = true) : input.shows vars = true := by
  unfold hasStar at star
  split at star
  · rename_i scope _
    cases shows : input.shows vars with
    | true => rfl
    | false =>
      rw [shows, QueryScope.select] at star
      simp at star
  · cases star

theorem subset_of_shows {input : Operation} {vars : List Variable}
    (shows : input.shows vars = true) : input.inScope ⊆ vars := by
  simp only [Operation.shows, Bool.and_eq_true, List.all_eq_true] at shows
  exact fun name member => List.contains_iff_mem.1 (shows.2 name member)

end Operation

theorem Pattern.listed_subset_vars (pattern : Pattern) : pattern.listed ⊆ pattern.vars := by
  obtain ⟨subject, predicate, object, graph⟩ := pattern
  rw [Pattern.vars_mk]
  exact List.subset_append_left _ _

private theorem appended_subset {first second third fourth : List Variable}
    (left : first ⊆ third) (right : second ⊆ fourth) : first ++ second ⊆ third ++ fourth :=
  List.append_subset.2 ⟨List.subset_append_of_subset_left _ left,
    List.subset_append_of_subset_right _ right⟩

mutual

theorem Operation.bound_subset_met : ∀ operation : Operation, operation.bound ⊆ operation.met
  | ⟨operator, metadata⟩ => Operator.bound_subset_met metadata operator

theorem Operator.bound_subset_met (metadata : Option Metadata) : ∀ operator : Operator,
    operator.bound ⊆ (Operation.mk operator metadata).met
  | .bgp patterns => by
    show patterns.flatMap Pattern.listed ⊆ (Operation.bgp patterns).met
    rw [Operation.met_bgp]
    intro name member
    obtain ⟨pattern, isPattern, isListed⟩ := List.mem_flatMap.1 member
    exact List.mem_flatMap.2 ⟨pattern, isPattern, pattern.listed_subset_vars isListed⟩
  | .values vars _ => List.Subset.refl vars
  | .nop | .manage _ | .deleteInsert .. | .construct .. => List.nil_subset _
  | .path _ _ _ _ => List.subset_append_left _ _
  | .wrap wrapper input => by
    have ofInput := Operation.bound_subset_met input
    cases wrapper with
    | project vars =>
      show (if input.hasStar vars then input.bound else vars) ⊆ vars
      split
      · rename_i star
        have shown := Operation.subset_of_shows (Operation.shows_of_hasStar star)
        exact fun name member => shown (Operation.mem_inScope.2 (ofInput member))
      · exact List.Subset.refl vars
    | graph name | service name =>
      show name.vars ++ input.bound ⊆ input.met ++ name.vars
      exact List.append_subset.2 ⟨List.subset_append_right _ _,
        List.subset_append_of_subset_left _ ofInput⟩
    | ask | describe => exact List.nil_subset _
    | distinct | reduced | slice | dataset => exact List.subset_append_of_subset_left _ ofInput
  | .filter input _ => by
    rw [Operation.met_filter]
    exact List.subset_append_of_subset_left _ (Operation.bound_subset_met input)
  | .extend input name value => by
    show input.bound ++ [name] ⊆ input.met ++ value.met ++ [name]
    exact appended_subset (List.subset_append_of_subset_left _ (Operation.bound_subset_met input))
      (List.Subset.refl _)
  | .group input keys aggregates => by
    show input.bound ++ _ ⊆ (input.met ++ _) ++ _
    exact appended_subset (List.subset_append_of_subset_left _ (Operation.bound_subset_met input))
      (List.Subset.refl _)
  | .orderBy input keys => List.subset_append_of_subset_left _
    (List.subset_append_of_subset_left _ (Operation.bound_subset_met input))
  | .combine how inputs => by
    rw [Operation.met_combine]
    exact Operation.allBound_subset_met inputs
  | .leftJoin left right none => by
    show left.bound ++ right.bound ⊆ (left.met ++ right.met) ++ []
    exact List.subset_append_of_subset_left _
      (appended_subset (Operation.bound_subset_met left)
        (Operation.bound_subset_met right))
  | .leftJoin left right (some condition) => by
    show left.bound ++ right.bound ⊆ (left.met ++ right.met ++ condition.met) ++ []
    exact List.subset_append_of_subset_left _ (List.subset_append_of_subset_left _
      (appended_subset (Operation.bound_subset_met left)
        (Operation.bound_subset_met right)))
  | .minus left right => List.subset_append_of_subset_left _
    (List.subset_append_of_subset_left _ (Operation.bound_subset_met left))

theorem Operation.allBound_subset_met : ∀ operations : List Operation,
    Operation.allBound operations ⊆ operations.flatMap Operation.met
  | [] => List.nil_subset _
  | operation :: rest => by
    rw [Operation.allBound, List.flatMap_cons]
    exact appended_subset (Operation.bound_subset_met operation)
      (Operation.allBound_subset_met rest)

end

/-- What an operation binds when it is written is in its scope. -/
theorem Operation.bound_subset_inScope (operation : Operation) :
    operation.bound ⊆ operation.inScope :=
  fun _ member => mem_inScope.2 (operation.bound_subset_met member)

end QueryAlgebra
