import QueryAlgebra.Proofs.Lifting.GrantedOperations
import QueryAlgebra.Proofs.Lifting.LiftedAgain
import QueryAlgebra.Proofs.Operation.ClearedIris

/-! # Projections that are written as stars

A projection of all variables in scope is written as a star, and a star is read as the projection of
what the pattern below it binds. That is less if variables in scope are mentioned only in what is
removed or asked about, so that nothing binds them: `Operation.relowered_star_iff`.
-/

namespace QueryAlgebra

open Lowering (Yields)

/-! ### Reading a star -/

namespace Context

variable {context : Context}

/-- A star without a dataset, trailing inline data or a slice is read as the projection of what the
pattern binds. -/
theorem yields_star (pattern : Surface.Pattern) (orderBy : List Surface.OrderKey) :
    Yields (fun operation => ∃ solutions, operation
        = .of (.wrap (.project ((Surface.starVariables (some pattern) none).map context.var))
          solutions))
      (context.select
        ⟨.keep, .all, none, pattern, { Surface.Modifiers.none with orderBy }⟩) := by
  rw [select]
  refine .bind_any fun input => .bind_any fun found => .bind_any fun solutions => ?_
  exact .pure ⟨solutions, rfl⟩

theorem yields_requestOfStar (plain : context.MakesPlain) (blankToVariable : Bool)
    (pattern : Surface.Pattern) (orderBy : List Surface.OrderKey) :
    Yields (fun operation => ∃ shown solutions, operation = .of (.wrap (.project shown) solutions)
        ∧ ∀ name, name ∈ shown ↔ name ∈ pattern.inScope)
      (context.request blankToVariable ⟨.none, .query (.select
        ⟨.keep, .all, none, pattern, { Surface.Modifiers.none with orderBy }⟩)⟩) := by
  have shows : ∀ name, name ∈ (Surface.starVariables (some pattern) none).map context.var
      ↔ name ∈ pattern.inScope := by
    intro name
    rw [List.map_congr_left fun name _ => var_eq plain name, List.map_id', Surface.starVariables,
      Surface.mem_starOrder]
    simp
  rw [request]
  show Yields _ (do
    let operation ← context.select ⟨.keep, .all, none, pattern, _⟩
    if blankToVariable then context.blanksToVariables operation else pure operation)
  refine (yields_star pattern orderBy).bind ?_
  rintro operation ⟨solutions, rfl⟩
  cases blankToVariable with
  | false => exact .pure ⟨_, solutions, rfl, shows⟩
  | true => exact .bind_any fun _ => .bind_any fun vars => .pure ⟨_, _, rfl, shows⟩

end Context

namespace Operation

/-! ### Writing a projection -/

/-- Graph names are taken out below a projection. -/
theorem withoutEmbeddedGraphs_project (vars : List Variable) (input : Operation)
    (metadata : Option Metadata) :
    withoutEmbeddedGraphs ⟨.wrap (.project vars) input, metadata⟩
      = ⟨.wrap (.project vars) input.withoutEmbeddedGraphs, metadata⟩ := rfl

theorem withoutGraphs_of_fits {operation : Operation} (fits : operation.fits = true) :
    operation.withoutGraphs = .ok operation.withoutEmbeddedGraphs := by
  rw [withoutGraphs, removeEmbeddedGraphs, Node.checkFits_of_descend _ fits]
  rfl

/-- A projection is written as a query over the clauses of its input. -/
theorem lift_project {vars : List Variable} {input : Operation} {metadata : Option Metadata}
    {request : Surface.Request}
    (lifts : lift ⟨.wrap (.project vars) input, metadata⟩ = .ok request) :
    ∃ scope, (input.withoutEmbeddedGraphs.written true).asScope = .ok scope
      ∧ request = ⟨.none, .query (.select
        (scope.select (input.withoutEmbeddedGraphs.shows vars) vars))⟩ := by
  obtain ⟨cleared, removed, written⟩ := ok_of_bind lifts
  obtain ⟨body, ofBody, same⟩ := ok_of_bind written
  cases same
  have isCleared := lifts_withoutGraphs ⟨.wrap (.project vars) input, metadata⟩
  rw [removed, withoutEmbeddedGraphs_project] at isCleared
  obtain rfl : cleared = ⟨.wrap (.project vars) input.withoutEmbeddedGraphs, metadata⟩ := isCleared
  rw [writtenBody, Operation.written, Operator.written] at ofBody
  cases made : (input.withoutEmbeddedGraphs.written true).asScope with
  | error error =>
    rw [made] at ofBody
    cases ofBody
  | ok scope =>
    rw [made] at ofBody
    cases ofBody
    exact ⟨scope, rfl, rfl⟩

/-- Lifted IRIs are written in full. -/
theorem admits_of_allAbsolute {options : Options} {iris : List NamedNode}
    (absolute : AllAbsolute iris) : (Surface.Demands.lifted options).Admit iris := absolute

/-- A projection that can be written at all is written as a query for variables. If that is a star,
it is read as a projection again, unless the stack is too small, and that shows the variables that
the written input binds. So it shows what the first one does just if each of its variables is bound
by the input, and not only mentioned in what is removed or asked about. -/
theorem relowered_star_iff {options : Options} {vars : List Variable} {input : Operation}
    {metadata : Option Metadata} {request : Surface.Request}
    (absolute : AllAbsolute (Operation.iris ⟨.wrap (.project vars) input, metadata⟩))
    (lifts : lift ⟨.wrap (.project vars) input, metadata⟩ = .ok request) :
    ∃ query, request = ⟨.none, .query (.select query)⟩ ∧ (query.projection = .all →
      (∃ limit, request.lower options = .error (.traversal (.stackOverflow limit)))
        ∨ ∃ shown solutions, request.lower options = .ok (.of (.wrap (.project shown) solutions))
          ∧ (∀ name, name ∈ shown ↔ name ∈ input.withoutEmbeddedGraphs.bound)
          ∧ ((∀ name, name ∈ shown ↔ name ∈ vars)
            ↔ ∀ name ∈ vars, name ∈ input.withoutEmbeddedGraphs.bound)) := by
  obtain ⟨scope, source, rfl⟩ := lift_project lifts
  refine ⟨_, rfl, fun star => ?_⟩
  have admits : (Surface.Demands.lifted options).Admit input.withoutEmbeddedGraphs.iris :=
    admits_of_allAbsolute
      (absolute_withoutEmbeddedGraphs (AllAbsolute.operation.1 absolute).1)
  obtain ⟨meets, elements, found, made, fit⟩ := (grants_written (fun _ _ => trivial) true
    input.withoutEmbeddedGraphs.bound input.withoutEmbeddedGraphs admits
    fun _ => List.Subset.refl _).asScope.of_ok source
  obtain ⟨isStar, pattern, orderBy, query, same⟩ :=
    QueryScope.exists_star source made fit.2 star
  have meetsStar : Surface.Request.Meets (.lifted options) ⟨.none, .query (.select
      (scope.select (input.withoutEmbeddedGraphs.shows vars) vars))⟩ :=
    ⟨.inl rfl, meets.select _ vars⟩
  refine (Surface.Request.exists_lower_of_meets meetsStar).symm.imp id fun ⟨again, lowers⟩ => ?_
  obtain ⟨after, made⟩ := Surface.Request.lower_ok_iff.1 lowers
  rw [query] at made
  have plain : (Context.ofOptions .plain options).MakesPlain := rfl
  obtain ⟨shown, solutions, rfl, shows⟩ := Context.yields_requestOfStar plain
    options.blankToVariable pattern orderBy _ _ _ made
  have binds : ∀ name, name ∈ shown ↔ name ∈ input.withoutEmbeddedGraphs.bound := fun name =>
    (shows name).trans (same name)
  have inVars : input.withoutEmbeddedGraphs.bound ⊆ vars := fun name member =>
    subset_of_shows (shows_of_hasStar isStar) (bound_subset_inScope _ member)
  refine ⟨shown, solutions, lowers, binds, fun all name member => ?_, fun all name => ?_⟩
  · exact (binds name).1 ((all name).2 member)
  · exact ⟨fun isShown => inVars ((binds name).1 isShown), fun member =>
      (binds name).2 (all name member)⟩

/-- Pairs of nodes that an IRI connects, without those for which it connects two given ones as well,
shown with the given variables. -/
def otherPairs (vars : List Variable) (subject object : Variable) : Operation :=
  .of (.wrap (.project vars) (.of (.minus
    (.bgp [⟨.var ⟨"s"⟩, .iri ⟨"http://example.org/p"⟩, .var ⟨"o"⟩, .defaultGraph⟩])
    (.bgp [⟨.var subject, .iri ⟨"http://example.org/p"⟩, .var object, .defaultGraph⟩]))))

/-- The triple of two nodes that the IRI connects. -/
def connectedPair (subject object : Variable) : Surface.Pattern :=
  .bgp [⟨.term (.var subject), .simple (.iri ⟨.full "http://example.org/p", .none⟩),
    .term (.var object)⟩] .none

/-- The query that shows all variables of such pairs. -/
def starOverPairs (subject object : Variable) : Surface.Select :=
  ⟨.keep, .all, none, .group [connectedPair ⟨"s"⟩ ⟨"o"⟩,
    .minus (.group [connectedPair subject object] .none) .none] .none, .none⟩

/-- What is removed has variables that are bound. -/
theorem relowered_star_iff_otherPairs :
    (otherPairs [⟨"s"⟩, ⟨"o"⟩] ⟨"o"⟩ ⟨"s"⟩).lift
        = .ok ⟨.none, .query (.select (starOverPairs ⟨"o"⟩ ⟨"s"⟩))⟩
      ∧ ((∃ limit, Surface.Request.lower {} ⟨.none, .query (.select (starOverPairs ⟨"o"⟩ ⟨"s"⟩))⟩
          = .error (.traversal (.stackOverflow limit)))
        ∨ ∃ shown solutions,
          Surface.Request.lower {} ⟨.none, .query (.select (starOverPairs ⟨"o"⟩ ⟨"s"⟩))⟩
            = .ok (.of (.wrap (.project shown) solutions))
          ∧ ∀ name, name ∈ shown ↔ name ∈ [(⟨"s"⟩ : Variable), ⟨"o"⟩]) := by
  have absolute : AllAbsolute (otherPairs [⟨"s"⟩, ⟨"o"⟩] ⟨"o"⟩ ⟨"s"⟩).iris := by
    unfold AllAbsolute
    decide +kernel
  have lifts : (otherPairs [⟨"s"⟩, ⟨"o"⟩] ⟨"o"⟩ ⟨"s"⟩).lift
      = .ok ⟨.none, .query (.select (starOverPairs ⟨"o"⟩ ⟨"s"⟩))⟩ := by
    rw [lift, withoutGraphs_of_fits (by decide +kernel)]
    rfl
  obtain ⟨query, same, star⟩ := @relowered_star_iff {} _ _ _ _ absolute lifts
  cases same
  refine ⟨lifts, (star rfl).imp id fun ⟨shown, solutions, lowers, _, agree⟩ => ?_⟩
  exact ⟨shown, solutions, lowers, agree.2 (by decide)⟩

/-- What is removed has variables that nothing binds, which are in scope all the same. -/
theorem not_relowered_star_otherPairs : ∃ solutions,
    (otherPairs [⟨"s"⟩, ⟨"o"⟩, ⟨"x"⟩, ⟨"y"⟩] ⟨"x"⟩ ⟨"y"⟩).lift
        = .ok ⟨.none, .query (.select (starOverPairs ⟨"x"⟩ ⟨"y"⟩))⟩
      ∧ (starOverPairs ⟨"x"⟩ ⟨"y"⟩).projection = .all
      ∧ Surface.Request.lower {} ⟨.none, .query (.select (starOverPairs ⟨"x"⟩ ⟨"y"⟩))⟩
        = .ok (.of (.wrap (.project [⟨"o"⟩, ⟨"s"⟩]) solutions))
      ∧ ¬ ∀ name, name ∈ [(⟨"o"⟩ : Variable), ⟨"s"⟩]
        ↔ name ∈ [(⟨"s"⟩ : Variable), ⟨"o"⟩, ⟨"x"⟩, ⟨"y"⟩] := by
  refine ⟨_, ?_, rfl, rfl, fun all => absurd ((all ⟨"x"⟩).2 (by decide)) (by decide)⟩
  rw [lift, withoutGraphs_of_fits (by decide +kernel)]
  rfl

end Operation

end QueryAlgebra
