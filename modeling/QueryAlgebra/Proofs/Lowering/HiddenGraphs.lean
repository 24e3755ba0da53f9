import QueryAlgebra.Proofs.Lowering.NamesOfRequests
import QueryAlgebra.Proofs.Operation.ClearedGraphs
import QueryAlgebra.Proofs.Operation.CorrespondingNames
import QueryAlgebra.Proofs.Operation.MarkedNames

/-! # Names of graph blocks that are hidden

Below a projection that does not show the variable that names a graph block, this variable is
replaced by a new one, and then becomes the graph of the patterns and paths that have none
(`Context.embedGraph_hides`). A variable is replaced where it is a term of its own. That is renaming
it, unless it occurs inside a quoted triple, where it is left: `Operation.filled_eq_iff`.
-/

namespace QueryAlgebra

/-! ### The graphs of patterns and paths -/

/-- Replace the graph of a path. -/
def Operator.mapGraph (f : Term → Term) : Operator → Operator
  | .path subject predicate object graph => .path subject predicate object (f graph)
  | operator => operator

/-- Replaces the graphs of patterns and paths, but for those in graph and service blocks. -/
def Rebuild.ofGraphs (f : Term → Term) : Rebuild where
  closed := Operator.setsGraph
  pattern _ pattern := { pattern with graph := f pattern.graph }
  expression := id
  operation op := ⟨op.operator.mapGraph f, op.metadata⟩

/-- The graph, or a name in the place of the default graph. -/
def Term.orGraph (name graph : Term) : Term := if graph.isDefaultGraph then name else graph

/-- Put the patterns and paths that are in the default graph into the graph of a name, but for those
in graph and service blocks. -/
def Operation.fillGraphs (name : Term) (operation : Operation) : Operation :=
  operation.rebuild (.ofGraphs name.orGraph)

theorem Operation.rebuild_ofGraphs (f : Term → Term) (operator : Operator)
    (metadata : Option Metadata) :
    (⟨operator, metadata⟩ : Operation).rebuild (.ofGraphs f)
      = ⟨if operator.setsGraph then operator else (operator.rebuild (.ofGraphs f)).mapGraph f,
          metadata⟩ := by
  rw [Operation.rebuild]
  exact (apply_ite (Operation.mk · metadata) _ _ _).symm

theorem Operator.rebuild_ofGraphs_id (operator : Operator) :
    (operator.rebuild (.ofGraphs id)).mapGraph id = operator := by
  have idle : (Rebuild.ofGraphs id).Idle := by
    refine ⟨fun _ _ => rfl, fun _ => rfl, fun operation => ?_⟩
    obtain ⟨operator, metadata⟩ := operation
    cases operator <;> rfl
  rw [Operator.rebuild_idle idle]
  cases operator <;> rfl

/-! ### Replacing a variable -/

/-- The term, or a new variable in the place of an old one. Terms inside a quoted triple stay as
they are. -/
def Term.replaceVar (old new : Variable) (term : Term) : Term :=
  if term = .var old then .var new else term

/-- Replace a variable where it is a term of its own. -/
def Operation.replaceVar (old new : Variable) (operation : Operation) : Operation :=
  operation.rebuild (.ofTerms (Term.replaceVar old new))

theorem Term.isDefaultGraph_replaceVar (old new : Variable) (graph : Term) :
    (graph.replaceVar old new).isDefaultGraph = graph.isDefaultGraph := by
  unfold replaceVar
  split
  · rename_i isOld
    rw [isOld]
    rfl
  · rfl

theorem Operator.setsGraph_rebuild (change : Rebuild) (operator : Operator) :
    (operator.rebuild change).setsGraph = operator.setsGraph := by
  cases operator with
  | wrap wrapper input => cases wrapper <;> rfl
  | leftJoin left right condition => cases condition <;> rfl
  | deleteInsert delete insert scope => cases scope <;> rfl
  | _ => rfl

theorem Operator.setsGraph_mapOwnTerms (f : Term → Term) (operator : Operator) :
    (operator.mapOwnTerms f).setsGraph = operator.setsGraph := by
  cases operator with
  | wrap wrapper input => cases wrapper <;> rfl
  | _ => rfl

namespace Embedding

/-- The embedding of a variable that is hidden, for which another one stands. -/
def replacing (old new : Variable) (fills : Bool) : Embedding := ⟨.var old, some new, fills⟩

/-- What becomes of a graph that is not replaced. -/
def fill (embedding : Embedding) (graph : Term) : Term :=
  if embedding.fills && graph.isDefaultGraph then embedding.name else graph

variable {old new : Variable} {fills : Bool}

theorem graph_replacing (graph : Term) :
    (replacing old new fills).graph graph
      = (replacing old new fills).fill (graph.replaceVar old new) := by
  rw [fill, Term.isDefaultGraph_replaceVar]
  rfl

theorem patterns_replacing (place : Place) (patterns : List Pattern) :
    patterns.map (replacing old new fills).pattern
      = (patterns.map ((Rebuild.ofTerms (Term.replaceVar old new)).pattern place)).map
        ((Rebuild.ofGraphs (replacing old new fills).fill).pattern place) := by
  rw [List.map_map]
  refine List.map_congr_left fun pattern _ => ?_
  rw [Embedding.pattern, graph_replacing]
  rfl

theorem optional_replacing (place : Place) (patterns : Option (List Pattern)) :
    patterns.map (·.map (replacing old new fills).pattern)
      = (patterns.map (·.map ((Rebuild.ofTerms (Term.replaceVar old new)).pattern place))).map
        (·.map ((Rebuild.ofGraphs (replacing old new fills).fill).pattern place)) := by
  cases patterns with
  | none => rfl
  | some patterns => exact congrArg some (patterns_replacing place patterns)

end Embedding

namespace Context

open QueryAlgebra.Embedding (replacing)

variable {context : Context} {old new : Variable}

/-- Where the variable is replaced already, nothing hides it again. -/
theorem shadow_replacing {fills : Bool} (hidden : Bool) :
    context.shadow (replacing old new fills) hidden = pure (replacing old new fills) := by
  cases hidden <;> rfl

-- Each case follows the walk through an operator; graphs are filled after terms are replaced, which
-- keeps the default graph. Below graph and service blocks nothing is filled.
mutual

/-- Where a variable is replaced, it is replaced everywhere, and then graphs are filled. -/
theorem embed_replacing : ∀ (operation : Operation) (fills : Bool),
    context.embed (replacing old new fills) operation
      = pure ((operation.replaceVar old new).rebuild (.ofGraphs (replacing old new fills).fill))
  | ⟨operator, metadata⟩, fills => by
    have goesOn : context.embed (replacing old new fills) ⟨operator, metadata⟩ = (do
        let operator ←
          context.embedOperator (replacing old new (fills && !operator.setsGraph)) operator
        pure ⟨operator, metadata⟩) := rfl
    have replaced : Operation.replaceVar old new ⟨operator, metadata⟩
        = ⟨(operator.rebuild (.ofTerms (Term.replaceVar old new))).mapOwnTerms
          (Term.replaceVar old new), metadata⟩ := rfl
    rw [goesOn, embedOperator_replacing, pure_bind, replaced, Operation.rebuild_ofGraphs,
      Operator.setsGraph_mapOwnTerms, Operator.setsGraph_rebuild]
    cases operator.setsGraph with
    | false => rw [Bool.not_false, Bool.and_true]; rfl
    | true =>
      have asIs : (replacing old new (fills && !true)).fill = id := by
        cases fills <;> rfl
      rw [asIs, Operator.rebuild_ofGraphs_id]
      rfl

theorem embedOperator_replacing : ∀ (operator : Operator) (fills : Bool),
    context.embedOperator (replacing old new fills) operator
      = pure ((((operator.rebuild (.ofTerms (Term.replaceVar old new))).mapOwnTerms
        (Term.replaceVar old new)).rebuild (.ofGraphs (replacing old new fills).fill)).mapGraph
          (replacing old new fills).fill)
  | .bgp patterns, fills => by
    rw [embedOperator, Embedding.patterns_replacing .bgp]
    rfl
  | .values .., _ | .nop, _ | .manage _, _ => rfl
  | .path subject predicate object graph, fills => by
    rw [embedOperator, Embedding.graph_replacing]
    rfl
  | .wrap wrapper input, fills => by
    cases wrapper with
    | project vars =>
      have goesOn : context.embedOperator (replacing old new fills) (.wrap (.project vars) input)
          = (do
            let below ← context.shadow (replacing old new fills)
              (!vars.any fun name => .var name == (replacing old new fills).name)
            let input ← context.embed below input
            pure (.wrap ((Wrapper.project vars).mapOwnTerms (Term.replaceVar old new)) input)) :=
        rfl
      rw [goesOn, shadow_replacing, pure_bind, embed_replacing input]
      rfl
    | graph | service | distinct | reduced | slice | dataset | ask | describe =>
      rw [embedOperator_wrap, embed_replacing input]
      · rfl
      · nofun
  | .filter input condition, fills => by
    rw [embedOperator, embed_replacing input, embedExpression_replacing condition]
    rfl
  | .extend input name value, fills => by
    have goesOn : context.embedOperator (replacing old new fills) (.extend input name value)
        = (do
          let below ← context.shadow (replacing old new fills)
            (.var name == (replacing old new fills).name)
          let input ← context.embed below input
          let value ← context.embedExpression (replacing old new fills) value
          pure (.extend input (name.mapTerm (Term.replaceVar old new)) value)) := rfl
    rw [goesOn, shadow_replacing, pure_bind, embed_replacing input,
      embedExpression_replacing value]
    rfl
  | .group input keys aggregates, fills => by
    rw [embedOperator, embed_replacing input, embedAggregates_replacing aggregates]
    rfl
  | .orderBy input keys, fills => by
    rw [embedOperator, embed_replacing input, embedExpressions_replacing keys]
    rfl
  | .construct input template, fills => by
    rw [embedOperator, embed_replacing input, Embedding.patterns_replacing .template]
    rfl
  | .combine how inputs, fills => by
    rw [embedOperator, embedAll_replacing inputs]
    rfl
  | .leftJoin left right none, fills => by
    rw [embedOperator, embed_replacing left, embed_replacing right]
    rfl
  | .leftJoin left right (some condition), fills => by
    rw [embedOperator, embed_replacing left, embed_replacing right,
      embedExpression_replacing condition]
    rfl
  | .minus left right, fills => by
    rw [embedOperator, embed_replacing left, embed_replacing right]
    rfl
  | .deleteInsert delete insert none, fills => by
    rw [embedOperator, Embedding.optional_replacing .delete delete,
      Embedding.optional_replacing .insert insert]
    rfl
  | .deleteInsert delete insert (some scope), fills => by
    rw [embedOperator, embed_replacing scope, Embedding.optional_replacing .delete delete,
      Embedding.optional_replacing .insert insert]
    rfl

theorem embedExpression_replacing : ∀ (expression : Expression) (fills : Bool),
    context.embedExpression (replacing old new fills) expression
      = pure ((expression.rebuild (.ofTerms (Term.replaceVar old new))).rebuild
        (.ofGraphs (replacing old new fills).fill))
  | .term _, _ | .wildcard, _ => rfl
  | .call callee arguments, fills => by
    rw [embedExpression, embedExpressions_replacing arguments]
    rfl
  | .aggregate name argument distinct separator, fills => by
    rw [embedExpression, embedExpression_replacing argument]
    rfl
  | .existence negated input, fills => by
    rw [embedExpression, embed_replacing input]
    rfl

theorem embedAll_replacing : ∀ (operations : List Operation) (fills : Bool),
    context.embedAll (replacing old new fills) operations
      = pure (Operation.rebuildAll (.ofGraphs (replacing old new fills).fill)
        (Operation.rebuildAll (.ofTerms (Term.replaceVar old new)) operations))
  | [], _ => rfl
  | operation :: rest, fills => by
    rw [embedAll, embed_replacing operation, embedAll_replacing rest]
    rfl

theorem embedExpressions_replacing : ∀ (expressions : List Expression) (fills : Bool),
    context.embedExpressions (replacing old new fills) expressions
      = pure (Expression.rebuildAll (.ofGraphs (replacing old new fills).fill)
        (Expression.rebuildAll (.ofTerms (Term.replaceVar old new)) expressions))
  | [], _ => rfl
  | expression :: rest, fills => by
    rw [embedExpressions, embedExpression_replacing expression, embedExpressions_replacing rest]
    rfl

theorem embedAggregates_replacing : ∀ (aggregates : List BoundAggregate) (fills : Bool),
    context.embedAggregates (replacing old new fills) aggregates
      = pure (BoundAggregate.rebuildAll (.ofGraphs (replacing old new fills).fill)
        ((BoundAggregate.rebuildAll (.ofTerms (Term.replaceVar old new)) aggregates).map
          fun bound => ⟨bound.name.mapTerm (Term.replaceVar old new), bound.expression⟩))
  | [], _ => rfl
  | ⟨name, expression⟩ :: rest, fills => by
    rw [embedAggregates, embedExpression_replacing expression, embedAggregates_replacing rest]
    rfl

end

end Context

/-! ### Replacing and renaming -/

/-- The texts of names when an old variable is called after a new one. -/
def renameVar (old new : Variable) (name : LocalName) : String :=
  if name = .var old.name then new.name else name.text

/-- The same name, but the new variable for the old one. -/
def LocalName.Renamed (old new : Variable) (name other : LocalName) : Prop :=
  other = if name = .var old.name then .var new.name else name

/-- A new variable may be given to an old one without coming together with another name. -/
theorem renames_renameVar {old new : Variable} {names : List LocalName}
    (fresh : .var new.name ∉ names) :
    Renames (LocalName.Renamed old new) (renameVar old new) names where
  related name _ := by
    rw [LocalName.Renamed, renameVar]
    split
    · rename_i isOld
      rw [isOld]
      rfl
    · cases name <;> rfl
  injective m mem n mem' kind same := by
    have notNew : ∀ name, .var name ∈ names → name ≠ new.name := fun name mem isNew =>
      fresh (isNew ▸ mem)
    cases m with
    | var name =>
      cases n with
      | var other =>
        simp only [renameVar, LocalName.var.injEq, LocalName.text] at same
        split at same <;> split at same
        · rw [‹name = _›, ‹other = _›]
        · exact absurd same.symm (notNew other mem')
        · exact absurd same (notNew name mem)
        · rw [same]
      | blank => cases kind
    | blank label =>
      cases n with
      | var => cases kind
      | blank other => exact congrArg LocalName.blank same

namespace Term

variable {old new : Variable}

theorem replaceVar_var (name : Variable) :
    (var name).replaceVar old new = (var name).renameLocal (renameVar old new) := by
  show _ = var ⟨renameVar old new (.var name.name)⟩
  obtain ⟨name⟩ := name
  obtain ⟨old⟩ := old
  by_cases isOld : name = old <;> simp [replaceVar, renameVar, LocalName.text, isOld]

/-- A term stays as it is exactly if the name is not in it. -/
theorem renameLocal_eq_self_iff (other : new ≠ old) (term : Term) :
    term.renameLocal (renameVar old new) = term ↔ .var old.name ∉ term.localNames := by
  induction term with
  | iri | literal | defaultGraph => simp [renameLocal, mapNested, localNames, nested]
  | blank node =>
    simp [renameLocal, mapNested, localNames, nested, renameVar, LocalName.text]
  | var name =>
    obtain ⟨name⟩ := name
    obtain ⟨old⟩ := old
    obtain ⟨new⟩ := new
    by_cases isOld : name = old
    · simp_all [renameLocal, mapNested, localNames, nested, renameVar]
    · simp [renameLocal, mapNested, localNames, nested, renameVar, LocalName.text, isOld,
        Ne.symm isOld]
  | quad subject predicate object graph ofSubject ofPredicate ofObject ofGraph =>
    rw [renameLocal_quad, quad.injEq, ofSubject, ofPredicate, ofObject, ofGraph, localNames_quad]
    simp only [List.mem_append, not_or, and_assoc]

/-- Replacing and renaming make the same of a term unless the name is inside it. -/
theorem replaceVar_eq_renameLocal_iff (other : new ≠ old) (term : Term) :
    term.replaceVar old new = term.renameLocal (renameVar old new)
      ↔ (.var old.name ∈ term.localNames → term = .var old) := by
  by_cases isOld : term = .var old
  · rw [isOld, replaceVar_var]
    exact iff_of_true rfl fun _ => rfl
  · rw [replaceVar, if_neg isOld, eq_comm, renameLocal_eq_self_iff other]
    exact ⟨fun absent mem => absurd mem absent, fun unquoted mem => isOld (unquoted mem)⟩

theorem isDefaultGraph_renameLocal (rename : LocalName → String) (graph : Term) :
    (graph.renameLocal rename).isDefaultGraph = graph.isDefaultGraph := by
  cases graph <;> rfl

end Term

/-- What terms the parts of an operation have. -/
def Gather.ofTerms : Gather Term where
  closed _ := false
  pattern _ := Pattern.terms
  expression := Expression.ownTerms
  operator := Operator.ownTerms

/-- The terms that stand in an operation; those inside quoted triples are not listed. -/
def Operation.terms (operation : Operation) : List Term := operation.gather .ofTerms

/-- The terms of an operator, those of its inputs first. -/
def Operator.terms (operator : Operator) : List Term :=
  operator.gather .ofTerms ++ operator.ownTerms

/-- Whether a variable is in no quoted triple of an operation. -/
def Operation.Unquoted (name : Variable) (operation : Operation) : Prop :=
  ∀ term ∈ operation.terms, .var name.name ∈ term.localNames → term = .var name

theorem Operator.forall_mem_terms {operator : Operator} (own : operator.ownTerms = [])
    {P : Term → Prop} :
    (∀ term ∈ operator.terms, P term) ↔ ∀ term ∈ operator.gather .ofTerms, P term := by
  rw [terms, own, List.append_nil]

/-- A replacement of terms and a renaming do the same to variables, and the renaming keeps blank
nodes. -/
structure RenamesVars (rename : LocalName → String) (f : Term → Term) : Prop where
  var (name : Variable) : f (.var name) = (Term.var name).renameLocal rename
  blank (label : String) : rename (.blank label) = label

/-- Graphs are still told apart after they are filled. -/
def TellsGraphs (rename : LocalName → String) (f fill : Term → Term) : Prop :=
  ∀ graph, fill (f graph) = fill (graph.renameLocal rename) ↔ f graph = graph.renameLocal rename

theorem renamesVars_renameVar (old new : Variable) :
    RenamesVars (renameVar old new) (Term.replaceVar old new) :=
  ⟨Term.replaceVar_var, fun _ => rfl⟩

theorem tellsGraphs_orGraph (old new : Variable) (name : Term) :
    TellsGraphs (renameVar old new) (Term.replaceVar old new) name.orGraph := by
  intro graph
  unfold Term.orGraph
  rw [Term.isDefaultGraph_replaceVar, Term.isDefaultGraph_renameLocal]
  cases isDefault : graph.isDefaultGraph with
  | false => exact Iff.rfl
  | true =>
    rw [Term.eq_defaultGraph isDefault]
    exact iff_of_true rfl rfl

section

variable {related : LocalName → LocalName → Prop} {rename : LocalName → String}
  {f fill : Term → Term}

namespace RenamesVars

theorem mapTerm (alike : RenamesVars rename f) (name : Variable) :
    name.mapTerm f = name.mapTerm (Term.renameLocal rename) := by
  rw [Variable.mapTerm, Variable.mapTerm, alike.var]

theorem map_mapTerm (alike : RenamesVars rename f) (names : List Variable) :
    names.map (Variable.mapTerm f) = names.map (Variable.mapTerm (Term.renameLocal rename)) :=
  List.map_congr_left fun name _ => alike.mapTerm name

theorem all_var (alike : RenamesVars rename f) (names : List Variable) :
    ∀ term ∈ names.map .var, f term = term.renameLocal rename := by
  intro term isVar
  obtain ⟨name, -, rfl⟩ := List.mem_map.1 isVar
  exact alike.var name

theorem pattern (alike : RenamesVars rename f) (place : Place) :
    (Rebuild.ofRenaming rename).pattern place = Pattern.mapTerms (Term.renameLocal rename) := by
  have template : ofTemplate rename = rename := by
    funext name
    cases name with
    | var name => rfl
    | blank label => exact (alike.blank label).symm
  show (if _ then _ else _) = _
  rw [template, ite_self]

end RenamesVars

theorem Pattern.filled_eq_iff (alike : RenamesVars rename f) (tells : TellsGraphs rename f fill)
    (place : Place) (patterns : List Pattern) :
    (patterns.map ((Rebuild.ofTerms f).pattern place)).map ((Rebuild.ofGraphs fill).pattern place)
        = (patterns.map ((Rebuild.ofRenaming rename).pattern place)).map
          ((Rebuild.ofGraphs fill).pattern place)
      ↔ ∀ term ∈ patterns.flatMap Pattern.terms, f term = term.renameLocal rename := by
  rw [alike.pattern, List.map_map, List.map_map, List.map_inj_left, List.forall_mem_flatMap]
  refine forall₂_congr fun pattern _ => ?_
  simp [Rebuild.ofTerms, Rebuild.ofGraphs, Pattern.mapTerms, Pattern.terms, tells pattern.graph]

theorem Pattern.optional_filled_eq_iff (alike : RenamesVars rename f)
    (tells : TellsGraphs rename f fill) (place : Place) (patterns : Option (List Pattern)) :
    (patterns.map (·.map ((Rebuild.ofTerms f).pattern place))).map
          (·.map ((Rebuild.ofGraphs fill).pattern place))
        = (patterns.map (·.map ((Rebuild.ofRenaming rename).pattern place))).map
          (·.map ((Rebuild.ofGraphs fill).pattern place))
      ↔ ∀ term ∈ (patterns.getD []).flatMap Pattern.terms, f term = term.renameLocal rename := by
  cases patterns with
  | none => exact iff_of_true rfl fun _ mem => absurd mem List.not_mem_nil
  | some patterns =>
    simp only [Option.map_some, Option.some.injEq]
    exact filled_eq_iff alike tells place patterns

/-- The cells of a row stay apart under a renaming, so each of them tells what becomes of it. -/
theorem mapRow_eq_iff (alike : RenamesVars rename f) {row : Row}
    (renames : Renames related rename ((rowTerms row).flatMap Term.localNames)) :
    mapRow f row = mapRow (Term.renameLocal rename) row
      ↔ ∀ term ∈ rowTerms row, f term = term.renameLocal rename := by
  have injective : ∀ entry ∈ row.entries, ∀ entry' ∈ row.entries,
      rename (.var entry.1) = rename (.var entry'.1) → entry.1 = entry'.1 :=
    fun entry member entry' member' same => LocalName.var.inj
      (renames.injective _ (subset_names_row member (List.mem_cons_self ..)) _
        (subset_names_row member' (List.mem_cons_self ..)) rfl same)
  have renamed := NameMap.perm_entries_ofList (nodup_mapRow (f := Term.renameLocal rename) injective)
  have replaced := NameMap.perm_entries_ofList (nodup_mapRow (f := f)
    (by simp only [alike.mapTerm]; exact injective))
  constructor
  · intro same term isTerm
    obtain ⟨entry, member, isTerm⟩ := List.mem_flatMap.1 isTerm
    rcases List.mem_cons.1 isTerm with rfl | isTerm
    · exact alike.var ⟨entry.1⟩
    · rw [List.mem_singleton.1 isTerm]
      have inRow := replaced.mem_iff.1 (List.mem_map_of_mem member)
      change _ ∈ (mapRow f row).entries at inRow
      rw [same] at inRow
      -- The cell in the same column is the cell itself.
      obtain ⟨entry', member', cell⟩ := List.mem_map.1 (renamed.mem_iff.2 inRow)
      obtain ⟨column, value⟩ := Prod.mk.inj cell
      rw [alike.mapTerm] at column
      have keys : entry'.1 = entry.1 := injective entry' member' entry member column
      have found : row.find? entry.1 = some entry.2 := NameMap.find?_eq_some_iff.2 member
      have found' : row.find? entry'.1 = some entry'.2 := NameMap.find?_eq_some_iff.2 member'
      rw [keys, found] at found'
      rw [← value, Option.some.inj found']
  · intro same
    refine congrArg NameMap.ofList (List.map_congr_left fun entry member => ?_)
    rw [alike.mapTerm, same entry.2 (List.mem_flatMap.2 ⟨entry, member, by simp⟩)]

theorem Wrapper.mapOwnTerms_eq_iff (alike : RenamesVars rename f) (wrapper : Wrapper) :
    wrapper.mapOwnTerms f = wrapper.mapOwnTerms (Term.renameLocal rename)
      ↔ ∀ term ∈ wrapper.ownTerms, f term = term.renameLocal rename := by
  cases wrapper with
  | project vars =>
    exact iff_of_true (congrArg project (alike.map_mapTerm vars)) (alike.all_var vars)
  | graph | service => simp [mapOwnTerms, ownTerms]
  | describe terms => rw [mapOwnTerms, mapOwnTerms, describe.injEq, List.map_inj_left, ownTerms]
  | distinct | reduced | slice | dataset | ask => simp [mapOwnTerms, ownTerms]

mutual

/-- After graphs are filled, what a replacement makes of an operation is what a renaming makes of it
exactly if they make the same of each term. -/
theorem Operation.filled_eq_iff (alike : RenamesVars rename f) : ∀ (operation : Operation)
    {fill : Term → Term}, TellsGraphs rename f fill →
    Renames related rename operation.localNames →
    ((operation.rebuild (.ofTerms f)).rebuild (.ofGraphs fill)
        = (operation.renameLocal rename).rebuild (.ofGraphs fill)
      ↔ ∀ term ∈ operation.terms, f term = term.renameLocal rename)
  | ⟨operator, metadata⟩, fill, tells, renames => by
    have renamed : (operator.renameLocal rename).setsGraph = operator.setsGraph := by
      rw [Operator.renameLocal, Operator.setsGraph_mapOwnTerms, Operator.setsGraph_rebuild]
    show Operation.rebuild _ ⟨(operator.rebuild (.ofTerms f)).mapOwnTerms f, metadata⟩
      = Operation.rebuild _ ⟨operator.renameLocal rename, metadata⟩ ↔ _
    rw [Operation.rebuild_ofGraphs, Operation.rebuild_ofGraphs, renamed,
      Operator.setsGraph_mapOwnTerms, Operator.setsGraph_rebuild, Operation.mk.injEq,
      and_iff_left rfl]
    cases operator.setsGraph with
    | false => exact Operator.filled_eq_iff alike operator tells renames
    | true =>
      have asIs := Operator.filled_eq_iff alike operator (show TellsGraphs rename f id from
        fun _ => Iff.rfl) renames
      rw [Operator.rebuild_ofGraphs_id, Operator.rebuild_ofGraphs_id] at asIs
      exact asIs

theorem Operator.filled_eq_iff (alike : RenamesVars rename f) : ∀ (operator : Operator)
    {fill : Term → Term}, TellsGraphs rename f fill →
    Renames related rename operator.localNames →
    ((((operator.rebuild (.ofTerms f)).mapOwnTerms f).rebuild (.ofGraphs fill)).mapGraph fill
        = ((operator.renameLocal rename).rebuild (.ofGraphs fill)).mapGraph fill
      ↔ ∀ term ∈ operator.terms, f term = term.renameLocal rename)
  | .bgp patterns, _, tells, _ => by
    show Operator.bgp _ = Operator.bgp _ ↔ _
    rw [Operator.bgp.injEq, Operator.forall_mem_terms rfl]
    exact Pattern.filled_eq_iff alike tells .bgp patterns
  | .values vars rows, _, _, renames => by
    have ofTerms := renames.append.2
    rw [flatMap_localNames_table] at ofTerms
    show Operator.values (vars.map (Variable.mapTerm f)) (rows.map (mapRow f))
      = Operator.values _ (rows.map (mapRow (Term.renameLocal rename)))
        ↔ ∀ term ∈ vars.map .var ++ rows.flatMap rowTerms, _
    rw [alike.map_mapTerm, Operator.values.injEq, and_iff_right rfl, List.map_inj_left,
      List.forall_mem_append, and_iff_right (alike.all_var vars), List.forall_mem_flatMap]
    exact forall₂_congr fun row member =>
      mapRow_eq_iff alike (ofTerms.append.2.of_mem_flatMap member)
  | .nop, _, _, _ | .manage _, _, _, _ => iff_of_true rfl fun _ mem => absurd mem List.not_mem_nil
  | .path subject predicate object graph, _, tells, _ => by
    show Operator.path _ predicate _ _ = Operator.path _ predicate _ _
      ↔ ∀ term ∈ [subject, object, graph], _
    simp [tells graph]
  | .wrap wrapper input, _, tells, renames => by
    show Operator.wrap _ _ = Operator.wrap _ _ ↔ _
    rw [Operator.wrap.injEq, Operator.terms, List.forall_mem_append, and_comm]
    exact and_congr (Operation.filled_eq_iff alike input tells renames.append.1)
      (Wrapper.mapOwnTerms_eq_iff alike wrapper)
  | .filter input condition, _, tells, renames => by
    obtain ⟨ofInput, ofCondition⟩ := renames.append.1.append
    show Operator.filter _ _ = Operator.filter _ _ ↔ _
    rw [Operator.filter.injEq, Operator.forall_mem_terms rfl, Operator.gather,
      List.forall_mem_append]
    exact and_congr (Operation.filled_eq_iff alike input tells ofInput)
      (Expression.filled_eq_iff alike condition tells ofCondition)
  | .extend input name value, _, tells, renames => by
    obtain ⟨ofInput, ofValue⟩ := renames.append.1.append
    show Operator.extend _ (name.mapTerm f) _ = Operator.extend _ _ _ ↔ _
    rw [alike.mapTerm, Operator.extend.injEq, Operator.terms, Operator.ownTerms, Operator.gather,
      List.forall_mem_append, List.forall_mem_append, List.forall_mem_singleton,
      and_iff_left (alike.var name), and_iff_right rfl]
    exact and_congr (Operation.filled_eq_iff alike input tells ofInput)
      (Expression.filled_eq_iff alike value tells ofValue)
  | .group input keys aggregates, _, tells, renames => by
    obtain ⟨ofInput, ofAggregates⟩ := renames.append.1.append
    have ofNames : ∀ term ∈ keys.map Term.var ++ aggregates.map (Term.var ·.name),
        f term = term.renameLocal rename := by
      have all := alike.all_var (keys ++ aggregates.map (·.name))
      rwa [List.map_append, List.map_map] at all
    show Operator.group _ (keys.map (Variable.mapTerm f)) _ = Operator.group _ _ _
      ↔ ∀ term ∈ (_ ++ _) ++ (keys.map Term.var ++ aggregates.map (Term.var ·.name)), _
    rw [alike.map_mapTerm, Operator.group.injEq, and_iff_right rfl, List.forall_mem_append,
      and_iff_left ofNames, List.forall_mem_append]
    exact and_congr (Operation.filled_eq_iff alike input tells ofInput)
      (BoundAggregate.all_filled_eq_iff alike aggregates tells ofAggregates)
  | .orderBy input keys, _, tells, renames => by
    obtain ⟨ofInput, ofKeys⟩ := renames.append.1.append
    show Operator.orderBy _ _ = Operator.orderBy _ _ ↔ _
    rw [Operator.orderBy.injEq, Operator.forall_mem_terms rfl, Operator.gather,
      List.forall_mem_append]
    exact and_congr (Operation.filled_eq_iff alike input tells ofInput)
      (Expression.all_filled_eq_iff alike keys tells ofKeys)
  | .construct input template, _, tells, renames => by
    show Operator.construct _ _ = Operator.construct _ _ ↔ _
    rw [Operator.construct.injEq, Operator.forall_mem_terms rfl, Operator.gather,
      List.forall_mem_append]
    exact and_congr (Operation.filled_eq_iff alike input tells renames.append.1.append.1)
      (Pattern.filled_eq_iff alike tells .template template)
  | .combine how inputs, _, tells, renames => by
    show Operator.combine how _ = Operator.combine how _ ↔ _
    rw [Operator.combine.injEq, and_iff_right rfl, Operator.forall_mem_terms rfl]
    exact Operation.all_filled_eq_iff alike inputs tells renames.append.1
  | .leftJoin left right none, _, tells, renames => by
    obtain ⟨ofLeft, ofRight⟩ := renames.append.1.append
    show Operator.leftJoin _ _ none = Operator.leftJoin _ _ none ↔ _
    rw [Operator.leftJoin.injEq, and_iff_left rfl, Operator.forall_mem_terms rfl, Operator.gather,
      List.forall_mem_append]
    exact and_congr (Operation.filled_eq_iff alike left tells ofLeft)
      (Operation.filled_eq_iff alike right tells ofRight)
  | .leftJoin left right (some condition), _, tells, renames => by
    obtain ⟨ofSides, ofCondition⟩ := renames.append.1.append
    obtain ⟨ofLeft, ofRight⟩ := ofSides.append
    show Operator.leftJoin _ _ (some _) = Operator.leftJoin _ _ (some _) ↔ _
    rw [Operator.leftJoin.injEq, Option.some.injEq, Operator.forall_mem_terms rfl, Operator.gather,
      List.forall_mem_append, List.forall_mem_append, and_assoc]
    exact and_congr (Operation.filled_eq_iff alike left tells ofLeft)
      (and_congr (Operation.filled_eq_iff alike right tells ofRight)
        (Expression.filled_eq_iff alike condition tells ofCondition))
  | .minus left right, _, tells, renames => by
    obtain ⟨ofLeft, ofRight⟩ := renames.append.1.append
    show Operator.minus _ _ = Operator.minus _ _ ↔ _
    rw [Operator.minus.injEq, Operator.forall_mem_terms rfl, Operator.gather,
      List.forall_mem_append]
    exact and_congr (Operation.filled_eq_iff alike left tells ofLeft)
      (Operation.filled_eq_iff alike right tells ofRight)
  | .deleteInsert delete insert none, _, tells, _ => by
    show Operator.deleteInsert _ _ none = Operator.deleteInsert _ _ none ↔ _
    rw [Operator.deleteInsert.injEq, and_iff_left rfl, Operator.forall_mem_terms rfl,
      Operator.gather, List.forall_mem_append]
    exact and_congr (Pattern.optional_filled_eq_iff alike tells .delete delete)
      (Pattern.optional_filled_eq_iff alike tells .insert insert)
  | .deleteInsert delete insert (some scope), _, tells, renames => by
    show Operator.deleteInsert _ _ (some _) = Operator.deleteInsert _ _ (some _) ↔ _
    rw [Operator.deleteInsert.injEq, Option.some.injEq, Operator.forall_mem_terms rfl,
      Operator.gather, List.forall_mem_append, List.forall_mem_append, and_assoc]
    exact and_congr (Pattern.optional_filled_eq_iff alike tells .delete delete)
      (and_congr (Pattern.optional_filled_eq_iff alike tells .insert insert)
        (Operation.filled_eq_iff alike scope tells renames.append.1.append.2))

theorem Expression.filled_eq_iff (alike : RenamesVars rename f) : ∀ (expression : Expression)
    {fill : Term → Term}, TellsGraphs rename f fill →
    Renames related rename (expression.gather .ofLocalNames) →
    ((expression.rebuild (.ofTerms f)).rebuild (.ofGraphs fill)
        = (expression.rebuild (.ofRenaming rename)).rebuild (.ofGraphs fill)
      ↔ ∀ term ∈ expression.gather .ofTerms, f term = term.renameLocal rename)
  | .term value, _, _, _ => by
    show Expression.term _ = Expression.term _ ↔ ∀ term ∈ [value], _
    rw [Expression.term.injEq, List.forall_mem_singleton]
  | .call callee arguments, _, tells, renames => by
    show Expression.call callee _ = Expression.call callee _ ↔ ∀ term ∈ _ ++ [], _
    rw [Expression.call.injEq, and_iff_right rfl, List.append_nil]
    exact Expression.all_filled_eq_iff alike arguments tells renames.append.1
  | .aggregate name argument distinct separator, _, tells, renames => by
    show Expression.aggregate name _ distinct separator
      = Expression.aggregate name _ distinct separator ↔ ∀ term ∈ _ ++ [], _
    rw [Expression.aggregate.injEq, and_iff_right rfl, and_iff_left ⟨rfl, rfl⟩, List.append_nil]
    exact Expression.filled_eq_iff alike argument tells renames.append.1
  | .existence negated input, _, tells, renames => by
    show Expression.existence negated _ = Expression.existence negated _ ↔ ∀ term ∈ _ ++ [], _
    rw [Expression.existence.injEq, and_iff_right rfl, List.append_nil]
    exact Operation.filled_eq_iff alike input tells renames.append.1
  | .wildcard, _, _, _ => iff_of_true rfl fun _ mem => absurd mem List.not_mem_nil

theorem Operation.all_filled_eq_iff (alike : RenamesVars rename f) :
    ∀ (operations : List Operation) {fill : Term → Term}, TellsGraphs rename f fill →
    Renames related rename (Operation.gatherAll .ofLocalNames operations) →
    (Operation.rebuildAll (.ofGraphs fill) (Operation.rebuildAll (.ofTerms f) operations)
        = Operation.rebuildAll (.ofGraphs fill)
          (Operation.rebuildAll (.ofRenaming rename) operations)
      ↔ ∀ term ∈ Operation.gatherAll .ofTerms operations, f term = term.renameLocal rename)
  | [], _, _, _ => iff_of_true rfl fun _ mem => absurd mem List.not_mem_nil
  | operation :: rest, _, tells, renames => by
    obtain ⟨ofHead, ofRest⟩ := renames.append
    show _ :: _ = _ :: _ ↔ ∀ term ∈ _ ++ _, _
    rw [List.cons.injEq, List.forall_mem_append]
    exact and_congr (Operation.filled_eq_iff alike operation tells ofHead)
      (Operation.all_filled_eq_iff alike rest tells ofRest)

theorem Expression.all_filled_eq_iff (alike : RenamesVars rename f) :
    ∀ (expressions : List Expression) {fill : Term → Term}, TellsGraphs rename f fill →
    Renames related rename (Expression.gatherAll .ofLocalNames expressions) →
    (Expression.rebuildAll (.ofGraphs fill) (Expression.rebuildAll (.ofTerms f) expressions)
        = Expression.rebuildAll (.ofGraphs fill)
          (Expression.rebuildAll (.ofRenaming rename) expressions)
      ↔ ∀ term ∈ Expression.gatherAll .ofTerms expressions, f term = term.renameLocal rename)
  | [], _, _, _ => iff_of_true rfl fun _ mem => absurd mem List.not_mem_nil
  | expression :: rest, _, tells, renames => by
    obtain ⟨ofHead, ofRest⟩ := renames.append
    show _ :: _ = _ :: _ ↔ ∀ term ∈ _ ++ _, _
    rw [List.cons.injEq, List.forall_mem_append]
    exact and_congr (Expression.filled_eq_iff alike expression tells ofHead)
      (Expression.all_filled_eq_iff alike rest tells ofRest)

theorem BoundAggregate.all_filled_eq_iff (alike : RenamesVars rename f) :
    ∀ (aggregates : List BoundAggregate) {fill : Term → Term}, TellsGraphs rename f fill →
    Renames related rename (BoundAggregate.gatherAll .ofLocalNames aggregates) →
    (BoundAggregate.rebuildAll (.ofGraphs fill)
          ((BoundAggregate.rebuildAll (.ofTerms f) aggregates).map
            fun bound => ⟨bound.name.mapTerm f, bound.expression⟩)
        = BoundAggregate.rebuildAll (.ofGraphs fill)
          ((BoundAggregate.rebuildAll (.ofRenaming rename) aggregates).map
            fun bound => ⟨bound.name.mapTerm (Term.renameLocal rename), bound.expression⟩)
      ↔ ∀ term ∈ BoundAggregate.gatherAll .ofTerms aggregates, f term = term.renameLocal rename)
  | [], _, _, _ => iff_of_true rfl fun _ mem => absurd mem List.not_mem_nil
  | ⟨name, expression⟩ :: rest, _, tells, renames => by
    obtain ⟨ofHead, ofRest⟩ := renames.append
    show BoundAggregate.mk (name.mapTerm f) _ :: _ = BoundAggregate.mk _ _ :: _
      ↔ ∀ term ∈ _ ++ _, _
    rw [List.cons.injEq, BoundAggregate.mk.injEq, alike.mapTerm, and_iff_right rfl,
      List.forall_mem_append]
    exact and_congr (Expression.filled_eq_iff alike expression tells ofHead)
      (BoundAggregate.all_filled_eq_iff alike rest tells ofRest)

end

end

/-! ### Hidden names -/

namespace Context

/-- All variables among the names are made from texts that are in use. -/
def Knows (context : Context) (supply : NameSupply) (names : List LocalName) : Prop :=
  ∀ name, .var name ∈ names → ∃ used ∈ supply.vars, context.factory.var used = ⟨name⟩

variable {context : Context} {supply after : NameSupply}

/-- The names of what a pattern becomes are in use, and so is the name of a block around it. -/
theorem knows_block (plain : context.MakesPlain) {name : Variable} {pattern : Surface.Pattern}
    {span : Surface.Span}
    (covers : supply.Covers (Surface.Pattern.graph (.var name) pattern span).names)
    {operation : Operation} (success : context.pattern pattern supply = .ok operation after) :
    context.Knows after (.var (context.var name).name :: operation.allNames) := by
  have suits : context.Suits (.ofNames { quads := context.quads }) :=
    ⟨plain, False.elim, Iff.rfl⟩
  obtain ⟨ofName, ofPattern⟩ := NameSupply.covers_and.1 covers
  have behaves := behaves_pattern suits pattern ofPattern (pattern.meets_nothing false)
  rw [Lowering.Behaves, success] at behaves
  obtain ⟨gives, isPattern⟩ := behaves
  intro other mem
  rw [plain]
  refine ⟨other, ?_, rfl⟩
  rcases List.mem_cons.1 mem with isName | mem
  · rw [Context.var, plain] at isName
    rw [LocalName.var.inj isName]
    exact gives.has (.var name.name) (NameSupply.covers_var.1 ofName)
  · exact isPattern.allows operation _ mem

/-- A new variable is none of the variables that are known. -/
theorem newVariable_fresh (distinct : Function.Injective context.factory.var)
    {names : List LocalName} (knows : context.Knows supply names) :
    .var (context.factory.var supply.takeVariable.1).name ∉ names := by
  intro mem
  obtain ⟨used, isUsed, same⟩ := knows _ mem
  have taken := NameSupply.Takes.fresh (.numbered supply)
  exact taken (distinct same ▸ isUsed)

/-- A projection that does not show the variable of a graph block takes one new variable, which is
put in its place below. -/
theorem embedGraph_project {name : Variable} {vars : List Variable} {operation : Operation}
    {metadata : Option Metadata} (hidden : name ∉ vars) (supply : NameSupply) :
    context.embedGraph (.var name) ⟨.wrap (.project vars) operation, metadata⟩ supply
      = .ok ⟨.wrap (.project vars) ((operation.replaceVar name
          (context.factory.var supply.takeVariable.1)).fillGraphs (.var name)), metadata⟩
        supply.takeVariable.2 := by
  have isHidden : (!vars.any fun shown => Term.var shown == Term.var name) = true := by
    rw [Bool.not_eq_true', List.any_eq_false]
    intro shown isShown same
    exact hidden (Term.var.inj (beq_iff_eq.1 same) ▸ isShown)
  have goesOn : context.embedGraph (.var name) ⟨.wrap (.project vars) operation, metadata⟩
      = context.embedOperator ⟨.var name, none, true⟩ (.wrap (.project vars) operation) >>=
        fun operator => pure ⟨operator, metadata⟩ := rfl
  have shadowed : context.shadow ⟨.var name, none, true⟩ true supply
      = .ok (.replacing name (context.factory.var supply.takeVariable.1) true)
        supply.takeVariable.2 := rfl
  rw [goesOn, embedOperator, isHidden, bind_assoc, Lowering.bind_ok shadowed, embed_replacing]
  rfl

/-- Below a projection that does not show the variable of a graph block, a new variable stands for
it, and it is the graph of the patterns and paths that were in the default graph outside blocks. All
occurrences are replaced and nothing else changes exactly if none is inside a quoted triple. -/
theorem embedGraph_hides (distinct : Function.Injective context.factory.var) {name : Variable}
    {vars : List Variable} {operation : Operation} {metadata : Option Metadata}
    (knows : context.Knows supply
      (.var name.name :: (⟨.wrap (.project vars) operation, metadata⟩ : Operation).allNames))
    (hidden : name ∉ vars) :
    ∃ new after,
      context.embedGraph (.var name) ⟨.wrap (.project vars) operation, metadata⟩ supply
          = .ok ⟨.wrap (.project vars) ((operation.replaceVar name new).fillGraphs (.var name)),
              metadata⟩ after
        ∧ new ≠ name
        ∧ .var new.name ∉ (⟨.wrap (.project vars) operation, metadata⟩ : Operation).allNames
        ∧ operation.Corresponds (LocalName.Renamed name new)
            (operation.renameLocal (renameVar name new))
        ∧ .var name.name ∉ (operation.renameLocal (renameVar name new)).localNames
        ∧ ((operation.replaceVar name new).fillGraphs (.var name)
              = (operation.renameLocal (renameVar name new)).fillGraphs (.var name)
            ↔ operation.Unquoted name) := by
  let new := context.factory.var supply.takeVariable.1
  obtain ⟨notName, fresh⟩ := not_or.1 (mt List.mem_cons.2 (newVariable_fresh distinct knows))
  have other : new ≠ name := fun same => notName (congrArg (LocalName.var ·.name) same)
  have freshBelow : .var new.name ∉ operation.localNames := fun mem =>
    fresh (List.mem_append_left _ (operation.localNames_subset mem))
  have renames : Renames (LocalName.Renamed name new) (renameVar name new) operation.localNames :=
    renames_renameVar freshBelow
  have corresponds := Operation.corresponds_renameLocal renames
  refine ⟨new, supply.takeVariable.2, embedGraph_project hidden supply, other, fresh, corresponds,
    ?_, ?_⟩
  · intro mem
    obtain ⟨before, -, isRenamed⟩ := corresponds.names.back _ mem
    unfold LocalName.Renamed at isRenamed
    split at isRenamed
    · exact other (congrArg Variable.mk (LocalName.var.inj isRenamed)).symm
    · rename_i notOld
      exact notOld isRenamed.symm
  · refine (Operation.filled_eq_iff (renamesVars_renameVar name new) operation
      (tellsGraphs_orGraph name new (.var name)) renames).trans ?_
    exact forall₂_congr fun term _ => Term.replaceVar_eq_renameLocal_iff other term

/-- The context of default options, but that graph names go into patterns. -/
private def hidingGraphs : Context := ofOptions .plain (Options.withQuads {} true)

/-- The node of a letter. -/
private def letter (name : String) : NamedNode := ⟨"http://ex.org/" ++ name⟩

/-- `?g p ?x` in the default graph. -/
private def byGraph : Pattern :=
  ⟨.var ⟨"g"⟩, .iri (letter "p"), .var ⟨"x"⟩, .defaultGraph⟩

/-- The occurrences of `?g` in a pattern, a path, a table, a block of another graph that is asked
about, and a projection inside a service block. -/
private def occurrences : Operation :=
  .join [.of (.bgp [byGraph]),
    .of (.path (.var ⟨"x"⟩) (.link (letter "p")) (.var ⟨"g"⟩) .defaultGraph),
    .of (.values [⟨"g"⟩, ⟨"x"⟩] [.ofList [("g", .iri (letter "a"))], .ofList [("x", .var ⟨"g"⟩)]]),
    .of (.filter (.of (.wrap (.service (.var ⟨"g"⟩) false)
        (.of (.wrap (.project [⟨"g"⟩]) (.of (.bgp [byGraph]))))))
      (.existence false (Operation.graph
        (.of (.bgp [byGraph.inDefaultGraph, { byGraph with graph := .var ⟨"h"⟩ }])) (.var ⟨"h"⟩))))]

/-- Another variable stands for all of them, and the pattern and the path outside blocks are in the
graph `?g`. -/
theorem embedGraph_hides_occurrences :
    Function.Injective hidingGraphs.factory.var
      ∧ hidingGraphs.Knows ⟨["g", "x", "h", "var0"], [], 0, 0⟩
        (.var "g" :: (Operation.of (.wrap (.project [⟨"x"⟩]) occurrences)).allNames)
      ∧ (⟨"g"⟩ : Variable) ∉ [(⟨"x"⟩ : Variable)] ∧ occurrences.Unquoted ⟨"g"⟩
      ∧ ∃ new after,
        hidingGraphs.embedGraph (.var ⟨"g"⟩) (.of (.wrap (.project [⟨"x"⟩]) occurrences))
            ⟨["g", "x", "h", "var0"], [], 0, 0⟩
          = .ok (.of (.wrap (.project [⟨"x"⟩]) ((occurrences.renameLocal
            (renameVar ⟨"g"⟩ new)).fillGraphs (.var ⟨"g"⟩)))) after
        ∧ new ≠ ⟨"g"⟩
        ∧ .var new.name ∉ (Operation.of (.wrap (.project [⟨"x"⟩]) occurrences)).allNames := by
  have distinct : Function.Injective hidingGraphs.factory.var := fun _ _ same =>
    congrArg Variable.name same
  have inUse : .var "g" :: (Operation.of (.wrap (.project [⟨"x"⟩]) occurrences)).allNames
      ⊆ ["g", "x", "h", "var0"].map LocalName.var := by decide +kernel
  have knows : hidingGraphs.Knows ⟨["g", "x", "h", "var0"], [], 0, 0⟩
      (.var "g" :: (Operation.of (.wrap (.project [⟨"x"⟩]) occurrences)).allNames) := by
    intro name mem
    obtain ⟨used, isUsed, same⟩ := List.mem_map.1 (inUse mem)
    exact ⟨used, isUsed, congrArg Variable.mk (LocalName.var.inj same)⟩
  have hidden : (⟨"g"⟩ : Variable) ∉ [(⟨"x"⟩ : Variable)] := by decide
  have unquoted : occurrences.Unquoted ⟨"g"⟩ := by
    unfold Operation.Unquoted
    decide +kernel
  obtain ⟨new, after, success, other, fresh, -, -, everywhere⟩ :=
    embedGraph_hides distinct knows hidden
  rw [everywhere.2 unquoted] at success
  exact ⟨distinct, knows, hidden, unquoted, new, after, success, other, fresh⟩

/-- `<< ?g p ?o >> p ?x`. -/
private def quotedSubject : Operation :=
  .of (.bgp [⟨.quad (.var ⟨"g"⟩) (.iri (letter "p")) (.var ⟨"o"⟩) .defaultGraph,
    .iri (letter "p"), .var ⟨"x"⟩, .defaultGraph⟩])

/-- Inside a quoted triple, no other variable stands for the name of the graph. -/
theorem not_hides_quotedSubject : ∃ below after,
    hidingGraphs.embedGraph (.var ⟨"g"⟩) (.of (.wrap (.project [⟨"x"⟩]) quotedSubject))
        ⟨["g", "x", "o"], [], 0, 0⟩
      = .ok (.of (.wrap (.project [⟨"x"⟩]) below)) after
    ∧ ∀ new : Variable, new ≠ ⟨"g"⟩ →
      below ≠ (quotedSubject.renameLocal (renameVar ⟨"g"⟩ new)).fillGraphs (.var ⟨"g"⟩) := by
  refine ⟨_, _, rfl, fun new other same => ?_⟩
  have patterns := Operator.bgp.inj (Operation.mk.inj same).1
  have subjects := congrArg Pattern.subject (List.cons.inj patterns).1
  have names := (Term.quad.inj subjects).1
  exact other (Term.var.inj names).symm

end Context

end QueryAlgebra
