import QueryAlgebra.Proofs.Lifting.GrantedQueries
import QueryAlgebra.Proofs.Operation.GraphsTakenOut

/-! # Operations without clauses of a query

Solutions are grouped and ordered by clauses of a query. Where this happens only in the query forms
that stand in an operation, nothing is found on the way to its elements but the values that are
bound below the form around it: `Operation.Clauseless.findsNothing`. Taking graph names out of an
operation adds no clauses to it: `Operation.Clauseless.withoutEmbeddedGraphs`.
-/

namespace QueryAlgebra

namespace Operator

/-- Whether the operator is a query form, which takes up all clauses below it. -/
def isForm : Operator → Bool
  | .wrap (.project _) _ => true
  | .wrap .ask _ => true
  | .wrap (.describe _) _ => true
  | .construct .. => true
  | _ => false

/-- Whether the operator is made of a clause of a query. -/
def isClause : Operator → Bool
  | .group .. => true
  | .orderBy .. => true
  | _ => false

end Operator

/-- The clauses of an operation, except those of the query forms in it. -/
def Gather.clauses : Gather Operator where
  closed := Operator.isForm
  pattern _ _ := []
  expression _ := []
  operator operator := if operator.isClause then [operator] else []

/-- Solutions are grouped and ordered only in the query forms that stand in an operation. -/
def Operation.Clauseless (operation : Operation) : Prop := operation.gather .clauses = []

/-- Solutions are grouped and ordered only in query forms in what an expression asks about. -/
def Expression.Clauseless (expression : Expression) : Prop := expression.gather .clauses = []

instance : DecidablePred Operation.Clauseless := fun operation =>
  decidable_of_iff (operation.gather .clauses).isEmpty List.isEmpty_iff

instance : DecidablePred Expression.Clauseless := fun expression =>
  decidable_of_iff (expression.gather .clauses).isEmpty List.isEmpty_iff

namespace Operator

/-- Nothing in the parts of the operator is a clause. -/
def Clauseless (operator : Operator) : Prop := operator.gather .clauses = []

theorem ownClauses_eq_nil {operator : Operator} :
    Gather.clauses.operator operator = [] ↔ operator.isClause = false := by
  cases operator <;> simp [Gather.clauses, isClause]

end Operator

theorem Operation.clauseless_iff {operator : Operator} {metadata : Option Metadata} :
    Clauseless ⟨operator, metadata⟩
      ↔ operator.isClause = false ∧ (operator.isForm = true ∨ operator.Clauseless) := by
  rw [Clauseless, gather, ← Operator.ownClauses_eq_nil]
  cases isForm : operator.isForm with
  | true => simp [Gather.clauses, isForm]
  | false => simp [Gather.clauses, isForm, Operator.Clauseless, and_comm]

/-! ### Nothing is found -/

namespace Collecting

variable {α β : Type} {step : Collecting α}

/-- A step that finds no clauses. -/
abbrev FindsNothing (step : Collecting α) : Prop := step.Grants fun _ found => found = []

namespace FindsNothing

theorem pure (value : α) : FindsNothing (pure value) := Grants.pure rfl

theorem lift (result : Except LiftingError α) : FindsNothing (liftM result) :=
  Grants.lift .any fun _ _ => rfl

theorem bind {next : α → Collecting β} (first : step.FindsNothing)
    (goesOn : ∀ value, (next value).FindsNothing) : (step >>= next).FindsNothing :=
  Grants.bind first fun value found none => by
    subst none
    exact goesOn value

theorem lift_bind {result : Except LiftingError α} {next : α → Collecting β}
    (goesOn : ∀ value, (next value).FindsNothing) : (liftM result >>= next).FindsNothing :=
  (lift result).bind goesOn

theorem asElements {lifted : Collecting Lifted} (first : lifted.FindsNothing) :
    lifted.asElements.FindsNothing :=
  first.bind fun lifted => lift lifted.asElements

theorem asQuery (modifier : String) {lifted : Collecting Lifted} (first : lifted.FindsNothing) :
    (lifted.asQuery modifier).FindsNothing :=
  first.bind fun lifted => lift (lifted.asQuery modifier)

end FindsNothing

end Collecting

open Collecting (FindsNothing)

mutual

/-- Nothing is found in an operation without clauses, unless a query form is around it. -/
theorem Operation.Clauseless.findsNothing : ∀ {operation : Operation}, operation.Clauseless →
    (operation.written false).FindsNothing
  | ⟨operator, _⟩, clauseless =>
    have ⟨noClause, parts⟩ := Operation.clauseless_iff.1 clauseless
    Operator.findsNothing operator noClause parts

private theorem Operator.findsNothing : ∀ operator : Operator, operator.isClause = false →
    operator.isForm = true ∨ operator.Clauseless → (operator.written false).FindsNothing
  | .bgp [], _, _ => .pure _
  | .bgp (first :: rest), _, _ => by
    rw [Operator.written]
    · exact .lift_bind fun triples => .pure _
    · exact nofun
  | .values vars rows, _, _ => by
    rw [Operator.written]
    exact .lift_bind fun rows => .pure _
  | .nop, _, _ => .pure _
  | .path subject predicate object graph, _, _ => by
    rw [Operator.written]
    split
    · exact .lift_bind fun _ => .lift_bind fun _ => .lift_bind fun _ => .pure _
    · trivial
  | .manage _, _, _ => trivial
  | .wrap (.project vars) input, _, _ => by
    rw [Operator.written]
    exact .lift_bind fun scope => .pure _
  | .wrap (.graph name) input, _, parts => by
    rw [Operator.written]
    have ofInput : input.Clauseless := parts.resolve_left Bool.false_ne_true
    exact .lift_bind fun name => (Operation.Clauseless.findsNothing ofInput).asElements.bind
      fun elements => .pure _
  | .wrap (.service name silent) input, _, parts => by
    rw [Operator.written]
    have ofInput : input.Clauseless := parts.resolve_left Bool.false_ne_true
    exact .lift_bind fun endpoint => (Operation.Clauseless.findsNothing ofInput).asElements.bind
      fun elements => .pure _
  | .wrap .distinct input, _, parts => by
    rw [Operator.written]
    have ofInput : input.Clauseless := parts.resolve_left Bool.false_ne_true
    exact ((Operation.Clauseless.findsNothing ofInput).asQuery "distinct").bind fun query =>
      .lift_bind fun query => .pure _
  | .wrap .reduced input, _, parts => by
    rw [Operator.written]
    have ofInput : input.Clauseless := parts.resolve_left Bool.false_ne_true
    exact ((Operation.Clauseless.findsNothing ofInput).asQuery "reduced").bind fun query =>
      .lift_bind fun query => .pure _
  | .wrap (.slice start length) input, _, parts => by
    rw [Operator.written]
    have ofInput : input.Clauseless := parts.resolve_left Bool.false_ne_true
    exact ((Operation.Clauseless.findsNothing ofInput).asQuery "slice").bind fun query => .pure _
  | .wrap (.dataset default named) input, _, parts => by
    rw [Operator.written]
    have ofInput : input.Clauseless := parts.resolve_left Bool.false_ne_true
    exact ((Operation.Clauseless.findsNothing ofInput).asQuery "from").bind fun query => .pure _
  | .wrap .ask input, _, _ => by
    rw [Operator.written]
    exact .lift_bind fun scope => .pure _
  | .wrap (.describe terms) input, _, _ => by
    rw [Operator.written]
    exact .lift_bind fun scope => .lift_bind fun target => .pure _
  | .filter input condition, _, parts => by
    obtain ⟨ofInput, ofCondition⟩ :=
      List.append_eq_nil_iff.1 (parts.resolve_left Bool.false_ne_true)
    rw [Operator.written]
    exact (Operation.Clauseless.findsNothing ofInput).asElements.bind fun elements =>
      (Expression.Clauseless.findsNothing ofCondition).bind fun condition => .pure _
  | .extend input name value, _, parts => by
    obtain ⟨ofInput, ofValue⟩ :=
      List.append_eq_nil_iff.1 (parts.resolve_left Bool.false_ne_true)
    rw [Operator.written]
    exact (Operation.Clauseless.findsNothing ofInput).asElements.bind fun elements =>
      (Expression.Clauseless.findsNothing ofValue).bind fun value => .pure _
  | .construct input template, _, _ => by
    rw [Operator.written]
    exact .lift_bind fun scope => .lift_bind fun triples => .pure _
  | .combine .join inputs, _, parts => by
    rw [Operator.written]
    exact (Operation.allFindNothing inputs (parts.resolve_left Bool.false_ne_true)).bind
      fun parts => .pure _
  | .combine .union inputs, _, parts => by
    rw [Operator.written]
    exact (Operation.allFindNothing inputs (parts.resolve_left Bool.false_ne_true)).bind
      fun parts => .pure _
  | .combine .updates inputs, _, _ => trivial
  | .leftJoin left right none, _, parts => by
    obtain ⟨ofLeft, ofRight⟩ :=
      List.append_eq_nil_iff.1 (parts.resolve_left Bool.false_ne_true)
    rw [Operator.written, Expression.optionalFilter]
    exact (Operation.Clauseless.findsNothing ofLeft).asElements.bind fun elements =>
      (Operation.Clauseless.findsNothing ofRight).asElements.bind fun optional =>
        (FindsNothing.pure _).bind fun filters => .pure _
  | .leftJoin left right (some condition), _, parts => by
    obtain ⟨ofSides, ofCondition⟩ :=
      List.append_eq_nil_iff.1 (parts.resolve_left Bool.false_ne_true)
    obtain ⟨ofLeft, ofRight⟩ := List.append_eq_nil_iff.1 ofSides
    rw [Operator.written, Expression.optionalFilter]
    exact (Operation.Clauseless.findsNothing ofLeft).asElements.bind fun elements =>
      (Operation.Clauseless.findsNothing ofRight).asElements.bind fun optional =>
        ((Expression.Clauseless.findsNothing ofCondition).bind fun condition => .pure _).bind
          fun filters => .pure _
  | .minus left right, _, parts => by
    obtain ⟨ofLeft, ofRight⟩ :=
      List.append_eq_nil_iff.1 (parts.resolve_left Bool.false_ne_true)
    rw [Operator.written]
    exact (Operation.Clauseless.findsNothing ofLeft).asElements.bind fun elements =>
      (Operation.Clauseless.findsNothing ofRight).asElements.bind fun removed => .pure _
  | .deleteInsert .., _, _ => trivial

private theorem Operation.allFindNothing : ∀ operations : List Operation,
    Operation.gatherAll .clauses operations = [] →
    (Operation.allElements operations).FindsNothing
  | [], _ => .pure _
  | operation :: rest, clauseless => by
    obtain ⟨first, others⟩ := List.append_eq_nil_iff.1 clauseless
    rw [Operation.allElements]
    exact (Operation.Clauseless.findsNothing first).asElements.bind fun elements =>
      (Operation.allFindNothing rest others).bind fun parts => .pure _

/-- Nothing is found in an expression that asks about nothing with clauses. -/
theorem Expression.Clauseless.findsNothing : ∀ {expression : Expression}, expression.Clauseless →
    expression.written.FindsNothing
  | .term value, _ => by
    rw [Expression.written]
    exact .lift _
  | .call callee arguments, clauseless => by
    rw [Expression.written]
    refine (Expression.allFindNothing arguments (List.append_eq_nil_iff.1 clauseless).1).bind
      fun arguments => ?_
    cases callee with
    | operator name => exact .lift _
    | function name => exact .pure _
  | .aggregate name argument distinct separator, clauseless => by
    have ofArgument : argument.Clauseless := (List.append_eq_nil_iff.1 clauseless).1
    rw [Expression.written]
    refine .lift_bind fun function => ?_
    split
    · exact .pure _
    · exact (Expression.Clauseless.findsNothing ofArgument).bind fun argument => .pure _
  | .existence negated input, clauseless => by
    have ofInput : input.Clauseless := (List.append_eq_nil_iff.1 clauseless).1
    rw [Expression.written]
    exact (Operation.Clauseless.findsNothing ofInput).asElements.bind fun elements => .pure _
  | .wildcard, _ => trivial

private theorem Expression.allFindNothing : ∀ expressions : List Expression,
    Expression.gatherAll .clauses expressions = [] →
    (Expression.allWritten expressions).FindsNothing
  | [], _ => .pure _
  | expression :: rest, clauseless => by
    obtain ⟨first, others⟩ := List.append_eq_nil_iff.1 clauseless
    rw [Expression.allWritten]
    exact (Expression.Clauseless.findsNothing first).bind fun value =>
      (Expression.allFindNothing rest others).bind fun values => .pure _

end

/-! ### Rebuilding -/

/-- A rebuilding that adds no clauses. -/
structure Rebuild.KeepsClauseless (change : Rebuild) : Prop where
  expression {expression : Expression} :
    expression.Clauseless → (change.expression expression).Clauseless
  operation {operation : Operation} :
    operation.Clauseless → (change.operation operation).Clauseless

theorem Operator.isForm_rebuild (change : Rebuild) (operator : Operator) :
    (operator.rebuild change).isForm = operator.isForm := by
  cases operator with
  | wrap wrapper input => cases wrapper <;> rw [rebuild] <;> rfl
  | leftJoin left right condition => cases condition <;> rw [rebuild] <;> rfl
  | deleteInsert delete insert scope => cases scope <;> rw [rebuild] <;> rfl
  | _ => rw [rebuild] <;> rfl

theorem Operator.isClause_rebuild (change : Rebuild) (operator : Operator) :
    (operator.rebuild change).isClause = operator.isClause := by
  cases operator with
  | leftJoin left right condition => cases condition <;> rw [rebuild] <;> rfl
  | deleteInsert delete insert scope => cases scope <;> rw [rebuild] <;> rfl
  | _ => rw [rebuild] <;> rfl

variable {change : Rebuild}

private theorem flatMap_clauses (place : Place) (patterns : List Pattern) :
    patterns.flatMap (Gather.clauses.pattern place) = [] :=
  List.flatMap_eq_nil_iff.2 fun _ _ => rfl

mutual

theorem Operation.Clauseless.rebuild (keeps : change.KeepsClauseless) :
    ∀ {operation : Operation}, operation.Clauseless → (operation.rebuild change).Clauseless
  | ⟨operator, metadata⟩, clauseless => by
    rw [Operation.rebuild]
    split
    · exact clauseless
    · obtain ⟨noClause, parts⟩ := Operation.clauseless_iff.1 clauseless
      refine keeps.operation (Operation.clauseless_iff.2 ⟨?_, ?_⟩)
      · rwa [Operator.isClause_rebuild]
      · rw [Operator.isForm_rebuild]
        exact parts.imp_right (Operator.Clauseless.rebuild keeps operator)

private theorem Operator.Clauseless.rebuild (keeps : change.KeepsClauseless) :
    ∀ operator : Operator, operator.Clauseless → (operator.rebuild change).Clauseless
  | .bgp patterns, _ => by
    rw [Operator.rebuild]
    exact flatMap_clauses .bgp _
  | .values .., _ | .nop, _ | .path .., _ | .manage _, _ => by
    rw [Operator.rebuild]
    rfl
  | .wrap wrapper input, clauseless => by
    rw [Operator.rebuild]
    have ofInput : input.Clauseless := clauseless
    exact Operation.Clauseless.rebuild keeps ofInput
  | .filter input condition, clauseless => by
    obtain ⟨ofInput, ofCondition⟩ := List.append_eq_nil_iff.1 clauseless
    rw [Operator.rebuild]
    exact List.append_eq_nil_iff.2 ⟨Operation.Clauseless.rebuild keeps ofInput,
      Expression.Clauseless.rebuild keeps ofCondition⟩
  | .extend input name value, clauseless => by
    obtain ⟨ofInput, ofValue⟩ := List.append_eq_nil_iff.1 clauseless
    rw [Operator.rebuild]
    exact List.append_eq_nil_iff.2 ⟨Operation.Clauseless.rebuild keeps ofInput,
      Expression.Clauseless.rebuild keeps ofValue⟩
  | .group input keys aggregates, clauseless => by
    obtain ⟨ofInput, ofAggregates⟩ := List.append_eq_nil_iff.1 clauseless
    rw [Operator.rebuild]
    exact List.append_eq_nil_iff.2 ⟨Operation.Clauseless.rebuild keeps ofInput,
      BoundAggregate.allClauseless_rebuild keeps aggregates ofAggregates⟩
  | .orderBy input keys, clauseless => by
    obtain ⟨ofInput, ofKeys⟩ := List.append_eq_nil_iff.1 clauseless
    rw [Operator.rebuild]
    exact List.append_eq_nil_iff.2 ⟨Operation.Clauseless.rebuild keeps ofInput,
      Expression.allClauseless_rebuild keeps keys ofKeys⟩
  | .construct input template, clauseless => by
    obtain ⟨ofInput, _⟩ := List.append_eq_nil_iff.1 clauseless
    rw [Operator.rebuild]
    exact List.append_eq_nil_iff.2
      ⟨Operation.Clauseless.rebuild keeps ofInput, flatMap_clauses .template _⟩
  | .combine how inputs, clauseless => by
    rw [Operator.rebuild]
    exact Operation.allClauseless_rebuild keeps inputs clauseless
  | .leftJoin left right none, clauseless => by
    obtain ⟨ofLeft, ofRight⟩ := List.append_eq_nil_iff.1 clauseless
    rw [Operator.rebuild]
    exact List.append_eq_nil_iff.2
      ⟨Operation.Clauseless.rebuild keeps ofLeft, Operation.Clauseless.rebuild keeps ofRight⟩
  | .leftJoin left right (some condition), clauseless => by
    obtain ⟨ofSides, ofCondition⟩ := List.append_eq_nil_iff.1 clauseless
    obtain ⟨ofLeft, ofRight⟩ := List.append_eq_nil_iff.1 ofSides
    rw [Operator.rebuild]
    exact List.append_eq_nil_iff.2 ⟨List.append_eq_nil_iff.2
      ⟨Operation.Clauseless.rebuild keeps ofLeft, Operation.Clauseless.rebuild keeps ofRight⟩,
      Expression.Clauseless.rebuild keeps ofCondition⟩
  | .minus left right, clauseless => by
    obtain ⟨ofLeft, ofRight⟩ := List.append_eq_nil_iff.1 clauseless
    rw [Operator.rebuild]
    exact List.append_eq_nil_iff.2
      ⟨Operation.Clauseless.rebuild keeps ofLeft, Operation.Clauseless.rebuild keeps ofRight⟩
  | .deleteInsert delete insert none, _ => by
    rw [Operator.rebuild]
    exact List.append_eq_nil_iff.2 ⟨flatMap_clauses .delete _, flatMap_clauses .insert _⟩
  | .deleteInsert delete insert (some scope), clauseless => by
    obtain ⟨_, ofScope⟩ := List.append_eq_nil_iff.1 clauseless
    rw [Operator.rebuild]
    exact List.append_eq_nil_iff.2 ⟨List.append_eq_nil_iff.2
      ⟨flatMap_clauses .delete _, flatMap_clauses .insert _⟩,
      Operation.Clauseless.rebuild keeps ofScope⟩

theorem Expression.Clauseless.rebuild (keeps : change.KeepsClauseless) :
    ∀ {expression : Expression}, expression.Clauseless → (expression.rebuild change).Clauseless
  | .term _, clauseless | .wildcard, clauseless => by
    rw [Expression.rebuild]
    exact keeps.expression clauseless
  | .call callee arguments, clauseless => by
    obtain ⟨ofArguments, own⟩ := List.append_eq_nil_iff.1 clauseless
    rw [Expression.rebuild]
    exact keeps.expression (List.append_eq_nil_iff.2
      ⟨Expression.allClauseless_rebuild keeps arguments ofArguments, own⟩)
  | .aggregate _ argument _ _, clauseless => by
    obtain ⟨ofArgument, own⟩ := List.append_eq_nil_iff.1 clauseless
    have again := @Expression.Clauseless.rebuild keeps argument ofArgument
    rw [Expression.rebuild]
    exact keeps.expression (List.append_eq_nil_iff.2 ⟨again, own⟩)
  | .existence _ input, clauseless => by
    obtain ⟨ofInput, own⟩ := List.append_eq_nil_iff.1 clauseless
    have again := @Operation.Clauseless.rebuild keeps input ofInput
    rw [Expression.rebuild]
    exact keeps.expression (List.append_eq_nil_iff.2 ⟨again, own⟩)

private theorem Operation.allClauseless_rebuild (keeps : change.KeepsClauseless) :
    ∀ operations : List Operation, Operation.gatherAll .clauses operations = [] →
    Operation.gatherAll .clauses (Operation.rebuildAll change operations) = []
  | [], _ => rfl
  | operation :: rest, clauseless => by
    obtain ⟨first, others⟩ := List.append_eq_nil_iff.1 clauseless
    exact List.append_eq_nil_iff.2 ⟨Operation.Clauseless.rebuild keeps first,
      Operation.allClauseless_rebuild keeps rest others⟩

private theorem Expression.allClauseless_rebuild (keeps : change.KeepsClauseless) :
    ∀ expressions : List Expression, Expression.gatherAll .clauses expressions = [] →
    Expression.gatherAll .clauses (Expression.rebuildAll change expressions) = []
  | [], _ => rfl
  | expression :: rest, clauseless => by
    obtain ⟨first, others⟩ := List.append_eq_nil_iff.1 clauseless
    exact List.append_eq_nil_iff.2 ⟨Expression.Clauseless.rebuild keeps first,
      Expression.allClauseless_rebuild keeps rest others⟩

private theorem BoundAggregate.allClauseless_rebuild (keeps : change.KeepsClauseless) :
    ∀ aggregates : List BoundAggregate, BoundAggregate.gatherAll .clauses aggregates = [] →
    BoundAggregate.gatherAll .clauses (BoundAggregate.rebuildAll change aggregates) = []
  | [], _ => rfl
  | ⟨_, expression⟩ :: rest, clauseless => by
    obtain ⟨first, others⟩ := List.append_eq_nil_iff.1 clauseless
    exact List.append_eq_nil_iff.2 ⟨Expression.Clauseless.rebuild keeps first,
      BoundAggregate.allClauseless_rebuild keeps rest others⟩

end

/-! ### Graph names -/

namespace Operation

theorem clauseless_bgp (patterns : List Pattern) : (bgp patterns).Clauseless :=
  clauseless_iff.2 ⟨rfl, .inr (flatMap_clauses .bgp patterns)⟩

theorem Clauseless.graph {input : Operation} (clauseless : input.Clauseless) (name : Term) :
    (input.graph name).Clauseless :=
  clauseless_iff.2 ⟨rfl, .inr clauseless⟩

theorem gatherAll_clauses {operations : List Operation} :
    gatherAll .clauses operations = [] ↔ ∀ operation ∈ operations, operation.Clauseless := by
  induction operations with
  | nil => simp [gatherAll]
  | cons operation rest ih =>
    rw [gatherAll, List.append_eq_nil_iff, ih, List.forall_mem_cons, Clauseless]

theorem clauseless_join {inputs : List Operation}
    (clauseless : ∀ input ∈ inputs, input.Clauseless) : (join inputs).Clauseless := by
  refine clauseless_iff.2 ⟨rfl, .inr (gatherAll_clauses.2 fun part member => ?_)⟩
  obtain ⟨input, isInput, isPart⟩ := List.mem_flatMap.1 member
  have ofInput := clauseless input isInput
  unfold parts at isPart
  split at isPart
  · split at isPart
    · have ofParts := (clauseless_iff.1 ofInput).2.resolve_left Bool.false_ne_true
      exact gatherAll_clauses.1 ofParts part isPart
    · exact List.mem_singleton.1 isPart ▸ ofInput
  · exact List.mem_singleton.1 isPart ▸ ofInput

private theorem clearing_keepsClauseless (name : Term) : (clearing name).KeepsClauseless where
  expression := id
  operation {operation} clauseless := by
    obtain ⟨operator, metadata⟩ := operation
    cases operator with
    | path => exact clauseless_iff.2 ⟨rfl, .inr rfl⟩
    | _ => exact clauseless

private theorem clearingBlocks_keepsClauseless : clearingBlocks.KeepsClauseless where
  expression := id
  operation {operation} clauseless := by
    obtain ⟨operator, metadata⟩ := operation
    cases isBlock : operator.isGraph with
    | false => rwa [clearingBlocks_same operator metadata isBlock]
    | true =>
      cases operator with
      | wrap wrapper input =>
        cases wrapper with
        | graph name =>
          have ofInput : input.Clauseless :=
            (clauseless_iff.1 clauseless).2.resolve_left Bool.false_ne_true
          exact clauseless_iff.2
            ⟨rfl, .inr (ofInput.rebuild (clearing_keepsClauseless name))⟩
        | _ => cases isBlock
      | _ => cases isBlock

private theorem clauseless_splitByGraph (patterns : List Pattern) (metadata : Option Metadata) :
    Clauseless ⟨.splitByGraph patterns, metadata⟩ := by
  have ofParts : ∀ part ∈ (Pattern.byGraph patterns).map ofGraphPart, part.Clauseless := by
    intro part member
    obtain ⟨⟨name, others⟩, _, rfl⟩ := List.mem_map.1 member
    rw [ofGraphPart]
    split
    · exact clauseless_bgp _
    · exact (clauseless_bgp _).graph _
  rw [Operator.splitByGraph]
  split
  · exact clauseless_bgp patterns
  · split
    · rename_i part isOnly
      have ofPart := ofParts part (isOnly ▸ List.mem_singleton_self part)
      obtain ⟨operator, _⟩ := part
      exact ofPart
    · exact clauseless_join ofParts

private theorem wrapping_keepsClauseless : wrapping.KeepsClauseless where
  expression := id
  operation {operation} clauseless := by
    obtain ⟨operator, metadata⟩ := operation
    cases operator with
    | bgp patterns => exact clauseless_splitByGraph patterns metadata
    | path subject predicate object graph =>
      show Clauseless (if graph.isDefaultGraph = true then _ else _)
      split
      · exact clauseless
      · have ofPath : Clauseless ⟨.path subject predicate object .defaultGraph, metadata⟩ := rfl
        exact ofPath.graph graph
    | _ => exact clauseless

/-- Taking graph names out of an operation adds no clauses to it. -/
theorem Clauseless.withoutEmbeddedGraphs {operation : Operation}
    (clauseless : operation.Clauseless) : operation.withoutEmbeddedGraphs.Clauseless :=
  (clauseless.rebuild clearingBlocks_keepsClauseless).rebuild wrapping_keepsClauseless

end Operation

/-- An expression with no graph named in what it asks about. -/
def Expression.withoutEmbeddedGraphs (expression : Expression) : Expression :=
  (expression.rebuild Operation.clearingBlocks).rebuild Operation.wrapping

theorem Expression.Clauseless.withoutEmbeddedGraphs {expression : Expression}
    (clauseless : expression.Clauseless) : expression.withoutEmbeddedGraphs.Clauseless :=
  (clauseless.rebuild Operation.clearingBlocks_keepsClauseless).rebuild
    Operation.wrapping_keepsClauseless

end QueryAlgebra
