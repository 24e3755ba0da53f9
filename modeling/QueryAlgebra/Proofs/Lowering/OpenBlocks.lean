import QueryAlgebra.Proofs.Lowering.AdmittedParts
import QueryAlgebra.Proofs.Lowering.LikePatterns
import QueryAlgebra.Proofs.Lowering.EmbeddedSites
import QueryAlgebra.Proofs.Operation.NamedGraphs

/-! # Graph blocks that hide no names

An operation is open if nothing in it hides variables: it has no projections, bindings, templates or
updates. The name of a graph block goes into an open operation without new variables, and just into
the patterns and paths that stand in no other block: `Context.embedGraph_open`. Patterns without
bindings and subqueries become open operations: `Context.pattern_open`.
-/

namespace QueryAlgebra

open Lowering (Agree Alike Yields)

/-- Whether the operator hides or binds variables, or has templates. -/
def Operator.hides : Operator → Bool
  | .wrap (.project _) _ => true
  | .extend .. => true
  | .construct .. => true
  | .deleteInsert .. => true
  | _ => false

/-- The operators of an operation. -/
def Gather.operators : Gather Operator where
  closed _ := false
  pattern _ _ := []
  expression _ := []
  operator operator := [operator]

/-- None of the operators hides variables. -/
def AllOpen (operators : List Operator) : Prop := ∀ operator ∈ operators, operator.hides = false

namespace AllOpen

variable {first second : List Operator} {operator : Operator}

theorem nil : AllOpen [] := List.forall_mem_nil _

theorem append : AllOpen (first ++ second) ↔ AllOpen first ∧ AllOpen second :=
  List.forall_mem_append

theorem single : AllOpen [operator] ↔ operator.hides = false := List.forall_mem_singleton

end AllOpen

/-- Nothing in the operation hides variables. -/
def Operation.IsOpen (operation : Operation) : Prop := AllOpen (operation.gather .operators)

/-- Nothing that the expression asks about hides variables. -/
def Expression.IsOpen (expression : Expression) : Prop := AllOpen (expression.gather .operators)

theorem Operation.isOpen_iff {operator : Operator} {metadata : Option Metadata} :
    IsOpen ⟨operator, metadata⟩
      ↔ AllOpen (operator.gather .operators) ∧ operator.hides = false := by
  rw [IsOpen, gather]
  exact AllOpen.append.trans (and_congr_right fun _ => AllOpen.single)

/-! ### The name of a block goes into open operations -/

section

variable {choose : Term → Term} {block block' : Term} {operator : Operator}

@[simp] theorem Operator.setsGraph_inGraphs :
    (operator.inGraphs choose block).setsGraph = operator.setsGraph := by
  rw [Operator.inGraphs_eq_place, Operator.setsGraph_place]

/-- What is around a block does not matter inside. -/
theorem Operator.inGraphs_of_setsGraph (isBlock : operator.setsGraph = true) :
    operator.inGraphs choose block = operator.inGraphs choose block' := by
  cases operator with
  | wrap wrapper input =>
    cases wrapper with
    | graph | service => rfl
    | _ => cases isBlock
  | _ => cases isBlock

end

namespace Context

variable (context : Context) {name : Term}

private theorem filled_patterns (patterns : List Pattern) :
    (patterns.map (·.inGraph .defaultGraph)).map (Embedding.pattern ⟨name, none, true⟩)
      = patterns.map (·.inGraph name) := by
  rw [List.map_map]
  rfl

mutual

/-- The name of a block goes into the patterns and paths that stand in no other block. -/
private theorem embed_open (named : name.asGraph = name) : ∀ operation : Operation,
    operation.IsOpen →
    context.embed ⟨name, none, true⟩ (operation.inGraphs Term.asGraph .defaultGraph)
      = pure (operation.inGraphs Term.asGraph name)
  | ⟨operator, metadata⟩, isOpen => by
    rw [Operation.inGraphs, Operation.inGraphs, embed, Operator.setsGraph_inGraphs]
    cases isBlock : operator.setsGraph with
    | true =>
      -- The embedding is idle: what is inside has got the name of this block.
      rw [Operator.inGraphs_of_setsGraph isBlock]
      rfl
    | false =>
      obtain ⟨ofParts, shows⟩ := Operation.isOpen_iff.1 isOpen
      rw [Embedding.inside_false, embedOperator_open named operator isBlock shows ofParts,
        pure_bind]
      rfl

private theorem embedOperator_open (named : name.asGraph = name) : ∀ operator : Operator,
    operator.setsGraph = false → operator.hides = false →
    AllOpen (operator.gather .operators) →
    context.embedOperator ⟨name, none, true⟩ (operator.inGraphs Term.asGraph .defaultGraph)
      = pure (operator.inGraphs Term.asGraph name)
  | .bgp patterns, _, _, _ => by
    rw [Operator.inGraphs, Operator.inGraphs, embedOperator, named]
    exact congrArg (fun patterns => pure (Operator.bgp patterns)) (filled_patterns patterns)
  | .values vars rows, _, _, _ => by
    rw [Operator.inGraphs, Operator.inGraphs, embedOperator]
    exact congrArg₂ (fun vars rows => pure (Operator.values vars rows)) (List.map_id vars)
      (List.map_id rows)
  | .nop, _, _, _ => rfl
  | .manage _, _, _, _ => rfl
  | .path subject predicate object _, _, _, _ => by
    rw [Operator.inGraphs, Operator.inGraphs, embedOperator, named]
    rfl
  | .wrap wrapper input, isPlain, shows, isOpen => by
    cases wrapper with
    | graph | service => cases isPlain
    | project => cases shows
    | distinct | reduced | slice | dataset | ask | describe =>
      rw [Operator.inGraphs, Operator.inGraphs, embedOperator_wrap, ← Embedding.wrapper_eq]
      · exact (congrArg (· >>= _) (embed_open named input isOpen)).trans (pure_bind _ _)
      · exact fun _ => nofun
  | .filter input condition, _, _, isOpen => by
    obtain ⟨ofInput, ofCondition⟩ := AllOpen.append.1 isOpen
    simp only [Operator.inGraphs, embedOperator, embed_open named input ofInput,
      embedExpression_open named condition ofCondition, pure_bind]
  | .group input keys aggregates, _, _, isOpen => by
    obtain ⟨ofInput, ofAggregates⟩ := AllOpen.append.1 isOpen
    simp only [Operator.inGraphs, embedOperator, embed_open named input ofInput,
      embedAggregates_open named aggregates ofAggregates, pure_bind]
    exact congrArg (fun keys => pure (Operator.group _ keys _)) (List.map_id keys)
  | .orderBy input keys, _, _, isOpen => by
    obtain ⟨ofInput, ofKeys⟩ := AllOpen.append.1 isOpen
    simp only [Operator.inGraphs, embedOperator, embed_open named input ofInput,
      embedExpressions_open named keys ofKeys, pure_bind]
  | .combine how inputs, _, _, isOpen => by
    simp only [Operator.inGraphs, embedOperator, embedAll_open named inputs isOpen, pure_bind]
  | .leftJoin left right none, _, _, isOpen => by
    obtain ⟨ofLeft, ofRight⟩ := AllOpen.append.1 isOpen
    simp only [Operator.inGraphs, embedOperator, embed_open named left ofLeft,
      embed_open named right ofRight, pure_bind]
  | .leftJoin left right (some condition), _, _, isOpen => by
    obtain ⟨ofSides, ofCondition⟩ := AllOpen.append.1 isOpen
    obtain ⟨ofLeft, ofRight⟩ := AllOpen.append.1 ofSides
    simp only [Operator.inGraphs, embedOperator, embed_open named left ofLeft,
      embed_open named right ofRight, embedExpression_open named condition ofCondition, pure_bind]
  | .minus left right, _, _, isOpen => by
    obtain ⟨ofLeft, ofRight⟩ := AllOpen.append.1 isOpen
    simp only [Operator.inGraphs, embedOperator, embed_open named left ofLeft,
      embed_open named right ofRight, pure_bind]

private theorem embedExpression_open (named : name.asGraph = name) : ∀ expression : Expression,
    expression.IsOpen →
    context.embedExpression ⟨name, none, true⟩ (expression.inGraphs Term.asGraph .defaultGraph)
      = pure (expression.inGraphs Term.asGraph name)
  | .term _, _ | .wildcard, _ => rfl
  | .call _ arguments, isOpen => by
    have ofArguments := (AllOpen.append.1 isOpen).1
    simp only [Expression.inGraphs, embedExpression,
      embedExpressions_open named arguments ofArguments, pure_bind]
  | .aggregate _ argument _ _, isOpen => by
    have ofArgument := (AllOpen.append.1 isOpen).1
    simp only [Expression.inGraphs, embedExpression,
      embedExpression_open named argument ofArgument, pure_bind]
  | .existence _ input, isOpen => by
    have ofInput := (AllOpen.append.1 isOpen).1
    simp only [Expression.inGraphs, embedExpression, embed_open named input ofInput, pure_bind]

private theorem embedAll_open (named : name.asGraph = name) : ∀ operations : List Operation,
    AllOpen (Operation.gatherAll .operators operations) →
    context.embedAll ⟨name, none, true⟩
        (Operation.allInGraphs Term.asGraph .defaultGraph operations)
      = pure (Operation.allInGraphs Term.asGraph name operations)
  | [], _ => rfl
  | operation :: rest, isOpen => by
    obtain ⟨ofFirst, ofRest⟩ := AllOpen.append.1 isOpen
    simp only [Operation.allInGraphs, embedAll, embed_open named operation ofFirst,
      embedAll_open named rest ofRest, pure_bind]

private theorem embedExpressions_open (named : name.asGraph = name) :
    ∀ expressions : List Expression, AllOpen (Expression.gatherAll .operators expressions) →
    context.embedExpressions ⟨name, none, true⟩
        (Expression.allInGraphs Term.asGraph .defaultGraph expressions)
      = pure (Expression.allInGraphs Term.asGraph name expressions)
  | [], _ => rfl
  | expression :: rest, isOpen => by
    obtain ⟨ofFirst, ofRest⟩ := AllOpen.append.1 isOpen
    simp only [Expression.allInGraphs, embedExpressions,
      embedExpression_open named expression ofFirst, embedExpressions_open named rest ofRest,
      pure_bind]

private theorem embedAggregates_open (named : name.asGraph = name) :
    ∀ aggregates : List BoundAggregate, AllOpen (BoundAggregate.gatherAll .operators aggregates) →
    context.embedAggregates ⟨name, none, true⟩
        (BoundAggregate.allInGraphs Term.asGraph .defaultGraph aggregates)
      = pure (BoundAggregate.allInGraphs Term.asGraph name aggregates)
  | [], _ => rfl
  | ⟨_, expression⟩ :: rest, isOpen => by
    obtain ⟨ofFirst, ofRest⟩ := AllOpen.append.1 isOpen
    simp only [BoundAggregate.allInGraphs, embedAggregates,
      embedExpression_open named expression ofFirst, embedAggregates_open named rest ofRest,
      pure_bind]
    rfl

end

/-- The name of a graph block goes into what is open without new variables. -/
theorem embedGraph_open (named : name.asGraph = name) {operation : Operation}
    (isOpen : operation.IsOpen) :
    context.embedGraph name operation.inBlockGraphs = pure (operation.inGraphs Term.asGraph name) :=
  embed_open context named operation isOpen

end Context

/-! ### Patterns without bindings are open -/

/-- The operators of patterns without bindings are open. -/
theorem admits_open : Gather.operators.Admits (Operator.hides · = false) False where
  closed _ := rfl
  pattern _ _ := rfl
  expression _ := rfl
  bgp _ := AllOpen.single.2 rfl
  path _ _ _ _ := AllOpen.single.2 rfl
  combine _ _ := AllOpen.single.2 rfl
  leftJoin _ _ _ := AllOpen.single.2 rfl
  minus _ _ := AllOpen.single.2 rfl
  filter _ _ := AllOpen.single.2 rfl
  service _ _ _ := AllOpen.single.2 rfl
  extend := False.elim
  wrap := False.elim
  group := False.elim
  orderBy := False.elim
  construct := False.elim

/-- What is open, related to itself. -/
def Likeness.opens : Likeness := .admitting .operators (Operator.hides · = false)

namespace Context

variable {context : Context}

/-- Where graph names stay out of patterns, bindings and subqueries alone hide names. -/
theorem keeps_opens (inDefault : context.factory.defaultGraph = .defaultGraph)
    (quads : context.quads = false) :
    context.Keeps context.quads .opens (·.isBinding = false) False where
  closed := Likeness.admitting_closed admits_open
  defaultGraph := inDefault
  triples written supply operation after success :=
    ⟨admits_open.ofPieces (context.basicGraphPattern_yields written supply operation after success),
      rfl⟩
  data written supply operation after success := by
    obtain ⟨vars, rows, rfl⟩ := context.inlineData_yields written supply operation after success
    exact ⟨Operation.isOpen_iff.2 ⟨.nil, rfl⟩, rfl⟩
  binding plain isBinding := by
    rw [plain] at isBinding
    cases isBinding
  graph _ _ _ alike := by
    obtain ⟨isOpen, rfl⟩ := alike
    rw [quads]
    exact .ok ⟨Operation.isOpen_iff.2 ⟨isOpen, rfl⟩, rfl⟩

/-- A pattern without bindings and subqueries becomes an open operation. -/
theorem pattern_open (inDefault : context.factory.defaultGraph = .defaultGraph)
    (quads : context.quads = false) {written : Surface.Pattern}
    (plain : ∀ inner ∈ written.within, inner.isBinding = false) :
    Yields Operation.IsOpen (context.pattern written) := by
  have agree := agree_pattern (keeps_opens inDefault quads) written plain
  rw [withQuads_self] at agree
  exact agree.yields

end Context

end QueryAlgebra
