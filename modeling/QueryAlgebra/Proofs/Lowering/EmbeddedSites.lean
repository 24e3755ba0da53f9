import QueryAlgebra.Proofs.Lowering.Outcomes
import QueryAlgebra.Proofs.Lowering.WellFormedBlocks
import QueryAlgebra.Proofs.Operation.PatternSites

/-! # Graph names reach patterns and paths

When the name of a graph block is put into an operation whose patterns and paths stand in the
default graph, they come to stand in the graph of that name, unless a block inside says otherwise;
those in values that are bound to variables may be passed by. The renaming that goes on through
inner blocks keeps every pattern in the graph that the block around it says.
-/

namespace QueryAlgebra

/-- A pattern or path names the graph that the block around it says, or the given one if there is no
block inside. In a value that is bound, and if the whole is such a value, it may stand in the default
graph. -/
def PatternSite.Held (graph : Term) (loose : Bool) (site : PatternSite) : Prop :=
  site.graph = site.block.getD graph
    ∨ (site.bound = true ∨ loose = true ∧ site.block = none) ∧ site.graph = .defaultGraph

namespace PatternSite

variable {graph name : Term} {loose : Bool}

theorem held_within {site : PatternSite} :
    (site.within name).Held graph loose ↔ site.Held name false := by
  obtain ⟨block, bound, own⟩ := site
  cases block <;> simp [within, Held]

theorem held_inValue {site : PatternSite} :
    site.inValue.Held graph loose ↔ site.Held graph true := by
  obtain ⟨block, bound, own⟩ := site
  cases block <;> simp [inValue, Held]

theorem held_bare {own : Term} :
    (bare own).Held graph loose ↔ own = graph ∨ loose = true ∧ own = .defaultGraph := by
  simp [bare, Held]

/-- What is in the default graph is held by any graph if it may be passed by. -/
theorem Held.passed {site : PatternSite} (held : site.Held .defaultGraph true) :
    site.Held graph true := by
  obtain ⟨block, bound, own⟩ := site
  cases block with
  | none => exact .inr ⟨.inr ⟨rfl, rfl⟩, held.elim id (·.2)⟩
  | some block => exact held.imp id fun ⟨isBound, same⟩ =>
      ⟨.inl (isBound.resolve_right fun ⟨_, isNone⟩ => nomatch isNone), same⟩

theorem Held.loosen {site : PatternSite} (held : site.Held graph false) :
    site.Held graph loose :=
  held.imp id fun ⟨isBound, same⟩ => ⟨.inl (isBound.resolve_right nofun), same⟩

end PatternSite

/-- All sites are held. -/
def AllHeld (graph : Term) (loose : Bool) (sites : List PatternSite) : Prop :=
  ∀ site ∈ sites, site.Held graph loose

namespace AllHeld

variable {graph graph' name : Term} {loose : Bool} {first second : List PatternSite}

@[simp] theorem nil : AllHeld graph loose [] := List.forall_mem_nil _

@[simp] theorem append : AllHeld graph loose (first ++ second)
    ↔ AllHeld graph loose first ∧ AllHeld graph loose second := List.forall_mem_append

@[simp] theorem inValue :
    AllHeld graph loose (first.map .inValue) ↔ AllHeld graph true first :=
  List.forall_mem_map.trans
    ⟨fun held site member => PatternSite.held_inValue.1 (held site member),
      fun held site member => PatternSite.held_inValue.2 (held site member)⟩

@[simp] theorem within :
    AllHeld graph loose (first.map (·.within name)) ↔ AllHeld name false first :=
  List.forall_mem_map.trans
    ⟨fun held site member => PatternSite.held_within.1 (held site member),
      fun held site member => PatternSite.held_within.2 (held site member)⟩

@[simp] theorem patterns {patterns : List Pattern} :
    AllHeld graph loose (Pattern.sites patterns) ↔ ∀ pattern ∈ patterns,
      pattern.graph = graph ∨ loose = true ∧ pattern.graph = .defaultGraph :=
  List.forall_mem_map.trans
    ⟨fun held site member => PatternSite.held_bare.1 (held site member),
      fun held site member => PatternSite.held_bare.2 (held site member)⟩

@[simp] theorem path {own : Term} : AllHeld graph loose [.bare own]
    ↔ own = graph ∨ loose = true ∧ own = .defaultGraph := by
  simp [AllHeld, PatternSite.held_bare]

theorem around {wrapper : Wrapper} (block : wrapper.block? = some name) :
    AllHeld graph loose (wrapper.around first) ↔ AllHeld name false first := by
  rw [Wrapper.around, block, within]

/-- What is in a block does not depend on what is around the block. -/
theorem of_setsGraph {operator : Operator} (isBlock : operator.setsGraph = true)
    (held : AllHeld graph loose operator.sites) : AllHeld graph' loose operator.sites := by
  cases operator with
  | wrap wrapper input =>
    cases wrapper with
    | graph | service => exact within.2 (within.1 held)
    | _ => cases isBlock
  | _ => cases isBlock

end AllHeld

namespace Embedding

/-- The name is not the default graph, and patterns of the first graph come into the second: either
the name goes into those of the default graph, or it is replaced. -/
def Moves (embedding : Embedding) (graph graph' : Term) : Prop :=
  embedding.name ≠ .defaultGraph
    ∧ (embedding.fills = true ∧ graph = .defaultGraph ∧ graph' = embedding.name
      ∨ embedding.fills = false ∧ embedding.replacement.isSome = true
        ∧ graph' = embedding.substitute graph)

variable {embedding : Embedding} {source target : Term} {loose : Bool}

@[simp] theorem inside_false : embedding.inside false = embedding := by
  simp [inside]

theorem substitute_defaultGraph (named : embedding.name ≠ .defaultGraph) :
    embedding.substitute .defaultGraph = .defaultGraph := by
  unfold substitute
  split
  · exact if_neg named.symm
  · rfl

/-- A pattern or path comes into its graph. -/
theorem Moves.own (moves : embedding.Moves source target) {own : Term}
    (held : own = source ∨ loose = true ∧ own = .defaultGraph) :
    embedding.graph own = target ∨ loose = true ∧ embedding.graph own = .defaultGraph := by
  obtain ⟨named, ⟨fills, rfl, rfl⟩ | ⟨fills, -, rfl⟩⟩ := moves
  · obtain rfl : own = .defaultGraph := held.elim id (·.2)
    exact .inl (by simp [Embedding.graph, fills, Term.isDefaultGraph])
  · have same : embedding.graph own = embedding.substitute own := by simp [Embedding.graph, fills]
    rw [same]
    exact held.imp (congrArg _) fun ⟨isLoose, isDefault⟩ =>
      ⟨isLoose, isDefault ▸ substitute_defaultGraph named⟩

theorem Moves.patterns (moves : embedding.Moves source target) {patterns : List Pattern}
    (held : AllHeld source loose (Pattern.sites patterns)) :
    AllHeld target loose (Pattern.sites (patterns.map embedding.pattern)) :=
  AllHeld.patterns.2 (List.forall_mem_map.2 fun pattern member =>
    moves.own (AllHeld.patterns.1 held pattern member))

theorem Moves.optional (moves : embedding.Moves source target) {patterns : Option (List Pattern)}
    (held : AllHeld source loose (Pattern.sites (patterns.getD []))) :
    AllHeld target loose
      (Pattern.sites ((patterns.map (·.map embedding.pattern)).getD [])) := by
  cases patterns with
  | none => exact .nil
  | some patterns => exact moves.patterns held

/-- Without a replacement, what may be passed by is left where it is. -/
theorem Moves.passed (moves : embedding.Moves source target)
    (isNone : embedding.replacement.isNone = true) {sites : List PatternSite}
    (held : AllHeld source true sites) : AllHeld target true sites := by
  obtain ⟨-, ⟨-, rfl, rfl⟩ | ⟨-, isSome, -⟩⟩ := moves
  · exact fun site member => (held site member).passed
  · rw [Option.isNone_iff_eq_none.1 isNone] at isSome
    cases isSome

/-- Where nothing changes, patterns and paths are in their graphs. -/
theorem Moves.idle (moves : embedding.Moves source target) {operator : Operator}
    (isIdle : embedding.isIdle operator.setsGraph = true)
    (held : AllHeld source loose operator.sites) : AllHeld target loose operator.sites := by
  obtain ⟨-, ⟨fills, -, -⟩ | ⟨-, isSome, -⟩⟩ := moves
  · simp only [Embedding.isIdle, fills, Bool.and_eq_true, Bool.not_true, Bool.or_false] at isIdle
    exact AllHeld.of_setsGraph isIdle.2 held
  · simp only [Embedding.isIdle, Bool.and_eq_true, Option.isNone_iff_eq_none] at isIdle
    simp [isIdle.1] at isSome

/-- Inside a block, patterns come along with the name of the block. -/
theorem Moves.inside (moves : embedding.Moves source target)
    (renames : embedding.replacement.isSome = true) (name : Term) :
    (embedding.inside true).Moves name (embedding.substitute name) :=
  ⟨moves.1, .inr ⟨Bool.and_false _, renames, rfl⟩⟩

theorem block?_mapOwnTerms (named : embedding.name ≠ .defaultGraph) {wrapper : Wrapper}
    {name : Term}
    (block : wrapper.block? = some name) :
    (wrapper.mapOwnTerms embedding.substitute).block? = some (embedding.substitute name) := by
  cases wrapper with
  | graph own => cases block; rfl
  | service => cases block; exact congrArg some (substitute_defaultGraph named).symm
  | _ => cases block

end Embedding

namespace Context

open Lowering (Yields)

variable {context : Context}

theorem shadow_moves {embedding : Embedding} {graph graph' : Term}
    (moves : embedding.Moves graph graph') (hidden : Bool) :
    Yields (fun below : Embedding => below.Moves graph graph')
      (context.shadow embedding hidden) := by
  unfold shadow
  split
  · rename_i isHidden
    obtain ⟨named, ⟨fills, rfl, rfl⟩ | ⟨-, isSome, -⟩⟩ := moves
    · exact .bind_any fun new => .pure ⟨named, .inl ⟨fills, rfl, rfl⟩⟩
    · simp [Option.isNone_iff_eq_none] at isHidden
      simp [isHidden.2] at isSome
  · exact .pure moves

mutual

/-- Patterns and paths come into their graphs when a name is put into an operation. -/
theorem embed_holds : ∀ (operation : Operation) {embedding : Embedding} {graph graph' : Term}
    {loose : Bool}, embedding.Moves graph graph' → AllHeld graph loose operation.sites →
    Yields (fun operation : Operation => AllHeld graph' loose operation.sites)
      (context.embed embedding operation)
  | ⟨operator, metadata⟩, embedding, graph, graph', loose, moves, held => by
    rw [embed]
    split
    · rename_i isIdle
      exact .pure (moves.idle isIdle held)
    · rename_i busy
      cases isBlock : operator.setsGraph with
      | true =>
        -- Without a replacement the embedding would be idle here.
        have renames : embedding.replacement.isSome = true := by
          rw [Option.isSome_iff_ne_none]
          intro isNone
          simp [Embedding.isIdle, isBlock, isNone] at busy
        exact (embedBlock_holds operator isBlock renames moves held).bind fun _ held => .pure held
      | false =>
        rw [Embedding.inside_false]
        exact (embedOperator_holds operator isBlock moves held).bind fun _ held => .pure held

theorem embedBlock_holds : ∀ (operator : Operator) {embedding : Embedding} {graph graph' : Term}
    {loose : Bool}, operator.setsGraph = true → embedding.replacement.isSome = true →
    embedding.Moves graph graph' → AllHeld graph loose operator.sites →
    Yields (fun operator : Operator => AllHeld graph' loose operator.sites)
      (context.embedOperator (embedding.inside true) operator)
  | operator, embedding, graph, graph', loose, isBlock, renames, moves, held => by
    cases operator with
    | wrap wrapper input =>
      have other (vars : List Variable) : wrapper ≠ .project vars := by
        rintro rfl
        cases isBlock
      have block : ∃ name, wrapper.block? = some name := by
        cases wrapper with
        | graph name => exact ⟨name, rfl⟩
        | service => exact ⟨.defaultGraph, rfl⟩
        | _ => cases isBlock
      obtain ⟨name, block⟩ := block
      have below := moves.inside renames name
      rw [embedOperator_wrap _ _ _ other]
      refine (embed_holds input below ((AllHeld.around block).1 held)).bind fun input held => .pure ?_
      exact (AllHeld.around (Embedding.block?_mapOwnTerms below.1 block)).2 held
    | _ => cases isBlock

theorem embedOperator_holds : ∀ (operator : Operator) {embedding : Embedding} {graph graph' : Term}
    {loose : Bool}, operator.setsGraph = false → embedding.Moves graph graph' →
    AllHeld graph loose operator.sites →
    Yields (fun operator : Operator => AllHeld graph' loose operator.sites)
      (context.embedOperator embedding operator)
  | .bgp patterns, _, _, _, _, _, moves, held => .pure (moves.patterns held)
  | .values .., _, _, _, _, _, _, _ => .pure .nil
  | .nop, _, _, _, _, _, _, _ => .pure .nil
  | .path .., _, _, _, _, _, moves, held => .pure (AllHeld.path.2 (moves.own (AllHeld.path.1 held)))
  | .manage _, _, _, _, _, _, _, _ => .pure .nil
  | .wrap wrapper input, _, _, _, _, isPlain, moves, held => by
    cases wrapper with
    | graph | service => cases isPlain
    | project vars =>
      rw [embedOperator, Embedding.wrapper_eq]
      exact (shadow_moves moves _).bind fun below moves =>
        (embed_holds input moves held).bind fun _ held => .pure held
    | distinct | reduced | slice | dataset | ask | describe =>
      rw [embedOperator_wrap]
      · exact (embed_holds input moves held).bind fun _ held => .pure held
      · exact fun _ => nofun
  | .filter input condition, _, _, _, _, _, moves, held => by
    rw [Operator.sites, AllHeld.append] at held
    rw [embedOperator]
    exact (embed_holds input moves held.1).bind fun _ ofInput =>
      (embedExpression_holds condition moves held.2).bind fun _ ofCondition =>
        .pure (AllHeld.append.2 ⟨ofInput, ofCondition⟩)
  | .extend input name value, embedding, graph, graph', loose, _, moves, held => by
    rw [Operator.sites, AllHeld.append, AllHeld.inValue] at held
    have finish : ∀ {input' : Operation}, AllHeld graph' loose input'.sites →
        Yields (fun operator : Operator => AllHeld graph' loose operator.sites)
          (do
            let value ←
              if embedding.replacement.isNone then pure value
              else context.embedExpression embedding value
            pure (.extend input' (embedding.var name) value)) := by
      intro input' ofInput
      have ofValue : ∀ {value' : Expression}, AllHeld graph' true value'.sites →
          Yields (fun operator : Operator => AllHeld graph' loose operator.sites)
            (pure (.extend input' (embedding.var name) value')) :=
        fun ofValue => .pure (AllHeld.append.2 ⟨ofInput, AllHeld.inValue.2 ofValue⟩)
      split
      · rename_i isNone
        exact ofValue (moves.passed isNone held.2)
      · exact (embedExpression_holds value moves held.2).bind fun _ => ofValue
    rw [embedOperator]
    exact (shadow_moves moves _).bind fun below moves =>
      (embed_holds input moves held.1).bind fun _ => finish
  | .group input keys aggregates, _, _, _, _, _, moves, held => by
    rw [Operator.sites, AllHeld.append] at held
    rw [embedOperator]
    exact (embed_holds input moves held.1).bind fun _ ofInput =>
      (embedAggregates_holds aggregates moves held.2).bind fun _ ofAggregates =>
        .pure (AllHeld.append.2 ⟨ofInput, ofAggregates⟩)
  | .orderBy input keys, _, _, _, _, _, moves, held => by
    rw [Operator.sites, AllHeld.append] at held
    rw [embedOperator]
    exact (embed_holds input moves held.1).bind fun _ ofInput =>
      (embedExpressions_holds keys moves held.2).bind fun _ ofKeys =>
        .pure (AllHeld.append.2 ⟨ofInput, ofKeys⟩)
  | .construct input template, _, _, _, _, _, moves, held => by
    rw [Operator.sites, AllHeld.append] at held
    rw [embedOperator]
    exact (embed_holds input moves held.1).bind fun _ ofInput =>
      .pure (AllHeld.append.2 ⟨ofInput, moves.patterns held.2⟩)
  | .combine how inputs, _, _, _, _, _, moves, held => by
    rw [embedOperator]
    exact (embedAll_holds inputs moves held).bind fun _ held => .pure held
  | .leftJoin left right none, _, _, _, _, _, moves, held => by
    rw [Operator.sites, AllHeld.append] at held
    rw [embedOperator]
    exact (embed_holds left moves held.1).bind fun _ ofLeft =>
      (embed_holds right moves held.2).bind fun _ ofRight =>
        .pure (AllHeld.append.2 ⟨ofLeft, ofRight⟩)
  | .leftJoin left right (some condition), _, _, _, _, _, moves, held => by
    rw [Operator.sites, AllHeld.append, AllHeld.append] at held
    rw [embedOperator]
    exact (embed_holds left moves held.1.1).bind fun _ ofLeft =>
      (embed_holds right moves held.1.2).bind fun _ ofRight =>
      (embedExpression_holds condition moves held.2).bind fun _ ofCondition =>
        .pure (AllHeld.append.2 ⟨AllHeld.append.2 ⟨ofLeft, ofRight⟩, ofCondition⟩)
  | .minus left right, _, _, _, _, _, moves, held => by
    rw [Operator.sites, AllHeld.append] at held
    rw [embedOperator]
    exact (embed_holds left moves held.1).bind fun _ ofLeft =>
      (embed_holds right moves held.2).bind fun _ ofRight =>
        .pure (AllHeld.append.2 ⟨ofLeft, ofRight⟩)
  | .deleteInsert delete insert none, _, _, _, _, _, moves, held => by
    rw [Operator.sites, AllHeld.append] at held
    rw [embedOperator]
    exact .pure (AllHeld.append.2 ⟨moves.optional held.1, moves.optional held.2⟩)
  | .deleteInsert delete insert (some scope), _, _, _, _, _, moves, held => by
    rw [Operator.sites, AllHeld.append, AllHeld.append] at held
    rw [embedOperator]
    exact (embed_holds scope moves held.2).bind fun _ ofScope =>
      .pure (AllHeld.append.2
        ⟨AllHeld.append.2 ⟨moves.optional held.1.1, moves.optional held.1.2⟩, ofScope⟩)

theorem embedExpression_holds : ∀ (expression : Expression) {embedding : Embedding}
    {graph graph' : Term} {loose : Bool}, embedding.Moves graph graph' →
    AllHeld graph loose expression.sites →
    Yields (fun expression : Expression => AllHeld graph' loose expression.sites)
      (context.embedExpression embedding expression)
  | .term value, _, _, _, _, _, _ => .pure .nil
  | .call callee arguments, _, _, _, _, moves, held => by
    rw [embedExpression]
    exact (embedExpressions_holds arguments moves held).bind fun _ held => .pure held
  | .aggregate name argument distinct separator, _, _, _, _, moves, held => by
    rw [embedExpression]
    exact (embedExpression_holds argument moves held).bind fun _ held => .pure held
  | .existence negated input, _, _, _, _, moves, held => by
    rw [embedExpression]
    exact (embed_holds input moves held).bind fun _ held => .pure held
  | .wildcard, _, _, _, _, _, _ => .pure .nil

theorem embedAll_holds : ∀ (operations : List Operation) {embedding : Embedding}
    {graph graph' : Term} {loose : Bool}, embedding.Moves graph graph' →
    AllHeld graph loose (Operation.sitesOfAll operations) →
    Yields (fun operations => AllHeld graph' loose (Operation.sitesOfAll operations))
      (context.embedAll embedding operations)
  | [], _, _, _, _, _, _ => .pure .nil
  | operation :: rest, _, _, _, _, moves, held => by
    rw [Operation.sitesOfAll, AllHeld.append] at held
    rw [embedAll]
    exact (embed_holds operation moves held.1).bind fun _ ofFirst =>
      (embedAll_holds rest moves held.2).bind fun _ ofRest =>
        .pure (AllHeld.append.2 ⟨ofFirst, ofRest⟩)

theorem embedExpressions_holds : ∀ (expressions : List Expression) {embedding : Embedding}
    {graph graph' : Term} {loose : Bool}, embedding.Moves graph graph' →
    AllHeld graph loose (Expression.sitesOfAll expressions) →
    Yields (fun expressions => AllHeld graph' loose (Expression.sitesOfAll expressions))
      (context.embedExpressions embedding expressions)
  | [], _, _, _, _, _, _ => .pure .nil
  | expression :: rest, _, _, _, _, moves, held => by
    rw [Expression.sitesOfAll, AllHeld.append] at held
    rw [embedExpressions]
    exact (embedExpression_holds expression moves held.1).bind fun _ ofFirst =>
      (embedExpressions_holds rest moves held.2).bind fun _ ofRest =>
        .pure (AllHeld.append.2 ⟨ofFirst, ofRest⟩)

theorem embedAggregates_holds : ∀ (aggregates : List BoundAggregate) {embedding : Embedding}
    {graph graph' : Term} {loose : Bool}, embedding.Moves graph graph' →
    AllHeld graph loose (BoundAggregate.sitesOfAll aggregates) →
    Yields (fun aggregates => AllHeld graph' loose (BoundAggregate.sitesOfAll aggregates))
      (context.embedAggregates embedding aggregates)
  | [], _, _, _, _, _, _ => .pure .nil
  | ⟨name, expression⟩ :: rest, _, _, _, _, moves, held => by
    rw [BoundAggregate.sitesOfAll, AllHeld.append] at held
    rw [embedAggregates]
    exact (embedExpression_holds expression moves held.1).bind fun _ ofFirst =>
      (embedAggregates_holds rest moves held.2).bind fun _ ofRest =>
        .pure (AllHeld.append.2 ⟨ofFirst, ofRest⟩)

end

end Context

end QueryAlgebra
