import QueryAlgebra.Lowering.GraphBlocks
import QueryAlgebra.Proofs.Lowering.WellFormedTerms
import QueryAlgebra.Proofs.NameMap

/-! # What graph blocks become

Putting the name of a graph block into its patterns, and new variables in place of the name where it
is hidden, keeps operations well-formed where patterns may name graphs.
-/

namespace QueryAlgebra

namespace Embedding

/-- An embedding of a name that may be the graph of patterns. -/
structure Suits (bounds : Bounds) (embedding : Embedding) : Prop where
  graphs : bounds.graphs
  name : embedding.name.IsName bounds
  replacement : ∀ new ∈ embedding.replacement, new.IsAllowed bounds

variable {bounds : Bounds} {embedding : Embedding}

theorem Suits.mono {wider : Bounds} (suits : embedding.Suits bounds) (le : bounds.Le wider) :
    embedding.Suits wider :=
  ⟨le.graphs suits.graphs, le.isName suits.name,
    fun new isNew => le.name _ (suits.replacement new isNew)⟩

theorem Suits.inside (suits : embedding.Suits bounds) (nested : Bool) :
    (embedding.inside nested).Suits bounds := ⟨suits.graphs, suits.name, suits.replacement⟩

/-- What replaces a term is the term itself or a variable. -/
private theorem substitute_cases (suits : embedding.Suits bounds) (term : Term) :
    embedding.substitute term = term
      ∨ ∃ new : Variable, new.IsAllowed bounds ∧ embedding.substitute term = .var new := by
  unfold substitute
  split
  · rename_i new isNew
    split
    · exact .inr ⟨new, suits.replacement new isNew, rfl⟩
    · exact .inl rfl
  · exact .inl rfl

theorem isNode_substitute (suits : embedding.Suits bounds) {term : Term}
    (isNode : term.IsNode bounds) : (embedding.substitute term).IsNode bounds := by
  rcases substitute_cases suits term with same | ⟨new, isAllowed, isVar⟩
  · rwa [same]
  · rw [isVar]
    exact isAllowed

theorem isName_substitute (suits : embedding.Suits bounds) {term : Term}
    (isName : term.IsName bounds) : (embedding.substitute term).IsName bounds := by
  rcases substitute_cases suits term with same | ⟨new, isAllowed, isVar⟩
  · rwa [same]
  · rw [isVar]
    exact isAllowed

theorem isValue_substitute (suits : embedding.Suits bounds) {term : Term}
    (isValue : term.IsValue bounds) : (embedding.substitute term).IsValue bounds := by
  rcases substitute_cases suits term with same | ⟨new, isAllowed, isVar⟩
  · rwa [same]
  · rw [isVar]
    exact isAllowed

theorem isGraph_graph (suits : embedding.Suits bounds) {term : Term}
    (isGraph : term.IsGraph bounds) : (embedding.graph term).IsGraph bounds := by
  unfold graph
  split
  · exact .inr ⟨suits.graphs, suits.name⟩
  · rcases substitute_cases suits term with same | ⟨new, isAllowed, isVar⟩
    · rwa [same]
    · rw [isVar]
      exact .inr ⟨suits.graphs, isAllowed⟩

theorem wellFormed_pattern (suits : embedding.Suits bounds) {pattern : Pattern}
    (wellFormed : pattern.WellFormed bounds) : (embedding.pattern pattern).WellFormed bounds :=
  ⟨isNode_substitute suits wellFormed.subject, isName_substitute suits wellFormed.predicate,
    isNode_substitute suits wellFormed.object, isGraph_graph suits wellFormed.graph⟩

theorem wellFormed_patterns (suits : embedding.Suits bounds) {patterns : List Pattern}
    (wellFormed : ∀ pattern ∈ patterns, pattern.WellFormed bounds) :
    ∀ pattern ∈ patterns.map embedding.pattern, pattern.WellFormed bounds := by
  intro pattern member
  obtain ⟨pattern, isPattern, rfl⟩ := List.mem_map.1 member
  exact wellFormed_pattern suits (wellFormed pattern isPattern)

theorem isAllowed_mapTerm (suits : embedding.Suits bounds) {name : Variable}
    (isAllowed : name.IsAllowed bounds) :
    (name.mapTerm embedding.substitute).IsAllowed bounds := by
  unfold Variable.mapTerm
  rcases substitute_cases suits (.var name) with same | ⟨new, ofNew, isVar⟩
  · rwa [same]
  · rwa [isVar]

theorem isAllowed_var (suits : embedding.Suits bounds) {name : Variable}
    (isAllowed : name.IsAllowed bounds) : (embedding.var name).IsAllowed bounds := by
  unfold var
  split
  · exact isAllowed_mapTerm suits isAllowed
  · exact isAllowed

theorem areAllowed_vars (suits : embedding.Suits bounds) {vars : List Variable}
    (areAllowed : ∀ name ∈ vars, name.IsAllowed bounds) :
    ∀ name ∈ vars.map embedding.var, name.IsAllowed bounds := by
  intro name member
  obtain ⟨name, isName, rfl⟩ := List.mem_map.1 member
  exact isAllowed_var suits (areAllowed name isName)

theorem wellFormed_rows (suits : embedding.Suits bounds) {rows : List Row}
    (wellFormed : ∀ row ∈ rows, row.WellFormed bounds) :
    ∀ row ∈ rows.map embedding.row, row.WellFormed bounds := by
  intro row member
  obtain ⟨row, isRow, rfl⟩ := List.mem_map.1 member
  unfold Embedding.row
  split
  · intro entry inMap
    obtain ⟨entry, inRow, rfl⟩ := List.mem_map.1 (NameMap.mem_of_mem_ofList inMap)
    obtain ⟨ofName, ofValue⟩ := wellFormed row isRow entry inRow
    have isAllowed : (⟨entry.1⟩ : Variable).IsAllowed bounds := ofName
    exact ⟨isAllowed_mapTerm suits isAllowed, isNode_substitute suits ofValue⟩
  · exact wellFormed row isRow

/-- Without a replacement, the terms of a wrapper stay as they are. -/
theorem wrapper_eq (embedding : Embedding) (wrapper : Wrapper) :
    embedding.wrapper wrapper = wrapper.mapOwnTerms embedding.substitute := by
  unfold Embedding.wrapper
  split
  · rfl
  · rename_i absent
    have same : embedding.substitute = id := by
      funext term
      rw [substitute, absent]
      rfl
    have sameVar : Variable.mapTerm id = id := rfl
    cases wrapper <;> simp [same, sameVar, Wrapper.mapOwnTerms]

end Embedding

namespace Context

open Lowering (Behaves)

variable {context : Context} {guarantee : Guarantee}

theorem behaves_shadow (suits : context.Suits guarantee) {embedding : Embedding}
    {supply : NameSupply} (ofEmbedding : embedding.Suits (guarantee.bounds supply)) (hidden : Bool) :
    Behaves guarantee.clean (fun after below => below.Suits (guarantee.bounds after))
      (context.shadow embedding hidden) supply := by
  unfold shadow
  split
  · refine (behaves_newVariable suits).bind fun new after gives isAllowed => .pure ?_
    have later := ofEmbedding.mono (guarantee.bounds_le gives)
    exact ⟨later.graphs, later.name, fun other isNew => Option.some.inj isNew ▸ isAllowed⟩
  · exact .pure ofEmbedding

/-- The input alone of an operator with one input may take names. -/
theorem embedOperator_wrap (embedding : Embedding) (wrapper : Wrapper) (input : Operation)
    (other : ∀ vars, wrapper ≠ .project vars) :
    context.embedOperator embedding (.wrap wrapper input)
      = (do
        let input ← context.embed embedding input
        pure (.wrap (wrapper.mapOwnTerms embedding.substitute) input)) := by
  rw [← Embedding.wrapper_eq]
  cases wrapper <;> first | rfl | exact absurd rfl (other _)

mutual

theorem behaves_embed (suits : context.Suits guarantee) : ∀ (operation : Operation)
    {embedding : Embedding} {supply : NameSupply} {select : Bool},
    embedding.Suits (guarantee.bounds supply) →
    operation.WellFormed (guarantee.bounds supply) select →
    Behaves guarantee.clean
      (fun after operation => operation.WellFormed (guarantee.bounds after) select)
      (context.embed embedding operation) supply
  | ⟨operator, metadata⟩, embedding, supply, select, ofEmbedding, wellFormed => by
    rw [embed]
    split
    · exact .pure wellFormed
    · exact (behaves_embedOperator suits operator (ofEmbedding.inside _) wellFormed).bind
        fun operator after gives wellFormed => .pure wellFormed

theorem behaves_embedOperator (suits : context.Suits guarantee) : ∀ (operator : Operator)
    {embedding : Embedding} {supply : NameSupply} {select : Bool},
    embedding.Suits (guarantee.bounds supply) →
    operator.WellFormed (guarantee.bounds supply) select →
    Behaves guarantee.clean
      (fun after operator => operator.WellFormed (guarantee.bounds after) select)
      (context.embedOperator embedding operator) supply
  | .bgp patterns, _, _, _, ofEmbedding, ⟨group, wellFormed⟩ =>
    .pure ⟨group, Embedding.wellFormed_patterns ofEmbedding wellFormed⟩
  | .values vars rows, _, _, _, ofEmbedding, ⟨group, ofVars, ofRows⟩ =>
    .pure ⟨group, Embedding.areAllowed_vars ofEmbedding ofVars,
      Embedding.wellFormed_rows ofEmbedding ofRows⟩
  | .path .., _, _, _, ofEmbedding, ⟨group, ofSubject, ofPredicate, ofObject, ofGraph⟩ =>
    .pure ⟨group, Embedding.isNode_substitute ofEmbedding ofSubject, ofPredicate,
      Embedding.isNode_substitute ofEmbedding ofObject, Embedding.isGraph_graph ofEmbedding ofGraph⟩
  | .nop, _, _, _, _, impossible | .manage _, _, _, _, _, impossible
  | .construct _ _, _, _, _, _, impossible | .deleteInsert _ _ _, _, _, _, _, impossible =>
    impossible.elim
  | .wrap wrapper input, embedding, _, _, ofEmbedding, wellFormed => by
    cases wrapper with
    | project vars =>
      obtain ⟨ofVars, ofInput⟩ := wellFormed
      rw [embedOperator, Embedding.wrapper_eq, Wrapper.mapOwnTerms]
      refine (behaves_shadow suits ofEmbedding _).bind fun below s₁ gives₁ ofBelow => ?_
      have le₁ := guarantee.bounds_le gives₁
      refine (behaves_embed suits input ofBelow (le₁.operation _ ofInput)).bind
        fun input s₂ gives₂ wellFormed => .pure ⟨fun name member => ?_, wellFormed⟩
      obtain ⟨name, inVars, rfl⟩ := List.mem_map.1 member
      exact (guarantee.bounds_le gives₂).name _ (le₁.name _
        (Embedding.isAllowed_mapTerm ofEmbedding (ofVars name inVars)))
    | graph name | service name =>
      obtain ⟨group, ofName, ofInput⟩ := wellFormed
      rw [embedOperator_wrap, Wrapper.mapOwnTerms]
      · refine (behaves_embed suits input ofEmbedding ofInput).bind
          fun input after gives wellFormed => .pure ⟨group, ?_, wellFormed⟩
        exact (guarantee.bounds_le gives).isName (Embedding.isName_substitute ofEmbedding ofName)
      · exact fun _ => nofun
    | distinct | reduced | slice =>
      rw [embedOperator_wrap]
      · exact (behaves_embed suits input ofEmbedding wellFormed).bind
          fun input after gives wellFormed => .pure wellFormed
      · exact fun _ => nofun
    | dataset default named =>
      obtain ⟨ofNodes, ofInput⟩ := wellFormed
      rw [embedOperator_wrap]
      · exact (behaves_embed suits input ofEmbedding ofInput).bind
          fun input after gives wellFormed => .pure (And.intro ofNodes wellFormed)
      · exact fun _ => nofun
    | ask | describe => cases wellFormed
  | .filter input condition, _, _, _, ofEmbedding, ⟨group, ofInput, ofCondition⟩ => by
    rw [embedOperator]
    refine (behaves_embed suits input ofEmbedding ofInput).bind fun input s₁ gives₁ input₁ => ?_
    have le₁ := guarantee.bounds_le gives₁
    refine (behaves_embedExpression suits condition (ofEmbedding.mono le₁)
      (le₁.expression _ ofCondition)).bind fun condition s₂ gives₂ condition₂ => .pure ?_
    exact ⟨group, (guarantee.bounds_le gives₂).operation _ input₁, condition₂⟩
  | .extend input name value, embedding, _, select, ofEmbedding, ⟨group, ofInput, ofName, ofValue⟩ => by
    rw [embedOperator]
    refine (behaves_shadow suits ofEmbedding _).bind fun below s₁ gives₁ ofBelow => ?_
    have le₁ := guarantee.bounds_le gives₁
    refine (behaves_embed suits input ofBelow (le₁.operation _ ofInput)).bind
      fun input s₂ gives₂ input₂ => ?_
    have le₂ := guarantee.bounds_le (gives₁.trans gives₂)
    have finish : ∀ {s₃ value}, s₂.Gives s₃ → value.WellFormed (guarantee.bounds s₃) false →
        Operator.WellFormed (guarantee.bounds s₃) select
          (.extend input (embedding.var name) value) := by
      intro s₃ value gives₃ wellFormed
      have le₃ := guarantee.bounds_le gives₃
      refine ⟨group, le₃.operation _ input₂, le₃.name _ (le₂.name _ ?_), wellFormed⟩
      exact Embedding.isAllowed_var ofEmbedding ofName
    show Behaves _ _ (if _ then _ else _) _
    split
    · exact .pure (finish (.refl _) (le₂.expression _ ofValue))
    · exact (behaves_embedExpression suits value (ofEmbedding.mono le₂)
        (le₂.expression _ ofValue)).bind fun value s₃ gives₃ value₃ => .pure (finish gives₃ value₃)
  | .group input keys aggregates, _, _, _, ofEmbedding, ⟨group, ofInput, ofKeys, ofAggregates⟩ => by
    rw [embedOperator]
    refine (behaves_embed suits input ofEmbedding ofInput).bind fun input s₁ gives₁ input₁ => ?_
    have le₁ := guarantee.bounds_le gives₁
    refine (behaves_embedAggregates suits aggregates (ofEmbedding.mono le₁)
      (le₁.aggregates _ ofAggregates)).bind fun aggregates s₂ gives₂ aggregates₂ => .pure ?_
    have le₂ := guarantee.bounds_le gives₂
    exact ⟨group, le₂.operation _ input₁, fun name member => le₂.name _ (le₁.name _
      (Embedding.areAllowed_vars ofEmbedding ofKeys name member)), aggregates₂⟩
  | .orderBy input keys, _, _, _, ofEmbedding, ⟨group, ofInput, ofKeys⟩ => by
    rw [embedOperator]
    refine (behaves_embed suits input ofEmbedding ofInput).bind fun input s₁ gives₁ input₁ => ?_
    have le₁ := guarantee.bounds_le gives₁
    refine (behaves_embedExpressions suits keys (ofEmbedding.mono le₁)
      (le₁.expressions _ ofKeys)).bind fun keys s₂ gives₂ keys₂ => .pure ?_
    exact ⟨group, (guarantee.bounds_le gives₂).operation _ input₁, keys₂.1⟩
  | .combine .join inputs, _, _, _, ofEmbedding, ⟨group, ofInputs⟩ => by
    rw [embedOperator]
    exact (behaves_embedAll suits inputs ofEmbedding ofInputs).bind
      fun inputs after gives wellFormed => .pure ⟨group, wellFormed⟩
  | .combine .union inputs, _, _, _, ofEmbedding, ⟨group, ofInputs⟩ => by
    rw [embedOperator]
    exact (behaves_embedAll suits inputs ofEmbedding ofInputs).bind
      fun inputs after gives wellFormed => .pure ⟨group, wellFormed⟩
  | .leftJoin left right none, _, _, _, ofEmbedding, ⟨group, ofLeft, ofRight⟩ => by
    rw [embedOperator]
    refine (behaves_embed suits left ofEmbedding ofLeft).bind fun left s₁ gives₁ left₁ => ?_
    have le₁ := guarantee.bounds_le gives₁
    refine (behaves_embed suits right (ofEmbedding.mono le₁) (le₁.operation _ ofRight)).bind
      fun right s₂ gives₂ right₂ => .pure ?_
    exact ⟨group, (guarantee.bounds_le gives₂).operation _ left₁, right₂⟩
  | .leftJoin left right (some condition), _, _, _, ofEmbedding,
      ⟨group, ofLeft, ofRight, ofCondition⟩ => by
    rw [embedOperator]
    refine (behaves_embed suits left ofEmbedding ofLeft).bind fun left s₁ gives₁ left₁ => ?_
    have le₁ := guarantee.bounds_le gives₁
    refine (behaves_embed suits right (ofEmbedding.mono le₁) (le₁.operation _ ofRight)).bind
      fun right s₂ gives₂ right₂ => ?_
    have le₂ := guarantee.bounds_le gives₂
    refine (behaves_embedExpression suits condition ((ofEmbedding.mono le₁).mono le₂)
      (le₂.expression _ (le₁.expression _ ofCondition))).bind
      fun condition s₃ gives₃ condition₃ => .pure ?_
    have le₃ := guarantee.bounds_le gives₃
    exact ⟨group, le₃.operation _ (le₂.operation _ left₁), le₃.operation _ right₂, condition₃⟩
  | .minus left right, _, _, _, ofEmbedding, ⟨group, ofLeft, ofRight⟩ => by
    rw [embedOperator]
    refine (behaves_embed suits left ofEmbedding ofLeft).bind fun left s₁ gives₁ left₁ => ?_
    have le₁ := guarantee.bounds_le gives₁
    refine (behaves_embed suits right (ofEmbedding.mono le₁) (le₁.operation _ ofRight)).bind
      fun right s₂ gives₂ right₂ => .pure ?_
    exact ⟨group, (guarantee.bounds_le gives₂).operation _ left₁, right₂⟩

theorem behaves_embedExpression (suits : context.Suits guarantee) : ∀ (expression : Expression)
    {embedding : Embedding} {supply : NameSupply} {key : Bool},
    embedding.Suits (guarantee.bounds supply) →
    expression.WellFormed (guarantee.bounds supply) key →
    Behaves guarantee.clean
      (fun after expression => expression.WellFormed (guarantee.bounds after) key)
      (context.embedExpression embedding expression) supply
  | .term value, _, _, _, ofEmbedding, isValue => by
    rw [embedExpression]
    exact .pure (Embedding.isValue_substitute ofEmbedding isValue)
  | .call (.operator name) arguments, _, _, _, ofEmbedding, ⟨takes, ofArguments⟩ => by
    rw [embedExpression]
    refine (behaves_embedExpressions suits arguments ofEmbedding ofArguments).bind
      fun arguments after gives result => .pure ⟨?_, result.1⟩
    rw [result.2]
    exact takes
  | .call (.function name) arguments, _, _, _, ofEmbedding, ⟨full, ofArguments⟩ => by
    rw [embedExpression]
    exact (behaves_embedExpressions suits arguments ofEmbedding ofArguments).bind
      fun arguments after gives result => .pure ⟨full, result.1⟩
  | .aggregate name argument distinct separator, _, _, _, ofEmbedding, ⟨known, ofArgument⟩ => by
    rw [embedExpression]
    rcases ofArgument with rfl | ofArgument
    · rw [embedExpression]
      exact .pure ⟨known, .inl rfl⟩
    · exact (behaves_embedExpression suits argument ofEmbedding ofArgument).bind
        fun argument after gives wellFormed => .pure ⟨known, .inr wellFormed⟩
  | .existence negated input, _, _, _, ofEmbedding, wellFormed => by
    rw [embedExpression]
    exact (behaves_embed suits input ofEmbedding wellFormed).bind
      fun input after gives wellFormed => .pure wellFormed

theorem behaves_embedAll (suits : context.Suits guarantee) : ∀ (operations : List Operation)
    {embedding : Embedding} {supply : NameSupply},
    embedding.Suits (guarantee.bounds supply) →
    Operation.allWellFormed (guarantee.bounds supply) operations →
    Behaves guarantee.clean
      (fun after operations => Operation.allWellFormed (guarantee.bounds after) operations)
      (context.embedAll embedding operations) supply
  | [], _, _, _, _ => .pure trivial
  | operation :: rest, _, _, ofEmbedding, ⟨first, others⟩ => by
    rw [embedAll]
    refine (behaves_embed suits operation ofEmbedding first).bind
      fun operation s₁ gives₁ operation₁ => ?_
    have le₁ := guarantee.bounds_le gives₁
    refine (behaves_embedAll suits rest (ofEmbedding.mono le₁) (le₁.operations _ others)).bind
      fun operations s₂ gives₂ operations₂ => .pure ?_
    exact ⟨(guarantee.bounds_le gives₂).operation _ operation₁, operations₂⟩

theorem behaves_embedExpressions (suits : context.Suits guarantee) :
    ∀ (expressions : List Expression) {embedding : Embedding} {supply : NameSupply} {key : Bool},
    embedding.Suits (guarantee.bounds supply) →
    Expression.allWellFormed (guarantee.bounds supply) key expressions →
    Behaves guarantee.clean
      (fun after result => Expression.allWellFormed (guarantee.bounds after) key result
        ∧ result.length = expressions.length)
      (context.embedExpressions embedding expressions) supply
  | [], _, _, _, _, _ => .pure ⟨trivial, rfl⟩
  | expression :: rest, _, _, _, ofEmbedding, ⟨first, others⟩ => by
    rw [embedExpressions]
    refine (behaves_embedExpression suits expression ofEmbedding first).bind
      fun expression s₁ gives₁ expression₁ => ?_
    have le₁ := guarantee.bounds_le gives₁
    refine (behaves_embedExpressions suits rest (ofEmbedding.mono le₁)
      (le₁.expressions _ others)).bind fun expressions s₂ gives₂ result => .pure ?_
    exact ⟨⟨(guarantee.bounds_le gives₂).expression _ expression₁, result.1⟩,
      congrArg (· + 1) result.2⟩

theorem behaves_embedAggregates (suits : context.Suits guarantee) :
    ∀ (aggregates : List BoundAggregate) {embedding : Embedding} {supply : NameSupply},
    embedding.Suits (guarantee.bounds supply) →
    BoundAggregate.allWellFormed (guarantee.bounds supply) aggregates →
    Behaves guarantee.clean
      (fun after aggregates => BoundAggregate.allWellFormed (guarantee.bounds after) aggregates)
      (context.embedAggregates embedding aggregates) supply
  | [], _, _, _, _ => .pure trivial
  | ⟨name, expression⟩ :: rest, embedding, _, ofEmbedding, ⟨⟨ofName, first⟩, others⟩ => by
    rw [embedAggregates]
    refine (behaves_embedExpression suits expression ofEmbedding first).bind
      fun expression s₁ gives₁ expression₁ => ?_
    have le₁ := guarantee.bounds_le gives₁
    refine (behaves_embedAggregates suits rest (ofEmbedding.mono le₁)
      (le₁.aggregates _ others)).bind fun aggregates s₂ gives₂ aggregates₂ => .pure ?_
    have le₂ := guarantee.bounds_le gives₂
    exact ⟨⟨le₂.name _ (le₁.name _ (Embedding.isAllowed_var ofEmbedding ofName)),
      le₂.expression _ expression₁⟩, aggregates₂⟩

end

/-- Where patterns may name graphs, the name of a graph block goes into them. -/
theorem behaves_embedGraph (suits : context.Suits guarantee) {name : Term} {operation : Operation}
    {supply : NameSupply} {select : Bool} (graphs : guarantee.graphs)
    (isName : name.IsName (guarantee.bounds supply))
    (wellFormed : operation.WellFormed (guarantee.bounds supply) select) :
    Behaves guarantee.clean
      (fun after operation => operation.WellFormed (guarantee.bounds after) select)
      (context.embedGraph name operation) supply :=
  behaves_embed suits operation ⟨graphs, isName, fun new isNew => absurd isNew (Option.not_mem_none new)⟩
    wellFormed

end Context

end QueryAlgebra
