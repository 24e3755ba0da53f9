import QueryAlgebra.Lowering.Pattern
import QueryAlgebra.Proofs.Lowering.Translation
import QueryAlgebra.Proofs.Lowering.WellFormedAggregates
import QueryAlgebra.Proofs.Lowering.WellFormedBlocks
import QueryAlgebra.Proofs.Lowering.WellFormedTriples
import QueryAlgebra.Proofs.Surface.ScopeNames

/-! # What patterns, expressions and subqueries become

Every pattern becomes an operation that may stand in a group, every expression a well-formed one,
and a SELECT query the operation of a query that shows variables.
-/

namespace QueryAlgebra

open Surface (BinaryOp Builtin UnaryOp)

section

variable {bounds : Bounds}

/-! ### Expressions -/

/-- An expression may be the key of an order. -/
theorem Expression.WellFormed.key {expression : Expression}
    (wellFormed : expression.WellFormed bounds false) : expression.WellFormed bounds true := by
  cases expression with
  | call callee arguments =>
    cases callee with
    | operator name =>
      have takes := wellFormed.1.resolve_left fun isKey => Bool.false_ne_true isKey.1
      exact ⟨.inr takes, wellFormed.2⟩
    | function name => exact wellFormed
  | _ => exact wellFormed

/-- A key in its direction is well-formed. -/
private theorem wellFormed_orderKey (direction : Surface.Direction) {value : Expression}
    (wellFormed : value.WellFormed bounds false) :
    (Context.orderKey direction value).WellFormed bounds true := by
  cases direction with
  | ascending => exact wellFormed.key
  | descending => exact ⟨.inl ⟨rfl, rfl, rfl⟩, wellFormed, trivial⟩

private theorem wellFormed_operator {name : String} {arguments : List Expression}
    (takes : bounds.strict → operatorTakes name arguments.length = true)
    (wellFormed : ∀ argument ∈ arguments, argument.WellFormed bounds false) :
    (Expression.operator name arguments).WellFormed bounds false :=
  ⟨.inr takes, Expression.allWellFormed_iff.2 wellFormed⟩

/-! ### Operations laid over each other -/

theorem isPattern_simplifiedJoin {left right : Operation} (ofLeft : left.IsPattern bounds)
    (ofRight : right.IsPattern bounds) : (simplifiedJoin left right).IsPattern bounds := by
  unfold simplifiedJoin
  split
  · exact Operation.isPattern_bgp (List.forall_mem_append.2 ⟨ofLeft.2, ofRight.2⟩)
  · split
    · exact ofRight
    · split
      · exact ofLeft
      · exact Operation.isPattern_join
          (List.forall_mem_cons.2 ⟨ofLeft, List.forall_mem_singleton.2 ofRight⟩)

theorem isPattern_leftJoinOf {left right : Operation} (ofLeft : left.IsPattern bounds)
    (ofRight : right.IsPattern bounds) : (leftJoinOf left right).IsPattern bounds := by
  unfold leftJoinOf
  split
  · exact ⟨rfl, ofLeft, ofRight.2.1, ofRight.2.2⟩
  · exact ⟨rfl, ofLeft, ofRight⟩

theorem isPattern_filtered {operation : Operation} {filters : List Expression}
    (isPattern : operation.IsPattern bounds)
    (ofFilters : ∀ filter ∈ filters, filter.WellFormed bounds false) :
    (filtered operation filters).IsPattern bounds := by
  have conjunction : ∀ (rest : List Expression) (all : Expression),
      all.WellFormed bounds false → (∀ filter ∈ rest, filter.WellFormed bounds false) →
      (rest.foldl (fun all next => .operator "&&" [all, next]) all).WellFormed bounds false := by
    intro rest
    induction rest with
    | nil => exact fun all ofAll _ => ofAll
    | cons next rest ih =>
      intro all ofAll ofRest
      rw [List.forall_mem_cons] at ofRest
      have takes : operatorTakes "&&" 2 = true := operatorTakes_binary .and
      refine ih _ (wellFormed_operator (fun _ => takes) ?_) ofRest.2
      exact List.forall_mem_cons.2 ⟨ofAll, List.forall_mem_singleton.2 ofRest.1⟩
  cases filters with
  | nil => exact isPattern
  | cons first rest =>
    rw [List.forall_mem_cons] at ofFilters
    exact ⟨rfl, isPattern, conjunction rest first ofFilters.1 ofFilters.2⟩

namespace Context

/-- What a query shows, with the values of what is computed. -/
def AllShown (bounds : Bounds) (selected : List (Variable × Option Expression)) : Prop :=
  ∀ item ∈ selected,
    item.1.IsAllowed bounds ∧ ∀ value ∈ item.2, value.WellFormed bounds false

theorem AllShown.mono {wider : Bounds} {selected : List (Variable × Option Expression)}
    (allShown : AllShown bounds selected) (le : bounds.Le wider) : AllShown wider selected :=
  fun item member => ⟨le.name _ (allShown item member).1,
    fun value isValue => le.expression value ((allShown item member).2 value isValue)⟩

theorem isPattern_computed {selected : List (Variable × Option Expression)} {operation : Operation}
    (isPattern : operation.IsPattern bounds) (allShown : AllShown bounds selected) :
    (computed selected operation).IsPattern bounds := by
  unfold computed
  induction selected generalizing operation with
  | nil => exact isPattern
  | cons item rest ih =>
    obtain ⟨name, value⟩ := item
    obtain ⟨ofItem, ofRest⟩ := List.forall_mem_cons.1 allShown
    rw [List.foldl_cons]
    refine ih ?_ ofRest
    cases value with
    | none => exact isPattern
    | some value => exact ⟨rfl, isPattern, ofItem.1, ofItem.2 value rfl⟩

theorem isPattern_conditions {conditions : List Expression} {operation : Operation}
    (isPattern : operation.IsPattern bounds)
    (wellFormed : Expression.allWellFormed bounds false conditions) :
    (conditions.foldl (fun operation condition => .of (.filter operation condition))
      operation).IsPattern bounds := by
  induction conditions generalizing operation with
  | nil => exact isPattern
  | cons condition rest ih => exact ih ⟨rfl, isPattern, wellFormed.1⟩ wellFormed.2

theorem wellFormed_withDuplicates (duplicates : Surface.Duplicates) {operation : Operation}
    (wellFormed : operation.WellFormed bounds true) :
    (withDuplicates duplicates operation).WellFormed bounds true := by
  cases duplicates <;> exact wellFormed

theorem wellFormed_sliced (limit offset : Option Nat) {operation : Operation}
    (wellFormed : operation.WellFormed bounds true) :
    (sliced limit offset operation).WellFormed bounds true := by
  unfold sliced
  split <;> exact wellFormed

end Context

end

namespace Context

open Lowering (Behaves)

variable {context : Context} {guarantee : Guarantee} {supply : NameSupply}

/-- An operation is asked of a dataset whose graphs are named in full, or of none. -/
theorem settles_overDataset (suits : context.Suits guarantee) (supply : NameSupply)
    {dataset : Option Surface.Dataset} (meets : ∀ graphs ∈ dataset, graphs.Meets guarantee.demands)
    (operation : Operation) :
    Settles guarantee.clean
      (fun result => result = operation ∨ ∃ default named : List NamedNode,
        (∀ node ∈ default ++ named, node.IsFull (guarantee.bounds supply))
          ∧ result = .of (.wrap (.dataset default named) operation))
      (context.overDataset dataset operation) := by
  cases dataset with
  | none => exact .inl rfl
  | some dataset =>
    obtain ⟨ofDefault, ofNamed⟩ := List.forall_mem_append.1 (meets dataset rfl)
    rw [overDataset]
    split
    · exact .inl rfl
    · refine (settles_namedNodes suits supply ofDefault).bind fun default defaultFull => ?_
      refine (settles_namedNodes suits supply ofNamed).bind fun named namedFull => ?_
      exact .inr ⟨default, named, List.forall_mem_append.2 ⟨defaultFull, namedFull⟩, rfl⟩

private theorem behaves_joinedWith (suits : context.Suits guarantee)
    {values : Option Surface.InlineData}
    (covers : supply.Covers (Surface.Names.optional Surface.InlineData.names values))
    (meets : ∀ data ∈ values, data.Meets guarantee.demands) {operation : Operation}
    (isPattern : operation.IsPattern (guarantee.bounds supply)) :
    Behaves guarantee.clean (fun after result => result.IsPattern (guarantee.bounds after))
      (context.joinedWith values operation) supply := by
  cases values with
  | none => exact .pure isPattern
  | some data =>
    rw [joinedWith]
    refine (behaves_inlineData suits covers (meets data rfl)).bind
      fun table after gives ofTable => .pure ?_
    refine Operation.isPattern_join (List.forall_mem_cons.2 ⟨?_, List.forall_mem_singleton.2 ofTable⟩)
    exact (guarantee.bounds_le gives).operation _ isPattern

private theorem settles_callee (suits : context.Suits guarantee) (supply : NameSupply)
    {function : Surface.Function} {arguments : List Expression}
    (meets : match function with
      | .builtin function => guarantee.demands.call function arguments.length
      | .named iri => guarantee.demands.iri iri)
    (wellFormed : Expression.allWellFormed (guarantee.bounds supply) false arguments) :
    Settles guarantee.clean
      (fun callee => (Expression.call callee arguments).WellFormed (guarantee.bounds supply) false)
      (context.callee function) := by
  cases function with
  | builtin function =>
    exact ⟨.inr fun strict => operatorTakes_builtin (guarantee.three strict _ _ meets), wellFormed⟩
  | named iri =>
    rw [callee]
    exact (settles_namedNode suits supply meets).bind fun node full => ⟨full, wellFormed⟩

/-- What a query shows is in use. -/
private theorem areAllowed_shown (suits : context.Suits guarantee) (projection : Surface.Projection)
    {pattern : Surface.Pattern} {values : Option Surface.InlineData}
    {selected : List (Variable × Option Expression)} (ofPattern : supply.Covers pattern.names)
    (ofValues : supply.Covers (Surface.Names.optional Surface.InlineData.names values))
    (allShown : AllShown (guarantee.bounds supply) selected) :
    ∀ name ∈ context.shown projection pattern values selected,
      name.IsAllowed (guarantee.bounds supply) := by
  cases projection with
  | all =>
    intro name member
    obtain ⟨name, isStarred, rfl⟩ := List.mem_map.1 member
    have written := Surface.starVariables_include (some pattern) values name isStarred
    exact isAllowed_var suits ((NameSupply.covers_and.2 ⟨ofPattern, ofValues⟩).vars written)
  | items items =>
    intro name member
    obtain ⟨item, isSelected, rfl⟩ := List.mem_map.1 member
    exact (allShown item isSelected).1

/-- The clauses of a query are covered if each of them is. -/
theorem covers_modifiers {groupBy : Option (List Surface.GroupKey)}
    {having : List Surface.Expression} {orderBy : List Surface.OrderKey}
    {limit offset : Option Nat} {values : Option Surface.InlineData} :
    supply.Covers (Surface.Modifiers.names ⟨groupBy, having, orderBy, limit, offset, values⟩)
      ↔ supply.Covers (Surface.Names.optional Surface.GroupKey.namesOfAll groupBy)
        ∧ supply.Covers (Surface.Expression.namesOfAll having)
        ∧ supply.Covers (Surface.OrderKey.namesOfAll orderBy)
        ∧ supply.Covers (Surface.Names.optional Surface.InlineData.names values) := by
  cases groupBy <;> simp [Surface.Modifiers.names, Surface.Names.optional, and_assoc]

/-- The clauses of a query meet demands if each of them does. -/
private theorem meets_modifiers {demands : Surface.Demands}
    {groupBy : Option (List Surface.GroupKey)} {having : List Surface.Expression}
    {orderBy : List Surface.OrderKey} {limit offset : Option Nat}
    {values : Option Surface.InlineData} :
    Surface.Modifiers.Meets demands ⟨groupBy, having, orderBy, limit, offset, values⟩
      ↔ (∀ keys ∈ groupBy, Surface.GroupKey.allMeet demands keys)
        ∧ Surface.Expression.allMeet demands having ∧ Surface.OrderKey.allMeet demands orderBy
        ∧ ∀ data ∈ values, data.Meets demands := by
  cases groupBy <;> simp [Surface.Modifiers.Meets]

/-- What the elements of a group have come to, with the filters among them. -/
private def GroupTreated (guarantee : Guarantee) (supply : NameSupply)
    (result : Operation × List Expression) : Prop :=
  result.1.IsPattern (guarantee.bounds supply)
    ∧ ∀ filter ∈ result.2, filter.WellFormed (guarantee.bounds supply) false

private theorem GroupTreated.mono {after : NameSupply} {operation : Operation}
    {filters : List Expression} (treated : GroupTreated guarantee supply (operation, filters))
    (gives : supply.Gives after) : GroupTreated guarantee after (operation, filters) :=
  ⟨(guarantee.bounds_le gives).operation _ treated.1, fun filter isFilter =>
    (guarantee.bounds_le gives).expression _ (treated.2 filter isFilter)⟩

/-- An operation with the keys of a group bound, and the variables of the keys. -/
private def KeysBound (guarantee : Guarantee) (supply : NameSupply)
    (result : Operation × List Variable) : Prop :=
  result.1.IsPattern (guarantee.bounds supply)
    ∧ ∀ name ∈ result.2, name.IsAllowed (guarantee.bounds supply)

mutual

theorem behaves_expression (suits : context.Suits guarantee) : ∀ (expression : Surface.Expression)
    {supply : NameSupply}, supply.Covers expression.names → expression.Meets guarantee.demands →
    Behaves guarantee.clean (fun after value => value.WellFormed (guarantee.bounds after) false)
      (context.expression expression) supply
  | .var name, _, covers, _ => by
    rw [expression]
    exact .pure (isAllowed_var suits (NameSupply.covers_var.1 covers))
  | .iri iri, supply, _, meets => by
    rw [expression]
    exact .bindLift (settles_namedNode suits supply meets) fun node full => .pure full
  | .literal literal, supply, _, meets => by
    rw [expression]
    exact .bindLift (settles_literal suits supply meets) fun literal full => .pure full
  | .binary op left right, _, covers, meets => by
    simp only [Surface.Expression.names, NameSupply.covers_and] at covers
    rw [expression]
    refine (behaves_expression suits left covers.1 meets.1).bind fun left s₁ gives₁ left₁ => ?_
    refine (behaves_expression suits right (covers.2.mono gives₁) meets.2).bind
      fun right s₂ gives₂ right₂ => .pure ?_
    refine wellFormed_operator (fun _ => operatorTakes_binary op) (List.forall_mem_cons.2 ⟨?_, ?_⟩)
    · exact (guarantee.bounds_le gives₂).expression _ left₁
    · exact List.forall_mem_singleton.2 right₂
  | .unary op operand, _, covers, meets => by
    rw [expression]
    refine (behaves_expression suits operand covers meets).bind fun operand s₁ gives₁ operand₁ =>
      .pure ?_
    exact wellFormed_operator (fun _ => operatorTakes_unary op)
      (List.forall_mem_singleton.2 operand₁)
  | .call (.builtin function) arguments distinct, _, covers, meets => by
    rw [expression]
    refine (behaves_expressions suits arguments covers meets.2).bind
      fun arguments after gives result => ?_
    refine .bindLift (settles_callee suits after ?_ result.1) fun callee wellFormed =>
      .pure wellFormed
    rw [result.2]
    exact meets.1
  | .call (.named iri) arguments distinct, _, covers, meets => by
    rw [expression]
    refine (behaves_expressions suits arguments covers meets.2).bind
      fun arguments after gives result => ?_
    exact .bindLift (settles_callee suits after (show guarantee.demands.iri iri from meets.1) result.1)
      fun callee wellFormed => .pure wellFormed
  | .ifElse condition positive negative, _, covers, meets => by
    simp only [Surface.Expression.names, NameSupply.covers_and] at covers
    obtain ⟨⟨ofCondition, ofPositive⟩, ofNegative⟩ := covers
    rw [expression]
    refine (behaves_expression suits condition ofCondition meets.1).bind
      fun condition s₁ gives₁ condition₁ => ?_
    refine (behaves_expression suits positive (ofPositive.mono gives₁) meets.2.1).bind
      fun positive s₂ gives₂ positive₂ => ?_
    refine (behaves_expression suits negative ((ofNegative.mono gives₁).mono gives₂)
      meets.2.2).bind fun negative s₃ gives₃ negative₃ => .pure ?_
    have takes : operatorTakes "if" 3 = true := by decide
    refine wellFormed_operator (fun _ => takes) (List.forall_mem_cons.2 ⟨?_, ?_⟩)
    · exact (guarantee.bounds_le (gives₂.trans gives₃)).expression _ condition₁
    · refine List.forall_mem_cons.2 ⟨?_, List.forall_mem_singleton.2 negative₃⟩
      exact (guarantee.bounds_le gives₃).expression _ positive₂
  | .coalesce arguments, _, covers, meets => by
    rw [expression]
    refine (behaves_expressions suits arguments covers meets).bind
      fun arguments after gives result => .pure ⟨.inr fun _ => ?_, result.1⟩
    exact operatorTakes_builtin (show Builtin.coalesce = .ifElse → _ from nofun)
  | .among value choices negated, _, covers, meets => by
    simp only [Surface.Expression.names, NameSupply.covers_and] at covers
    rw [expression]
    refine (behaves_expression suits value covers.1 meets.1).bind fun value s₁ gives₁ value₁ => ?_
    refine (behaves_expressions suits choices (covers.2.mono gives₁) meets.2).bind
      fun choices s₂ gives₂ result => .pure ⟨.inr fun _ => ?_, ?_, result.1⟩
    · exact operatorTakes_membership negated choices.length
    · exact (guarantee.bounds_le gives₂).expression _ value₁
  | .existence negated pattern, _, covers, meets => by
    rw [expression]
    exact (behaves_pattern suits pattern covers meets).bind fun input after gives isPattern =>
      .pure isPattern
  | .aggregate function none distinct separator, _, _, _ => by
    rw [expression]
    exact .pure ⟨by cases function <;> decide, .inl rfl⟩
  | .aggregate function (some argument) distinct separator, _, covers, meets => by
    rw [expression]
    exact (behaves_expression suits argument covers meets).bind fun argument after gives wellFormed =>
      .pure ⟨by cases function <;> decide, .inr wellFormed⟩
  | .bracketed inner, _, covers, meets => by
    rw [expression]
    exact behaves_expression suits inner covers meets

theorem behaves_expressions (suits : context.Suits guarantee) :
    ∀ (written : List Surface.Expression) {supply : NameSupply},
    supply.Covers (Surface.Expression.namesOfAll written) →
    Surface.Expression.allMeet guarantee.demands written →
    Behaves guarantee.clean
      (fun after values => Expression.allWellFormed (guarantee.bounds after) false values
        ∧ values.length = written.length)
      (context.expressions written) supply
  | [], _, _, _ => .pure ⟨trivial, rfl⟩
  | first :: rest, _, covers, meets => by
    simp only [Surface.Expression.namesOfAll, NameSupply.covers_and] at covers
    rw [expressions]
    refine (behaves_expression suits first covers.1 meets.1).bind fun first s₁ gives₁ first₁ => ?_
    refine (behaves_expressions suits rest (covers.2.mono gives₁) meets.2).bind
      fun rest s₂ gives₂ result => .pure ?_
    exact ⟨⟨(guarantee.bounds_le gives₂).expression _ first₁, result.1⟩,
      congrArg (· + 1) result.2⟩

theorem behaves_pattern (suits : context.Suits guarantee) : ∀ (pattern : Surface.Pattern)
    {supply : NameSupply}, supply.Covers pattern.names → pattern.Meets guarantee.demands false →
    Behaves guarantee.clean (fun after operation => operation.IsPattern (guarantee.bounds after))
      (context.pattern pattern) supply
  | .bgp triples span, _, covers, meets => by
    rw [pattern]
    exact behaves_basicGraphPattern suits (NameSupply.covers_all.1 covers) meets
  | .group members span, _, covers, meets => by
    rw [pattern]
    refine (behaves_elements suits members covers meets
      ⟨Operation.isPattern_bgp (List.forall_mem_nil _), List.forall_mem_nil _⟩).bind
      fun result after gives treated => .pure ?_
    exact isPattern_filtered treated.1 treated.2
  | .union left right span, _, covers, meets => by
    simp only [Surface.Pattern.names, NameSupply.covers_and] at covers
    rw [pattern]
    refine (behaves_pattern suits left covers.1 meets.1).bind fun left s₁ gives₁ left₁ => ?_
    refine (behaves_pattern suits right (covers.2.mono gives₁) meets.2).bind
      fun right s₂ gives₂ right₂ => .pure (Operation.isPattern_union ?_)
    refine List.forall_mem_cons.2 ⟨?_, List.forall_mem_singleton.2 right₂⟩
    exact (guarantee.bounds_le gives₂).operation _ left₁
  | .graph name pattern span, _, covers, meets => by
    simp only [Surface.Pattern.names, NameSupply.covers_and] at covers
    rw [Context.pattern]
    refine (behaves_pattern suits pattern covers.2 meets.2).bind fun input s₁ gives₁ input₁ => ?_
    refine .bindLift (settles_varOrIri suits (covers.1.mono gives₁) meets.1) fun name isName => ?_
    show Behaves _ _ (if _ then _ else _) _
    split
    · rename_i quads
      refine (behaves_embedGraph suits (suits.quads.1 quads) isName input₁).bind
        fun input s₂ gives₂ input₂ => .pure ⟨rfl, ?_, input₂⟩
      exact (guarantee.bounds_le gives₂).isName isName
    · exact .pure ⟨rfl, isName, input₁⟩
  | .service silent endpoint pattern span, _, covers, meets => by
    simp only [Surface.Pattern.names, NameSupply.covers_and] at covers
    rw [Context.pattern]
    refine (behaves_pattern suits pattern covers.2 meets.2).bind fun input s₁ gives₁ input₁ => ?_
    exact .bindLift (settles_varOrIri suits (covers.1.mono gives₁) meets.1) fun name isName =>
      .pure ⟨rfl, isName, input₁⟩
  | .values data span, _, covers, meets => by
    rw [pattern]
    exact behaves_inlineData suits covers meets
  | .subquery query span, _, covers, meets => by
    rw [pattern]
    exact (behaves_select suits query covers meets).imp
      fun operation after gives wellFormed => wellFormed.isPattern
  | .optional pattern span, _, _, meets => by
    rw [Context.pattern]
    exact .throw fun clean => guarantee.tight clean (meets.1 rfl)
  | .minus pattern span, _, _, meets => by
    rw [Context.pattern]
    exact .throw fun clean => guarantee.tight clean (meets.1 rfl)
  | .filter condition span, _, _, meets => by
    rw [pattern]
    exact .throw fun clean => guarantee.tight clean (meets.1 rfl)
  | .bind value name span, _, _, meets => by
    rw [pattern]
    exact .throw fun clean => guarantee.tight clean (meets.1 rfl)

theorem behaves_elements (suits : context.Suits guarantee) : ∀ (members : List Surface.Pattern)
    {operation : Operation} {filters : List Expression} {supply : NameSupply},
    supply.Covers (Surface.Pattern.namesOfAll members) →
    Surface.Pattern.allMeet guarantee.demands members →
    GroupTreated guarantee supply (operation, filters) →
    Behaves guarantee.clean (GroupTreated guarantee) (context.elements members operation filters)
      supply
  | [], _, _, _, _, _, treated => by
    rw [elements]
    exact .pure treated
  | member :: rest, operation, filters, supply, covers, meets, treated => by
    obtain ⟨ofMember, ofRest⟩ := NameSupply.covers_and.1 covers
    have finish : ∀ {operation filters after}, supply.Gives after →
        GroupTreated guarantee after (operation, filters) →
        Behaves guarantee.clean (GroupTreated guarantee)
          (context.elements rest operation filters) after :=
      fun gives => behaves_elements suits rest (ofRest.mono gives) meets.2
    have asMember : member.isMember = true → member.Meets guarantee.demands false →
        Behaves guarantee.clean (GroupTreated guarantee)
          (context.elements (member :: rest) operation filters) supply := by
      intro isMember meetsMember
      rw [elements_member context isMember]
      refine (behaves_pattern suits member ofMember meetsMember).bind
        fun right after gives ofRight => ?_
      have before := treated.mono gives
      exact finish gives ⟨isPattern_simplifiedJoin before.1 ofRight, before.2⟩
    cases member with
    | filter condition span =>
      rw [elements]
      refine (behaves_expression suits condition ofMember meets.1.2).bind
        fun condition after gives ofCondition => finish gives ?_
      have before := treated.mono gives
      exact ⟨before.1,
        List.forall_mem_append.2 ⟨before.2, List.forall_mem_singleton.2 ofCondition⟩⟩
    | optional pattern span =>
      rw [elements]
      refine (behaves_pattern suits pattern ofMember meets.1.2).bind
        fun right after gives ofRight => ?_
      have before := treated.mono gives
      exact finish gives ⟨isPattern_leftJoinOf before.1 ofRight, before.2⟩
    | minus pattern span =>
      rw [elements]
      refine (behaves_pattern suits pattern ofMember meets.1.2).bind
        fun right after gives ofRight => ?_
      have before := treated.mono gives
      exact finish gives ⟨⟨rfl, before.1, ofRight⟩, before.2⟩
    | bind value name span =>
      obtain ⟨ofValue, ofName⟩ := NameSupply.covers_and.1 ofMember
      rw [elements]
      refine (behaves_expression suits value ofValue meets.1.2).bind
        fun value after gives value₁ => ?_
      have before := treated.mono gives
      refine finish gives ⟨⟨rfl, before.1, ?_, value₁⟩, before.2⟩
      exact isAllowed_var suits (gives.has _ (NameSupply.covers_var.1 ofName))
    | bgp | group | union | values | graph | service | subquery => exact asMember rfl meets.1

theorem behaves_select (suits : context.Suits guarantee) : ∀ (query : Surface.Select)
    {supply : NameSupply}, supply.Covers query.names → query.Meets guarantee.demands →
    Behaves guarantee.clean
      (fun after operation => operation.WellFormed (guarantee.bounds after) true)
      (context.select query) supply
  | ⟨duplicates, projection, dataset, pattern, ⟨groupBy, having, orderBy, limit, offset, values⟩⟩,
      supply, covers, meets => by
    simp only [Surface.Select.names, NameSupply.covers_and] at covers
    obtain ⟨⟨ofProjection, ofPattern⟩, ofModifiers⟩ := covers
    rw [select]
    refine (behaves_pattern suits pattern ofPattern meets.2.2.1).bind
      fun input s₁ gives₁ input₁ => ?_
    refine Behaves.bind (behaves_projection suits projection (ofProjection.mono gives₁) meets.1 []
      trivial) fun found s₂ gives₂ found₂ => ?_
    obtain ⟨selected, aggregates⟩ := found
    have le₂ := guarantee.bounds_le gives₂
    refine (behaves_solutions suits _ ((ofModifiers.mono gives₁).mono gives₂)
      meets.2.2.2 found₂.1 found₂.2 (le₂.operation _ input₁)).bind
      fun solutions s₃ gives₃ solutions₃ => .lift ?_
    have upTo₃ := (gives₁.trans gives₂).trans gives₃
    have shown := areAllowed_shown suits projection (ofPattern.mono upTo₃)
      ((covers_modifiers.1 ofModifiers).2.2.2.mono upTo₃) (found₂.1.mono (guarantee.bounds_le gives₃))
    have projected := wellFormed_sliced limit offset
      (wellFormed_withDuplicates duplicates
        (show Operation.WellFormed _ true (.of (.wrap (.project _) solutions)) from
          ⟨shown, solutions₃⟩))
    refine (settles_overDataset suits s₃ meets.2.1 _).imp fun result isResult => ?_
    rcases isResult with rfl | ⟨default, named, full, rfl⟩
    · exact projected
    · exact ⟨full, projected⟩

theorem behaves_projection (suits : context.Suits guarantee) :
    ∀ (projection : Surface.Projection) {supply : NameSupply}, supply.Covers projection.names →
    projection.Meets guarantee.demands →
    Extracting.Behaves guarantee (fun after selected => AllShown (guarantee.bounds after) selected)
      (context.projection projection) supply
  | .all, _, _, _ => .pure (List.forall_mem_nil _)
  | .items items, _, covers, meets => by
    rw [projection]
    exact behaves_selectItems suits items covers meets

theorem behaves_selectItems (suits : context.Suits guarantee) :
    ∀ (items : List Surface.SelectItem) {supply : NameSupply},
    supply.Covers (Surface.SelectItem.namesOfAll items) →
    Surface.SelectItem.allMeet guarantee.demands items →
    Extracting.Behaves guarantee (fun after selected => AllShown (guarantee.bounds after) selected)
      (context.selectItems items) supply
  | [], _, _, _ => .pure (List.forall_mem_nil _)
  | .var name :: rest, _, covers, meets => by
    simp only [Surface.SelectItem.namesOfAll, NameSupply.covers_and] at covers
    rw [selectItems]
    refine (behaves_selectItems suits rest covers.2 meets).bind fun others after gives ofOthers =>
      .pure (List.forall_mem_cons.2 ⟨⟨?_, nofun⟩, ofOthers⟩)
    exact isAllowed_var suits (gives.has _ (NameSupply.covers_var.1 covers.1))
  | .computed value name :: rest, _, covers, meets => by
    simp only [Surface.SelectItem.namesOfAll, NameSupply.covers_and] at covers
    obtain ⟨⟨ofValue, ofName⟩, ofRest⟩ := covers
    rw [selectItems]
    refine Extracting.Behaves.bind (.lift (behaves_expression suits value ofValue meets.1))
      fun value s₁ gives₁ value₁ => ?_
    refine (behaves_extractAggregates suits value₁).bind fun value s₂ gives₂ value₂ => ?_
    refine (behaves_selectItems suits rest ((ofRest.mono gives₁).mono gives₂) meets.2).bind
      fun others s₃ gives₃ ofOthers => .pure (List.forall_mem_cons.2 ⟨⟨?_, ?_⟩, ofOthers⟩)
    · exact isAllowed_var suits (((gives₁.trans gives₂).trans gives₃).has _
        (NameSupply.covers_var.1 ofName))
    · intro other isValue
      obtain rfl := Option.some.inj isValue
      exact (guarantee.bounds_le gives₃).expression _ value₂

theorem behaves_solutions (suits : context.Suits guarantee) : ∀ (modifiers : Surface.Modifiers)
    {selected : List (Variable × Option Expression)} {aggregates : List BoundAggregate}
    {input : Operation} {supply : NameSupply}, supply.Covers modifiers.names →
    modifiers.Meets guarantee.demands → AllShown (guarantee.bounds supply) selected →
    BoundAggregate.allWellFormed (guarantee.bounds supply) aggregates →
    input.IsPattern (guarantee.bounds supply) →
    Behaves guarantee.clean (fun after operation => operation.IsPattern (guarantee.bounds after))
      (context.solutions selected aggregates input modifiers) supply
  | ⟨groupBy, having, orderBy, limit, offset, values⟩, selected, aggregates, input, supply, covers,
      meets, ofSelected, ofAggregates, isPattern => by
    obtain ⟨ofKeys, ofHaving, ofOrder, ofValues⟩ := covers_modifiers.1 covers
    obtain ⟨keysMeet, havingMeet, orderMeets, valuesMeet⟩ := meets_modifiers.1 meets
    rw [solutions]
    refine Behaves.bind (behaves_conditions suits having ofHaving havingMeet aggregates
      ofAggregates) fun found s₁ gives₁ found₁ => ?_
    obtain ⟨having, aggregates⟩ := found
    refine Behaves.bind (behaves_orderKeys suits orderBy (ofOrder.mono gives₁) orderMeets aggregates
      found₁.2) fun found s₂ gives₂ found₂ => ?_
    obtain ⟨order, aggregates⟩ := found
    have upTo₂ := gives₁.trans gives₂
    have input₂ := (guarantee.bounds_le upTo₂).operation _ isPattern
    have finish : ∀ {grouped s₃}, s₂.Gives s₃ → grouped.IsPattern (guarantee.bounds s₃) →
        Behaves guarantee.clean
          (fun after operation => operation.IsPattern (guarantee.bounds after))
          (do
            let joined ← context.joinedWith values
              (having.foldl (fun operation condition => .of (.filter operation condition)) grouped)
            let extended := computed selected joined
            if order.isEmpty then pure extended else pure (.of (.orderBy extended order))) s₃ := by
      intro grouped s₃ gives₃ ofGrouped
      have upTo₃ := upTo₂.trans gives₃
      have having₃ := (guarantee.bounds_le (gives₂.trans gives₃)).expressions _ found₁.1
      refine (behaves_joinedWith suits (ofValues.mono upTo₃) valuesMeet
        (isPattern_conditions ofGrouped having₃)).bind fun joined s₄ gives₄ joined₄ => ?_
      have extended := isPattern_computed joined₄
        (ofSelected.mono (guarantee.bounds_le (upTo₃.trans gives₄)))
      split
      · exact .pure extended
      · refine .pure ⟨rfl, extended, ?_⟩
        exact (guarantee.bounds_le (gives₃.trans gives₄)).expressions _ found₂.1
    cases groupBy with
    | some keys =>
      refine (behaves_groupKeys suits keys (ofKeys.mono upTo₂) (keysMeet keys rfl) input₂).bind
        fun result s₃ gives₃ bound => finish gives₃ ⟨rfl, bound.1, bound.2, ?_⟩
      exact (guarantee.bounds_le gives₃).aggregates _ found₂.2
    | none =>
      show Behaves _ _ (if _ then _ else _) _
      split
      · exact finish (.refl _) input₂
      · exact finish (.refl _) ⟨rfl, input₂, List.forall_mem_nil _, found₂.2⟩

theorem behaves_conditions (suits : context.Suits guarantee) :
    ∀ (conditions : List Surface.Expression) {supply : NameSupply},
    supply.Covers (Surface.Expression.namesOfAll conditions) →
    Surface.Expression.allMeet guarantee.demands conditions →
    Extracting.Behaves guarantee
      (fun after conditions => Expression.allWellFormed (guarantee.bounds after) false conditions)
      (context.conditions conditions) supply
  | [], _, _, _ => .pure trivial
  | condition :: rest, _, covers, meets => by
    simp only [Surface.Expression.namesOfAll, NameSupply.covers_and] at covers
    rw [conditions]
    refine Extracting.Behaves.bind (.lift (behaves_expression suits condition covers.1 meets.1))
      fun condition s₁ gives₁ condition₁ => ?_
    refine (behaves_extractAggregates suits condition₁).bind fun condition s₂ gives₂ condition₂ => ?_
    refine (behaves_conditions suits rest ((covers.2.mono gives₁).mono gives₂) meets.2).bind
      fun others s₃ gives₃ ofOthers => .pure ⟨?_, ofOthers⟩
    exact (guarantee.bounds_le gives₃).expression _ condition₂

theorem behaves_orderKeys (suits : context.Suits guarantee) :
    ∀ (keys : List Surface.OrderKey) {supply : NameSupply},
    supply.Covers (Surface.OrderKey.namesOfAll keys) →
    Surface.OrderKey.allMeet guarantee.demands keys →
    Extracting.Behaves guarantee
      (fun after keys => Expression.allWellFormed (guarantee.bounds after) true keys)
      (context.orderKeys keys) supply
  | [], _, _, _ => .pure trivial
  | .var name direction :: rest, _, covers, meets => by
    simp only [Surface.OrderKey.namesOfAll, NameSupply.covers_and] at covers
    rw [orderKeys]
    refine (behaves_orderKeys suits rest covers.2 meets).bind fun others after gives ofOthers =>
      .pure ⟨wellFormed_orderKey direction ?_, ofOthers⟩
    exact isAllowed_var suits (gives.has _ (NameSupply.covers_var.1 covers.1))
  | .computed value direction :: rest, _, covers, meets => by
    simp only [Surface.OrderKey.namesOfAll, NameSupply.covers_and] at covers
    rw [orderKeys]
    refine Extracting.Behaves.bind (.lift (behaves_expression suits value covers.1 meets.1))
      fun value s₁ gives₁ value₁ => ?_
    refine (behaves_extractAggregates suits value₁).bind fun value s₂ gives₂ value₂ => ?_
    refine (behaves_orderKeys suits rest ((covers.2.mono gives₁).mono gives₂) meets.2).bind
      fun others s₃ gives₃ ofOthers => .pure ⟨wellFormed_orderKey direction ?_, ofOthers⟩
    exact (guarantee.bounds_le gives₃).expression _ value₂

theorem behaves_groupKeys (suits : context.Suits guarantee) : ∀ (keys : List Surface.GroupKey)
    {operation : Operation} {supply : NameSupply},
    supply.Covers (Surface.GroupKey.namesOfAll keys) →
    Surface.GroupKey.allMeet guarantee.demands keys →
    operation.IsPattern (guarantee.bounds supply) →
    Behaves guarantee.clean (KeysBound guarantee) (context.groupKeys keys operation) supply
  | [], _, _, _, _, isPattern => by
    rw [groupKeys]
    exact .pure ⟨isPattern, List.forall_mem_nil _⟩
  | .var name :: rest, _, _, covers, meets, isPattern => by
    simp only [Surface.GroupKey.namesOfAll, NameSupply.covers_and] at covers
    rw [groupKeys]
    refine (behaves_groupKeys suits rest covers.2 meets isPattern).bind
      fun result after gives ofResult => .pure ⟨ofResult.1, List.forall_mem_cons.2 ⟨?_, ofResult.2⟩⟩
    exact isAllowed_var suits (gives.has _ (NameSupply.covers_var.1 covers.1))
  | .computed value name :: rest, operation, supply, covers, meets, isPattern => by
    simp only [Surface.GroupKey.namesOfAll, NameSupply.covers_and] at covers
    obtain ⟨⟨ofValue, ofName⟩, ofRest⟩ := covers
    rw [groupKeys]
    refine (behaves_expression suits value ofValue meets.1).bind fun value s₁ gives₁ value₁ => ?_
    have finish : ∀ {name s₂}, s₁.Gives s₂ → name.IsAllowed (guarantee.bounds s₂) →
        Behaves guarantee.clean (KeysBound guarantee) (do
          let (operation, vars) ← context.groupKeys rest (.of (.extend operation name value))
          pure (operation, name :: vars)) s₂ := by
      intro name s₂ gives₂ isAllowed
      have le₂ := guarantee.bounds_le gives₂
      have input₂ := le₂.operation _ ((guarantee.bounds_le gives₁).operation _ isPattern)
      have extended : Operation.IsPattern (guarantee.bounds s₂)
          (.of (.extend operation name value)) :=
        ⟨rfl, input₂, isAllowed, le₂.expression _ value₁⟩
      refine (behaves_groupKeys suits rest ((ofRest.mono gives₁).mono gives₂) meets.2
        extended).bind fun result s₃ gives₃ ofResult => .pure ?_
      refine ⟨ofResult.1, List.forall_mem_cons.2 ⟨?_, ofResult.2⟩⟩
      exact (guarantee.bounds_le gives₃).name _ isAllowed
    cases name with
    | some name =>
      refine finish (.refl _) (isAllowed_var suits (gives₁.has _ ?_))
      exact NameSupply.covers_var.1 ofName
    | none => exact (behaves_newVariable suits).bind fun name s₂ gives₂ isAllowed =>
        finish gives₂ isAllowed

end

end Context

end QueryAlgebra
