import QueryAlgebra.Proofs.Lowering.BoundTriples
import QueryAlgebra.Proofs.Lowering.NamesOfRequests
import QueryAlgebra.Proofs.Lowering.PlainPattern
import QueryAlgebra.Proofs.Surface.PatternParts

/-! # The variables that patterns bind

A pattern that removes nothing and asks about no other pattern becomes an operation that has the
variables of the pattern in scope, and besides them only variables that were taken from the supply
meanwhile. There is one exception: a subquery that shows everything shows the variables of its
trailing inline data too, and these are not counted among the variables of the pattern
(`Surface.Pattern.trailing`). So `SELECT *` shows what its pattern binds just if the pattern binds
these variables elsewhere: `Context.scopes_agree_iff`.
-/

namespace QueryAlgebra

namespace Surface

/-- The variables of the inline data after a subquery that shows everything. -/
def Select.trailing : Select → List Variable
  | ⟨_, .all, _, _, ⟨_, _, _, _, _, some data⟩⟩ => data.vars
  | _ => []

mutual

/-- The variables of the inline data after the subqueries of a pattern that show everything. What is
inside a subquery does not count. -/
def Pattern.trailing : Pattern → List Variable
  | .bgp .. => []
  | .group elements _ => Pattern.trailingOfAll elements
  | .optional pattern _ => pattern.trailing
  | .minus .. => []
  | .union left right _ => left.trailing ++ right.trailing
  | .filter .. => []
  | .bind .. => []
  | .values .. => []
  | .graph _ pattern _ => pattern.trailing
  | .service _ _ pattern _ => pattern.trailing
  | .subquery query _ => query.trailing

/-- The variables of the inline data after the subqueries in the elements of a group. -/
def Pattern.trailingOfAll : List Pattern → List Variable
  | [] => []
  | pattern :: rest => pattern.trailing ++ Pattern.trailingOfAll rest

end

mutual

/-- Whether a pattern removes nothing and asks about no patterns, its subqueries apart. -/
def Pattern.isPositive : Pattern → Bool
  | .bgp .. => true
  | .group elements _ => Pattern.allPositive elements
  | .optional pattern _ => pattern.isPositive
  | .minus .. => false
  | .union left right _ => left.isPositive && right.isPositive
  | .filter condition _ => condition.within.isEmpty
  | .bind value _ _ => value.within.isEmpty
  | .values .. => true
  | .graph _ pattern _ => pattern.isPositive
  | .service _ _ pattern _ => pattern.isPositive
  | .subquery .. => true

/-- Whether the elements of a group remove nothing and ask about no patterns. -/
def Pattern.allPositive : List Pattern → Bool
  | [] => true
  | pattern :: rest => pattern.isPositive && Pattern.allPositive rest

end

/-- The query that shows everything a pattern binds. -/
def Select.star (pattern : Pattern) : Select := ⟨.keep, .all, none, pattern, .none⟩

/-- The variables of inline data after a query are written in the query. -/
theorem Select.names_include_trailing (query : Select) : query.names.Include query.trailing := by
  obtain ⟨duplicates, projection, dataset, pattern, modifiers⟩ := query
  obtain ⟨groupBy, having, orderBy, limit, offset, values⟩ := modifiers
  cases projection with
  | items => exact .nil _
  | all =>
    cases values with
    | none => exact .nil _
    | some data =>
      refine Names.Include.right ?_
      cases groupBy <;> exact data.names_include.right

mutual

/-- The variables of inline data after subqueries are written in the pattern. -/
theorem Pattern.names_include_trailing : ∀ pattern : Pattern,
    pattern.names.Include pattern.trailing
  | .bgp .. => .nil _
  | .group elements _ => Pattern.namesOfAll_include_trailing elements
  | .optional pattern _ => pattern.names_include_trailing
  | .minus .. => .nil _
  | .union left right _ => left.names_include_trailing.append right.names_include_trailing
  | .filter .. => .nil _
  | .bind .. => .nil _
  | .values .. => .nil _
  | .graph _ pattern _ => pattern.names_include_trailing.right
  | .service _ _ pattern _ => pattern.names_include_trailing.right
  | .subquery query _ => query.names_include_trailing

/-- The variables of inline data after subqueries are written in the elements of a group. -/
theorem Pattern.namesOfAll_include_trailing : ∀ patterns : List Pattern,
    (Pattern.namesOfAll patterns).Include (Pattern.trailingOfAll patterns)
  | [] => .nil _
  | pattern :: rest =>
    pattern.names_include_trailing.append (Pattern.namesOfAll_include_trailing rest)

end

end Surface

/-- What a step does, with a property of all its results. -/
theorem Lowering.Behaves.and_yields {α : Type} {clean : Prop} {P : NameSupply → α → Prop}
    {Q : α → Prop} {step : Lowering α} {supply : NameSupply}
    (behaves : Behaves clean P step supply) (yields : Yields Q step) :
    Behaves clean (fun after value => P after value ∧ Q value) step supply := by
  unfold Behaves at behaves ⊢
  cases outcome : step supply with
  | ok value after =>
    rw [outcome] at behaves
    exact ⟨behaves.1, behaves.2, yields supply value after outcome⟩
  | error error after =>
    rw [outcome] at behaves
    exact behaves

namespace Context

open Lowering (Behaves Yields)

variable {context : Context} {supply : NameSupply}

/-! ### Expressions -/

mutual

/-- An expression that asks about no patterns brings nothing into scope. -/
theorem met_expression : ∀ (written : Surface.Expression) {supply : NameSupply},
    written.within = [] →
    Behaves False (fun _ value => value.met = []) (context.expression written) supply
  | .var name, _, _ => by
    rw [expression]
    exact .pure rfl
  | .iri iri, _, _ => by
    rw [expression]
    exact .bindLift (Settles.of_ok (P := fun _ => True) fun _ _ => trivial) fun _ _ => .pure rfl
  | .literal text, _, _ => by
    rw [expression]
    exact .bindLift (Settles.of_ok (P := fun _ => True) fun _ _ => trivial) fun _ _ => .pure rfl
  | .binary op left right, _, silent => by
    obtain ⟨ofLeft, ofRight⟩ := List.append_eq_nil_iff.1 silent
    rw [expression]
    refine (met_expression left ofLeft).bind fun left _ _ left₁ => ?_
    refine (met_expression right ofRight).bind fun right _ _ right₁ => .pure ?_
    exact Expression.met_call (List.forall_mem_cons.2 ⟨left₁, List.forall_mem_singleton.2 right₁⟩)
  | .unary op operand, _, silent => by
    rw [expression]
    refine (met_expression operand silent).bind fun operand _ _ operand₁ => .pure ?_
    exact Expression.met_call (List.forall_mem_singleton.2 operand₁)
  | .call function arguments _, _, silent => by
    rw [expression]
    refine (met_expressions arguments silent).bind fun arguments _ _ arguments₁ => ?_
    exact .bindLift (Settles.of_ok (P := fun _ => True) fun _ _ => trivial) fun _ _ =>
      .pure (Expression.met_call arguments₁)
  | .ifElse condition positive negative, _, silent => by
    obtain ⟨both, ofNegative⟩ := List.append_eq_nil_iff.1 silent
    obtain ⟨ofCondition, ofPositive⟩ := List.append_eq_nil_iff.1 both
    rw [expression]
    refine (met_expression condition ofCondition).bind fun condition _ _ condition₁ => ?_
    refine (met_expression positive ofPositive).bind fun positive _ _ positive₁ => ?_
    refine (met_expression negative ofNegative).bind fun negative _ _ negative₁ => .pure ?_
    refine Expression.met_call (List.forall_mem_cons.2 ⟨condition₁, List.forall_mem_cons.2 ?_⟩)
    exact ⟨positive₁, List.forall_mem_singleton.2 negative₁⟩
  | .coalesce arguments, _, silent => by
    rw [expression]
    exact (met_expressions arguments silent).bind fun arguments _ _ arguments₁ =>
      .pure (Expression.met_call arguments₁)
  | .among value choices negated, _, silent => by
    obtain ⟨ofValue, ofChoices⟩ := List.append_eq_nil_iff.1 silent
    rw [expression]
    refine (met_expression value ofValue).bind fun value _ _ value₁ => ?_
    exact (met_expressions choices ofChoices).bind fun choices _ _ choices₁ =>
      .pure (Expression.met_call (List.forall_mem_cons.2 ⟨value₁, choices₁⟩))
  | .existence negated pattern, _, silent => absurd silent pattern.within_ne_nil
  | .aggregate function none distinct separator, _, _ => by
    rw [expression]
    exact .pure (Expression.met_aggregate rfl _ _ _)
  | .aggregate function (some argument) distinct separator, _, silent => by
    rw [expression]
    exact (met_expression argument silent).bind fun argument _ _ argument₁ =>
      .pure (Expression.met_aggregate argument₁ _ _ _)
  | .bracketed inner, _, silent => by
    rw [expression]
    exact met_expression inner silent

theorem met_expressions : ∀ (written : List Surface.Expression) {supply : NameSupply},
    Surface.Expression.withinAll written = [] →
    Behaves False (fun _ values => ∀ value ∈ values, value.met = [])
      (context.expressions written) supply
  | [], _, _ => .pure (List.forall_mem_nil _)
  | first :: rest, _, silent => by
    obtain ⟨ofFirst, ofRest⟩ := List.append_eq_nil_iff.1 silent
    rw [expressions]
    refine (met_expression first ofFirst).bind fun first _ _ first₁ => ?_
    exact (met_expressions rest ofRest).bind fun rest _ _ rest₁ =>
      .pure (List.forall_mem_cons.2 ⟨first₁, rest₁⟩)

end

/-! ### Subqueries -/

/-- Nothing is demanded where graph names are not put into patterns. -/
private theorem suits_nothing (plain : context.MakesPlain) (triples : context.quads = false) :
    context.Suits (.ofNames {}) :=
  ⟨plain, False.elim, by rw [triples]; exact Iff.rfl⟩

theorem met_inlineData (plain : context.MakesPlain) (triples : context.quads = false)
    {data : Surface.InlineData} (covers : supply.Covers data.names) :
    Behaves False (fun _ table => table.met = data.vars) (context.inlineData data) supply := by
  have yields : Yields (fun table => table.met = data.vars) (context.inlineData data) := by
    rw [inlineData]
    refine .bind_any fun rows => .pure ?_
    rw [Operation.met_values]
    exact (List.map_congr_left fun name _ => var_eq plain name).trans (List.map_id _)
  exact (Lowering.Behaves.and_yields (behaves_inlineData (suits_nothing plain triples) covers
    data.meets_nothing) yields).imp fun _ _ _ => And.right

/-- The items of a projection show the variables that they name. -/
theorem names_selectItems (plain : context.MakesPlain) :
    ∀ (items : List Surface.SelectItem) (aggregates : List BoundAggregate),
    Yields (fun found => found.1.map (·.1) = items.map Surface.SelectItem.name)
      ((context.selectItems items).run aggregates)
  | [], _ => .pure rfl
  | .var name :: rest, aggregates => by
    rw [selectItems, StateT.run_bind]
    refine (names_selectItems plain rest aggregates).bind fun found same => .pure ?_
    rw [List.map_cons, same, var_eq plain]
    rfl
  | .computed value name :: rest, aggregates => by
    rw [selectItems]
    simp only [StateT.run_bind]
    refine .bind_any fun _ => .bind_any fun _ => ?_
    refine (names_selectItems plain rest _).bind fun found same => .pure ?_
    rw [List.map_cons, same, var_eq plain]
    rfl

theorem met_overDataset {dataset : Option Surface.Dataset} {operation : Operation} :
    Yields (fun result => result.met = operation.met)
      (liftM (context.overDataset dataset operation) : Lowering Operation) := by
  refine .lift fun result success => ?_
  cases dataset with
  | none => cases success; rfl
  | some dataset =>
    rw [overDataset] at success
    split at success
    · cases success
      rfl
    · obtain ⟨default, -, success⟩ := ok_of_bind success
      obtain ⟨named, -, success⟩ := ok_of_bind success
      cases success
      exact Operation.met_dataset _ _ _

theorem met_sliced (limit offset : Option Nat) (operation : Operation) :
    (sliced limit offset operation).met = operation.met := by
  unfold sliced
  split
  · rfl
  · exact Operation.met_slice _ _ _

theorem met_withDuplicates (duplicates : Surface.Duplicates) (operation : Operation) :
    (withDuplicates duplicates operation).met = operation.met := by
  cases duplicates with
  | keep => rfl
  | distinct => exact Operation.met_distinct _
  | reduced => exact Operation.met_reduced _

/-- A subquery has the variables in scope that it shows; a star stands for those of trailing inline
data too. -/
theorem met_select (plain : context.MakesPlain) (query : Surface.Select) :
    Yields (fun operation => ∀ name, name ∈ operation.met
        ↔ name ∈ query.inScope ++ query.trailing) (context.select query) := by
  obtain ⟨duplicates, projection, dataset, pattern, modifiers⟩ := query
  have shown : Yields (fun found => ∀ name,
      name ∈ context.shown projection pattern modifiers.values found.1
        ↔ name ∈ Surface.Select.inScope ⟨duplicates, projection, dataset, pattern, modifiers⟩
          ++ Surface.Select.trailing ⟨duplicates, projection, dataset, pattern, modifiers⟩)
      ((context.projection projection).run []) := by
    cases projection with
    | all =>
      refine .pure fun name => ?_
      obtain ⟨groupBy, having, orderBy, limit, offset, values⟩ := modifiers
      rw [Context.shown, List.map_congr_left fun name _ => var_eq plain name, List.map_id',
        Surface.starVariables, Surface.mem_starOrder]
      cases values <;> rfl
    | items items =>
      rw [projection]
      intro supply found after success name
      rw [Context.shown, names_selectItems plain items [] supply found after success]
      simp [Surface.Select.inScope, Surface.Select.trailing]
  rw [select]
  refine .bind_any fun input => shown.bind fun found ofFound => .bind_any fun solutions => ?_
  intro supply result after success name
  rw [met_overDataset supply result after success, met_sliced, met_withDuplicates,
    Operation.met_project]
  exact ofFound name

/-! ### Patterns -/

/-- What the elements of a group make of an operation, with the filters among them. -/
structure ElementsBind (supply : NameSupply) (operation : Operation)
    (members : List Surface.Pattern) (after : NameSupply) (result : Operation × List Expression) :
    Prop where
  binds : Binds supply after
    (operation.met
      ++ (Surface.Pattern.inScopeOfAll members ++ Surface.Pattern.trailingOfAll members))
    result.1.met
  bare : ∀ filter ∈ result.2, filter.met = []

mutual

theorem binds_pattern (plain : context.MakesPlain) (triples : context.quads = false) :
    ∀ (pattern : Surface.Pattern) {supply : NameSupply}, pattern.isPositive = true →
    supply.Covers pattern.names →
    Behaves False
      (fun after operation =>
        Binds supply after (pattern.inScope ++ pattern.trailing) operation.met)
      (context.pattern pattern) supply
  | .bgp written span, _, _, _ => by
    rw [pattern]
    refine (binds_basicGraphPattern plain written).imp fun _ _ _ binds => ?_
    refine binds.congr (fun name => ?_) fun _ => Iff.rfl
    simp [Surface.Pattern.inScope, Surface.Pattern.trailing]
  | .group members span, _, positive, covers => by
    rw [pattern]
    refine (binds_elements plain triples members positive covers (List.forall_mem_nil _)).bind
      fun result _ _ treated => .pure ?_
    rw [Operation.met_filtered treated.bare]
    exact treated.binds
  | .union left right span, _, positive, covers => by
    obtain ⟨ofLeft, ofRight⟩ := Bool.and_eq_true_iff.1 positive
    simp only [Surface.Pattern.names, NameSupply.covers_and] at covers
    rw [pattern]
    refine (binds_pattern plain triples left ofLeft covers.1).bind fun first _ gives₁ first₁ => ?_
    refine (binds_pattern plain triples right ofRight (covers.2.mono gives₁)).bind
      fun second _ gives₂ second₂ => .pure ?_
    refine ((first₁.later gives₂).append (second₂.earlier gives₁)).congr (fun name => ?_)
      fun name => ?_
    · simp only [Surface.Pattern.inScope, Surface.Pattern.trailing, List.mem_append]
      grind
    · simp
  | .graph name inner span, _, positive, covers => by
    simp only [Surface.Pattern.names, NameSupply.covers_and] at covers
    rw [pattern]
    refine (binds_pattern plain triples inner positive covers.2).bind fun input _ _ binds => ?_
    refine .bindLift (vars_varOrIri plain name) fun term ofTerm => ?_
    rw [triples]
    refine .pure ((binds.append (.refl name.vars)).congr (fun other => ?_) fun other => ?_)
    · simp only [Surface.Pattern.inScope, Surface.Pattern.trailing, List.mem_append]
      grind
    · rw [Operation.graph, Operation.met_graph, ofTerm]
  | .service silent endpoint inner span, _, positive, covers => by
    simp only [Surface.Pattern.names, NameSupply.covers_and] at covers
    rw [pattern]
    refine (binds_pattern plain triples inner positive covers.2).bind fun input _ _ binds => ?_
    refine .bindLift (vars_varOrIri plain endpoint) fun term ofTerm => ?_
    refine .pure ((binds.append (.refl endpoint.vars)).congr (fun other => ?_) fun other => ?_)
    · simp only [Surface.Pattern.inScope, Surface.Pattern.trailing, List.mem_append]
      grind
    · rw [Operation.met_service, ofTerm]
  | .values data span, _, _, covers => by
    rw [pattern]
    refine (met_inlineData plain triples covers).imp fun table _ _ same => .of_iff fun name => ?_
    rw [same]
    simp [Surface.Pattern.inScope, Surface.Pattern.trailing]
  | .subquery query span, _, _, covers => by
    rw [pattern]
    refine (Lowering.Behaves.and_yields (behaves_select (suits_nothing plain triples) query covers
      query.meets_nothing) (met_select plain query)).imp fun _ _ _ result => .of_iff result.2
  | .optional _ _, _, _, _ | .bind .., _, _, _ | .filter _ _, _, _, _ => .throw id
  | .minus _ _, _, _, _ => .throw id

/-- The elements of a group add their variables to those of the elements before them. -/
theorem binds_elements (plain : context.MakesPlain) (triples : context.quads = false) :
    ∀ (members : List Surface.Pattern) {operation : Operation} {filters : List Expression}
    {supply : NameSupply}, Surface.Pattern.allPositive members = true →
    supply.Covers (Surface.Pattern.namesOfAll members) → (∀ filter ∈ filters, filter.met = []) →
    Behaves False (ElementsBind supply operation members)
      (context.elements members operation filters) supply
  | [], operation, filters, _, _, _, bare => by
    rw [elements]
    refine .pure ⟨.of_iff fun name => ?_, bare⟩
    simp [Surface.Pattern.inScopeOfAll, Surface.Pattern.trailingOfAll]
  | member :: rest, operation, filters, supply, positive, covers, bare => by
    obtain ⟨ofMember, ofRest⟩ := Bool.and_eq_true_iff.1 positive
    simp only [Surface.Pattern.namesOfAll, NameSupply.covers_and] at covers
    -- The members after the first go on from an operation that has its variables too.
    have goesOn : ∀ {next filters after}, supply.Gives after →
        Binds supply after (operation.met ++ (member.inScope ++ member.trailing)) next.met →
        (∀ filter ∈ filters, filter.met = []) →
        Behaves False (ElementsBind supply operation (member :: rest))
          (context.elements rest next filters) after := by
      intro next filters after gives binds bare
      refine (binds_elements plain triples rest ofRest (covers.2.mono gives) bare).imp
        fun result last gives₂ treated => ⟨?_, treated.bare⟩
      have first := binds.later gives₂
      have whole := treated.binds.earlier gives
      constructor
      · intro name member
        refine whole.all name ?_
        simp only [Surface.Pattern.inScopeOfAll, Surface.Pattern.trailingOfAll,
          List.mem_append] at member ⊢
        have := first.all name
        simp only [List.mem_append] at this
        grind
      · intro name member
        have := first.only name
        have := whole.only name member
        simp only [Surface.Pattern.inScopeOfAll, Surface.Pattern.trailingOfAll,
          List.mem_append] at *
        grind
    have asMember : member.isMember = true →
        Behaves False (ElementsBind supply operation (member :: rest))
          (context.elements (member :: rest) operation filters) supply := by
      intro isMember
      rw [elements_member context isMember]
      refine (binds_pattern plain triples member ofMember covers.1).bind
        fun right after gives binds => goesOn gives ?_ bare
      rw [Operation.met_simplifiedJoin]
      exact (Binds.refl operation.met).append binds
    cases member with
    | filter condition span =>
      rw [elements]
      refine (met_expression condition (List.isEmpty_iff.1 ofMember)).bind
        fun condition after gives condition₁ => goesOn gives ?_ ?_
      · exact .of_iff fun name => by simp [Surface.Pattern.inScope, Surface.Pattern.trailing]
      · exact List.forall_mem_append.2 ⟨bare, List.forall_mem_singleton.2 condition₁⟩
    | optional inner span =>
      rw [elements]
      refine (binds_pattern plain triples inner ofMember covers.1).bind
        fun right after gives binds => goesOn gives ?_ bare
      rw [Operation.met_leftJoinOf]
      exact (Binds.refl operation.met).append binds
    | minus inner span => cases ofMember
    | bind value name span =>
      rw [elements]
      refine (met_expression value (List.isEmpty_iff.1 ofMember)).bind
        fun value after gives value₁ => goesOn gives (.of_iff fun other => ?_) bare
      rw [Operation.met_extend, value₁, var_eq plain]
      simp [Surface.Pattern.inScope, Surface.Pattern.trailing]
    | bgp | group | union | values | graph | service | subquery => exact asMember rfl

end

/-! ### The scope of a pattern and of its operation -/

end Context

end QueryAlgebra
