import QueryAlgebra.Proofs.Lifting.QueryRequests
import QueryAlgebra.Proofs.Lifting.RetoldQueries

/-! # Forms of settled queries that are read again

Each form of a settled query is written over its clauses, and it is read as that form of the
solutions that are read: `GroupedQuery.Restores.reasked`. A star lists the variables that the
pattern binds, which are those that a settled form shows.
-/

namespace QueryAlgebra

open Lowering (Renews)
open Surface.Pattern (groupElements groupOf inScopeOfAll)

/-! ### Forms of corresponding solutions -/

private theorem of_wrap {related : LocalName → LocalName → Prop} {wrapper wrapper' : Wrapper}
    {input input' : Operation} :
    (Operation.of (.wrap wrapper input)).Corresponds related (.of (.wrap wrapper' input')) →
    wrapper.Corresponds related wrapper' ∧ input.Corresponds related input'
  | .mk _ (.wrap ofWrapper ofInput) => ⟨ofWrapper, ofInput⟩

/-- Forms of corresponding solutions correspond if the names in them stand for themselves. -/
theorem QueryForm.corresponds_apply {related : LocalName → LocalName → Prop} {form : QueryForm}
    (itself : ∀ name ∈ form.localNames, related name name) {solutions solutions' : Operation}
    (correspond : solutions.Corresponds related solutions') :
    (form.apply solutions).Corresponds related (form.apply solutions') := by
  have alone : (form.apply (.bgp [])).Corresponds related (form.apply (.bgp [])) := by
    refine Operation.corresponds_self ?_
    rw [QueryForm.localNames_apply]
    exact itself
  cases form with
  | select duplicates vars =>
    cases duplicates with
    | keep => exact .mk none (.wrap (of_wrap alone).1 correspond)
    | distinct | reduced =>
      obtain ⟨ofDuplicates, ofProjection⟩ := of_wrap alone
      exact .mk none (.wrap ofDuplicates (.mk none (.wrap (of_wrap ofProjection).1 correspond)))
  | ask => exact .mk none (.wrap .ask correspond)
  | describe terms => exact .mk none (.wrap (of_wrap alone).1 correspond)
  | construct template =>
    have ofTemplate : (Operation.of (.construct (.bgp []) template)).Corresponds related
        (.of (.construct (.bgp []) template)) →
        List.Forall₂ (Pattern.Corresponds (InTemplate related)) template template
      | .mk _ (.construct _ ofTemplate) => ofTemplate
    exact .mk none (.construct correspond (ofTemplate alone))

/-- So do slices of them that are asked of a dataset. -/
private theorem corresponds_askedOf {related : LocalName → LocalName → Prop}
    {operation operation' : Operation} (dataset : Option (List NamedNode × List NamedNode))
    (slice : Option (Nat × Option Nat)) (correspond : operation.Corresponds related operation') :
    (PlainQuery.askedOf dataset (PlainQuery.cut slice operation)).Corresponds related
      (PlainQuery.askedOf dataset (PlainQuery.cut slice operation')) := by
  have ofCut : (PlainQuery.cut slice operation).Corresponds related
      (PlainQuery.cut slice operation') := by
    cases slice with
    | none => exact correspond
    | some => exact .mk none (.wrap (.slice _ _) correspond)
  cases dataset with
  | none => exact ofCut
  | some => exact .mk none (.wrap (.dataset _ _) ofCut)

/-! ### What is shown -/

private theorem Extensions.take_textsOf (name : Variable) (bindings : Bindings) :
    Extensions.take name (GroupedQuery.textsOf bindings)
      = (((bindings.find? (·.1 = name)).map (·.2)).map (·.text),
        GroupedQuery.textsOf (bindings.eraseP (·.1 = name))) := by
  induction bindings with
  | nil => rfl
  | cons entry rest ih =>
    have first : GroupedQuery.textsOf (entry :: rest)
        = (entry.1, entry.2.text) :: GroupedQuery.textsOf rest := rfl
    rw [first, take]
    by_cases same : entry.1 = name
    · rw [if_pos same, List.find?_cons_of_pos (by simpa using same),
        List.eraseP_cons_of_pos (by simpa using same)]
      rfl
    · rw [if_neg same, ih, List.find?_cons_of_neg (by simpa using same),
        List.eraseP_cons_of_neg (by simpa using same)]
      rfl

/-- The items of a projection are written with the texts of the values that they take, if no shown
variable has a value as an aggregate. -/
theorem Extensions.selectItems_textsOf {values : NameMap Surface.Expression} {vars : List Variable}
    (free : ∀ name ∈ vars, values.find? name.name = none) (bindings : Bindings) :
    (GroupedQuery.textsOf bindings).selectItems values vars
      = ((Bindings.take vars bindings).1.map (Context.itemOf Expression.text),
        GroupedQuery.textsOf (Bindings.take vars bindings).2) := by
  induction vars generalizing bindings with
  | nil => rfl
  | cons name names ih =>
    obtain ⟨first, others⟩ := List.forall_mem_cons.1 free
    rw [selectItems, take_textsOf, ih others, first, Bindings.take, Option.or_none]
    cases bindings.find? (·.1 = name) <;> rfl

namespace GroupedQuery

variable {query : GroupedQuery} {inner elements : List Surface.Pattern}

/-- A settled query before its form is added. -/
def scope (query : GroupedQuery) (elements : List Surface.Pattern) : QueryScope :=
  ⟨groupElements elements, query.extensions, query.values, query.modifiers⟩

theorem isGrouped_scope (settled : query.IsSettled) :
    (query.scope elements).isGrouped = query.isGrouped := by
  have keys : ((query.scope elements).modifiers.groupBy).isSome = !query.keys.isEmpty := by
    show (if query.keys.isEmpty then none
      else some (query.keys.map Surface.GroupKey.var)).isSome = _
    cases query.keys <;> rfl
  have values : query.values.isEmpty = query.aggregates.isEmpty := by
    rw [NameMap.isEmpty, GroupedQuery.values,
      ← (NameMap.perm_entries_ofList (nodup_texts settled.distinct)).isEmpty_eq, List.isEmpty_map]
  rw [QueryScope.isGrouped, keys, isGrouped, Bool.not_and]
  exact congrArg (fun empty => !query.keys.isEmpty || !empty) values

/-- What a settled query is written to show. -/
def projection (query : GroupedQuery) : Surface.Projection :=
  if query.hasStar then .all
  else .items ((Bindings.take query.form.vars query.bindings).1.map
    (Context.itemOf Expression.text))

/-- The SELECT query that is written. -/
def asSelect (query : GroupedQuery) (elements : List Surface.Pattern)
    (duplicates : Surface.Duplicates) (limit offset : Option Nat)
    (dataset : Option Surface.Dataset) : Surface.Select :=
  ⟨duplicates, query.projection, dataset, query.written elements,
    query.slicedModifiers limit offset⟩

private theorem any_isComputed (items : List (Variable × Option Expression)) :
    (items.map (Context.itemOf Expression.text)).any (·.isComputed)
      = !(Bindings.ofItems items).isEmpty := by
  induction items with
  | nil => rfl
  | cons item rest ih =>
    obtain ⟨name, _ | value⟩ := item
    · exact ih
    · rfl

theorem IsSettled.select_scope (settled : query.IsSettled) {duplicates : Surface.Duplicates}
    {vars : List Variable} (form : query.form = .select duplicates vars) :
    (query.scope elements).select (query.flat.solutions.shows vars) vars
      = query.asSelect elements .keep none none none := by
  have shown : (query.scope elements).extensions.selectItems (query.scope elements).aggregates vars
      = ((Bindings.take query.form.vars query.bindings).1.map (Context.itemOf Expression.text),
        textsOf query.left) := by
    have formVars : query.form.vars = vars := by rw [form]; rfl
    rw [PlainQuery.left, formVars]
    refine Extensions.selectItems_textsOf (fun name member => ?_) query.bindings
    refine find?_values_eq_none settled.distinct fun bound isBound same => ?_
    exact (settled.fresh bound isBound).2.1 (formVars ▸ same ▸ member)
  have star : (!((Bindings.take query.form.vars query.bindings).1.map
        (Context.itemOf Expression.text)).any (·.isComputed)
      && !(query.scope elements).isGrouped && query.flat.solutions.shows vars) = query.hasStar := by
    rw [any_isComputed, isGrouped_scope settled, Bool.not_not, GroupedQuery.hasStar, form,
      QueryForm.showsAll, QueryForm.isSelect, PlainQuery.shown, form, Bool.and_true,
      Bool.and_right_comm]
  rw [QueryScope.select, shown]
  simp only [star]
  rfl

end GroupedQuery

/-! ### Stars -/

/-- Values that are bound are bound besides what is bound below them. -/
private theorem Bindings.bound_extend (bindings : Bindings) (operation : Operation) :
    (bindings.extend operation).bound = operation.bound ++ bindings.map (·.1) := by
  induction bindings generalizing operation with
  | nil => exact (List.append_nil _).symm
  | cons entry rest ih =>
    refine (ih (.of (.extend operation entry.1 entry.2))).trans ?_
    rw [List.map_cons, List.append_cons]
    rfl

private theorem bound_ordered (order : List (Surface.Direction × Expression))
    (operation : Operation) : (PlainQuery.ordered order operation).bound = operation.bound := by
  cases order <;> rfl

private theorem inScopeOfAll_binds (bindings : Bindings) :
    inScopeOfAll (GroupedQuery.textsOf bindings).binds = bindings.map (·.1) := by
  induction bindings with
  | nil => rfl
  | cons entry rest ih => exact congrArg (entry.1 :: ·) ih

namespace GroupedQuery.Restores

variable {context : Context} {known : Variable → Prop} {query : GroupedQuery}
  {inner elements : List Surface.Pattern} {names : List Variable}
  {namesOf : Expression → List Variable}

/-- The elements of the pattern list what it binds. -/
private theorem mem_inScope (restores : query.Restores context known inner names namesOf)
    (name : Variable) : name ∈ inScopeOfAll inner ↔ name ∈ query.core.bound := by
  have fits := (@Operation.grants_written .nothing (fun _ _ => trivial) false [] query.core
    (fun _ _ => trivial) nofun).asElements
  rw [restores.core.written] at fits
  obtain ⟨-, accounts⟩ := fits
  exact ⟨fun member => accounts.listed member, fun member =>
    (accounts.complete name member).resolve_right List.not_mem_nil⟩

/-- A star over the written pattern stands for the variables that the solutions bind. -/
private theorem starVariables_eq (restores : query.Restores context known inner names namesOf)
    (ungrouped : query.isGrouped = false) (all : query.shown = []) :
    Surface.starVariables (some (query.written inner)) none
      = query.flat.solutions.bound.eraseDups.foldr Surface.insertStar [] := by
  have listed : (query.written inner).inScope = inScopeOfAll inner ++ query.left.map (·.1) := by
    have same : inScopeOfAll (groupElements inner) = inScopeOfAll inner :=
      Context.inScope_groupOf inner
    rw [GroupedQuery.written, Context.inScope_groupOf, Context.inScopeOfAll_append, same,
      inScopeOfAll_binds]
  have left : query.left = query.bindings := by
    rw [← restores.settled.values, all, List.append_nil]
  have bound : query.flat.solutions.bound = query.core.bound ++ query.bindings.map (·.1) := by
    obtain ⟨noAggregates, noKeys, noConditions⟩ :=
      restores.settled.conditions_eq_nil ungrouped
    have core : query.flat.core = query.core := by
      rw [flat, noAggregates, noKeys, noConditions]
      rfl
    rw [PlainQuery.solutions, bound_ordered, Bindings.bound_extend, core, flat, List.map_map]
    rfl
  rw [Surface.starVariables, Option.map_some, Option.getD_some, Option.map_none, Option.getD_none,
    List.append_nil, listed, bound, left]
  exact Surface.starOrder_congr fun name => by
    rw [List.mem_append, List.mem_append, restores.mem_inScope]

end GroupedQuery.Restores

/-! ### The four forms -/

/-- A form of solutions is written as a query that is read as it, but with new variables for old
ones, whatever slice and dataset are added to it. -/
structure Context.Restates (context : Context) (known : Variable → Prop) (form : QueryForm)
    (solutions : Operation) (names : List Variable)
    (asked : Option Nat → Option Nat → Option Surface.Dataset → Surface.Query) : Prop where
  written : (form.apply solutions).written false = pure (.query (asked none none none))
  selects : form.isSelect = true → ∀ limit offset dataset,
    ∃ inner, asked limit offset dataset = .select inner
  slice : ∀ start length, (asked none none none).mapModifiers (.sliced start length)
    = asked length (if start = 0 then none else some start) none
  dataset : ∀ limit offset dataset,
    (asked limit offset none).withDataset dataset = asked limit offset (some dataset)
  reads : ∀ limit offset, ∃ step,
    Renews False known names
      (fun related again => (form.apply solutions).Corresponds related again) step
    ∧ ∀ dataset, context.query (asked limit offset dataset) = (do
      let again ← step
      context.overDataset dataset (Context.sliced limit offset again))

namespace GroupedQuery.Restores

variable {context : Context} {known : Variable → Prop} {query : GroupedQuery}
  {inner elements : List Surface.Pattern} {names : List Variable}
  {namesOf : Expression → List Variable}

/-- The pattern that is written for a settled query. -/
structure Writes (query : GroupedQuery) (inner elements : List Surface.Pattern) : Prop where
  scope : (query.flat.solutions.written true).asScope = .ok (query.scope elements)
  ungrouped : query.isGrouped = false → elements = inner
  asInner : ∀ context : Context, context.pattern (.group elements .none)
    = context.pattern (.group inner .none)

theorem exists_writes (restores : query.Restores context known inner names namesOf) :
    ∃ elements, Writes query inner elements :=
  have ⟨elements, scope, ungrouped, asInner⟩ := exists_scope restores.settled restores.spelled
  ⟨elements, scope, ungrouped, asInner⟩

/-- What a settled query shows is read as such. -/
private theorem shown_eq (plain : context.MakesPlain)
    (restores : query.Restores context known inner names namesOf)
    (writes : Writes query inner elements) {duplicates : Surface.Duplicates}
    {vars : List Variable} (form : query.form = .select duplicates vars) :
    ∃ items, Bindings.ofItems items = query.shown
      ∧ (query.projection = .items (items.map (Context.itemOf Expression.text))
        ∨ query.projection = .all ∧ items = [])
      ∧ ∀ read : List (Variable × Option Expression), read.map (·.1) = items.map (·.1) →
        context.shown query.projection (query.written elements) none read = vars := by
  have formVars : query.form.vars = vars := by rw [form]; rfl
  by_cases isStar : query.hasStar = true
  · have all : query.projection = .all := if_pos isStar
    have none : query.shown = [] := by
      rw [GroupedQuery.hasStar, Bool.and_eq_true, Bool.and_eq_true] at isStar
      exact List.isEmpty_iff.1 isStar.1.1
    obtain ⟨ungrouped, star⟩ := restores.settled.star isStar
    refine ⟨[], none.symm, .inr ⟨all, rfl⟩, fun read _ => ?_⟩
    rw [all, Context.shown, List.map_congr_left fun name _ => Context.var_eq plain name,
      List.map_id', writes.ungrouped ungrouped, restores.starVariables_eq ungrouped none]
    rw [form] at star
    cases star
    rfl
  · refine ⟨(Bindings.take query.form.vars query.bindings).1, rfl, .inl (if_neg isStar),
      fun read same => ?_⟩
    rw [GroupedQuery.projection, if_neg isStar, Context.shown, same, Bindings.names_take, formVars]

private theorem restates_select (plain : context.MakesPlain)
    (restores : query.Restores context known inner names namesOf) {duplicates : Surface.Duplicates}
    {vars : List Variable} (form : query.form = .select duplicates vars) :
    ∃ asked, context.Restates known query.form query.flat.solutions
      (newNames query names namesOf) asked := by
  obtain ⟨elements, writes⟩ := restores.exists_writes
  refine ⟨fun limit offset dataset =>
    .select (query.asSelect elements duplicates limit offset dataset), ?_,
    fun _ _ _ _ => ⟨_, rfl⟩, ?_, ?_, ?_⟩
  · have projected : (Operation.of (.wrap (.project vars) query.flat.solutions)).written false
        = pure (.query (.select (query.asSelect elements .keep none none none))) := by
      rw [Operation.of, Operation.written, Operator.written, writes.scope, Collecting.lift_ok,
        pure_bind, restores.settled.select_scope form]
    rw [form, QueryForm.apply]
    cases duplicates with
    | keep => exact projected
    | distinct | reduced =>
      rw [Context.withDuplicates, Operation.of, Operation.written, Operator.written,
        Collecting.asQuery, projected]
      rfl
  · intro start length
    cases length <;> rfl
  · intro limit offset dataset
    rfl
  · intro limit offset
    obtain ⟨items, shown, shows, names⟩ := restores.shown_eq plain writes form
    refine ⟨_, (restores.solutions plain writes.ungrouped (writes.asInner context) shown shows limit
      offset).map_of_keep (f := fun result => Context.withDuplicates duplicates (.of (.wrap
        (.project (context.shown query.projection (query.written elements) none result.1))
        result.2))) fun related keep result both => ?_, fun dataset => ?_⟩
    · obtain ⟨same, correspond⟩ := both
      rw [names result.1 same]
      have ofForm := QueryForm.corresponds_apply (restores.ofForm.itself keep) correspond
      rw [form] at ofForm ⊢
      exact ofForm
    · rw [Context.query, asSelect, Context.select, Context.solutionsOf]
      simp only [bind_assoc, pure_bind]
      rfl

/-- The solutions of a query that shows no variables. -/
private theorem solutionsOf_all (pattern : Surface.Pattern) (modifiers : Surface.Modifiers) :
    context.solutionsOf pattern .all modifiers = (do
      let input ← context.pattern pattern
      let solutions ← context.solutions [] [] input modifiers
      pure ([], solutions)) := by
  have read : (context.projection .all).run [] = pure ([], []) := by
    rw [Context.projection]
    rfl
  rw [Context.solutionsOf]
  simp only [read, pure_bind]

/-- The solutions of a settled query that shows no variables are read as such. -/
private theorem solutions_all (plain : context.MakesPlain)
    (restores : query.Restores context known inner names namesOf)
    (writes : Writes query inner elements) (none : query.form.vars = [])
    (limit offset : Option Nat) :
    Renews False known (newNames query names namesOf)
      (fun related result => query.flat.solutions.Corresponds related result.2)
      (context.solutionsOf (query.written elements) .all (query.slicedModifiers limit offset)) := by
  have shown : Bindings.ofItems [] = query.shown := by
    rw [PlainQuery.shown, none]
    rfl
  exact (restores.solutions plain writes.ungrouped (writes.asInner context) shown (.inr ⟨rfl, rfl⟩)
    limit offset).imp fun related result holds => holds.2

/-- All values of a query that shows no variables are bound in its pattern. -/
private theorem pattern_scope (none : query.form.vars = []) :
    (query.scope elements).pattern = query.written elements := by
  have left : query.left = query.bindings := by
    rw [PlainQuery.left, none]
    rfl
  rw [GroupedQuery.written, left]
  rfl

/-- A form that shows no variables is read as such if it is read over the solutions. -/
private theorem restates_of_none (plain : context.MakesPlain)
    (restores : query.Restores context known inner names namesOf)
    (writes : Writes query inner elements) (noVars : query.form.vars = [])
    (other : query.form.isSelect = false)
    {asked : Option Nat → Option Nat → Option Surface.Dataset → Surface.Query}
    (written : (query.form.apply query.flat.solutions).written false
      = pure (.query (asked none none none)))
    (slice : ∀ start length, (asked none none none).mapModifiers (.sliced start length)
      = asked length (if start = 0 then none else some start) none)
    (dataset : ∀ limit offset dataset,
      (asked limit offset none).withDataset dataset = asked limit offset (some dataset))
    (reads : ∀ limit offset dataset, context.query (asked limit offset dataset) = (do
      let (_, solutions) ← context.solutionsOf (query.written elements) .all
        (query.slicedModifiers limit offset)
      context.overDataset dataset (Context.sliced limit offset (query.form.apply solutions)))) :
    context.Restates known query.form query.flat.solutions (newNames query names namesOf)
      asked where
  written := written
  selects isSelect := by
    rw [other] at isSelect
    cases isSelect
  slice := slice
  dataset := dataset
  reads limit offset := by
    refine ⟨_, (restores.solutions_all plain writes noVars limit offset).map_of_keep
      (f := fun result => query.form.apply result.2) fun related keep result correspond =>
        QueryForm.corresponds_apply (restores.ofForm.itself keep) correspond, fun dataset => ?_⟩
    rw [reads]
    simp only [bind_assoc, pure_bind]

private theorem restates_ask (plain : context.MakesPlain)
    (restores : query.Restores context known inner names namesOf) (form : query.form = .ask) :
    ∃ asked, context.Restates known query.form query.flat.solutions
      (newNames query names namesOf) asked := by
  have none : query.form.vars = [] := by rw [form]; rfl
  obtain ⟨elements, writes⟩ := restores.exists_writes
  refine ⟨fun limit offset dataset => .ask
    { dataset
      pattern := query.written elements
      modifiers := query.slicedModifiers limit offset },
    restores.restates_of_none plain writes none (by rw [form]; rfl) ?_ ?_ (fun _ _ _ => rfl) ?_⟩
  · rw [form, QueryForm.apply, Operation.of, Operation.written, Operator.written, writes.scope,
      Collecting.lift_ok, pure_bind, QueryScope.ask, pattern_scope none]
    rfl
  · intro start length
    cases length <;> rfl
  · intro limit offset dataset
    rw [form, Context.query, Context.ask, solutionsOf_all]
    simp only [bind_assoc, pure_bind]
    rfl

private theorem restates_construct (plain : context.MakesPlain)
    (restores : query.Restores context known inner names namesOf) {template : List Pattern}
    (form : query.form = .construct template) :
    ∃ asked, context.Restates known query.form query.flat.solutions
      (newNames query names namesOf) asked := by
  have none : query.form.vars = [] := by rw [form]; rfl
  have writable : template.all Pattern.isWritable = true := by
    have ofForm := restores.settled.form
    rwa [form] at ofForm
  obtain ⟨triples, written, read⟩ := Context.template_written plain writable
  obtain ⟨elements, writes⟩ := restores.exists_writes
  refine ⟨fun limit offset dataset => .construct
    { template := some triples
      dataset
      pattern := query.written elements
      modifiers := query.slicedModifiers limit offset },
    restores.restates_of_none plain writes none (by rw [form]; rfl) ?_ ?_ (fun _ _ _ => rfl) ?_⟩
  · rw [form, QueryForm.apply, Operation.of, Operation.written, Operator.written, writes.scope,
      Collecting.lift_ok, pure_bind, written]
    show pure (Lifted.query (.construct ((query.scope elements).construct triples))) = _
    rw [QueryScope.construct, pattern_scope none]
    rfl
  · intro start length
    cases length <;> rfl
  · intro limit offset dataset
    rw [form, Context.query, Context.construct, solutionsOf_all]
    simp only [bind_assoc, pure_bind, Option.getD_some, read]
    rfl

/-! #### What is described -/

/-- Leaving out a pattern without elements changes neither the solutions nor what a star stands
for. -/
private theorem optional_pattern (elements : List Surface.Pattern)
    (none : query.form.vars = []) :
    (if (query.scope elements).isEmpty then Option.none else some (query.scope elements).pattern)
        = some (query.written elements)
      ∨ (if (query.scope elements).isEmpty then Option.none
          else some (query.scope elements).pattern) = Option.none
        ∧ query.written elements = .group [] .none := by
  by_cases empty : (query.scope elements).isEmpty = true
  · obtain ⟨noElements, noValues⟩ := Bool.and_eq_true_iff.1 empty
    have isEmpty : (query.scope elements).pattern = .group [] .none := by
      rw [QueryScope.pattern, List.isEmpty_iff.1 noElements, List.isEmpty_iff.1 noValues]
      rfl
    exact .inr ⟨if_pos empty, (pattern_scope none).symm.trans isEmpty⟩
  · exact .inl (by rw [if_neg empty, pattern_scope none])

private theorem describe_eq {pattern : Surface.Pattern} {optional : Option Surface.Pattern}
    (present : optional = some pattern ∨ optional = none ∧ pattern = .group [] .none)
    (target : Surface.DescribeTarget) (dataset : Option Surface.Dataset)
    (modifiers : Surface.Modifiers) :
    context.describe ⟨target, dataset, optional, modifiers⟩ = (do
      let (_, solutions) ← context.solutionsOf pattern .all modifiers
      let terms ← context.described ⟨target, dataset, some pattern, modifiers⟩
      context.overDataset dataset (Context.sliced modifiers.limit modifiers.offset
        (.of (.wrap (.describe terms) solutions)))) := by
  rw [solutionsOf_all, Context.describe]
  simp only [bind_assoc, pure_bind]
  rcases present with rfl | ⟨rfl, rfl⟩
  · rfl
  · have nothing : context.pattern (.group [] .none) = pure (.bgp []) := by
      rw [Context.pattern, Context.elements, pure_bind]
      rfl
    rw [nothing, pure_bind]
    rfl

private theorem restates_describe (plain : context.MakesPlain)
    (restores : query.Restores context known inner names namesOf) {terms : List Term}
    (form : query.form = .describe terms) :
    ∃ asked, context.Restates known query.form query.flat.solutions
      (newNames query names namesOf) asked := by
  have none : query.form.vars = [] := by rw [form]; rfl
  have all : query.shown = [] := by
    rw [PlainQuery.shown, none]
    rfl
  have writable : terms.all Term.isWritableName = true := by
    have ofForm := restores.settled.form
    rwa [form] at ofForm
  obtain ⟨resources, written, read⟩ := PlainQuery.resources_written plain writable
  obtain ⟨elements, writes⟩ := restores.exists_writes
  have star : query.hasStar = (terms.all (·.isVariable)
      && query.flat.solutions.shows (terms.filterMap Term.asVariable?)) := by
    have noItems : query.form.isSelect = false := by rw [form]; rfl
    rw [GroupedQuery.hasStar, all, noItems, form, Bool.and_false]
    exact Bool.and_true _
  have target : query.flat.solutions.describeTarget terms
      = .ok (if query.hasStar then .all else .resources resources) := by
    rw [Operation.describeTarget, ← star, written]
    split <;> rfl
  have described : ∀ limit offset dataset, context.described
      ⟨if query.hasStar then .all else .resources resources, dataset,
        some (query.written elements), query.slicedModifiers limit offset⟩ = .ok terms := by
    intro limit offset dataset
    rw [Context.described]
    by_cases isStar : query.hasStar = true
    · obtain ⟨ungrouped, isForm⟩ := restores.settled.star isStar
      rw [form] at isForm
      have isStarred := QueryForm.describe.inj isForm
      have same : context.var = id := funext (Context.var_eq plain)
      rw [if_pos isStar, writes.ungrouped ungrouped, same]
      show Except.ok ((Surface.starVariables (some (query.written inner)) Option.none).map
        Term.var) = _
      rw [restores.starVariables_eq ungrouped all, isStarred]
    · simp only [if_neg isStar]
      exact read
  have present := optional_pattern elements none
  refine ⟨fun limit offset dataset => .describe
    ⟨if query.hasStar then .all else .resources resources, dataset,
      if (query.scope elements).isEmpty then Option.none else some (query.scope elements).pattern,
      query.slicedModifiers limit offset⟩,
    restores.restates_of_none plain writes none (by rw [form]; rfl) ?_ ?_ (fun _ _ _ => rfl) ?_⟩
  · rw [form, QueryForm.apply, Operation.of, Operation.written, Operator.written, writes.scope,
      Collecting.lift_ok, pure_bind, target]
    rfl
  · intro start length
    cases length <;> rfl
  · intro limit offset dataset
    rw [form, Context.query, describe_eq present]
    simp only [described]
    rfl

/-! ### Queries -/

private theorem exists_restates (plain : context.MakesPlain)
    (restores : query.Restores context known inner names namesOf) :
    ∃ asked, context.Restates known query.form query.flat.solutions
      (newNames query names namesOf) asked := by
  cases form : query.form with
  | select duplicates vars => exact form ▸ restores.restates_select plain form
  | ask => exact form ▸ restores.restates_ask plain form
  | describe terms => exact form ▸ restores.restates_describe plain form
  | construct template => exact form ▸ restores.restates_construct plain form

end GroupedQuery.Restores

/-- A query is written as one that is read as it, but with new variables for old ones. -/
structure Context.Reasks (context : Context) (known : Variable → Prop) (query : GroupedQuery)
    (names : List Variable) (asked : Surface.Query) : Prop where
  written : query.operation.written false = pure (.query asked)
  selects : query.form.isSelect = true → ∃ inner, asked = .select inner
  reads : Renews False known names (fun related again => query.operation.Corresponds related again)
    (context.query asked)

/-- A settled query is written as one that is read as it, with its slice and its dataset. -/
theorem GroupedQuery.Restores.reasked {context : Context} {known : Variable → Prop}
    {query : GroupedQuery} {inner : List Surface.Pattern} {names : List Variable}
    {namesOf : Expression → List Variable} (plain : context.MakesPlain)
    (restores : query.Restores context known inner names namesOf) :
    ∃ asked, context.Reasks known query (newNames query names namesOf) asked := by
  obtain ⟨asked, restates⟩ := restores.exists_restates plain
  obtain ⟨step, renews, reads⟩ := restates.reads (PlainQuery.limits query.slice).1
    (PlainQuery.limits query.slice).2
  refine ⟨asked (PlainQuery.limits query.slice).1 (PlainQuery.limits query.slice).2
    (PlainQuery.graphs query.dataset), ?_, fun isSelect => restates.selects isSelect _ _ _, ?_⟩
  · have ofCut : (PlainQuery.cut query.slice (query.form.apply query.flat.solutions)).written false
        = pure (.query (asked (PlainQuery.limits query.slice).1
          (PlainQuery.limits query.slice).2 none)) := by
      rcases query.slice with _ | ⟨start, length⟩
      · exact restates.written
      · rw [PlainQuery.cut, Operation.of, Operation.written, Operator.written, Collecting.asQuery,
          restates.written]
        show pure (Lifted.query (Surface.Query.mapModifiers (.sliced start length) _)) = _
        rw [restates.slice]
        rfl
    show (PlainQuery.askedOf query.dataset
      (PlainQuery.cut query.slice (query.form.apply query.flat.solutions))).written false = _
    rcases query.dataset with _ | ⟨default, named⟩
    · exact ofCut
    · rw [PlainQuery.askedOf, Operation.of, Operation.written, Operator.written,
        Collecting.asQuery, ofCut]
      show pure (Lifted.query (Surface.Query.withDataset (.ofNodes default named) _)) = _
      rw [restates.dataset]
      rfl
  · have sliced : query.slice.filter (· ≠ (0, none)) = query.slice := by
      cases slice : query.slice with
      | none => rfl
      | some bounds =>
        have other : bounds ≠ (0, none) :=
          fun same => restores.settled.slice (slice.trans (same ▸ rfl))
        simp [Option.filter, other]
    rw [reads]
    simp only [PlainQuery.sliced_limits, sliced, PlainQuery.overDataset_graphs plain
      restores.settled.graphs restores.settled.nonempty]
    exact renews.map fun related again => corresponds_askedOf query.dataset query.slice

end QueryAlgebra
