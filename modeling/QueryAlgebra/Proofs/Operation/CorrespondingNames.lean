import QueryAlgebra.Proofs.Operation.Correspondence

/-! # The names of corresponding operations

The names of corresponding operations, other than the labels of blank nodes in construction
templates, are listed by going through both in step, so a relation of lists that puts together
related names holds of them: `Operation.Corresponds.gathered`. In particular every name of one is
related to a name of the other: `Operation.Corresponds.names`.
-/

namespace QueryAlgebra

/-! ### Inline data -/

/-- The header and the rows of an operator that is inline data. -/
def Operator.ownTables : Operator → List (List Variable × List Row)
  | .values vars rows => [(vars, rows)]
  | _ => []

/-- What inline data the parts of an operation are. -/
def Gather.ofTables : Gather (List Variable × List Row) where
  closed _ := false
  pattern _ _ := []
  expression _ := []
  operator := Operator.ownTables

/-- The inline data of an operation. -/
def Operation.tables (operation : Operation) : List (List Variable × List Row) :=
  operation.gather .ofTables

/-- The inline data of an operator, that of its inputs first. -/
def Operator.tables (operator : Operator) : List (List Variable × List Row) :=
  operator.gather .ofTables ++ operator.ownTables

/-- The names of a table are those of its header and of its rows. -/
theorem flatMap_localNames_table (vars : List Variable) (rows : List Row) :
    (Operator.ownTerms (.values vars rows)).flatMap Term.localNames
      = (vars.map Term.var).flatMap Term.localNames
        ++ rows.flatMap fun row => (rowTerms row).flatMap Term.localNames := by
  rw [Operator.ownTerms, List.flatMap_append, List.flatMap_assoc]

/-! ### Relations of lists of names -/

/-- A relation of lists of names that holds of lists put together in step from related names. -/
structure InStep (related : LocalName → LocalName → Prop)
    (alike : List LocalName → List LocalName → Prop) : Prop where
  nil : alike [] []
  single {m n : LocalName} : related m n → alike [m] [n]
  append {first second more others : List LocalName} :
    alike first second → alike more others → alike (first ++ more) (second ++ others)

namespace InStep

variable {related : LocalName → LocalName → Prop}
  {alike : List LocalName → List LocalName → Prop}

theorem flatMap (inStep : InStep related alike) {α : Type} {P : α → α → Prop}
    {namesOf : α → List LocalName} {xs ys : List α} (correspond : List.Forall₂ P xs ys)
    (ofMember : ∀ x y, P x y → alike (namesOf x) (namesOf y)) :
    alike (xs.flatMap namesOf) (ys.flatMap namesOf) := by
  induction correspond with
  | nil => exact inStep.nil
  | cons head _ ih => exact inStep.append (ofMember _ _ head) ih

/-- In a template the variables alone are put together. -/
theorem ofTemplate (inStep : InStep related alike) :
    InStep (InTemplate related) fun first second =>
      alike (first.filter LocalName.isVar) (second.filter LocalName.isVar) where
  nil := inStep.nil
  single isRelated := by
    cases isRelated with
    | var isRelated => exact inStep.single isRelated
    | blank label => exact inStep.nil
  append ofFirst ofMore := by
    rw [List.filter_append, List.filter_append]
    exact inStep.append ofFirst ofMore

end InStep

section

variable {related : LocalName → LocalName → Prop}
  {alike : List LocalName → List LocalName → Prop}

theorem Term.Corresponds.gathered (inStep : InStep related alike) {first second : Term}
    (correspond : first.Corresponds related second) :
    alike first.localNames second.localNames := by
  induction correspond with
  | iri | literal | defaultGraph => exact inStep.nil
  | blank isRelated => exact inStep.single isRelated
  | var isRelated => exact inStep.single isRelated
  | quad _ _ _ _ ihSubject ihPredicate ihObject ihGraph =>
    rw [Term.localNames_quad, Term.localNames_quad]
    exact inStep.append (inStep.append (inStep.append ihSubject ihPredicate) ihObject) ihGraph

theorem Term.Corresponds.all_gathered (inStep : InStep related alike)
    {first second : List Term} (correspond : List.Forall₂ (Term.Corresponds related) first second) :
    alike (first.flatMap Term.localNames) (second.flatMap Term.localNames) :=
  inStep.flatMap correspond fun _ _ => Term.Corresponds.gathered inStep

theorem Variable.Corresponds.all_gathered (inStep : InStep related alike)
    {first second : List Variable}
    (correspond : List.Forall₂ (Variable.Corresponds related) first second) :
    alike ((first.map Term.var).flatMap Term.localNames)
      ((second.map Term.var).flatMap Term.localNames) := by
  rw [List.flatMap_map, List.flatMap_map]
  exact inStep.flatMap correspond fun _ _ isRelated => inStep.single isRelated

theorem Pattern.Corresponds.gathered (inStep : InStep related alike) {first second : Pattern}
    (correspond : first.Corresponds related second) :
    alike (first.terms.flatMap Term.localNames) (second.terms.flatMap Term.localNames) :=
  Term.Corresponds.all_gathered inStep (.cons correspond.subject (.cons correspond.predicate
    (.cons correspond.object (.cons correspond.graph .nil))))

theorem Pattern.Corresponds.all_gathered (inStep : InStep related alike) {place : Place}
    (outside : place ≠ .template) {first second : List Pattern}
    (correspond : List.Forall₂ (Pattern.Corresponds related) first second) :
    alike (first.flatMap (Gather.ofLocalNames.pattern place))
      (second.flatMap (Gather.ofLocalNames.pattern place)) := by
  simp only [Gather.ofLocalNames, if_neg outside]
  exact inStep.flatMap correspond fun _ _ => Pattern.Corresponds.gathered inStep

theorem Pattern.Corresponds.template_gathered (inStep : InStep related alike)
    {first second : List Pattern}
    (correspond : List.Forall₂ (Pattern.Corresponds (InTemplate related)) first second) :
    alike (first.flatMap (Gather.ofLocalNames.pattern .template))
      (second.flatMap (Gather.ofLocalNames.pattern .template)) :=
  inStep.flatMap correspond fun _ _ => Pattern.Corresponds.gathered inStep.ofTemplate

theorem Pattern.Corresponds.optional_gathered (inStep : InStep related alike) {place : Place}
    (outside : place ≠ .template) {first second : Option (List Pattern)}
    (correspond : Option.Rel (List.Forall₂ (Pattern.Corresponds related)) first second) :
    alike ((first.getD []).flatMap (Gather.ofLocalNames.pattern place))
      ((second.getD []).flatMap (Gather.ofLocalNames.pattern place)) := by
  cases correspond with
  | none => exact inStep.nil
  | some patterns => exact all_gathered inStep outside patterns

theorem Wrapper.Corresponds.gathered (inStep : InStep related alike) {first second : Wrapper}
    (correspond : first.Corresponds related second) :
    alike (first.ownTerms.flatMap Term.localNames)
      (second.ownTerms.flatMap Term.localNames) := by
  cases correspond with
  | project vars => exact Variable.Corresponds.all_gathered inStep vars
  | graph name => exact Term.Corresponds.all_gathered inStep (.cons name .nil)
  | service silent name => exact Term.Corresponds.all_gathered inStep (.cons name .nil)
  | describe terms => exact Term.Corresponds.all_gathered inStep terms
  | distinct | reduced | slice | dataset | ask => exact inStep.nil

/-- What is put together from the names of corresponding tables of a kind. -/
abbrev TablesInStep (related : LocalName → LocalName → Prop)
    (alike : List LocalName → List LocalName → Prop) (holds : List Variable → List Row → Prop) :
    Prop :=
  ∀ ⦃vars vars' rows rows'⦄, holds vars rows →
    List.Forall₂ (Variable.Corresponds related) vars vars' →
    List.Forall₂ (Row.Corresponds related) rows rows' →
    alike ((Operator.ownTerms (.values vars rows)).flatMap Term.localNames)
      ((Operator.ownTerms (.values vars' rows')).flatMap Term.localNames)

variable {holds : List Variable → List Row → Prop}

mutual

/-- What is put together from related names in step is so from the names of corresponding
operations. -/
theorem Operation.Corresponds.gathered (inStep : InStep related alike)
    (ofTables : TablesInStep related alike holds) : ∀ {first second : Operation},
    (∀ table ∈ first.tables, holds table.1 table.2) → first.Corresponds related second →
    alike first.localNames second.localNames
  | ⟨_, _⟩, _, tables, .mk _ operators =>
    Operator.Corresponds.gathered inStep ofTables tables operators
termination_by structural first => first

theorem Operator.Corresponds.gathered (inStep : InStep related alike)
    (ofTables : TablesInStep related alike holds) : ∀ {first second : Operator},
    (∀ table ∈ first.tables, holds table.1 table.2) → first.Corresponds related second →
    alike first.localNames second.localNames
  | .bgp _, _, _, .bgp patterns =>
    inStep.append (Pattern.Corresponds.all_gathered inStep (by decide) patterns) inStep.nil
  | .values _ _, _, tables, .values vars rows =>
    inStep.append inStep.nil (ofTables (tables _ (List.mem_singleton_self _)) vars rows)
  | .nop, _, _, .nop => inStep.nil
  | .path .., _, _, .path _ subject object graph =>
    inStep.append inStep.nil (Term.Corresponds.all_gathered inStep
      (.cons subject (.cons object (.cons graph .nil))))
  | .manage _, _, _, .manage _ => inStep.nil
  | .wrap _ _, _, tables, .wrap wrapper input =>
    inStep.append (Operation.Corresponds.gathered inStep ofTables
      (List.forall_mem_append.1 tables).1 input) (wrapper.gathered inStep)
  | .filter _ _, _, tables, .filter input condition => by
    obtain ⟨inInput, inCondition⟩ := List.forall_mem_append.1 (List.forall_mem_append.1 tables).1
    exact inStep.append (inStep.append (Operation.Corresponds.gathered inStep ofTables inInput input)
      (Expression.Corresponds.gathered inStep ofTables inCondition condition)) inStep.nil
  | .extend _ _ _, _, tables, .extend input name value => by
    obtain ⟨inInput, inValue⟩ := List.forall_mem_append.1 (List.forall_mem_append.1 tables).1
    exact inStep.append (inStep.append (Operation.Corresponds.gathered inStep ofTables inInput input)
      (Expression.Corresponds.gathered inStep ofTables inValue value))
      (Variable.Corresponds.all_gathered inStep (.cons name .nil))
  | .group _ _ _, _, tables, .group input keys aggregates => by
    obtain ⟨inInput, inAggregates⟩ := List.forall_mem_append.1 (List.forall_mem_append.1 tables).1
    obtain ⟨ofExpressions, ofNames⟩ :=
      BoundAggregate.Corresponds.all_gathered inStep ofTables inAggregates aggregates
    refine inStep.append (inStep.append
      (Operation.Corresponds.gathered inStep ofTables inInput input) ofExpressions) ?_
    rw [Operator.ownTerms, Operator.ownTerms, List.flatMap_append, List.flatMap_append]
    exact inStep.append (Variable.Corresponds.all_gathered inStep keys) ofNames
  | .orderBy _ _, _, tables, .orderBy input keys => by
    obtain ⟨inInput, inKeys⟩ := List.forall_mem_append.1 (List.forall_mem_append.1 tables).1
    exact inStep.append (inStep.append (Operation.Corresponds.gathered inStep ofTables inInput input)
      (Expression.Corresponds.all_gathered inStep ofTables inKeys keys)) inStep.nil
  | .construct _ _, _, tables, .construct input template => by
    obtain ⟨inInput, _⟩ := List.forall_mem_append.1 (List.forall_mem_append.1 tables).1
    exact inStep.append (inStep.append (Operation.Corresponds.gathered inStep ofTables inInput input)
      (Pattern.Corresponds.template_gathered inStep template)) inStep.nil
  | .combine _ _, _, tables, .combine _ inputs =>
    inStep.append (Operation.Corresponds.all_gathered inStep ofTables
      (List.forall_mem_append.1 tables).1 inputs) inStep.nil
  | .leftJoin _ _ _, _, tables, .leftJoin left right .none => by
    obtain ⟨inLeft, inRight⟩ := List.forall_mem_append.1 (List.forall_mem_append.1 tables).1
    exact inStep.append (inStep.append (Operation.Corresponds.gathered inStep ofTables inLeft left)
      (Operation.Corresponds.gathered inStep ofTables inRight right)) inStep.nil
  | .leftJoin _ _ _, _, tables, .leftJoin left right (.some condition) => by
    obtain ⟨inSides, inCondition⟩ := List.forall_mem_append.1 (List.forall_mem_append.1 tables).1
    obtain ⟨inLeft, inRight⟩ := List.forall_mem_append.1 inSides
    exact inStep.append (inStep.append (inStep.append
      (Operation.Corresponds.gathered inStep ofTables inLeft left)
      (Operation.Corresponds.gathered inStep ofTables inRight right))
      (Expression.Corresponds.gathered inStep ofTables inCondition condition)) inStep.nil
  | .minus _ _, _, tables, .minus left right => by
    obtain ⟨inLeft, inRight⟩ := List.forall_mem_append.1 (List.forall_mem_append.1 tables).1
    exact inStep.append (inStep.append (Operation.Corresponds.gathered inStep ofTables inLeft left)
      (Operation.Corresponds.gathered inStep ofTables inRight right)) inStep.nil
  | .deleteInsert _ _ _, _, _, .deleteInsert delete insert .none =>
    inStep.append (inStep.append
      (Pattern.Corresponds.optional_gathered inStep (by decide) delete)
      (Pattern.Corresponds.optional_gathered inStep (by decide) insert)) inStep.nil
  | .deleteInsert _ _ _, _, tables, .deleteInsert delete insert (.some scope) => by
    obtain ⟨_, inScope⟩ := List.forall_mem_append.1 (List.forall_mem_append.1 tables).1
    exact inStep.append (inStep.append (inStep.append
      (Pattern.Corresponds.optional_gathered inStep (by decide) delete)
      (Pattern.Corresponds.optional_gathered inStep (by decide) insert))
      (Operation.Corresponds.gathered inStep ofTables inScope scope)) inStep.nil
termination_by structural first => first

theorem Expression.Corresponds.gathered (inStep : InStep related alike)
    (ofTables : TablesInStep related alike holds) : ∀ {first second : Expression},
    (∀ table ∈ first.gather .ofTables, holds table.1 table.2) → first.Corresponds related second →
    alike (first.gather .ofLocalNames) (second.gather .ofLocalNames)
  | .term _, _, _, .term values => Term.Corresponds.all_gathered inStep (.cons values .nil)
  | .call _ _, _, tables, .call _ arguments =>
    inStep.append (Expression.Corresponds.all_gathered inStep ofTables
      (List.forall_mem_append.1 tables).1 arguments) inStep.nil
  | .aggregate .., _, tables, .aggregate _ _ _ argument =>
    inStep.append (Expression.Corresponds.gathered inStep ofTables
      (List.forall_mem_append.1 tables).1 argument) inStep.nil
  | .existence _ _, _, tables, .existence _ input =>
    inStep.append (Operation.Corresponds.gathered inStep ofTables
      (List.forall_mem_append.1 tables).1 input) inStep.nil
  | .wildcard, _, _, .wildcard => inStep.nil
termination_by structural first => first

theorem Operation.Corresponds.all_gathered (inStep : InStep related alike)
    (ofTables : TablesInStep related alike holds) : ∀ {first second : List Operation},
    (∀ table ∈ Operation.gatherAll .ofTables first, holds table.1 table.2) →
    List.Forall₂ (Operation.Corresponds related) first second →
    alike (Operation.gatherAll .ofLocalNames first) (Operation.gatherAll .ofLocalNames second)
  | [], _, _, .nil => inStep.nil
  | _ :: _, _, tables, .cons head rest =>
    inStep.append
      (Operation.Corresponds.gathered inStep ofTables (List.forall_mem_append.1 tables).1 head)
      (Operation.Corresponds.all_gathered inStep ofTables (List.forall_mem_append.1 tables).2 rest)
termination_by structural first => first

theorem Expression.Corresponds.all_gathered (inStep : InStep related alike)
    (ofTables : TablesInStep related alike holds) : ∀ {first second : List Expression},
    (∀ table ∈ Expression.gatherAll .ofTables first, holds table.1 table.2) →
    List.Forall₂ (Expression.Corresponds related) first second →
    alike (Expression.gatherAll .ofLocalNames first)
      (Expression.gatherAll .ofLocalNames second)
  | [], _, _, .nil => inStep.nil
  | _ :: _, _, tables, .cons head rest =>
    inStep.append
      (Expression.Corresponds.gathered inStep ofTables (List.forall_mem_append.1 tables).1 head)
      (Expression.Corresponds.all_gathered inStep ofTables (List.forall_mem_append.1 tables).2 rest)
termination_by structural first => first

theorem BoundAggregate.Corresponds.all_gathered (inStep : InStep related alike)
    (ofTables : TablesInStep related alike holds) : ∀ {first second : List BoundAggregate},
    (∀ table ∈ BoundAggregate.gatherAll .ofTables first, holds table.1 table.2) →
    List.Forall₂ (BoundAggregate.Corresponds related) first second →
    alike (BoundAggregate.gatherAll .ofLocalNames first)
        (BoundAggregate.gatherAll .ofLocalNames second)
      ∧ alike ((first.map (Term.var ·.name)).flatMap Term.localNames)
        ((second.map (Term.var ·.name)).flatMap Term.localNames)
  | [], _, _, .nil => ⟨inStep.nil, inStep.nil⟩
  | ⟨_, _⟩ :: _, _, tables, .cons (.mk name expression) rest => by
    obtain ⟨ofRest, ofNames⟩ := BoundAggregate.Corresponds.all_gathered inStep ofTables
      (List.forall_mem_append.1 tables).2 rest
    exact ⟨inStep.append (Expression.Corresponds.gathered inStep ofTables
      (List.forall_mem_append.1 tables).1 expression) ofRest,
      inStep.append (inStep.single name) ofNames⟩
termination_by structural first => first

end

/-! ### Names that match -/

/-- Each name of either list is related to one of the other. -/
structure Matches (related : LocalName → LocalName → Prop) (first second : List LocalName) :
    Prop where
  forth : ∀ m ∈ first, ∃ n ∈ second, related m n
  back : ∀ n ∈ second, ∃ m ∈ first, related m n

theorem inStep_matches : InStep related (Matches related) where
  nil := ⟨fun _ mem => absurd mem List.not_mem_nil, fun _ mem => absurd mem List.not_mem_nil⟩
  single := by
    intro m n isRelated
    constructor
    · intro _ mem
      exact ⟨n, List.mem_singleton_self n, List.mem_singleton.1 mem ▸ isRelated⟩
    · intro _ mem
      exact ⟨m, List.mem_singleton_self m, List.mem_singleton.1 mem ▸ isRelated⟩
  append := by
    intro first second more others ofFirst ofMore
    constructor
    · intro m mem
      rcases List.mem_append.1 mem with mem | mem
      · obtain ⟨n, mem', isRelated⟩ := ofFirst.forth m mem
        exact ⟨n, List.mem_append_left _ mem', isRelated⟩
      · obtain ⟨n, mem', isRelated⟩ := ofMore.forth m mem
        exact ⟨n, List.mem_append_right _ mem', isRelated⟩
    · intro n mem
      rcases List.mem_append.1 mem with mem | mem
      · obtain ⟨m, mem', isRelated⟩ := ofFirst.back n mem
        exact ⟨m, List.mem_append_left _ mem', isRelated⟩
      · obtain ⟨m, mem', isRelated⟩ := ofMore.back n mem
        exact ⟨m, List.mem_append_right _ mem', isRelated⟩

theorem Matches.of_perm {first second others : List LocalName}
    (ofFirst : Matches related first second) (perm : second.Perm others) :
    Matches related first others :=
  ⟨fun m mem => (ofFirst.forth m mem).imp fun _ found => ⟨perm.mem_iff.1 found.1, found.2⟩,
    fun n mem => ofFirst.back n (perm.mem_iff.2 mem)⟩

theorem Row.Corresponds.names {first second : Row} (correspond : first.Corresponds related second) :
    Matches related ((rowTerms first).flatMap Term.localNames)
      ((rowTerms second).flatMap Term.localNames) := by
  obtain ⟨cells, ofCells, perm⟩ := correspond
  have matched := inStep_matches.flatMap ofCells fun _ _ cell =>
    Term.Corresponds.all_gathered inStep_matches (.cons (.var cell.1) (.cons cell.2 .nil))
  rw [rowTerms, rowTerms, List.flatMap_assoc, List.flatMap_assoc]
  exact matched.of_perm (perm.flatMap_right _)

theorem Row.Corresponds.all_names {first second : List Row}
    (correspond : List.Forall₂ (Row.Corresponds related) first second) :
    Matches related (first.flatMap fun row => (rowTerms row).flatMap Term.localNames)
      (second.flatMap fun row => (rowTerms row).flatMap Term.localNames) :=
  inStep_matches.flatMap correspond fun _ _ => Row.Corresponds.names

/-- The names of corresponding operations are related. -/
theorem Operation.Corresponds.names {first second : Operation}
    (correspond : first.Corresponds related second) :
    Matches related first.localNames second.localNames := by
  have ofTables : TablesInStep related (Matches related) fun _ _ => True := by
    intro vars vars' rows rows' _ ofVars ofRows
    rw [flatMap_localNames_table, flatMap_localNames_table]
    exact inStep_matches.append (Variable.Corresponds.all_gathered inStep_matches ofVars)
      (Row.Corresponds.all_names ofRows)
  exact correspond.gathered inStep_matches ofTables fun _ _ => trivial

end

end QueryAlgebra
