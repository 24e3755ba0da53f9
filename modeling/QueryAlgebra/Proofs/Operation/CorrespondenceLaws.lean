import QueryAlgebra.Proofs.Operation.Correspondence

/-! # Correspondence turned around, and without renaming

Correspondence can be turned around with the relation of names that it is under, and operations
that correspond where each name is related to itself alone are equal: the rows of inline data have
their cells in the order of the columns' names, so only one row has given cells.
-/

namespace QueryAlgebra

variable {P Q : LocalName → LocalName → Prop}

/-! ### Turned around -/

theorem InTemplate.symm (turned : ∀ m n, P m n → Q n m) :
    ∀ m n, InTemplate P m n → InTemplate Q n m
  | _, _, .var isRelated => .var (turned _ _ isRelated)
  | _, _, .blank label => .blank label

theorem Term.Corresponds.symm (turned : ∀ m n, P m n → Q n m) :
    ∀ first second : Term, first.Corresponds P second → second.Corresponds Q first
  | _, _, .iri node => .iri node
  | _, _, .blank isRelated => .blank (turned _ _ isRelated)
  | _, _, .literal text => .literal text
  | _, _, .var isRelated => .var (turned _ _ isRelated)
  | _, _, .defaultGraph => .defaultGraph
  | _, _, .quad subject predicate object graph =>
    .quad (symm turned _ _ subject) (symm turned _ _ predicate) (symm turned _ _ object)
      (symm turned _ _ graph)

theorem Variable.Corresponds.symm (turned : ∀ m n, P m n → Q n m) (first second : Variable)
    (correspond : first.Corresponds P second) : second.Corresponds Q first :=
  turned _ _ correspond

theorem Pattern.Corresponds.symm (turned : ∀ m n, P m n → Q n m) (first second : Pattern)
    (correspond : first.Corresponds P second) : second.Corresponds Q first :=
  ⟨.symm turned _ _ correspond.subject, .symm turned _ _ correspond.predicate,
    .symm turned _ _ correspond.object, .symm turned _ _ correspond.graph⟩

private theorem forall₂_symm {α : Type} {P Q : α → α → Prop} (turned : ∀ x y, P x y → Q y x)
    {xs ys : List α} (correspond : List.Forall₂ P xs ys) : List.Forall₂ Q ys xs :=
  List.Forall₂.flip (correspond.imp turned)

private theorem optional_symm {α : Type} {P Q : α → α → Prop} (turned : ∀ x y, P x y → Q y x)
    {first second : Option α} (correspond : Option.Rel P first second) :
    Option.Rel Q second first := by
  cases correspond with
  | none => exact .none
  | some isRelated => exact .some (turned _ _ isRelated)

theorem Row.Corresponds.symm (turned : ∀ m n, P m n → Q n m) (first second : Row)
    (correspond : first.Corresponds P second) : second.Corresponds Q first := by
  obtain ⟨cells, ofCells, perm⟩ := correspond
  have back : List.Forall₂ (CellCorresponds Q) cells first.entries :=
    forall₂_symm (fun _ _ cell => ⟨turned _ _ cell.1, .symm turned _ _ cell.2⟩) ofCells
  exact List.perm_comp_forall₂ perm.symm back

theorem Wrapper.Corresponds.symm (turned : ∀ m n, P m n → Q n m) :
    ∀ first second : Wrapper, first.Corresponds P second → second.Corresponds Q first
  | _, _, .project vars => .project (forall₂_symm (Variable.Corresponds.symm turned) vars)
  | _, _, .graph name => .graph (.symm turned _ _ name)
  | _, _, .service silent name => .service silent (.symm turned _ _ name)
  | _, _, .distinct => .distinct
  | _, _, .reduced => .reduced
  | _, _, .slice start length => .slice start length
  | _, _, .dataset default named => .dataset default named
  | _, _, .ask => .ask
  | _, _, .describe terms => .describe (forall₂_symm (Term.Corresponds.symm turned) terms)

mutual

theorem Operation.Corresponds.symm (turned : ∀ m n, P m n → Q n m) :
    ∀ {first second : Operation}, first.Corresponds P second → second.Corresponds Q first
  | ⟨_, _⟩, ⟨_, _⟩, .mk metadata operators =>
    .mk metadata (Operator.Corresponds.symm turned operators)
termination_by structural first => first

theorem Operator.Corresponds.symm (turned : ∀ m n, P m n → Q n m) :
    ∀ {first second : Operator}, first.Corresponds P second → second.Corresponds Q first
  | .bgp _, _, .bgp patterns => .bgp (forall₂_symm (Pattern.Corresponds.symm turned) patterns)
  | .values _ _, _, .values vars rows =>
    .values (forall₂_symm (Variable.Corresponds.symm turned) vars)
      (forall₂_symm (Row.Corresponds.symm turned) rows)
  | .nop, _, .nop => .nop
  | .path .., _, .path predicate subject object graph =>
    .path predicate (.symm turned _ _ subject) (.symm turned _ _ object) (.symm turned _ _ graph)
  | .manage _, _, .manage action => .manage action
  | .wrap _ _, _, .wrap wrapper input =>
    .wrap (.symm turned _ _ wrapper) (Operation.Corresponds.symm turned input)
  | .filter _ _, _, .filter input condition =>
    .filter (Operation.Corresponds.symm turned input)
      (Expression.Corresponds.symm turned condition)
  | .extend _ _ _, _, .extend input name value =>
    .extend (Operation.Corresponds.symm turned input) (turned _ _ name)
      (Expression.Corresponds.symm turned value)
  | .group _ _ _, _, .group input keys aggregates =>
    .group (Operation.Corresponds.symm turned input)
      (forall₂_symm (Variable.Corresponds.symm turned) keys)
      (BoundAggregate.Corresponds.all_symm turned aggregates)
  | .orderBy _ _, _, .orderBy input keys =>
    .orderBy (Operation.Corresponds.symm turned input)
      (Expression.Corresponds.all_symm turned keys)
  | .construct _ _, _, .construct input template =>
    .construct (Operation.Corresponds.symm turned input)
      (forall₂_symm (Pattern.Corresponds.symm (InTemplate.symm turned)) template)
  | .combine _ _, _, .combine how inputs =>
    .combine how (Operation.Corresponds.all_symm turned inputs)
  | .leftJoin _ _ _, _, .leftJoin left right .none =>
    .leftJoin (Operation.Corresponds.symm turned left) (Operation.Corresponds.symm turned right)
      .none
  | .leftJoin _ _ _, _, .leftJoin left right (.some condition) =>
    .leftJoin (Operation.Corresponds.symm turned left) (Operation.Corresponds.symm turned right)
      (.some (Expression.Corresponds.symm turned condition))
  | .minus _ _, _, .minus left right =>
    .minus (Operation.Corresponds.symm turned left) (Operation.Corresponds.symm turned right)
  | .deleteInsert _ _ _, _, .deleteInsert delete insert .none =>
    .deleteInsert (optional_symm (fun _ _ => forall₂_symm (Pattern.Corresponds.symm turned)) delete)
      (optional_symm (fun _ _ => forall₂_symm (Pattern.Corresponds.symm turned)) insert) .none
  | .deleteInsert _ _ _, _, .deleteInsert delete insert (.some scope) =>
    .deleteInsert (optional_symm (fun _ _ => forall₂_symm (Pattern.Corresponds.symm turned)) delete)
      (optional_symm (fun _ _ => forall₂_symm (Pattern.Corresponds.symm turned)) insert)
      (.some (Operation.Corresponds.symm turned scope))
termination_by structural first => first

theorem Expression.Corresponds.symm (turned : ∀ m n, P m n → Q n m) :
    ∀ {first second : Expression}, first.Corresponds P second → second.Corresponds Q first
  | .term _, _, .term value => .term (.symm turned _ _ value)
  | .call _ _, _, .call callee arguments =>
    .call callee (Expression.Corresponds.all_symm turned arguments)
  | .aggregate .., _, .aggregate name distinct separator argument =>
    .aggregate name distinct separator (Expression.Corresponds.symm turned argument)
  | .existence _ _, _, .existence negated input =>
    .existence negated (Operation.Corresponds.symm turned input)
  | .wildcard, _, .wildcard => .wildcard
termination_by structural first => first

theorem Operation.Corresponds.all_symm (turned : ∀ m n, P m n → Q n m) :
    ∀ {first second : List Operation}, List.Forall₂ (Operation.Corresponds P) first second →
      List.Forall₂ (Operation.Corresponds Q) second first
  | [], _, .nil => .nil
  | _ :: _, _, .cons head rest =>
    .cons (Operation.Corresponds.symm turned head) (Operation.Corresponds.all_symm turned rest)
termination_by structural first => first

theorem Expression.Corresponds.all_symm (turned : ∀ m n, P m n → Q n m) :
    ∀ {first second : List Expression}, List.Forall₂ (Expression.Corresponds P) first second →
      List.Forall₂ (Expression.Corresponds Q) second first
  | [], _, .nil => .nil
  | _ :: _, _, .cons head rest =>
    .cons (Expression.Corresponds.symm turned head) (Expression.Corresponds.all_symm turned rest)
termination_by structural first => first

theorem BoundAggregate.Corresponds.all_symm (turned : ∀ m n, P m n → Q n m) :
    ∀ {first second : List BoundAggregate},
      List.Forall₂ (BoundAggregate.Corresponds P) first second →
      List.Forall₂ (BoundAggregate.Corresponds Q) second first
  | [], _, .nil => .nil
  | ⟨_, _⟩ :: _, _, .cons (.mk name expression) rest =>
    .cons (.mk (turned _ _ name) (Expression.Corresponds.symm turned expression))
      (BoundAggregate.Corresponds.all_symm turned rest)
termination_by structural first => first

end

/-! ### Without renaming -/

theorem InTemplate.eq (same : ∀ m n, P m n → m = n) : ∀ m n, InTemplate P m n → m = n
  | _, _, .var isRelated => same _ _ isRelated
  | _, _, .blank _ => rfl

theorem Variable.Corresponds.eq (same : ∀ m n, P m n → m = n) (first second : Variable)
    (correspond : first.Corresponds P second) : first = second := by
  cases first
  cases second
  cases same _ _ correspond
  rfl

theorem Term.Corresponds.eq (same : ∀ m n, P m n → m = n) (first second : Term)
    (correspond : first.Corresponds P second) : first = second := by
  induction correspond with
  | iri | literal | defaultGraph => rfl
  | blank isRelated =>
    cases same _ _ isRelated
    rfl
  | var isRelated =>
    cases same _ _ isRelated
    rfl
  | quad _ _ _ _ subjects predicates objects graphs =>
    rw [subjects, predicates, objects, graphs]

theorem Pattern.Corresponds.eq (same : ∀ m n, P m n → m = n) (first second : Pattern)
    (correspond : first.Corresponds P second) : first = second := by
  obtain ⟨subject, predicate, object, graph⟩ := correspond
  cases first
  cases second
  rw [Pattern.mk.injEq]
  exact ⟨subject.eq same, predicate.eq same, object.eq same, graph.eq same⟩

private theorem forall₂_eq {α : Type} {P : α → α → Prop} (same : ∀ x y, P x y → x = y)
    {xs ys : List α} (correspond : List.Forall₂ P xs ys) : xs = ys :=
  List.forall₂_eq_eq_eq ▸ correspond.imp same

private theorem optional_eq {α : Type} {P : α → α → Prop} (same : ∀ x y, P x y → x = y)
    {first second : Option α} (correspond : Option.Rel P first second) : first = second := by
  cases correspond with
  | none => rfl
  | some isRelated => rw [same _ _ isRelated]

theorem Row.Corresponds.eq (same : ∀ m n, P m n → m = n) (first second : Row)
    (correspond : first.Corresponds P second) : first = second := by
  obtain ⟨cells, ofCells, perm⟩ := correspond
  have cellsEq : first.entries = cells := by
    refine forall₂_eq (fun cell cell' isRelated => ?_) ofCells
    exact Prod.ext (LocalName.var.inj (same _ _ isRelated.1)) (isRelated.2.eq same)
  apply NameMap.ext_find?
  intro key
  ext value
  rw [NameMap.find?_eq_some_iff, NameMap.find?_eq_some_iff, cellsEq, perm.mem_iff]

theorem Wrapper.Corresponds.eq (same : ∀ m n, P m n → m = n) (first second : Wrapper)
    (correspond : first.Corresponds P second) : first = second := by
  cases correspond with
  | project vars => rw [forall₂_eq (Variable.Corresponds.eq same) vars]
  | graph name => rw [name.eq same]
  | service silent name => rw [name.eq same]
  | describe terms => rw [forall₂_eq (Term.Corresponds.eq same) terms]
  | distinct | reduced | slice | dataset | ask => rfl

mutual

/-- Operations that correspond where names are related to themselves alone are equal. -/
theorem Operation.Corresponds.eq (same : ∀ m n, P m n → m = n) :
    ∀ {first second : Operation}, first.Corresponds P second → first = second
  | ⟨_, _⟩, ⟨_, _⟩, .mk _ operators => by rw [Operator.Corresponds.eq same operators]
termination_by structural first => first

theorem Operator.Corresponds.eq (same : ∀ m n, P m n → m = n) :
    ∀ {first second : Operator}, first.Corresponds P second → first = second
  | .bgp _, _, .bgp patterns => by rw [forall₂_eq (Pattern.Corresponds.eq same) patterns]
  | .values _ _, _, .values vars rows => by
    rw [forall₂_eq (Variable.Corresponds.eq same) vars, forall₂_eq (Row.Corresponds.eq same) rows]
  | .nop, _, .nop => rfl
  | .path .., _, .path _ subject object graph => by
    rw [subject.eq same, object.eq same, graph.eq same]
  | .manage _, _, .manage _ => rfl
  | .wrap _ _, _, .wrap wrapper input => by
    rw [wrapper.eq same, Operation.Corresponds.eq same input]
  | .filter _ _, _, .filter input condition => by
    rw [Operation.Corresponds.eq same input, Expression.Corresponds.eq same condition]
  | .extend _ _ _, _, .extend input name value => by
    rw [Operation.Corresponds.eq same input, name.eq same, Expression.Corresponds.eq same value]
  | .group _ _ _, _, .group input keys aggregates => by
    rw [Operation.Corresponds.eq same input, forall₂_eq (Variable.Corresponds.eq same) keys,
      BoundAggregate.Corresponds.all_eq same aggregates]
  | .orderBy _ _, _, .orderBy input keys => by
    rw [Operation.Corresponds.eq same input, Expression.Corresponds.all_eq same keys]
  | .construct _ _, _, .construct input template => by
    rw [Operation.Corresponds.eq same input,
      forall₂_eq (Pattern.Corresponds.eq (InTemplate.eq same)) template]
  | .combine _ _, _, .combine _ inputs => by rw [Operation.Corresponds.all_eq same inputs]
  | .leftJoin _ _ _, _, .leftJoin left right .none => by
    rw [Operation.Corresponds.eq same left, Operation.Corresponds.eq same right]
  | .leftJoin _ _ _, _, .leftJoin left right (.some condition) => by
    rw [Operation.Corresponds.eq same left, Operation.Corresponds.eq same right,
      Expression.Corresponds.eq same condition]
  | .minus _ _, _, .minus left right => by
    rw [Operation.Corresponds.eq same left, Operation.Corresponds.eq same right]
  | .deleteInsert _ _ _, _, .deleteInsert delete insert .none => by
    rw [optional_eq (fun _ _ => forall₂_eq (Pattern.Corresponds.eq same)) delete,
      optional_eq (fun _ _ => forall₂_eq (Pattern.Corresponds.eq same)) insert]
  | .deleteInsert _ _ _, _, .deleteInsert delete insert (.some scope) => by
    rw [optional_eq (fun _ _ => forall₂_eq (Pattern.Corresponds.eq same)) delete,
      optional_eq (fun _ _ => forall₂_eq (Pattern.Corresponds.eq same)) insert,
      Operation.Corresponds.eq same scope]
termination_by structural first => first

theorem Expression.Corresponds.eq (same : ∀ m n, P m n → m = n) :
    ∀ {first second : Expression}, first.Corresponds P second → first = second
  | .term _, _, .term value => by rw [value.eq same]
  | .call _ _, _, .call _ arguments => by rw [Expression.Corresponds.all_eq same arguments]
  | .aggregate .., _, .aggregate _ _ _ argument => by
    rw [Expression.Corresponds.eq same argument]
  | .existence _ _, _, .existence _ input => by rw [Operation.Corresponds.eq same input]
  | .wildcard, _, .wildcard => rfl
termination_by structural first => first

theorem Operation.Corresponds.all_eq (same : ∀ m n, P m n → m = n) :
    ∀ {first second : List Operation}, List.Forall₂ (Operation.Corresponds P) first second →
      first = second
  | [], _, .nil => rfl
  | _ :: _, _, .cons head rest => by
    rw [Operation.Corresponds.eq same head, Operation.Corresponds.all_eq same rest]
termination_by structural first => first

theorem Expression.Corresponds.all_eq (same : ∀ m n, P m n → m = n) :
    ∀ {first second : List Expression}, List.Forall₂ (Expression.Corresponds P) first second →
      first = second
  | [], _, .nil => rfl
  | _ :: _, _, .cons head rest => by
    rw [Expression.Corresponds.eq same head, Expression.Corresponds.all_eq same rest]
termination_by structural first => first

theorem BoundAggregate.Corresponds.all_eq (same : ∀ m n, P m n → m = n) :
    ∀ {first second : List BoundAggregate},
      List.Forall₂ (BoundAggregate.Corresponds P) first second → first = second
  | [], _, .nil => rfl
  | ⟨_, _⟩ :: _, _, .cons (.mk name expression) rest => by
    rw [name.eq same, Expression.Corresponds.eq same expression,
      BoundAggregate.Corresponds.all_eq same rest]
termination_by structural first => first

end

end QueryAlgebra
