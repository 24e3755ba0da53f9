import QueryAlgebra.Lowering.GraphBlocks
import QueryAlgebra.Proofs.Operation.CorrespondingOperators

/-! # Names that are not replaced

The name of a graph block is replaced below a projection that does not show it, and below a binding
of it, wherever it stands there. An operation spares a name if it stands in none of these places.
An IRI is shown by no projection, so it is spared if it does not stand below any.

Corresponding operations spare related names alike: `Operation.Corresponds.spares`.
-/

namespace QueryAlgebra

/-- Whether a name is hidden from what a wrapper is put around. -/
def Wrapper.hides (name : Term) : Wrapper → Bool
  | .project vars => !vars.any fun shown => .var shown == name
  | _ => false

mutual

/-- Whether a name does not stand where it would be replaced in an operation from which it is hidden
or not. What is in graph and service blocks counts only if it is hidden. Templates never stand in
blocks; operators that have them spare no name. -/
def Operation.spares (name : Term) (hidden : Bool) : Operation → Bool
  | ⟨operator, _⟩ =>
    !hidden && operator.setsGraph
      || !(hidden && operator.ownTerms.contains name) && operator.spares name hidden

/-- Whether a name does not stand where it would be replaced in the parts of an operator. -/
def Operator.spares (name : Term) (hidden : Bool) : Operator → Bool
  | .bgp patterns => !(hidden && patterns.any (·.terms.contains name))
  | .values .. => true
  | .nop => true
  | .path .. => true
  | .manage _ => true
  | .wrap wrapper input => input.spares name (hidden || wrapper.hides name)
  | .filter input condition => input.spares name hidden && condition.spares name hidden
  | .extend input new value =>
    input.spares name (hidden || .var new == name) && (!hidden || value.spares name hidden)
  | .group input _ aggregates =>
    input.spares name hidden && BoundAggregate.allSpare name hidden aggregates
  | .orderBy input keys => input.spares name hidden && Expression.allSpare name hidden keys
  | .construct .. => false
  | .combine _ inputs => Operation.allSpare name hidden inputs
  | .leftJoin left right none => left.spares name hidden && right.spares name hidden
  | .leftJoin left right (some condition) =>
    left.spares name hidden && right.spares name hidden && condition.spares name hidden
  | .minus left right => left.spares name hidden && right.spares name hidden
  | .deleteInsert .. => false

/-- Whether a name does not stand where it would be replaced in an expression. -/
def Expression.spares (name : Term) (hidden : Bool) : Expression → Bool
  | .term value => !(hidden && value == name)
  | .call _ arguments => Expression.allSpare name hidden arguments
  | .aggregate _ argument _ _ => argument.spares name hidden
  | .existence _ input => input.spares name hidden
  | .wildcard => true

/-- Whether a name does not stand where it would be replaced in operations. -/
def Operation.allSpare (name : Term) (hidden : Bool) : List Operation → Bool
  | [] => true
  | operation :: rest => operation.spares name hidden && Operation.allSpare name hidden rest

/-- Whether a name does not stand where it would be replaced in expressions. -/
def Expression.allSpare (name : Term) (hidden : Bool) : List Expression → Bool
  | [] => true
  | expression :: rest => expression.spares name hidden && Expression.allSpare name hidden rest

/-- Whether a name does not stand where it would be replaced in aggregates. -/
def BoundAggregate.allSpare (name : Term) (hidden : Bool) : List BoundAggregate → Bool
  | [] => true
  | ⟨_, expression⟩ :: rest =>
    expression.spares name hidden && BoundAggregate.allSpare name hidden rest

end

section

variable {name : Term} {hidden : Bool}

theorem Operation.spares_iff {operator : Operator} {metadata : Option Metadata} :
    spares name hidden ⟨operator, metadata⟩ = true
      ↔ hidden = false ∧ operator.setsGraph = true
        ∨ (hidden = true → name ∉ operator.ownTerms) ∧ operator.spares name hidden = true := by
  cases hidden <;> simp [spares]

theorem Operator.spares_bgp {patterns : List Pattern} :
    spares name hidden (.bgp patterns) = true
      ↔ (hidden = true → ∀ pattern ∈ patterns, name ∉ pattern.terms) := by
  cases hidden <;> simp [spares]

theorem Expression.spares_term {value : Term} :
    spares name hidden (.term value) = true ↔ (hidden = true → value ≠ name) := by
  cases hidden <;> simp [spares]

end

/-! ### Corresponding operations spare related names alike -/

private theorem any_eq {α : Type} {R : α → α → Prop} {f g : α → Bool} {xs ys : List α}
    (alike : List.Forall₂ R xs ys) (same : ∀ x y, R x y → f x = g y) : xs.any f = ys.any g := by
  induction alike with
  | nil => rfl
  | cons head _ ih => rw [List.any_cons, List.any_cons, same _ _ head, ih]

private theorem contains_eq {name name' : Term} {terms terms' : List Term}
    (same : name ∈ terms ↔ name' ∈ terms') : terms.contains name = terms'.contains name' := by
  rw [Bool.eq_iff_iff, List.contains_iff_mem, List.contains_iff_mem, same]

section

variable {related : LocalName → LocalName → Prop}

theorem Term.biUnique_corresponds (oneToOne : Relator.BiUnique related) :
    Relator.BiUnique (Term.Corresponds related) := by
  have same {first first' second second' : Term} (ofFirst : first.Corresponds related first')
      (ofSecond : second.Corresponds related second') : first = second ↔ first' = second' := by
    simpa using Expression.Corresponds.eq_iff oneToOne (.term ofFirst) (.term ofSecond)
  exact ⟨fun _ _ _ ofFirst ofSecond => (same ofFirst ofSecond).2 rfl,
    fun _ _ _ ofFirst ofSecond => (same ofFirst ofSecond).1 rfl⟩

private theorem Operator.Corresponds.setsGraph {operator operator' : Operator}
    (correspond : operator.Corresponds related operator') :
    operator.setsGraph = operator'.setsGraph := by
  cases correspond with
  | wrap wrapper => cases wrapper <;> rfl
  | _ => rfl

section

variable {name name' : Term} (oneToOne : Relator.BiUnique related)
  (named : name.Corresponds related name')

include oneToOne named

private theorem same_iff {term term' : Term} (correspond : term.Corresponds related term') :
    term = name ↔ term' = name' :=
  Relator.rel_eq (Term.biUnique_corresponds oneToOne) correspond named

private theorem mem_iff {terms terms' : List Term}
    (correspond : List.Forall₂ (Term.Corresponds related) terms terms') :
    name ∈ terms ↔ name' ∈ terms' :=
  List.rel_mem (Term.biUnique_corresponds oneToOne) named correspond

private theorem mem_vars_iff {vars vars' : List Variable}
    (correspond : List.Forall₂ (Variable.Corresponds related) vars vars') :
    name ∈ vars.map .var ↔ name' ∈ vars'.map .var :=
  mem_iff oneToOne named (List.forall₂_map_left_iff.2 (List.forall₂_map_right_iff.2
    (correspond.imp fun _ _ => .var)))

private theorem mem_rowTerms_iff {row row' : Row} (correspond : row.Corresponds related row') :
    name ∈ rowTerms row ↔ name' ∈ rowTerms row' := by
  obtain ⟨cells, ofCells, perm⟩ := correspond
  have ofTerms {first second : List (String × Term)}
      (ofCells : List.Forall₂ (CellCorresponds related) first second) :
      List.Forall₂ (Term.Corresponds related) (first.flatMap fun cell => [.var ⟨cell.1⟩, cell.2])
        (second.flatMap fun cell => [.var ⟨cell.1⟩, cell.2]) := by
    induction ofCells with
    | nil => exact .nil
    | cons cell _ ih => exact .cons (.var cell.1) (.cons cell.2 ih)
  rw [rowTerms, rowTerms, mem_iff oneToOne named (ofTerms ofCells)]
  exact (perm.flatMap_right _).mem_iff

private theorem mem_aggregates_iff {aggregates aggregates' : List BoundAggregate}
    (correspond : List.Forall₂ (BoundAggregate.Corresponds related) aggregates aggregates') :
    name ∈ aggregates.map (.var ·.name) ↔ name' ∈ aggregates'.map (.var ·.name) := by
  refine mem_iff oneToOne named (List.forall₂_map_left_iff.2 (List.forall₂_map_right_iff.2
    (correspond.imp fun _ _ ofAggregate => ?_)))
  cases ofAggregate with
  | mk ofName => exact .var ofName

private theorem Wrapper.Corresponds.mem_ownTerms_iff {wrapper wrapper' : Wrapper}
    (correspond : wrapper.Corresponds related wrapper') :
    name ∈ wrapper.ownTerms ↔ name' ∈ wrapper'.ownTerms := by
  cases correspond with
  | project vars => exact mem_vars_iff oneToOne named vars
  | graph own => exact mem_iff oneToOne named (.cons own .nil)
  | service silent own => exact mem_iff oneToOne named (.cons own .nil)
  | describe terms => exact mem_iff oneToOne named terms
  | distinct | reduced | slice | dataset | ask => exact iff_of_false List.not_mem_nil List.not_mem_nil

private theorem Operator.Corresponds.mem_ownTerms_iff {operator operator' : Operator}
    (correspond : operator.Corresponds related operator') :
    name ∈ operator.ownTerms ↔ name' ∈ operator'.ownTerms := by
  cases correspond with
  | values vars rows =>
    have ofRows := any_eq rows fun _ _ row =>
      contains_eq (mem_rowTerms_iff oneToOne named row)
    rw [Bool.eq_iff_iff, List.any_eq_true, List.any_eq_true] at ofRows
    simp only [List.contains_iff_mem] at ofRows
    simp only [Operator.ownTerms, List.mem_append, List.mem_flatMap, ofRows,
      mem_vars_iff oneToOne named vars]
  | path predicate subject object graph =>
    exact mem_iff oneToOne named (.cons subject (.cons object (.cons graph .nil)))
  | wrap wrapper => exact wrapper.mem_ownTerms_iff oneToOne named
  | extend _ own => exact mem_vars_iff oneToOne named (.cons own .nil)
  | group _ keys aggregates =>
    simp only [Operator.ownTerms, List.mem_append, mem_vars_iff oneToOne named keys,
      mem_aggregates_iff oneToOne named aggregates]
  | bgp | nop | manage | filter | orderBy | construct | combine | leftJoin | minus
  | deleteInsert => exact iff_of_false List.not_mem_nil List.not_mem_nil

private theorem any_patterns_eq {patterns patterns' : List Pattern}
    (correspond : List.Forall₂ (Pattern.Corresponds related) patterns patterns') :
    patterns.any (·.terms.contains name) = patterns'.any (·.terms.contains name') :=
  any_eq correspond fun _ _ pattern => contains_eq (mem_iff oneToOne named
    (.cons pattern.subject (.cons pattern.predicate (.cons pattern.object
      (.cons pattern.graph .nil)))))

private theorem Wrapper.Corresponds.hides {wrapper wrapper' : Wrapper}
    (correspond : wrapper.Corresponds related wrapper') :
    wrapper.hides name = wrapper'.hides name' := by
  cases correspond with
  | project vars =>
    refine congrArg Bool.not (any_eq vars fun _ _ var => ?_)
    rw [Bool.eq_iff_iff, beq_iff_eq, beq_iff_eq, same_iff oneToOne named (.var var)]
  | _ => rfl

end

variable {name name' : Term}

mutual

/-- A name is spared if the one that it is related to is. -/
theorem Operation.Corresponds.spares (oneToOne : Relator.BiUnique related)
    (named : name.Corresponds related name') : ∀ {first second : Operation} (hidden : Bool),
    first.Corresponds related second → first.spares name hidden = second.spares name' hidden
  | ⟨_, _⟩, _, hidden, .mk _ operators => by
    rw [Operation.spares, Operation.spares, Operator.Corresponds.setsGraph operators,
      contains_eq (Operator.Corresponds.mem_ownTerms_iff oneToOne named operators),
      Operator.Corresponds.spares oneToOne named hidden operators]
termination_by structural first => first

theorem Operator.Corresponds.spares (oneToOne : Relator.BiUnique related)
    (named : name.Corresponds related name') : ∀ {first second : Operator} (hidden : Bool),
    first.Corresponds related second → first.spares name hidden = second.spares name' hidden
  | .bgp _, _, _, .bgp patterns => by
    rw [Operator.spares, Operator.spares, any_patterns_eq oneToOne named patterns]
  | .values _ _, _, _, .values _ _ | .nop, _, _, .nop | .path .., _, _, .path _ _ _ _
  | .manage _, _, _, .manage _ | .construct _ _, _, _, .construct _ _
  | .deleteInsert _ _ _, _, _, .deleteInsert _ _ _ => rfl
  | .wrap _ _, _, _, .wrap wrapper input => by
    rw [Operator.spares, Operator.spares, Wrapper.Corresponds.hides oneToOne named wrapper,
      Operation.Corresponds.spares oneToOne named _ input]
  | .filter _ _, _, _, .filter input condition => by
    rw [Operator.spares, Operator.spares, Operation.Corresponds.spares oneToOne named _ input,
      Expression.Corresponds.spares oneToOne named _ condition]
  | .extend _ _ _, _, _, .extend input own value => by
    have binds := Bool.eq_iff_iff.2 (beq_iff_eq.trans
      ((same_iff oneToOne named (.var own)).trans beq_iff_eq.symm))
    rw [Operator.spares, Operator.spares, binds,
      Operation.Corresponds.spares oneToOne named _ input,
      Expression.Corresponds.spares oneToOne named _ value]
  | .group _ _ _, _, _, .group input _ aggregates => by
    rw [Operator.spares, Operator.spares, Operation.Corresponds.spares oneToOne named _ input,
      BoundAggregate.Corresponds.all_spare oneToOne named _ aggregates]
  | .orderBy _ _, _, _, .orderBy input keys => by
    rw [Operator.spares, Operator.spares, Operation.Corresponds.spares oneToOne named _ input,
      Expression.Corresponds.all_spare oneToOne named _ keys]
  | .combine _ _, _, _, .combine _ inputs => by
    rw [Operator.spares, Operator.spares, Operation.Corresponds.all_spare oneToOne named _ inputs]
  | .leftJoin _ _ _, _, _, .leftJoin left right .none => by
    rw [Operator.spares, Operator.spares, Operation.Corresponds.spares oneToOne named _ left,
      Operation.Corresponds.spares oneToOne named _ right]
  | .leftJoin _ _ _, _, _, .leftJoin left right (.some condition) => by
    rw [Operator.spares, Operator.spares, Operation.Corresponds.spares oneToOne named _ left,
      Operation.Corresponds.spares oneToOne named _ right,
      Expression.Corresponds.spares oneToOne named _ condition]
  | .minus _ _, _, _, .minus left right => by
    rw [Operator.spares, Operator.spares, Operation.Corresponds.spares oneToOne named _ left,
      Operation.Corresponds.spares oneToOne named _ right]
termination_by structural first => first

theorem Expression.Corresponds.spares (oneToOne : Relator.BiUnique related)
    (named : name.Corresponds related name') : ∀ {first second : Expression} (hidden : Bool),
    first.Corresponds related second → first.spares name hidden = second.spares name' hidden
  | .term _, _, _, .term value => by
    have isName := Bool.eq_iff_iff.2 (beq_iff_eq.trans
      ((same_iff oneToOne named value).trans beq_iff_eq.symm))
    rw [Expression.spares, Expression.spares, isName]
  | .call _ _, _, _, .call _ arguments => by
    rw [Expression.spares, Expression.spares,
      Expression.Corresponds.all_spare oneToOne named _ arguments]
  | .aggregate .., _, _, .aggregate _ _ _ argument => by
    rw [Expression.spares, Expression.spares,
      Expression.Corresponds.spares oneToOne named _ argument]
  | .existence _ _, _, _, .existence _ input => by
    rw [Expression.spares, Expression.spares, Operation.Corresponds.spares oneToOne named _ input]
  | .wildcard, _, _, .wildcard => rfl
termination_by structural first => first

theorem Operation.Corresponds.all_spare (oneToOne : Relator.BiUnique related)
    (named : name.Corresponds related name') : ∀ {first second : List Operation} (hidden : Bool),
    List.Forall₂ (Operation.Corresponds related) first second →
    Operation.allSpare name hidden first = Operation.allSpare name' hidden second
  | [], _, _, .nil => rfl
  | _ :: _, _, _, .cons head rest => by
    rw [Operation.allSpare, Operation.allSpare, Operation.Corresponds.spares oneToOne named _ head,
      Operation.Corresponds.all_spare oneToOne named _ rest]
termination_by structural first => first

theorem Expression.Corresponds.all_spare (oneToOne : Relator.BiUnique related)
    (named : name.Corresponds related name') : ∀ {first second : List Expression} (hidden : Bool),
    List.Forall₂ (Expression.Corresponds related) first second →
    Expression.allSpare name hidden first = Expression.allSpare name' hidden second
  | [], _, _, .nil => rfl
  | _ :: _, _, _, .cons head rest => by
    rw [Expression.allSpare, Expression.allSpare,
      Expression.Corresponds.spares oneToOne named _ head,
      Expression.Corresponds.all_spare oneToOne named _ rest]
termination_by structural first => first

theorem BoundAggregate.Corresponds.all_spare (oneToOne : Relator.BiUnique related)
    (named : name.Corresponds related name') :
    ∀ {first second : List BoundAggregate} (hidden : Bool),
    List.Forall₂ (BoundAggregate.Corresponds related) first second →
    BoundAggregate.allSpare name hidden first = BoundAggregate.allSpare name' hidden second
  | [], _, _, .nil => rfl
  | ⟨_, _⟩ :: _, _, _, .cons (.mk _ expression) rest => by
    rw [BoundAggregate.allSpare, BoundAggregate.allSpare,
      Expression.Corresponds.spares oneToOne named _ expression,
      BoundAggregate.Corresponds.all_spare oneToOne named _ rest]
termination_by structural first => first

end

end

end QueryAlgebra
