import QueryAlgebra.Operation

/-! # Equality of operations and expressions is decidable

Operations contain expressions, lists of either and optional ones, so equality is decided by one
family of functions, of which `Operation.same_iff` and `Expression.same_iff` say that they decide
equality.
-/

namespace QueryAlgebra

mutual

/-- Equality of operations, metadata included. -/
def Operation.same : Operation → Operation → Bool
  | ⟨a, m⟩, ⟨b, n⟩ => a.same b && m == n

/-- Equality of operators. -/
def Operator.same : Operator → Operator → Bool
  | .bgp a, .bgp b => a == b
  | .values a r, .values b s => a == b && r == s
  | .nop, .nop => true
  | .path a p b c, .path d q e f => a == d && p == q && b == e && c == f
  | .manage a, .manage b => a == b
  | .wrap w a, .wrap v b => w == v && a.same b
  | .filter a e, .filter b f => a.same b && e.same f
  | .extend a x e, .extend b y f => a.same b && x == y && e.same f
  | .group a x e, .group b y f => a.same b && x == y && BoundAggregate.sameAll e f
  | .orderBy a e, .orderBy b f => a.same b && Expression.sameAll e f
  | .construct a t, .construct b u => a.same b && t == u
  | .combine h a, .combine k b => h == k && Operation.sameAll a b
  | .leftJoin a b e, .leftJoin c d f => a.same c && b.same d && Expression.sameOptional e f
  | .minus a b, .minus c d => a.same c && b.same d
  | .deleteInsert a b w, .deleteInsert c d v =>
    a == c && b == d && Operation.sameOptional w v
  | _, _ => false

/-- Equality of expressions. -/
def Expression.same : Expression → Expression → Bool
  | .term a, .term b => a == b
  | .call f a, .call g b => f == g && Expression.sameAll a b
  | .aggregate f a d s, .aggregate g b e t => f == g && a.same b && d == e && s == t
  | .existence n a, .existence m b => n == m && a.same b
  | .wildcard, .wildcard => true
  | _, _ => false

/-- Equality of lists of operations. -/
def Operation.sameAll : List Operation → List Operation → Bool
  | [], [] => true
  | a :: as, b :: bs => a.same b && Operation.sameAll as bs
  | _, _ => false

/-- Equality of optional operations. -/
def Operation.sameOptional : Option Operation → Option Operation → Bool
  | none, none => true
  | some a, some b => a.same b
  | _, _ => false

/-- Equality of lists of expressions. -/
def Expression.sameAll : List Expression → List Expression → Bool
  | [], [] => true
  | a :: as, b :: bs => a.same b && Expression.sameAll as bs
  | _, _ => false

/-- Equality of optional expressions. -/
def Expression.sameOptional : Option Expression → Option Expression → Bool
  | none, none => true
  | some a, some b => a.same b
  | _, _ => false

/-- Equality of lists of bound aggregates. -/
def BoundAggregate.sameAll : List BoundAggregate → List BoundAggregate → Bool
  | [], [] => true
  | ⟨x, a⟩ :: as, ⟨y, b⟩ :: bs => x == y && a.same b && BoundAggregate.sameAll as bs
  | _, _ => false

end

mutual

theorem Operation.same_iff : ∀ a b : Operation, a.same b = true ↔ a = b
  | ⟨a, m⟩, ⟨b, n⟩ => by simp [Operation.same, Operator.same_iff a]
termination_by structural a => a

theorem Operator.same_iff : ∀ a b : Operator, a.same b = true ↔ a = b
  | .bgp _, b => by cases b <;> simp [Operator.same]
  | .values .., b => by cases b <;> simp [Operator.same]
  | .nop, b => by cases b <;> simp [Operator.same]
  | .path .., b => by cases b <;> simp [Operator.same, and_assoc]
  | .manage _, b => by cases b <;> simp [Operator.same]
  | .wrap _ a, b => by cases b <;> simp [Operator.same, Operation.same_iff a]
  | .filter a e, b => by
    cases b <;> simp [Operator.same, Operation.same_iff a, Expression.same_iff e]
  | .extend a _ e, b => by
    cases b <;> simp [Operator.same, Operation.same_iff a, Expression.same_iff e, and_assoc]
  | .group a _ e, b => by
    cases b <;> simp [Operator.same, Operation.same_iff a, BoundAggregate.sameAll_iff e, and_assoc]
  | .orderBy a e, b => by
    cases b <;> simp [Operator.same, Operation.same_iff a, Expression.sameAll_iff e]
  | .construct a _, b => by cases b <;> simp [Operator.same, Operation.same_iff a]
  | .combine _ a, b => by cases b <;> simp [Operator.same, Operation.sameAll_iff a]
  | .leftJoin l r e, b => by
    cases b <;> simp [Operator.same, Operation.same_iff l, Operation.same_iff r,
      Expression.sameOptional_iff e, and_assoc]
  | .minus l r, b => by
    cases b <;> simp [Operator.same, Operation.same_iff l, Operation.same_iff r]
  | .deleteInsert _ _ w, b => by
    cases b <;> simp [Operator.same, Operation.sameOptional_iff w, and_assoc]
termination_by structural a => a

theorem Expression.same_iff : ∀ a b : Expression, a.same b = true ↔ a = b
  | .term _, b => by cases b <;> simp [Expression.same]
  | .call _ a, b => by cases b <;> simp [Expression.same, Expression.sameAll_iff a]
  | .aggregate _ a _ _, b => by
    cases b <;> simp [Expression.same, Expression.same_iff a, and_assoc]
  | .existence _ a, b => by cases b <;> simp [Expression.same, Operation.same_iff a]
  | .wildcard, b => by cases b <;> simp [Expression.same]
termination_by structural a => a

theorem Operation.sameAll_iff : ∀ as bs : List Operation, Operation.sameAll as bs = true ↔ as = bs
  | [], bs => by cases bs <;> simp [Operation.sameAll]
  | a :: as, bs => by
    cases bs <;> simp [Operation.sameAll, Operation.same_iff a, Operation.sameAll_iff as]
termination_by structural a => a

theorem Operation.sameOptional_iff :
    ∀ a b : Option Operation, Operation.sameOptional a b = true ↔ a = b
  | none, b => by cases b <;> simp [Operation.sameOptional]
  | some a, b => by cases b <;> simp [Operation.sameOptional, Operation.same_iff a]
termination_by structural a => a

theorem Expression.sameAll_iff :
    ∀ as bs : List Expression, Expression.sameAll as bs = true ↔ as = bs
  | [], bs => by cases bs <;> simp [Expression.sameAll]
  | a :: as, bs => by
    cases bs <;> simp [Expression.sameAll, Expression.same_iff a, Expression.sameAll_iff as]
termination_by structural a => a

theorem Expression.sameOptional_iff :
    ∀ a b : Option Expression, Expression.sameOptional a b = true ↔ a = b
  | none, b => by cases b <;> simp [Expression.sameOptional]
  | some a, b => by cases b <;> simp [Expression.sameOptional, Expression.same_iff a]
termination_by structural a => a

theorem BoundAggregate.sameAll_iff :
    ∀ as bs : List BoundAggregate, BoundAggregate.sameAll as bs = true ↔ as = bs
  | [], bs => by cases bs <;> simp [BoundAggregate.sameAll]
  | ⟨x, a⟩ :: as, bs => by
    cases bs with
    | nil => simp [BoundAggregate.sameAll]
    | cons b bs =>
      obtain ⟨y, b⟩ := b
      simp [BoundAggregate.sameAll, Expression.same_iff a, BoundAggregate.sameAll_iff as]
termination_by structural a => a

end

instance : DecidableEq Operation := fun a b => decidable_of_iff _ (a.same_iff b)

instance : DecidableEq Operator := fun a b => decidable_of_iff _ (a.same_iff b)

instance : DecidableEq Expression := fun a b => decidable_of_iff _ (a.same_iff b)

end QueryAlgebra
