import QueryAlgebra.Term

/-! # Property paths of the algebra

A path relates pairs of nodes: a link by one predicate, or a combination of paths. Sequences and
alternatives are lists; `Path.sequence` and `Path.alternative` keep them flat.
-/

namespace QueryAlgebra

/-- A property path. -/
inductive Path where
  | link (predicate : NamedNode)
  | inverse (path : Path)
  | seq (steps : List Path)
  | alt (branches : List Path)
  | zeroOrMore (path : Path)
  | oneOrMore (path : Path)
  | zeroOrOne (path : Path)
  | negated (predicates : List NamedNode)

namespace Path

/-- The empty negated set stands where no path has been put yet. -/
instance : Inhabited Path := ⟨.negated []⟩

mutual

/-- Equality of paths. -/
def same : Path → Path → Bool
  | .link a, .link b => a == b
  | .inverse a, .inverse b => same a b
  | .seq a, .seq b => sameAll a b
  | .alt a, .alt b => sameAll a b
  | .zeroOrMore a, .zeroOrMore b => same a b
  | .oneOrMore a, .oneOrMore b => same a b
  | .zeroOrOne a, .zeroOrOne b => same a b
  | .negated a, .negated b => a == b
  | _, _ => false

/-- Equality of two lists of paths. -/
def sameAll : List Path → List Path → Bool
  | [], [] => true
  | a :: as, b :: bs => same a b && sameAll as bs
  | _, _ => false

end

mutual

theorem same_iff : ∀ a b : Path, same a b = true ↔ a = b
  | .link _, b => by cases b <;> simp [same]
  | .inverse a, b => by cases b <;> simp [same, same_iff a]
  | .seq a, b => by cases b <;> simp [same, sameAll_iff a]
  | .alt a, b => by cases b <;> simp [same, sameAll_iff a]
  | .zeroOrMore a, b => by cases b <;> simp [same, same_iff a]
  | .oneOrMore a, b => by cases b <;> simp [same, same_iff a]
  | .zeroOrOne a, b => by cases b <;> simp [same, same_iff a]
  | .negated _, b => by cases b <;> simp [same]

theorem sameAll_iff : ∀ as bs : List Path, sameAll as bs = true ↔ as = bs
  | [], bs => by cases bs <;> simp [sameAll]
  | a :: as, bs => by cases bs <;> simp [sameAll, same_iff a, sameAll_iff as]

end

instance : DecidableEq Path := fun a b => decidable_of_iff _ (same_iff a b)

/-- The steps of a sequence; another path is one step. -/
def steps : Path → List Path
  | .seq steps => steps
  | path => [path]

/-- The branches of an alternative; another path is one branch. -/
def branches : Path → List Path
  | .alt branches => branches
  | path => [path]

/-- One path after the other; a sequence among them contributes its steps. -/
def sequence (paths : List Path) : Path := .seq (paths.flatMap steps)

/-- One path or the other; an alternative among them contributes its branches. -/
def alternative (paths : List Path) : Path := .alt (paths.flatMap branches)

end Path

end QueryAlgebra
