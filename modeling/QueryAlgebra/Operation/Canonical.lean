import QueryAlgebra.Node.OwnTerms
import QueryAlgebra.Operation.Walk
import QueryAlgebra.Traversal

/-! # Canonical names

Blank nodes, and variables where that is asked for, are renamed to `value_0`, `value_1`, … in the
order in which they are first met, so that operations that differ in these names alone become
equal. An operation is met after its inputs, and its own terms in the order of its fields. The
blank nodes of a construction template stand for nodes that are made anew for every solution; they
keep their labels.
-/

namespace QueryAlgebra

/-- A name that may be renamed. Variables and blank nodes of one name are different. -/
inductive LocalName where
  | var (name : String)
  | blank (label : String)
deriving DecidableEq, Inhabited

namespace LocalName

/-- Whether the name is a variable's. -/
def isVar : LocalName → Bool
  | .var _ => true
  | .blank _ => false

end LocalName

/-- The names in a term, in the order of the terms inside it. -/
def Term.localNames (term : Term) : List LocalName :=
  term.nested.filterMap fun
    | .var name => some (.var name.name)
    | .blank node => some (.blank node.label)
    | _ => none

/-- Replace the names in a term. -/
def Term.renameLocal (rename : LocalName → String) (term : Term) : Term :=
  term.mapNested fun
    | .var name => .var ⟨rename (.var name.name)⟩
    | .blank node => .blank ⟨rename (.blank node.label)⟩
    | other => other

/-- The name as it is. -/
def LocalName.text : LocalName → String
  | .var name => name
  | .blank label => label

/-- The names of an operation that are not blank nodes of construction templates, in the order in
which they are met. -/
def Operation.localNames (operation : Operation) : List LocalName :=
  operation.gather
    { closed := fun _ => false
      pattern := fun place pattern =>
        let names := pattern.terms.flatMap Term.localNames
        if place = .template then names.filter LocalName.isVar else names
      expression := fun expression => expression.ownTerms.flatMap Term.localNames
      operator := fun operator => operator.ownTerms.flatMap Term.localNames }

/-- Replace the names of an operation, other than blank nodes of construction templates. -/
def Operation.renameLocal (rename : LocalName → String) (operation : Operation) : Operation :=
  operation.rebuild
    { closed := fun _ => false
      pattern := fun place =>
        if place = .template then
          Pattern.mapTerms (Term.renameLocal fun name =>
            if name.isVar then rename name else name.text)
        else Pattern.mapTerms (Term.renameLocal rename)
      expression := Expression.mapOwnTerms (Term.renameLocal rename)
      operation := fun op => ⟨op.operator.mapOwnTerms (Term.renameLocal rename), op.metadata⟩ }

/-- The members of a list in the order in which they are first met. -/
def firstSeen {α : Type} [BEq α] (xs : List α) : List α := xs.eraseDups

/-- The canonical name of the name at an index. -/
def canonicalName (index : Nat) : String := "value_" ++ toString index

/-- The renaming that gives names their canonical ones; other names stay as they are. -/
def canonicalRenaming (names : List LocalName) (name : LocalName) : String :=
  match names.idxOf? name with
  | some index => canonicalName index
  | none => name.text

/-- The names that are renamed. -/
def Operation.canonicalNames (renameVariables : Bool) (operation : Operation) : List LocalName :=
  firstSeen (operation.localNames.filter fun name => renameVariables || !name.isVar)

/-- The operation under canonical names. -/
def Operation.canonical (renameVariables : Bool) (operation : Operation) : Operation :=
  operation.renameLocal (canonicalRenaming (operation.canonicalNames renameVariables))

/-- The operation under canonical names, if it fits on the stack of the traversal. The inputs of
constructions are traversed on their own. -/
def Operation.canonicalize (renameVariables : Bool) (operation : Operation) :
    Except TraversalError Operation := do
  (Node.operation operation).checkFits fun kind => if kind = .construct then .afresh else .descend
  pure (operation.canonical renameVariables)

end QueryAlgebra
