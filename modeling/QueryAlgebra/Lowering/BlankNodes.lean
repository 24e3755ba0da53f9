import QueryAlgebra.Lowering.Context
import QueryAlgebra.Operation.Canonical

/-! # Blank nodes as variables

A blank node of a pattern is matched like a variable that is never shown. When asked, each label in
the patterns and paths of an operation becomes a variable, called after the label unless that name
is in use. In the templates of constructions and updates blank nodes are made anew; they stay.
-/

namespace QueryAlgebra

/-- The labels in a term. -/
def Term.labels (term : Term) : List String :=
  term.nested.filterMap fun
    | .blank node => some node.label
    | _ => none

/-- Replace the blank nodes in a term. -/
def Term.replaceBlanks (replace : String → Term) (term : Term) : Term :=
  term.mapNested fun
    | .blank node => replace node.label
    | other => other

/-- The labels of an operator's own path. -/
def Operator.pathLabels : Operator → List String
  | .path subject _ object graph => subject.labels ++ object.labels ++ graph.labels
  | _ => []

/-- Replace the blank nodes of an operator's own path. -/
def Operator.replacePathBlanks (replace : String → Term) : Operator → Operator
  | .path subject predicate object graph =>
    .path (subject.replaceBlanks replace) predicate (object.replaceBlanks replace)
      (graph.replaceBlanks replace)
  | operator => operator

/-- The labels in the patterns and paths of an operation, outside templates, in the order in which
they are met. -/
def Operation.labels (operation : Operation) : List String :=
  firstSeen <| operation.gather
    { closed := fun _ => false
      pattern := fun place pattern =>
        if place = .bgp then pattern.terms.flatMap Term.labels else []
      expression := fun _ => []
      operator := Operator.pathLabels }

/-- Replace the blank nodes in the patterns and paths of an operation, outside templates. -/
def Operation.replaceBlanks (replace : String → Term) (operation : Operation) : Operation :=
  operation.rebuild
    { Rebuild.nothing with
      pattern := fun place pattern =>
        if place = .bgp then pattern.mapTerms (Term.replaceBlanks replace) else pattern
      operation := fun op => ⟨op.operator.replacePathBlanks replace, op.metadata⟩ }

namespace Context

/-- A variable for every label. -/
def labelVariables (context : Context) : List String → Lowering (List (String × Variable))
  | [] => pure []
  | label :: rest => do
    let name ← modifyGet fun supply => supply.takeLabelled label
    let others ← context.labelVariables rest
    pure ((label, context.factory.var name) :: others)

/-- The variable that stands for a label; a label without one stays. -/
def labelTerm (vars : List (String × Variable)) (label : String) : Term :=
  match vars.lookup label with
  | some name => .var name
  | none => .blank ⟨label⟩

/-- The operation with its blank nodes turned into variables, if it fits on the stack of the
traversal. -/
def blanksToVariables (context : Context) (operation : Operation) : Lowering Operation := do
  Lowering.ofTraversal ((Node.operation operation).checkFits fun kind =>
    if kind = .construct ∨ kind = .deleteInsert then .afresh
    else if kind = .pattern ∨ kind = .path then .leave
    else .descend)
  let vars ← context.labelVariables operation.labels
  pure (operation.replaceBlanks (labelTerm vars))

end Context

end QueryAlgebra
