import QueryAlgebra.Proofs.Operation.WellFormed

/-! # Properties of well-formed operations

What is well-formed within bounds is well-formed within wider ones, a query that shows variables may
stand in a group, and all names in a well-formed operation are allowed.
-/

namespace QueryAlgebra

section

variable {bounds : Bounds}

@[simp] theorem Path.allWellFormed_iff {paths : List Path} :
    Path.allWellFormed bounds paths ↔ ∀ path ∈ paths, path.WellFormed bounds := by
  induction paths with
  | nil => simp [allWellFormed]
  | cons path rest ih => simp [allWellFormed, ih]

@[simp] theorem Operation.allWellFormed_iff {operations : List Operation} :
    Operation.allWellFormed bounds operations
      ↔ ∀ operation ∈ operations, operation.IsPattern bounds := by
  induction operations with
  | nil => simp [allWellFormed]
  | cons operation rest ih => simp [allWellFormed, ih]

@[simp] theorem Expression.allWellFormed_iff {key : Bool} {expressions : List Expression} :
    Expression.allWellFormed bounds key expressions
      ↔ ∀ expression ∈ expressions, expression.WellFormed bounds key := by
  induction expressions with
  | nil => simp [allWellFormed]
  | cons expression rest ih => simp [allWellFormed, ih]

@[simp] theorem BoundAggregate.allWellFormed_iff {aggregates : List BoundAggregate} :
    BoundAggregate.allWellFormed bounds aggregates
      ↔ ∀ bound ∈ aggregates, bound.WellFormed bounds := by
  induction aggregates with
  | nil => simp [allWellFormed]
  | cons bound rest ih =>
    obtain ⟨name, expression⟩ := bound
    simp [allWellFormed, ih, WellFormed]

/-- A query that shows variables may stand in a group. -/
theorem Operation.WellFormed.isPattern {operation : Operation} {select : Bool}
    (wellFormed : operation.WellFormed bounds select) : operation.IsPattern bounds := by
  obtain ⟨operator, metadata⟩ := operation
  cases select with
  | false => exact wellFormed
  | true =>
    cases operator with
    | wrap wrapper input =>
      cases wrapper <;> first | exact wellFormed | cases wellFormed.1
    | combine how inputs => cases how <;> first | cases wellFormed.1 | cases wellFormed
    | leftJoin left right condition => cases condition <;> cases wellFormed.1
    | bgp | values | path | filter | extend | group | orderBy | minus => cases wellFormed.1
    | nop | manage | construct | deleteInsert => cases wellFormed

end

/-! ### Wider bounds -/

section

variable {bounds wider : Bounds}

namespace Bounds.TermsLe

theorem isFull (le : bounds.TermsLe wider) (node : NamedNode) (full : node.IsFull bounds) :
    node.IsFull wider := fun strict => full (le.strict strict)

theorem isName (le : bounds.TermsLe wider) {term : Term} (isName : term.IsName bounds) :
    term.IsName wider := by
  cases term with
  | var name => exact le.name _ isName
  | iri node => exact le.isFull _ isName
  | _ => cases isName

theorem isNode (le : bounds.TermsLe wider) {term : Term} (isNode : term.IsNode bounds) :
    term.IsNode wider := by
  induction term with
  | iri node => exact le.isFull node isNode
  | blank node => exact le.name _ isNode
  | literal text => exact le.isFull text.datatype isNode
  | var name => exact le.name _ isNode
  | defaultGraph => cases isNode
  | quad subject predicate object graph ihSubject _ ihObject _ =>
    obtain ⟨ofSubject, ofPredicate, ofObject, inDefault⟩ := isNode
    exact ⟨ihSubject ofSubject, le.isName ofPredicate, ihObject ofObject, inDefault⟩

theorem isValue (le : bounds.TermsLe wider) {term : Term} (isValue : term.IsValue bounds) :
    term.IsValue wider := by
  cases term with
  | iri node => exact le.isFull node isValue
  | literal text => exact le.isFull text.datatype isValue
  | var name => exact le.name _ isValue
  | _ => cases isValue

theorem row (le : bounds.TermsLe wider) {row : Row} (wellFormed : row.WellFormed bounds) :
    row.WellFormed wider := fun entry member =>
  ⟨le.name _ (wellFormed entry member).1, le.isNode (wellFormed entry member).2⟩

mutual

theorem path (le : bounds.TermsLe wider) : ∀ path : Path,
    path.WellFormed bounds → path.WellFormed wider
  | .link _, full => le.isFull _ full
  | .inverse path, wellFormed => Bounds.TermsLe.path le path wellFormed
  | .seq _, ⟨nonempty, all⟩ => ⟨nonempty, Bounds.TermsLe.allPaths le _ all⟩
  | .alt _, ⟨nonempty, all⟩ => ⟨nonempty, Bounds.TermsLe.allPaths le _ all⟩
  | .zeroOrMore path, wellFormed => Bounds.TermsLe.path le path wellFormed
  | .oneOrMore path, wellFormed => Bounds.TermsLe.path le path wellFormed
  | .zeroOrOne path, wellFormed => Bounds.TermsLe.path le path wellFormed
  | .negated _, ⟨nonempty, all⟩ => ⟨nonempty, fun node member => le.isFull node (all node member)⟩

theorem allPaths (le : bounds.TermsLe wider) : ∀ paths : List Path,
    Path.allWellFormed bounds paths → Path.allWellFormed wider paths
  | [], _ => trivial
  | _ :: _, ⟨first, rest⟩ => ⟨Bounds.TermsLe.path le _ first, Bounds.TermsLe.allPaths le _ rest⟩

end

theorem target (le : bounds.TermsLe wider) {target : GraphTarget} (full : target.IsFull bounds) :
    target.IsFull wider := by
  cases target with
  | graph name => exact le.isFull name full
  | _ => trivial

theorem single (le : bounds.TermsLe wider) {target : GraphTarget} (single : target.IsSingle bounds) :
    target.IsSingle wider := by
  cases target with
  | graph name => exact le.isFull name single
  | default => trivial
  | _ => cases single

theorem action (le : bounds.TermsLe wider) {action : GraphAction}
    (wellFormed : action.WellFormed bounds) : action.WellFormed wider := by
  cases action with
  | load source destination silent =>
    exact ⟨le.isFull _ wellFormed.1, fun node member => le.isFull node (wellFormed.2 node member)⟩
  | clear target silent | drop target silent => exact le.target wellFormed
  | create graph silent => exact le.isFull graph wellFormed
  | transfer how source destination silent =>
    exact ⟨le.single wellFormed.1, le.single wellFormed.2⟩

end Bounds.TermsLe

theorem Bounds.Le.refl (bounds : Bounds) : bounds.Le bounds := ⟨⟨fun _ => id, id⟩, id⟩

namespace Bounds.Le

theorem inDefault (le : bounds.Le wider) : bounds.inDefault.Le wider.inDefault :=
  ⟨⟨le.name, le.strict⟩, id⟩

theorem isGraph (le : bounds.Le wider) {graph : Term} (isGraph : graph.IsGraph bounds) :
    graph.IsGraph wider :=
  isGraph.imp id fun ⟨graphs, isName⟩ => ⟨le.graphs graphs, le.isName isName⟩

theorem pattern (le : bounds.Le wider) {pattern : Pattern} (wellFormed : pattern.WellFormed bounds) :
    pattern.WellFormed wider :=
  ⟨le.isNode wellFormed.subject, le.isName wellFormed.predicate, le.isNode wellFormed.object,
    le.isGraph wellFormed.graph⟩

mutual

theorem operation (le : bounds.Le wider) {select : Bool} : ∀ operation : Operation,
    operation.WellFormed bounds select → operation.WellFormed wider select
  | ⟨operator, _⟩, wellFormed => Bounds.Le.operator le operator wellFormed

theorem operator (le : bounds.Le wider) {select : Bool} : ∀ operator : Operator,
    operator.WellFormed bounds select → operator.WellFormed wider select
  | .bgp _, ⟨group, patterns⟩ => ⟨group, fun pattern member => le.pattern (patterns pattern member)⟩
  | .values _ _, ⟨group, vars, rows⟩ =>
    ⟨group, fun name member => le.name _ (vars name member),
      fun row member => le.row (rows row member)⟩
  | .path .., ⟨group, subject, predicate, object, graph⟩ =>
    ⟨group, le.isNode subject, le.path _ predicate, le.isNode object, le.isGraph graph⟩
  | .wrap (.project _) _, ⟨vars, input⟩ =>
    ⟨fun name member => le.name _ (vars name member), Bounds.Le.operation le _ input⟩
  | .wrap (.graph _) _, ⟨group, name, input⟩ =>
    ⟨group, le.isName name, Bounds.Le.operation le _ input⟩
  | .wrap (.service _ _) _, ⟨group, name, input⟩ =>
    ⟨group, le.isName name, Bounds.Le.operation le _ input⟩
  | .wrap .distinct input, wellFormed => Bounds.Le.operation le input wellFormed
  | .wrap .reduced input, wellFormed => Bounds.Le.operation le input wellFormed
  | .wrap (.slice _ _) input, wellFormed => Bounds.Le.operation le input wellFormed
  | .wrap (.dataset _ _) _, ⟨nodes, input⟩ =>
    ⟨fun node member => le.isFull node (nodes node member), Bounds.Le.operation le _ input⟩
  | .filter _ _, ⟨group, input, condition⟩ =>
    ⟨group, Bounds.Le.operation le _ input, Bounds.Le.expression le _ condition⟩
  | .extend _ _ _, ⟨group, input, name, value⟩ =>
    ⟨group, Bounds.Le.operation le _ input, le.name _ name, Bounds.Le.expression le _ value⟩
  | .group _ _ _, ⟨group, input, keys, aggregates⟩ =>
    ⟨group, Bounds.Le.operation le _ input, fun name member => le.name _ (keys name member),
      Bounds.Le.aggregates le _ aggregates⟩
  | .orderBy _ _, ⟨group, input, keys⟩ =>
    ⟨group, Bounds.Le.operation le _ input, Bounds.Le.expressions le _ keys⟩
  | .combine .join _, ⟨group, inputs⟩ => ⟨group, Bounds.Le.operations le _ inputs⟩
  | .combine .union _, ⟨group, inputs⟩ => ⟨group, Bounds.Le.operations le _ inputs⟩
  | .leftJoin _ _ none, ⟨group, left, right⟩ =>
    ⟨group, Bounds.Le.operation le _ left, Bounds.Le.operation le _ right⟩
  | .leftJoin _ _ (some _), ⟨group, left, right, condition⟩ =>
    ⟨group, Bounds.Le.operation le _ left, Bounds.Le.operation le _ right,
      Bounds.Le.expression le _ condition⟩
  | .minus _ _, ⟨group, left, right⟩ =>
    ⟨group, Bounds.Le.operation le _ left, Bounds.Le.operation le _ right⟩

theorem expression (le : bounds.Le wider) {key : Bool} : ∀ expression : Expression,
    expression.WellFormed bounds key → expression.WellFormed wider key
  | .term _, value => le.isValue value
  | .call (.operator _) _, ⟨takes, arguments⟩ =>
    ⟨takes.imp id fun takes strict => takes (le.strict strict),
      Bounds.Le.expressions le _ arguments⟩
  | .call (.function _) _, ⟨full, arguments⟩ =>
    ⟨le.isFull _ full, Bounds.Le.expressions le _ arguments⟩
  | .aggregate .., ⟨known, argument⟩ =>
    ⟨known, argument.imp id fun argument => Bounds.Le.expression le _ argument⟩
  | .existence _ input, wellFormed => Bounds.Le.operation le input wellFormed

theorem operations (le : bounds.Le wider) : ∀ operations : List Operation,
    Operation.allWellFormed bounds operations → Operation.allWellFormed wider operations
  | [], _ => trivial
  | _ :: _, ⟨first, rest⟩ => ⟨Bounds.Le.operation le _ first, Bounds.Le.operations le _ rest⟩

theorem expressions (le : bounds.Le wider) {key : Bool} : ∀ expressions : List Expression,
    Expression.allWellFormed bounds key expressions →
    Expression.allWellFormed wider key expressions
  | [], _ => trivial
  | _ :: _, ⟨first, rest⟩ => ⟨Bounds.Le.expression le _ first, Bounds.Le.expressions le _ rest⟩

theorem aggregates (le : bounds.Le wider) : ∀ aggregates : List BoundAggregate,
    BoundAggregate.allWellFormed bounds aggregates →
    BoundAggregate.allWellFormed wider aggregates
  | [], _ => trivial
  | ⟨_, _⟩ :: _, ⟨⟨name, value⟩, rest⟩ =>
    ⟨⟨le.name _ name, Bounds.Le.expression le _ value⟩, Bounds.Le.aggregates le _ rest⟩

end

theorem isScope (le : bounds.Le wider) {operation : Operation} (isScope : operation.IsScope bounds) :
    operation.IsScope wider := by
  cases isScope with
  | pattern isPattern => exact .pattern (le.operation _ isPattern)
  | dataset metadata nodes isPattern =>
    exact .dataset metadata (fun node member => le.isFull node (nodes node member))
      (le.operation _ isPattern)

theorem isUpdate (le : bounds.Le wider) {operation : Operation}
    (isUpdate : operation.IsUpdate bounds) : operation.IsUpdate wider := by
  cases isUpdate with
  | triples metadata graphs delete insert scope =>
    exact .triples metadata (le.graphs graphs)
      (fun template member pattern inTemplate => le.pattern (delete template member pattern inTemplate))
      (fun template member pattern inTemplate => le.pattern (insert template member pattern inTemplate))
      (fun operation member => le.isScope (scope operation member))
  | graphs metadata wellFormed => exact .graphs metadata (le.action wellFormed)

theorem isQuery (le : bounds.Le wider) {operation : Operation} (isQuery : operation.IsQuery bounds) :
    operation.IsQuery wider := by
  induction isQuery with
  | select wellFormed => exact .select (le.operation _ wellFormed)
  | ask metadata isPattern => exact .ask metadata (le.operation _ isPattern)
  | describe metadata terms isPattern =>
    exact .describe metadata (fun term member => le.isName (terms term member))
      (le.operation _ isPattern)
  | construct metadata isPattern template =>
    exact .construct metadata (le.operation _ isPattern)
      fun pattern member => le.inDefault.pattern (template pattern member)
  | slice start length metadata _ ih => exact .slice start length metadata ih
  | dataset metadata nodes _ ih =>
    exact .dataset metadata (fun node member => le.isFull node (nodes node member)) ih

theorem isRequest (le : bounds.Le wider) {operation : Operation}
    (isRequest : operation.IsRequest bounds) : operation.IsRequest wider := by
  cases isRequest with
  | nothing metadata => exact .nothing metadata
  | updates metadata areUpdates =>
    exact .updates metadata fun input member => le.isUpdate (areUpdates input member)
  | update isUpdate => exact .update (le.isUpdate isUpdate)
  | query isQuery => exact .query (le.isQuery isQuery)

end Bounds.Le

theorem Bounds.TermsLe.toDefault (bounds : Bounds) : bounds.TermsLe bounds.inDefault :=
  ⟨fun _ => id, id⟩

/-- A pattern in the default graph names no graph. -/
theorem Pattern.WellFormed.inDefault {pattern : Pattern} (wellFormed : pattern.WellFormed bounds)
    (isDefault : pattern.graph = .defaultGraph) : pattern.WellFormed bounds.inDefault :=
  have le := Bounds.TermsLe.toDefault bounds
  ⟨le.isNode wellFormed.subject, le.isName wellFormed.predicate, le.isNode wellFormed.object,
    .inl isDefault⟩

end

end QueryAlgebra
