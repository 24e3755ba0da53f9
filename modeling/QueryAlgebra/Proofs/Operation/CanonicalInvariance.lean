import QueryAlgebra.Proofs.NameMap
import QueryAlgebra.Proofs.Operation.CanonicalForm
import QueryAlgebra.Proofs.Operation.CorrespondenceLaws
import QueryAlgebra.Proofs.Traversal.Fitting
import Mathlib.Logic.Equiv.Basic

/-! # Canonical names do not depend on the names

The names of operations that correspond under a one-to-one relation are first met in step
(`Operation.Corresponds.aligned`), although the cells of a row of inline data are met in the order
of their columns' names: a row that binds variables of the header alone to terms without names
brings no name that was not met in the header. So a name and the one that it is related to get the
same number, and the canonical forms are equal: `Operation.canonicalize_of_corresponds`.
-/

namespace QueryAlgebra

/-! ### Names met for the first time -/

theorem mem_firstSeen {names : List LocalName} {name : LocalName} :
    name ∈ firstSeen names ↔ name ∈ names :=
  List.mem_eraseDups

private theorem firstSeen_filter (keeps : LocalName → Bool) (names : List LocalName) :
    firstSeen (names.filter keeps) = (firstSeen names).filter keeps := by
  match names with
  | [] => rfl
  | name :: rest =>
    have shorter : (rest.filter fun other => !other == name).length < rest.length + 1 :=
      Nat.lt_succ_of_le (List.length_filter_le _ _)
    have ofRest := firstSeen_filter keeps (rest.filter fun other => !other == name)
    rw [firstSeen, firstSeen] at ofRest ⊢
    rw [List.eraseDups_cons, List.filter_cons, List.filter_cons]
    split
    · rw [List.eraseDups_cons, List.filter_comm, ofRest]
    · rename_i dropped
      -- The names that are the same as one that is not kept are not kept either.
      have gone : (rest.filter fun other => !other == name).filter keeps = rest.filter keeps := by
        rw [List.filter_filter]
        apply List.filter_congr
        intro other _
        by_cases same : other = name
        · simp [same, dropped]
        · simp [same]
      rw [← ofRest, gone]
termination_by names.length

/-- Of the names that follow others, those are met for the first time that the others lack. -/
theorem firstSeen_append (names more : List LocalName) :
    firstSeen (names ++ more)
      = firstSeen names ++ (firstSeen more).filter fun name => !names.elem name := by
  rw [← firstSeen_filter]
  exact List.eraseDups_append

theorem firstSeen_append_of_subset {names more : List LocalName} (known : more ⊆ names) :
    firstSeen (names ++ more) = firstSeen names := by
  have none : ((firstSeen more).filter fun name => !names.elem name) = [] := by
    rw [List.filter_eq_nil_iff]
    intro name mem
    simp [known (mem_firstSeen.1 mem)]
  rw [firstSeen_append, none, List.append_nil]

/-! ### Names met in step -/

/-- Related names are met for the first time in step. -/
def Aligned (related : LocalName → LocalName → Prop) (first second : List LocalName) : Prop :=
  List.Forall₂ related (firstSeen first) (firstSeen second)

/-- Inline data of rows that bind variables of the header alone, to terms without names. -/
def IsTabular (vars : List Variable) (rows : List Row) : Prop :=
  ∀ row ∈ rows, ∀ cell ∈ row.entries, ⟨cell.1⟩ ∈ vars ∧ cell.2.localNames = []

instance (vars : List Variable) (rows : List Row) : Decidable (IsTabular vars rows) :=
  inferInstanceAs (Decidable (∀ row ∈ rows, ∀ cell ∈ row.entries, _))

theorem IsTabular.names_subset {vars : List Variable} {rows : List Row}
    (tabular : IsTabular vars rows) :
    (rows.flatMap fun row => (rowTerms row).flatMap Term.localNames)
      ⊆ (vars.map Term.var).flatMap Term.localNames := by
  intro name mem
  obtain ⟨row, inRows, inRow⟩ := List.mem_flatMap.1 mem
  obtain ⟨term, inTerms, inTerm⟩ := List.mem_flatMap.1 inRow
  obtain ⟨cell, inCells, isOf⟩ := List.mem_flatMap.1 inTerms
  obtain ⟨inHeader, nameless⟩ := tabular row inRows cell inCells
  rcases List.mem_pair.1 isOf with rfl | rfl
  · exact List.mem_flatMap.2 ⟨_, List.mem_map_of_mem inHeader, inTerm⟩
  · rw [nameless] at inTerm
    cases inTerm

section

variable {related : LocalName → LocalName → Prop}

theorem inStep_aligned (oneToOne : Relator.BiUnique related) :
    InStep related (Aligned related) where
  nil := .nil
  single isRelated := .cons isRelated .nil
  append := by
    intro first second more others ofFirst ofMore
    rw [Aligned, firstSeen_append, firstSeen_append]
    refine List.rel_append ofFirst (List.rel_filter (fun m n isRelated => ?_) ofMore)
    have members : m ∈ firstSeen first ↔ n ∈ firstSeen second :=
      List.rel_mem oneToOne isRelated ofFirst
    rw [mem_firstSeen, mem_firstSeen] at members
    simp [members]

theorem tablesInStep_aligned (oneToOne : Relator.BiUnique related) :
    TablesInStep related (Aligned related) IsTabular := by
  intro vars vars' rows rows' tabular ofVars ofRows
  rw [flatMap_localNames_table, flatMap_localNames_table]
  have known := tabular.names_subset
  have known' : (rows'.flatMap fun row => (rowTerms row).flatMap Term.localNames)
      ⊆ (vars'.map Term.var).flatMap Term.localNames := by
    intro n mem
    obtain ⟨m, mem', isRelated⟩ := (Row.Corresponds.all_names ofRows).back n mem
    obtain ⟨n', inHeader, isRelated'⟩ :=
      (Variable.Corresponds.all_gathered inStep_matches ofVars).forth m (known mem')
    rwa [oneToOne.2 isRelated isRelated']
  rw [Aligned, firstSeen_append_of_subset known, firstSeen_append_of_subset known']
  exact Variable.Corresponds.all_gathered (inStep_aligned oneToOne) ofVars

/-- The columns of all rows are related to themselves. -/
def FixesColumns (related : LocalName → LocalName → Prop) (rows : List Row) : Prop :=
  ∀ row ∈ rows, ∀ cell ∈ row.entries, related (.var cell.1) (.var cell.1)

/-- Where columns are related to themselves, the cells of corresponding rows are in one order. -/
theorem Row.Corresponds.gathered {alike : List LocalName → List LocalName → Prop}
    (oneToOne : Relator.BiUnique related) (inStep : InStep related alike) {first second : Row}
    (fixed : ∀ cell ∈ first.entries, related (.var cell.1) (.var cell.1))
    (correspond : first.Corresponds related second) :
    alike ((rowTerms first).flatMap Term.localNames)
      ((rowTerms second).flatMap Term.localNames) := by
  obtain ⟨cells, ofCells, perm⟩ := correspond
  have sameKeys : first.entries.map (·.1) = cells.map (·.1) := by
    rw [← List.forall₂_eq_eq_eq, List.forall₂_map_left_iff, List.forall₂_map_right_iff]
    refine List.forall₂_iff_zip.2 ⟨ofCells.length_eq, fun isPair => ?_⟩
    have itself := fixed _ (List.of_mem_zip isPair).1
    exact LocalName.var.inj (oneToOne.2 itself (List.forall₂_zip ofCells isPair).1)
  have sorted : cells.Pairwise fun cell cell' => cell.1 < cell'.1 := by
    have sortedKeys := List.pairwise_map.2 first.sorted
    rw [sameKeys] at sortedKeys
    exact List.pairwise_map.1 sortedKeys
  rw [rowTerms, rowTerms, List.flatMap_assoc, List.flatMap_assoc,
    ← NameMap.eq_entries_of_perm sorted perm]
  exact inStep.flatMap ofCells fun _ _ cell =>
    Term.Corresponds.all_gathered inStep (.cons (.var cell.1) (.cons cell.2 .nil))

theorem tablesInStep_of_fixed {alike : List LocalName → List LocalName → Prop}
    (oneToOne : Relator.BiUnique related) (inStep : InStep related alike) :
    TablesInStep related alike fun _ rows => FixesColumns related rows := by
  intro vars vars' rows rows' fixed ofVars ofRows
  rw [flatMap_localNames_table, flatMap_localNames_table]
  refine inStep.append (Variable.Corresponds.all_gathered inStep ofVars) ?_
  induction ofRows with
  | nil => exact inStep.nil
  | cons ofRow _ ih =>
    obtain ⟨ofColumns, ofRest⟩ := List.forall_mem_cons.1 fixed
    exact inStep.append (ofRow.gathered oneToOne inStep ofColumns) (ih ofRest)

/-- Related names get the same number. -/
theorem CanonicallyNamed.eq_of_aligned (oneToOne : Relator.BiUnique related)
    (kinds : ∀ m n, related m n → m.isVar = n.isVar) {first second : List LocalName}
    (aligned : Aligned related first second) {m n k k' : LocalName}
    (ofFirst : CanonicallyNamed true (firstSeen first) m k) (isRelated : related m n)
    (ofSecond : CanonicallyNamed true (firstSeen second) n k') : k = k' := by
  cases ofFirst with
  | kept keeps => cases keeps
  | numbered index isAt =>
    cases ofSecond with
    | kept keeps => cases keeps
    | numbered index' isAt' =>
      obtain ⟨inside, atIndex⟩ := List.getElem?_eq_some_iff.1 isAt
      obtain ⟨inside', atIndex'⟩ := List.getElem?_eq_some_iff.1 isAt'
      have inSecond : index < (firstSeen second).length := aligned.length_eq ▸ inside
      have places := aligned.get inside inSecond
      rw [List.get_eq_getElem, List.get_eq_getElem, atIndex] at places
      have same : (firstSeen second)[index] = (firstSeen second)[index'] :=
        (oneToOne.2 places isRelated).trans atIndex'.symm
      obtain rfl : index = index' := (List.Nodup.getElem_inj_iff (nodup_firstSeen second)).1 same
      have kind := kinds _ _ isRelated
      cases m <;> cases n <;> first | rfl | cases kind

end

/-! ### Corresponding operations have one shape -/

private theorem nodes_sameShape {α : Type} {alike : α → α → Prop} {node : α → Node}
    (sameShape : ∀ x y, alike x y → Node.SameShape (node x) (node y)) {first second : List α}
    (correspond : List.Forall₂ alike first second) :
    List.Forall₂ Node.SameShape (first.map node) (second.map node) :=
  List.forall₂_map_left_iff.2 (List.forall₂_map_right_iff.2 (correspond.imp sameShape))

private theorem patterns_sameShape {alike : Pattern → Pattern → Prop} {first second : List Pattern}
    (correspond : List.Forall₂ alike first second) :
    List.Forall₂ Node.SameShape (first.map .pattern) (second.map .pattern) :=
  nodes_sameShape (fun _ _ _ => .mk rfl .nil) correspond

private theorem optional_sameShape {alike : Pattern → Pattern → Prop}
    {first second : Option (List Pattern)}
    (correspond : Option.Rel (List.Forall₂ alike) first second) :
    List.Forall₂ Node.SameShape ((first.getD []).map .pattern)
      ((second.getD []).map .pattern) := by
  cases correspond with
  | none => exact .nil
  | some patterns => exact patterns_sameShape patterns

section

variable {related : LocalName → LocalName → Prop}

theorem Wrapper.Corresponds.kind {first second : Wrapper}
    (correspond : first.Corresponds related second) : first.kind = second.kind := by
  cases correspond <;> rfl

theorem Operator.Corresponds.kind {first second : Operator}
    (correspond : first.Corresponds related second) : first.kind = second.kind := by
  cases correspond with
  | wrap wrapper => exact wrapper.kind
  | _ => rfl

mutual

/-- Corresponding operations are trees of one shape. -/
theorem Operation.Corresponds.sameShape : ∀ {first second : Operation},
    first.Corresponds related second → Node.SameShape (.operation first) (.operation second)
  | ⟨_, _⟩, _, .mk _ operators => .mk operators.kind (Operator.Corresponds.sameShape operators)
termination_by structural first => first

theorem Operator.Corresponds.sameShape : ∀ {first second : Operator},
    first.Corresponds related second →
    List.Forall₂ Node.SameShape first.children second.children
  | .bgp _, _, .bgp patterns => patterns_sameShape patterns
  | .values _ _, _, .values _ _ => .nil
  | .nop, _, .nop => .nil
  | .path .., _, .path predicate _ _ _ => .cons (.refl (.path predicate)) .nil
  | .manage _, _, .manage _ => .nil
  | .wrap _ _, _, .wrap _ input => .cons (Operation.Corresponds.sameShape input) .nil
  | .filter _ _, _, .filter input condition =>
    .cons (Operation.Corresponds.sameShape input)
      (.cons (Expression.Corresponds.sameShape condition) .nil)
  | .extend _ _ _, _, .extend input _ value =>
    .cons (Operation.Corresponds.sameShape input)
      (.cons (Expression.Corresponds.sameShape value) .nil)
  | .group _ _ _, _, .group input _ aggregates =>
    .cons (Operation.Corresponds.sameShape input)
      (BoundAggregate.Corresponds.all_sameShape aggregates)
  | .orderBy _ _, _, .orderBy input keys =>
    .cons (Operation.Corresponds.sameShape input) (Expression.Corresponds.all_sameShape keys)
  | .construct _ _, _, .construct input template =>
    .cons (Operation.Corresponds.sameShape input) (patterns_sameShape template)
  | .combine _ _, _, .combine _ inputs => Operation.Corresponds.all_sameShape inputs
  | .leftJoin _ _ _, _, .leftJoin left right .none =>
    .cons (Operation.Corresponds.sameShape left)
      (.cons (Operation.Corresponds.sameShape right) .nil)
  | .leftJoin _ _ _, _, .leftJoin left right (.some condition) =>
    .cons (Operation.Corresponds.sameShape left)
      (.cons (Operation.Corresponds.sameShape right)
        (.cons (Expression.Corresponds.sameShape condition) .nil))
  | .minus _ _, _, .minus left right =>
    .cons (Operation.Corresponds.sameShape left)
      (.cons (Operation.Corresponds.sameShape right) .nil)
  | .deleteInsert _ _ _, _, .deleteInsert delete insert .none =>
    List.rel_append (List.rel_append (optional_sameShape delete) (optional_sameShape insert)) .nil
  | .deleteInsert _ _ _, _, .deleteInsert delete insert (.some scope) =>
    List.rel_append (List.rel_append (optional_sameShape delete) (optional_sameShape insert))
      (.cons (Operation.Corresponds.sameShape scope) .nil)
termination_by structural first => first

theorem Expression.Corresponds.sameShape : ∀ {first second : Expression},
    first.Corresponds related second → Node.SameShape (.expression first) (.expression second)
  | .term _, _, .term _ => .mk rfl .nil
  | .call (.operator _) _, _, .call _ arguments =>
    .mk rfl (Expression.Corresponds.all_sameShape arguments)
  | .call (.function _) _, _, .call _ arguments =>
    .mk rfl (Expression.Corresponds.all_sameShape arguments)
  | .aggregate .., _, .aggregate _ _ _ argument =>
    .mk rfl (.cons (Expression.Corresponds.sameShape argument) .nil)
  | .existence _ _, _, .existence _ input =>
    .mk rfl (.cons (Operation.Corresponds.sameShape input) .nil)
  | .wildcard, _, .wildcard => .mk rfl .nil
termination_by structural first => first

theorem Operation.Corresponds.all_sameShape : ∀ {first second : List Operation},
    List.Forall₂ (Operation.Corresponds related) first second →
    List.Forall₂ Node.SameShape (first.map .operation) (second.map .operation)
  | [], _, .nil => .nil
  | _ :: _, _, .cons head rest =>
    .cons (Operation.Corresponds.sameShape head) (Operation.Corresponds.all_sameShape rest)
termination_by structural first => first

theorem Expression.Corresponds.all_sameShape : ∀ {first second : List Expression},
    List.Forall₂ (Expression.Corresponds related) first second →
    List.Forall₂ Node.SameShape (first.map .expression) (second.map .expression)
  | [], _, .nil => .nil
  | _ :: _, _, .cons head rest =>
    .cons (Expression.Corresponds.sameShape head) (Expression.Corresponds.all_sameShape rest)
termination_by structural first => first

theorem BoundAggregate.Corresponds.all_sameShape : ∀ {first second : List BoundAggregate},
    List.Forall₂ (BoundAggregate.Corresponds related) first second →
    List.Forall₂ Node.SameShape (first.map (.expression ·.expression))
      (second.map (.expression ·.expression))
  | [], _, .nil => .nil
  | ⟨_, _⟩ :: _, _, .cons (.mk _ expression) rest =>
    .cons (Expression.Corresponds.sameShape expression)
      (BoundAggregate.Corresponds.all_sameShape rest)
termination_by structural first => first

end

end

/-! ### One canonical form -/

/-- The rows of all inline data bind variables of their header alone, to terms without names. -/
def Operation.HasTabularData (operation : Operation) : Prop :=
  ∀ table ∈ operation.tables, IsTabular table.1 table.2

instance (operation : Operation) : Decidable operation.HasTabularData :=
  inferInstanceAs (Decidable (∀ table ∈ operation.tables, IsTabular table.1 table.2))

namespace Operation

variable {related : LocalName → LocalName → Prop} {first second : Operation}

/-- Corresponding operations whose names are met in step are equal under canonical names. -/
theorem canonical_of_aligned (oneToOne : Relator.BiUnique related)
    (kinds : ∀ m n, related m n → m.isVar = n.isVar)
    (aligned : Aligned related first.localNames second.localNames)
    (correspond : first.Corresponds related second) :
    first.canonical true = second.canonical true := by
  have names : ∀ operation : Operation,
      operation.canonicalNames true = firstSeen operation.localNames := by
    intro operation
    simp [canonicalNames]
  have ofFirst := first.corresponds_canonical true
  have ofSecond := second.corresponds_canonical true
  rw [names] at ofFirst ofSecond
  -- From one canonical form down to its operation, across, and up to the other canonical form.
  have across : (first.canonical true).Corresponds
      (fun k n => ∃ m, CanonicallyNamed true (firstSeen first.localNames) m k ∧ related m n)
      second :=
    (ofFirst.symm (Q := flip _) fun _ _ named => named).through
      (fun k n m named isRelated => ⟨m, named, isRelated⟩)
      (correspond.symm (Q := flip related) fun _ _ isRelated => isRelated)
  have canonical : (first.canonical true).Corresponds (fun k k' => k = k')
      (second.canonical true) := by
    refine across.through (fun k k' n toSecond named => ?_)
      (ofSecond.symm (Q := flip _) fun _ _ named => named)
    obtain ⟨m, named', isRelated⟩ := toSecond
    exact named'.eq_of_aligned oneToOne kinds aligned isRelated named
  exact canonical.eq fun _ _ same => same

theorem Corresponds.fitsNaming (correspond : first.Corresponds related second) :
    first.fitsNaming = second.fitsNaming :=
  correspond.sameShape.fits_eq _ _

/-- Corresponding operations whose names are met in step have one canonical form. -/
theorem canonicalize_of_aligned (oneToOne : Relator.BiUnique related)
    (kinds : ∀ m n, related m n → m.isVar = n.isVar)
    (aligned : Aligned related first.localNames second.localNames)
    (correspond : first.Corresponds related second) :
    first.canonicalize true = second.canonicalize true := by
  have fits := correspond.fitsNaming
  rw [canonicalize, canonicalize, Node.checkFits, Node.checkFits,
    canonical_of_aligned oneToOne kinds aligned correspond]
  rw [Operation.fitsNaming, Operation.fitsNaming] at fits
  rw [fits]

/-- Operations that correspond under a one-to-one relation of names have one canonical form. -/
theorem canonicalize_of_corresponds (oneToOne : Relator.BiUnique related)
    (kinds : ∀ m n, related m n → m.isVar = n.isVar) (tabular : first.HasTabularData)
    (correspond : first.Corresponds related second) :
    first.canonicalize true = second.canonicalize true :=
  canonicalize_of_aligned oneToOne kinds
    (correspond.gathered (inStep_aligned oneToOne) (tablesInStep_aligned oneToOne) tabular)
    correspond

end Operation

/-- Rename variables and the labels of blank nodes. -/
def renamingOf (vars labels : String → String) : LocalName → String
  | .var name => vars name
  | .blank label => labels label

/-- A name and what it is renamed to. -/
def RenamedBy (vars labels : String → String) (name other : LocalName) : Prop :=
  other = name.withText (renamingOf vars labels name)

section

variable {vars labels : String → String}

theorem RenamedBy.isVar {m n : LocalName} (renamed : RenamedBy vars labels m n) :
    m.isVar = n.isVar := by
  rw [renamed]
  cases m <;> rfl

theorem biUnique_renamedBy (ofVars : Function.Injective vars)
    (ofLabels : Function.Injective labels) : Relator.BiUnique (RenamedBy vars labels) := by
  constructor
  · intro m n k renamed renamed'
    have same := renamed.symm.trans renamed'
    cases m with
    | var name =>
      cases n with
      | var other => exact congrArg _ (ofVars (LocalName.var.inj same))
      | blank label => cases same
    | blank label =>
      cases n with
      | var name => cases same
      | blank other => exact congrArg _ (ofLabels (LocalName.blank.inj same))
  · intro m n k renamed renamed'
    exact renamed.trans renamed'.symm

end

namespace Operation

/-- Renaming the variables of an operation one to one, and its blank nodes outside templates one to
one, leaves its canonical form the same, if its inline data is tabular. -/
theorem canonicalize_renameLocal {vars labels : String → String} (ofVars : Function.Injective vars)
    (ofLabels : Function.Injective labels) {operation : Operation}
    (tabular : operation.HasTabularData) :
    operation.Corresponds (RenamedBy vars labels) (operation.renameLocal (renamingOf vars labels))
      ∧ ∀ renamed : Operation, operation.Corresponds (RenamedBy vars labels) renamed →
        renamed.canonicalize true = operation.canonicalize true := by
  have oneToOne := biUnique_renamedBy ofVars ofLabels
  constructor
  · refine corresponds_renameLocal ⟨fun _ _ => rfl, fun m _ n _ kind same => ?_⟩
    apply oneToOne.1 (c := m.withText (renamingOf vars labels m)) rfl
    rw [RenamedBy, same]
    cases m <;> cases n <;> first | rfl | cases kind
  · intro renamed correspond
    exact (canonicalize_of_corresponds oneToOne (fun _ _ => RenamedBy.isVar) tabular
      correspond).symm

/-- The construction of a new node for each pair of given nodes of which the first leads to a node,
under given names of the two columns and of the node that is led to. -/
private def pairsFound (column column' label : String) : Operation :=
  .of (.construct
    (.of (.combine .join
      [.of (.values [⟨column⟩, ⟨column'⟩]
        [.ofList [(column, .iri ⟨"ex:a"⟩), (column', .iri ⟨"ex:b"⟩)],
          .ofList [(column', .iri ⟨"ex:c"⟩)]]),
      .bgp [⟨.var ⟨column⟩, .iri ⟨"ex:p"⟩, .blank ⟨label⟩, .defaultGraph⟩]]))
    [⟨.blank ⟨"pair"⟩, .iri ⟨"ex:first"⟩, .var ⟨column⟩, .defaultGraph⟩,
      ⟨.blank ⟨"pair"⟩, .iri ⟨"ex:second"⟩, .var ⟨column'⟩, .defaultGraph⟩])

/-- Exchanging the names of the columns puts the cells of a row into the other order. -/
theorem canonicalize_renameLocal_pairsFound :
    (pairsFound "x" "y" "b0").HasTabularData
      ∧ (pairsFound "y" "x" "pair").canonicalize true
        = (pairsFound "x" "y" "b0").canonicalize true := by
  have tabular : (pairsFound "x" "y" "b0").HasTabularData := by decide +kernel
  have renamed : (pairsFound "x" "y" "b0").renameLocal
        (renamingOf (Equiv.swap "x" "y") (Equiv.swap "b0" "pair"))
      = pairsFound "y" "x" "pair" := by
    decide +kernel
  obtain ⟨correspond, same⟩ := canonicalize_renameLocal (Equiv.swap "x" "y").injective
    (Equiv.swap "b0" "pair").injective tabular
  rw [renamed] at correspond
  exact ⟨tabular, same _ correspond⟩

end Operation

end QueryAlgebra
