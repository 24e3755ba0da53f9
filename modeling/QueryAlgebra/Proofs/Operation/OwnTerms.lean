import QueryAlgebra.Node.OwnTerms
import QueryAlgebra.Proofs.NameMap
import Mathlib.Data.List.Perm.Basic
import Mathlib.Logic.Equiv.Basic

/-! # Replacing the terms of a node

Replacing terms by two functions one after the other is replacing them by their composition, if the
functions send different variables to different variables (`Node.mapOwnTerms_renaming`). Only the
rows of inline data need this condition: their columns are sorted anew under their new names, and a
column would be lost where two of them came together. `Node.withoutTerms` is what a node is besides
its terms, and stays.
-/

namespace QueryAlgebra

/-! ### Variables -/

/-- A function on terms that sends variables to variables, different ones to different ones. -/
structure Term.RenamesVariables (f : Term → Term) : Prop where
  isVar : ∀ name, ∃ new, f (.var name) = .var new
  injective : ∀ first second, f (.var first) = f (.var second) → first = second

variable {f g : Term → Term}

namespace Term.RenamesVariables

/-- The new variable is the term that the variable is replaced by. -/
theorem var (renames : RenamesVariables f) (name : Variable) :
    f (.var name) = .var (name.mapTerm f) := by
  obtain ⟨new, isNew⟩ := renames.isVar name
  rw [Variable.mapTerm, isNew]

theorem mapTerm_injective (renames : RenamesVariables f) :
    Function.Injective (Variable.mapTerm f) := fun first second same =>
  renames.injective first second (by rw [renames.var, renames.var, same])

theorem comp (second : RenamesVariables g) (first : RenamesVariables f) :
    RenamesVariables (g ∘ f) where
  isVar name := ⟨(name.mapTerm f).mapTerm g, by rw [Function.comp, first.var, second.var]⟩
  injective name name' same := by
    rw [Function.comp, Function.comp, first.var, first.var] at same
    exact first.mapTerm_injective (second.injective _ _ same)

theorem mapTerm_mapTerm (second : RenamesVariables g) (first : RenamesVariables f)
    (name : Variable) : (name.mapTerm f).mapTerm g = name.mapTerm (g ∘ f) := by
  apply Term.var.inj
  rw [← second.var, ← first.var, ← (second.comp first).var, Function.comp]

end Term.RenamesVariables

/-! ### Rows -/

/-- The cells of a row with their columns as terms. -/
def bindings (row : Row) : List (Term × Term) :=
  row.entries.map fun entry => (.var ⟨entry.1⟩, entry.2)

/-- The columns of a row stay different if no two of them come together. -/
theorem nodup_mapRow {row : Row}
    (injective : ∀ entry ∈ row.entries, ∀ entry' ∈ row.entries,
      (Variable.mapTerm f ⟨entry.1⟩).name = (Variable.mapTerm f ⟨entry'.1⟩).name →
        entry.1 = entry'.1) :
    ((row.entries.map fun entry =>
      ((Variable.mapTerm f ⟨entry.1⟩).name, f entry.2)).map (·.1)).Nodup := by
  rw [List.map_map]
  refine List.Nodup.map_on (fun entry member entry' member' same => ?_)
    (List.Nodup.of_map _ row.nodup_keys)
  have keys := injective entry member entry' member' same
  have values : row.find? entry.1 = some entry.2 := NameMap.find?_eq_some_iff.2 member
  have values' : row.find? entry'.1 = some entry'.2 := NameMap.find?_eq_some_iff.2 member'
  rw [keys, values'] at values
  exact Prod.ext keys (Option.some.inj values).symm

namespace Term.RenamesVariables

theorem nodup_mapRow (renames : RenamesVariables f) (row : Row) :
    ((row.entries.map fun entry =>
      ((Variable.mapTerm f ⟨entry.1⟩).name, f entry.2)).map (·.1)).Nodup :=
  QueryAlgebra.nodup_mapRow fun _ _ _ _ same =>
    Variable.mk.inj (renames.mapTerm_injective (congrArg Variable.mk same))

/-- The cells of a row are replaced one by one, and none of them is lost. -/
theorem perm_mapRow (renames : RenamesVariables f) (row : Row) :
    (mapRow f row).entries.Perm
      (row.entries.map fun entry => ((Variable.mapTerm f ⟨entry.1⟩).name, f entry.2)) :=
  (NameMap.perm_entries_ofList (renames.nodup_mapRow row)).symm

theorem perm_bindings (renames : RenamesVariables f) (row : Row) :
    (bindings (mapRow f row)).Perm ((bindings row).map (Prod.map f f)) := by
  refine ((renames.perm_mapRow row).map _).trans (.of_eq ?_)
  rw [bindings, List.map_map, List.map_map]
  exact List.map_congr_left fun entry _ => Prod.ext (renames.var ⟨entry.1⟩).symm rfl

theorem mapRow_mapRow (second : RenamesVariables g) (first : RenamesVariables f) (row : Row) :
    mapRow g (mapRow f row) = mapRow (g ∘ f) row := by
  refine (NameMap.ofList_eq_of_perm (second.nodup_mapRow _) ((first.perm_mapRow row).map _)).trans
    (congrArg NameMap.ofList ?_)
  rw [List.map_map]
  exact List.map_congr_left fun entry _ =>
    Prod.ext (congrArg Variable.name (second.mapTerm_mapTerm first ⟨entry.1⟩)) rfl

end Term.RenamesVariables

theorem mapRow_id (row : Row) : mapRow id row = row := by
  have same : row.entries.map (fun entry => ((Variable.mapTerm id ⟨entry.1⟩).name, id entry.2))
      = row.entries := List.map_id _
  rw [mapRow, same, NameMap.ofList_entries]

/-! ### What is no term -/

/-- A wrapper with all terms of its own blanked out. -/
def Wrapper.withoutTerms : Wrapper → Wrapper
  | .project vars => .project (vars.map fun _ => ⟨""⟩)
  | .graph _ => .graph .defaultGraph
  | .service _ silent => .service .defaultGraph silent
  | .describe terms => .describe (terms.map fun _ => .defaultGraph)
  | .distinct => .distinct
  | .reduced => .reduced
  | .slice start length => .slice start length
  | .dataset default named => .dataset default named
  | .ask => .ask

/-- An operator with all terms of its own blanked out, and with empty rows. -/
def Operator.withoutTerms : Operator → Operator
  | .wrap wrapper input => .wrap wrapper.withoutTerms input
  | .extend input _ value => .extend input ⟨""⟩ value
  | .group input keys aggregates =>
    .group input (keys.map fun _ => ⟨""⟩) (aggregates.map fun bound => ⟨⟨""⟩, bound.expression⟩)
  | .values vars rows => .values (vars.map fun _ => ⟨""⟩) (rows.map fun _ => .empty)
  | .path _ predicate _ _ => .path .defaultGraph predicate .defaultGraph .defaultGraph
  | .bgp patterns => .bgp patterns
  | .nop => .nop
  | .manage action => .manage action
  | .filter input condition => .filter input condition
  | .orderBy input keys => .orderBy input keys
  | .construct input template => .construct input template
  | .combine how inputs => .combine how inputs
  | .leftJoin left right condition => .leftJoin left right condition
  | .minus left right => .minus left right
  | .deleteInsert delete insert scope => .deleteInsert delete insert scope

/-- An expression with the term that it is blanked out. -/
def Expression.withoutTerms : Expression → Expression
  | .term _ => .term .defaultGraph
  | .call callee arguments => .call callee arguments
  | .aggregate name argument distinct separator => .aggregate name argument distinct separator
  | .existence negated input => .existence negated input
  | .wildcard => .wildcard

namespace Node

/-- A node with all terms of its own blanked out. What is left are its children, the IRIs that can
be nothing else, the flags and the metadata. -/
def withoutTerms : Node → Node
  | .operation op => .operation ⟨op.operator.withoutTerms, op.metadata⟩
  | .pattern _ => .pattern ⟨.defaultGraph, .defaultGraph, .defaultGraph, .defaultGraph⟩
  | .expression value => .expression value.withoutTerms
  | .path way => .path way

/-- The rows of inline data. -/
def rows : Node → List Row
  | .operation ⟨.values _ rows, _⟩ => rows
  | _ => []

end Node

theorem Wrapper.withoutTerms_mapOwnTerms (f : Term → Term) (wrapper : Wrapper) :
    (wrapper.mapOwnTerms f).withoutTerms = wrapper.withoutTerms := by
  cases wrapper with
  | project vars => exact congrArg Wrapper.project (List.map_map ..)
  | describe terms => exact congrArg Wrapper.describe (List.map_map ..)
  | graph | service | distinct | reduced | slice | dataset | ask => rfl

theorem Operator.withoutTerms_mapOwnTerms (f : Term → Term) (operator : Operator) :
    (operator.mapOwnTerms f).withoutTerms = operator.withoutTerms := by
  cases operator with
  | wrap wrapper input => exact congrArg (wrap · input) (wrapper.withoutTerms_mapOwnTerms f)
  | group input keys aggregates =>
    exact congrArg₂ (group input) (List.map_map ..) (List.map_map ..)
  | values vars rows => exact congrArg₂ values (List.map_map ..) (List.map_map ..)
  | _ => rfl

theorem Operator.children_mapOwnTerms (f : Term → Term) (operator : Operator) :
    (operator.mapOwnTerms f).children = operator.children := by
  cases operator with
  | group input keys aggregates => exact congrArg (_ :: ·) (List.map_map ..)
  | _ => rfl

namespace Node

theorem withoutTerms_mapOwnTerms (f : Term → Term) (node : Node) :
    (node.mapOwnTerms f).withoutTerms = node.withoutTerms := by
  cases node with
  | operation op =>
    exact congrArg (fun operator => operation ⟨operator, op.metadata⟩)
      (op.operator.withoutTerms_mapOwnTerms f)
  | expression value => cases value <;> rfl
  | pattern | path => rfl

theorem children_mapOwnTerms (f : Term → Term) (node : Node) :
    (node.mapOwnTerms f).children = node.children := by
  cases node with
  | operation op => exact op.operator.children_mapOwnTerms f
  | expression value => cases value <;> rfl
  | pattern | path => rfl

theorem rows_mapOwnTerms (f : Term → Term) (node : Node) :
    (node.mapOwnTerms f).rows = node.rows.map (mapRow f) := by
  rcases node with ⟨operator, metadata⟩ | _ | _ | _
  · cases operator <;> rfl
  all_goals rfl

end Node

/-! ### Terms one by one -/

theorem Operator.mapOwnTerms_id (operator : Operator) : operator.mapOwnTerms id = operator := by
  have ofVars (vars : List Variable) : vars.map (Variable.mapTerm id) = vars := List.map_id vars
  cases operator with
  | wrap wrapper input =>
    refine congrArg (wrap · input) ?_
    cases wrapper with
    | project vars => exact congrArg Wrapper.project (ofVars vars)
    | describe terms => exact congrArg Wrapper.describe (List.map_id terms)
    | graph | service | distinct | reduced | slice | dataset | ask => rfl
  | group input keys aggregates =>
    have ofBound (bound : BoundAggregate) :
        (⟨bound.name.mapTerm id, bound.expression⟩ : BoundAggregate) = bound := by cases bound; rfl
    exact congrArg₂ (group input) (ofVars keys) (List.map_id'' ofBound aggregates)
  | values vars rows => exact congrArg₂ values (ofVars vars) (List.map_id'' mapRow_id rows)
  | _ => rfl

theorem Node.mapOwnTerms_id (node : Node) : node.mapOwnTerms id = node := by
  cases node with
  | operation op =>
    obtain ⟨operator, metadata⟩ := op
    exact congrArg (fun operator => operation ⟨operator, metadata⟩) operator.mapOwnTerms_id
  | expression value => cases value <;> rfl
  | pattern | path => rfl

section

variable (second : Term.RenamesVariables g) (first : Term.RenamesVariables f)

include second first

theorem Variable.map_mapTerm_mapTerm (vars : List Variable) :
    (vars.map (mapTerm f)).map (mapTerm g) = vars.map (mapTerm (g ∘ f)) := by
  rw [List.map_map]
  exact List.map_congr_left fun name _ => second.mapTerm_mapTerm first name

theorem Operator.mapOwnTerms_mapOwnTerms (operator : Operator) :
    (operator.mapOwnTerms f).mapOwnTerms g = operator.mapOwnTerms (g ∘ f) := by
  have ofVars := Variable.map_mapTerm_mapTerm second first
  cases operator with
  | wrap wrapper input =>
    refine congrArg (wrap · input) ?_
    cases wrapper with
    | project vars => exact congrArg Wrapper.project (ofVars vars)
    | describe terms => exact congrArg Wrapper.describe (List.map_map ..)
    | graph | service | distinct | reduced | slice | dataset | ask => rfl
  | extend input name value =>
    exact congrArg (extend input · value) (second.mapTerm_mapTerm first name)
  | group input keys aggregates =>
    refine congrArg₂ (group input) (ofVars keys)
      ((List.map_map ..).trans (List.map_congr_left fun bound _ => ?_))
    exact congrArg (BoundAggregate.mk · bound.expression) (second.mapTerm_mapTerm first bound.name)
  | values vars rows =>
    exact congrArg₂ values (ofVars vars)
      ((List.map_map ..).trans (List.map_congr_left fun row _ => second.mapRow_mapRow first row))
  | _ => rfl

theorem Node.mapOwnTerms_mapOwnTerms (node : Node) :
    (node.mapOwnTerms f).mapOwnTerms g = node.mapOwnTerms (g ∘ f) := by
  cases node with
  | operation op =>
    exact congrArg (fun operator => operation ⟨operator, op.metadata⟩)
      (op.operator.mapOwnTerms_mapOwnTerms second first)
  | expression value => cases value <;> rfl
  | pattern | path => rfl

end

section

variable (renames : Term.RenamesVariables f)

include renames

theorem Variable.map_var_mapTerm (vars : List Variable) :
    (vars.map (mapTerm f)).map Term.var = (vars.map Term.var).map f := by
  rw [List.map_map, List.map_map]
  exact List.map_congr_left fun name _ => (renames.var name).symm

/-- The terms of a row are replaced one by one. -/
theorem perm_rowTerms (row : Row) : (rowTerms (mapRow f row)).Perm ((rowTerms row).map f) := by
  refine ((renames.perm_mapRow row).flatMap_right _).trans (.of_eq ?_)
  rw [rowTerms, List.flatMap_map, List.map_flatMap]
  refine List.flatMap_congr fun entry _ => ?_
  rw [List.map_cons, List.map_singleton, renames.var]

theorem Operator.perm_ownTerms (operator : Operator) :
    (operator.mapOwnTerms f).ownTerms.Perm (operator.ownTerms.map f) := by
  have ofVars := Variable.map_var_mapTerm renames
  cases operator with
  | wrap wrapper input =>
    refine .of_eq ?_
    cases wrapper with
    | project vars => exact ofVars vars
    | graph | service | describe | distinct | reduced | slice | dataset | ask => rfl
  | extend input name value => exact .of_eq (congrArg (fun term => [term]) (renames.var name).symm)
  | group input keys aggregates =>
    have ofAggregates : (aggregates.map fun bound =>
          (⟨bound.name.mapTerm f, bound.expression⟩ : BoundAggregate)).map (Term.var ·.name)
        = (aggregates.map (Term.var ·.name)).map f := by
      rw [List.map_map, List.map_map]
      exact List.map_congr_left fun bound _ => (renames.var bound.name).symm
    exact .of_eq ((congrArg₂ (· ++ ·) (ofVars keys) ofAggregates).trans List.map_append.symm)
  | values vars rows =>
    rw [ownTerms, List.map_append, ← ofVars, mapOwnTerms, ownTerms, List.flatMap_map,
      List.map_flatMap]
    exact .append_left _ (.flatMap_left rows fun row _ => perm_rowTerms renames row)
  | path subject predicate object graph => exact .refl _
  | bgp | nop | manage | filter | orderBy | construct | combine | leftJoin | minus | deleteInsert =>
    exact .refl _

theorem Node.perm_ownTerms (node : Node) :
    (node.mapOwnTerms f).ownTerms.Perm (node.ownTerms.map f) := by
  cases node with
  | operation op => exact op.operator.perm_ownTerms renames
  | expression value => cases value <;> exact .refl _
  | pattern | path => exact .refl _

end

/-- **Replacing the terms of nodes is functorial.** For functions that send different variables to
different variables, replacing by one after the other is replacing by their composition, which
restores the node if the second undoes the first. Every term of the node's own is replaced, and
nothing else; no row of inline data loses a cell or has two in one column. -/
theorem Node.mapOwnTerms_renaming (first : Term.RenamesVariables f)
    (second : Term.RenamesVariables g) (node : Node) :
    (node.mapOwnTerms f).mapOwnTerms g = node.mapOwnTerms (g ∘ f)
      ∧ ((∀ term, g (f term) = term) → (node.mapOwnTerms f).mapOwnTerms g = node)
      ∧ (node.mapOwnTerms f).ownTerms.Perm (node.ownTerms.map f)
      ∧ List.Forall₂ (fun row row' => (bindings row').Perm ((bindings row).map (Prod.map f f)))
        node.rows (node.mapOwnTerms f).rows
      ∧ (node.mapOwnTerms f).children = node.children
      ∧ (node.mapOwnTerms f).withoutTerms = node.withoutTerms := by
  have composed := node.mapOwnTerms_mapOwnTerms second first
  refine ⟨composed, fun undoes => ?_, node.perm_ownTerms first, ?_, node.children_mapOwnTerms f,
    node.withoutTerms_mapOwnTerms f⟩
  · have unchanged : g ∘ f = id := funext undoes
    rw [composed, unchanged, mapOwnTerms_id]
  · rw [rows_mapOwnTerms]
    exact List.forall₂_map_right_iff.2 (List.forall₂_same.2 fun row _ => first.perm_bindings row)

/-- The function that lets two variables change places. -/
private def exchange : Term → Term := Equiv.swap (.var ⟨"x"⟩) (.var ⟨"y"⟩)

private theorem renames_exchange : Term.RenamesVariables exchange where
  isVar name := by
    rw [exchange, Equiv.swap_apply_def]
    split
    · exact ⟨_, rfl⟩
    · split <;> exact ⟨_, rfl⟩
  injective _ _ same := Term.var.inj ((Equiv.injective _) same)

/-- A table with one row: `VALUES (?x ?y) { (<http://ex.org/a> <http://ex.org/b>) }`. -/
private def pairTable : Operation :=
  .of (.values [⟨"x"⟩, ⟨"y"⟩]
    [.ofList [("x", .iri ⟨"http://ex.org/a"⟩), ("y", .iri ⟨"http://ex.org/b"⟩)]])

/-- Two columns of a row change places, and change back. -/
theorem Node.mapOwnTerms_renaming_exchange :
    Term.RenamesVariables exchange
      ∧ (Node.operation pairTable).mapOwnTerms exchange
        = .operation (.of (.values [⟨"y"⟩, ⟨"x"⟩]
          [.ofList [("x", .iri ⟨"http://ex.org/b"⟩), ("y", .iri ⟨"http://ex.org/a"⟩)]]))
      ∧ ((Node.operation pairTable).mapOwnTerms exchange).mapOwnTerms exchange
        = .operation pairTable := by
  refine ⟨renames_exchange, by decide +kernel, ?_⟩
  exact (mapOwnTerms_renaming renames_exchange renames_exchange (.operation pairTable)).2.1
    (Equiv.congr_fun (Equiv.swap_swap _ _))

end QueryAlgebra
