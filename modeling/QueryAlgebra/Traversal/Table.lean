import QueryAlgebra.Traversal

/-! # Hooks chosen by the kind of a node

A table holds for some kinds of nodes what to decide on entering them and what to do on leaving
them. Nodes of other kinds are entered with the default decision and left as they are.
-/

namespace QueryAlgebra

namespace Traversal

/-- Hooks by kind. -/
structure Table (ε σ : Type) where
  enter : NodeKind → Option (Node → StateM σ Decision)
  leave : NodeKind → Option (Node → EStateM ε σ Node)

namespace Table

variable {ε σ : Type}

/-- The table without hooks. -/
def empty : Table ε σ := ⟨fun _ => none, fun _ => none⟩

/-- Decide by `hook` on entering nodes of a kind. -/
def entering (table : Table ε σ) (kind : NodeKind) (hook : Node → StateM σ Decision) :
    Table ε σ :=
  { table with enter := fun other => if other = kind then some hook else table.enter other }

/-- Apply `hook` on leaving nodes of a kind. -/
def leaving (table : Table ε σ) (kind : NodeKind) (hook : Node → EStateM ε σ Node) : Table ε σ :=
  { table with leave := fun other => if other = kind then some hook else table.leave other }

/-- The hooks of a table. -/
def hooks (table : Table ε σ) (fail : TraversalError → ε) : Hooks ε σ where
  enter node :=
    match table.enter node.kind with
    | some hook => hook node
    | none => pure .default
  leave node :=
    match table.leave node.kind with
    | some hook => hook node
    | none => pure node
  fail := fail

end Table

end Traversal

end QueryAlgebra
