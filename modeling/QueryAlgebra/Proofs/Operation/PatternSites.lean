import QueryAlgebra.Operation
import Mathlib.Data.List.Basic

/-! # Where patterns and paths stand

A pattern or path of an operation stands in graph and service blocks, the innermost of which says
in which graph it is matched: the one that is named, or for a service its default graph. It may
also stand in a value that is bound to a variable, if an expression asks whether it has a solution.

`Operation.sites` lists all patterns and paths of an operation with where they stand, templates and
what expressions ask about included.
-/

namespace QueryAlgebra

/-- Where a pattern or path stands: the graph that the innermost block around it says, if any;
whether it stands in a value that is bound to a variable, inside that block; and the graph that it
names itself. -/
structure PatternSite where
  block : Option Term
  bound : Bool
  graph : Term
deriving DecidableEq

namespace PatternSite

/-- The graph that a pattern or path at the site is to be matched in. -/
def enclosing (site : PatternSite) : Term := site.block.getD .defaultGraph

/-- The site of a pattern or path that nothing stands around. -/
def bare (graph : Term) : PatternSite := ⟨none, false, graph⟩

/-- The site with a block around it. -/
def within (graph : Term) (site : PatternSite) : PatternSite :=
  match site.block with
  | none => { site with block := some graph }
  | some _ => site

/-- The site with what stands around it bound to a variable. -/
def inValue (site : PatternSite) : PatternSite :=
  match site.block with
  | none => { site with bound := true }
  | some _ => site

end PatternSite

/-- The graph that a block says; in a service block, the default graph of the service. -/
def Wrapper.block? : Wrapper → Option Term
  | .graph name => some name
  | .service .. => some .defaultGraph
  | _ => none

/-- The sites of what a wrapper is put around. -/
def Wrapper.around (wrapper : Wrapper) (sites : List PatternSite) : List PatternSite :=
  match wrapper.block? with
  | some name => sites.map (·.within name)
  | none => sites

/-- The sites of the patterns of a list. -/
def Pattern.sites (patterns : List Pattern) : List PatternSite :=
  patterns.map fun pattern => .bare pattern.graph

mutual

/-- The patterns and paths of an operation. -/
def Operation.sites : Operation → List PatternSite
  | ⟨operator, _⟩ => operator.sites

/-- The patterns and paths of an operator. -/
def Operator.sites : Operator → List PatternSite
  | .bgp patterns => Pattern.sites patterns
  | .values .. => []
  | .nop => []
  | .path _ _ _ graph => [.bare graph]
  | .manage _ => []
  | .wrap wrapper input => wrapper.around input.sites
  | .filter input condition => input.sites ++ condition.sites
  | .extend input _ value => input.sites ++ value.sites.map .inValue
  | .group input _ aggregates => input.sites ++ BoundAggregate.sitesOfAll aggregates
  | .orderBy input keys => input.sites ++ Expression.sitesOfAll keys
  | .construct input template => input.sites ++ Pattern.sites template
  | .combine _ inputs => Operation.sitesOfAll inputs
  | .leftJoin left right none => left.sites ++ right.sites
  | .leftJoin left right (some condition) => left.sites ++ right.sites ++ condition.sites
  | .minus left right => left.sites ++ right.sites
  | .deleteInsert delete insert none =>
    Pattern.sites (delete.getD []) ++ Pattern.sites (insert.getD [])
  | .deleteInsert delete insert (some scope) =>
    Pattern.sites (delete.getD []) ++ Pattern.sites (insert.getD []) ++ scope.sites

/-- The patterns and paths that an expression asks about. -/
def Expression.sites : Expression → List PatternSite
  | .term _ => []
  | .call _ arguments => Expression.sitesOfAll arguments
  | .aggregate _ argument _ _ => argument.sites
  | .existence _ input => input.sites
  | .wildcard => []

/-- The patterns and paths of operations. -/
def Operation.sitesOfAll : List Operation → List PatternSite
  | [] => []
  | operation :: rest => operation.sites ++ Operation.sitesOfAll rest

/-- The patterns and paths that expressions ask about. -/
def Expression.sitesOfAll : List Expression → List PatternSite
  | [] => []
  | expression :: rest => expression.sites ++ Expression.sitesOfAll rest

/-- The patterns and paths that aggregates ask about. -/
def BoundAggregate.sitesOfAll : List BoundAggregate → List PatternSite
  | [] => []
  | ⟨_, expression⟩ :: rest => expression.sites ++ BoundAggregate.sitesOfAll rest

end

/-! ### Sites in what is put together -/

theorem Operation.sitesOfAll_append (first second : List Operation) :
    sitesOfAll (first ++ second) = sitesOfAll first ++ sitesOfAll second := by
  induction first with
  | nil => rfl
  | cons operation rest ih => simp only [List.cons_append, sitesOfAll, ih, List.append_assoc]

@[simp] theorem Operation.sitesOfAll_parts (how : Combination) (operation : Operation) :
    sitesOfAll (operation.parts how) = operation.sites := by
  unfold parts
  split
  · split
    · simp only [sites, Operator.sites]
    · simp only [sitesOfAll, List.append_nil]
  · simp only [sitesOfAll, List.append_nil]

theorem Operation.sites_join (left right : Operation) :
    (join [left, right]).sites = left.sites ++ right.sites := by
  simp only [join, of, sites, Operator.sites, List.flatMap_cons, List.flatMap_nil, List.append_nil,
    sitesOfAll_append, sitesOfAll_parts]

theorem Operation.sites_union (left right : Operation) :
    (union [left, right]).sites = left.sites ++ right.sites := by
  simp only [union, of, sites, Operator.sites, List.flatMap_cons, List.flatMap_nil, List.append_nil,
    sitesOfAll_append, sitesOfAll_parts]

theorem Expression.forall_mem_sitesOfAll {P : PatternSite → Prop} {expressions : List Expression} :
    (∀ site ∈ sitesOfAll expressions, P site)
      ↔ ∀ expression ∈ expressions, ∀ site ∈ expression.sites, P site := by
  induction expressions with
  | nil => simp [sitesOfAll]
  | cons expression rest ih =>
    simp only [sitesOfAll, List.forall_mem_append, ih, List.forall_mem_cons]

theorem BoundAggregate.forall_mem_sitesOfAll {P : PatternSite → Prop}
    {aggregates : List BoundAggregate} :
    (∀ site ∈ sitesOfAll aggregates, P site)
      ↔ ∀ bound ∈ aggregates, ∀ site ∈ bound.expression.sites, P site := by
  induction aggregates with
  | nil => simp [sitesOfAll]
  | cons bound rest ih =>
    obtain ⟨name, expression⟩ := bound
    simp only [sitesOfAll, List.forall_mem_append, ih, List.forall_mem_cons]

end QueryAlgebra
