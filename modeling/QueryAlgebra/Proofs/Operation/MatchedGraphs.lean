import QueryAlgebra.Proofs.Lowering.GraphRoundTrip
import QueryAlgebra.Proofs.Operation.Leaves

/-! # The graphs that patterns are matched in

A pattern or path is matched in the graph that it names itself, or in that of the innermost graph
block around it if it names none. Taking graph names out of patterns keeps the multiset of patterns
and paths with the graphs they are matched in, leaves all of them in the default graph and updates
of triples as they are, and there is nothing left to take out:
`Operation.removeEmbeddedGraphs_keeps_matches`.
-/

namespace QueryAlgebra

namespace Leaf

/-- The pattern or path that a leaf is, in the graph that it names itself. -/
def piece? : Leaf → Option Fragment
  | ⟨_, .piece piece⟩ => some piece
  | _ => none

/-- The pattern or path that a leaf is, in the graph that it is matched in. Where no block stands
around it this is the graph `outer`, unless it names one. -/
def matched? (outer : Term) : Leaf → Option Fragment
  | ⟨block, .piece piece⟩ =>
    some (piece.inGraph
      (if piece.graph.isDefaultGraph then block.getD outer else piece.graph))
  | _ => none

/-- The update that a leaf is. -/
def update? : Leaf → Option Operation
  | ⟨_, .update operation⟩ => some operation
  | _ => none

/-- The graph that a leaf names itself. -/
def graph? : Leaf → Option Term
  | ⟨_, .piece piece⟩ => some piece.graph
  | ⟨_, .template pattern⟩ => some pattern.graph
  | ⟨_, .update _⟩ => none

/-- The leaf does not repeat the name of the block around it. -/
def Settled (leaf : Leaf) : Prop :=
  ∀ name, leaf.block = some name → leaf.graph? = some name → name = .defaultGraph

/-- The leaf is no pattern or path that names a graph. -/
def Plain (leaf : Leaf) : Prop := ∀ piece, leaf.piece? = some piece → piece.graph = .defaultGraph

/-- A block around a leaf is the graph that it is matched in, unless the leaf is in another. -/
theorem matched?_within (outer name : Term) (leaf : Leaf) :
    (leaf.within name).matched? outer = leaf.matched? name := by
  obtain ⟨block, content⟩ := leaf
  cases block <;> cases content <;> rfl

theorem update?_within (name : Term) (leaf : Leaf) :
    (leaf.within name).update? = leaf.update? := by
  obtain ⟨block, content⟩ := leaf
  cases content <;> rfl

theorem piece?_within (name : Term) (leaf : Leaf) : (leaf.within name).piece? = leaf.piece? := by
  obtain ⟨block, content⟩ := leaf
  cases content <;> rfl

theorem graph?_within (name : Term) (leaf : Leaf) : (leaf.within name).graph? = leaf.graph? := by
  obtain ⟨block, content⟩ := leaf
  cases content <;> rfl

theorem settled_bare (content : LeafContent) : (bare content).Settled :=
  fun _ isBlock => nomatch isBlock

theorem settled_bare_within {name : Term} {content : LeafContent} :
    ((bare content).within name).Settled
      ↔ ((bare content).graph? = some name → name = .defaultGraph) := by
  constructor
  · intro settled isGraph
    exact settled name rfl ((graph?_within ..).trans isGraph)
  · rintro settled _ ⟨⟩ isGraph
    exact settled ((graph?_within ..).symm.trans isGraph)

/-- Other blocks further out do not matter inside a block. -/
theorem within_within (outer name : Term) (leaf : Leaf) :
    (leaf.within name).within outer = leaf.within name := by
  obtain ⟨block, content⟩ := leaf
  cases block <;> rfl

theorem Settled.of_within {name : Term} {leaf : Leaf} (settled : (leaf.within name).Settled) :
    leaf.Settled := by
  intro graph isBlock isGraph
  refine settled graph ?_ ((graph?_within ..).trans isGraph)
  rw [within, isBlock]
  rfl

end Leaf

namespace Operation

/-- The patterns and paths of an operation outside updates of triples, in the graphs that they
name. -/
def leafPieces (operation : Operation) : List Fragment := operation.leaves.filterMap Leaf.piece?

/-- The patterns and paths of an operation outside updates of triples, in the graphs that they are
matched in. -/
def matchedPieces (operation : Operation) : List Fragment :=
  operation.leaves.filterMap (Leaf.matched? .defaultGraph)

/-- The updates of triples in an operation. -/
def leafUpdates (operation : Operation) : List Operation := operation.leaves.filterMap Leaf.update?

end Operation

/-! ### Rebuilding the leaves -/

theorem Operation.clearing_ofLeaves (name : Term) : (clearing name).OfLeaves where
  expression _ := rfl
  update isUpdate := Bool.or_eq_true_iff.2 (.inr isUpdate)
  other {operator} _ isMatching _ := by
    cases operator with
    | path => cases isMatching
    | _ => rfl

theorem Operation.clearingBlocks_ofLeaves : clearingBlocks.OfLeaves where
  expression _ := rfl
  update := id
  other metadata _ isGraph := clearingBlocks_same _ metadata isGraph

theorem Operation.wrapping_ofLeaves : wrapping.OfLeaves where
  expression _ := rfl
  update := id
  other metadata isMatching _ := wrapping_same _ metadata isMatching

/-! ### Patterns split by graph -/

/-- Lists with a key are put together again from the parts of each key. -/
private theorem perm_flatMap_filter_key {α β : Type} [DecidableEq β] (key : α → β)
    (xs : List α) :
    ((xs.map key).eraseDups.flatMap fun name => xs.filter fun x => key x = name).Perm xs := by
  match xs with
  | [] => exact .nil
  | x :: rest =>
    have others := perm_flatMap_filter_key key (rest.filter fun other => key other ≠ key x)
    have names : ((rest.map key).filter fun name => !name == key x)
        = (rest.filter fun other => key other ≠ key x).map key := by
      rw [List.filter_map]
      congr 1
      refine List.filter_congr fun other _ => ?_
      by_cases same : key other = key x <;> simp [same]
    have apart : ∀ name ∈ ((rest.filter fun other => key other ≠ key x).map key).eraseDups,
        (x :: rest).filter (fun other => key other = name)
          = (rest.filter fun other => key other ≠ key x).filter
              fun other => key other = name := by
      intro name member
      obtain ⟨other, isOther, rfl⟩ := List.mem_map.1 (List.mem_eraseDups.1 member)
      have differs : key other ≠ key x := by simpa using (List.mem_filter.1 isOther).2
      rw [List.filter_cons_of_neg (by simpa using differs.symm), List.filter_filter]
      refine List.filter_congr fun third _ => ?_
      by_cases same : key third = key other <;> simp [same, differs]
    rw [List.map_cons, List.eraseDups_cons, names, List.flatMap_cons, List.flatMap_congr apart,
      List.filter_cons_of_pos (by simp)]
    refine (List.Perm.cons x ((others.append_left _).trans ?_))
    simpa using List.filter_append_perm (fun other => decide (key other = key x)) rest
termination_by xs.length
decreasing_by exact Nat.lt_succ_of_le (List.length_filter_le ..)

/-- No pattern is lost or repeated when patterns are sorted by graph. -/
theorem Pattern.perm_byGraph (patterns : List Pattern) :
    ((byGraph patterns).flatMap (·.2)).Perm patterns := by
  rw [byGraph, List.flatMap_map]
  exact perm_flatMap_filter_key graph patterns

theorem Pattern.graph_of_mem_byGraph {patterns : List Pattern} {part : Term × List Pattern}
    (isPart : part ∈ byGraph patterns) : ∀ pattern ∈ part.2, pattern.graph = part.1 := by
  obtain ⟨name, -, rfl⟩ := List.mem_map.1 isPart
  intro pattern member
  simpa using (List.mem_filter.1 member).2

theorem Operation.leavesOfAll_append (first second : List Operation) :
    leavesOfAll (first ++ second) = leavesOfAll first ++ leavesOfAll second := by
  induction first with
  | nil => rfl
  | cons operation rest ih => simp only [List.cons_append, leavesOfAll, ih, List.append_assoc]

theorem Operation.leavesOfAll_parts (how : Combination) (operation : Operation) :
    leavesOfAll (operation.parts how) = operation.leaves := by
  unfold parts
  split
  · split
    · rfl
    · simp only [leavesOfAll, List.append_nil]
  · simp only [leavesOfAll, List.append_nil]

theorem Operation.leaves_join (inputs : List Operation) :
    (join inputs).leaves = inputs.flatMap leaves := by
  show leavesOfAll (inputs.flatMap (parts .join)) = _
  induction inputs with
  | nil => rfl
  | cons operation rest ih =>
    rw [List.flatMap_cons, List.flatMap_cons, leavesOfAll_append, leavesOfAll_parts, ih]

theorem Operation.leaves_ofGraphPart (name : Term) (patterns : List Pattern) :
    (ofGraphPart (name, patterns)).leaves
      = if name.isDefaultGraph then Pattern.leaves (patterns.map Pattern.inDefaultGraph)
        else (Pattern.leaves (patterns.map Pattern.inDefaultGraph)).map (·.within name) := by
  rw [ofGraphPart]
  split <;> rfl

theorem Operation.leaves_splitByGraph (patterns : List Pattern) (metadata : Option Metadata) :
    leaves ⟨.splitByGraph patterns, metadata⟩
      = if patterns.all (·.graph.isDefaultGraph) then Pattern.leaves patterns
        else (Pattern.byGraph patterns).flatMap fun part => (ofGraphPart part).leaves := by
  rw [Operator.splitByGraph]
  split
  · rfl
  split
  · rename_i only
    obtain ⟨part, isOnly, rfl⟩ := List.map_eq_singleton_iff.1 only
    have noUpdate : (ofGraphPart part).operator.isDeleteInsert = false := by
      rw [ofGraphPart]
      split <;> rfl
    rw [isOnly, List.flatMap_singleton]
    generalize ofGraphPart part = only at noUpdate
    obtain ⟨operator, own⟩ := only
    rw [leaves_of_other metadata noUpdate, leaves_of_other own noUpdate]
  · show (join _).leaves = _
    rw [leaves_join, List.flatMap_map]

/-- The leaves of a basic graph pattern that is split are patterns that name no graph. -/
theorem Operation.plain_splitByGraph {patterns : List Pattern} {metadata : Option Metadata}
    {leaf : Leaf} (member : leaf ∈ leaves ⟨.splitByGraph patterns, metadata⟩) :
    ∃ piece, leaf.content = .piece piece ∧ piece.graph = .defaultGraph := by
  rw [leaves_splitByGraph] at member
  split at member
  · rename_i allDefault
    obtain ⟨pattern, isPattern, rfl⟩ := List.mem_map.1 member
    exact ⟨_, rfl, Term.eq_defaultGraph (List.all_eq_true.1 allDefault pattern isPattern)⟩
  · obtain ⟨⟨name, others⟩, -, ofPart⟩ := List.mem_flatMap.1 member
    have isCleared : ∀ leaf ∈ Pattern.leaves (others.map Pattern.inDefaultGraph),
        ∃ piece, leaf.content = .piece piece ∧ piece.graph = .defaultGraph := by
      intro leaf member
      obtain ⟨pattern, isPattern, rfl⟩ := List.mem_map.1 member
      obtain ⟨pattern, -, rfl⟩ := List.mem_map.1 isPattern
      exact ⟨_, rfl, rfl⟩
    rw [leaves_ofGraphPart] at ofPart
    split at ofPart
    · exact isCleared leaf ofPart
    · obtain ⟨inner, isInner, rfl⟩ := List.mem_map.1 ofPart
      exact isCleared inner isInner

/-! ### The graphs that patterns are matched in -/

/-- The same patterns and paths are matched in the same graphs, and the updates are the same, if no
block but `outer` stands around the leaves. -/
structure Leaf.SameMatches (outer : Term) (before after : List Leaf) : Prop where
  matched : (after.filterMap (matched? outer)).Perm (before.filterMap (matched? outer))
  updates : after.filterMap update? = before.filterMap update?

namespace Leaf.SameMatches

variable {outer : Term} {before after before' after' : List Leaf}

theorem refl (leaves : List Leaf) : SameMatches outer leaves leaves := ⟨.refl _, rfl⟩

theorem trans (first : SameMatches outer before after) (second : SameMatches outer after after') :
    SameMatches outer before after' :=
  ⟨second.matched.trans first.matched, second.updates.trans first.updates⟩

theorem append (first : SameMatches outer before after)
    (second : SameMatches outer before' after') :
    SameMatches outer (before ++ before') (after ++ after') := by
  constructor
  · rw [List.filterMap_append, List.filterMap_append]
    exact first.matched.append second.matched
  · rw [List.filterMap_append, List.filterMap_append, first.updates, second.updates]

/-- What is matched in the same graphs inside a block is so outside of it. -/
theorem within {name : Term} (inside : SameMatches name before after) :
    SameMatches outer (before.map (·.within name)) (after.map (·.within name)) := by
  have matched : (matched? outer ∘ fun leaf => leaf.within name) = matched? name :=
    funext (matched?_within outer name)
  have updates : (update? ∘ fun leaf => leaf.within name) = update? := funext (update?_within name)
  constructor
  · rw [List.filterMap_map, List.filterMap_map, matched]
    exact inside.matched
  · rw [List.filterMap_map, List.filterMap_map, updates, inside.updates]

/-- Leaves may be changed one by one. -/
theorem map {α : Type} (xs : List α) {first second : α → Leaf}
    (matched : ∀ x ∈ xs, (second x).matched? outer = (first x).matched? outer)
    (updates : ∀ x ∈ xs, (second x).update? = (first x).update?) :
    SameMatches outer (xs.map first) (xs.map second) := by
  constructor
  · rw [List.filterMap_map, List.filterMap_map]
    exact .of_eq (List.filterMap_congr matched)
  · rw [List.filterMap_map, List.filterMap_map]
    exact List.filterMap_congr updates

theorem single {first second : Leaf} (matched : second.matched? outer = first.matched? outer)
    (updates : second.update? = first.update?) : SameMatches outer [first] [second] :=
  .map [()] (fun _ _ => matched) fun _ _ => updates

end Leaf.SameMatches

namespace Leaf

variable {outer : Term}

/-- In a block, a pattern or path that names it and one that names no graph are matched alike. -/
theorem matched?_default (piece : Fragment) (inBlock : piece.graph = outer) :
    (bare (.piece (piece.inGraph .defaultGraph))).matched? outer
      = (bare (.piece piece)).matched? outer := by
  subst inBlock
  have same : (if piece.graph.isDefaultGraph then piece.graph else piece.graph) = piece.graph :=
    ite_self _
  show some ((piece.inGraph .defaultGraph).inGraph (if _ then _ else _))
    = some (piece.inGraph (if _ then piece.graph else piece.graph))
  rw [same]
  cases piece <;> rfl

/-- A block of its own stands for the graph that a pattern or path names. -/
theorem matched?_named (piece : Fragment) (named : piece.graph.isDefaultGraph = false) :
    ((bare (.piece (piece.inGraph .defaultGraph))).within piece.graph).matched? outer
      = (bare (.piece piece)).matched? outer := by
  rw [matched?_within, matched?_default _ rfl]
  show some (piece.inGraph (if _ then _ else _)) = some (piece.inGraph (if _ then _ else _))
  rw [named, if_neg Bool.false_ne_true, if_neg Bool.false_ne_true]

end Leaf

namespace Operation

open Leaf (SameMatches)

/-- In a block, it makes no difference whether a pattern names the graph of the block. -/
theorem clearing_matched (name : Term) : (clearing name).Relates (SameMatches name) where
  toOfLeaves := clearing_ofLeaves name
  nil := .refl _
  append := .append
  closed _ _ := .refl _
  bgp patterns metadata := by
    show SameMatches name _ (Pattern.leaves _)
    rw [Pattern.leaves, Pattern.leaves, List.map_map]
    refine SameMatches.map patterns (fun pattern _ => ?_) fun _ _ => rfl
    show (Leaf.bare (.piece (.pattern (if pattern.graph = name then _ else _)))).matched? name = _
    split
    · rename_i inBlock
      exact Leaf.matched?_default (.pattern pattern) inBlock
    · rfl
  path subject predicate object graph metadata := by
    show SameMatches name _ [.bare (.piece (.path _ _ _ (if graph = name then _ else _)))]
    split
    · rename_i inBlock
      exact .single (Leaf.matched?_default (.path subject predicate object graph) inBlock) rfl
    · exact .refl _
  template _ := ⟨.refl _, rfl⟩
  graph _ _ _ _ isOpen := by cases isOpen

theorem clearingBlocks_matched :
    clearingBlocks.Relates fun before after => ∀ outer, SameMatches outer before after where
  toOfLeaves := clearingBlocks_ofLeaves
  nil _ := .refl _
  append first second outer := (first outer).append (second outer)
  closed _ _ _ := .refl _
  bgp patterns metadata outer := by
    show SameMatches outer _ (Pattern.leaves (patterns.map fun pattern => pattern))
    rw [List.map_id']
    exact .refl _
  path _ _ _ _ _ _ := .refl _
  template _ _ := .refl _
  graph name input input' metadata _ inside outer := by
    have cleared := (clearing_matched name).leaves input'
    exact ((inside name).trans cleared).within

/-- The part of one graph is matched in that graph. -/
private theorem matched_ofGraphPart {name : Term} {patterns : List Pattern}
    (ofGraph : ∀ pattern ∈ patterns, pattern.graph = name) (outer : Term) :
    (ofGraphPart (name, patterns)).leaves.filterMap (Leaf.matched? outer)
      = (Pattern.leaves patterns).filterMap (Leaf.matched? outer) := by
  rw [leaves_ofGraphPart]
  split
  · rename_i isDefault
    have same : patterns.map Pattern.inDefaultGraph = patterns :=
      Pattern.map_inGraph fun pattern member =>
        (ofGraph pattern member).trans (Term.eq_defaultGraph isDefault)
    rw [same]
  · rename_i named
    rw [Pattern.leaves, Pattern.leaves, List.map_map, List.filterMap_map, List.filterMap_map,
      List.filterMap_map]
    refine List.filterMap_congr fun pattern member => ?_
    have inGraph := ofGraph pattern member
    subst inGraph
    exact Leaf.matched?_named (.pattern pattern) (Bool.eq_false_iff.2 named)

private theorem matched_splitByGraph (patterns : List Pattern) (metadata : Option Metadata)
    (outer : Term) :
    ((leaves ⟨.splitByGraph patterns, metadata⟩).filterMap (Leaf.matched? outer)).Perm
      ((Pattern.leaves patterns).filterMap (Leaf.matched? outer)) := by
  rw [leaves_splitByGraph]
  split
  · exact .refl _
  calc
    _ = (Pattern.byGraph patterns).flatMap fun part =>
          (Pattern.leaves part.2).filterMap (Leaf.matched? outer) := by
      rw [List.filterMap_flatMap]
      exact List.flatMap_congr fun part isPart =>
        matched_ofGraphPart (Pattern.graph_of_mem_byGraph isPart) outer
    _ = (Pattern.leaves ((Pattern.byGraph patterns).flatMap (·.2))).filterMap
          (Leaf.matched? outer) := by
      rw [Pattern.leaves, List.map_flatMap, List.filterMap_flatMap]
      rfl
    List.Perm _ _ := ((Pattern.perm_byGraph patterns).map _).filterMap _

/-- Graph blocks are put around patterns and paths of the same graphs only. -/
theorem wrapping_matched :
    wrapping.Relates fun before after => ∀ outer, SameMatches outer before after where
  toOfLeaves := wrapping_ofLeaves
  nil _ := .refl _
  append first second outer := (first outer).append (second outer)
  closed _ _ _ := .refl _
  bgp patterns metadata outer := by
    show SameMatches outer _
      (leaves ⟨.splitByGraph (patterns.map fun pattern => pattern), metadata⟩)
    rw [List.map_id']
    refine ⟨matched_splitByGraph patterns metadata outer, ?_⟩
    have noUpdate : (Pattern.leaves patterns).filterMap Leaf.update? = [] :=
      List.filterMap_eq_nil_iff.2 (List.forall_mem_map.2 fun _ _ => rfl)
    rw [noUpdate]
    refine List.filterMap_eq_nil_iff.2 fun leaf member => ?_
    obtain ⟨block, content⟩ := leaf
    obtain ⟨piece, rfl, -⟩ := plain_splitByGraph member
    rfl
  path subject predicate object graph metadata outer := by
    show SameMatches outer _ (leaves (if graph.isDefaultGraph then _ else _))
    split
    · exact .refl _
    · rename_i named
      exact .single (Leaf.matched?_named (.path subject predicate object graph)
        (Bool.eq_false_iff.2 named)) rfl
  template _ _ := .refl _
  graph _ _ _ _ _ inside _ := (inside _).within

/-! ### Graph names that are left -/

private theorem graph_clearing {name : Term} {place : Place} {pattern : Pattern}
    (left : ((clearing name).pattern place pattern).graph = name) : name = .defaultGraph := by
  replace left : (if pattern.graph = name then pattern.inDefaultGraph else pattern).graph = name :=
    left
  split at left
  · exact left.symm
  · rename_i other
    exact absurd left other

/-- A block is cleared below it, if the blocks inside are cleared. -/
theorem clearing_settled (name : Term) :
    (clearing name).Relates fun before after => (∀ leaf ∈ before, leaf.Settled) →
      ∀ leaf ∈ after, (leaf.within name).Settled where
  toOfLeaves := clearing_ofLeaves name
  nil := by simp
  append first second settled := by
    obtain ⟨ofFirst, ofSecond⟩ := List.forall_mem_append.1 settled
    exact List.forall_mem_append.2 ⟨first ofFirst, second ofSecond⟩
  closed {operator} metadata isClosed settled := by
    rw [leaves] at settled ⊢
    split
    · exact List.forall_mem_singleton.2 (Leaf.settled_bare_within.2 fun isGraph => by cases isGraph)
    · rename_i noUpdate
      rw [if_neg noUpdate] at settled
      rcases Bool.or_eq_true_iff.1 isClosed with isGraph | isUpdate
      · -- A block inside is the innermost one.
        cases operator with
        | wrap wrapper input =>
          cases wrapper with
          | graph inner =>
            refine List.forall_mem_map.2 fun leaf member => ?_
            rw [Leaf.within_within]
            exact settled _ (List.mem_map_of_mem member)
          | _ => cases isGraph
        | _ => cases isGraph
      · exact absurd isUpdate noUpdate
  bgp patterns metadata _ := by
    refine List.forall_mem_map.2 fun pattern member => ?_
    obtain ⟨pattern, -, rfl⟩ := List.mem_map.1 member
    exact Leaf.settled_bare_within.2 fun isGraph => graph_clearing (Option.some.inj isGraph)
  path subject predicate object graph metadata _ := by
    refine List.forall_mem_singleton.2 (Leaf.settled_bare_within.2 fun isGraph => ?_)
    replace isGraph : (if graph = name then Term.defaultGraph else graph) = name :=
      Option.some.inj isGraph
    split at isGraph
    · exact isGraph.symm
    · rename_i other
      exact absurd isGraph other
  template pattern _ :=
    List.forall_mem_singleton.2 <| Leaf.settled_bare_within.2 fun isGraph =>
      graph_clearing (Option.some.inj isGraph)
  graph _ _ _ _ isOpen := by cases isOpen

/-- No leaf repeats the name of its block after the names of blocks are cleared. -/
theorem clearingBlocks_settled :
    clearingBlocks.Relates fun _ after => ∀ leaf ∈ after, leaf.Settled where
  toOfLeaves := clearingBlocks_ofLeaves
  nil := by simp
  append first second := List.forall_mem_append.2 ⟨first, second⟩
  closed metadata isUpdate := by
    rw [leaves_of_update metadata isUpdate]
    exact List.forall_mem_singleton.2 (Leaf.settled_bare _)
  bgp patterns metadata := List.forall_mem_map.2 fun _ _ => Leaf.settled_bare _
  path _ _ _ _ _ := List.forall_mem_singleton.2 (Leaf.settled_bare _)
  template _ := List.forall_mem_singleton.2 (Leaf.settled_bare _)
  graph name input input' metadata _ inside :=
    List.forall_mem_map.2 ((clearing_settled name).leaves input' inside)

/-- After graph blocks are put around them, patterns and paths name no graph; other leaves are
those that were there. -/
theorem wrapping_plain :
    wrapping.Relates fun before after => ∀ leaf ∈ after,
      (∃ piece, leaf.content = .piece piece ∧ piece.graph = .defaultGraph)
        ∨ leaf.piece? = none ∧ leaf ∈ before where
  toOfLeaves := wrapping_ofLeaves
  nil := by simp
  append first second := by
    refine List.forall_mem_append.2 ⟨fun leaf member => ?_, fun leaf member => ?_⟩
    · exact (first leaf member).imp_right (And.imp_right (List.mem_append_left _))
    · exact (second leaf member).imp_right (And.imp_right (List.mem_append_right _))
  closed metadata isUpdate := by
    rw [leaves_of_update metadata isUpdate]
    exact List.forall_mem_singleton.2 (.inr ⟨rfl, .head _⟩)
  bgp patterns metadata := fun leaf member => .inl (plain_splitByGraph member)
  path subject predicate object graph metadata := by
    show ∀ leaf ∈ leaves (if graph.isDefaultGraph then _ else _), _
    split
    · rename_i isDefault
      exact List.forall_mem_singleton.2 (.inl ⟨_, rfl, Term.eq_defaultGraph isDefault⟩)
    · exact List.forall_mem_singleton.2 (.inl ⟨_, rfl, rfl⟩)
  template _ := List.forall_mem_singleton.2 (.inr ⟨rfl, .head _⟩)
  graph name input input' metadata _ inside := by
    refine List.forall_mem_map.2 fun leaf member => ?_
    rw [Leaf.piece?_within]
    exact (inside leaf member).imp_right (And.imp_right (List.mem_map_of_mem))

/-! ### Nothing left to take out -/

private theorem clearing_pattern {name : Term} {place : Place} {pattern : Pattern}
    (settled : some pattern.graph = some name → name = .defaultGraph) :
    (clearing name).pattern place pattern = pattern := by
  show (if pattern.graph = name then _ else _) = _
  split
  · rename_i inBlock
    rw [Pattern.inDefaultGraph, ← (settled (congrArg some inBlock)), ← inBlock]
  · rfl

/-- Clearing a name changes nothing where no leaf outside other blocks names it. -/
theorem clearing_spares (name : Term) :
    (clearing name).Spares fun leaf => (leaf.within name).Settled where
  toOfLeaves := clearing_ofLeaves name
  bgp {patterns} metadata settled := by
    refine congrArg (fun patterns => Operation.mk (.bgp patterns) metadata) ?_
    refine (List.map_congr_left fun pattern member => ?_).trans (List.map_id patterns)
    exact clearing_pattern (Leaf.settled_bare_within.1 (settled _ (List.mem_map_of_mem member)))
  path {subject predicate object graph} metadata settled := by
    show (⟨.path subject predicate object (if graph = name then _ else _), metadata⟩
      : Operation) = _
    split
    · rename_i inBlock
      rw [inBlock, Leaf.settled_bare_within.1 settled (congrArg some inBlock)]
    · rfl
  template settled := clearing_pattern (Leaf.settled_bare_within.1 settled)
  inside isOpen := by cases isOpen
  graph _ isOpen := by cases isOpen

theorem clearingBlocks_spares : clearingBlocks.Spares Leaf.Settled where
  toOfLeaves := clearingBlocks_ofLeaves
  bgp {patterns} metadata _ := by
    show (⟨.bgp (patterns.map fun pattern => pattern), metadata⟩ : Operation) = _
    rw [List.map_id']
  path _ _ := rfl
  template _ := rfl
  inside _ _ := Leaf.Settled.of_within
  graph {name input} metadata _ settled :=
    congrArg (fun input => Operation.mk (.wrap (.graph name) input) metadata)
      ((clearing_spares name).eq input settled)

theorem wrapping_spares : wrapping.Spares Leaf.Plain where
  toOfLeaves := wrapping_ofLeaves
  bgp {patterns} metadata plain := by
    show (⟨.splitByGraph (patterns.map fun pattern => pattern), metadata⟩ : Operation) = _
    have allDefault : patterns.all (·.graph.isDefaultGraph) = true :=
      List.all_eq_true.2 fun pattern member =>
        congrArg Term.isDefaultGraph (plain _ (List.mem_map_of_mem member) _ rfl)
    rw [List.map_id', Operator.splitByGraph, if_pos allDefault]
  path {_ _ _ graph} metadata plain := by
    show (if graph.isDefaultGraph then _ else _) = _
    have isDefault : graph.isDefaultGraph = true := congrArg Term.isDefaultGraph (plain _ rfl)
    rw [if_pos isDefault]
  template _ := rfl
  inside {name _} _ leaf plain piece isPiece :=
    plain piece ((leaf.piece?_within name).trans isPiece)
  graph _ _ _ := rfl

/-- After graph names are taken out, no leaf repeats the name of its block, and patterns and paths
name no graph. -/
theorem leaves_withoutEmbeddedGraphs (operation : Operation) :
    ∀ leaf ∈ operation.withoutEmbeddedGraphs.leaves, leaf.Settled ∧ leaf.Plain := by
  intro leaf member
  rcases wrapping_plain.leaves _ leaf member with ⟨piece, isPiece, isDefault⟩ | ⟨noPiece, earlier⟩
  · obtain ⟨block, content⟩ := leaf
    obtain rfl : content = .piece piece := isPiece
    refine ⟨fun name _ isGraph => ?_, fun other isOther => ?_⟩
    · exact (Option.some.inj isGraph).symm.trans isDefault
    · exact Option.some.inj isOther ▸ isDefault
  · refine ⟨clearingBlocks_settled.leaves operation leaf earlier, fun piece isPiece => ?_⟩
    rw [noPiece] at isPiece
    cases isPiece

theorem withoutEmbeddedGraphs_idempotent (operation : Operation) :
    operation.withoutEmbeddedGraphs.withoutEmbeddedGraphs = operation.withoutEmbeddedGraphs := by
  have left := operation.leaves_withoutEmbeddedGraphs
  generalize operation.withoutEmbeddedGraphs = removed at left ⊢
  show (removed.rebuild clearingBlocks).rebuild wrapping = removed
  rw [clearingBlocks_spares.eq removed fun leaf member => (left leaf member).1,
    wrapping_spares.eq removed fun leaf member => (left leaf member).2]

/-- Taking graph names out keeps the multiset of patterns and paths with the graphs that they are
matched in, and leaves updates of triples alone. Then no pattern or path names a graph, and nothing
changes any more. -/
theorem removeEmbeddedGraphs_keeps_matches (operation : Operation) :
    if operation.fitsRemoving then
      ∃ removed, operation.removeEmbeddedGraphs = .ok removed
        ∧ removed.matchedPieces.Perm operation.matchedPieces
        ∧ (∀ piece ∈ removed.leafPieces, piece.graph = .defaultGraph)
        ∧ removed.leafUpdates = operation.leafUpdates
        ∧ removed.removeEmbeddedGraphs
            = if removed.fitsRemoving then .ok removed
              else .error (.stackOverflow Traversal.defaultLimit)
    else
      operation.removeEmbeddedGraphs = .error (.stackOverflow Traversal.defaultLimit) := by
  have cleared := clearingBlocks_matched.leaves operation .defaultGraph
  have wrapped := wrapping_matched.leaves (operation.rebuild clearingBlocks) .defaultGraph
  have same := cleared.trans wrapped
  rw [removeEmbeddedGraphs_eq]
  split
  · refine ⟨_, rfl, same.matched, fun piece member => ?_, same.updates, ?_⟩
    · obtain ⟨leaf, isLeaf, isPiece⟩ := List.mem_filterMap.1 member
      exact (operation.leaves_withoutEmbeddedGraphs leaf isLeaf).2 piece isPiece
    · rw [removeEmbeddedGraphs_eq, withoutEmbeddedGraphs_idempotent]
  · rfl

end Operation

end QueryAlgebra
