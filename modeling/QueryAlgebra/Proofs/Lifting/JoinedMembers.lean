import QueryAlgebra.Proofs.Lifting.NormalForm
import QueryAlgebra.Proofs.Lifting.Rereading
import QueryAlgebra.Proofs.Lowering.RenewedNames
import QueryAlgebra.Proofs.Lowering.Segments
import Mathlib.Data.List.Chain

/-! # Reading the elements that joins are written as

The elements of a join are those of its inputs one after another, with adjacent triples together.
Triples are read as a run of basic graph patterns and paths, and every other element as one
operation; joined to what comes before them they make a flat join again. Which triples were written
together does not matter for it: only that no two basic graph patterns meet.
-/

namespace QueryAlgebra

open Surface.Pattern (consMerged mergeTriples)

namespace Operation

/-- Whether a join would take an operation in as one input. -/
def Kept (operation : Operation) : Prop := operation.role ≠ .absorbed

theorem joined_of_several {members : List Operation} (several : 2 ≤ members.length) :
    joined members = .of (.combine .join members) := by
  match members, several with
  | _ :: _ :: _, _ => rfl

private theorem parts_of_kept {operation : Operation} (kept : operation.Kept) :
    operation.parts .join = [operation] := by
  unfold parts
  split
  · rename_i how inputs
    cases how with
    | join => exact absurd rfl kept
    | union | updates => rfl
  · rfl

private theorem parts_joined {members : List Operation} (present : members ≠ [])
    (kept : ∀ member ∈ members, member.Kept) : (joined members).parts .join = members := by
  match members, present with
  | [member], _ => exact parts_of_kept (kept member (List.mem_singleton_self member))
  | _ :: _ :: _, _ => rfl

private theorem isEmptyBgp_joined {members : List Operation} (present : members ≠ [])
    (kept : ∀ member ∈ members, member.Kept) : (joined members).isEmptyBgp = false := by
  match members, present with
  | [member], _ =>
    rw [Bool.eq_false_iff]
    intro empty
    refine kept member (List.mem_singleton_self member) ?_
    obtain ⟨operator, metadata⟩ := member
    cases operator with
    | bgp patterns => cases patterns <;> first | rfl | cases empty
    | _ => cases empty
  | _ :: _ :: _, _ => rfl

/-- Only a lone member makes a join that is a basic graph pattern. -/
private theorem role_of_joined {members : List Operation} (present : members ≠ [])
    (kept : ∀ member ∈ members, member.Kept) {patterns : List Pattern}
    (same : joined members = .bgp patterns) :
    ∃ member, members = [member] ∧ member.role = .triples := by
  match members, present with
  | [member], _ =>
    have keeps := kept member (List.mem_singleton_self member)
    obtain rfl : member = .bgp patterns := same
    refine ⟨_, rfl, ?_⟩
    cases patterns with
    | nil => exact absurd rfl keeps
    | cons _ _ => rfl
  | _ :: _ :: _, _ => cases same

/-- Members are joined to others as if all of them had been joined at once. -/
theorem simplifiedJoin_joined {first second : List Operation}
    (kept : ∀ member ∈ first ++ second, member.Kept) (apart : (first ++ second).IsChain Apart) :
    simplifiedJoin (joined first) (joined second) = joined (first ++ second) := by
  rw [List.forall_mem_append] at kept
  by_cases noFirst : first = []
  · rw [noFirst]
    exact Piece.simplifiedJoin_bgp_nil _
  have full := isEmptyBgp_joined noFirst kept.1
  by_cases noSecond : second = []
  · rw [noSecond, List.append_nil]
    refine simplifiedJoin_of_right (fun empty => ?_) rfl
    rw [shape_of_isEmptyBgp.2 empty] at full
    cases full
  have several : 2 ≤ (first ++ second).length := by
    have one := List.length_pos_of_ne_nil noFirst
    have two := List.length_pos_of_ne_nil noSecond
    rw [List.length_append]
    omega
  unfold simplifiedJoin
  split
  · rename_i patterns more ofFirst ofSecond
    obtain ⟨left, rfl, leftTriples⟩ := role_of_joined noFirst kept.1 ofFirst
    obtain ⟨right, rfl, rightTriples⟩ := role_of_joined noSecond kept.2 ofSecond
    exact absurd ⟨leftTriples, rightTriples⟩ (List.isChain_pair.1 apart)
  · rw [full, isEmptyBgp_joined noSecond kept.2, if_neg Bool.false_ne_true,
      if_neg Bool.false_ne_true, joined_of_several several, join, List.flatMap_cons,
      List.flatMap_singleton, parts_joined noFirst kept.1, parts_joined noSecond kept.2]

/-- Joins of members that correspond correspond. -/
theorem Corresponds.joined {related : LocalName → LocalName → Prop}
    {members members' : List Operation}
    (correspond : List.Forall₂ (Operation.Corresponds related) members members') :
    (joined members).Corresponds related (.joined members') := by
  cases correspond with
  | nil => exact .bgp .nil
  | cons first others =>
    cases others with
    | nil => exact first
    | cons second rest => exact .mk none (.combine .join (.cons first (.cons second rest)))

/-! ### Runs of triples -/

/-- The pieces of a basic graph pattern or path. -/
def fragments : Operation → List Fragment
  | ⟨.bgp patterns, _⟩ => patterns.map .pattern
  | ⟨.path subject predicate object graph, _⟩ => [.path subject predicate object graph]
  | _ => []

/-- Whether an operation is what triples are read as: patterns, or a path. -/
def isRun : Operation → Bool
  | ⟨.bgp patterns, none⟩ => !patterns.isEmpty
  | ⟨.path .., none⟩ => true
  | _ => false

private theorem isRun_bgp {patterns : List Pattern} {metadata : Option Metadata}
    (isRun : (⟨.bgp patterns, metadata⟩ : Operation).isRun = true) :
    patterns ≠ [] ∧ metadata = none := by
  cases metadata with
  | some metadata => cases isRun
  | none =>
    cases patterns with
    | nil => cases isRun
    | cons _ _ => exact ⟨List.cons_ne_nil _ _, rfl⟩

/-- Patterns and paths that stay apart are segments of the same pieces. -/
private theorem exists_segments {members : List Operation}
    (runs : ∀ member ∈ members, member.isRun = true) (apart : members.IsChain Apart) :
    ∃ segments : List Segment, segments.map Segment.toOperation = members
      ∧ segments.flatMap Segment.pieces = members.flatMap fragments
      ∧ Segment.Separated segments := by
  induction members with
  | nil => exact ⟨[], rfl, rfl, .nil, List.not_mem_nil⟩
  | cons member rest ih =>
    rw [List.forall_mem_cons] at runs
    rw [List.isChain_cons] at apart
    obtain ⟨segments, rfl, samePieces, separated⟩ := ih runs.2 apart.2
    obtain ⟨operator, metadata⟩ := member
    cases operator with
    | bgp patterns =>
      obtain ⟨filled, rfl⟩ := isRun_bgp runs.1
      refine ⟨.run patterns :: segments, rfl, congrArg (_ ++ ·) samePieces,
        separated.cons_run filled fun next isNext => ?_⟩
      cases next with
      | path => rfl
      | run more =>
        -- The next member would be the operation of the run, and the two would meet.
        have isNext : Operation.bgp more ∈ (segments.map Segment.toOperation).head? := by
          rw [List.head?_map]
          exact Option.mem_map.2 ⟨_, isNext, rfl⟩
        have fullNext := isRun_bgp (runs.2 _ (List.mem_of_mem_head? isNext))
        obtain ⟨head, rest, rfl⟩ := List.exists_cons_of_ne_nil filled
        obtain ⟨next, more, rfl⟩ := List.exists_cons_of_ne_nil fullNext.1
        exact absurd ⟨rfl, rfl⟩ (apart.1 _ isNext)
    | path subject predicate object graph =>
      cases metadata with
      | some metadata => cases runs.1
      | none =>
        exact ⟨.path subject predicate object graph :: segments, rfl,
          congrArg (_ ++ ·) samePieces, separated.cons_path subject predicate object graph⟩
    | _ => cases runs.1

/-- Patterns and paths that stay apart are the join of their pieces. -/
theorem ofFragments_runs {members : List Operation}
    (runs : ∀ member ∈ members, member.isRun = true) (apart : members.IsChain Apart) :
    ofFragments (members.flatMap fragments) = joined members := by
  obtain ⟨segments, rfl, samePieces, separated⟩ := exists_segments runs apart
  rw [ofFragments_eq_joined, Segment.ofFragments_eq_iff.2 ⟨samePieces, separated⟩]

end Operation

/-! ### Elements and the members that they are read as -/

namespace Surface.Pattern

/-- Whether a pattern is a list of triples. -/
def isTriples : Pattern → Bool
  | .bgp .. => true
  | _ => false

/-- Patterns that are not both triples. -/
abbrev Separate (first second : Pattern) : Prop :=
  ¬(first.isTriples = true ∧ second.isTriples = true)

private theorem eq_bgp_of_isTriples {pattern : Pattern} (isTriples : pattern.isTriples = true) :
    ∃ triples span, pattern = .bgp triples span := by
  cases pattern with
  | bgp triples span => exact ⟨triples, span, rfl⟩
  | _ => cases isTriples

private theorem consMerged_of_separate {first : Pattern} {rest : List Pattern}
    (separate : ∀ second ∈ rest.head?, first.Separate second) :
    consMerged first rest = first :: rest := by
  unfold consMerged
  split
  · exact absurd ⟨rfl, rfl⟩ (separate _ rfl)
  · rfl

/-- Triples stay as they are written if no others are beside them. -/
private theorem mergeTriples_append {first : List Pattern} (second : List Pattern)
    (separate : (first ++ (mergeTriples second)).IsChain Separate) :
    mergeTriples (first ++ second) = first ++ mergeTriples second := by
  induction first with
  | nil => rfl
  | cons head rest ih =>
    rw [List.cons_append, List.isChain_cons] at separate
    rw [List.cons_append, mergeTriples, ih separate.2, consMerged_of_separate separate.1]
    rfl

theorem separate_mergeTriples (elements : List Pattern) :
    (mergeTriples elements).IsChain Separate := by
  induction elements with
  | nil => exact .nil
  | cons element rest ih =>
    rw [mergeTriples]
    unfold consMerged
    split
    · rename_i more _ tail same
      rw [same, List.isChain_cons] at ih
      exact List.isChain_cons.2 ⟨fun next member => ih.1 next member, ih.2⟩
    · rename_i notBoth
      refine List.isChain_cons.2 ⟨fun next isNext both => ?_, ih⟩
      obtain ⟨tail, same⟩ := List.head?_eq_some_iff.1 isNext
      obtain ⟨triples, span, rfl⟩ := eq_bgp_of_isTriples both.1
      obtain ⟨more, moreSpan, rfl⟩ := eq_bgp_of_isTriples both.2
      exact notBoth triples span more moreSpan tail rfl same

/-- Elements that end in no triples stay before others whose triples are put together. -/
theorem mergeTriples_after {before : List Pattern} {last : Pattern}
    (separate : (before ++ [last]).IsChain Separate) (other : last.isTriples = false)
    (second : List Pattern) :
    mergeTriples (before ++ [last] ++ second) = before ++ [last] ++ mergeTriples second := by
  refine mergeTriples_append second (separate.append (separate_mergeTriples second) ?_)
  rw [List.getLast?_concat]
  rintro _ ⟨⟩ next _ ⟨isTriples, _⟩
  rw [other] at isTriples
  cases isTriples

end Surface.Pattern

namespace Context

variable {context : Context}

private theorem triples_append (first second : List Surface.Triple) :
    context.triples (first ++ second) = (do
      let flat ← context.triples first
      let more ← context.triples second
      pure (flat ++ more)) := by
  induction first with
  | nil => simp only [List.nil_append, triples, pure_bind, bind_pure]
  | cons triple rest ih =>
    simp only [List.cons_append, triples, ih, bind_assoc, pure_bind, List.append_assoc]

private theorem allFragments_append (first second : List FlatTriple) :
    context.allFragments (first ++ second) = (do
      let pieces ← context.allFragments first
      let more ← context.allFragments second
      pure (pieces ++ more)) := by
  induction first with
  | nil => simp only [List.nil_append, allFragments, pure_bind, bind_pure]
  | cons triple rest ih =>
    simp only [List.cons_append, allFragments, ih, bind_assoc, pure_bind, List.append_assoc]

theorem ReadsPieces.append {triples more : List Surface.Triple} {pieces others : List Fragment}
    (first : context.ReadsPieces triples pieces) (second : context.ReadsPieces more others) :
    context.ReadsPieces (triples ++ more) (pieces ++ others) := by
  obtain ⟨flat, readTriples, readPieces⟩ := first
  obtain ⟨flat', readTriples', readPieces'⟩ := second
  refine ⟨flat ++ flat', ?_, ?_⟩
  · rw [triples_append, readTriples, readTriples']
    rfl
  · rw [allFragments_append, readPieces, readPieces']
    rfl

section

variable {sure : Prop} {known : Variable → Prop} {names more : List Variable}

/-- An element of a group is read as members of a join: triples as patterns and paths, any other
element that is joined to what comes before it as one operation. -/
inductive ReadsMembers (context : Context) (sure : Prop) (known : Variable → Prop) :
    Surface.Pattern → List Operation → List Variable → Prop
  | run {triples : List Surface.Triple} {span : Surface.Span} {members : List Operation}
    (runs : ∀ member ∈ members, member.isRun = true)
    (reads : context.ReadsPieces triples (members.flatMap Operation.fragments))
    (isKnown : ∀ member ∈ members, AllKnown known member.localNames) :
    ReadsMembers context sure known (.bgp triples span) members []
  | member {element : Surface.Pattern} {operation : Operation} {names : List Variable}
    (isMember : element.isMember = true) (other : element.isTriples = false)
    (reads : Lowering.Renews sure known names
      (fun related value => operation.Corresponds related value) (context.pattern element)) :
    ReadsMembers context sure known element [operation] names

/-- Elements of a group are read as members of a join. -/
inductive ReadsJoin (context : Context) (sure : Prop) (known : Variable → Prop) :
    List Surface.Pattern → List Operation → List Variable → Prop
  | nil : ReadsJoin context sure known [] [] []
  | cons {element : Surface.Pattern} {elements : List Surface.Pattern}
    {first rest : List Operation} {names more : List Variable}
    (reads : ReadsMembers context sure known element first names)
    (others : ReadsJoin context sure known elements rest more) :
    ReadsJoin context sure known (element :: elements) (first ++ rest) (names ++ more)

theorem ReadsMembers.isMember {element : Surface.Pattern} {members : List Operation}
    (reads : context.ReadsMembers sure known element members names) : element.isMember = true := by
  cases reads with
  | run => rfl
  | member isMember => exact isMember

theorem ReadsMembers.pattern {element : Surface.Pattern} {members : List Operation}
    (reads : context.ReadsMembers sure known element members names)
    (apart : members.IsChain Operation.Apart) :
    Lowering.Renews sure known names
      (fun related value => (Operation.joined members).Corresponds related value)
      (context.pattern element) := by
  cases reads with
  | @run triples span _ runs reads isKnown =>
    have read : context.pattern (.bgp triples span) = pure (Operation.joined members) := by
      rw [Context.pattern, reads.pattern, Operation.ofFragments_runs runs apart]
    exact .of_eq read fun related keep => .joined (List.forall₂_same.2 fun member isMember =>
      Operation.corresponds_self ((isKnown member isMember).itself keep))
  | member _ _ reads => exact reads

/-- Elements after others are read as the join of the members of all of them. -/
theorem ReadsJoin.elements {elements : List Surface.Pattern} {members : List Operation}
    (reads : context.ReadsJoin sure known elements members names) (before : List Operation)
    (kept : ∀ member ∈ before ++ members, member.Kept)
    (apart : (before ++ members).IsChain Operation.Apart) (start : Operation)
    (filters : List Expression) :
    Lowering.Renews sure known names (fun related result =>
        (Operation.joined before).Corresponds related start →
          (Operation.joined (before ++ members)).Corresponds related result.1 ∧ result.2 = filters)
      (context.elements elements start filters) := by
  induction reads generalizing before start with
  | nil =>
    rw [Context.elements, List.append_nil]
    exact .pure fun _ _ ofStart => ⟨ofStart, rfl⟩
  | @cons element elements first rest names more ofElement _ ih =>
    rw [← List.append_assoc] at kept apart ⊢
    have ofBoth := apart.left_of_append
    have same := Operation.simplifiedJoin_joined
      (fun member isMember => kept member (List.mem_append_left _ isMember)) ofBoth
    rw [elements_member context ofElement.isMember]
    refine (ofElement.pattern ofBoth.right_of_append).bind fun right => ?_
    refine (ih _ kept apart (simplifiedJoin start right)).imp ?_
    intro related result holds ofRight ofStart
    exact holds (same ▸ ofStart.simplifiedJoin ofRight)

theorem ReadsJoin.append {elements others : List Surface.Pattern} {members rest : List Operation}
    (first : context.ReadsJoin sure known elements members names)
    (second : context.ReadsJoin sure known others rest more) :
    context.ReadsJoin sure known (elements ++ others) (members ++ rest) (names ++ more) := by
  induction first with
  | nil => exact second
  | cons reads _ ih =>
    rw [List.cons_append, List.append_assoc, List.append_assoc]
    exact .cons reads ih

private theorem readsJoin_consMerged {element : Surface.Pattern} {first : List Operation}
    (reads : context.ReadsMembers sure known element first names)
    {elements : List Surface.Pattern} {rest : List Operation}
    (others : context.ReadsJoin sure known elements rest more) :
    context.ReadsJoin sure known (consMerged element elements) (first ++ rest) (names ++ more) := by
  unfold consMerged
  split
  · rename_i triples span others' moreSpan tail
    cases others with
    | @cons _ _ next rest nextNames restNames ofNext ofTail =>
      rcases reads with ⟨runs, reads, isKnown⟩ | ⟨_, other, _⟩
      · rcases ofNext with ⟨nextRuns, nextReads, nextKnown⟩ | ⟨_, other, _⟩
        · rw [← List.append_assoc]
          refine .cons (.run (List.forall_mem_append.2 ⟨runs, nextRuns⟩) ?_
            (List.forall_mem_append.2 ⟨isKnown, nextKnown⟩)) ofTail
          rw [List.flatMap_append]
          exact reads.append nextReads
        · cases other
      · cases other
  · exact .cons reads others

/-- Which triples are written together does not matter for what is joined. -/
theorem ReadsJoin.merged {elements : List Surface.Pattern} {members : List Operation}
    (reads : context.ReadsJoin sure known elements members names) :
    context.ReadsJoin sure known (mergeTriples elements) members names := by
  induction reads with
  | nil => exact .nil
  | cons first _ ih => exact readsJoin_consMerged first ih

end

end Context

end QueryAlgebra
