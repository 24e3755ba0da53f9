import QueryAlgebra.Lowering.Triples
import QueryAlgebra.Operation.Walk
import QueryAlgebra.Proofs.Operation.KeptForms
import QueryAlgebra.Proofs.Traversal.Fitting

/-! # Operations in simplified form

In a simplified tree joins, unions, sequences and alternatives are flat and have at least two
members, no join contains an empty basic graph pattern, and a left join without a condition has no
filter on its right. Inline data at the end of a query is joined with whatever stands before it, so
there, and only there, a join may have an empty basic graph pattern as its first of two members.

The form depends on the shape of a tree alone (`Node.SameShape.isSimplified`), and what puts members
of a group, branches of a union and steps of a path together keeps it.
-/

namespace QueryAlgebra

/-- The kinds of lists that are kept flat. -/
def NodeKind.isFlat : NodeKind → Bool
  | .join | .union | .seqPath | .altPath => true
  | _ => false

/-- Whether inline data at the end of a query may stand below a node of this kind: it stands below
a query form, and what is laid over it before that may be computed variables and an order. -/
def NodeKind.holdsTrailing (trailing : Bool) : NodeKind → Bool
  | .project | .ask | .describe | .construct => true
  | .extend | .orderBy => trailing
  | _ => false

namespace Node

/-- Whether a node is a basic graph pattern without patterns. -/
def isEmptyBgp (node : Node) : Bool := decide (node.kind = .bgp) && node.children.isEmpty

/-- What the form asks of a single node, at which inline data may be joined to the end of a query if
`trailing`. -/
structure SimplifiedAt (trailing : Bool) (node : Node) : Prop where
  several : node.kind.isFlat = true → 2 ≤ node.children.length
  flat : node.kind.isFlat = true → ∀ child ∈ node.children, child.kind ≠ node.kind
  proper : node.kind = .join → (∀ child ∈ node.children, child.isEmptyBgp = false) ∨
    trailing = true ∧ ∃ empty data,
      node.children = [empty, data] ∧ empty.isEmptyBgp = true ∧ data.kind = .values
  conditioned : node.kind = .leftJoin →
    ∀ left right, node.children = [left, right] → right.kind ≠ .filter

/-- The form everywhere in a tree. -/
inductive IsSimplified : Bool → Node → Prop where
  | mk {trailing : Bool} {node : Node} : node.SimplifiedAt trailing →
    (∀ child ∈ node.children, IsSimplified (node.kind.holdsTrailing trailing) child) →
    IsSimplified trailing node

/-- Only lists that are kept flat and left joins are asked for more than their parts. -/
theorem SimplifiedAt.of_kind {trailing : Bool} {node : Node} (notFlat : node.kind.isFlat = false)
    (notLeftJoin : node.kind ≠ .leftJoin) : node.SimplifiedAt trailing where
  several isFlat := absurd isFlat (by rw [notFlat]; exact Bool.false_ne_true)
  flat isFlat := absurd isFlat (by rw [notFlat]; exact Bool.false_ne_true)
  proper isJoin := absurd notFlat (by rw [isJoin]; exact Bool.noConfusion)
  conditioned isLeftJoin := absurd isLeftJoin notLeftJoin

theorem SimplifiedAt.trailing {trailing : Bool} {node : Node}
    (simplified : node.SimplifiedAt trailing) : node.SimplifiedAt true :=
  ⟨simplified.several, simplified.flat,
    fun isJoin => (simplified.proper isJoin).imp_right fun other => ⟨rfl, other.2⟩,
    simplified.conditioned⟩

namespace IsSimplified

variable {trailing : Bool} {node : Node}

theorem at_node (simplified : IsSimplified trailing node) : node.SimplifiedAt trailing := by
  cases simplified with
  | mk here _ => exact here

theorem child (simplified : IsSimplified trailing node) :
    ∀ child ∈ node.children, IsSimplified (node.kind.holdsTrailing trailing) child := by
  cases simplified with
  | mk _ children => exact children

/-- What is simplified may stand where inline data is joined to the end of a query. -/
theorem anywhere (simplified : IsSimplified trailing node) : IsSimplified true node := by
  induction simplified with
  | @mk trailing node here children ih =>
    refine .mk here.trailing fun child member => ?_
    cases holds : node.kind.holdsTrailing true with
    | true => exact ih child member
    | false =>
      have sameFlag : node.kind.holdsTrailing trailing = false := by
        cases trailing
        · revert holds
          cases node.kind <;> simp [NodeKind.holdsTrailing]
        · exact holds
      exact sameFlag ▸ children child member

theorem of_plain (simplified : IsSimplified false node) : IsSimplified trailing node := by
  cases trailing with
  | true => exact simplified.anywhere
  | false => exact simplified

/-- A node that is asked for nothing more than its parts. -/
theorem of_parts (notFlat : node.kind.isFlat = false) (notLeftJoin : node.kind ≠ .leftJoin)
    (parts : ∀ child ∈ node.children, IsSimplified false child) : IsSimplified trailing node :=
  .mk (.of_kind notFlat notLeftJoin) fun child member => (parts child member).of_plain

theorem pattern (triple : Pattern) : IsSimplified trailing (.pattern triple) :=
  .of_parts rfl nofun (List.forall_mem_nil _)

end IsSimplified

/-! ### Shape -/

private theorem exists_of_forall₂ {α : Type} {related : α → α → Prop} {firsts seconds : List α}
    (pairs : List.Forall₂ related firsts seconds) {second : α} (member : second ∈ seconds) :
    ∃ first ∈ firsts, related first second := by
  induction pairs with
  | nil => cases member
  | cons head _ ih =>
    cases member with
    | head => exact ⟨_, List.mem_cons_self .., head⟩
    | tail _ member =>
      obtain ⟨first, isFirst, pair⟩ := ih member
      exact ⟨first, List.mem_cons_of_mem _ isFirst, pair⟩

namespace SameShape

variable {first second : Node}

theorem kind_eq (same : SameShape first second) : first.kind = second.kind := by
  cases same with
  | mk kinds _ => exact kinds

theorem children_eq (same : SameShape first second) :
    List.Forall₂ SameShape first.children second.children := by
  cases same with
  | mk _ children => exact children

theorem isEmptyBgp_eq (same : SameShape first second) : first.isEmptyBgp = second.isEmptyBgp := by
  have empty : first.children.isEmpty = second.children.isEmpty := by
    rw [Bool.eq_iff_iff, List.isEmpty_iff_length_eq_zero, List.isEmpty_iff_length_eq_zero,
      same.children_eq.length_eq]
  rw [isEmptyBgp, isEmptyBgp, same.kind_eq, empty]

theorem simplifiedAt {trailing : Bool} (same : SameShape first second)
    (simplified : first.SimplifiedAt trailing) : second.SimplifiedAt trailing := by
  have children := same.children_eq
  constructor
  · rw [← same.kind_eq, ← children.length_eq]
    exact simplified.several
  · intro isFlat child member
    obtain ⟨other, isOther, pair⟩ := exists_of_forall₂ children member
    rw [← same.kind_eq] at isFlat ⊢
    rw [← pair.kind_eq]
    exact simplified.flat isFlat other isOther
  · intro isJoin
    rw [← same.kind_eq] at isJoin
    refine (simplified.proper isJoin).imp (fun proper child member => ?_) ?_
    · obtain ⟨other, isOther, pair⟩ := exists_of_forall₂ children member
      rw [← pair.isEmptyBgp_eq]
      exact proper other isOther
    · rintro ⟨isTrailing, empty, data, pair, isEmpty, isData⟩
      rw [pair, List.forall₂_cons_left_iff] at children
      obtain ⟨empty', others, ofEmpty, ofOthers, areChildren⟩ := children
      obtain ⟨data', rest, ofData, ofRest, rfl⟩ := List.forall₂_cons_left_iff.1 ofOthers
      obtain rfl := List.forall₂_nil_left_iff.1 ofRest
      exact ⟨isTrailing, empty', data', areChildren, ofEmpty.isEmptyBgp_eq ▸ isEmpty,
        ofData.kind_eq ▸ isData⟩
  · intro isLeftJoin left right pair
    rw [← same.kind_eq] at isLeftJoin
    rw [pair, List.forall₂_cons_right_iff] at children
    obtain ⟨left', others, -, ofOthers, areChildren⟩ := children
    obtain ⟨right', rest, ofRight, ofRest, rfl⟩ := List.forall₂_cons_right_iff.1 ofOthers
    obtain rfl := List.forall₂_nil_right_iff.1 ofRest
    rw [← ofRight.kind_eq]
    exact simplified.conditioned isLeftJoin left' right' areChildren

/-- The form depends on the shape of a tree alone. -/
theorem isSimplified {trailing : Bool} (same : SameShape first second)
    (simplified : IsSimplified trailing first) : IsSimplified trailing second := by
  induction simplified generalizing second with
  | @mk trailing first here children ih =>
    refine .mk (same.simplifiedAt here) fun child member => ?_
    obtain ⟨other, isOther, pair⟩ := exists_of_forall₂ same.children_eq member
    rw [← same.kind_eq]
    exact ih other isOther pair

end SameShape

/-! ### Lists that are kept flat -/

/-- What a node contributes to a list of a kind: its children if it is a list of this kind, else
itself. -/
def members (kind : NodeKind) (node : Node) : List Node :=
  if node.kind = kind then node.children else [node]

namespace IsSimplified

variable {trailing : Bool} {node : Node} {kind : NodeKind}

private theorem holdsTrailing_of_isFlat (isFlat : kind.isFlat = true) :
    kind.holdsTrailing trailing = false := by
  cases kind <;> first | rfl | cases isFlat

/-- What a simplified node contributes to a list is simplified and no list of this kind. -/
theorem mem_members (isFlat : kind.isFlat = true) (simplified : IsSimplified false node) :
    ∀ member ∈ node.members kind, IsSimplified false member ∧ member.kind ≠ kind := by
  unfold members
  split
  · rename_i same
    subst same
    intro member isMember
    refine ⟨?_, simplified.at_node.flat isFlat member isMember⟩
    have ofMember := simplified.child member isMember
    rwa [holdsTrailing_of_isFlat isFlat] at ofMember
  · rename_i other
    exact List.forall_mem_singleton.2 ⟨simplified, other⟩

theorem members_ne_nil (isFlat : kind.isFlat = true) (simplified : IsSimplified false node) :
    node.members kind ≠ [] := by
  unfold members
  split
  · rename_i same
    subst same
    have several := simplified.at_node.several isFlat
    exact List.ne_nil_of_length_pos (by omega)
  · exact List.cons_ne_nil _ _

/-- An operation that is not empty contributes nothing empty to a join. -/
theorem members_proper (simplified : IsSimplified false node) (proper : node.isEmptyBgp = false) :
    ∀ member ∈ node.members .join, member.isEmptyBgp = false := by
  unfold members
  split
  · rename_i isJoin
    exact (simplified.at_node.proper isJoin).resolve_right fun other => Bool.false_ne_true other.1
  · exact List.forall_mem_singleton.2 proper

private theorem length_le_flatMap {α β : Type} {parts : α → List β} {list : List α}
    (some : ∀ item ∈ list, parts item ≠ []) : list.length ≤ (list.flatMap parts).length := by
  induction list with
  | nil => exact Nat.zero_le _
  | cons item rest ih =>
    obtain ⟨first, others⟩ := List.forall_mem_cons.1 some
    have positive := List.length_pos_iff.2 first
    have := ih others
    simp only [List.length_cons, List.flatMap_cons, List.length_append]
    omega

/-- A list that is kept flat is simplified if everything that contributes to it is. -/
theorem of_parts_flat (parts : List Node) (isFlat : node.kind.isFlat = true)
    (children : node.children = parts.flatMap (members node.kind)) (several : 2 ≤ parts.length)
    (simplified : ∀ part ∈ parts, IsSimplified false part)
    (proper : node.kind = .join → ∀ part ∈ parts, part.isEmptyBgp = false) :
    IsSimplified trailing node := by
  have ofChildren : ∀ child ∈ node.children, IsSimplified false child ∧ child.kind ≠ node.kind := by
    rw [children]
    intro child member
    obtain ⟨part, isPart, ofPart⟩ := List.mem_flatMap.1 member
    exact (simplified part isPart).mem_members isFlat child ofPart
  refine .mk ⟨fun _ => ?_, fun _ child member => (ofChildren child member).2, fun isJoin => ?_,
    fun isLeftJoin => ?_⟩ fun child member => ?_
  · rw [children]
    exact Nat.le_trans several
      (length_le_flatMap fun part isPart => (simplified part isPart).members_ne_nil isFlat)
  · refine .inl fun child member => ?_
    rw [children, isJoin] at member
    obtain ⟨part, isPart, ofPart⟩ := List.mem_flatMap.1 member
    exact (simplified part isPart).members_proper (proper isJoin part isPart) child ofPart
  · rw [isLeftJoin] at isFlat
    cases isFlat
  · rw [holdsTrailing_of_isFlat isFlat]
    exact (ofChildren child member).1

end IsSimplified

end Node

open Node (IsSimplified)

/-! ### Paths -/

namespace Path

variable {trailing : Bool}

theorem isSimplified_of_parts {path : Path} (notFlat : (Node.path path).kind.isFlat = false)
    (parts : ∀ child ∈ path.children, IsSimplified false child) :
    IsSimplified trailing (.path path) :=
  .of_parts notFlat (by cases path <;> nofun) parts

theorem isSimplified_leaf {path : Path} (none : path.children = [])
    (notFlat : (Node.path path).kind.isFlat = false) : IsSimplified trailing (.path path) := by
  refine isSimplified_of_parts notFlat ?_
  rw [none]
  exact List.forall_mem_nil _

/-- A list of paths that is kept flat is simplified if every path put into it is. -/
private theorem isSimplified_flattened {path : Path} {paths : List Path} {parts : Path → List Path}
    (isFlat : (Node.path path).kind.isFlat = true) (notJoin : (Node.path path).kind ≠ .join)
    (children : (Node.path path).children = (paths.flatMap parts).map Node.path)
    (contributes : ∀ part, (parts part).map Node.path =
      Node.members (Node.path path).kind (.path part))
    (several : 2 ≤ paths.length) (simplified : ∀ part ∈ paths, IsSimplified false (.path part)) :
    IsSimplified trailing (.path path) := by
  refine .of_parts_flat (paths.map Node.path) isFlat ?_ (by rwa [List.length_map])
    (List.forall_mem_map.2 simplified) fun isJoin => absurd isJoin notJoin
  rw [children, List.map_flatMap, List.flatMap_map]
  exact congrArg (paths.flatMap ·) (funext contributes)

theorem isSimplified_sequence {paths : List Path} (several : 2 ≤ paths.length)
    (simplified : ∀ path ∈ paths, IsSimplified false (.path path)) :
    IsSimplified trailing (.path (.sequence paths)) :=
  isSimplified_flattened rfl nofun rfl (fun path => by cases path <;> rfl) several simplified

theorem isSimplified_alternative {paths : List Path} (several : 2 ≤ paths.length)
    (simplified : ∀ path ∈ paths, IsSimplified false (.path path)) :
    IsSimplified trailing (.path (.alternative paths)) :=
  isSimplified_flattened rfl nofun rfl (fun path => by cases path <;> rfl) several simplified

end Path

/-! ### Operations -/

namespace Operation

/-- An operation without metadata in simplified form, which can be put together with others. -/
structure IsTidy (operation : Operation) : Prop where
  plain : operation.metadata = none
  simplified : IsSimplified false (.operation operation)

private theorem kind_combine {operator : Operator} {how : Combination}
    (same : operator.kind = how.kind) : ∃ inputs, operator = .combine how inputs := by
  cases operator with
  | combine other inputs =>
    refine ⟨inputs, ?_⟩
    cases how <;> cases other <;> first | rfl | cases same
  | wrap wrapper => cases how <;> cases wrapper <;> cases same
  | manage action =>
    cases how <;> rcases action with _ | _ | _ | _ | ⟨_ | _ | _, _, _, _⟩ <;> cases same
  | _ => cases how <;> cases same

/-- What an operation without metadata contributes to a combination. -/
theorem parts_eq_members {operation : Operation} (plain : operation.metadata = none)
    (how : Combination) :
    (operation.parts how).map Node.operation = Node.members how.kind (.operation operation) := by
  obtain ⟨operator, metadata⟩ := operation
  cases plain
  unfold Node.members
  split
  · rename_i same
    obtain ⟨inputs, rfl⟩ := kind_combine same
    rw [parts, if_pos rfl]
    rfl
  · rename_i other
    unfold parts
    split
    · rename_i kind inputs combination
      cases combination
      rw [if_neg fun same => other (congrArg Combination.kind same)]
      rfl
    · rfl

theorem isEmptyBgp_node (operation : Operation) :
    Node.isEmptyBgp (.operation operation) = operation.isEmptyBgp := by
  obtain ⟨operator, metadata⟩ := operation
  cases operator with
  | bgp patterns => cases patterns <;> rfl
  | wrap wrapper => cases wrapper <;> rfl
  | combine how => cases how <;> rfl
  | manage action => rcases action with _ | _ | _ | _ | ⟨_ | _ | _, _, _, _⟩ <;> rfl
  | _ => rfl

/-- Tidy operations are put together into one list. -/
theorem isTidy_combine {how : Combination} (isFlat : how.kind.isFlat = true)
    {inputs : List Operation} (several : 2 ≤ inputs.length) (tidy : ∀ input ∈ inputs, input.IsTidy)
    (proper : how = .join → ∀ input ∈ inputs, input.isEmptyBgp = false) :
    (Operation.of (.combine how (inputs.flatMap (parts how)))).IsTidy := by
  refine ⟨rfl, .of_parts_flat (inputs.map Node.operation) isFlat ?_
    (by rwa [List.length_map])
    (List.forall_mem_map.2 fun input member => (tidy input member).simplified)
    fun isJoin => List.forall_mem_map.2 fun input member => ?_⟩
  · show (inputs.flatMap (parts how)).map Node.operation = _
    rw [List.map_flatMap, List.flatMap_map]
    refine List.flatMap_congr fun input member => ?_
    exact parts_eq_members (tidy input member).plain how
  · rw [isEmptyBgp_node]
    exact proper (by cases how <;> first | rfl | cases isJoin) input member

theorem IsTidy.of_parts {operator : Operator} (notFlat : operator.kind.isFlat = false)
    (notLeftJoin : operator.kind ≠ .leftJoin)
    (parts : ∀ child ∈ operator.children, IsSimplified false child) :
    (Operation.of operator).IsTidy :=
  ⟨rfl, .of_parts notFlat notLeftJoin parts⟩

theorem isTidy_bgp (patterns : List Pattern) : (Operation.bgp patterns).IsTidy :=
  .of_parts rfl nofun (List.forall_mem_map.2 fun pattern _ => .pattern pattern)

theorem isTidy_path (subject object graph : Term) {predicate : Path}
    (simplified : IsSimplified false (.path predicate)) :
    (Operation.of (.path subject predicate object graph)).IsTidy :=
  .of_parts rfl nofun (List.forall_mem_singleton.2 simplified)

theorem isTidy_values (vars : List Variable) (rows : List Row) :
    (Operation.of (.values vars rows)).IsTidy :=
  .of_parts rfl nofun (List.forall_mem_nil _)

namespace IsTidy

variable {left right operation : Operation}

theorem filter (tidy : operation.IsTidy) {condition : Expression}
    (ofCondition : IsSimplified false (.expression condition)) :
    (Operation.of (.filter operation condition)).IsTidy :=
  .of_parts rfl nofun
    (List.forall_mem_cons.2 ⟨tidy.simplified, List.forall_mem_singleton.2 ofCondition⟩)

theorem extend (tidy : operation.IsTidy) (name : Variable) {value : Expression}
    (ofValue : IsSimplified false (.expression value)) :
    (Operation.of (.extend operation name value)).IsTidy :=
  .of_parts rfl nofun
    (List.forall_mem_cons.2 ⟨tidy.simplified, List.forall_mem_singleton.2 ofValue⟩)

theorem minus (ofLeft : left.IsTidy) (ofRight : right.IsTidy) :
    (Operation.of (.minus left right)).IsTidy :=
  .of_parts rfl nofun
    (List.forall_mem_cons.2 ⟨ofLeft.simplified, List.forall_mem_singleton.2 ofRight.simplified⟩)

theorem union (ofLeft : left.IsTidy) (ofRight : right.IsTidy) :
    (Operation.union [left, right]).IsTidy :=
  isTidy_combine rfl (Nat.le_refl 2)
    (List.forall_mem_cons.2 ⟨ofLeft, List.forall_mem_singleton.2 ofRight⟩) nofun

theorem simplifiedJoin (ofLeft : left.IsTidy) (ofRight : right.IsTidy) :
    (QueryAlgebra.simplifiedJoin left right).IsTidy := by
  by_cases merged : ∃ first second, left = ⟨.bgp first, none⟩ ∧ right = ⟨.bgp second, none⟩
  · obtain ⟨first, second, rfl, rfl⟩ := merged
    exact isTidy_bgp (first ++ second)
  · rw [simplifiedJoin_of_other merged]
    split
    · exact ofRight
    · rename_i leftProper
      split
      · exact ofLeft
      · rename_i rightProper
        refine isTidy_combine rfl (Nat.le_refl 2)
          (List.forall_mem_cons.2 ⟨ofLeft, List.forall_mem_singleton.2 ofRight⟩) fun _ => ?_
        exact List.forall_mem_cons.2 ⟨(Bool.not_eq_true _).mp leftProper,
          List.forall_mem_singleton.2 ((Bool.not_eq_true _).mp rightProper)⟩

/-- An optional part that is a filter becomes a condition. -/
theorem leftJoinOf (ofLeft : left.IsTidy) (ofRight : right.IsTidy) :
    (QueryAlgebra.leftJoinOf left right).IsTidy := by
  by_cases isFilter : ∃ input condition, right = ⟨.filter input condition, none⟩
  · obtain ⟨input, condition, rfl⟩ := isFilter
    obtain ⟨ofInput, ofCondition⟩ := List.forall_mem_cons.1 ofRight.simplified.child
    refine ⟨rfl, .mk ⟨nofun, nofun, nofun, fun _ _ _ pair => nomatch pair⟩ ?_⟩
    exact List.forall_mem_cons.2 ⟨ofLeft.simplified, List.forall_mem_cons.2 ⟨ofInput, ofCondition⟩⟩
  · rw [leftJoinOf_of_other isFilter]
    refine ⟨rfl, .mk ⟨nofun, nofun, nofun, fun _ _ _ pair => ?_⟩
      (List.forall_mem_cons.2 ⟨ofLeft.simplified, List.forall_mem_singleton.2 ofRight.simplified⟩)⟩
    obtain ⟨operator, metadata⟩ := right
    cases ofRight.plain
    cases pair
    intro kind
    cases operator with
    | filter input condition => exact isFilter ⟨input, condition, rfl⟩
    | wrap wrapper => cases wrapper <;> cases kind
    | combine how => cases how <;> cases kind
    | manage action => rcases action with _ | _ | _ | _ | ⟨_ | _ | _, _, _, _⟩ <;> cases kind
    | _ => cases kind

/-- Inline data at the end of a query may meet an empty basic graph pattern. -/
theorem joinTable (tidy : operation.IsTidy) (vars : List Variable) (rows : List Row) :
    IsSimplified true (.operation (.join [operation, .of (.values vars rows)])) := by
  have table := isTidy_values vars rows
  cases empty : operation.isEmptyBgp with
  | false =>
    have joined : (Operation.join [operation, .of (.values vars rows)]).IsTidy :=
      isTidy_combine rfl (Nat.le_refl 2)
        (List.forall_mem_cons.2 ⟨tidy, List.forall_mem_singleton.2 table⟩)
        fun _ => List.forall_mem_cons.2 ⟨empty, List.forall_mem_singleton.2 rfl⟩
    exact joined.simplified.anywhere
  | true =>
    have isBgp : operation = .bgp [] := by
      obtain ⟨operator, metadata⟩ := operation
      cases tidy.plain
      unfold isEmptyBgp at empty
      split at empty
      · rename_i same
        cases same
        rfl
      · cases empty
    subst isBgp
    refine .mk
      ⟨fun _ => Nat.le_refl 2, fun _ => ?_, fun _ => .inr ⟨rfl, _, _, rfl, rfl, rfl⟩, nofun⟩
      (List.forall_mem_cons.2 ⟨tidy.simplified, List.forall_mem_singleton.2 table.simplified⟩)
    exact List.forall_mem_cons.2 ⟨nofun, List.forall_mem_singleton.2 nofun⟩

end IsTidy

end Operation

end QueryAlgebra
