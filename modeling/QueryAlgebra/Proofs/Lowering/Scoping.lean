import QueryAlgebra.Proofs.Lowering.Translation
import QueryAlgebra.Proofs.Semantics.Interpretation

/-! # The scope of filters in optional parts

The simplified passage to the algebra has the solutions of the translation that the standard
describes, except where it takes the condition of an optional part from a group inside the part.
`Context.Harmless` says of such a place that the two left joins have the same solutions there. If
every such place is harmless then a pattern means what it should, and the operations of the elements
treated so far mean what they should throughout the pattern only if every such place is harmless.
-/

namespace QueryAlgebra

open Lowering (Agree Alike)

namespace Surface.Pattern

/-- The patterns directly inside a pattern. -/
def parts : Pattern → List Pattern
  | .group elements _ => elements
  | .optional body _ => [body]
  | .minus body _ => [body]
  | .union left right _ => [left, right]
  | _ => []

/-- Somewhere in a pattern there is a group in which an element follows others. -/
inductive Contains : Pattern → List Pattern → Pattern → Prop
  | here {before after : List Pattern} {element : Pattern} {span : Span} :
    Contains (.group (before ++ element :: after) span) before element
  | inside {pattern part : Pattern} {before : List Pattern} {element : Pattern}
    (member : part ∈ pattern.parts) (contains : Contains part before element) :
    Contains pattern before element

theorem isPlain_of_mem_parts {pattern part : Pattern} (plain : pattern.isPlain = true)
    (member : part ∈ pattern.parts) : part.isPlain = true := by
  cases pattern with
  | group elements span => exact allPlain_iff.1 plain part member
  | optional body span => rw [List.mem_singleton.1 member]; exact plain
  | minus body span => rw [List.mem_singleton.1 member]; exact plain
  | union left right span =>
    obtain ⟨leftPlain, rightPlain⟩ := Bool.and_eq_true_iff.1 plain
    rcases List.mem_cons.1 member with same | member
    · exact same ▸ leftPlain
    · exact List.mem_singleton.1 member ▸ rightPlain
  | _ => exact absurd member List.not_mem_nil

namespace Contains

variable {pattern : Pattern} {before : List Pattern} {element : Pattern}

theorem isPlain (contains : pattern.Contains before element) (plain : pattern.isPlain = true) :
    ∀ part ∈ before ++ [element], part.isPlain = true := by
  induction contains with
  | here =>
    intro part member
    apply isPlain_of_mem_parts plain
    simp only [parts, List.mem_append, List.mem_cons, List.not_mem_nil] at *
    tauto
  | inside member _ ih => exact ih (isPlain_of_mem_parts plain member)

/-- The elements before an element stand in the same group. -/
theorem earlier {mid : List Pattern} {first : Pattern}
    (contains : pattern.Contains (before ++ first :: mid) element) :
    pattern.Contains before first := by
  generalize whole : before ++ first :: mid = all at contains
  induction contains with
  | here =>
    subst whole
    rw [List.append_assoc, List.cons_append]
    exact .here
  | inside member _ ih => exact .inside member (ih whole)

/-- What an element contains is contained in the pattern around it. -/
theorem within {inner : List Pattern} {part : Pattern}
    (contains : pattern.Contains before element) (inElement : element.Contains inner part) :
    pattern.Contains inner part := by
  induction contains with
  | here => exact .inside (List.mem_append_right _ (List.mem_cons_self ..)) inElement
  | inside member _ ih => exact .inside member (ih inElement)

end Contains

end Surface.Pattern

namespace Context

variable (context : Context) (I : Interpretation)

/-- A pattern has the solutions that the standard describes, or both have the same error. -/
def Faithful (pattern : Surface.Pattern) : Prop :=
  Agree (fun lowered specified => lowered.solutions I = specified.solutions I)
    (context.pattern pattern) (context.specified pattern)

/-- The operations of the elements of a group so far have the solutions that the standard
describes, and the filters among them are the same. -/
def AllFaithful (elements : List Surface.Pattern) : Prop :=
  Agree (fun lowered specified => lowered.1.solutions I = specified.1.solutions I
      ∧ lowered.2 = specified.2)
    (context.elements elements (.bgp []) []) (context.specifiedElements elements (.bgp []) [])

/-- After some elements of a group, the condition that is taken from an optional part has the same
effect as a filter in the part. -/
def Harmless (before : List Surface.Pattern) (body : Surface.Pattern) : Prop :=
  ∀ supply middle last left filters right,
    context.elements before (.bgp []) [] supply = .ok (left, filters) middle →
    context.pattern body middle = .ok right last →
    (leftJoinOf left right).solutions I = (Operation.of (.leftJoin left right none)).solutions I

/-- No condition that is taken from a group inside an optional part has an effect of its own. -/
def KeepsScopes (pattern : Surface.Pattern) : Prop :=
  ∀ before body span, pattern.Contains before (.optional body span) → body.leaks = true →
    context.Harmless I before body

/-- At every point of every group in a pattern, the operations of the elements so far are
faithful. -/
def FaithfulThroughout (pattern : Surface.Pattern) : Prop :=
  ∀ before element, pattern.Contains before element → context.AllFaithful I (before ++ [element])

/-- The operations of a pattern have the same solutions; if the pattern has filters of its own,
both are filters by the same condition over operations with the same solutions. -/
private def Means (own : Bool) (lowered specified : Operation) : Prop :=
  lowered.solutions I = specified.solutions I
    ∧ (own = true → ∃ left right condition, lowered = .of (.filter left condition)
      ∧ specified = .of (.filter right condition) ∧ left.solutions I = right.solutions I)

/-- The pattern whose operation an element brings into its group. -/
private def operand : Surface.Pattern → Surface.Pattern
  | .optional body _ => body
  | .minus body _ => body
  | pattern => pattern

private theorem means_group {elements : List Surface.Pattern} {span : Surface.Span}
    (faithful : context.AllFaithful I elements) :
    Agree (Means I (Surface.Pattern.group elements span).hasFilters)
      (context.pattern (.group elements span))
      (context.specified (.group elements span)) := by
  rw [Context.pattern, specified]
  intro supply
  refine (faithful supply).bind ?_
  rintro ⟨left, filters⟩ ⟨right, _⟩ after success ⟨same, rfl⟩
  refine .ok ⟨?_, fun own => ?_⟩
  · rw [Operation.solutions_filtered, Operation.solutions_filtered, same]
  · have present := context.yields_filters elements (.bgp []) [] supply _ after success
    rw [Surface.Pattern.hasFilters] at own
    rw [own] at present
    cases filters with
    | nil => cases present
    | cons first rest => exact ⟨left, right, _, rfl, rfl, same⟩

/-- The condition of an optional part has its effect if it is the part's own or is harmless. -/
private theorem solutions_optional {own : Bool} {left right left' right' : Operation}
    (lefts : left.solutions I = left'.solutions I) (rights : Means I own right right')
    (same : own = false →
      (leftJoinOf left right).solutions I
        = (Operation.of (.leftJoin left right none)).solutions I) :
    (leftJoinOf left right).solutions I = (optionalJoin own left' right').solutions I := by
  cases own with
  | false =>
    rw [same rfl, optionalJoin, if_neg Bool.false_ne_true, Operation.solutions_leftJoin,
      Operation.solutions_leftJoin, lefts, rights.1]
  | true =>
    obtain ⟨input, input', condition, rfl, rfl, inputs⟩ := rights.2 rfl
    rw [optionalJoin, if_pos rfl]
    show (Operation.of (.leftJoin left input (some condition))).solutions I
      = (Operation.of (.leftJoin left' input' (some condition))).solutions I
    rw [Operation.solutions_leftJoin, Operation.solutions_leftJoin, lefts, inputs]

/-- One more element keeps the operations of the elements so far faithful. -/
private theorem allFaithful_snoc {before : List Surface.Pattern} {element : Surface.Pattern}
    (plain : element.isPlain = true) (faithful : context.AllFaithful I before)
    (means : Agree (Means I (operand element).hasFilters) (context.pattern (operand element))
      (context.specified (operand element)))
    (harmless : ∀ body span, element = .optional body span → body.leaks = true →
      context.Harmless I before body) :
    context.AllFaithful I (before ++ [element]) := by
  rw [AllFaithful, elements_append, specifiedElements_append]
  intro supply
  refine (faithful supply).bind ?_
  rintro ⟨left, filters⟩ ⟨left', _⟩ middle success ⟨lefts, rfl⟩
  by_cases member : element.isMember = true
  · have itself : operand element = element := by
      cases element with
      | optional | minus => cases member
      | _ => rfl
    rw [itself] at means
    simp only [elements_member context member, specifiedElements_member context member,
      elements, specifiedElements]
    refine (means middle).bind fun right right' last _ rights => .ok ⟨?_, rfl⟩
    rw [Operation.solutions_simplifiedJoin, lefts, rights.1, Operation.solutions_of,
      Operator.solutions_join]
    simp
  · cases element with
    | filter condition span =>
      simp only [elements, specifiedElements]
      exact Agree.same_bind (fun condition => Agree.pure ⟨lefts, rfl⟩) middle
    | optional body span =>
      simp only [elements, specifiedElements]
      refine (means middle).bind fun right right' last rightSuccess rights => .ok ⟨?_, rfl⟩
      refine solutions_optional I lefts rights fun notOwn => ?_
      by_cases leaks : body.leaks = true
      · exact harmless body span rfl leaks supply middle last left filters right success
          rightSuccess
      · have bodyPlain : body.isPlain = true := plain
        have shape := context.yields_shape bodyPlain middle right last rightSuccess
        have notOwn : body.hasFilters = false := notOwn
        rw [Operation.leftJoinOf_eq_of_shape]
        rw [shape]
        simpa [Surface.Pattern.leaks, notOwn] using leaks
    | minus body span =>
      simp only [elements, specifiedElements]
      refine (means middle).bind fun right right' last _ rights => .ok ⟨?_, rfl⟩
      rw [Operation.solutions_minus, Operation.solutions_minus, lefts, rights.1]
    | bind value name span =>
      simp only [elements, specifiedElements]
      refine Agree.same_bind (fun value => Agree.pure ⟨?_, rfl⟩) middle
      rw [Operation.solutions_extend, Operation.solutions_extend, lefts]
    | _ => exact absurd rfl member

/-- The elements of a group are faithful if their parts are and no condition does harm. -/
private theorem allFaithful_of_harmless {elements : List Surface.Pattern}
    (plain : ∀ element ∈ elements, element.isPlain = true)
    (means : ∀ element ∈ elements, Agree (Means I (operand element).hasFilters)
      (context.pattern (operand element)) (context.specified (operand element)))
    (harmless : ∀ before body span after, elements = before ++ .optional body span :: after →
      body.leaks = true → context.Harmless I before body) :
    context.AllFaithful I elements := by
  induction elements using List.reverseRecOn with
  | nil =>
    rw [AllFaithful, Context.elements, specifiedElements]
    exact Agree.pure ⟨rfl, rfl⟩
  | append_singleton before element ih =>
    have isLast : element ∈ before ++ [element] :=
      List.mem_append_right _ (List.mem_singleton_self element)
    refine context.allFaithful_snoc I (plain element isLast) ?_ (means element isLast) ?_
    · refine ih (fun other member => plain other (List.mem_append_left _ member))
        (fun other member => means other (List.mem_append_left _ member)) ?_
      intro earlier body span after same
      exact harmless earlier body span (after ++ [element]) (by rw [same]; simp)
    · rintro body span rfl
      exact harmless before body span [] rfl

/-- A pattern and its operand are faithful if no condition in it does harm. -/
private theorem means_of_harmless {pattern : Surface.Pattern} (plain : pattern.isPlain = true)
    (harmless : context.KeepsScopes I pattern) :
    Agree (Means I pattern.hasFilters) (context.pattern pattern) (context.specified pattern)
      ∧ Agree (Means I (operand pattern).hasFilters) (context.pattern (operand pattern))
        (context.specified (operand pattern)) := by
  -- A pattern that is no group means the same if the same is made of it.
  have same : ∀ {other : Surface.Pattern}, other.hasFilters = false →
      context.specified other = context.pattern other →
      Agree (Means I other.hasFilters) (context.pattern other) (context.specified other) := by
    intro other none equal
    rw [equal, none]
    exact Agree.refl (fun operation => ⟨rfl, fun own => absurd own Bool.false_ne_true⟩) _
  induction pattern using Surface.Pattern.induct with
  | group elements span ih =>
    have faithful : context.AllFaithful I elements := by
      refine context.allFaithful_of_harmless I (Surface.Pattern.allPlain_iff.1 plain) ?_ ?_
      · intro element member
        exact (ih element member (Surface.Pattern.allPlain_iff.1 plain element member)
          fun before body span contains => harmless before body span (.inside member contains)).2
      · rintro before body span after rfl
        exact harmless before body _ .here
    exact ⟨context.means_group I faithful, context.means_group I faithful⟩
  | optional body span ih =>
    refine ⟨same rfl (by rw [specified] <;> simp), (ih plain ?_).1⟩
    exact fun before inner span contains =>
      harmless before inner span (.inside (List.mem_singleton_self body) contains)
  | minus body span ih =>
    refine ⟨same rfl (by rw [specified] <;> simp), (ih plain ?_).1⟩
    exact fun before inner span contains =>
      harmless before inner span (.inside (List.mem_singleton_self body) contains)
  | union left right span ihLeft ihRight =>
    obtain ⟨leftPlain, rightPlain⟩ := Bool.and_eq_true_iff.1 plain
    have lefts := (ihLeft leftPlain fun before body span contains =>
      harmless before body span (.inside (List.mem_cons_self ..) contains)).1
    have rights := (ihRight rightPlain fun before body span contains =>
      harmless before body span
        (.inside (List.mem_cons_of_mem _ (List.mem_singleton_self right)) contains)).1
    have both : Agree (Means I false) (context.pattern (.union left right span))
        (context.specified (.union left right span)) := by
      rw [Context.pattern, specified]
      refine lefts.bind fun first first' ofLeft => ?_
      refine rights.bind fun second second' ofRight => Agree.pure ?_
      refine ⟨?_, fun own => absurd own Bool.false_ne_true⟩
      rw [Operation.solutions_union, Operation.solutions_of, Operator.solutions_union]
      simp [ofLeft.1, ofRight.1]
    exact ⟨both, both⟩
  | bgp | filter | bind | values =>
    exact ⟨same rfl (by rw [specified] <;> simp), same rfl (by rw [operand, specified] <;> simp)⟩
  | graph | service | subquery => cases plain

/-- A pattern is faithful if the elements so far are at every point inside it. -/
private theorem faithful_of_points {pattern : Surface.Pattern} (plain : pattern.isPlain = true)
    (points : context.FaithfulThroughout I pattern) : context.Faithful I pattern := by
  have same : ∀ {other : Surface.Pattern}, context.specified other = context.pattern other →
      context.Faithful I other := by
    intro other equal
    rw [Faithful, equal]
    apply Agree.refl
    intro operation
    rfl
  induction pattern using Surface.Pattern.induct with
  | group elements span ih =>
    have faithful : context.AllFaithful I elements := by
      cases elements using List.reverseRecOn with
      | nil =>
        rw [AllFaithful, Context.elements, specifiedElements]
        exact Agree.pure ⟨rfl, rfl⟩
      | append_singleton before element => exact points before element .here
    rw [Faithful, Context.pattern, specified]
    apply Agree.bind faithful
    rintro ⟨left, filters⟩ ⟨right, _⟩ ⟨lefts, rfl⟩
    apply Agree.pure
    rw [Operation.solutions_filtered, Operation.solutions_filtered, lefts]
  | union left right span ihLeft ihRight =>
    obtain ⟨leftPlain, rightPlain⟩ := Bool.and_eq_true_iff.1 plain
    have lefts := ihLeft leftPlain fun before element contains =>
      points before element (.inside (List.mem_cons_self ..) contains)
    have rights := ihRight rightPlain fun before element contains =>
      points before element
        (.inside (List.mem_cons_of_mem _ (List.mem_singleton_self right)) contains)
    rw [Faithful, Context.pattern, specified]
    refine Agree.bind lefts fun first first' ofLeft => ?_
    refine Agree.bind rights fun second second' ofRight => Agree.pure ?_
    rw [Operation.solutions_union, Operation.solutions_of, Operator.solutions_union]
    simp [ofLeft, ofRight]
  | bgp | optional | minus | filter | bind | values => exact same (by rw [specified] <;> simp)
  | graph | service | subquery => cases plain

/-- Where the elements so far are faithful throughout a pattern, no condition does harm. -/
private theorem harmless_of_points {pattern : Surface.Pattern} (plain : pattern.isPlain = true)
    (points : context.FaithfulThroughout I pattern) {before : List Surface.Pattern}
    {body : Surface.Pattern} {span : Surface.Span}
    (contains : pattern.Contains before (.optional body span)) (leaks : body.leaks = true) :
    context.Harmless I before body := by
  intro supply middle last left filters right leftSuccess rightSuccess
  have bodyPlain : body.isPlain = true := by
    have := contains.isPlain plain (.optional body span)
      (List.mem_append_right _ (List.mem_singleton_self _))
    exact this
  have beforeFaithful : context.AllFaithful I before := by
    cases before using List.reverseRecOn with
    | nil =>
      rw [AllFaithful, Context.elements, specifiedElements]
      exact Agree.pure ⟨rfl, rfl⟩
    | append_singleton earlier element =>
      exact points earlier element contains.earlier
  have bodyFaithful : context.Faithful I body :=
    context.faithful_of_points I bodyPlain fun inner element inBody =>
      points inner element (contains.within (.inside (List.mem_singleton_self body) inBody))
  -- Both passages come to this element with the same solutions, and the standard has no condition.
  obtain ⟨⟨left', filters'⟩, leftSuccess', lefts, rfl⟩ :=
    (leftSuccess ▸ beforeFaithful supply : Alike _ _ _).of_ok
  obtain ⟨right', rightSuccess', rights⟩ :=
    (rightSuccess ▸ bodyFaithful middle : Alike _ _ _).of_ok
  have whole := points before (.optional body span) contains supply
  rw [elements_append, specifiedElements_append, Lowering.bind_ok leftSuccess,
    Lowering.bind_ok leftSuccess'] at whole
  simp only [elements, specifiedElements] at whole
  rw [Lowering.bind_ok rightSuccess, Lowering.bind_ok rightSuccess'] at whole
  have notOwn : body.hasFilters = false := by
    simp only [Surface.Pattern.leaks, Bool.and_eq_true, Bool.not_eq_true'] at leaks
    exact leaks.1
  cases whole with
  | ok related =>
    simp only [notOwn, optionalJoin, Bool.false_eq_true, if_false] at related
    rw [related.1, Operation.solutions_leftJoin, Operation.solutions_leftJoin, lefts, rights]

/-- The elements so far are faithful at every point inside a pattern without harm. -/
private theorem points_of_harmless {pattern : Surface.Pattern} (plain : pattern.isPlain = true)
    (harmless : context.KeepsScopes I pattern) : context.FaithfulThroughout I pattern := by
  intro before element contains
  induction contains with
  | @here before after element span =>
    have elementsPlain := Surface.Pattern.allPlain_iff.1 plain
    have inside : ∀ part ∈ before ++ [element], part ∈ before ++ element :: after := by
      intro part member
      rw [List.append_cons]
      exact List.mem_append_left _ member
    refine context.allFaithful_of_harmless I
      (fun part member => elementsPlain part (inside part member)) ?_ ?_
    · intro part member
      have partHarmless : context.KeepsScopes I part := fun before body span contains =>
        harmless before body span (.inside (inside part member) contains)
      exact (context.means_of_harmless I (elementsPlain part (inside part member))
        partHarmless).2
    · intro earlier body span later same
      apply harmless earlier body span
      have whole : before ++ element :: after
          = earlier ++ .optional body span :: (later ++ after) := by
        rw [List.append_cons, same]
        simp
      rw [whole]
      exact .here
  | inside member _ ih =>
    exact ih (Surface.Pattern.isPlain_of_mem_parts plain member)
      fun before body span contains => harmless before body span (.inside member contains)

/-- The passage to the algebra keeps the solutions of a plain pattern that the standard describes,
or the error, if no filter of a nested group shows through an optional part. Over given quads and a
given evaluation of expressions, it does so throughout the pattern exactly if the conditions that
are taken from nested groups have no effect of their own. -/
theorem faithful_iff_keepsScopes {pattern : Surface.Pattern} (plain : pattern.isPlain = true) :
    ((∀ before body span, pattern.Contains before (.optional body span) → body.leaks = false) →
        ∀ I, context.Faithful I pattern)
      ∧ ∀ I, (context.KeepsScopes I pattern → context.Faithful I pattern)
        ∧ (context.FaithfulThroughout I pattern ↔ context.KeepsScopes I pattern) := by
  have faithful : ∀ I, context.KeepsScopes I pattern → context.Faithful I pattern :=
    fun I harmless =>
      context.faithful_of_points I plain (context.points_of_harmless I plain harmless)
  constructor
  · intro tight I
    apply faithful
    intro before body span contains leaks
    rw [tight before body span contains] at leaks
    cases leaks
  · intro I
    refine ⟨faithful I, ?_⟩
    constructor
    · intro points before body span contains leaks
      exact context.harmless_of_points I plain points contains leaks
    · exact context.points_of_harmless I plain

/-- The links of one predicate between two variables. -/
private def links (subject predicate object : String) : Surface.Pattern :=
  .bgp [⟨.term (.var ⟨subject⟩), .simple (.iri ⟨.full predicate, .none⟩), .term (.var ⟨object⟩)⟩]
    .none

/-- An optional part whose only element is a group with a filter about a variable outside:
`?x ex:p ?y OPTIONAL { { ?y ex:q ?z FILTER BOUND(?x) } }`. -/
def boundOutside : Surface.Pattern :=
  .group [links "x" "ex:p" "y", .optional (.group [.group [links "y" "ex:q" "z",
    .filter (.call (.builtin .bound) [.var ⟨"x"⟩] false) .none] .none] .none) .none] .none

/-- One link of each predicate, and conditions that ask whether a variable is bound. -/
def twoLinks : Interpretation where
  quads :=
    {⟨.iri ⟨"ex:a"⟩, .iri ⟨"ex:p"⟩, .iri ⟨"ex:b"⟩, .defaultGraph⟩,
      ⟨.iri ⟨"ex:b"⟩, .iri ⟨"ex:q"⟩, .iri ⟨"ex:c"⟩, .defaultGraph⟩}
  holds := fun
    | .call (.operator "bound") [.term (.var name)], row => (row.find? name.name).isSome
    | _, _ => false
  value := fun _ _ => none
  elsewhere := fun _ => 0

/-- The operation of `links`. -/
private def linksRead (subject predicate object : String) : Operation :=
  .bgp [⟨.var ⟨subject⟩, .iri ⟨predicate⟩, .var ⟨object⟩, .defaultGraph⟩]

/-- The filter of `boundOutside`. -/
private def outsideCondition : Expression :=
  .operator "bound" [.var ⟨"x"⟩]

/-- What `boundOutside` is read as: the filter has become the condition of the left join. -/
private def boundOutsideRead : Operation :=
  .of (.leftJoin (linksRead "x" "ex:p" "y") (linksRead "y" "ex:q" "z") (some outsideCondition))

/-- What the standard says of `boundOutside`: the filter stays in its group. -/
private def boundOutsideSpecified : Operation :=
  .of (.leftJoin (.of (.combine .join [.bgp [], linksRead "x" "ex:p" "y"]))
    (.of (.combine .join [.bgp [],
      .of (.filter (.of (.combine .join [.bgp [], linksRead "y" "ex:q" "z"]))
        outsideCondition)])) none)

/-- The filter of the nested group sees the variable of the outer group. -/
theorem not_faithful_boundOutside :
    boundOutside.isPlain = true ∧ ¬ (ofOptions .plain {}).Faithful twoLinks boundOutside := by
  refine ⟨by decide, fun faithful => ?_⟩
  have outcomes := faithful default
  have read : (ofOptions .plain {}).pattern boundOutside default
      = .ok boundOutsideRead default := rfl
  have specified : (ofOptions .plain {}).specified boundOutside default
      = .ok boundOutsideSpecified default := rfl
  rw [read, specified] at outcomes
  cases outcomes with
  | ok same =>
    have different : boundOutsideRead.solutions twoLinks
        ≠ boundOutsideSpecified.solutions twoLinks := by
      decide
    exact different same

theorem faithful_iff_keepsScopes_boundOutside :
    boundOutside.isPlain = true
      ∧ ((ofOptions .plain {}).FaithfulThroughout twoLinks boundOutside
        ↔ (ofOptions .plain {}).KeepsScopes twoLinks boundOutside) :=
  ⟨by decide, ((faithful_iff_keepsScopes _ (by decide)).2 twoLinks).2⟩

end Context

end QueryAlgebra
