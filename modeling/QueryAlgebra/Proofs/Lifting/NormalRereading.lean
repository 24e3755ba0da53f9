import QueryAlgebra.Proofs.Lifting.JoinedMembers

/-! # Operations that are written and read again

`Context.Restored` says of an operation that it is written as elements that are read as the
operation, but perhaps with new variables in place of some of its own; `Context.Retold` says so of
an expression. There is one lemma for each operator that may stand in a pattern.

An operation in normal form has no variables that are taken anew, and its elements are read as the
operation itself, under a context that makes terms as they are written and puts no graph names into
patterns: by induction over the normal form, `Context.normalInduction`.
-/

namespace QueryAlgebra

open Lowering (Renews)
open Surface.Pattern (Separate consMerged groupOf mergeTriples unionOf)

/-- Whether a pattern is a group. -/
def Surface.Pattern.isGroup : Surface.Pattern → Bool
  | .group .. => true
  | _ => false

/-- A group alone has not been put together from others. -/
theorem Surface.Pattern.length_of_mergeTriples_eq_group {elements : List Surface.Pattern}
    {element : Surface.Pattern} (isGroup : element.isGroup = true)
    (same : mergeTriples elements = [element]) : elements.length = 1 := by
  have none : ∀ {elements : List Surface.Pattern}, mergeTriples elements = [] → elements = [] := by
    intro elements empty
    cases elements with
    | nil => rfl
    | cons head rest =>
      rw [mergeTriples] at empty
      unfold consMerged at empty
      split at empty <;> cases empty
  cases elements with
  | nil => cases same
  | cons head rest =>
    rw [mergeTriples] at same
    unfold consMerged at same
    split at same
    · cases same
      cases isGroup
    · obtain ⟨-, empty⟩ := List.cons.inj same
      rw [none empty]
      rfl

namespace Context

/-- The elements that an operation is written as, which are read as the operation. What is said of
joins depends on its role in them. -/
structure Restores (context : Context) (sure : Prop) (known : Variable → Prop)
    (operation : Operation) (elements : List Surface.Pattern) (names : List Variable) : Prop where
  written : (operation.written false).asElements = pure elements
  reads : Renews sure known names
    (fun related result => operation.Corresponds related result.1 ∧ result.2 = [])
    (context.elements elements (.bgp []) [])
  separate : elements.IsChain Separate
  joins : operation.role = .triples ∨ operation.role = .member →
    context.ReadsJoin sure known elements [operation] names
  overlays : operation.role = .overlay →
    ∃ before last, elements = before ++ [last] ∧ last.isTriples = false
  present : operation.Kept → elements ≠ []
  alone : operation.isFilter = false → ∀ element, elements = [element] → element.isGroup = false

/-- An operation is written as elements that are read as it. -/
def Restored (context : Context) (sure : Prop) (known : Variable → Prop) (operation : Operation)
    (names : List Variable) : Prop :=
  ∃ elements, context.Restores sure known operation elements names

/-- An expression is written as one that is read as it. -/
def Retold (context : Context) (sure : Prop) (known : Variable → Prop) (expression : Expression)
    (names : List Variable) : Prop :=
  ∃ written, expression.written = pure written
    ∧ Renews sure known names (fun related value => expression.Corresponds related value)
      (context.expression written)

variable {context : Context} {sure : Prop} {known : Variable → Prop}
  {names more rest : List Variable} {operation input left right : Operation} {elements : List Surface.Pattern}

private theorem asElements_elements (elements : List Surface.Pattern) :
    Collecting.asElements (pure (.elements elements)) = pure elements := rfl

private theorem kept_of_role (role : operation.role = .triples ∨ operation.role = .member) :
    operation.Kept := by
  rcases role with role | role <;> rw [Operation.Kept, role] <;> decide

namespace Restores

/-- An operation with one element that is read as the member that it is. -/
theorem single {element : Surface.Pattern}
    (written : (operation.written false).asElements = pure [element])
    (reads : context.ReadsMembers sure known element [operation] names)
    (role : operation.role = .triples ∨ operation.role = .member)
    (alone : operation.isFilter = false → element.isGroup = false) :
    context.Restores sure known operation [element] names := by
  have joins : context.ReadsJoin sure known [element] [operation] names := by
    have alone : context.ReadsJoin sure known [element] ([operation] ++ []) (names ++ []) :=
      .cons reads .nil
    rwa [List.append_nil, List.append_nil] at alone
  refine ⟨written, ?_, .singleton element, fun _ => joins, fun isOverlay => ?_,
    fun _ => List.cons_ne_nil _ _, fun other _ same =>
      List.singleton_inj.1 same ▸ alone other⟩
  · refine (joins.elements [] (List.forall_mem_singleton.2 (kept_of_role role))
      (.singleton operation) (.bgp []) []).imp fun related result holds => ?_
    exact holds (.bgp .nil)
  · rcases role with role | role <;> rw [role] at isOverlay <;> cases isOverlay

/-- An operation that is laid over an input, by an element after those of the input. -/
theorem overlay (restores : context.Restores sure known input elements names)
    {last : Surface.Pattern}
    (written : (operation.written false).asElements = pure (elements ++ [last]))
    (reads : ∀ before filters, Renews sure known more (fun related result =>
        input.Corresponds related before →
          operation.Corresponds related result.1 ∧ result.2 = filters)
      (context.elements [last] before filters))
    (role : operation.role = .overlay) (other : last.isTriples = false)
    (ungrouped : last.isGroup = false) :
    context.Restores sure known operation (elements ++ [last]) (names ++ more) where
  written := written
  reads := by
    rw [elements_append]
    refine restores.reads.bind fun result => (reads result.1 result.2).imp ?_
    rintro related value holds ⟨correspond, none⟩
    exact none ▸ holds correspond
  separate := by
    refine restores.separate.append (.singleton last) ?_
    rintro _ _ _ ⟨⟩ ⟨_, isTriples⟩
    rw [other] at isTriples
    cases isTriples
  joins isPart := by
    rw [role] at isPart
    rcases isPart with isPart | isPart <;> cases isPart
  overlays _ := ⟨elements, last, rfl, other⟩
  present _ := List.append_ne_nil_of_right_ne_nil _ (List.cons_ne_nil _ _)
  alone _ element same := by
    have isLast : some last = some element := by
      rw [← List.getLast?_concat, same]
      rfl
    exact Option.some.inj isLast ▸ ungrouped

/-- The elements of an operation in a group are read as it. -/
theorem read (restores : context.Restores sure known operation elements names) :
    Renews sure known names (fun related value => operation.Corresponds related value)
      (context.pattern (.group elements .none)) := by
  rw [Context.pattern]
  refine restores.reads.map ?_
  rintro related ⟨value, filters⟩ ⟨correspond, rfl⟩
  exact correspond

/-- The group of the elements of an operation is read as it. -/
theorem group (restores : context.Restores sure known operation elements names) :
    Renews sure known names (fun related value => operation.Corresponds related value)
      (context.pattern (groupOf elements)) := by
  rw [pattern_groupOf]
  exact restores.read

/-- The group of the elements of an operation and a filter is read as the filter of the
operation. -/
theorem filtered (restores : context.Restores sure known operation elements names)
    {condition : Surface.Expression} {expression : Expression}
    (reads : Renews sure known more (fun related value => expression.Corresponds related value)
      (context.expression condition)) :
    Renews sure known (names ++ more)
      (fun related value => (Operation.of (.filter operation expression)).Corresponds related value)
      (context.pattern (.group (elements ++ [.filter condition .none]) .none)) := by
  rw [Context.pattern, elements_append, bind_assoc]
  refine restores.reads.bind fun result => ?_
  simp only [Context.elements, bind_assoc, pure_bind]
  refine reads.map ?_
  obtain ⟨value, filters⟩ := result
  rintro related condition ofCondition ⟨ofOperation, rfl⟩
  exact .mk none (.filter ofOperation ofCondition)

end Restores

namespace Restored

/-! ### One case for each operator -/

theorem bgp (plain : context.MakesPlain) {patterns : List Pattern}
    (normal : (Operation.bgp patterns).isNormal = true)
    (isKnown : AllKnown known (Operation.bgp patterns).localNames) :
    context.Restored sure known (.bgp patterns) [] := by
  obtain ⟨triples, written, reads⟩ := patterns_spelled plain normal
  cases patterns with
  | nil =>
    refine ⟨[], ?_, ?_, .nil, fun isPart => ?_, fun isOverlay => ?_, fun kept => ?_,
      fun _ _ same => (List.cons_ne_nil _ _ same.symm).elim⟩
    · rfl
    · rw [Context.elements]
      exact .pure fun _ _ => ⟨.bgp .nil, rfl⟩
    · rcases isPart with isPart | isPart <;> cases isPart
    · cases isOverlay
    · exact absurd rfl kept
  | cons head rest =>
    refine ⟨[.bgp triples .none], .single ?_
      (.run ?_ ?_ (List.forall_mem_singleton.2 isKnown)) (.inl rfl)
      fun _ => rfl⟩
    · show Collecting.asElements (do
        let triples ← Pattern.allWritten (head :: rest)
        pure (.elements [.bgp triples .none]) : Collecting Lifted) = _
      rw [written]
      rfl
    · exact List.forall_mem_singleton.2 rfl
    · rw [List.flatMap_singleton]
      exact reads

theorem path (plain : context.MakesPlain) {subject object graph : Term} {predicate : Path}
    (normal : (Operation.of (.path subject predicate object graph)).isNormal = true)
    (isKnown : AllKnown known (Operation.of (.path subject predicate object graph)).localNames) :
    context.Restored sure known (.of (.path subject predicate object graph)) [] := by
  have conditions : (subject.isSpellable && predicate.isNormal && predicate.isRoute
    && object.isSpellable && graph.isDefaultGraph) = true := normal
  simp only [Bool.and_eq_true] at conditions
  obtain ⟨⟨⟨⟨ofSubject, ofPredicate⟩, route⟩, ofObject⟩, inDefault⟩ := conditions
  obtain ⟨subject', predicate', object', writtenSubject, writtenPredicate, writtenObject, reads⟩ :=
    route_written plain ofSubject ofPredicate route ofObject
  obtain rfl := Term.eq_defaultGraph inDefault
  refine ⟨[.bgp [⟨.term subject', .path predicate', .term object'⟩] .none],
    .single ?_ (.run ?_ ?_ (List.forall_mem_singleton.2 isKnown)) (.inr rfl)
      fun _ => rfl⟩
  · rw [Operation.of, Operation.written, Operator.written, if_pos inDefault, writtenSubject,
      writtenPredicate, writtenObject]
    rfl
  · exact List.forall_mem_singleton.2 rfl
  · rw [List.flatMap_singleton]
    exact reads

/-- An operation that is written as one element, which is joined to others as it is read. -/
theorem member (element : Surface.Pattern)
    (written : (operation.written false).asElements = pure [element])
    (isMember : element.isMember = true) (other : element.isTriples = false)
    (role : operation.role = .member)
    (alone : operation.isFilter = false → element.isGroup = false)
    (reads : Renews sure known names (fun related value => operation.Corresponds related value)
      (context.pattern element)) :
    context.Restored sure known operation names :=
  ⟨[element], .single written (.member isMember other reads) (.inr role) alone⟩

theorem values (plain : context.MakesPlain) {vars : List Variable} {rows : List Row}
    (normal : (Operation.of (.values vars rows)).isNormal = true)
    (isKnown : AllKnown known (Operation.of (.values vars rows)).localNames) :
    context.Restored sure known (.of (.values vars rows)) [] := by
  obtain ⟨cells, written, reads⟩ := values_spelled plain normal
  refine member (.values ⟨vars, cells⟩ .none) ?_ rfl rfl rfl (fun _ => rfl) ?_
  · rw [Operation.of, Operation.written, Operator.written, written]
    rfl
  · have read : context.pattern (.values ⟨vars, cells⟩ .none) = pure (.of (.values vars rows)) := by
      rw [Context.pattern, reads]
    exact .of_eq read fun related keep => Operation.corresponds_self (isKnown.itself keep)

theorem graph (plain : context.MakesPlain) (triples : context.quads = false) {name : Term}
    (writable : name.isWritableName = true) (isKnown : AllKnown known name.localNames)
    (restored : context.Restored sure known input names) :
    context.Restored sure known (input.graph name) names := by
  obtain ⟨elements, restores⟩ := restored
  obtain ⟨name', writtenName, readName⟩ := varOrIri_written plain writable
  refine member (.graph name' (groupOf elements) .none) ?_ rfl rfl rfl (fun _ => rfl) ?_
  · rw [Operation.graph, Operation.of, Operation.written, Operator.written, writtenName,
      restores.written]
    rfl
  · rw [Context.pattern, readName, triples]
    exact restores.group.map_of_keep fun related keep value holds =>
      .mk none (.wrap (.graph (Term.corresponds_self (isKnown.itself keep))) holds)

theorem service (plain : context.MakesPlain) {name : Term} {silent : Bool}
    (writable : name.isWritableName = true) (isKnown : AllKnown known name.localNames)
    (restored : context.Restored sure known input names) :
    context.Restored sure known (.of (.wrap (.service name silent) input)) names := by
  obtain ⟨elements, restores⟩ := restored
  obtain ⟨name', writtenName, readName⟩ := varOrIri_written plain writable
  refine member (.service silent name' (groupOf elements) .none) ?_ rfl rfl rfl (fun _ => rfl) ?_
  · rw [Operation.of, Operation.written, Operator.written, writtenName, restores.written]
    rfl
  · rw [Context.pattern, readName]
    exact restores.group.map_of_keep fun related keep value holds =>
      .mk none (.wrap (.service silent (Term.corresponds_self (isKnown.itself keep))) holds)

theorem filter {condition : Expression} (restored : context.Restored sure known input names)
    (retold : context.Retold sure known condition more) :
    context.Restored sure known (.of (.filter input condition)) (names ++ more) := by
  obtain ⟨elements, restores⟩ := restored
  obtain ⟨condition', writtenCondition, readCondition⟩ := retold
  refine member (.group (elements ++ [.filter condition' .none]) .none) ?_ rfl rfl rfl
    (fun other => by cases other) (restores.filtered readCondition)
  rw [Operation.of, Operation.written, Operator.written, restores.written,
    pure_bind, writtenCondition, pure_bind,
    asElements_elements]

theorem extend (plain : context.MakesPlain) {name : Variable} {value : Expression}
    (isKnown : known name) (restored : context.Restored sure known input names)
    (retold : context.Retold sure known value more) :
    context.Restored sure known (.of (.extend input name value)) (names ++ more) := by
  obtain ⟨elements, restores⟩ := restored
  obtain ⟨value', writtenValue, readValue⟩ := retold
  refine ⟨elements ++ [.bind value' name .none],
    restores.overlay ?_ (fun before filters => ?_) rfl rfl rfl⟩
  · rw [Operation.of, Operation.written, Operator.written, if_neg Bool.false_ne_true,
      restores.written, pure_bind, writtenValue, pure_bind, asElements_elements]
  · simp only [Context.elements, var_eq plain]
    exact readValue.map_of_keep fun related keep value ofValue ofInput =>
      ⟨.mk none (.extend ofInput (keep.known name isKnown) ofValue), rfl⟩

theorem minus (ofLeft : context.Restored sure known left names)
    (ofRight : context.Restored sure known right more) :
    context.Restored sure known (.of (.minus left right)) (names ++ more) := by
  obtain ⟨elements, restores⟩ := ofLeft
  obtain ⟨removed, restoresRight⟩ := ofRight
  refine ⟨elements ++ [.minus (groupOf removed) .none],
    restores.overlay ?_ (fun before filters => ?_) rfl rfl rfl⟩
  · rw [Operation.of, Operation.written, Operator.written, restores.written,
      restoresRight.written, pure_bind, pure_bind, asElements_elements]
  · simp only [Context.elements]
    exact restoresRight.group.map fun related value ofRight ofLeft =>
      ⟨.mk none (.minus ofLeft ofRight), rfl⟩

/-- An optional part that is read is laid over the input with its filter as the condition. -/
private theorem leftJoin {condition : Option Expression} {filters optional : List Surface.Pattern}
    (ofLeft : context.Restored sure known left names)
    (writtenRight : (right.written false).asElements = pure optional)
    (written : Expression.optionalFilter condition = pure filters) (body : Operation)
    (reads : Renews sure known more (fun related value => body.Corresponds related value)
      (context.pattern (.group (optional ++ filters) .none)))
    (joined : leftJoinOf left body = .of (.leftJoin left right condition)) :
    context.Restored sure known (.of (.leftJoin left right condition)) (names ++ more) := by
  obtain ⟨elements, restores⟩ := ofLeft
  refine ⟨elements ++ [.optional (.group (optional ++ filters) .none) .none],
    restores.overlay ?_ (fun before kept => ?_) rfl rfl rfl⟩
  · rw [Operation.of, Operation.written, Operator.written, restores.written, writtenRight,
      pure_bind, pure_bind, written, pure_bind, asElements_elements]
  · simp only [Context.elements]
    exact reads.map fun related value ofRight ofLeft =>
      ⟨joined ▸ ofLeft.leftJoinOf ofRight, rfl⟩

theorem optional (other : right.isFilter = false) (ofLeft : context.Restored sure known left names)
    (ofRight : context.Restored sure known right more) :
    context.Restored sure known (.of (.leftJoin left right none)) (names ++ more) := by
  obtain ⟨optional, restores⟩ := ofRight
  have unfiltered : Expression.optionalFilter none = pure [] := rfl
  refine leftJoin ofLeft restores.written unfiltered right ?_ ?_
  · rw [List.append_nil]
    exact restores.read
  · unfold leftJoinOf
    split
    · cases other
    · rfl

theorem conditional {condition : Expression} (ofLeft : context.Restored sure known left names)
    (ofRight : context.Restored sure known right more)
    (retold : context.Retold sure known condition rest) :
    context.Restored sure known (.of (.leftJoin left right (some condition)))
      (names ++ (more ++ rest)) := by
  obtain ⟨optional, restores⟩ := ofRight
  obtain ⟨condition', writtenCondition, readCondition⟩ := retold
  have written : Expression.optionalFilter (some condition)
      = pure [.filter condition' .none] := by
    rw [Expression.optionalFilter, writtenCondition, pure_bind]
  exact leftJoin ofLeft restores.written written _ (restores.filtered readCondition) rfl

/-! ### Joins and unions -/

/-- The elements of operations, each list with the operation that it restores. -/
private theorem allElements {inputs : List Operation} {namesOf : Operation → List Variable}
    (restored : ∀ input ∈ inputs, context.Restored sure known input (namesOf input)) :
    ∃ parts, Operation.allElements inputs = pure parts
      ∧ List.Forall₂ (fun part input =>
        context.Restores sure known input part (namesOf input)) parts inputs := by
  induction inputs with
  | nil => exact ⟨[], by rw [Operation.allElements], .nil⟩
  | cons input rest ih =>
    rw [List.forall_mem_cons] at restored
    obtain ⟨elements, restores⟩ := restored.1
    obtain ⟨parts, written, others⟩ := ih restored.2
    refine ⟨elements :: parts, ?_, .cons restores others⟩
    rw [Operation.allElements, restores.written, pure_bind, written, pure_bind]

private theorem readsJoin_flatten {parts : List (List Surface.Pattern)} {inputs : List Operation}
    {namesOf : Operation → List Variable}
    (restore : List.Forall₂ (fun part input =>
      context.Restores sure known input part (namesOf input)) parts inputs)
    (roles : ∀ input ∈ inputs, input.role = .triples ∨ input.role = .member) :
    context.ReadsJoin sure known parts.flatten inputs (inputs.flatMap namesOf) := by
  induction restore with
  | nil => exact .nil
  | @cons part input parts inputs restores _ ih =>
    rw [List.forall_mem_cons] at roles
    exact (restores.joins roles.1).append (ih roles.2)

/-- What the inputs of a flat join are to it: only the first may be laid over what comes before, and
all others are members that stay apart. -/
private theorem roles_of_joinsFlat {first : Operation} {rest : List Operation}
    (flat : Operation.joinsFlat (first :: rest) = true) :
    2 ≤ (first :: rest).length ∧ (∀ input ∈ first :: rest, input.Kept)
      ∧ (∀ input ∈ rest, input.role = .triples ∨ input.role = .member)
      ∧ (first :: rest).IsChain Operation.Apart := by
  simp only [Operation.joinsFlat, Bool.and_eq_true, decide_eq_true_eq, List.all_eq_true,
    List.tail_cons] at flat
  obtain ⟨⟨⟨several, kept⟩, standing⟩, apart⟩ := flat
  refine ⟨several, kept, fun input isInput => ?_, apart⟩
  have keeps := kept input (List.mem_cons_of_mem _ isInput)
  have stands := standing input isInput
  cases role : input.role with
  | triples => exact .inl rfl
  | member => exact .inr rfl
  | overlay => exact absurd role stands
  | absorbed => exact absurd role keeps

/-- Elements of which only one is left when adjacent triples are together are no group, if they are
those of several inputs. -/
private theorem not_group_of_joined {parts : List (List Surface.Pattern)} {inputs : List Operation}
    {namesOf : Operation → List Variable}
    (restore : List.Forall₂ (fun part input =>
      context.Restores sure known input part (namesOf input)) parts inputs)
    (flat : Operation.joinsFlat inputs = true) {element : Surface.Pattern}
    (same : mergeTriples parts.flatten = [element]) : element.isGroup = false := by
  rw [Bool.eq_false_iff]
  intro isGroup
  rcases restore with _ | @⟨part, first, _, _, ofFirst, restore⟩
  · cases flat
  obtain ⟨several, kept, -, -⟩ := roles_of_joinsFlat flat
  rcases restore with _ | @⟨next, second, parts, rest, ofSecond, restore⟩
  · exact absurd several (by simp)
  have one := Surface.Pattern.length_of_mergeTriples_eq_group isGroup same
  have some := List.length_pos_of_ne_nil (ofFirst.present (kept _ (by simp)))
  have more := List.length_pos_of_ne_nil (ofSecond.present (kept _ (by simp)))
  simp only [List.flatten_cons, List.length_append] at one
  omega

theorem join {inputs : List Operation} {namesOf : Operation → List Variable}
    (flat : Operation.joinsFlat inputs = true)
    (restored : ∀ input ∈ inputs, context.Restored sure known input (namesOf input)) :
    context.Restored sure known (.of (.combine .join inputs)) (inputs.flatMap namesOf) := by
  obtain ⟨parts, written, restore⟩ := allElements restored
  have reads : Renews sure known (inputs.flatMap namesOf) (fun related result =>
      (Operation.of (.combine .join inputs)).Corresponds related result.1 ∧ result.2 = [])
      (context.elements (mergeTriples parts.flatten) (.bgp []) []) := by
    rcases restore with _ | @⟨elements, first, parts, rest, restores, others⟩
    · cases flat
    obtain ⟨several, kept, roles, apart⟩ := roles_of_joinsFlat flat
    have ofRest := readsJoin_flatten others roles
    rw [← Operation.joined_of_several several]
    by_cases role : first.role = .overlay
    · -- What is laid over others ends in an element of its own, so no triples join those after it.
      obtain ⟨before, last, rfl, other⟩ := restores.overlays role
      rw [List.flatten_cons, Surface.Pattern.mergeTriples_after restores.separate other,
        elements_append, List.flatMap_cons]
      refine restores.reads.bind fun result =>
        (ofRest.merged.elements [first] kept apart result.1 result.2).imp ?_
      rintro related value holds ⟨correspond, none⟩
      exact none ▸ holds correspond
    · have ofFirst : first.role = .triples ∨ first.role = .member := by
        have keeps := kept first (List.mem_cons_self ..)
        cases same : first.role with
        | triples => exact .inl rfl
        | member => exact .inr rfl
        | overlay => exact absurd same role
        | absorbed => exact absurd same keeps
      refine (((restores.joins ofFirst).append ofRest).merged.elements [] kept apart (.bgp [])
        []).imp fun related result holds => ?_
      exact holds (.bgp .nil)
  refine ⟨mergeTriples parts.flatten, ?_, reads, Surface.Pattern.separate_mergeTriples _,
    fun isPart => ?_, fun isOverlay => ?_, fun kept => absurd rfl kept, fun _ element same => ?_⟩
  · rw [Operation.of, Operation.written, Operator.written]
    simp only [written, pure_bind, asElements_elements]
  · rcases isPart with isPart | isPart <;> cases isPart
  · cases isOverlay
  · exact not_group_of_joined restore flat same

private theorem parts_union (other : operation.isUnion = false) :
    operation.parts .union = [operation] := by
  unfold Operation.parts
  split
  · rename_i how inputs
    cases how with
    | union => cases other
    | join | updates => rfl
  · rfl

/-- A union and one more branch are one union. -/
private theorem union_concat {done : List Operation} (other : operation.isUnion = false) :
    Operation.union [.of (.combine .union done), operation]
      = .of (.combine .union (done ++ [operation])) := by
  rw [Operation.union, List.flatMap_cons, List.flatMap_singleton, parts_union other]
  rfl

/-- Groups nested as a union to the left are read as the union of their operations. -/
private theorem nested_union {parts : List (List Surface.Pattern)} {inputs : List Operation}
    {namesOf : Operation → List Variable}
    (restore : List.Forall₂ (fun part input =>
      context.Restores sure known input part (namesOf input)) parts inputs)
    (others : ∀ input ∈ inputs, input.isUnion = false) {left right : Surface.Pattern}
    {done : List Operation}
    (reads : Renews sure known names
      (fun related value => (Operation.of (.combine .union done)).Corresponds related value)
      (context.pattern (.union left right .none))) :
    ∃ left' right', (parts.map groupOf).foldl (fun left right => .union left right .none)
        (.union left right .none) = Surface.Pattern.union left' right' .none
      ∧ Renews sure known (names ++ inputs.flatMap namesOf) (fun related value =>
          (Operation.of (.combine .union (done ++ inputs))).Corresponds related value)
        (context.pattern (.union left' right' .none)) := by
  induction restore generalizing left right done names with
  | nil =>
    refine ⟨left, right, rfl, ?_⟩
    rwa [List.flatMap_nil, List.append_nil, List.append_nil]
  | @cons part input parts inputs restores _ ih =>
    rw [List.forall_mem_cons] at others
    have readNext : Renews sure known (names ++ namesOf input) (fun related value =>
        (Operation.of (.combine .union (done ++ [input]))).Corresponds related value)
        (context.pattern (.union (.union left right .none) (groupOf part) .none)) := by
      rw [Context.pattern]
      refine reads.bind fun first => restores.group.map fun related second ofSecond ofFirst => ?_
      rw [← union_concat others.1]
      exact .union (.cons ofFirst (.cons ofSecond .nil))
    obtain ⟨left', right', nested, read⟩ := ih others.2 readNext
    refine ⟨left', right', nested, ?_⟩
    rwa [List.append_assoc, List.append_assoc, List.singleton_append] at read

theorem union {inputs : List Operation} {namesOf : Operation → List Variable}
    (several : 2 ≤ inputs.length) (others : ∀ input ∈ inputs, input.isUnion = false)
    (restored : ∀ input ∈ inputs, context.Restored sure known input (namesOf input)) :
    context.Restored sure known (.of (.combine .union inputs)) (inputs.flatMap namesOf) := by
  obtain ⟨parts, written, restore⟩ := allElements restored
  rcases restore with _ | @⟨part, first, _, _, ofFirst, restore⟩
  · exact absurd several (by decide)
  rcases restore with _ | @⟨next, second, parts, rest, ofSecond, restore⟩
  · exact absurd several (by simp)
  simp only [List.forall_mem_cons] at others
  have readBoth : Renews sure known (namesOf first ++ namesOf second) (fun related value =>
      (Operation.of (.combine .union [first, second])).Corresponds related value)
      (context.pattern (.union (groupOf part) (groupOf next) .none)) := by
    rw [Context.pattern]
    refine ofFirst.group.bind fun value => ofSecond.group.map fun related value' ofNext ofPart => ?_
    have whole : Operation.union [first, second] = .of (.combine .union [first, second]) := by
      rw [Operation.union, List.flatMap_cons, List.flatMap_singleton, parts_union others.1,
        parts_union others.2.1]
      rfl
    rw [← whole]
    exact .union (.cons ofPart (.cons ofNext .nil))
  obtain ⟨left, right, nested, read⟩ := nested_union restore others.2.2 readBoth
  rw [List.append_assoc] at read
  refine member (.union left right .none) ?_ rfl rfl rfl (fun _ => rfl) read
  rw [Operation.of, Operation.written, Operator.written]
  simp only [written, pure_bind, asElements_elements]
  exact congrArg (fun element => pure [element]) nested

end Restored

/-! ### Expressions -/

namespace Retold

theorem term (plain : context.MakesPlain) {value : Term}
    (normal : (Expression.term value).isNormal = true) (isKnown : AllKnown known value.localNames) :
    context.Retold sure known (.term value) [] := by
  have writable : (Expression.term value).isWritable = true := by
    match value, normal with
    | .var _, _ => rfl
    | .iri _, normal => exact normal
    | .literal _, normal => exact normal
  obtain ⟨written, success, read⟩ := expression_written plain writable
  exact ⟨written, success, .of_eq read fun related keep =>
    .term (Term.corresponds_self (isKnown.itself keep))⟩

private theorem all {expressions : List Expression} {namesOf : Expression → List Variable}
    (retold : ∀ expression ∈ expressions,
      context.Retold sure known expression (namesOf expression)) :
    ∃ written, Expression.allWritten expressions = pure written
      ∧ written.length = expressions.length
      ∧ Renews sure known (expressions.flatMap namesOf)
        (fun related values => List.Forall₂ (Expression.Corresponds related) expressions values)
        (context.expressions written) := by
  induction expressions with
  | nil =>
    refine ⟨[], by rw [Expression.allWritten], rfl, ?_⟩
    rw [Context.expressions]
    exact .pure fun _ _ => .nil
  | cons expression rest ih =>
    rw [List.forall_mem_cons] at retold
    obtain ⟨first, success, read⟩ := retold.1
    obtain ⟨others, successes, lengths, reads⟩ := ih retold.2
    refine ⟨first :: others, ?_, congrArg (· + 1) lengths, ?_⟩
    · rw [Expression.allWritten, success, successes, pure_bind, pure_bind]
    · rw [Context.expressions]
      exact read.bind fun value => reads.map fun related values ofRest ofFirst =>
        .cons ofFirst ofRest

/-- A call of which the arguments are read. -/
private theorem of_arguments {callee : Callee} {arguments : List Expression}
    {written : List Surface.Expression} {whole : Surface.Expression}
    (success : (Expression.call callee arguments).written = pure whole)
    (read : context.expression whole = (do
      let values ← context.expressions written
      pure (.call callee values)))
    (reads : Renews sure known names
      (fun related values => List.Forall₂ (Expression.Corresponds related) arguments values)
      (context.expressions written)) :
    context.Retold sure known (.call callee arguments) names := by
  refine ⟨whole, success, ?_⟩
  rw [read]
  exact reads.map fun related values correspond => .call callee correspond

theorem operatorCall {name : String} {arguments : List Expression}
    {namesOf : Expression → List Variable} (takes : operatorTakes name arguments.length = true)
    (retold : ∀ argument ∈ arguments, context.Retold sure known argument (namesOf argument)) :
    context.Retold sure known (.call (.operator name) arguments) (arguments.flatMap namesOf) := by
  obtain ⟨written, success, lengths, reads⟩ := all retold
  obtain ⟨whole, isWritten, read⟩ :=
    operatorCall_expressions context success (lengths ▸ takes)
  exact of_arguments isWritten read reads

theorem functionCall (plain : context.MakesPlain) {name : NamedNode} {arguments : List Expression}
    {namesOf : Expression → List Variable} (writable : name.isWritable = true)
    (retold : ∀ argument ∈ arguments, context.Retold sure known argument (namesOf argument)) :
    context.Retold sure known (.call (.function name) arguments) (arguments.flatMap namesOf) := by
  obtain ⟨written, success, -, reads⟩ := all retold
  obtain ⟨whole, isWritten, read⟩ := functionCall_expressions plain success writable
  exact of_arguments isWritten read reads

theorem existence {negated : Bool} (restored : context.Restored sure known input names) :
    context.Retold sure known (.existence negated input) names := by
  obtain ⟨elements, restores⟩ := restored
  refine ⟨.existence negated (groupOf elements), ?_, ?_⟩
  · rw [Expression.written, restores.written, pure_bind]
  · rw [Context.expression]
    exact restores.group.map fun related value correspond => .existence negated correspond

end Retold

/-! ### All normal forms -/

private theorem allKnown (names : List LocalName) : AllKnown (fun _ => True) names :=
  fun _ _ => trivial

private theorem flatMap_nil {α : Type} (members : List α) :
    members.flatMap (fun _ => ([] : List Variable)) = [] := by
  simp

/-- What an operation or an expression in normal form is written as is read as it. -/
theorem normalInduction (plain : context.MakesPlain) (triples : context.quads = false) :
    NormalInduction (context.Restored True (fun _ => True) · [])
      (context.Retold True (fun _ => True) · []) where
  bgp _ normal := .bgp plain normal (allKnown _)
  values _ _ normal := .values plain normal (allKnown _)
  path _ _ _ _ normal := .path plain normal (allKnown _)
  graph _ _ normal := .graph plain triples (Bool.and_eq_true_iff.1 normal).1 (allKnown _)
  service _ _ _ normal := .service plain (Bool.and_eq_true_iff.1 normal).1 (allKnown _)
  filter _ _ _ := .filter
  extend _ _ _ _ := .extend plain trivial
  join inputs normal restored := by
    have whole := Restored.join (Bool.and_eq_true_iff.1 normal).1 restored
    rwa [flatMap_nil] at whole
  union inputs normal restored := by
    have conditions : (decide (2 ≤ inputs.length) && inputs.all (!·.isUnion)
      && Operation.allNormal inputs) = true := normal
    simp only [Bool.and_eq_true, decide_eq_true_eq, List.all_eq_true, Bool.not_eq_true']
      at conditions
    have whole := Restored.union conditions.1.1 conditions.1.2 restored
    rwa [flatMap_nil] at whole
  optional left right normal := by
    have other : (!right.isFilter) = true := (Bool.and_eq_true_iff.1 normal).2
    exact .optional (by simpa using other)
  conditional _ _ _ _ := .conditional
  minus _ _ _ := .minus
  term _ normal := .term plain normal (allKnown _)
  call callee arguments normal retold := by
    cases callee with
    | operator name =>
      have whole := Retold.operatorCall (Bool.and_eq_true_iff.1 normal).1 retold
      rwa [flatMap_nil] at whole
    | function name =>
      have whole := Retold.functionCall plain (Bool.and_eq_true_iff.1 normal).1 retold
      rwa [flatMap_nil] at whole
  existence _ _ _ := .existence

end Context

end QueryAlgebra
