import QueryAlgebra.Proofs.Lowering.PlainPattern

/-! # The translation of graph patterns that the standard describes

`Context.specified` joins every element of a group to those before it without simplifying, so an
optional part has a condition only if filters are written in the group of the part itself.

The simplified passage decides by the form of an operation instead, and `Pattern.shape` foretells
that form from the pattern. A pattern whose operation is a filter although no filter is written in
its group is one that `Pattern.leaks`.
-/

namespace QueryAlgebra

/-- The left join with an optional part, whose filter is the condition if it is the part's own. -/
def optionalJoin (own : Bool) (left right : Operation) : Operation :=
  if own then leftJoinOf left right else .of (.leftJoin left right none)

namespace Context

mutual

/-- The operation that the standard describes for a pattern. -/
def specified (context : Context) : Surface.Pattern → Lowering Operation
  | .group elements _ => do
    let (operation, filters) ← context.specifiedElements elements (.bgp []) []
    pure (filtered operation filters)
  | .union left right _ => do
    let left ← context.specified left
    let right ← context.specified right
    pure (.of (.combine .union [left, right]))
  | pattern => context.pattern pattern

/-- The operation that the standard describes for the elements of a group after those treated so
far, and the filters among all of them. -/
def specifiedElements (context : Context) : List Surface.Pattern → Operation → List Expression →
    Lowering (Operation × List Expression)
  | [], operation, filters => pure (operation, filters)
  | .filter condition _ :: rest, operation, filters => do
    let condition ← context.expression condition
    context.specifiedElements rest operation (filters ++ [condition])
  | .optional pattern _ :: rest, operation, filters => do
    let right ← context.specified pattern
    context.specifiedElements rest (optionalJoin pattern.hasFilters operation right) filters
  | .minus pattern _ :: rest, operation, filters => do
    let right ← context.specified pattern
    context.specifiedElements rest (.of (.minus operation right)) filters
  | .bind value name _ :: rest, operation, filters => do
    let value ← context.expression value
    context.specifiedElements rest (.of (.extend operation (context.var name) value)) filters
  | element :: rest, operation, filters => do
    let right ← context.specified element
    context.specifiedElements rest (.of (.combine .join [operation, right])) filters

end

end Context

namespace Context

open Lowering (Yields)

variable (context : Context)

theorem elements_member {element : Surface.Pattern} (member : element.isMember = true)
    (rest : List Surface.Pattern) (operation : Operation) (filters : List Expression) :
    context.elements (element :: rest) operation filters = (do
      let right ← context.pattern element
      context.elements rest (simplifiedJoin operation right) filters) := by
  cases element with
  | filter | optional | minus | bind => cases member
  | _ => rw [elements] <;> simp

theorem specifiedElements_member {element : Surface.Pattern} (member : element.isMember = true)
    (rest : List Surface.Pattern) (operation : Operation) (filters : List Expression) :
    context.specifiedElements (element :: rest) operation filters = (do
      let right ← context.specified element
      context.specifiedElements rest (.of (.combine .join [operation, right])) filters) := by
  cases element with
  | filter | optional | minus | bind => cases member
  | _ => rw [specifiedElements] <;> simp

/-- The elements of a group may be treated in two runs. -/
theorem elements_append (before after : List Surface.Pattern) (operation : Operation)
    (filters : List Expression) :
    context.elements (before ++ after) operation filters = (do
      let (operation, filters) ← context.elements before operation filters
      context.elements after operation filters) := by
  induction before generalizing operation filters with
  | nil => rw [List.nil_append, elements, pure_bind]
  | cons element rest ih =>
    rw [List.cons_append]
    by_cases member : element.isMember = true
    · simp only [elements_member context member, ih, bind_assoc]
    · cases element with
      | filter | optional | minus | bind => simp only [elements, ih, bind_assoc]
      | _ => exact absurd rfl member

/-- The elements of a group may be translated in two runs. -/
theorem specifiedElements_append (before after : List Surface.Pattern) (operation : Operation)
    (filters : List Expression) :
    context.specifiedElements (before ++ after) operation filters = (do
      let (operation, filters) ← context.specifiedElements before operation filters
      context.specifiedElements after operation filters) := by
  induction before generalizing operation filters with
  | nil => rw [List.nil_append, specifiedElements, pure_bind]
  | cons element rest ih =>
    rw [List.cons_append]
    by_cases member : element.isMember = true
    · simp only [specifiedElements_member context member, ih, bind_assoc]
    · cases element with
      | filter | optional | minus | bind => simp only [specifiedElements, ih, bind_assoc]
      | _ => exact absurd rfl member

/-- There are filters after the elements of a group if there were some before or some are among the
elements. -/
theorem yields_filters (elements : List Surface.Pattern) (operation : Operation)
    (filters : List Expression) :
    Yields (fun result =>
        result.2.isEmpty = (filters.isEmpty && !elements.any Surface.Pattern.isFilter))
      (context.elements elements operation filters) := by
  induction elements generalizing operation filters with
  | nil =>
    rw [Context.elements]
    exact Yields.pure (by simp)
  | cons element rest ih =>
    by_cases member : element.isMember = true
    · rw [elements_member context member, List.any_cons,
        Surface.Pattern.isFilter_of_isMember member, Bool.false_or]
      exact Yields.bind_any fun right => ih (simplifiedJoin operation right) filters
    · cases element with
      | filter written span =>
        rw [Context.elements]
        refine Yields.bind_any fun condition => ?_
        have present : (filters.isEmpty
              && !(Surface.Pattern.filter written span :: rest).any Surface.Pattern.isFilter)
            = ((filters ++ [condition]).isEmpty && !rest.any Surface.Pattern.isFilter) := by
          simp [Surface.Pattern.isFilter]
        rw [present]
        exact ih operation (filters ++ [condition])
      | optional body span =>
        rw [Context.elements]
        exact Yields.bind_any fun right => ih (leftJoinOf operation right) filters
      | minus body span =>
        rw [Context.elements]
        exact Yields.bind_any fun right => ih (.of (.minus operation right)) filters
      | bind value name span =>
        rw [Context.elements]
        exact Yields.bind_any fun value =>
          ih (.of (.extend operation (context.var name) value)) filters
      | _ => exact absurd rfl member

end Context

/-! ### The form of an operation -/

/-- The forms that a simplified join and an optional part tell apart. -/
inductive Shape where
  | empty
  | filter
  | other
deriving DecidableEq

/-- The form of the simplified join of operations of two forms. -/
def Shape.joined : Shape → Shape → Shape
  | .empty, right => right
  | left, .empty => left
  | _, _ => .other

/-- The form of an operation. -/
def Operation.shape : Operation → Shape
  | ⟨.bgp [], _⟩ => .empty
  | ⟨.filter .., none⟩ => .filter
  | _ => .other

namespace Surface.Pattern

mutual

/-- The form of the operation of a pattern. -/
def shape : Pattern → Shape
  | .bgp triples _ => if triples.isEmpty then .empty else .other
  | .group elements _ => if elements.any isFilter then .filter else allShape elements .empty
  | _ => .other

/-- The form of the operation of the elements of a group after others of a given form. -/
def allShape : List Pattern → Shape → Shape
  | [], before => before
  | .filter .. :: rest, before => allShape rest before
  | .optional .. :: rest, _ => allShape rest .other
  | .minus .. :: rest, _ => allShape rest .other
  | .bind .. :: rest, _ => allShape rest .other
  | element :: rest, before => allShape rest (before.joined element.shape)

end

/-- Whether the operation of a pattern is a filter although the pattern has no filters of its own:
a filter of a group inside it shows. -/
def leaks (pattern : Pattern) : Bool := !pattern.hasFilters && pattern.shape == .filter

end Surface.Pattern

namespace Surface.Pattern

theorem allShape_member {element : Pattern} (member : element.isMember = true)
    (rest : List Pattern) (before : Shape) :
    allShape (element :: rest) before = allShape rest (before.joined element.shape) := by
  cases element with
  | filter | optional | minus | bind => cases member
  | _ => rw [allShape] <;> simp

end Surface.Pattern

namespace Operation

theorem shape_of_isEmptyBgp {operation : Operation} :
    operation.isEmptyBgp = true ↔ operation.shape = .empty := by
  obtain ⟨operator, metadata⟩ := operation
  cases operator with
  | bgp patterns => cases patterns <;> simp [isEmptyBgp, shape]
  | filter input condition => cases metadata <;> simp [isEmptyBgp, shape]
  | _ => simp [isEmptyBgp, shape]

theorem shape_simplifiedJoin (left right : Operation) :
    (simplifiedJoin left right).shape = left.shape.joined right.shape := by
  unfold simplifiedJoin
  split
  · rename_i first second
    cases first with
    | nil => rfl
    | cons head rest => cases second <;> rfl
  · split
    · rename_i empty
      rw [shape_of_isEmptyBgp.1 empty]
      rfl
    · rename_i leftFull
      rw [shape_of_isEmptyBgp] at leftFull
      split
      · rename_i empty
        rw [shape_of_isEmptyBgp.1 empty]
        cases left.shape <;> rfl
      · rename_i rightFull
        rw [shape_of_isEmptyBgp] at rightFull
        cases leftShape : left.shape with
        | empty => exact absurd leftShape leftFull
        | filter => cases rightShape : right.shape with
          | empty => exact absurd rightShape rightFull
          | filter => rfl
          | other => rfl
        | other => cases rightShape : right.shape with
          | empty => exact absurd rightShape rightFull
          | filter => rfl
          | other => rfl

theorem shape_leftJoinOf (left right : Operation) : (leftJoinOf left right).shape = .other := by
  unfold leftJoinOf
  split <;> rfl

/-- A left join has no condition to take if the form of the part is no filter. -/
theorem leftJoinOf_eq_of_shape {left right : Operation} (shape : right.shape ≠ .filter) :
    leftJoinOf left right = .of (.leftJoin left right none) := by
  unfold leftJoinOf
  split
  · exact absurd rfl shape
  · rfl

theorem shape_filtered (operation : Operation) (filters : List Expression) :
    (filtered operation filters).shape = if filters.isEmpty then operation.shape else .filter := by
  cases filters <;> rfl

end Operation

namespace Context

open Lowering (Yields)

variable (context : Context)

/-- The form of the operation of the elements of a group. -/
private theorem yields_allShape {elements : List Surface.Pattern}
    (shapes : ∀ element ∈ elements,
      Yields (fun operation => operation.shape = element.shape) (context.pattern element))
    (operation : Operation) (filters : List Expression) :
    Yields (fun result => result.1.shape = Surface.Pattern.allShape elements operation.shape)
      (context.elements elements operation filters) := by
  induction elements generalizing operation filters with
  | nil =>
    rw [elements, Surface.Pattern.allShape]
    exact Yields.pure rfl
  | cons element rest ih =>
    have ofRest := ih fun other member => shapes other (List.mem_cons_of_mem _ member)
    have ofElement := shapes element (List.mem_cons_self ..)
    by_cases member : element.isMember = true
    · rw [elements_member context member, Surface.Pattern.allShape_member member]
      refine Yields.bind ofElement fun right shape => ?_
      rw [← shape, ← Operation.shape_simplifiedJoin]
      exact ofRest (simplifiedJoin operation right) filters
    · cases element with
      | filter condition span =>
        rw [elements, Surface.Pattern.allShape]
        exact Yields.bind_any fun condition => ofRest operation (filters ++ [condition])
      | optional body span =>
        rw [elements, Surface.Pattern.allShape]
        refine Yields.bind_any fun right => ?_
        rw [← Operation.shape_leftJoinOf operation right]
        exact ofRest (leftJoinOf operation right) filters
      | minus body span =>
        rw [elements, Surface.Pattern.allShape]
        exact Yields.bind_any fun right => ofRest (.of (.minus operation right)) filters
      | bind value name span =>
        rw [elements, Surface.Pattern.allShape]
        exact Yields.bind_any fun value =>
          ofRest (.of (.extend operation (context.var name) value)) filters
      | _ => exact absurd rfl member

/-- The form of the operation of a plain pattern is the form of the pattern. -/
theorem yields_shape {pattern : Surface.Pattern} (plain : pattern.isPlain = true) :
    Yields (fun operation => operation.shape = pattern.shape) (context.pattern pattern) := by
  induction pattern using Surface.Pattern.induct with
  | bgp triples span =>
    rw [Context.pattern, Surface.Pattern.shape]
    intro supply value after success
    obtain ⟨patterns, rfl, lengths⟩ :=
      context.yields_basicGraphPattern plain supply value after success
    cases patterns <;> cases triples <;> first | rfl | cases lengths
  | group elements span ih =>
    rw [Surface.Pattern.isPlain, Surface.Pattern.allPlain_iff] at plain
    rw [Context.pattern, Surface.Pattern.shape]
    have shapes := context.yields_allShape
      (fun element member => ih element member (plain element member)) (.bgp []) []
    have fewer := context.yields_filters elements (.bgp []) []
    refine Yields.bind (shapes.and fewer) ?_
    rintro ⟨operation, filters⟩ ⟨shape, present⟩
    apply Yields.pure
    rw [Operation.shape_filtered, present, shape]
    cases elements.any Surface.Pattern.isFilter <;> rfl
  | union left right span =>
    rw [Context.pattern]
    exact Yields.bind_any fun left => Yields.bind_any fun right => Yields.pure rfl
  | values data span =>
    rw [Context.pattern]
    exact Yields.bind_any fun rows => Yields.pure rfl
  | optional | minus | filter | bind => rw [Context.pattern]; exact Yields.throw _
  | graph | service | subquery => cases plain

end Context

end QueryAlgebra
