import QueryAlgebra.Proofs.Operation.CorrespondenceLaws
import QueryAlgebra.Proofs.Operation.PlacedGraphs
import Mathlib.Logic.Relator

/-! # Operators of corresponding operations

The joins of corresponding operations correspond, whether they are simplified or not, and so do
their unions and left joins. Under a one-to-one relation of names, what corresponds to the same
expression is the same, `Expression.Corresponds.eq_iff`, and correspondence is kept if more names are
related, `Operation.Corresponds.imp`.
-/

namespace QueryAlgebra

section

variable {related : LocalName → LocalName → Prop} {left right left' right' : Operation}

namespace Operation.Corresponds

theorem bgp {patterns patterns' : List Pattern}
    (correspond : List.Forall₂ (Pattern.Corresponds related) patterns patterns') :
    (Operation.bgp patterns).Corresponds related (.bgp patterns') := .mk none (.bgp correspond)

theorem isEmptyBgp {operation operation' : Operation}
    (correspond : operation.Corresponds related operation') :
    operation.isEmptyBgp = operation'.isEmptyBgp := by
  cases correspond with
  | mk metadata operators =>
    cases operators with
    | bgp patterns => cases patterns <;> rfl
    | _ => rfl

private theorem parts (how : Combination) {operation operation' : Operation}
    (correspond : operation.Corresponds related operation') :
    List.Forall₂ (Operation.Corresponds related) (operation.parts how) (operation'.parts how) := by
  cases correspond with
  | mk metadata operators =>
    cases operators with
    | combine kind inputs =>
      cases metadata with
      | some metadata => exact .cons (.mk _ (.combine kind inputs)) .nil
      | none =>
        rw [Operation.parts, Operation.parts]
        split
        · exact inputs
        · exact .cons (.mk _ (.combine kind inputs)) .nil
    | bgp patterns => exact .cons (.mk _ (.bgp patterns)) .nil
    | values vars rows => exact .cons (.mk _ (.values vars rows)) .nil
    | nop => exact .cons (.mk _ .nop) .nil
    | path predicate subject object graph =>
      exact .cons (.mk _ (.path predicate subject object graph)) .nil
    | manage action => exact .cons (.mk _ (.manage action)) .nil
    | wrap wrapper input => exact .cons (.mk _ (.wrap wrapper input)) .nil
    | filter input condition => exact .cons (.mk _ (.filter input condition)) .nil
    | extend input name value => exact .cons (.mk _ (.extend input name value)) .nil
    | group input keys aggregates => exact .cons (.mk _ (.group input keys aggregates)) .nil
    | orderBy input keys => exact .cons (.mk _ (.orderBy input keys)) .nil
    | construct input template => exact .cons (.mk _ (.construct input template)) .nil
    | leftJoin left right condition => exact .cons (.mk _ (.leftJoin left right condition)) .nil
    | minus left right => exact .cons (.mk _ (.minus left right)) .nil
    | deleteInsert delete insert scope =>
      exact .cons (.mk _ (.deleteInsert delete insert scope)) .nil

private theorem combined (how : Combination) {inputs inputs' : List Operation}
    (correspond : List.Forall₂ (Operation.Corresponds related) inputs inputs') :
    (Operation.of (.combine how (inputs.flatMap (Operation.parts how)))).Corresponds related
      (.of (.combine how (inputs'.flatMap (Operation.parts how)))) := by
  refine .mk none (.combine how ?_)
  induction correspond with
  | nil => exact .nil
  | cons input _ ih => exact List.rel_append (parts how input) ih

theorem join {inputs inputs' : List Operation}
    (correspond : List.Forall₂ (Operation.Corresponds related) inputs inputs') :
    (Operation.join inputs).Corresponds related (.join inputs') :=
  combined .join correspond

theorem union {inputs inputs' : List Operation}
    (correspond : List.Forall₂ (Operation.Corresponds related) inputs inputs') :
    (Operation.union inputs).Corresponds related (.union inputs') :=
  combined .union correspond

theorem simplifiedJoin (ofLeft : left.Corresponds related left')
    (ofRight : right.Corresponds related right') :
    (simplifiedJoin left right).Corresponds related (simplifiedJoin left' right') := by
  have emptyLeft := ofLeft.isEmptyBgp
  have emptyRight := ofRight.isEmptyBgp
  by_cases areBgps : ∃ first second, left = ⟨.bgp first, none⟩ ∧ right = ⟨.bgp second, none⟩
  · obtain ⟨first, second, rfl, rfl⟩ := areBgps
    cases ofLeft with
    | mk _ ofLeft =>
      cases ofLeft with
      | bgp first =>
        cases ofRight with
        | mk _ ofRight =>
          cases ofRight with
          | bgp second => exact bgp (List.rel_append first second)
  · have stay : ¬ ∃ first second, left' = ⟨.bgp first, none⟩ ∧ right' = ⟨.bgp second, none⟩ := by
      rintro ⟨first, second, rfl, rfl⟩
      cases ofLeft with
      | mk _ ofLeft =>
        cases ofLeft with
        | bgp =>
          cases ofRight with
          | mk _ ofRight =>
            cases ofRight with
            | bgp => exact areBgps ⟨_, _, rfl, rfl⟩
    rw [simplifiedJoin_of_other areBgps, simplifiedJoin_of_other stay, emptyLeft, emptyRight]
    split
    · exact ofRight
    · split
      · exact ofLeft
      · exact join (.cons ofLeft (.cons ofRight .nil))

theorem leftJoinOf (ofLeft : left.Corresponds related left')
    (ofRight : right.Corresponds related right') :
    (leftJoinOf left right).Corresponds related (leftJoinOf left' right') := by
  by_cases isFilter : ∃ input condition, right = ⟨.filter input condition, none⟩
  · obtain ⟨input, condition, rfl⟩ := isFilter
    cases ofRight with
    | mk _ ofRight =>
      cases ofRight with
      | filter input condition =>
        exact .mk none (.leftJoin ofLeft input (.some condition))
  · have stay : ¬ ∃ input condition, right' = ⟨.filter input condition, none⟩ := by
      rintro ⟨input, condition, rfl⟩
      cases ofRight with
      | mk _ ofRight =>
        cases ofRight with
        | filter => exact isFilter ⟨_, _, rfl⟩
    rw [leftJoinOf_of_other isFilter, leftJoinOf_of_other stay]
    exact .mk none (.leftJoin ofLeft ofRight .none)

end Operation.Corresponds

end

/-! ### One-to-one relations of names -/

section

variable {P Q : LocalName → LocalName → Prop}

theorem Term.Corresponds.imp (weaker : ∀ m n, P m n → Q m n) {first second : Term}
    (correspond : first.Corresponds P second) : first.Corresponds Q second := by
  induction correspond with
  | iri node => exact .iri node
  | blank isRelated => exact .blank (weaker _ _ isRelated)
  | literal text => exact .literal text
  | var isRelated => exact .var (weaker _ _ isRelated)
  | defaultGraph => exact .defaultGraph
  | quad _ _ _ _ subject predicate object graph => exact .quad subject predicate object graph

private theorem joined_back (oneToOne : Relator.BiUnique P) (weaker : ∀ m n, P m n → Q m n)
    (m n k : LocalName) (isRelated : P m k) (related : ∃ l, P l n ∧ P l k) : Q m n := by
  obtain ⟨l, toSecond, toThird⟩ := related
  exact weaker m n (oneToOne.1 isRelated toThird ▸ toSecond)

/-- What corresponds to an operation does so if more names are related. -/
theorem Operation.Corresponds.imp (oneToOne : Relator.BiUnique P) (weaker : ∀ m n, P m n → Q m n)
    {first second : Operation} (correspond : first.Corresponds P second) :
    first.Corresponds Q second := by
  -- The second operation corresponds to itself by way of the first.
  have back := correspond.symm (Q := flip P) fun _ _ isRelated => isRelated
  have itself : second.Corresponds (fun n k => ∃ l, P l n ∧ P l k) second :=
    back.through (fun n k l toFirst toFirst' => ⟨l, toFirst, toFirst'⟩) back
  exact correspond.through (joined_back oneToOne weaker) itself

/-- What corresponds to an expression does so if more names are related. -/
theorem Expression.Corresponds.imp (oneToOne : Relator.BiUnique P)
    (weaker : ∀ m n, P m n → Q m n) {first second : Expression}
    (correspond : first.Corresponds P second) : first.Corresponds Q second := by
  have back := correspond.symm (Q := flip P) fun _ _ isRelated => isRelated
  have itself : second.Corresponds (fun n k => ∃ l, P l n ∧ P l k) second :=
    back.through (fun n k l toFirst toFirst' => ⟨l, toFirst, toFirst'⟩) back
  exact correspond.through (joined_back oneToOne weaker) itself

/-- Of corresponding expressions, those on one side are the same if those on the other are. -/
theorem Expression.Corresponds.eq_iff (oneToOne : Relator.BiUnique P)
    {first first' second second' : Expression} (ofFirst : first.Corresponds P first')
    (ofSecond : second.Corresponds P second') : first = second ↔ first' = second' := by
  constructor
  · rintro rfl
    have back := ofFirst.symm (Q := flip P) fun _ _ isRelated => isRelated
    have back' := ofSecond.symm (Q := flip P) fun _ _ isRelated => isRelated
    have across : first'.Corresponds Eq second' :=
      back.through (R := Eq) (fun m n k (toFirst : P k m) toFirst' => oneToOne.2 toFirst toFirst')
        back'
    exact across.eq fun _ _ same => same
  · rintro rfl
    have across : first.Corresponds Eq second :=
      ofFirst.through (R := Eq) (fun m n k toThird (toThird' : P n k) => oneToOne.1 toThird toThird')
        ofSecond
    exact across.eq fun _ _ same => same

end

end QueryAlgebra
