import QueryAlgebra.Proofs.Lifting.LiftedAgain
import QueryAlgebra.Proofs.Lifting.WrittenExpressions
import QueryAlgebra.Proofs.Lowering.AbsoluteTerms
import QueryAlgebra.Proofs.Surface.PatternParts

/-! # Expressions that are read, written and read again

What is read of an expression that asks for no existence of solutions can be written: its operators
have names of the tables, which do not overlap, and its literals have the datatypes that their
written forms stand for. So it is written, and what is written is read as the same expression:
`Context.expression_reread`. The expression that is written need not be the first one, since
brackets, prefixes, shorthand numbers and calls of special forms by name are gone.
-/

namespace QueryAlgebra

open Lowering (Yields)
open Surface (BinaryOp Builtin UnaryOp)

namespace Context

variable {context : Context}

/-! ### Terms -/

/-- A literal that is read has the datatype that its language asks for. -/
theorem isWritable_literal (grounded : context.IsGrounded) {written : Surface.Literal}
    {literal : Literal} (reads : context.literal written = .ok literal) :
    literal.isWritable = true := by
  have absolute := absolute_literal grounded reads
  have untagged : ∀ {value : String} {datatype : NamedNode},
      Iri.isAbsolute datatype.iri = true →
        (TermFactory.plainLiteral value none (some datatype)).isWritable = true := by
    intro value datatype absolute
    show (datatype.iri == Vocabulary.xsdString || Iri.isAbsolute datatype.iri) = true
    rw [absolute, Bool.or_true]
  cases written with
  | string value =>
    cases reads
    rw [grounded.plain]
    rfl
  | tagged value language =>
    cases reads
    rw [grounded.plain]
    show (TermFactory.plainLiteral value (some language) none).isWritable = true
    by_cases empty : language = ""
    · rw [empty]
      rfl
    · have tagged : TermFactory.plainLiteral value (some language) none = .tagged value language := by
        simp [TermFactory.plainLiteral, empty]
      rw [tagged, Literal.isWritable]
      simp [Literal.tagged, empty]
  | typed value datatype =>
    obtain ⟨node, _, reads⟩ := ok_of_bind reads
    cases reads
    rw [grounded.plain] at absolute ⊢
    exact untagged absolute
  | integer | decimal | double | boolean =>
    cases reads
    rw [shorthand, grounded.plain] at absolute ⊢
    exact untagged absolute

/-! ### Expressions -/

private theorem length_expressions (written : List Surface.Expression) :
    Yields (fun expressions => expressions.length = written.length)
      (context.expressions written) := by
  induction written with
  | nil =>
    rw [Context.expressions]
    exact .pure rfl
  | cons first rest ih =>
    rw [Context.expressions]
    exact .bind_any fun _ => ih.bind fun others same => .pure (congrArg (· + 1) same)

private theorem isWritable_operator {name : String} {arguments : List Expression}
    (takes : operatorTakes name arguments.length = true)
    (writable : Expression.allWritable arguments = true) :
    (Expression.operator name arguments).isWritable = true := by
  rw [Expression.operator, Expression.isWritable, takes, writable]
  rfl

mutual

/-- An expression that is read can be written if it asks for no existence of solutions. -/
theorem yields_isWritable (grounded : context.IsGrounded) : ∀ written : Surface.Expression,
    written.within = [] → written.Meets .threeToIf →
    Yields (fun expression => expression.isWritable = true) (context.expression written)
  | .var name, _, _ => by
    rw [Context.expression]
    exact .pure rfl
  | .iri iri, _, _ => by
    rw [Context.expression]
    exact .bind (.lift fun node => absolute_namedNode grounded) fun node absolute => .pure absolute
  | .literal text, _, _ => by
    rw [Context.expression]
    exact .bind (.lift fun literal => isWritable_literal grounded) fun literal writable =>
      .pure writable
  | .binary op left right, nothing, ⟨ofLeft, ofRight⟩ => by
    obtain ⟨inLeft, inRight⟩ := List.append_eq_nil_iff.1 nothing
    rw [Context.expression]
    refine (yields_isWritable grounded left inLeft ofLeft).bind fun left ofLeft => ?_
    refine (yields_isWritable grounded right inRight ofRight).bind fun right ofRight => .pure ?_
    refine isWritable_operator (operatorTakes_binary op) ?_
    simp [Expression.allWritable, ofLeft, ofRight]
  | .unary op operand, nothing, ofOperand => by
    rw [Context.expression]
    refine (yields_isWritable grounded operand nothing ofOperand).bind fun operand ofOperand =>
      .pure ?_
    refine isWritable_operator (operatorTakes_unary op) ?_
    simp [Expression.allWritable, ofOperand]
  | .call (.builtin function) arguments _, nothing, ⟨three, ofArguments⟩ => by
    rw [Context.expression]
    refine ((yields_allWritable grounded arguments nothing ofArguments).and
      (length_expressions arguments)).bind fun values ⟨writable, same⟩ => .pure ?_
    exact isWritable_operator (operatorTakes_builtin (same ▸ three)) writable
  | .call (.named iri) arguments _, nothing, ⟨_, ofArguments⟩ => by
    rw [Context.expression]
    refine (yields_allWritable grounded arguments nothing ofArguments).bind fun values writable => ?_
    refine .bind (.lift fun called (success : context.callee (.named iri) = .ok called) =>
      show ∃ node, called = .function node ∧ node.isWritable = true from ?_)
      fun called ⟨node, same, absolute⟩ => .pure ?_
    · obtain ⟨node, isNode, success⟩ := ok_of_bind success
      cases success
      exact ⟨node, rfl, absolute_namedNode grounded isNode⟩
    · rw [same, Expression.isWritable, absolute, writable]
      rfl
  | .ifElse condition positive negative, nothing, ⟨ofCondition, ofPositive, ofNegative⟩ => by
    obtain ⟨others, inNegative⟩ := List.append_eq_nil_iff.1 nothing
    obtain ⟨inCondition, inPositive⟩ := List.append_eq_nil_iff.1 others
    rw [Context.expression]
    refine (yields_isWritable grounded condition inCondition ofCondition).bind fun _ first => ?_
    refine (yields_isWritable grounded positive inPositive ofPositive).bind fun _ second => ?_
    refine (yields_isWritable grounded negative inNegative ofNegative).bind fun _ third => .pure ?_
    refine isWritable_operator operatorTakes_if ?_
    simp [Expression.allWritable, first, second, third]
  | .coalesce arguments, nothing, ofArguments => by
    rw [Context.expression]
    exact (yields_allWritable grounded arguments nothing ofArguments).bind fun values writable =>
      .pure (isWritable_operator (operatorTakes_coalesce _) writable)
  | .among value choices negated, nothing, ⟨ofValue, ofChoices⟩ => by
    obtain ⟨inValue, inChoices⟩ := List.append_eq_nil_iff.1 nothing
    rw [Context.expression]
    refine (yields_isWritable grounded value inValue ofValue).bind fun value ofValue => ?_
    refine (yields_allWritable grounded choices inChoices ofChoices).bind fun choices ofChoices =>
      .pure ?_
    refine isWritable_operator (operatorTakes_membership negated _) ?_
    simp [Expression.allWritable, ofValue, ofChoices]
  | .existence _ pattern, nothing, _ => absurd nothing pattern.within_ne_nil
  | .aggregate function none distinct separator, _, _ => by
    rw [Context.expression]
    refine .pure ?_
    cases function <;> rfl
  | .aggregate function (some argument) distinct separator, nothing, ofArgument => by
    rw [Context.expression]
    refine (yields_isWritable grounded argument nothing ofArgument).bind fun argument writable =>
      .pure ?_
    have known : (Surface.AggregateFunction.ofName? function.name).isSome = true := by
      cases function <;> decide +kernel
    rw [Expression.isWritable, known, writable, Bool.or_true]
    rfl
  | .bracketed inner, nothing, ofInner => by
    rw [Context.expression]
    exact yields_isWritable grounded inner nothing ofInner

/-- Expressions that are read can be written if they ask for no existence of solutions. -/
theorem yields_allWritable (grounded : context.IsGrounded) : ∀ written : List Surface.Expression,
    Surface.Expression.withinAll written = [] → Surface.Expression.allMeet .threeToIf written →
    Yields (fun expressions => Expression.allWritable expressions = true)
      (context.expressions written)
  | [], _, _ => by
    rw [Context.expressions]
    exact .pure rfl
  | first :: rest, nothing, ⟨ofFirst, ofRest⟩ => by
    obtain ⟨inFirst, inRest⟩ := List.append_eq_nil_iff.1 nothing
    rw [Context.expressions]
    refine (yields_isWritable grounded first inFirst ofFirst).bind fun first ofFirst => ?_
    refine (yields_allWritable grounded rest inRest ofRest).bind fun rest ofRest => .pure ?_
    rw [Expression.allWritable, ofFirst, ofRest]
    rfl

end

/-- What is read of an expression without EXISTS can be written. Nothing is found in it for the
clauses of a query, and it is read as the same expression, in whatever context. -/
theorem expression_reread (grounded : context.IsGrounded) {written : Surface.Expression}
    (asksNothing : written.within = []) (threeToIf : written.Meets .threeToIf)
    {expression : Expression} {supply after : NameSupply}
    (reads : context.expression written supply = .ok expression after) :
    ∃ again, expression.written.outcome = .ok (again, [])
      ∧ ∀ (other : Context) (names : NameSupply), other.MakesPlain →
        other.expression again names = .ok expression names := by
  have writable := yields_isWritable grounded written asksNothing threeToIf _ _ _ reads
  obtain ⟨again, isWritten, _⟩ := expression_written grounded.plain writable
  refine ⟨again, by rw [isWritten]; rfl, fun other names plain => ?_⟩
  obtain ⟨again', isWritten', readAgain⟩ := expression_written plain writable
  have same : again = again' := by
    have outcomes := congrArg Collecting.outcome (isWritten.symm.trans isWritten')
    cases outcomes
    rfl
  rw [same, readAgain]
  rfl

/-- `IF(STRLEN(?x) NOT IN (1, "a"@en), COALESCE(COUNT(DISTINCT *), <f>(?x)), (-?x))` below a base. -/
theorem expression_reread_underBase :
    let context : Context := ⟨.plain, false, .empty, some "http://example.org/"⟩
    let written : Surface.Expression :=
      .ifElse
        (.among (.call (.builtin .strlen) [.var ⟨"x"⟩] false)
          [.literal (.integer 1), .literal (.tagged "a" "en")] true)
        (.coalesce [.aggregate .count none true none,
          .call (.named ⟨.full "f", .none⟩) [.var ⟨"x"⟩] false])
        (.bracketed (.unary .neg (.var ⟨"x"⟩)))
    let expression : Expression :=
      .operator "if"
        [.operator "notin"
          [.operator "strlen" [.var ⟨"x"⟩],
            .term (.literal (.typed "1" ⟨Vocabulary.xsdInteger⟩)),
            .term (.literal (.tagged "a" "en"))],
          .operator "coalesce"
            [.aggregate "count" .wildcard true none,
              .call (.function ⟨"http://example.org/f"⟩) [.var ⟨"x"⟩]],
          .operator "UMINUS" [.var ⟨"x"⟩]]
    context.expression written (.ofNames .none) = .ok expression (.ofNames .none)
      ∧ ∃ again, expression.written.outcome = .ok (again, [])
        ∧ ∀ (other : Context) (names : NameSupply), other.MakesPlain →
          other.expression again names = .ok expression names := by
  intro context written expression
  have grounded : context.IsGrounded := ⟨rfl, fun _ same => by cases same; decide +kernel⟩
  have meets : written.Meets .threeToIf := by
    simp [written, Surface.Expression.Meets, Surface.Expression.allMeet, Surface.Literal.Meets,
      Surface.Demands.threeToIf]
  have reads : context.expression written (.ofNames .none) = .ok expression (.ofNames .none) := rfl
  exact ⟨reads, expression_reread grounded rfl meets reads⟩

end Context

end QueryAlgebra
