import QueryAlgebra.Proofs.Iri
import QueryAlgebra.Proofs.Lowering.Behaviour
import QueryAlgebra.Proofs.Operation.WellFormedness
import QueryAlgebra.Proofs.Surface.Demands

/-! # What terms become

The terms, rows and inline data of a request become well-formed ones, whose names are written or
taken from the supply. A `Guarantee` says what else follows from the demands that a request meets:
that IRIs are absolute and `if` has three arguments, or that nothing fails but for want of stack.
-/

namespace QueryAlgebra

/-- Whether an IRI is written in full. -/
def Surface.Iri.isFull (iri : Surface.Iri) : Bool :=
  match iri.text with
  | .full text => QueryAlgebra.Iri.isAbsolute text
  | .abbreviated .. => false

/-- What holds of a passage from the demands on what is written. -/
structure Guarantee where
  demands : Surface.Demands
  clean : Prop
  strict : Prop
  graphs : Prop
  full : clean → ∀ iri, demands.iri iri → iri.isFull = true
  three : strict → ∀ function count, demands.call function count → function = .ifElse → count = 3
  updates : clean → demands.updates → graphs
  tight : clean → ¬ demands.loose

namespace Guarantee

/-- The bounds of what comes out of a passage that leaves a supply. -/
def bounds (guarantee : Guarantee) (supply : NameSupply) : Bounds :=
  ⟨supply.Has, guarantee.strict, guarantee.graphs⟩

theorem bounds_le (guarantee : Guarantee) {supply after : NameSupply} (gives : supply.Gives after) :
    (guarantee.bounds supply).Le (guarantee.bounds after) :=
  ⟨⟨gives.has, id⟩, id⟩

end Guarantee

/-- A context that makes plain terms, over an absolute base if one is needed. -/
structure Context.Suits (context : Context) (guarantee : Guarantee) : Prop where
  plain : context.MakesPlain
  base : guarantee.strict → ∀ text, context.base = some text → Iri.isAbsolute text = true
  quads : context.quads = true ↔ guarantee.graphs

namespace Context

open Lowering (Behaves)

variable {context : Context} {guarantee : Guarantee} {supply : NameSupply}

/-! ### IRIs and literals -/

/-- What an IRI resolves to is absolute. -/
theorem settles_resolve (suits : context.Suits guarantee) {iri : String} (span : Surface.Span)
    (absolute : guarantee.clean → Iri.isAbsolute iri = true) :
    Settles guarantee.clean (fun resolved => guarantee.strict → Iri.isAbsolute resolved = true)
      (context.resolve iri span) := by
  rw [resolve]
  split
  · rename_i resolved resolves
    exact fun strict => Iri.isAbsolute_of_resolve? (suits.base strict) resolves
  · rename_i unresolved
    intro clean
    rw [Iri.resolve?, if_pos (absolute clean)] at unresolved
    cases unresolved

theorem settles_namedNode (suits : context.Suits guarantee) (supply : NameSupply)
    {iri : Surface.Iri} (meets : guarantee.demands.iri iri) :
    Settles guarantee.clean (NamedNode.IsFull (guarantee.bounds supply)) (context.namedNode iri) := by
  obtain ⟨text, span⟩ := iri
  have full := fun clean => guarantee.full clean _ meets
  have settles : ∀ expanded, (guarantee.clean → Iri.isAbsolute expanded = true) →
      Settles guarantee.clean (NamedNode.IsFull (guarantee.bounds supply))
        (do
          let absolute ← context.resolve expanded span
          pure (context.factory.namedNode absolute)) := by
    intro expanded absolute
    refine (settles_resolve suits span absolute).bind fun resolved isFull => ?_
    rw [suits.plain]
    exact isFull
  rw [namedNode]
  cases text with
  | full text => exact settles text full
  | abbreviated label rest =>
    have unclean : ¬ guarantee.clean := fun clean => by cases full clean
    dsimp only
    cases context.prefixes.find? label with
    | some namespaceIri => exact settles _ fun clean => absurd clean unclean
    | none => exact unclean

theorem settles_namedNodes (suits : context.Suits guarantee) (supply : NameSupply)
    {iris : List Surface.Iri} (meets : ∀ iri ∈ iris, guarantee.demands.iri iri) :
    Settles guarantee.clean
      (fun nodes => ∀ node ∈ nodes, node.IsFull (guarantee.bounds supply))
      (context.namedNodes iris) := by
  induction iris with
  | nil => exact List.forall_mem_nil _
  | cons iri rest ih =>
    rw [List.forall_mem_cons] at meets
    rw [namedNodes]
    refine (settles_namedNode suits supply meets.1).bind fun node full => ?_
    refine (ih meets.2).bind fun nodes allFull => ?_
    exact List.forall_mem_cons.2 ⟨full, allFull⟩

theorem isAllowed_var (suits : context.Suits guarantee) {name : Variable}
    (isUsed : supply.Has (.var name.name)) :
    (context.var name).IsAllowed (guarantee.bounds supply) := by
  rw [var_eq suits.plain]
  exact isUsed

theorem settles_varOrIri (suits : context.Suits guarantee) {name : Surface.VarOrIri}
    (covers : supply.Covers name.names) (meets : name.Meets guarantee.demands) :
    Settles guarantee.clean (Term.IsName (guarantee.bounds supply)) (context.varOrIri name) := by
  cases name with
  | var name => exact isAllowed_var suits (NameSupply.covers_var.1 covers)
  | iri iri =>
    rw [varOrIri]
    exact (settles_namedNode suits supply meets).bind fun node full => full

private theorem isFull_datatype (bounds : Bounds) (value : String) (language : Option String)
    (datatype : Option NamedNode) (full : ∀ node ∈ datatype, node.IsFull bounds) :
    (TermFactory.plainLiteral value language datatype).datatype.IsFull bounds := by
  have ofString : NamedNode.IsFull bounds ⟨Vocabulary.xsdString⟩ := fun _ => by decide +kernel
  have ofTagged : NamedNode.IsFull bounds ⟨Vocabulary.rdfLangString⟩ := fun _ => by decide +kernel
  unfold TermFactory.plainLiteral
  split
  · exact ofString
  · exact full _ rfl
  · exact ofTagged
  · exact full _ rfl
  · exact ofString

theorem settles_literal (suits : context.Suits guarantee) (supply : NameSupply)
    {literal : Surface.Literal} (meets : literal.Meets guarantee.demands) :
    Settles guarantee.clean (fun literal => literal.datatype.IsFull (guarantee.bounds supply))
      (context.literal literal) := by
  have shorthand : ∀ value datatype, Iri.isAbsolute datatype = true →
      (context.shorthand value datatype).datatype.IsFull (guarantee.bounds supply) := by
    intro value datatype absolute
    rw [Context.shorthand, suits.plain]
    exact isFull_datatype _ value none _ fun node isDatatype strict =>
      Option.some.inj isDatatype ▸ absolute
  cases literal with
  | string value =>
    rw [Context.literal, suits.plain]
    exact isFull_datatype _ value none none (fun _ absent => by cases absent)
  | tagged value language =>
    rw [Context.literal, suits.plain]
    exact isFull_datatype _ value (some language) none (fun _ absent => by cases absent)
  | typed value datatype =>
    rw [Context.literal]
    refine (settles_namedNode suits supply meets).bind fun node full => ?_
    rw [suits.plain]
    exact isFull_datatype _ value none (some node) fun _ isDatatype =>
      Option.some.inj isDatatype ▸ full
  | integer value => exact shorthand _ _ (by decide +kernel)
  | decimal value => exact shorthand _ _ (by decide +kernel)
  | double value => exact shorthand _ _ (by decide +kernel)
  | boolean value => exact shorthand _ _ (by decide +kernel)

/-! ### Terms -/

/-- A new variable is in use afterwards. -/
theorem behaves_newVariable (suits : context.Suits guarantee) :
    Behaves guarantee.clean (fun after name => name.IsAllowed (guarantee.bounds after))
      context.newVariable supply := by
  rw [newVariable, suits.plain]
  exact (Behaves.take (.numbered supply)).bind fun _ _ _ isUsed => .pure isUsed

/-- A new label is in use afterwards. -/
theorem behaves_newBlank (suits : context.Suits guarantee) :
    Behaves guarantee.clean (fun after term => term.IsNode (guarantee.bounds after))
      context.newBlank supply := by
  rw [newBlank, suits.plain]
  exact (Behaves.take (.label supply)).bind fun _ _ _ isUsed => .pure isUsed

theorem behaves_term (suits : context.Suits guarantee) {term : Surface.Term}
    (covers : supply.Covers term.names) (meets : term.Meets guarantee.demands) :
    Behaves guarantee.clean (fun after term => term.IsNode (guarantee.bounds after))
      (context.term term) supply := by
  induction term generalizing supply with
  | var name =>
    rw [Context.term]
    exact .pure (isAllowed_var suits (NameSupply.covers_var.1 covers))
  | iri iri =>
    rw [Context.term]
    exact .bindLift (settles_namedNode suits supply meets) fun node full => .pure full
  | literal literal =>
    rw [Context.term]
    exact .bindLift (settles_literal suits supply meets) fun literal full => .pure full
  | blank label =>
    rw [Context.term, suits.plain]
    exact .pure (NameSupply.covers_label.1 covers)
  | anonymous =>
    rw [Context.term]
    exact behaves_newBlank suits
  | quoted subject predicate object ihSubject ihObject =>
    simp only [Surface.Term.names, NameSupply.covers_and] at covers
    obtain ⟨⟨ofSubject, ofPredicate⟩, ofObject⟩ := covers
    obtain ⟨meetsSubject, meetsPredicate, meetsObject⟩ := meets
    rw [Context.term, quad_eq suits.plain]
    refine (ihSubject ofSubject meetsSubject).bind fun subject s₁ gives₁ isSubject => ?_
    refine .bindLift (settles_varOrIri suits (ofPredicate.mono gives₁) meetsPredicate)
      fun predicate isPredicate => ?_
    refine (ihObject (ofObject.mono gives₁) meetsObject).bind
      fun object s₂ gives₂ isObject => .pure ⟨?_, ?_, isObject, ?_⟩
    · exact (guarantee.bounds_le gives₂).isNode isSubject
    · exact (guarantee.bounds_le gives₂).isName isPredicate
    · rw [suits.plain]
      rfl

/-- A row with an entry that is well-formed. -/
private theorem wellFormed_insert {bounds : Bounds} {row : Row} {name : String} {value : Term}
    (wellFormed : row.WellFormed bounds) (isAllowed : bounds.name (.var name))
    (isNode : value.IsNode bounds) : Row.WellFormed bounds (row.insert name value) := by
  intro entry member
  rcases NameMap.key_of_mem_insertEntry member with rfl | member
  · exact ⟨isAllowed, isNode⟩
  · exact wellFormed entry member

theorem behaves_row (suits : context.Suits guarantee) {names : List Variable}
    {cells : List (Option Surface.Term)} {row : Row}
    (ofNames : ∀ name ∈ names, supply.Has (.var name.name))
    (covers : ∀ term, some term ∈ cells → supply.Covers term.names)
    (meets : ∀ term, some term ∈ cells → term.Meets guarantee.demands)
    (wellFormed : row.WellFormed (guarantee.bounds supply)) :
    Behaves guarantee.clean (fun after row => row.WellFormed (guarantee.bounds after))
      (context.row names cells row) supply := by
  induction names generalizing cells row supply with
  | nil => cases cells <;> exact .pure wellFormed
  | cons name names ih =>
    cases cells with
    | nil => exact .pure wellFormed
    | cons cell cells =>
      have later : ∀ {term}, some term ∈ cells → some term ∈ cell :: cells :=
        List.mem_cons_of_mem cell
      rw [List.forall_mem_cons] at ofNames
      cases cell with
      | none =>
        exact ih ofNames.2 (fun term member => covers term (later member))
          (fun term member => meets term (later member)) wellFormed
      | some value =>
        have first : some value ∈ some value :: cells := List.mem_cons_self
        rw [Context.row]
        refine (behaves_term suits (covers value first) (meets value first)).bind
          fun value after gives isNode => ?_
        refine ih (fun name member => gives.has _ (ofNames.2 name member))
          (fun term member => (covers term (later member)).mono gives)
          (fun term member => meets term (later member))
          (wellFormed_insert ((guarantee.bounds_le gives).row wellFormed) ?_ isNode)
        exact isAllowed_var suits (gives.has _ ofNames.1)

theorem behaves_rows (suits : context.Suits guarantee) {names : List Variable}
    {lines : List (List (Option Surface.Term))}
    (ofNames : ∀ name ∈ names, supply.Has (.var name.name))
    (covers : ∀ cells ∈ lines, ∀ term, some term ∈ cells → supply.Covers term.names)
    (meets : ∀ cells ∈ lines, ∀ term, some term ∈ cells → term.Meets guarantee.demands) :
    Behaves guarantee.clean (fun after rows => ∀ row ∈ rows, row.WellFormed (guarantee.bounds after))
      (context.rows names lines) supply := by
  induction lines generalizing supply with
  | nil => exact .pure (List.forall_mem_nil _)
  | cons cells rest ih =>
    rw [List.forall_mem_cons] at covers meets
    rw [Context.rows]
    refine (behaves_row suits ofNames covers.1 meets.1
      (fun entry member => absurd member List.not_mem_nil)).bind fun row s₁ gives₁ wellFormed => ?_
    refine (ih (fun name member => gives₁.has _ (ofNames name member))
      (fun cells member term inCells => (covers.2 cells member term inCells).mono gives₁)
      meets.2).bind fun rows s₂ gives₂ allWellFormed => .pure ?_
    exact List.forall_mem_cons.2 ⟨(guarantee.bounds_le gives₂).row wellFormed, allWellFormed⟩

theorem behaves_inlineData (suits : context.Suits guarantee) {data : Surface.InlineData}
    (covers : supply.Covers data.names) (meets : data.Meets guarantee.demands) :
    Behaves guarantee.clean (fun after table => table.IsPattern (guarantee.bounds after))
      (context.inlineData data) supply := by
  simp only [Surface.InlineData.names, NameSupply.covers_and, NameSupply.covers_all,
    NameSupply.covers_optional, NameSupply.covers_var] at covers
  obtain ⟨ofNames, ofRows⟩ := covers
  rw [inlineData]
  refine (behaves_rows suits ofNames (fun cells member term inCells => ?_) meets).bind
    fun rows after gives wellFormed => .pure ⟨rfl, ?_, wellFormed⟩
  · exact ofRows cells member (some term) inCells term rfl
  · intro name member
    obtain ⟨name, inHeader, rfl⟩ := List.mem_map.1 member
    exact isAllowed_var suits (gives.has _ (ofNames name inHeader))

end Context

end QueryAlgebra
