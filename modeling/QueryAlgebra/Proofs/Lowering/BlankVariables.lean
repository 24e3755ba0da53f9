import QueryAlgebra.Proofs.Lowering.NamesOfRequests
import QueryAlgebra.Proofs.Operation.BlankReplacement

/-! # Blank nodes become new variables

Asking for variables instead of blank nodes changes nothing but the blank nodes of patterns and
paths: `Surface.Request.lower_withBlankToVariable`. Each label gets one variable; the variables are
taken from the supply one after another, so they are different from each other and from all names
in use, which are those that are written and those of the operation.
-/

namespace QueryAlgebra

namespace Context

variable {context : Context} {guarantee : Guarantee}

/-- Before blank nodes become variables, the operation is made as it is without them. -/
theorem request_of_ok (suits : context.Suits guarantee) {request : Surface.Request}
    (meets : request.prologue.Meets guarantee.demands) {operation : Operation}
    {supply after : NameSupply}
    (success : context.request false request supply = .ok operation after) :
    ∃ declared : Context, declared.Suits guarantee
      ∧ context.request true request supply = declared.blanksToVariables operation after := by
  have ofDeclared := settles_declare suits meets
  rw [Context.request] at success ⊢
  cases isDeclared : context.declare request.prologue with
  | error error =>
    rw [isDeclared] at success
    cases success
  | ok declared =>
    rw [isDeclared] at ofDeclared success
    obtain ⟨_, _, lifted, success⟩ := Lowering.of_bind_ok success
    obtain ⟨rfl, rfl⟩ := Lowering.of_pure_ok lifted
    obtain ⟨made, between, first, second⟩ := Lowering.of_bind_ok success
    obtain ⟨rfl, rfl⟩ := Lowering.of_pure_ok second
    exact ⟨declared, ofDeclared, Lowering.bind_ok first⟩

end Context

/-- Whether the traversal that replaces blank nodes can hold an operation. -/
def Operation.fitsReplacing (operation : Operation) : Bool :=
  (Node.operation operation).fits Traversal.defaultLimit
    (fun kind =>
      if kind = .construct ∨ kind = .deleteInsert then .afresh
      else if kind = .pattern ∨ kind = .path then .leave
      else .descend) 1

namespace Context

variable {context : Context}

/-- The blank nodes of an operation become variables that are taken from the supply. -/
theorem blanksToVariables_mints (plain : context.MakesPlain) {operation : Operation}
    (fits : operation.fitsReplacing = true) (supply : NameSupply) :
    ∃ vars after, context.blanksToVariables operation supply
        = .ok (operation.replaceBlanks (labelTerm vars)) after
      ∧ vars.map (·.1) = operation.labels
      ∧ supply.Mints (vars.map fun entry => .var entry.2.name) after := by
  obtain ⟨vars, names, after, success, areLabels, areNames, mints⟩ :=
    context.labelVariables_mints operation.labels supply
  have sameNames : vars.map (fun entry => LocalName.var entry.2.name) = names.map .var := by
    have same := congrArg (List.map (LocalName.var ·.name)) areNames
    rwa [List.map_map, List.map_map, plain] at same
  refine ⟨vars, after, ?_, areLabels, sameNames ▸ mints⟩
  have checked : (Node.operation operation).checkFits (fun kind =>
      if kind = .construct ∨ kind = .deleteInsert then .afresh
      else if kind = .pattern ∨ kind = .path then .leave
      else .descend) = .ok () := if_pos fits
  rw [blanksToVariables, checked]
  exact Lowering.bind_ok success

/-- An operation that does not fit is not rewritten. -/
theorem blanksToVariables_of_not_fits {operation : Operation}
    (fits : operation.fitsReplacing = false) (supply : NameSupply) :
    context.blanksToVariables operation supply
      = .error (.traversal (.stackOverflow Traversal.defaultLimit)) supply := by
  have checked : (Node.operation operation).checkFits (fun kind =>
      if kind = .construct ∨ kind = .deleteInsert then .afresh
      else if kind = .pattern ∨ kind = .path then .leave
      else .descend) = .error (.stackOverflow Traversal.defaultLimit) :=
    if_neg (Bool.not_eq_true _ ▸ fits)
  rw [blanksToVariables, checked]
  rfl

/-- Every label that has been given a variable is replaced by it. -/
theorem replaces_labelTerm {vars : List (String × Variable)} {labels : List String}
    (areLabels : ∀ label ∈ labels, label ∈ vars.map (·.1)) :
    Replaces (vars.lookup ·) (labelTerm vars) labels := by
  intro label mem
  cases found : vars.lookup label with
  | some name => exact ⟨name, found, by rw [labelTerm, found]⟩
  | none =>
    rw [List.lookup_eq_none_iff] at found
    obtain ⟨entry, member, rfl⟩ := List.mem_map.1 (areLabels label mem)
    exact absurd (found entry member) (by simp)

/-- The variable that is found under a label is one of those given. -/
theorem mem_of_lookup {vars : List (String × Variable)} {label : String} {name : Variable}
    (found : vars.lookup label = some name) : (label, name) ∈ vars := by
  obtain ⟨first, last, rfl, -⟩ := List.lookup_eq_some_iff.1 found
  simp

end Context

namespace Surface.Request

variable {options : Options} {request : Surface.Request} {operation : Operation}

/-- A request whose blank nodes are to become variables has the operation that it has otherwise, but
that in the patterns and paths of this operation outside templates a variable stands in the place of
each blank node, one for each label. The variables are different from each other and from all
variables of the request and of the operation. It has no operation only if the traversal would need
more stack than there is. -/
theorem lower_withBlankToVariable
    (lowers : request.lower (options.withBlankToVariable false) = .ok operation) :
    if operation.fitsReplacing then
      ∃ (names : String → Option Variable) (replaced : Operation),
        request.lower (options.withBlankToVariable true) = .ok replaced
          ∧ operation.BlanksReplaced names replaced
          ∧ (∀ label label' name, names label = some name → names label' = some name →
            label = label')
          ∧ ∀ label name, names label = some name →
            .var name.name ∉ request.toJson.names ∧ .var name.name ∉ operation.allNames
    else request.lower (options.withBlankToVariable true)
      = .error (.traversal (.stackOverflow Traversal.defaultLimit)) := by
  have suits : (Context.ofOptions .plain options).Suits (.ofNames options) :=
    ⟨rfl, False.elim, Iff.rfl⟩
  have behaves := Context.behaves_request suits false
    (NameSupply.covers_ofNames request.names) request.meets_nothing
  obtain ⟨after, made⟩ := lower_ok_iff.1 lowers
  replace made : (Context.ofOptions .plain options).request false request (.ofNames request.names)
      = .ok operation after := made
  unfold Lowering.Behaves at behaves
  rw [made] at behaves
  obtain ⟨gives, isRequest⟩ := behaves
  obtain ⟨declared, ofDeclared, rewritten⟩ :=
    Context.request_of_ok suits request.meets_nothing.prologue made
  replace rewritten : (Context.ofOptions .plain (options.withBlankToVariable true)).request true
      request (.ofNames request.names) = declared.blanksToVariables operation after := rewritten
  split
  · rename_i fits
    obtain ⟨vars, last, success, areLabels, mints⟩ :=
      Context.blanksToVariables_mints ofDeclared.plain fits after
    refine ⟨(vars.lookup ·), _, lower_ok_iff.2 ⟨last, rewritten.trans success⟩, ?_, ?_, ?_⟩
    · apply Operation.blanksReplaced_replaceBlanks
      apply Context.replaces_labelTerm
      intro label mem
      rw [areLabels]
      exact List.mem_eraseDups.2 mem
    · intro label label' name isNamed isNamed'
      have same := List.inj_on_of_nodup_map mints.nodup (Context.mem_of_lookup isNamed)
        (Context.mem_of_lookup isNamed') rfl
      exact congrArg Prod.fst same
    · intro label name isNamed
      have isNew := mints.fresh _ (List.mem_map_of_mem (Context.mem_of_lookup isNamed))
      constructor
      · exact fun isWritten => isNew (gives.has _ (NameSupply.has_ofNames.2 isWritten))
      · exact fun inOperation => isNew (isRequest.allows _ inOperation)
  · rename_i overflow
    exact lower_error_iff.2 ⟨after, rewritten.trans
      (Context.blanksToVariables_of_not_fits (Bool.not_eq_true _ ▸ overflow) after)⟩

/-- The construction of a node for each node that is named by one that knows it:
`CONSTRUCT { _:b <ex:of> ?x } WHERE { _:b <ex:name> ?x FILTER EXISTS { _:b <ex:knows> _:x } }`. -/
private def constructKnown : Surface.Request :=
  ⟨.none, .query (.construct
    ⟨some [⟨.term (.blank "b"), .simple (.iri ⟨.full "ex:of", .none⟩), .term (.var ⟨"x"⟩)⟩], none,
      .group [
        .bgp [⟨.term (.blank "b"), .simple (.iri ⟨.full "ex:name", .none⟩),
          .term (.var ⟨"x"⟩)⟩] .none,
        .filter (.existence false (.group [
          .bgp [⟨.term (.blank "b"), .simple (.iri ⟨.full "ex:knows", .none⟩),
            .term (.blank "x")⟩] .none] .none)) .none] .none, .none⟩)⟩

/-- The operation of the construction. -/
private def constructedKnown : Operation :=
  .of (.construct
    (.of (.filter
      (.bgp [⟨.blank ⟨"b"⟩, .iri ⟨"ex:name"⟩, .var ⟨"x"⟩, .defaultGraph⟩])
      (.existence false
        (.bgp [⟨.blank ⟨"b"⟩, .iri ⟨"ex:knows"⟩, .blank ⟨"x"⟩, .defaultGraph⟩]))))
    [⟨.blank ⟨"b"⟩, .iri ⟨"ex:of"⟩, .var ⟨"x"⟩, .defaultGraph⟩])

/-- The label `x` is the name of a variable too, so another variable stands for it. -/
theorem lower_withBlankToVariable_constructKnown :
    constructKnown.lower (Options.withBlankToVariable {} false) = .ok constructedKnown
      ∧ ∃ (names : String → Option Variable) (replaced : Operation),
        constructKnown.lower (Options.withBlankToVariable {} true) = .ok replaced
          ∧ constructedKnown.BlanksReplaced names replaced
          ∧ names "x" ≠ some ⟨"x"⟩ := by
  have lowers : constructKnown.lower (Options.withBlankToVariable {} false)
      = .ok constructedKnown := rfl
  have fits : constructedKnown.fitsReplacing = true := by decide +kernel
  have inOperation : .var "x" ∈ constructedKnown.allNames := by decide +kernel
  have rewritten := lower_withBlankToVariable lowers
  rw [if_pos fits] at rewritten
  obtain ⟨names, replaced, asked, areReplaced, -, areNew⟩ := rewritten
  exact ⟨lowers, names, replaced, asked, areReplaced,
    fun isNamed => (areNew "x" ⟨"x"⟩ isNamed).2 inOperation⟩

end Surface.Request

end QueryAlgebra
