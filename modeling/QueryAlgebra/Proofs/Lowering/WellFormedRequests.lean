import QueryAlgebra.Lowering.Request
import QueryAlgebra.Proofs.Lowering.WellFormedPatterns
import QueryAlgebra.Proofs.Operation.BlankReplacement
import QueryAlgebra.Proofs.Operation.WellFormedRebuild

/-! # What requests become

Every request becomes the operation of a request, of names that are written in it or taken from the
supply: `Context.behaves_request`.
-/

namespace QueryAlgebra

/-! ### Blank nodes as variables -/

section

variable {bounds : Bounds} {replace : String → Term}

private theorem Term.replaceBlanks_of_isName {term : Term} (isName : term.IsName bounds) :
    term.replaceBlanks replace = term := by
  cases term with
  | var | iri => rfl
  | _ => cases isName

private theorem Term.isGraph_replaceBlanks {graph : Term} (isGraph : graph.IsGraph bounds) :
    (graph.replaceBlanks replace).IsGraph bounds := by
  rcases isGraph with rfl | ⟨graphs, isName⟩
  · exact .inl rfl
  · exact .inr ⟨graphs, (replaceBlanks_of_isName isName).symm ▸ isName⟩

private theorem Term.isNode_replaceBlanks
    (replaces : ∀ label, bounds.name (.blank label) → (replace label).IsNode bounds) {term : Term}
    (isNode : term.IsNode bounds) : (term.replaceBlanks replace).IsNode bounds := by
  induction term with
  | iri | literal | var => exact isNode
  | blank node => exact replaces node.label isNode
  | defaultGraph => cases isNode
  | quad subject predicate object graph ihSubject _ ihObject _ =>
    obtain ⟨ofSubject, ofPredicate, ofObject, rfl⟩ := isNode
    have keeps : predicate.replaceBlanks replace = predicate := replaceBlanks_of_isName ofPredicate
    show IsNode bounds (.quad (subject.replaceBlanks replace) (predicate.replaceBlanks replace)
      (object.replaceBlanks replace) .defaultGraph)
    rw [keeps]
    exact ⟨ihSubject ofSubject, ofPredicate, ihObject ofObject, rfl⟩

private theorem Pattern.wellFormed_replaceBlanks
    (replaces : ∀ label, bounds.name (.blank label) → (replace label).IsNode bounds)
    {pattern : Pattern} (wellFormed : pattern.WellFormed bounds) :
    (pattern.mapTerms (Term.replaceBlanks replace)).WellFormed bounds := by
  refine ⟨Term.isNode_replaceBlanks replaces wellFormed.subject, ?_,
    Term.isNode_replaceBlanks replaces wellFormed.object, Term.isGraph_replaceBlanks wellFormed.graph⟩
  rw [Pattern.mapTerms, Term.replaceBlanks_of_isName wellFormed.predicate]
  exact wellFormed.predicate

private theorem ofBlanks_same (operator : Operator) (metadata : Option Metadata)
    (other : operator.isMatching = false) :
    (Rebuild.ofBlanks replace).operation ⟨operator, metadata⟩ = ⟨operator, metadata⟩ := by
  cases operator with
  | path => cases other
  | _ => rfl

private theorem ofBlanks_maps
    (replaces : ∀ label, bounds.name (.blank label) → (replace label).IsNode bounds) :
    (Rebuild.ofBlanks replace).Maps bounds bounds where
  terms := ⟨fun _ => id, id⟩
  expression := rfl
  closed isClosed := nomatch isClosed
  bgp _ wellFormed := by
    refine ⟨rfl, fun pattern member => ?_⟩
    obtain ⟨pattern, isPattern, rfl⟩ := List.mem_map.1 member
    exact Pattern.wellFormed_replaceBlanks replaces (wellFormed pattern isPattern)
  path _ ofSubject ofPredicate ofObject ofGraph :=
    ⟨rfl, Term.isNode_replaceBlanks replaces ofSubject, ofPredicate,
      Term.isNode_replaceBlanks replaces ofObject, Term.isGraph_replaceBlanks ofGraph⟩
  operation {_ operation} other wellFormed := by
    obtain ⟨operator, metadata⟩ := operation
    rwa [ofBlanks_same operator metadata other]

private theorem ofBlanks_keepsForms : (Rebuild.ofBlanks replace).KeepsForms where
  wrap _ _ := rfl
  construct _ _ := rfl
  template _ := rfl
  same operator metadata other _ := ofBlanks_same operator metadata other

/-- The templates of an update keep their blank nodes. -/
private theorem replaceBlanks_deleteInsert (delete insert : Option (List Pattern))
    (scope : Option Operation) (metadata : Option Metadata) :
    Operation.replaceBlanks replace ⟨.deleteInsert delete insert scope, metadata⟩
      = ⟨.deleteInsert delete insert (scope.map (·.replaceBlanks replace)), metadata⟩ := by
  show Operation.rebuild (Rebuild.ofBlanks replace) _ = _
  rw [Operation.rebuild]
  cases scope with
  | none =>
    rw [Operator.rebuild, Rebuild.optional_ofBlanks (by decide),
      Rebuild.optional_ofBlanks (by decide)]
    rfl
  | some scope =>
    rw [Operator.rebuild, Rebuild.optional_ofBlanks (by decide),
      Rebuild.optional_ofBlanks (by decide)]
    rfl

private theorem isScope_replaceBlanks
    (replaces : ∀ label, bounds.name (.blank label) → (replace label).IsNode bounds)
    {operation : Operation} (isScope : operation.IsScope bounds) :
    (operation.replaceBlanks replace).IsScope bounds := by
  cases isScope with
  | pattern isPattern => exact .pattern ((ofBlanks_maps replaces).wellFormed _ isPattern)
  | dataset metadata nodes isPattern =>
    exact .dataset metadata nodes ((ofBlanks_maps replaces).wellFormed _ isPattern)

private theorem isUpdate_replaceBlanks
    (replaces : ∀ label, bounds.name (.blank label) → (replace label).IsNode bounds)
    {operation : Operation} (isUpdate : operation.IsUpdate bounds) :
    (operation.replaceBlanks replace).IsUpdate bounds := by
  cases isUpdate with
  | graphs metadata wellFormed => exact .graphs metadata wellFormed
  | @triples delete insert scope metadata graphs ofDelete ofInsert ofScope =>
    rw [replaceBlanks_deleteInsert]
    refine .triples metadata graphs ofDelete ofInsert fun operation isScope => ?_
    obtain ⟨scope, isOld, rfl⟩ := Option.map_eq_some_iff.1 isScope
    exact isScope_replaceBlanks replaces (ofScope scope isOld)

/-- Blank nodes are replaced by terms that may stand in their places. -/
theorem isRequest_replaceBlanks
    (replaces : ∀ label, bounds.name (.blank label) → (replace label).IsNode bounds)
    {operation : Operation} (isRequest : operation.IsRequest bounds) :
    (operation.replaceBlanks replace).IsRequest bounds := by
  cases isRequest with
  | nothing metadata => exact .nothing metadata
  | @updates inputs metadata areUpdates =>
    refine .updates metadata ?_
    induction inputs with
    | nil => exact List.forall_mem_nil _
    | cons input rest ih =>
      rw [List.forall_mem_cons] at areUpdates
      exact List.forall_mem_cons.2
        ⟨isUpdate_replaceBlanks replaces areUpdates.1, ih areUpdates.2⟩
  | update isUpdate => exact .update (isUpdate_replaceBlanks replaces isUpdate)
  | query isQuery =>
    exact .query ((ofBlanks_maps replaces).isQuery ofBlanks_keepsForms isQuery)

end

namespace Context

open Lowering (Behaves)

variable {context : Context} {guarantee : Guarantee} {supply : NameSupply}

private theorem behaves_labelVariables (suits : context.Suits guarantee) (labels : List String) :
    Behaves guarantee.clean
      (fun after vars => ∀ entry ∈ vars, entry.2.IsAllowed (guarantee.bounds after))
      (context.labelVariables labels) supply := by
  induction labels generalizing supply with
  | nil => exact .pure (List.forall_mem_nil _)
  | cons label rest ih =>
    rw [labelVariables]
    refine (Behaves.take (.labelled supply label)).bind fun name s₁ gives₁ isUsed => ?_
    refine ih.bind fun others s₂ gives₂ ofOthers => .pure (List.forall_mem_cons.2 ⟨?_, ofOthers⟩)
    rw [suits.plain]
    exact gives₂.has _ isUsed

private theorem isNode_labelTerm {bounds : Bounds} {vars : List (String × Variable)}
    (areAllowed : ∀ entry ∈ vars, entry.2.IsAllowed bounds) (label : String)
    (isAllowed : bounds.name (.blank label)) : (labelTerm vars label).IsNode bounds := by
  unfold labelTerm
  split
  · rename_i name isFound
    obtain ⟨entry, member, rfl⟩ : ∃ entry ∈ vars, entry.2 = name := by
      rw [List.lookup_eq_some_iff] at isFound
      obtain ⟨first, last, rfl, -⟩ := isFound
      exact ⟨(label, name), by simp, rfl⟩
    exact areAllowed entry member
  · exact isAllowed

theorem behaves_blanksToVariables (suits : context.Suits guarantee) {operation : Operation}
    (isRequest : operation.IsRequest (guarantee.bounds supply)) :
    Behaves guarantee.clean (fun after operation => operation.IsRequest (guarantee.bounds after))
      (context.blanksToVariables operation) supply := by
  rw [blanksToVariables]
  refine Behaves.bind (P := fun after _ => supply.Gives after) (.ofTraversal _ _ (.refl _))
    fun _ s₁ _ gives₁ => ?_
  refine (behaves_labelVariables suits operation.labels).bind fun vars s₂ gives₂ areAllowed =>
    .pure ?_
  exact isRequest_replaceBlanks (isNode_labelTerm areAllowed)
    ((guarantee.bounds_le (gives₁.trans gives₂)).isRequest isRequest)

/-! ### Declarations -/

private theorem settles_declarePrefixes (suits : context.Suits guarantee)
    (unclean : ¬ guarantee.clean) (declarations : List Surface.PrefixDeclaration) :
    Settles guarantee.clean (fun declared => declared.Suits guarantee)
      (declarations.foldlM declarePrefix context) := by
  induction declarations generalizing context with
  | nil => exact suits
  | cons declaration rest ih =>
    have first : Settles guarantee.clean (fun declared => declared.Suits guarantee)
        (context.declarePrefix declaration) := by
      rw [declarePrefix]
      exact (settles_resolve suits declaration.span fun clean => absurd clean unclean).bind
        fun _ _ => ⟨suits.plain, suits.base, suits.quads⟩
    rw [List.foldlM_cons]
    exact first.bind fun declared ofDeclared => ih ofDeclared

/-- After declarations, terms are made as before. -/
theorem settles_declare (suits : context.Suits guarantee) {prologue : Surface.Prologue}
    (meets : prologue.Meets guarantee.demands) :
    Settles guarantee.clean (fun declared => declared.Suits guarantee)
      (context.declare prologue) := by
  rcases meets with rfl | loose
  · exact suits
  · have unclean : ¬ guarantee.clean := fun clean => guarantee.tight clean loose
    obtain ⟨base, prefixes⟩ := prologue
    rw [declare]
    cases base with
    | none => exact settles_declarePrefixes suits unclean prefixes
    | some declaration =>
      refine (settles_resolve suits declaration.span fun clean => absurd clean unclean).bind
        fun base absolute => ?_
      have declared : Context.Suits { context with base := some base } guarantee :=
        ⟨suits.plain, fun strict text isBase => Option.some.inj isBase ▸ absolute strict, suits.quads⟩
      exact settles_declarePrefixes declared unclean prefixes

/-! ### Queries -/

private theorem isQuery_sliced {bounds : Bounds} (limit offset : Option Nat) {operation : Operation}
    (isQuery : operation.IsQuery bounds) : (sliced limit offset operation).IsQuery bounds := by
  unfold sliced
  split
  · exact isQuery
  · exact .slice _ _ _ isQuery

private theorem settles_overDataset_query (suits : context.Suits guarantee)
    {dataset : Option Surface.Dataset} (meets : ∀ graphs ∈ dataset, graphs.Meets guarantee.demands)
    {operation : Operation} (isQuery : operation.IsQuery (guarantee.bounds supply)) :
    Settles guarantee.clean (fun result => result.IsQuery (guarantee.bounds supply))
      (context.overDataset dataset operation) := by
  refine (settles_overDataset suits supply meets operation).imp fun result isResult => ?_
  rcases isResult with rfl | ⟨default, named, full, rfl⟩
  · exact isQuery
  · exact .dataset _ full isQuery

mutual

/-- The triples of a pattern that is its own template are among its names. -/
theorem covers_patternTriples : ∀ pattern : Surface.Pattern,
    supply.Covers pattern.names → ∀ triple ∈ pattern.triples, supply.Covers triple.names
  | .bgp _ _, covers => NameSupply.covers_all.1 covers
  | .group members _, covers => covers_elementTriples members covers
  | .optional .., _ | .minus .., _ | .union .., _ | .filter .., _ | .bind .., _ | .values .., _
  | .graph .., _ | .service .., _ | .subquery .., _ => List.forall_mem_nil _

private theorem covers_elementTriples : ∀ members : List Surface.Pattern,
    supply.Covers (Surface.Pattern.namesOfAll members) →
      ∀ triple ∈ Surface.Pattern.triples.ofElements members, supply.Covers triple.names
  | [], _ => List.forall_mem_nil _
  | member :: rest, covers => by
    obtain ⟨ofMember, ofRest⟩ := NameSupply.covers_and.1 covers
    exact List.forall_mem_append.2
      ⟨covers_patternTriples member ofMember, covers_elementTriples rest ofRest⟩

end

/-- The solutions of a query that binds nothing for what it shows. -/
private theorem behaves_clauses (suits : context.Suits guarantee) {modifiers : Surface.Modifiers}
    (covers : supply.Covers modifiers.names) (meets : modifiers.Meets guarantee.demands)
    {input : Operation} (isPattern : input.IsPattern (guarantee.bounds supply)) :
    Behaves guarantee.clean (fun after operation => operation.IsPattern (guarantee.bounds after))
      (context.solutions [] [] input modifiers) supply :=
  behaves_solutions suits modifiers covers meets (List.forall_mem_nil _)
    (BoundAggregate.allWellFormed_iff.2 (List.forall_mem_nil _)) isPattern

theorem behaves_construct (suits : context.Suits guarantee) {query : Surface.Construct}
    (covers : supply.Covers query.names) (meets : query.Meets guarantee.demands) :
    Behaves guarantee.clean (fun after operation => operation.IsQuery (guarantee.bounds after))
      (context.construct query) supply := by
  obtain ⟨template, dataset, pattern, modifiers⟩ := query
  simp only [Surface.Construct.names, NameSupply.covers_and] at covers
  obtain ⟨⟨ofTemplate, ofPattern⟩, ofModifiers⟩ := covers
  have ofTriples : ∀ triple ∈ template.getD pattern.triples, supply.Covers triple.names := by
    cases template with
    | none => exact covers_patternTriples pattern ofPattern
    | some triples => exact NameSupply.covers_all.1 ofTemplate
  rw [construct]
  refine (behaves_pattern suits pattern ofPattern meets.pattern).bind fun input s₁ gives₁ input₁ => ?_
  refine (behaves_clauses suits (ofModifiers.mono gives₁) meets.modifiers input₁).bind
    fun solutions s₂ gives₂ solutions₂ => ?_
  refine (behaves_template suits (isGraph_defaultGraph suits)
    (fun triple member => (ofTriples triple member).mono (gives₁.trans gives₂))
    meets.template).bind fun patterns s₃ gives₃ patterns₃ => .lift ?_
  refine settles_overDataset_query suits meets.dataset (isQuery_sliced _ _ (.construct _ ?_ ?_))
  · exact (guarantee.bounds_le gives₃).operation _ solutions₂
  · intro pattern member
    obtain ⟨wellFormed, inDefault⟩ := patterns₃ pattern member
    rw [suits.plain] at inDefault
    exact wellFormed.inDefault inDefault

theorem behaves_ask (suits : context.Suits guarantee) {query : Surface.Ask}
    (covers : supply.Covers query.names) (meets : query.Meets guarantee.demands) :
    Behaves guarantee.clean (fun after operation => operation.IsQuery (guarantee.bounds after))
      (context.ask query) supply := by
  obtain ⟨ofPattern, ofModifiers⟩ := NameSupply.covers_and.1 covers
  rw [ask]
  refine (behaves_pattern suits _ ofPattern meets.pattern).bind fun input s₁ gives₁ input₁ => ?_
  refine (behaves_clauses suits (ofModifiers.mono gives₁) meets.modifiers input₁).bind
    fun solutions s₂ gives₂ solutions₂ => .lift ?_
  exact settles_overDataset_query suits meets.dataset (isQuery_sliced _ _ (.ask _ solutions₂))

private theorem settles_resources (suits : context.Suits guarantee)
    {resources : List Surface.VarOrIri} (covers : ∀ name ∈ resources, supply.Covers name.names)
    (meets : ∀ name ∈ resources, name.Meets guarantee.demands) :
    Settles guarantee.clean (fun terms => ∀ term ∈ terms, term.IsName (guarantee.bounds supply))
      (context.resources resources) := by
  induction resources with
  | nil => exact List.forall_mem_nil _
  | cons name rest ih =>
    rw [List.forall_mem_cons] at covers meets
    rw [Context.resources]
    refine (settles_varOrIri suits covers.1 meets.1).bind fun term isName => ?_
    refine (ih covers.2 meets.2).bind fun terms areNames => ?_
    exact List.forall_mem_cons.2 ⟨isName, areNames⟩

theorem settles_described (suits : context.Suits guarantee) {query : Surface.Describe}
    (covers : supply.Covers query.names) (meets : query.target.Meets guarantee.demands) :
    Settles guarantee.clean (fun terms => ∀ term ∈ terms, term.IsName (guarantee.bounds supply))
      (context.described query) := by
  obtain ⟨target, dataset, pattern, modifiers⟩ := query
  simp only [Surface.Describe.names, NameSupply.covers_and] at covers
  obtain ⟨⟨ofTarget, ofPattern⟩, ofModifiers⟩ := covers
  cases target with
  | resources resources => exact settles_resources suits (NameSupply.covers_all.1 ofTarget) meets
  | all =>
    obtain ⟨groupBy, having, orderBy, limit, offset, values⟩ := modifiers
    have written := NameSupply.covers_and.2 ⟨ofPattern, (covers_modifiers.1 ofModifiers).2.2.2⟩
    intro term member
    obtain ⟨name, isStarred, rfl⟩ := List.mem_map.1 member
    exact isAllowed_var suits (written.vars (Surface.starVariables_include _ _ name isStarred))

theorem behaves_describe (suits : context.Suits guarantee) {query : Surface.Describe}
    (covers : supply.Covers query.names) (meets : query.Meets guarantee.demands) :
    Behaves guarantee.clean (fun after operation => operation.IsQuery (guarantee.bounds after))
      (context.describe query) supply := by
  obtain ⟨⟨-, ofPattern⟩, ofModifiers⟩ := (by
    simpa only [Surface.Describe.names, NameSupply.covers_and] using covers :
      (_ ∧ supply.Covers (Surface.Names.optional Surface.Pattern.names query.pattern))
        ∧ supply.Covers query.modifiers.names)
  have finish : ∀ {input s₁}, supply.Gives s₁ → input.IsPattern (guarantee.bounds s₁) →
      Behaves guarantee.clean (fun after operation => operation.IsQuery (guarantee.bounds after))
        (do
          let solutions ← context.solutions [] [] input query.modifiers
          let terms ← context.described query
          context.overDataset query.dataset
            (sliced query.modifiers.limit query.modifiers.offset
              (.of (.wrap (.describe terms) solutions)))) s₁ := by
    intro input s₁ gives₁ input₁
    refine (behaves_clauses suits (ofModifiers.mono gives₁) meets.modifiers input₁).bind
      fun solutions s₂ gives₂ solutions₂ => ?_
    refine .bindLift (settles_described suits (covers.mono (gives₁.trans gives₂)) meets.target)
      fun terms areNames => .lift ?_
    exact settles_overDataset_query suits meets.dataset
      (isQuery_sliced _ _ (.describe _ areNames solutions₂))
  rw [describe]
  cases isPattern : query.pattern with
  | some pattern =>
    rw [isPattern] at ofPattern
    exact (behaves_pattern suits pattern ofPattern (meets.pattern pattern isPattern)).bind
      fun input s₁ gives₁ input₁ => finish gives₁ input₁
  | none => exact finish (.refl _) (Operation.isPattern_bgp (List.forall_mem_nil _))

theorem behaves_query (suits : context.Suits guarantee) {query : Surface.Query}
    (covers : supply.Covers query.names) (meets : query.Meets guarantee.demands) :
    Behaves guarantee.clean (fun after operation => operation.IsQuery (guarantee.bounds after))
      (context.query query) supply := by
  cases query with
  | select query =>
    exact (behaves_select suits query covers meets).imp fun _ _ _ wellFormed => .select wellFormed
  | construct query => exact behaves_construct suits covers meets
  | ask query => exact behaves_ask suits covers meets
  | describe query => exact behaves_describe suits covers meets

/-! ### Updates -/

private theorem settles_requireQuads (suits : context.Suits guarantee) (span : Surface.Span)
    (updates : guarantee.demands.updates) :
    Settles guarantee.clean (fun _ => guarantee.graphs) (context.requireQuads span) := by
  rw [requireQuads]
  split
  · rename_i quads
    exact suits.quads.1 quads
  · rename_i noQuads
    exact fun clean => noQuads (suits.quads.2 (guarantee.updates clean updates))

private theorem settles_optionalNode (suits : context.Suits guarantee) (supply : NameSupply)
    {iri : Option Surface.Iri} (meets : ∀ name ∈ iri, guarantee.demands.iri name) :
    Settles guarantee.clean (fun node => ∀ full ∈ node, full.IsFull (guarantee.bounds supply))
      (context.optionalNode iri) := by
  cases iri with
  | none => exact fun _ absent => absurd absent (Option.not_mem_none _)
  | some iri =>
    rw [optionalNode]
    exact (settles_namedNode suits supply (meets iri rfl)).bind fun node full _ isNode =>
      Option.some.inj isNode ▸ full

/-- The patterns of a template whose blocks stand in graphs. -/
private theorem behaves_quadPatterns (suits : context.Suits guarantee) (graphs : guarantee.graphs)
    {graph : Term} {blocks : List Surface.QuadBlock}
    (isGraph : graph.IsGraph (guarantee.bounds supply))
    (covers : ∀ block ∈ blocks, supply.Covers block.names)
    (meets : ∀ block ∈ blocks, block.Meets guarantee.demands) :
    Behaves guarantee.clean
      (fun after patterns => ∀ pattern ∈ patterns, pattern.WellFormed (guarantee.bounds after))
      (context.quadPatterns graph blocks) supply := by
  induction blocks generalizing supply with
  | nil => exact .pure (List.forall_mem_nil _)
  | cons block rest ih =>
    rw [List.forall_mem_cons] at covers meets
    obtain ⟨ofName, ofTriples⟩ := NameSupply.covers_and.1 covers.1
    have finish : ∀ {blockGraph : Term}, blockGraph.IsGraph (guarantee.bounds supply) →
        Behaves guarantee.clean
          (fun after patterns => ∀ pattern ∈ patterns, pattern.WellFormed (guarantee.bounds after))
          (do
            let patterns ← context.template blockGraph block.triples
            let others ← context.quadPatterns graph rest
            pure (patterns ++ others)) supply := by
      intro blockGraph ofBlock
      refine (behaves_template suits ofBlock (NameSupply.covers_all.1 ofTriples)
        meets.1.triples).bind fun patterns s₁ gives₁ patterns₁ => ?_
      refine (ih ((guarantee.bounds_le gives₁).isGraph isGraph)
        (fun block member => (covers.2 block member).mono gives₁) meets.2).bind
        fun others s₂ gives₂ others₂ => .pure (List.forall_mem_append.2 ⟨?_, others₂⟩)
      exact fun pattern member => (guarantee.bounds_le gives₂).pattern (patterns₁ pattern member).1
    rw [quadPatterns]
    cases isNamed : block.graph with
    | none => exact finish isGraph
    | some name =>
      rw [isNamed] at ofName
      exact .bindLift (settles_varOrIri suits ofName (meets.1.graph name isNamed))
        fun blockGraph isName => finish (.inr ⟨graphs, isName⟩)

private theorem forall_mem_nonEmpty {bounds : Bounds} {patterns : List Pattern}
    (wellFormed : ∀ pattern ∈ patterns, pattern.WellFormed bounds) :
    ∀ template ∈ nonEmpty? patterns, ∀ pattern ∈ template, pattern.WellFormed bounds := by
  intro template isTemplate
  unfold nonEmpty? at isTemplate
  split at isTemplate
  · cases isTemplate
  · exact Option.some.inj isTemplate ▸ wellFormed

private theorem behaves_scopeOf (suits : context.Suits guarantee) (graphs : guarantee.graphs)
    {dataset : Option Surface.Dataset} (meets : ∀ graphs ∈ dataset, graphs.Meets guarantee.demands)
    {graph : Option Term} (isName : ∀ name ∈ graph, name.IsName (guarantee.bounds supply))
    {operation : Operation} (isPattern : operation.IsPattern (guarantee.bounds supply)) :
    Behaves guarantee.clean (fun after scope => scope.IsScope (guarantee.bounds after))
      (context.scopeOf dataset graph operation) supply := by
  unfold scopeOf
  split
  · rename_i asked isAsked
    have ofAsked : ∀ graphs ∈ some asked, graphs.Meets guarantee.demands := fun graphs isGraphs =>
      Option.some.inj isGraphs ▸ meets asked (Option.eq_some_of_filter_eq_some isAsked)
    refine .lift ((settles_overDataset suits supply ofAsked operation).imp fun result isResult => ?_)
    rcases isResult with rfl | ⟨default, named, full, rfl⟩
    · exact .pattern isPattern
    · exact .dataset _ full isPattern
  · exact (behaves_embedGraph suits graphs (isName _ rfl) isPattern).imp
      fun _ _ _ isPattern => .pattern isPattern
  · exact .pure (.pattern isPattern)

private theorem covers_blocks {blocks : Option (List Surface.QuadBlock)}
    (covers : supply.Covers (Surface.Names.optional (Surface.Names.all Surface.QuadBlock.names) blocks)) :
    ∀ block ∈ blocks.getD [], supply.Covers block.names := by
  cases blocks with
  | none => exact List.forall_mem_nil _
  | some blocks => exact NameSupply.covers_all.1 covers

theorem behaves_modify (suits : context.Suits guarantee) {update : Surface.Modify}
    (covers : supply.Covers (Surface.Update.modify update).names)
    (meets : update.Meets guarantee.demands) :
    Behaves guarantee.clean (fun after operation => operation.IsUpdate (guarantee.bounds after))
      (context.modify update) supply := by
  simp only [Surface.Update.names, NameSupply.covers_and] at covers
  obtain ⟨⟨ofDelete, ofInsert⟩, ofPattern⟩ := covers
  rw [modify]
  refine .bindLift (settles_requireQuads suits update.span meets.updates) fun _ graphs => ?_
  refine .bindLift (settles_optionalNode suits supply meets.withGraph) fun node full => ?_
  have isName : ∀ name ∈ node.map Term.iri, name.IsName (guarantee.bounds supply) := by
    intro name isGraph
    obtain ⟨graph, isNode, rfl⟩ := Option.map_eq_some_iff.1 isGraph
    exact full graph isNode
  have isGraph : ((node.map Term.iri).getD context.factory.defaultGraph).IsGraph
      (guarantee.bounds supply) := by
    cases node with
    | none => exact isGraph_defaultGraph suits
    | some graph => exact .inr ⟨graphs, full graph rfl⟩
  refine (behaves_quadPatterns suits graphs isGraph (covers_blocks ofDelete) meets.delete).bind
    fun delete s₁ gives₁ delete₁ => ?_
  refine (behaves_quadPatterns suits graphs ((guarantee.bounds_le gives₁).isGraph isGraph)
    (fun block member => (covers_blocks ofInsert block member).mono gives₁) meets.insert).bind
    fun insert s₂ gives₂ insert₂ => ?_
  have upTo₂ := gives₁.trans gives₂
  have finish : ∀ {scope : Option Operation} {after}, s₂.Gives after →
      (∀ operation ∈ scope, operation.IsScope (guarantee.bounds after)) →
      Operation.IsUpdate (guarantee.bounds after)
        (.of (.deleteInsert (nonEmpty? delete) (nonEmpty? insert) scope)) := by
    intro scope after gives ofScope
    refine .triples _ graphs (forall_mem_nonEmpty fun pattern member => ?_)
      (forall_mem_nonEmpty fun pattern member => ?_) ofScope
    · exact (guarantee.bounds_le (gives₂.trans gives)).pattern (delete₁ pattern member)
    · exact (guarantee.bounds_le gives).pattern (insert₂ pattern member)
  show Behaves _ _ (if _ then _ else _) _
  split
  · exact .pure (finish (.refl _) fun _ absent => absurd absent (Option.not_mem_none _))
  · refine (behaves_pattern suits update.pattern (ofPattern.mono upTo₂) meets.pattern).bind
      fun operation s₃ gives₃ isPattern => ?_
    refine (behaves_scopeOf suits graphs meets.dataset (fun name isGraph =>
      (guarantee.bounds_le (upTo₂.trans gives₃)).isName (isName name isGraph)) isPattern).bind
      fun scope s₄ gives₄ isScope => .pure ?_
    exact finish (gives₃.trans gives₄) fun operation same => Option.some.inj same ▸ isScope

private theorem settles_clearTarget (suits : context.Suits guarantee) (supply : NameSupply)
    {target : Surface.ClearTarget} (meets : target.Meets guarantee.demands) :
    Settles guarantee.clean (fun target => target.IsFull (guarantee.bounds supply))
      (context.clearTarget target) := by
  cases target with
  | graph iri =>
    rw [clearTarget]
    exact (settles_namedNode suits supply meets).bind fun node full => full
  | default | named | all => exact trivial

private theorem settles_graphOrDefault (suits : context.Suits guarantee) (supply : NameSupply)
    {graph : Surface.GraphOrDefault} (meets : graph.Meets guarantee.demands) :
    Settles guarantee.clean (fun target => target.IsSingle (guarantee.bounds supply))
      (context.graphOrDefault graph) := by
  cases graph with
  | graph iri =>
    rw [graphOrDefault]
    exact (settles_namedNode suits supply meets).bind fun node full => full
  | default => exact trivial

theorem behaves_update (suits : context.Suits guarantee) {update : Surface.Update}
    (covers : supply.Covers update.names) (meets : update.Meets guarantee.demands) :
    Behaves guarantee.clean (fun after operation => operation.IsUpdate (guarantee.bounds after))
      (context.update update) supply := by
  have absent : ∀ {bounds : Bounds}, ∀ template ∈ (none : Option (List Pattern)),
      ∀ pattern ∈ template, pattern.WellFormed bounds :=
    fun _ absent => absurd absent (Option.not_mem_none _)
  have noScope : ∀ {bounds : Bounds}, ∀ scope ∈ (none : Option Operation), scope.IsScope bounds :=
    fun _ absent => absurd absent (Option.not_mem_none _)
  cases update with
  | insertData quads span =>
    rw [Context.update]
    refine .bindLift (settles_requireQuads suits span meets.1) fun _ graphs => ?_
    refine (behaves_quadPatterns suits graphs (isGraph_defaultGraph suits)
      (NameSupply.covers_all.1 covers) meets.2).bind fun insert after gives wellFormed => .pure ?_
    exact .triples _ graphs absent (forall_mem_nonEmpty wellFormed) noScope
  | deleteData quads span =>
    rw [Context.update]
    refine .bindLift (settles_requireQuads suits span meets.1) fun _ graphs => ?_
    refine (behaves_quadPatterns suits graphs (isGraph_defaultGraph suits)
      (NameSupply.covers_all.1 covers) meets.2).bind fun delete after gives wellFormed => .pure ?_
    exact .triples _ graphs (forall_mem_nonEmpty wellFormed) absent noScope
  | deleteWhere quads span =>
    rw [Context.update]
    refine .bindLift (settles_requireQuads suits span meets.1) fun _ graphs => ?_
    refine (behaves_quadPatterns suits graphs (isGraph_defaultGraph suits)
      (NameSupply.covers_all.1 covers) meets.2).bind fun delete after gives wellFormed => .pure ?_
    refine .triples _ graphs (forall_mem_nonEmpty wellFormed) absent fun operation isScope => ?_
    exact Option.some.inj isScope ▸ .pattern (Operation.isPattern_bgp wellFormed)
  | modify update => exact behaves_modify suits covers meets
  | load silent source destination =>
    rw [Context.update]
    refine .bindLift (settles_namedNode suits supply meets.1) fun source ofSource => ?_
    exact .bindLift (settles_optionalNode suits supply meets.2) fun destination ofDestination =>
      .pure (.graphs _ ⟨ofSource, ofDestination⟩)
  | clear silent target =>
    rw [Context.update]
    exact .bindLift (settles_clearTarget suits supply meets) fun target full => .pure (.graphs _ full)
  | drop silent target =>
    rw [Context.update]
    exact .bindLift (settles_clearTarget suits supply meets) fun target full => .pure (.graphs _ full)
  | create silent graph =>
    rw [Context.update]
    exact .bindLift (settles_namedNode suits supply meets) fun node full => .pure (.graphs _ full)
  | transfer how silent source destination =>
    rw [Context.update]
    refine .bindLift (settles_graphOrDefault suits supply meets.1) fun source ofSource => ?_
    exact .bindLift (settles_graphOrDefault suits supply meets.2) fun destination ofDestination =>
      .pure (.graphs _ ⟨ofSource, ofDestination⟩)

private theorem behaves_updates (suits : context.Suits guarantee) {units : List Surface.UpdateUnit}
    (covers : ∀ unit ∈ units, supply.Covers unit.update.names)
    (meets : ∀ unit ∈ units,
      unit.prologue.Meets guarantee.demands ∧ unit.update.Meets guarantee.demands) :
    Behaves guarantee.clean
      (fun after operations => ∀ operation ∈ operations,
        operation.IsUpdate (guarantee.bounds after))
      (context.updates units) supply := by
  induction units generalizing context supply with
  | nil => exact .pure (List.forall_mem_nil _)
  | cons unit rest ih =>
    rw [List.forall_mem_cons] at covers meets
    rw [updates]
    refine .bindLift (settles_declare suits meets.1.1) fun declared ofDeclared => ?_
    refine (behaves_update ofDeclared covers.1 meets.1.2).bind fun operation s₁ gives₁ first => ?_
    refine (ih ofDeclared (fun unit member => (covers.2 unit member).mono gives₁) meets.2).bind
      fun operations s₂ gives₂ others => .pure (List.forall_mem_cons.2 ⟨?_, others⟩)
    exact (guarantee.bounds_le gives₂).isUpdate first

private theorem isRequest_updateSequence {bounds : Bounds} {operations : List Operation}
    (areUpdates : ∀ operation ∈ operations, operation.IsUpdate bounds) :
    (updateSequence operations).IsRequest bounds := by
  match operations, areUpdates with
  | [], _ => exact .nothing _
  | [operation], areUpdates => exact .update (areUpdates operation List.mem_cons_self)
  | _ :: _ :: _, areUpdates => exact .updates _ areUpdates

/-! ### Requests -/

/-- A request becomes the operation of a request. -/
theorem behaves_request (suits : context.Suits guarantee) (blankToVariable : Bool)
    {request : Surface.Request} (covers : supply.Covers request.names)
    (meets : request.Meets guarantee.demands) :
    Behaves guarantee.clean (fun after operation => operation.IsRequest (guarantee.bounds after))
      (context.request blankToVariable request) supply := by
  obtain ⟨prologue, body⟩ := request
  rw [Context.request]
  refine .bindLift (settles_declare suits meets.prologue) fun declared ofDeclared => ?_
  have ofBody : Behaves guarantee.clean
      (fun after operation => operation.IsRequest (guarantee.bounds after))
      (declared.body body) supply := by
    cases body with
    | query asked =>
      exact (behaves_query ofDeclared covers meets.body).imp fun _ _ _ isQuery => .query isQuery
    | update units =>
      exact (behaves_updates ofDeclared (NameSupply.covers_all.1 covers) meets.body).bind
        fun operations after gives areUpdates => .pure (isRequest_updateSequence areUpdates)
  refine ofBody.bind fun operation after gives isRequest => ?_
  cases blankToVariable with
  | false => exact .pure isRequest
  | true => exact behaves_blanksToVariables ofDeclared isRequest

end Context

end QueryAlgebra
