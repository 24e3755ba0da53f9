import QueryAlgebra.Proofs.Lifting.GrantedOperations
import QueryAlgebra.Proofs.Lifting.LiftedAgain
import QueryAlgebra.Proofs.Lifting.SubstantialPatterns
import QueryAlgebra.Proofs.Lifting.WrittenBlocks
import QueryAlgebra.Proofs.Lowering.AbsoluteRequests
import QueryAlgebra.Proofs.Operation.ClearedIris
import QueryAlgebra.Proofs.Traversal.Fitting

/-! # Updates that are written and read again

An update of triples is written in one of four forms, and each is read as an update of the same
triples. It has a pattern again just if it had one that was not empty, except where a template with
variables is deleted without a pattern: that is written in the form that matches the template, so
what is read has the template for its pattern.
-/

namespace QueryAlgebra

open Lowering (Yields)

namespace Operation

/-- An operation that some pattern is read as, with all IRIs in full. -/
structure IsRead (operation : Operation) : Prop where
  read : ∃ (context : Context) (pattern : Surface.Pattern) (supply after : NameSupply),
    context.pattern pattern supply = .ok operation after
  absolute : AllAbsolute operation.iris

/-- Over no base or an absolute one, every pattern is read with all IRIs in full. -/
theorem isRead_pattern {context : Context} (grounded : context.IsGrounded)
    {pattern : Surface.Pattern} {supply after : NameSupply} {operation : Operation}
    (read : context.pattern pattern supply = .ok operation after) : operation.IsRead :=
  ⟨⟨context, pattern, supply, after, read⟩,
    Context.absolute_pattern grounded pattern supply operation after read⟩

/-- What a pattern is read as, asked of a dataset or not. -/
inductive IsReadScope : Operation → Prop
  | pattern {operation : Operation} (isRead : operation.IsRead) : IsReadScope operation
  | dataset {default named : List NamedNode} {input : Operation} {metadata : Option Metadata}
    (full : AllAbsolute (default ++ named)) (isRead : input.IsRead) :
    IsReadScope ⟨.wrap (.dataset default named) input, metadata⟩

/-- An update without metadata that deletes and inserts the given patterns in any order, and that
takes its solutions from a pattern if asked. -/
inductive Updates (delete insert : List Pattern) (asked : Bool) : Operation → Prop
  | intro {delete' insert' : Option (List Pattern)} {scope : Option Operation}
    (deletes : (delete'.getD []).Perm delete) (inserts : (insert'.getD []).Perm insert)
    (matched : scope.isSome = asked) :
    Updates delete insert asked (.of (.deleteInsert delete' insert' scope))

/-- Blank nodes of templates stay when others are replaced. -/
theorem replaceBlanks_deleteInsert (replace : String → Term) (delete insert : Option (List Pattern))
    (scope : Option Operation) :
    Operation.replaceBlanks replace (.of (.deleteInsert delete insert scope))
      = .of (.deleteInsert delete insert (scope.map (Operation.replaceBlanks replace))) := by
  cases scope <;>
    simp [replaceBlanks, of, rebuild, Operator.rebuild, Rebuild.nothing, Operator.replacePathBlanks]

theorem Updates.replaceBlanks {delete insert : List Pattern} {asked : Bool} {operation : Operation}
    (updates : operation.Updates delete insert asked) (replace : String → Term) :
    (operation.replaceBlanks replace).Updates delete insert asked := by
  obtain ⟨deletes, inserts, matched⟩ := updates
  rw [replaceBlanks_deleteInsert]
  exact .intro deletes inserts (by rwa [Option.isSome_map])

end Operation

/-! ### Reading -/

namespace Context

variable {context : Context} {delete insert : List Pattern}

theorem getD_nonEmpty? (patterns : List Pattern) : (nonEmpty? patterns).getD [] = patterns := by
  unfold nonEmpty?
  split
  · rename_i empty
    exact (List.isEmpty_iff.1 empty).symm
  · rfl

/-- Blocks are read as the given patterns in some order. -/
def ReadsBlocks (context : Context) (blocks : List Surface.QuadBlock) (patterns : List Pattern) :
    Prop :=
  ∃ read, context.quadPatterns context.factory.defaultGraph blocks = pure read
    ∧ read.Perm patterns

theorem ReadsBlocks.nonEmpty? {blocks : List Surface.QuadBlock} {patterns : List Pattern}
    (reads : context.ReadsBlocks blocks patterns) :
    ∃ read, context.quadPatterns context.factory.defaultGraph blocks = pure read
      ∧ ((nonEmpty? read).getD []).Perm patterns := by
  obtain ⟨read, ofBlocks, same⟩ := reads
  exact ⟨read, ofBlocks, by rwa [getD_nonEmpty?]⟩

theorem yields_insertData {blocks : List Surface.QuadBlock}
    (reads : context.ReadsBlocks blocks insert) (span : Surface.Span) :
    Yields (Operation.Updates [] insert false) (context.update (.insertData blocks span)) := by
  obtain ⟨read, ofBlocks, same⟩ := reads.nonEmpty?
  rw [update, ofBlocks]
  exact .bind_any fun _ => .pure (.intro (.refl _) same rfl)

theorem yields_deleteData {blocks : List Surface.QuadBlock}
    (reads : context.ReadsBlocks blocks delete) (span : Surface.Span) :
    Yields (Operation.Updates delete [] false) (context.update (.deleteData blocks span)) := by
  obtain ⟨read, ofBlocks, same⟩ := reads.nonEmpty?
  rw [update, ofBlocks]
  exact .bind_any fun _ => .pure (.intro same (.refl _) rfl)

/-- What is matched and deleted is read as the pattern too. -/
theorem yields_deleteWhere {blocks : List Surface.QuadBlock}
    (reads : context.ReadsBlocks blocks delete) (span : Surface.Span) :
    Yields (Operation.Updates delete [] true) (context.update (.deleteWhere blocks span)) := by
  obtain ⟨read, ofBlocks, same⟩ := reads.nonEmpty?
  rw [update, ofBlocks]
  exact .bind_any fun _ => .pure (.intro same (.refl _) rfl)

theorem yields_modify (dataset : Option Surface.Dataset)
    {deleteBlocks insertBlocks : Option (List Surface.QuadBlock)} (pattern : Surface.Pattern)
    (span : Surface.Span) (deletes : context.ReadsBlocks (deleteBlocks.getD []) delete)
    (inserts : context.ReadsBlocks (insertBlocks.getD []) insert) :
    Yields (Operation.Updates delete insert (!isEmptyPattern pattern))
      (context.update (.modify ⟨none, dataset, deleteBlocks, insertBlocks, pattern, span⟩)) := by
  obtain ⟨deleted, ofDelete, sameDelete⟩ := deletes.nonEmpty?
  obtain ⟨inserted, ofInsert, sameInsert⟩ := inserts.nonEmpty?
  rw [update, modify]
  refine .bind_any fun _ => ?_
  refine .bind (.lift fun graph same => (Except.ok.inj same).symm) fun graph isNone => ?_
  subst isNone
  dsimp only [Option.map_none, Option.getD_none]
  rw [ofDelete, pure_bind, ofInsert, pure_bind]
  split
  · rename_i empty
    rw [empty]
    exact .pure (.intro sameDelete sameInsert rfl)
  · rename_i present
    rw [Bool.eq_false_iff.2 present]
    exact .bind_any fun _ => .bind_any fun _ => .pure (.intro sameDelete sameInsert rfl)

/-- A request for one update is read as the update is. -/
theorem yields_requestOfUpdate {update : Surface.Update} {asked : Bool}
    (yields : Yields (Operation.Updates delete insert asked) (context.update update))
    (blankToVariable : Bool) :
    Yields (Operation.Updates delete insert asked)
      (context.request blankToVariable ⟨.none, .update [⟨.none, update⟩]⟩) := by
  have ofBody : Yields (Operation.Updates delete insert asked)
      (context.body (.update [⟨.none, update⟩])) := by
    show Yields _ (do
      let operations ← (do
        let operation ← context.update update
        let operations ← context.updates []
        pure (operation :: operations))
      pure (updateSequence operations))
    refine .bind (yields.bind fun operation updates => .pure (P := fun operations =>
      ∃ operation, operations = [operation] ∧ operation.Updates delete insert asked)
        ⟨operation, rfl, updates⟩) ?_
    rintro operations ⟨operation, rfl, updates⟩
    exact .pure updates
  rw [request]
  show Yields _ (do
    let operation ← context.body (.update [⟨.none, update⟩])
    if blankToVariable then context.blanksToVariables operation else pure operation)
  refine ofBody.bind fun operation updates => ?_
  cases blankToVariable with
  | false => exact .pure updates
  | true => exact .bind_any fun _ => .bind_any fun vars => .pure (updates.replaceBlanks _)

end Context

namespace Operation

open Surface (Demands)

variable {options : Options} {delete insert : Option (List Pattern)}

/-! ### Writing -/

/-- The blocks of a template that can be written at all meet the demands on lifted requests, and
they are read as the template. -/
private theorem reads_writtenBlocks {context : Context} (plain : context.MakesPlain)
    {patterns : List Pattern} (quads : ∀ pattern ∈ patterns, pattern.isQuad = true)
    {blocks : List Surface.QuadBlock} (written : Pattern.writtenBlocks patterns = .ok blocks) :
    (∀ block ∈ blocks, block.Meets (.lifted options)) ∧ context.ReadsBlocks blocks patterns := by
  have admits : ∀ pattern ∈ patterns, (Demands.lifted options).Admit pattern.iris :=
    fun pattern member => Pattern.absolute_of_isQuad (quads pattern member)
  refine ⟨(Pattern.grants_writtenBlocks admits).of_ok written, ?_⟩
  obtain ⟨blocks', read, written', ofBlocks, same⟩ := Context.writtenBlocks_read plain quads
  cases written.symm.trans written'
  exact ⟨read, ofBlocks, same⟩

private theorem reads_optionalBlocks {context : Context} (plain : context.MakesPlain)
    {template : Option (List Pattern)}
    (quads : ∀ pattern ∈ template.getD [], pattern.isQuad = true)
    {blocks : Option (List Surface.QuadBlock)}
    (written : Pattern.optionalBlocks template = .ok blocks) :
    (∀ block ∈ blocks.getD [], block.Meets (.lifted options))
      ∧ context.ReadsBlocks (blocks.getD []) (template.getD []) := by
  cases template with
  | none =>
    cases written
    exact ⟨List.forall_mem_nil _, [], rfl, .refl _⟩
  | some patterns =>
    have written : some <$> Pattern.writtenBlocks patterns = .ok blocks := written
    cases made : Pattern.writtenBlocks patterns with
    | error error =>
      rw [made] at written
      cases written
    | ok blocks' =>
      rw [made] at written
      cases written
      exact reads_writtenBlocks plain quads made

/-- The dataset of what a pattern is read as meets the demands on lifted requests, and what is asked
of it is empty or written as something. -/
private theorem IsReadScope.splitDataset {operation : Operation} (isScope : operation.IsReadScope) :
    (∀ dataset ∈ operation.splitDataset.1, dataset.Meets (.lifted options))
      ∧ operation.splitDataset.2.IsEmptyOrSubstance
      ∧ AllAbsolute operation.splitDataset.2.iris := by
  have substance : ∀ {operation : Operation}, operation.IsRead → operation.IsEmptyOrSubstance :=
    fun ⟨⟨context, source, supply, after, read⟩, _⟩ =>
      context.yields_substance source supply _ after read
  have ofDataset : ∀ {default named : List NamedNode}, AllAbsolute (default ++ named) →
      ∀ dataset ∈ some (Surface.Dataset.ofNodes default named), dataset.Meets (.lifted options) :=
    fun full _ same => Option.some.inj same ▸ Surface.Dataset.meets_of_admit full
  cases isScope with
  | dataset full isRead => exact ⟨ofDataset full, substance isRead, isRead.absolute⟩
  | pattern isRead =>
    unfold Operation.splitDataset
    split
    · obtain ⟨ofInput, own⟩ := AllAbsolute.operation.1 isRead.absolute
      rcases substance isRead with empty | ofOperation
      · cases empty
      · cases ofOperation with
        | wrap asked => exact ⟨ofDataset own, .inr (asked _ _ rfl), ofInput⟩
    · exact ⟨fun _ absent => absurd absent (Option.not_mem_none _), substance isRead,
        isRead.absolute⟩

/-- The pattern of an update is written if there is one. -/
private theorem pattern_of_writtenWhere {input : Option Operation}
    (substance : ∀ operation ∈ input, operation.HasSubstance)
    (absolute : ∀ operation ∈ input, AllAbsolute operation.iris) {pattern : Surface.Pattern}
    (written : writtenWhere input = .ok pattern) :
    pattern.Meets (.lifted options) false ∧ Context.isEmptyPattern pattern = input.isNone := by
  cases input with
  | none =>
    cases written
    exact ⟨Surface.Pattern.meets_groupOf (List.forall_mem_nil _) false, rfl⟩
  | some operation =>
    obtain ⟨cleared, removed, written⟩ := ok_of_bind written
    obtain ⟨⟨elements, found⟩, ofElements, same⟩ := ok_of_bind written
    cases same
    have isCleared := lifts_withoutGraphs operation
    rw [removed] at isCleared
    obtain rfl : cleared = operation.withoutEmbeddedGraphs := isCleared
    have admits : (Demands.lifted options).Admit operation.withoutEmbeddedGraphs.iris :=
      absolute_withoutEmbeddedGraphs (absolute operation rfl)
    have fit := (grants_written (fun _ _ => trivial) false [] operation.withoutEmbeddedGraphs admits
      nofun).asElements.of_ok ofElements
    have substance := (substance operation rfl).withoutEmbeddedGraphs
    have present := substance.grants_written.elementsSubstance.of_ok ofElements
    exact ⟨Surface.Pattern.meets_groupOf fit.1 false,
      Surface.Pattern.isEmptyPattern_groupOf present⟩

/-- What an update takes its solutions from: its dataset, and its pattern unless that is empty. -/
private theorem of_updateScope (options : Options) {scope : Option Operation}
    (areScopes : ∀ operation ∈ scope, operation.IsReadScope) :
    (∀ dataset ∈ (updateScope scope).1, dataset.Meets (.lifted options))
      ∧ (∀ input ∈ (updateScope scope).2, input.HasSubstance)
      ∧ ∀ input ∈ (updateScope scope).2, AllAbsolute input.iris := by
  have nothing : ∀ {α : Type} {P : α → Prop}, ∀ value ∈ (none : Option α), P value :=
    fun _ absent => absurd absent (Option.not_mem_none _)
  cases scope with
  | none => exact ⟨nothing, nothing, nothing⟩
  | some operation =>
    obtain ⟨ofDataset, substance, absolute⟩ := (areScopes operation rfl).splitDataset
    refine ⟨ofDataset, ?_⟩
    rw [updateScope]
    dsimp only
    split
    · exact ⟨nothing, nothing⟩
    · rename_i present
      exact ⟨fun input same => Option.some.inj same ▸ substance.resolve_left present,
        fun input same => Option.some.inj same ▸ absolute⟩

/-- No graph names are taken out of an update, so what is written is the update alone. -/
theorem lift_deleteInsert (delete insert : Option (List Pattern)) (scope : Option Operation) :
    lift (.of (.deleteInsert delete insert scope)) = (do
      let update ← writtenDeleteInsert delete insert scope
      pure ⟨.none, .update [⟨.none, update⟩]⟩) := by
  have kept : withoutGraphs (.of (.deleteInsert delete insert scope))
      = .ok (.of (.deleteInsert delete insert scope)) := by
    rw [withoutGraphs, removeEmbeddedGraphs, Node.checkFits, Node.fits]
    rfl
  have units : writtenUnits [.of (.deleteInsert delete insert scope)] = (do
      let update ← writtenDeleteInsert delete insert scope
      pure [⟨.none, update⟩]) := by
    rw [writtenUnits]
    rfl
  rw [lift, kept]
  show (do
    let body ← writtenBody (.of (.deleteInsert delete insert scope))
    pure (⟨.none, body⟩ : Surface.Request)) = _
  have isUpdate : (of (.deleteInsert delete insert scope)).operator.isUpdate = true := rfl
  have alone : (of (.deleteInsert delete insert scope)).updates
      = [.of (.deleteInsert delete insert scope)] := rfl
  rw [writtenBody, if_pos isUpdate, alone, units]
  cases writtenDeleteInsert delete insert scope <;> rfl

/-- Whether an update without a pattern is written in the form that matches its template. -/
def matchesTemplate (delete insert : Option (List Pattern)) : Bool :=
  insert.isNone && (delete.getD []).any (·.hasVariable)

/-- A modification is read as an update with a pattern if it was written with one. -/
private theorem of_writtenModify {context : Context} (plain : context.MakesPlain)
    (quads : options.quads = true) (ofDelete : ∀ pattern ∈ delete.getD [], pattern.isQuad = true)
    (ofInsert : ∀ pattern ∈ insert.getD [], pattern.isQuad = true)
    {dataset : Option Surface.Dataset} {input : Option Operation}
    (ofDataset : ∀ graphs ∈ dataset, graphs.Meets (.lifted options))
    (substance : ∀ operation ∈ input, operation.HasSubstance)
    (absolute : ∀ operation ∈ input, AllAbsolute operation.iris) {update : Surface.Update}
    (written : writtenModify dataset delete insert input = .ok update) :
    update.Meets (.lifted options)
      ∧ Yields (Updates (delete.getD []) (insert.getD []) input.isSome)
        (context.update update) := by
  obtain ⟨pattern, ofPattern, written⟩ := ok_of_bind written
  obtain ⟨deletes, writtenDelete, written⟩ := ok_of_bind written
  obtain ⟨inserts, writtenInsert, written⟩ := ok_of_bind written
  cases written
  obtain ⟨patternMeets, isEmpty⟩ := pattern_of_writtenWhere substance absolute ofPattern
  obtain ⟨deletesMeet, readDelete⟩ := reads_optionalBlocks plain ofDelete writtenDelete
  obtain ⟨insertsMeet, readInsert⟩ := reads_optionalBlocks plain ofInsert writtenInsert
  refine ⟨⟨quads, fun _ absent => absurd absent (Option.not_mem_none _), ofDataset, deletesMeet,
    insertsMeet, patternMeets⟩, ?_⟩
  have yields := Context.yields_modify dataset pattern .none readDelete readInsert
  rwa [isEmpty, Option.not_isNone] at yields

/-- An update of triples that can be written is read as an update of the same triples. -/
private theorem of_writtenDeleteInsert {context : Context} (plain : context.MakesPlain)
    (quads : options.quads = true) (ofDelete : ∀ pattern ∈ delete.getD [], pattern.isQuad = true)
    (ofInsert : ∀ pattern ∈ insert.getD [], pattern.isQuad = true) {scope : Option Operation}
    (areScopes : ∀ operation ∈ scope, operation.IsReadScope) {update : Surface.Update}
    (written : writtenDeleteInsert delete insert scope = .ok update) :
    update.Meets (.lifted options)
      ∧ Yields (Updates (delete.getD []) (insert.getD [])
          ((updateScope scope).2.isSome || matchesTemplate delete insert))
        (context.update update) := by
  obtain ⟨ofDataset, substance, absolute⟩ := of_updateScope options areScopes
  unfold writtenDeleteInsert at written
  generalize updateScope scope = parts at *
  obtain ⟨dataset, input⟩ := parts
  dsimp only at *
  split at written
  · obtain ⟨blocks, made, same⟩ := ok_of_bind written
    cases same
    obtain ⟨meet, reads⟩ := reads_writtenBlocks plain ofInsert made
    have data : matchesTemplate none insert = false := Bool.and_false _
    rw [data]
    exact ⟨⟨quads, meet⟩, Context.yields_insertData reads .none⟩
  · rename_i template
    obtain ⟨blocks, made, same⟩ := ok_of_bind written
    obtain ⟨meet, reads⟩ := reads_writtenBlocks plain ofDelete made
    have matched : matchesTemplate (some template) none = template.any (·.hasVariable) :=
      Bool.true_and _
    rw [matched]
    cases same
    cases template.any (·.hasVariable) with
    | false => exact ⟨⟨quads, meet⟩, Context.yields_deleteData reads .none⟩
    | true => exact ⟨⟨quads, meet⟩, Context.yields_deleteWhere reads .none⟩
  · split at written
    · obtain ⟨blocks, made, same⟩ := ok_of_bind written
      cases same
      obtain ⟨meet, reads⟩ := reads_writtenBlocks plain ofDelete made
      exact ⟨⟨quads, meet⟩, Context.yields_deleteWhere reads .none⟩
    · exact of_writtenModify plain quads ofDelete ofInsert ofDataset substance absolute written
  · rename_i noData noTemplate _
    have modifies := of_writtenModify plain quads ofDelete ofInsert ofDataset substance absolute
      written
    have asked : (input.isSome || matchesTemplate delete insert) = input.isSome := by
      cases input with
      | some => rfl
      | none =>
        cases delete with
        | none => exact absurd rfl (noData rfl)
        | some template =>
          cases insert with
          | none => exact absurd rfl (noTemplate template rfl rfl)
          | some => rfl
    rwa [asked]

/-- An update of triples that can be written is read as an update of the same triples, unless the
stack is too small. That has a pattern if the first has one that is not empty; and it has one too if
a template with variables was deleted without a pattern, as what is written then matches it. -/
theorem relowered_update {scope : Option Operation} {request : Surface.Request}
    (quads : options.quads = true) (ofDelete : ∀ pattern ∈ delete.getD [], pattern.isQuad = true)
    (ofInsert : ∀ pattern ∈ insert.getD [], pattern.isQuad = true)
    (areScopes : ∀ operation ∈ scope, operation.IsReadScope)
    (lifts : lift (.of (.deleteInsert delete insert scope)) = .ok request) :
    (∃ limit, request.lower options = .error (.traversal (.stackOverflow limit)))
      ∨ ∃ again, request.lower options = .ok again
        ∧ again.Updates (delete.getD []) (insert.getD [])
          ((updateScope scope).2.isSome || matchesTemplate delete insert) := by
  rw [lift_deleteInsert] at lifts
  obtain ⟨update, written, same⟩ := ok_of_bind lifts
  cases same
  have plain : (Context.ofOptions .plain options).MakesPlain := rfl
  obtain ⟨meets, yields⟩ :=
    of_writtenDeleteInsert plain quads ofDelete ofInsert areScopes written
  have allMeet : Surface.Request.Meets (.lifted options) ⟨.none, .update [⟨.none, update⟩]⟩ :=
    ⟨.inl rfl, List.forall_mem_singleton.2 ⟨.inl rfl, meets⟩⟩
  refine (Surface.Request.exists_lower_of_meets allMeet).symm.imp id fun ⟨again, lowers⟩ => ?_
  obtain ⟨after, read⟩ := Surface.Request.lower_ok_iff.1 lowers
  exact ⟨again, lowers,
    Context.yields_requestOfUpdate yields options.blankToVariable _ _ _ read⟩

/-- Nodes that an IRI connects. -/
def connection (iri : String) : Pattern := ⟨.var ⟨"s"⟩, .iri ⟨iri⟩, .var ⟨"o"⟩, .defaultGraph⟩

/-- The triple of such nodes as it is written. -/
def connectionTriple (iri : String) : Surface.Triple :=
  ⟨.term (.var ⟨"s"⟩), .simple (.iri ⟨.full iri, .none⟩), .term (.var ⟨"o"⟩)⟩

/-- The request to connect nodes by another IRI than before. -/
def reconnectRequest (before after : String) : Surface.Request :=
  ⟨.none, .update [⟨.none, .modify ⟨none, none, some [⟨none, [connectionTriple before]⟩],
    some [⟨none, [connectionTriple after]⟩], .group [.bgp [connectionTriple before] .none] .none,
    .none⟩⟩]⟩

/-- A connection is found and replaced. -/
theorem relowered_update_reconnect :
    lift (.of (.deleteInsert (some [connection "http://example.org/p"])
        (some [connection "http://example.org/q"])
        (some (.bgp [connection "http://example.org/p"]))))
      = .ok (reconnectRequest "http://example.org/p" "http://example.org/q")
    ∧ ((∃ limit, (reconnectRequest "http://example.org/p" "http://example.org/q").lower
          { quads := true } = .error (.traversal (.stackOverflow limit)))
      ∨ ∃ again, (reconnectRequest "http://example.org/p" "http://example.org/q").lower
          { quads := true } = .ok again
        ∧ again.Updates [connection "http://example.org/p"] [connection "http://example.org/q"]
          true) := by
  have cleared : (Operation.bgp [connection "http://example.org/p"]).withoutGraphs
      = .ok (.bgp [connection "http://example.org/p"]) := by
    rw [withoutGraphs, removeEmbeddedGraphs, Node.checkFits_of_descend _ (by decide +kernel)]
    rfl
  have matched : writtenWhere (some (.bgp [connection "http://example.org/p"]))
      = .ok (.group [.bgp [connectionTriple "http://example.org/p"] .none] .none) := by
    rw [writtenWhere, cleared]
    rfl
  have lifts : lift (.of (.deleteInsert (some [connection "http://example.org/p"])
        (some [connection "http://example.org/q"])
        (some (.bgp [connection "http://example.org/p"]))))
      = .ok (reconnectRequest "http://example.org/p" "http://example.org/q") := by
    rw [lift_deleteInsert]
    show (do
      let update ← writtenModify none (some [connection "http://example.org/p"])
        (some [connection "http://example.org/q"])
        (some (.bgp [connection "http://example.org/p"]))
      pure (⟨.none, .update [⟨.none, update⟩]⟩ : Surface.Request)) = _
    rw [writtenModify, matched]
    rfl
  have read : (Operation.bgp [connection "http://example.org/p"]).IsRead :=
    ⟨⟨.ofOptions .plain {}, .bgp [connectionTriple "http://example.org/p"] .none,
      .ofNames ⟨[], []⟩, .ofNames ⟨[], []⟩, rfl⟩, by unfold AllAbsolute; decide +kernel⟩
  have deletesQuads : ∀ pattern ∈ [connection "http://example.org/p"], pattern.isQuad = true := by
    decide +kernel
  have insertsQuads : ∀ pattern ∈ [connection "http://example.org/q"], pattern.isQuad = true := by
    decide +kernel
  have areScopes : ∀ operation ∈ some (Operation.bgp [connection "http://example.org/p"]),
      operation.IsReadScope := fun _ same => Option.some.inj same ▸ .pattern read
  exact ⟨lifts, @relowered_update { quads := true } (some [connection "http://example.org/p"])
    (some [connection "http://example.org/q"]) _ _ rfl deletesQuads insertsQuads
    areScopes lifts⟩

/-- The request to delete whatever an IRI connects. -/
def disconnectRequest (iri : String) : Surface.Request :=
  ⟨.none, .update [⟨.none, .deleteWhere [⟨none, [connectionTriple iri]⟩] .none⟩]⟩

/-- Nothing is matched, so no variable of the template is bound and nothing is deleted. What is read
of the request matches the template and deletes all that it finds. -/
theorem not_relowered_update_disconnect :
    lift (.of (.deleteInsert (some [connection "http://example.org/p"]) none none))
      = .ok (disconnectRequest "http://example.org/p")
    ∧ (disconnectRequest "http://example.org/p").lower { quads := true }
      = .ok (.of (.deleteInsert (some [connection "http://example.org/p"]) none
        (some (.bgp [connection "http://example.org/p"]))))
    ∧ ¬ (Operation.of (.deleteInsert (some [connection "http://example.org/p"]) none
        (some (.bgp [connection "http://example.org/p"])))).Updates
      [connection "http://example.org/p"] [] false := by
  refine ⟨by rw [lift_deleteInsert]; rfl, rfl, ?_⟩
  rintro ⟨_, _, matched⟩
  cases matched

end Operation

end QueryAlgebra
