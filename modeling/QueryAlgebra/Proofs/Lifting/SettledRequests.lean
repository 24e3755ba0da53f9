import QueryAlgebra.Proofs.Lifting.NormalRereading
import QueryAlgebra.Proofs.Lifting.RetoldForms
import QueryAlgebra.Proofs.Lowering.FilledRequests
import QueryAlgebra.Proofs.Operation.CorrespondingGraphs
import QueryAlgebra.Proofs.Operation.MatchedGraphs

/-! # Settled queries that are lifted and lowered again

By induction over settled parts, patterns and expressions are written and read again with all
queries that are nested in them: `Part.IsSettled.reread`. A query that stands in a pattern is one
element of it, and its own pattern is written for it as for the whole query.

So a settled query is lifted to a request that is lowered to the same operation up to names, under
all options, with graph names in patterns and without them: `Surface.Request.lower_reasks`. From a
supply in which all known variables are in use, new variables stand for those of the aggregates;
from the supply of what is written, other new variables stand for these,
`Context.query_reserving`.
-/

namespace QueryAlgebra

/-! ### Parts that are written and read again -/

section

variable {context : Context} {known : Variable → Prop} {part : Part} {names : List Variable}

/-- What a part comes to when it is written and read. -/
def Context.ComesBack (context : Context) (known : Variable → Prop) : Part → List Variable → Prop
  | .pattern operation, names => context.Restored False known operation names
  | .expression expression, names => context.Retold False known expression names
  | .query query, names => ∃ asked, context.Reasks known query names asked

/-- A query that shows variables is a member of a join, and written in one way in a query form or
not. -/
private theorem GroupedQuery.operation_of_isSelect {query : GroupedQuery}
    (shows : query.form.isSelect = true) :
    query.operation.role = .member ∧ query.operation.operator.seesThrough = false := by
  have ofForm : (query.form.apply query.flat.solutions).role = .member
      ∧ (query.form.apply query.flat.solutions).operator.seesThrough = false := by
    cases form : query.form with
    | select duplicates vars => cases duplicates <;> exact ⟨rfl, rfl⟩
    | ask | describe | construct => rw [form] at shows; cases shows
  show (PlainQuery.askedOf query.dataset (PlainQuery.cut query.slice _)).role = _ ∧
    (PlainQuery.askedOf query.dataset (PlainQuery.cut query.slice _)).operator.seesThrough = _
  cases query.dataset with
  | some graphs => exact ⟨rfl, rfl⟩
  | none =>
    cases query.slice with
    | some bounds => exact ⟨rfl, rfl⟩
    | none => exact ofForm

/-- Without values on top, a settled pattern is written in a query form as elsewhere. -/
private theorem Part.IsSettled.written_inForm (settled : Part.IsSettled known part names) :
    ∀ operation, part = .pattern operation → operation.extended = [] →
      operation.written true = operation.written false := by
  induction settled with
  | graph writable isKnown ofInput ih =>
    rintro _ ⟨⟩ none
    rw [Operation.graph, Operation.of, Operation.written, Operation.written, Operator.written,
      Operator.written, ih _ rfl none]
  | extend isKnown ofInput ofValue =>
    rintro _ ⟨⟩ none
    exact absurd none (List.append_ne_nil_of_right_ne_nil _ (List.cons_ne_nil _ _))
  | subquery shows ofQuery =>
    rintro _ ⟨⟩ -
    exact Operation.written_inForm (GroupedQuery.operation_of_isSelect shows).2
  | _ =>
    rintro _ ⟨⟩ <;> exact fun _ => Operation.written_inForm rfl

/-- A settled query that shows variables stands in a pattern as an element of its own. -/
private theorem restored_subquery {query : GroupedQuery} (shows : query.form.isSelect = true)
    {asked : Surface.Query} (reasks : context.Reasks known query names asked) :
    context.Restored False known query.operation names := by
  obtain ⟨inner, rfl⟩ := reasks.selects shows
  have reads := reasks.reads
  rw [Context.query] at reads
  refine .member (.subquery inner .none) ?_ rfl rfl
    (GroupedQuery.operation_of_isSelect shows).1 (fun _ => rfl) ?_
  · rw [reasks.written]
    rfl
  · rwa [Context.pattern]

/-- Settled parts are written and read again, if no graph names are put into patterns. -/
theorem Part.IsSettled.reread (plain : context.MakesPlain) (triples : context.quads = false)
    (settled : Part.IsSettled known part names) :
    context.ComesBack known part names := by
  induction settled with
  | bgp normal isKnown => exact .bgp plain normal isKnown
  | values normal isKnown => exact .values plain normal isKnown
  | path normal isKnown => exact .path plain normal isKnown
  | graph writable isKnown _ input => exact .graph plain triples writable isKnown input
  | service writable isKnown _ input => exact .service plain writable isKnown input
  | filter _ _ input condition => exact .filter input condition
  | extend isKnown _ _ input value => exact .extend plain isKnown input value
  | join _ flat _ inputs => exact .join flat inputs
  | union _ several others _ inputs => exact .union several others inputs
  | optional other _ _ left right => exact .optional other left right
  | conditional _ _ _ left right condition => exact .conditional left right condition
  | minus _ _ left right => exact .minus left right
  | subquery shows _ query =>
    obtain ⟨asked, reasks⟩ := query
    exact restored_subquery shows reasks
  | term normal isKnown => exact .term plain normal isKnown
  | operatorCall _ takes _ arguments => exact .operatorCall takes arguments
  | functionCall _ writable _ arguments => exact .functionCall plain writable arguments
  | aggregate function _ argument => exact .aggregate function argument
  | aggregateOfAll function => exact .aggregateOfAll function
  | existence _ input => exact .existence input
  | query _ settled ofForm ofKeys ofValues ofCore _ core expressions =>
    obtain ⟨inner, restores⟩ := core
    refine GroupedQuery.Restores.reasked plain
      ⟨settled, ofForm, ofKeys, ofValues, restores, fun ungrouped => ?_, expressions⟩
    refine ofCore.written_inForm _ rfl (settled.base.resolve_left ?_)
    rw [ungrouped]
    exact Bool.false_ne_true

end

/-! ### Supplies in which more variables are in use -/

namespace NameSupply

variable {supply : NameSupply} {names : List Variable}

/-- Variables are in use besides those of a supply. -/
def reserving (supply : NameSupply) (names : List Variable) : NameSupply :=
  { supply with vars := supply.vars ++ names.map (·.name) }

theorem has_reserving {name : LocalName} (isUsed : supply.Has name) :
    (supply.reserving names).Has name := by
  cases name with
  | var name => exact List.mem_append_left _ isUsed
  | blank label => exact isUsed

theorem has_reserved {name : Variable} (member : name ∈ names) :
    (supply.reserving names).Has (.var name.name) :=
  List.mem_append_right _ (List.mem_map_of_mem member)

end NameSupply

namespace Context

open NamePairing (corresponding ofWritten)

variable {context : Context} {written : NameSupply}

/-- What is written is read as corresponding operations if no graph names are put into patterns. -/
private theorem compares_corresponding (plain : context.MakesPlain)
    (triples : context.quads = false) :
    context.Compares false (corresponding written) written (fun _ => True) True where
  closed := NamePairing.corresponding_closed written
  var pairing name isWritten := by
    rw [var_eq plain]
    exact .var (.var (pairing.itself isWritten))
  iri _ node := .iri node
  literal _ text := .literal text
  new pairing := NamePairing.relatesNew plain pairing
  triples _ _ := NamePairing.agree_basicGraphPattern plain
  template _ _ := NamePairing.agree_template plain
  data _ _ covers := by
    refine (NamePairing.agree_inlineData plain covers).imp
      fun later first second ⟨same, isTable⟩ => ?_
    obtain rfl := same
    obtain ⟨vars, rows, rfl, areWritten, known⟩ := isTable
    exact NamePairing.table_corresponds_self areWritten known
  binding _ _ := trivial
  graph _ _ _ itself alike tied := by
    rw [triples]
    exact .ok le_rfl tied (.mk none (.wrap (.graph itself) alike))

/-- From a supply with more variables in use, a query is read as the same operation up to the
variables that are taken. -/
theorem query_reserving (plain : context.MakesPlain) (triples : context.quads = false)
    {asked : Surface.Query} (covers : written.Covers asked.names) (names : List Variable)
    {operation : Operation} {after : NameSupply}
    (success : context.query asked written = .ok operation after) :
    ∃ (pairing : NamePairing written) (operation' : Operation) (after' : NameSupply),
      context.query asked (written.reserving names) = .ok operation' after'
        ∧ operation.Corresponds pairing.Related operation' := by
  have tied : (ofWritten written).Tied written (written.reserving names) := by
    refine ⟨rfl, rfl, ?_⟩
    rintro _ _ ⟨rfl, isWritten⟩
    exact ⟨isWritten, NameSupply.has_reserving isWritten⟩
  have outcome := compare_query (compares_corresponding plain triples) trivial covers
    (fun _ _ => trivial) _ _ tied
  have same : context.withQuads false = context := by rw [withQuads, ← triples]
  rw [same, success] at outcome
  cases ofSecond : context.query asked (written.reserving names) with
  | error => rw [ofSecond] at outcome; cases outcome
  | ok operation' after' =>
    rw [ofSecond] at outcome
    cases outcome with
    | ok _ _ correspond => exact ⟨_, operation', after', rfl, correspond⟩

end Context

/-! ### The same up to names -/

/-- Operations that differ in variables alone, which stand for each other one to one. -/
def Operation.SameUpToVariables (first second : Operation) : Prop :=
  ∃ related, Relator.BiUnique related ∧ (∀ m n, related m n → m.isVar = n.isVar)
    ∧ SameLabels related ∧ first.Corresponds related second

namespace Operation.SameUpToVariables

variable {first second : Operation}

theorem canonicalize (same : first.SameUpToVariables second) (tabular : first.HasTabularData) :
    first.canonicalize true = second.canonicalize true :=
  have ⟨_, oneToOne, kinds, _, correspond⟩ := same
  canonicalize_of_corresponds oneToOne kinds tabular correspond

theorem labels (same : first.SameUpToVariables second) : first.labels = second.labels :=
  have ⟨_, _, _, sameLabels, correspond⟩ := same
  correspond.labels sameLabels

theorem inBlockGraphs (same : first.SameUpToVariables second) :
    first.inBlockGraphs.SameUpToVariables second.inBlockGraphs :=
  have ⟨related, oneToOne, kinds, sameLabels, correspond⟩ := same
  ⟨related, oneToOne, kinds, sameLabels, correspond.inBlockGraphs⟩

end Operation.SameUpToVariables

namespace Context

variable {context : Context} {query : GroupedQuery} {known names : List Variable}
  {asked : Surface.Query}

/-- What a query is read as from the supply of its own names is the same up to variables. -/
theorem Reasks.sameUpToVariables (plain : context.MakesPlain) (triples : context.quads = false)
    (reasks : context.Reasks (· ∈ known) query names asked) (distinct : names.Nodup)
    (apart : ∀ name ∈ names, name ∉ known) {again : Operation} {after : NameSupply}
    (success : context.query asked (.ofNames asked.names) = .ok again after) :
    query.operation.SameUpToVariables again := by
  obtain ⟨pairing, again', after', success', toAgain⟩ := query_reserving plain triples
    (NameSupply.covers_ofNames asked.names) known success
  have ready : Renewals.Ready (· ∈ known) names
      ((NameSupply.ofNames asked.names).reserving known) :=
    fun _ => ⟨⟨distinct, apart⟩, fun name => NameSupply.has_reserved⟩
  obtain ⟨renewals, old, adds, holds⟩ := reasks.reads.renews _ _ _ ready success'
  obtain ⟨related, keep⟩ := ready.exists_keep old adds
  have oneToOne := pairing.related_biUnique
  refine ⟨fun m n => ∃ k, related m k ∧ pairing.Related n k, ⟨?_, ?_⟩, ?_, ?_, ?_⟩
  · rintro m m' n ⟨k, toFirst, fromFirst⟩ ⟨k', toSecond, fromSecond⟩
    obtain rfl := oneToOne.2 fromFirst fromSecond
    exact keep.oneToOne.1 toFirst toSecond
  · rintro m n n' ⟨k, toFirst, fromFirst⟩ ⟨k', toSecond, fromSecond⟩
    obtain rfl := keep.oneToOne.2 toFirst toSecond
    exact oneToOne.1 fromFirst fromSecond
  · rintro m n ⟨k, toName, fromName⟩
    exact (keep.kinds _ _ toName).trans fromName.isVar.symm
  · rintro label other ⟨k, toLabel, fromLabel⟩
    obtain rfl := keep.oneToOne.2 (keep.blank label) toLabel
    cases fromLabel
    rfl
  · exact (holds related keep).through (fun m n k toName fromName => ⟨k, toName, fromName⟩) toAgain

end Context

/-! ### Blank nodes -/

private theorem Term.replaceBlanks_itself (term : Term) :
    term.replaceBlanks (Context.labelTerm []) = term := by
  induction term with
  | quad subject predicate object graph ihSubject ihPredicate ihObject ihGraph =>
    show quad (subject.replaceBlanks _) (predicate.replaceBlanks _) (object.replaceBlanks _)
      (graph.replaceBlanks _) = _
    rw [ihSubject, ihPredicate, ihObject, ihGraph]
  | _ => rfl

private theorem idle_ofBlanks : (Rebuild.ofBlanks (Context.labelTerm [])).Idle where
  pattern place pattern := by
    show (if place = .bgp then pattern.mapTerms _ else pattern) = pattern
    split
    · exact congr (congr (congrArg₂ Pattern.mk (Term.replaceBlanks_itself _)
        (Term.replaceBlanks_itself _)) (Term.replaceBlanks_itself _)) (Term.replaceBlanks_itself _)
    · rfl
  expression _ := rfl
  operation operation := by
    obtain ⟨operator, metadata⟩ := operation
    show (⟨operator.replacePathBlanks _, metadata⟩ : Operation) = _
    cases operator with
    | path subject predicate object graph =>
      simp only [Operator.replacePathBlanks, Term.replaceBlanks_itself]
    | _ => rfl

/-- No blank node of an operation without labels becomes a variable. -/
theorem Context.blanksToVariables_unlabelled {context : Context} {operation again : Operation}
    {supply after : NameSupply} (labels : operation.labels = [])
    (success : context.blanksToVariables operation supply = .ok again after) :
    again = operation := by
  rw [blanksToVariables, labels, labelVariables] at success
  obtain ⟨_, between, -, rest⟩ := Lowering.of_bind_ok success
  rw [pure_bind] at rest
  exact (Lowering.of_pure_ok rest).1.symm.trans (Operation.rebuild_idle idle_ofBlanks operation)

/-! ### Requests -/

/-- The operation with graph names in its patterns, if these are asked for. -/
def Operation.placed (options : Options) (operation : Operation) : Operation :=
  if options.quads then operation.inBlockGraphs else operation

namespace Surface.Request

variable {options : Options} {query : GroupedQuery} {known names : List Variable} {asked : Query}
  {again : Operation}

private theorem lower_plain
    (reasks : (Context.ofOptions .plain (options.withQuads false)).Reasks (· ∈ known) query names
      asked) (distinct : names.Nodup) (apart : ∀ name ∈ names, name ∉ known)
    (labels : options.blankToVariable = true → query.operation.labels = [])
    (lowered : lower (options.withQuads false) ⟨.none, .query asked⟩ = .ok again) :
    query.operation.SameUpToVariables again := by
  obtain ⟨after, success⟩ := lower_ok_iff.1 lowered
  have whole : (Context.ofOptions .plain (options.withQuads false)).request options.blankToVariable
      ⟨.none, .query asked⟩ (.ofNames asked.names) = .ok again after := success
  rw [Context.request] at whole
  replace whole : (do
      let operation ← (Context.ofOptions .plain (options.withQuads false)).query asked
      if options.blankToVariable then
        (Context.ofOptions .plain (options.withQuads false)).blanksToVariables operation
      else pure operation) (.ofNames asked.names) = .ok again after := whole
  obtain ⟨made, between, ofQuery, rest⟩ := Lowering.of_bind_ok whole
  have plain : (Context.ofOptions .plain (options.withQuads false)).MakesPlain := rfl
  have same := reasks.sameUpToVariables plain rfl distinct apart ofQuery
  split at rest
  · rename_i blanks
    rwa [Context.blanksToVariables_unlabelled (same.labels ▸ labels blanks) rest]
  · rwa [← (Lowering.of_pure_ok rest).1]

/-- A query that is read as a settled one, but with new variables, is lowered to the operation of
that one up to variables. -/
theorem lower_reasks
    (reasks : (Context.ofOptions .plain (options.withQuads false)).Reasks (· ∈ known) query names
      asked) (distinct : names.Nodup) (apart : ∀ name ∈ names, name ∉ known)
    (labels : options.blankToVariable = true → query.operation.labels = [])
    (unbound : options.quads = true → asked.bindsInGraphs = false)
    (lowered : lower options ⟨.none, .query asked⟩ = .ok again) :
    (query.operation.placed options).SameUpToVariables again := by
  have ofPlain := @lower_plain options query known names asked
  rw [Operation.placed]
  split
  · rename_i quads
    have same : options.withQuads true = options := by rw [Options.withQuads, ← quads]
    have plain : (Context.ofOptions .plain (options.withQuads false)).MakesPlain := rfl
    have isQuery : (⟨.none, .query asked⟩ : Surface.Request).body = .query asked := rfl
    have alike := Context.agree_queryRequest plain rfl isQuery (unbound quads)
      options.blankToVariable (.ofNames asked.names)
    rcases lower_alike (options.withQuads false) (options.withQuads true) alike with
      ⟨plain, named, isPlain, isNamed, -, rfl⟩ | ⟨error, -, isNamed⟩
    · rw [same, lowered] at isNamed
      rw [Except.ok.inj isNamed]
      exact (ofPlain reasks distinct apart labels isPlain).inBlockGraphs
    · rw [same, lowered] at isNamed
      cases isNamed
  · rename_i triples
    have same : options.withQuads false = options := by
      rw [Options.withQuads, ← Bool.eq_false_iff.2 triples]
    exact ofPlain reasks distinct apart labels (same.symm ▸ lowered)

end Surface.Request

namespace Operation

/-- If an operation is written as a query after graph names are taken out of it, then it is lifted
to the request of that query, if at all. -/
theorem eq_request_of_lift {operation left : Operation} {request : Surface.Request}
    {asked : Surface.Query} (cleared : operation.withoutEmbeddedGraphs = left)
    (isQuery : left.operator.isUpdate = false) (written : left.written false = pure (.query asked))
    (lifted : operation.lift = .ok request) : request = ⟨.none, .query asked⟩ := by
  have body : left.writtenBody = .ok (.query asked) := by
    rw [writtenBody, isQuery, if_neg Bool.false_ne_true, written]
    rfl
  rw [lift, withoutGraphs, removeEmbeddedGraphs_eq, cleared] at lifted
  split at lifted
  · rename_i removed success
    split at success
    · obtain rfl := Except.ok.inj success
      replace lifted : (do
          let body ← left.writtenBody
          pure (⟨.none, body⟩ : Surface.Request)) = .ok request := lifted
      rw [body] at lifted
      exact (Except.ok.inj lifted).symm
    · cases success
  · cases lifted

/-- An operation with graph names in its patterns or without them is the same after these are taken
out. -/
theorem withoutEmbeddedGraphs_placed {operation : Operation} (options : Options)
    (inDefault : operation.inDefaultGraph = operation) :
    (operation.placed options).withoutEmbeddedGraphs = operation := by
  have taken : operation.inBlockGraphs.withoutEmbeddedGraphs = operation :=
    operation.withoutEmbeddedGraphs_inBlockGraphs.trans inDefault
  rw [placed]
  split
  · exact taken
  · have again := operation.inBlockGraphs.withoutEmbeddedGraphs_idempotent
    rwa [taken] at again

end Operation

end QueryAlgebra
