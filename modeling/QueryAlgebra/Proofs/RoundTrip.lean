import QueryAlgebra.Proofs.Lifting.QueryNames
import QueryAlgebra.Proofs.Lifting.SettledRequests
import QueryAlgebra.Proofs.Operation.CanonicalForm

/-! # Writing an operation and reading it again

An operation is stable if the request that it is written as is read as the same operation, up to
names. Not every operation is. The settled ones are, with groups, subqueries and all that may be
nested in them, and of the plain queries no others: `Operation.isStable_settled`.
-/

namespace QueryAlgebra

/-- An operation that is written and read again under given options is the same up to names. -/
def Operation.IsStable (options : Options) (operation : Operation) : Prop :=
  ∀ request again, operation.lift = .ok request → request.lower options = .ok again →
    operation.canonicalize true = again.canonicalize true

/-- Whether an operation is that of a query that comes back, with graph names in its patterns if
these are asked for. Everything in the query is settled, and the variables of its aggregates are
different from each other and from all others. It names no other graphs and has no blank nodes that
would become variables, and in quad mode nothing is bound in the graph blocks that are written. -/
structure Operation.IsSettled (options : Options) (operation : Operation) : Prop where
  query : ∃ (query : GroupedQuery) (known names : List Variable),
    Part.IsSettled (· ∈ known) (.query query) names ∧ names.Nodup ∧ (∀ name ∈ names, name ∉ known)
      ∧ query.operation.inDefaultGraph = query.operation
      ∧ (options.blankToVariable = true → query.operation.labels = [])
      ∧ query.operation.placed options = operation
  tabular : operation.HasTabularData
  blocks : options.quads = true → ∀ asked, operation.lift = .ok ⟨.none, .query asked⟩ →
    asked.bindsInGraphs = false

theorem Operation.IsSettled.isStable {options : Options} {operation : Operation}
    (settled : operation.IsSettled options) : operation.IsStable options := by
  obtain ⟨⟨query, known, names, ofQuery, distinct, apart, inDefault, labels, rfl⟩, tabular, blocks⟩
    := settled
  intro request again lifted lowered
  have plain : (Context.ofOptions .plain (options.withQuads false)).MakesPlain := rfl
  obtain ⟨asked, reasks⟩ := ofQuery.reread plain rfl
  obtain rfl := eq_request_of_lift (withoutEmbeddedGraphs_placed options inDefault)
    (PlainQuery.isUpdate_operation query.flat) reasks.written lifted
  exact (Surface.Request.lower_reasks reasks distinct apart labels
    (fun quads => blocks quads asked lifted) lowered).canonicalize tabular

theorem Operation.canonicalize_of_fits {operation : Operation} (fits : operation.fits = true) :
    operation.canonicalize true = .ok (operation.canonical true) := by
  rw [canonicalize, Node.checkFits_of_descend _ fits]
  rfl

namespace PlainQuery

/-- Whether a plain query is the one that is read when it is written: the pieces of its core come to
the core again, the form takes up its values last and in their order, values that are left do not go
below the filters of a lone group, a star lists what the form shows, and no slice of everything is
left out. -/
structure IsSettled (query : PlainQuery) : Prop where
  core : Piece.alone query.core.pieces = query.core
  values : query.left ++ query.shown = query.bindings
  inside : query.left = [] ∨ (Piece.opened query.core.pieces).2 = []
  star : query.hasStar = true → query.form.showing query.starred = query.form
  slice : query.slice ≠ some (0, none)

variable {query : PlainQuery}

/-- The core of the query that is read again, if values that are left do not go below filters. -/
private theorem core_reread
    (inside : query.left = [] ∨ (Piece.opened query.core.pieces).2 = []) :
    query.reread.core = query.left.extend (Piece.alone query.core.pieces) := by
  have whole := Piece.filtered_opened query.core.pieces
  show filtered (query.left.extend _) _ = _
  rcases inside with none | none
  · rw [none]
    exact whole
  · rw [none] at whole ⊢
    rw [← whole]
    rfl

theorem IsSettled.operation_reread (settled : query.IsSettled) :
    query.reread.operation = query.operation := by
  have form : query.reread.form = query.form := by
    rw [reread]
    split
    · exact settled.star ‹_›
    · rfl
  have slice : query.reread.slice = query.slice := by
    have kept := settled.slice
    show query.slice.filter _ = _
    rcases same : query.slice with _ | slice
    · rfl
    · have other : slice ≠ (0, none) := fun equal => kept (same.trans (congrArg some equal))
      simp [Option.filter, other]
  have body : query.reread.bindings.extend query.reread.core = query.bindings.extend query.core := by
    rw [core_reread settled.inside, settled.core]
    show query.shown.extend (query.left.extend query.core) = _
    rw [← Bindings.extend_append, settled.values]
  show askedOf query.dataset (cut query.reread.slice (query.reread.form.apply
    (ordered query.order (query.reread.bindings.extend query.reread.core)))) = _
  rw [form, slice, body]
  rfl

/-! ### What equal canonical names tell -/

private theorem length_bindings (query : PlainQuery) :
    query.bindings.length = query.left.length + query.shown.length := by
  rw [← List.length_append]
  exact (Bindings.perm_take query.form.vars query.bindings).length_eq.symm

/-- Values that are left go below filters only if there are none, as a filter is no bound value. -/
private theorem inside_of_renamed {f g : LocalName → String}
    (same : (query.bindings.extend query.core).renameLocal f
      = (query.shown.extend query.reread.core).renameLocal g) :
    query.left = [] ∨ (Piece.opened query.core.pieces).2 = [] := by
  obtain ⟨first, last, split, lengths⟩ : ∃ first last : Bindings,
      query.bindings = first ++ last ∧ last.length = query.shown.length := by
    refine ⟨List.take query.left.length query.bindings, List.drop query.left.length query.bindings,
      (List.take_append_drop ..).symm, ?_⟩
    rw [List.length_drop, length_bindings]
    omega
  rw [split, Bindings.extend_append] at same
  have inner := (Bindings.eq_of_renamed lengths same).1
  cases filters : (Piece.opened query.core.pieces).2 with
  | nil => exact .inr rfl
  | cons filter rest =>
    left
    have ofCore : query.reread.core
        = filtered (query.left.extend (Piece.opened query.core.pieces).1) (filter :: rest) := by
      rw [← filters]
      rfl
    rw [ofCore] at inner
    have none : first = [] := by
      cases first using List.reverseRecOn with
      | nil => rfl
      | append_singleton before entry =>
        rw [Bindings.extend_append] at inner
        cases inner
    have both := length_bindings query
    rw [split, none, List.nil_append] at both
    exact List.length_eq_zero_iff.1 (by omega)

/-- The new names of the terms that a query shows, and the values of its bindings in their order. -/
private theorem values_of_renamed {f g : LocalName → String}
    (distinct : (query.bindings.map (·.1)).Nodup)
    (injective : ∀ m ∈ query.bindings.localNames, ∀ n ∈ query.bindings.localNames,
      f m = f n → m = n)
    (injective' : ∀ m ∈ query.bindings.localNames, ∀ n ∈ query.bindings.localNames,
      g m = g n → m = n)
    (ofTerms : query.form.terms.map (Term.renameLocal f)
      = query.reread.form.terms.map (Term.renameLocal g))
    (ofValues : query.bindings.map (fun entry => f (.var entry.1.name))
      = (query.left ++ query.shown).map (fun entry => g (.var entry.1.name))) :
    query.left ++ query.shown = query.bindings := by
  by_cases nothing : query.shown = []
  · have part : query.left.Sublist query.bindings := by
      rw [left, Bindings.left_eq_filter distinct]
      exact List.filter_sublist
    rw [nothing, List.append_nil]
    apply part.eq_of_length
    rw [length_bindings, nothing, List.length_nil, Nat.add_zero]
  · have form : query.reread.form = query.form := by
      have noStar : query.hasStar = false := by
        simp [hasStar, nothing]
      rw [reread, noStar, if_neg Bool.false_ne_true]
    rw [form, List.map_inj_left] at ofTerms
    have agree : ∀ name ∈ query.form.vars, f (.var name.name) = g (.var name.name) := by
      intro name member
      have inTerms : Term.var name ∈ query.form.terms := by
        cases same : query.form with
        | select duplicates vars =>
          rw [same] at member
          exact List.mem_map_of_mem member
        | _ => rw [same] at member; cases member
      exact congrArg Variable.name (Term.var.inj (ofTerms _ inTerms))
    have names : ∀ {x y : Variable × Expression},
        LocalName.var x.1.name = LocalName.var y.1.name → x.1 = y.1 := fun same =>
      congrArg Variable.mk (LocalName.var.inj same)
    exact Bindings.left_append_shown distinct (f := fun name => f (.var name.name))
      (g := fun name => g (.var name.name))
      (fun x inX y inY same => names (injective _ (Bindings.mem_localNames inX) _
        (Bindings.mem_localNames inY) same))
      (fun x inX y inY same => names (injective' _ (Bindings.mem_localNames inX) _
        (Bindings.mem_localNames inY) same)) agree ofValues

/-- A query that is read again as the same up to names is settled. -/
private theorem isSettled_of_canonical (plain : query.IsPlain)
    (distinct : (query.bindings.map (·.1)).Nodup)
    (same : query.operation.canonical true = query.reread.operation.canonical true) :
    query.IsSettled := by
  rw [Operation.canonical_true, Operation.canonical_true] at same
  generalize f_eq : canonicalRenaming (firstSeen query.operation.localNames) = f at same
  generalize g_eq : canonicalRenaming (firstSeen query.reread.operation.localNames) = g at same
  obtain ⟨slice, ofForms⟩ :=
    eq_of_renamed_cut query.slice (eq_of_renamed_askedOf query.dataset same)
  have alike : query.reread.form = query.form
      ∨ ∃ vars, query.reread.form = query.form.showing vars := by
    rw [reread]
    split
    · exact .inr ⟨_, rfl⟩
    · exact .inl rfl
  obtain ⟨ofSolutions, ofTerms⟩ := QueryForm.eq_of_renamed alike ofForms
  have ofBodies := eq_of_renamed_ordered query.order ofSolutions
  have inside := inside_of_renamed ofBodies
  have ofCore := core_reread inside
  have body : query.shown.extend query.reread.core
      = Bindings.extend (query.left ++ query.shown) (Piece.alone query.core.pieces) := by
    rw [ofCore, Bindings.extend_append]
  have lengths : query.bindings.length = (query.left ++ query.shown).length := by
    rw [length_bindings, List.length_append]
  have ofBodies' : (query.bindings.extend query.core).renameLocal f = (Bindings.extend
      (query.left ++ query.shown) (Piece.alone query.core.pieces)).renameLocal g := by
    rw [← body]
    exact ofBodies
  obtain ⟨ofCores, ofValues⟩ := Bindings.eq_of_renamed lengths ofBodies'
  -- Both queries begin with the names of the core, and go on with those of the values.
  have names : query.operation.localNames = query.core.localNames ++ (query.bindings.localNames
      ++ (orderNames query.order ++ query.form.localNames)) := by
    rw [localNames_operation, List.append_assoc, List.append_assoc]
  have names' : query.reread.operation.localNames
      = query.core.localNames ++ (Bindings.localNames (query.left ++ query.shown)
        ++ (orderNames query.order ++ query.reread.form.localNames)) := by
    rw [localNames_operation, ofCore, Bindings.localNames_extend,
      Operation.localNames_alone plain.core, Bindings.localNames_append]
    simp only [List.append_assoc]
    rfl
  rw [names] at f_eq
  rw [names'] at g_eq
  subst f_eq g_eq
  have values : query.left ++ query.shown = query.bindings := by
    have known : query.bindings.localNames ⊆ Bindings.localNames (query.left ++ query.shown) :=
      Bindings.localNames_subset (Bindings.perm_take query.form.vars query.bindings).symm.subset
    refine values_of_renamed distinct (fun m mem n mem' renamed => ?_)
      (fun m mem n mem' renamed => ?_) ofTerms ofValues
    · exact canonicalRenaming_injective
        (List.mem_eraseDups.2 (List.mem_append_right _ (List.mem_append_left _ mem)))
        (List.mem_eraseDups.2 (List.mem_append_right _ (List.mem_append_left _ mem'))) renamed
    · exact canonicalRenaming_injective
        (List.mem_eraseDups.2 (List.mem_append_right _ (List.mem_append_left _ (known mem))))
        (List.mem_eraseDups.2 (List.mem_append_right _ (List.mem_append_left _ (known mem'))))
        renamed
  refine ⟨?_, values, inside, ?_, slice⟩
  · refine (Operation.eq_of_renamed ?_ ofCores).symm
    rw [Operation.localNames_alone plain.core]
    exact separates_canonical (List.subset_append_left ..) (List.Subset.refl _)
  · intro isStar
    have form : query.reread.form = query.form.showing query.starred := by
      rw [reread, if_pos isStar]
    have none : query.shown = [] := List.isEmpty_iff.1 (Bool.and_eq_true_iff.1 isStar).1
    have left : query.left = query.bindings := by rw [← values, none, List.append_nil]
    rw [form, values, ← List.append_assoc, ← List.append_assoc, ← List.append_assoc,
      ← List.append_assoc] at ofTerms
    refine QueryForm.showing_of_terms (Term.all_eq_of_renamed ?_ ofTerms)
    refine separates_canonical (fun name member => ?_) (fun name member => ?_)
    · exact List.mem_append_right _ (QueryForm.subset_localNames _ member)
    · refine List.mem_append_left _ ?_
      rw [← left]
      exact subset_of_starred plain.core member

/-- A plain query that the traversals can hold can be written and is read as `reread` says, and it
is stable exactly if it is settled. -/
theorem isStable_iff_isSettled (options : Options) (plain : query.IsPlain)
    (base : query.core.isExtend = false) (distinct : (query.bindings.map (·.1)).Nodup)
    (fits : query.operation.fits = true) (fitsAgain : query.reread.operation.fits = true) :
    (∃ request, query.operation.lift = .ok request
        ∧ request.lower options = .ok query.reread.operation)
      ∧ (query.operation.IsStable options ↔ query.IsSettled) := by
  obtain ⟨request, lifted, lowered⟩ := lower_lift options plain base fits fitsAgain
  refine ⟨⟨request, lifted, lowered⟩, ?_⟩
  constructor
  · intro stable
    have same := stable request _ lifted lowered
    rw [Operation.canonicalize_of_fits fits, Operation.canonicalize_of_fits fitsAgain] at same
    exact isSettled_of_canonical plain distinct (Except.ok.inj same)
  · intro settled request' again lifted' lowered'
    obtain rfl : request = request' := Except.ok.inj (lifted.symm.trans lifted')
    rw [lowered, settled.operation_reread] at lowered'
    rw [Except.ok.inj lowered']

end PlainQuery

/-! ### A settled query and a plain one -/

/-- The query for the latest time of every node:
`SELECT ?s (MAX(?v) AS ?m) { ?s ex:at ?v } GROUP BY ?s`. -/
def latestOfNodes : GroupedQuery where
  form := .select .keep [⟨"s"⟩, ⟨"m"⟩]
  core := .bgp [⟨.var ⟨"s"⟩, .iri ⟨"ex:at"⟩, .var ⟨"v"⟩, .defaultGraph⟩]
  bindings := [(⟨"m"⟩, .aggregate "max" (.var ⟨"v"⟩) false none)]
  order := []
  slice := none
  dataset := none
  keys := [⟨"s"⟩]
  aggregates := [⟨⟨"var0"⟩, .aggregate "max" (.var ⟨"v"⟩) false none⟩]
  conditions := []

/-- How many objects there are. -/
def countOfObjects : Expression := .aggregate "count" (.var ⟨"o"⟩) false none

/-- The query for the ten graphs in which most nodes are reached, from nodes with a time and without
an end:
`SELECT ?g (COUNT(?o) AS ?n) { GRAPH ?g { ?s ex:p+ ?o } { … } FILTER NOT EXISTS { ?s ex:q ?x } }`
`GROUP BY ?g HAVING (COUNT(?o) > "1") ORDER BY DESC(COUNT(?o)) LIMIT 10`, with the query for the
latest times in the inner braces. -/
def mostReached : GroupedQuery where
  form := .select .keep [⟨"g"⟩, ⟨"n"⟩]
  core := .of (.filter
    (.of (.combine .join [
      Operation.graph (.of (.path (.var ⟨"s"⟩) (.oneOrMore (.link ⟨"ex:p"⟩)) (.var ⟨"o"⟩)
          .defaultGraph)) (.var ⟨"g"⟩),
      latestOfNodes.operation]))
    (.existence true (.bgp [⟨.var ⟨"s"⟩, .iri ⟨"ex:q"⟩, .var ⟨"x"⟩, .defaultGraph⟩])))
  bindings := [(⟨"n"⟩, countOfObjects)]
  order := [(.descending, countOfObjects)]
  slice := some (0, some 10)
  dataset := none
  keys := [⟨"g"⟩]
  aggregates := [⟨⟨"var1"⟩, countOfObjects⟩]
  conditions := [.operator ">" [countOfObjects, .term (.literal (.plain "1"))]]

private theorem allKnown_of_subset {known : List Variable} {names : List LocalName}
    (subset : ∀ name ∈ names, name.isVar = true → name ∈ known.map (.var ·.name)) :
    AllKnown (· ∈ known) names := by
  intro name member
  obtain ⟨other, isKnown, same⟩ := List.mem_map.1 (subset _ member rfl)
  rwa [show name = other from congrArg Variable.mk (LocalName.var.inj same).symm]

/-- The variables that are written. -/
private abbrev known : List Variable := [⟨"g"⟩, ⟨"s"⟩, ⟨"o"⟩, ⟨"x"⟩, ⟨"v"⟩, ⟨"m"⟩, ⟨"n"⟩]

private theorem isSettled_latestOfNodes :
    Part.IsSettled (· ∈ known) (.query latestOfNodes) [⟨"var0"⟩] := by
  have clauses : latestOfNodes.IsSettled :=
    ⟨rfl, nofun, nofun, nofun, rfl, by decide, by decide, nofun, rfl, by decide, .inl rfl, .inl rfl,
      fun star => absurd star (by decide)⟩
  have core : Part.IsSettled (· ∈ known) (.pattern latestOfNodes.core) [] :=
    .bgp rfl (allKnown_of_subset (by decide))
  refine .query (fun _ => []) clauses (allKnown_of_subset (by decide)) (by decide) (by decide)
    core ?_
  exact List.forall_mem_singleton.2 (.aggregate rfl (.term rfl (allKnown_of_subset (by decide))))

private theorem isSettled_countOfObjects :
    Part.IsSettled (· ∈ known) (.expression countOfObjects) [] :=
  .aggregate rfl (.term rfl (allKnown_of_subset (by decide)))

/-- The variable that is taken for the subquery. -/
private def namesOfMostReached : Operation → List Variable
  | ⟨.wrap (.project _) _, _⟩ => [⟨"var0"⟩]
  | _ => []

private theorem isSettled_mostReached :
    Part.IsSettled (· ∈ known) (.query mostReached) [⟨"var0"⟩, ⟨"var1"⟩] := by
  have clauses : mostReached.IsSettled :=
    ⟨rfl, nofun, nofun, by decide, by decide +kernel, by decide, by decide +kernel,
      by decide +kernel, by decide +kernel, by decide, .inl (by decide +kernel), .inl rfl,
      fun star => absurd star (by decide +kernel)⟩
  have joined : Part.IsSettled (· ∈ known) (.pattern (.of (.combine .join [
      Operation.graph (.of (.path (.var ⟨"s"⟩) (.oneOrMore (.link ⟨"ex:p"⟩)) (.var ⟨"o"⟩)
        .defaultGraph)) (.var ⟨"g"⟩), latestOfNodes.operation]))) [⟨"var0"⟩] := by
    refine .join namesOfMostReached (by decide +kernel)
      (List.forall_mem_cons.2 ⟨?_, List.forall_mem_singleton.2 ?_⟩)
    · exact Part.isSettled_of_isNormal (by decide +kernel) (allKnown_of_subset (by decide))
    · exact .subquery rfl isSettled_latestOfNodes
  have core : Part.IsSettled (· ∈ known) (.pattern mostReached.core) [⟨"var0"⟩] :=
    .filter joined (.existence (.bgp (by decide +kernel) (allKnown_of_subset (by decide))))
  have compared : Part.IsSettled (· ∈ known)
      (.expression (.operator ">" [countOfObjects, .term (.literal (.plain "1"))])) [] :=
    .operatorCall (fun _ => []) (by decide +kernel)
      (List.forall_mem_cons.2 ⟨isSettled_countOfObjects,
        List.forall_mem_singleton.2 (.term rfl (allKnown_of_subset (by decide)))⟩)
  refine .query (fun _ => []) clauses (allKnown_of_subset (by decide))
    (by decide) (by decide) core ?_
  exact List.forall_mem_cons.2 ⟨isSettled_countOfObjects, List.forall_mem_cons.2
    ⟨compared, List.forall_mem_singleton.2 isSettled_countOfObjects⟩⟩

/-- The query for the ten objects of the greatest subjects, each with a name of its own. -/
def lastObjects : PlainQuery where
  form := .select .distinct [⟨"s"⟩, ⟨"object"⟩]
  core := .bgp [⟨.var ⟨"s"⟩, .iri ⟨"ex:p"⟩, .var ⟨"o"⟩, .defaultGraph⟩]
  bindings := [(⟨"object"⟩, .var ⟨"o"⟩)]
  order := [(.descending, .var ⟨"s"⟩)]
  slice := some (0, some 10)
  dataset := none

/-! ### What is stable -/

/-- Settled operations are stable. A plain query that the traversals can hold can be written and is
read as `reread` says, and it is stable exactly if it is settled. -/
theorem Operation.isStable_settled (options : Options) :
    (∀ operation : Operation, operation.IsSettled options → operation.IsStable options)
      ∧ ∀ query : PlainQuery, query.IsPlain → query.core.isExtend = false →
        (query.bindings.map (·.1)).Nodup → query.operation.fits = true →
        query.reread.operation.fits = true →
          (∃ request, query.operation.lift = .ok request
              ∧ request.lower options = .ok query.reread.operation)
            ∧ (query.operation.IsStable options ↔ query.IsSettled) :=
  ⟨fun _ settled => settled.isStable, fun _ plain base distinct fits fitsAgain =>
    PlainQuery.isStable_iff_isSettled options plain base distinct fits fitsAgain⟩

/-- The query is written with graph names outside of its patterns and comes back in quad mode. -/
theorem isStable_settled_mostReached :
    (∃ request again, (mostReached.operation.placed {quads := true}).lift = .ok request
        ∧ request.lower {quads := true} = .ok again)
      ∧ (mostReached.operation.placed {quads := true}).IsSettled {quads := true}
      ∧ (mostReached.operation.placed {quads := true}).IsStable {quads := true}
      ∧ lastObjects.IsPlain ∧ lastObjects.core.isExtend = false
      ∧ (lastObjects.bindings.map (·.1)).Nodup ∧ lastObjects.operation.fits = true
      ∧ lastObjects.reread.operation.fits = true ∧ lastObjects.IsSettled
      ∧ lastObjects.operation.IsStable {} := by
  have computed : (match (mostReached.operation.placed {quads := true}).lift with
      | .ok ⟨preamble, .query asked⟩ => !asked.bindsInGraphs
        && ((⟨preamble, .query asked⟩ : Surface.Request).lower {quads := true}).toBool
      | _ => false) = true := by decide +kernel
  have whole : (mostReached.operation.placed {quads := true}).IsSettled {quads := true} := by
    refine ⟨⟨mostReached, known, _, isSettled_mostReached, by decide, by decide,
      by decide +kernel, nofun, rfl⟩, by decide +kernel, fun _ asked lifted => ?_⟩
    rw [lifted] at computed
    simpa using (Bool.and_eq_true_iff.1 computed).1
  have plain : lastObjects.IsPlain :=
    ⟨by decide, by decide, by decide, rfl, by decide, by decide⟩
  have settled : lastObjects.IsSettled :=
    ⟨rfl, rfl, .inl rfl, fun star => absurd star (by decide), by decide⟩
  have fits : lastObjects.operation.fits = true := by decide +kernel
  have fitsAgain : lastObjects.reread.operation.fits = true := by decide +kernel
  refine ⟨?_, whole, (Operation.isStable_settled _).1 _ whole, plain, rfl, by decide, fits,
    fitsAgain, settled, ((Operation.isStable_settled {}).2 lastObjects plain rfl (by decide) fits
      fitsAgain).2.2 settled⟩
  split at computed
  · rename_i preamble asked lifted
    cases lowered : (⟨preamble, .query asked⟩ : Surface.Request).lower {quads := true} with
    | ok again => exact ⟨_, again, lifted, lowered⟩
    | error => rw [lowered] at computed; simp [Except.toBool] at computed
  · cases computed

/-- The query for two variables of a pattern, in the order of the pattern:
`SELECT ?s ?o { ?s ex:p ?o }`. -/
def subjectsAndObjects : Surface.Request :=
  ⟨.none, .query (.select ⟨.keep, .items [.var ⟨"s"⟩, .var ⟨"o"⟩], none,
    .group [.bgp [⟨.term (.var ⟨"s"⟩), .simple (.iri ⟨.full "ex:p", .none⟩),
      .term (.var ⟨"o"⟩)⟩] .none] .none, .none⟩)⟩

/-- The query for all variables of the same pattern: `SELECT * { ?s ex:p ?o }`. -/
private def allOfSubjects : Surface.Request :=
  ⟨.none, .query (.select ⟨.keep, .all, none,
    .group [.bgp [⟨.term (.var ⟨"s"⟩), .simple (.iri ⟨.full "ex:p", .none⟩),
      .term (.var ⟨"o"⟩)⟩] .none] .none, .none⟩)⟩

/-- The projection of the pattern to given variables. -/
private def showingOfSubjects (vars : List Variable) : Operation :=
  .of (.wrap (.project vars)
    (.bgp [⟨.var ⟨"s"⟩, .iri ⟨"ex:p"⟩, .var ⟨"o"⟩, .defaultGraph⟩]))

/-- The operation shows all variables of its pattern, so it is written with a star, which lists them
in another order. -/
theorem not_isStable_subjectsAndObjects :
    ∃ operation, subjectsAndObjects.lower {} = .ok operation ∧ ¬ operation.IsStable {} := by
  refine ⟨showingOfSubjects [⟨"s"⟩, ⟨"o"⟩], rfl, fun stable => ?_⟩
  have fits : (showingOfSubjects [⟨"s"⟩, ⟨"o"⟩]).fits = true := by decide +kernel
  have fitsAgain : (showingOfSubjects [⟨"o"⟩, ⟨"s"⟩]).fits = true := by decide +kernel
  have lifted : (showingOfSubjects [⟨"s"⟩, ⟨"o"⟩]).lift = .ok allOfSubjects := by
    rw [Operation.lift, Operation.withoutGraphs, Operation.removeEmbeddedGraphs,
      Node.checkFits_of_descend _ fits]
    rfl
  have different : (showingOfSubjects [⟨"s"⟩, ⟨"o"⟩]).canonical true
      ≠ (showingOfSubjects [⟨"o"⟩, ⟨"s"⟩]).canonical true := by
    decide +kernel
  have same := stable allOfSubjects (showingOfSubjects [⟨"o"⟩, ⟨"s"⟩]) lifted rfl
  rw [Operation.canonicalize_of_fits fits, Operation.canonicalize_of_fits fitsAgain] at same
  exact different (Except.ok.inj same)

end QueryAlgebra
