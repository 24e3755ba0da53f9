import QueryAlgebra.Proofs.Lifting.WrittenTerms

/-! # Paths that are written and read again

Sequences and alternatives are written with two members at a time, and an alternative of negated
sets as one negated set. Read again they are as they were if they are flat and have two members at
least, and if no negated sets were put together but one followed by an inverse one.

`Path.merged` is what is read in any case: the alternatives of negated sets are put together.
-/

namespace QueryAlgebra

namespace Path

/-- Whether a path is a sequence. -/
def isSeq : Path → Bool
  | .seq _ => true
  | _ => false

/-- Whether a path is an alternative. -/
def isAlt : Path → Bool
  | .alt _ => true
  | _ => false

/-- Whether a path is a negated set, forwards or backwards. -/
def isNegation : Path → Bool
  | .negated _ => true
  | .inverse (.negated _) => true
  | _ => false

/-- Whether branches stay apart when they are written, or are read apart as what a negated set
stands for. -/
def stayApart : List Path → Bool
  | [.negated _, .inverse (.negated _)] => true
  | branches => !branches.all isNegation

mutual

/-- Whether a path is as it would be read: sequences and alternatives are flat and have two members
at least, negated sets have members, and all IRIs are absolute. -/
def isNormal : Path → Bool
  | .link predicate => predicate.isWritable
  | .inverse path => path.isNormal
  | .seq steps => decide (2 ≤ steps.length) && steps.all (!·.isSeq) && allNormal steps
  | .alt branches =>
    decide (2 ≤ branches.length) && branches.all (!·.isAlt) && stayApart branches
      && allNormal branches
  | .zeroOrMore path => path.isNormal
  | .oneOrMore path => path.isNormal
  | .zeroOrOne path => path.isNormal
  | .negated predicates => !predicates.isEmpty && predicates.all NamedNode.isWritable

/-- Whether all paths are as they would be read. -/
def allNormal : List Path → Bool
  | [] => true
  | path :: rest => path.isNormal && allNormal rest

end

mutual

/-- Whether a path could be written member by member: sequences and alternatives are flat and have
two members at least, negated sets have members, and all IRIs are absolute. -/
def isFlat : Path → Bool
  | .link predicate => predicate.isWritable
  | .inverse path => path.isFlat
  | .seq steps => decide (2 ≤ steps.length) && steps.all (!·.isSeq) && allFlat steps
  | .alt branches => decide (2 ≤ branches.length) && branches.all (!·.isAlt) && allFlat branches
  | .zeroOrMore path => path.isFlat
  | .oneOrMore path => path.isFlat
  | .zeroOrOne path => path.isFlat
  | .negated predicates => !predicates.isEmpty && predicates.all NamedNode.isWritable

/-- Whether all paths could be written member by member. -/
def allFlat : List Path → Bool
  | [] => true
  | path :: rest => path.isFlat && allFlat rest

end

mutual

theorem isFlat_of_isNormal {path : Path} (normal : path.isNormal = true) : path.isFlat = true := by
  match path, normal with
  | .link _, normal | .negated _, normal => exact normal
  | .inverse path, normal => exact @isFlat_of_isNormal path normal
  | .zeroOrMore path, normal => exact @isFlat_of_isNormal path normal
  | .oneOrMore path, normal => exact @isFlat_of_isNormal path normal
  | .zeroOrOne path, normal => exact @isFlat_of_isNormal path normal
  | .seq steps, normal =>
    simp only [isNormal, isFlat, Bool.and_eq_true] at normal ⊢
    exact ⟨normal.1, allFlat_of_allNormal normal.2⟩
  | .alt branches, normal =>
    simp only [isNormal, isFlat, Bool.and_eq_true] at normal ⊢
    exact ⟨normal.1.1, allFlat_of_allNormal normal.2⟩

theorem allFlat_of_allNormal {paths : List Path} (normal : allNormal paths = true) :
    allFlat paths = true := by
  match paths, normal with
  | [], _ => rfl
  | path :: rest, normal =>
    obtain ⟨ofPath, ofRest⟩ := Bool.and_eq_true_iff.1 normal
    exact Bool.and_eq_true_iff.2 ⟨isFlat_of_isNormal ofPath, allFlat_of_allNormal ofRest⟩

end

/-- The predicates that a negated set excludes forwards. -/
def excludedForwards : Path → List NamedNode
  | .negated predicates => predicates
  | _ => []

/-- The predicates that a negated set excludes backwards. -/
def excludedBackwards : Path → List NamedNode
  | .inverse (.negated predicates) => predicates
  | _ => []

mutual

/-- The path with every alternative of negated sets alone put together to what one negated set with
all their members stands for. -/
def merged : Path → Path
  | .link predicate => .link predicate
  | .inverse path => .inverse path.merged
  | .seq steps => .seq (allMerged steps)
  | .alt branches =>
    if branches.all isNegation then
      Context.negatedPath (branches.flatMap excludedForwards) (branches.flatMap excludedBackwards)
    else .alt (allMerged branches)
  | .zeroOrMore path => .zeroOrMore path.merged
  | .oneOrMore path => .oneOrMore path.merged
  | .zeroOrOne path => .zeroOrOne path.merged
  | .negated predicates => .negated predicates

/-- The paths with alternatives of negated sets put together. -/
def allMerged : List Path → List Path
  | [] => []
  | path :: rest => path.merged :: allMerged rest

end

theorem length_allMerged (paths : List Path) : (allMerged paths).length = paths.length := by
  induction paths with
  | nil => rfl
  | cons path rest ih => rw [allMerged, List.length_cons, ih, List.length_cons]

theorem forall_allMerged {holds : Path → Prop} {paths : List Path} :
    (∀ path ∈ allMerged paths, holds path) ↔ ∀ path ∈ paths, holds path.merged := by
  induction paths with
  | nil => simp [allMerged]
  | cons path rest ih => rw [allMerged, List.forall_mem_cons, List.forall_mem_cons, ih]

theorem not_isSeq_merged {path : Path} (single : (!path.isSeq) = true) :
    (!path.merged.isSeq) = true := by
  cases path with
  | seq => cases single
  | alt branches =>
    rw [merged]
    split
    · unfold Context.negatedPath
      split <;> rfl
    · rfl
  | _ => rfl

theorem not_isAlt_merged {path : Path} (single : (!path.isAlt) = true) :
    (!path.merged.isAlt) = true := by
  cases path with
  | alt => cases single
  | _ => rfl

/-- Negated sets alone stay apart only as the two that one negated set stands for. -/
theorem split_of_stayApart {branches : List Path} (apart : stayApart branches = true)
    (negations : branches.all isNegation = true) :
    ∃ forward inverse, branches = [.negated forward, .inverse (.negated inverse)] := by
  unfold stayApart at apart
  split at apart
  · exact ⟨_, _, rfl⟩
  · rw [negations] at apart
    cases apart

mutual

/-- Where negated sets stay apart, nothing is put together. -/
theorem merged_of_isNormal {path : Path} (normal : path.isNormal = true) : path.merged = path := by
  match path, normal with
  | .link _, _ | .negated _, _ => rfl
  | .inverse path, normal =>
    rw [merged, @merged_of_isNormal path normal]
  | .zeroOrMore path, normal =>
    rw [merged, @merged_of_isNormal path normal]
  | .oneOrMore path, normal =>
    rw [merged, @merged_of_isNormal path normal]
  | .zeroOrOne path, normal =>
    rw [merged, @merged_of_isNormal path normal]
  | .seq steps, normal =>
    rw [merged, allMerged_of_allNormal (Bool.and_eq_true_iff.1 normal).2]
  | .alt branches, normal =>
    simp only [isNormal, Bool.and_eq_true] at normal
    obtain ⟨⟨_, apart⟩, normal⟩ := normal
    cases mixed : branches.all isNegation with
    | false =>
      rw [merged, allMerged_of_allNormal normal, mixed, if_neg Bool.false_ne_true]
    | true =>
      obtain ⟨forward, inverse, rfl⟩ := split_of_stayApart apart mixed
      simp only [allNormal, isNormal, Bool.and_eq_true, Bool.not_eq_true'] at normal
      obtain ⟨⟨ofForward, _⟩, ⟨ofInverse, _⟩, _⟩ := normal
      cases forward with
      | nil => cases ofForward
      | cons node rest =>
        cases inverse with
        | nil => cases ofInverse
        | cons other others =>
          rw [merged, if_pos mixed, List.flatMap_cons, List.flatMap_singleton, List.flatMap_cons,
            List.flatMap_singleton]
          simp only [excludedForwards, excludedBackwards, List.append_nil, List.nil_append]
          rfl

theorem allMerged_of_allNormal {paths : List Path} (normal : allNormal paths = true) :
    allMerged paths = paths := by
  match paths, normal with
  | [], _ => rfl
  | path :: rest, normal =>
    obtain ⟨ofPath, ofRest⟩ := Bool.and_eq_true_iff.1 normal
    rw [allMerged, merged_of_isNormal ofPath, allMerged_of_allNormal ofRest]

end

/-- Whether a path between two terms stays one path, because it is neither a link nor an inverse nor
a sequence. -/
def isRoute : Path → Bool
  | .link _ => false
  | .inverse _ => false
  | .seq _ => false
  | _ => true

theorem steps_of_not_isSeq {path : Path} (single : (!path.isSeq) = true) : path.steps = [path] := by
  cases path <;> first | rfl | cases single

theorem branches_of_not_isAlt {path : Path} (single : (!path.isAlt) = true) :
    path.branches = [path] := by
  cases path <;> first | rfl | cases single

private theorem isSome_negatedMembers? (path : Path) :
    path.negatedMembers?.isSome = path.isNegation := by
  cases path with
  | inverse path => cases path <;> rfl
  | _ => rfl

private theorem isSome_allNegatedMembers? (branches : List Path) :
    (allNegatedMembers? branches).isSome = branches.all isNegation := by
  induction branches with
  | nil => rfl
  | cons branch rest ih =>
    rw [List.all_cons, ← ih, ← isSome_negatedMembers?, allNegatedMembers?]
    cases branch.negatedMembers? <;> cases allNegatedMembers? rest <;> rfl

theorem mergedNegation?_of_mixed {branches : List Path}
    (mixed : branches.all isNegation = false) : mergedNegation? branches = none := by
  rw [mergedNegation?]
  split
  · rfl
  · rw [← Option.not_isSome_iff_eq_none, isSome_allNegatedMembers?, mixed]
    exact Bool.false_ne_true

end Path

namespace Context

variable {context : Context}

/-! ### Negated sets -/

theorem negatedMembers_append {members others : List Surface.NegatedMember}
    {forward inverse forward' inverse' : List NamedNode}
    (ofMembers : context.negatedMembers members = .ok (forward, inverse))
    (ofOthers : context.negatedMembers others = .ok (forward', inverse')) :
    context.negatedMembers (members ++ others) = .ok (forward ++ forward', inverse ++ inverse') := by
  induction members generalizing forward inverse with
  | nil =>
    cases ofMembers
    exact ofOthers
  | cons member rest ih =>
    obtain ⟨node, isNode, ofRest⟩ := ok_of_bind ofMembers
    obtain ⟨⟨forwards, inverses⟩, ofRest, whole⟩ := ok_of_bind ofRest
    have others := ih ofRest
    simp only [List.cons_append, negatedMembers, isNode, others]
    cases direction : member.isInverse with
    | true =>
      rw [direction] at whole
      cases whole
      rfl
    | false =>
      rw [direction] at whole
      cases whole
      rfl

private theorem forwardMembers_written (plain : context.MakesPlain) {predicates : List NamedNode}
    (writable : predicates.all NamedNode.isWritable = true) :
    context.negatedMembers (Path.forwardMembers predicates) = .ok (predicates, []) := by
  induction predicates with
  | nil => rfl
  | cons node rest ih =>
    obtain ⟨ofNode, ofRest⟩ := Bool.and_eq_true_iff.1 writable
    have others := ih ofRest
    rw [Path.forwardMembers] at others
    simp only [Path.forwardMembers, List.map_cons, negatedMembers, Surface.NegatedMember.iri,
      namedNode_written plain ofNode, others]
    rfl

private theorem inverseMembers_written (plain : context.MakesPlain) {predicates : List NamedNode}
    (writable : predicates.all NamedNode.isWritable = true) :
    context.negatedMembers (Path.inverseMembers predicates) = .ok ([], predicates) := by
  induction predicates with
  | nil => rfl
  | cons node rest ih =>
    obtain ⟨ofNode, ofRest⟩ := Bool.and_eq_true_iff.1 writable
    have others := ih ofRest
    rw [Path.inverseMembers] at others
    simp only [Path.inverseMembers, List.map_cons, negatedMembers, Surface.NegatedMember.iri,
      namedNode_written plain ofNode, others]
    rfl

/-- Members that are read as predicates excluded forwards and backwards. -/
private structure GathersMembers (context : Context) (members : List Surface.NegatedMember)
    (forward inverse : List NamedNode) : Prop where
  nonempty : members.isEmpty = false
  read : context.negatedMembers members = .ok (forward, inverse)

/-- The members of a negated set are read as what it excludes. -/
private theorem negation_members (plain : context.MakesPlain) {path : Path}
    (flat : path.isFlat = true) (negation : path.isNegation = true) :
    ∃ members, path.negatedMembers? = some members
      ∧ context.GathersMembers members path.excludedForwards path.excludedBackwards := by
  have present : ∀ {predicates : List NamedNode} (spell : NamedNode → Surface.NegatedMember),
      (!predicates.isEmpty) = true → (predicates.map spell).isEmpty = false := by
    intro predicates spell nonempty
    rw [List.isEmpty_map]
    simpa using nonempty
  match path, negation with
  | .negated predicates, _ =>
    obtain ⟨nonempty, writable⟩ := Bool.and_eq_true_iff.1 flat
    exact ⟨_, rfl, present _ nonempty, forwardMembers_written plain writable⟩
  | .inverse (.negated predicates), _ =>
    obtain ⟨nonempty, writable⟩ := Bool.and_eq_true_iff.1 flat
    exact ⟨_, rfl, present _ nonempty, inverseMembers_written plain writable⟩

/-- The members of negated sets together are read as what they exclude together. -/
private theorem negations_members (plain : context.MakesPlain) {branches : List Path}
    (some : branches ≠ []) (flat : Path.allFlat branches = true)
    (negations : branches.all Path.isNegation = true) :
    ∃ members, Path.allNegatedMembers? branches = .some members
      ∧ context.GathersMembers members (branches.flatMap Path.excludedForwards)
        (branches.flatMap Path.excludedBackwards) := by
  induction branches with
  | nil => exact absurd rfl some
  | cons branch rest ih =>
    obtain ⟨ofBranch, ofRest⟩ := Bool.and_eq_true_iff.1 flat
    obtain ⟨negation, negations⟩ := Bool.and_eq_true_iff.1 negations
    obtain ⟨members, isMembers, present, read⟩ := negation_members plain ofBranch negation
    cases rest with
    | nil =>
      refine ⟨members, ?_, present, ?_⟩
      · rw [Path.allNegatedMembers?, isMembers, Path.allNegatedMembers?]
        simp
      · simpa using read
    | cons next others =>
      obtain ⟨more, isMore, _, readMore⟩ := ih (List.cons_ne_nil _ _) ofRest negations
      refine ⟨members ++ more, ?_, ?_, negatedMembers_append read readMore⟩
      · rw [Path.allNegatedMembers?, isMembers, isMore]
        rfl
      · cases members with
        | nil => cases present
        | cons => rfl

/-- A path that is written stands for the path that it is put together to, and is no link unless it
was one. -/
def SpellsPath (context : Context) (path : Path) : Prop :=
  ∃ written, path.written = .ok written ∧ context.path written = .ok path.merged
    ∧ (path.isRoute = true → written.unwrapped = written ∧ written.isSimple = false)

/-- Members written as one negated set stand for the path of what they exclude. -/
private theorem GathersMembers.spells {members : List Surface.NegatedMember}
    {forward inverse : List NamedNode} (reads : context.GathersMembers members forward inverse)
    {path : Path} (spelled : path.written = Path.negatedSet members)
    (whole : path.merged = negatedPath forward inverse) : context.SpellsPath path := by
  have present := Bool.eq_false_iff.1 reads.nonempty
  refine ⟨.negated members .none, ?_, ?_, fun _ => ⟨rfl, rfl⟩⟩
  · rw [spelled, Path.negatedSet, if_neg present]
  · rw [Context.path, if_neg present, reads.read, whole]
    rfl

private theorem negation_written (plain : context.MakesPlain) {path : Path}
    (flat : path.isFlat = true) (negation : path.isNegation = true) : context.SpellsPath path := by
  obtain ⟨members, isMembers, reads⟩ := negation_members plain flat negation
  match path, negation with
  | .negated predicates, _ =>
    cases isMembers
    cases predicates with
    | nil => cases flat
    | cons => exact reads.spells rfl rfl
  | .inverse (.negated predicates), _ =>
    cases isMembers
    cases predicates with
    | nil => cases flat
    | cons => exact reads.spells rfl rfl

/-- The inverse of a negated set is a negated set, and the inverse of any other path is written as
such. -/
private theorem inverse_written (plain : context.MakesPlain) {path : Path}
    (flat : path.isFlat = true) (spells : context.SpellsPath path) :
    context.SpellsPath (.inverse path) := by
  by_cases negation : ∃ predicates, path = .negated predicates
  · obtain ⟨predicates, rfl⟩ := negation
    exact negation_written plain flat rfl
  · obtain ⟨written, success, read, _⟩ := spells
    refine ⟨.inverse written .none, ?_, ?_, fun route => absurd route Bool.false_ne_true⟩
    · rw [Path.written, success]
      · rfl
      · exact fun predicates same => negation ⟨predicates, same⟩
    · rw [Context.path, read]
      rfl

/-- An alternative of negated sets is written as one negated set. -/
private theorem negations_written (plain : context.MakesPlain) {branches : List Path}
    (flat : (Path.alt branches).isFlat = true) (negations : branches.all Path.isNegation = true) :
    context.SpellsPath (.alt branches) := by
  simp only [Path.isFlat, Bool.and_eq_true, decide_eq_true_eq] at flat
  obtain ⟨⟨several, _⟩, flat⟩ := flat
  have some : branches ≠ [] := by
    rintro rfl
    exact absurd several (by decide)
  obtain ⟨members, isMembers, reads⟩ := negations_members plain some flat negations
  have together : Path.mergedNegation? branches = .some members := by
    rw [Path.mergedNegation?, if_neg (by omega), isMembers]
  refine reads.spells ?_ (by rw [Path.merged, if_pos negations])
  rw [Path.written, together]

/-! ### Sequences and alternatives -/

/-- Written paths that are read as given ones. -/
private abbrev ReadsPaths (context : Context) : List Surface.Path → List Path → Prop :=
  List.Forall₂ fun written path => context.path written = .ok path

section Nested

variable {combine : Surface.Path → Surface.Path → Surface.Path} {whole : List Path → Path}
  {parts : Path → List Path}

/-- Members that are combined with what is read as a whole are read as further parts of it. -/
private theorem nested_read
    (combined : ∀ {left right first second}, context.path left = .ok first →
      context.path right = .ok second →
      context.path (combine left right) = .ok (whole (parts first ++ parts second)))
    (ofWhole : ∀ paths, parts (whole paths) = paths) {written : List Surface.Path}
    {paths : List Path} (reads : context.ReadsPaths written paths)
    (single : ∀ path ∈ paths, parts path = [path]) {left right : Surface.Path} {done : List Path}
    (readDone : context.path (combine left right) = .ok (whole done)) :
    ∃ left' right', written.foldl combine (combine left right) = combine left' right'
      ∧ context.path (combine left' right') = .ok (whole (done ++ paths)) := by
  induction reads generalizing left right done with
  | nil => exact ⟨left, right, rfl, by rw [List.append_nil, readDone]⟩
  | @cons next path written paths readNext _ ih =>
    rw [List.forall_mem_cons] at single
    have readMore := combined readDone readNext
    rw [ofWhole, single.1] at readMore
    obtain ⟨left', right', nested, read⟩ := ih single.2 readMore
    exact ⟨left', right', nested, by rw [read, List.append_assoc, List.singleton_append]⟩

variable (context combine whole parts) in
/-- Two members at least, nested to the left, are read as the whole of them. -/
private theorem nestLeft_read
    (combined : ∀ {left right first second}, context.path left = .ok first →
      context.path right = .ok second →
      context.path (combine left right) = .ok (whole (parts first ++ parts second)))
    (ofWhole : ∀ paths, parts (whole paths) = paths) {written : List Surface.Path}
    {paths : List Path} (reads : context.ReadsPaths written paths)
    (single : ∀ path ∈ paths, parts path = [path]) (several : 2 ≤ paths.length) :
    ∃ left right, Path.nestLeft combine written = .ok (combine left right)
      ∧ context.path (combine left right) = .ok (whole paths) := by
  rcases reads with _ | @⟨left, first, _, _, readLeft, others⟩
  · exact absurd several (by decide)
  rcases others with _ | @⟨right, second, written, paths, readRight, others⟩
  · exact absurd several (by simp)
  simp only [List.forall_mem_cons] at single
  have readBoth := combined readLeft readRight
  rw [single.1, single.2.1] at readBoth
  obtain ⟨left', right', nested, read⟩ :=
    nested_read combined ofWhole others single.2.2 readBoth
  exact ⟨left', right', congrArg Except.ok nested, read⟩

end Nested

private theorem seq_written {steps : List Path} {written : List Surface.Path}
    (several : 2 ≤ steps.length) (single : ∀ step ∈ steps, (!step.isSeq) = true)
    (success : Path.allWritten steps = .ok written)
    (reads : context.ReadsPaths written (Path.allMerged steps)) :
    context.SpellsPath (.seq steps) := by
  obtain ⟨left, right, nested, read⟩ := nestLeft_read context
    (fun left right => .sequence left right .none) .seq Path.steps
    (fun {left right first second} readLeft readRight => by
      rw [Context.path, readLeft, readRight]
      show Except.ok (Path.sequence [first, second]) = _
      rw [Path.sequence, List.flatMap_cons, List.flatMap_singleton])
    (fun _ => rfl) reads (Path.forall_allMerged.2 fun step member =>
      Path.steps_of_not_isSeq (Path.not_isSeq_merged (single step member)))
    (by rwa [Path.length_allMerged])
  refine ⟨_, ?_, read, fun route => absurd route Bool.false_ne_true⟩
  rw [Path.written, success]
  exact nested

private theorem alt_written {branches : List Path} {written : List Surface.Path}
    (several : 2 ≤ branches.length) (single : ∀ branch ∈ branches, (!branch.isAlt) = true)
    (mixed : branches.all Path.isNegation = false)
    (success : Path.allWritten branches = .ok written)
    (reads : context.ReadsPaths written (Path.allMerged branches)) :
    context.SpellsPath (.alt branches) := by
  obtain ⟨left, right, nested, read⟩ := nestLeft_read context
    (fun left right => .alternative left right .none) .alt Path.branches
    (fun {left right first second} readLeft readRight => by
      rw [Context.path, readLeft, readRight]
      show Except.ok (Path.alternative [first, second]) = _
      rw [Path.alternative, List.flatMap_cons, List.flatMap_singleton])
    (fun _ => rfl) reads
    (Path.forall_allMerged.2 fun branch member =>
      Path.branches_of_not_isAlt (Path.not_isAlt_merged (single branch member)))
    (by rwa [Path.length_allMerged])
  refine ⟨.alternative left right .none, ?_, ?_, fun _ => ⟨rfl, rfl⟩⟩
  · rw [Path.written, Path.mergedNegation?_of_mixed mixed, success]
    exact nested
  · rw [Path.merged, if_neg (by rw [mixed]; exact Bool.false_ne_true), read]

/-! ### All paths -/

mutual

/-- A path that could be written member by member is written as one that is read as the path that
it is put together to. -/
theorem path_written (plain : context.MakesPlain) {path : Path} (flat : path.isFlat = true) :
    context.SpellsPath path := by
  match path, flat with
  | .link node, flat =>
    refine ⟨.iri node.written, rfl, ?_, fun route => absurd route Bool.false_ne_true⟩
    rw [Context.path, namedNode_written plain flat]
    rfl
  | .inverse path, flat =>
    have ofPath : path.isFlat = true := flat
    exact inverse_written plain ofPath (path_written plain ofPath)
  | .seq steps, flat =>
    simp only [Path.isFlat, Bool.and_eq_true, decide_eq_true_eq, List.all_eq_true] at flat
    obtain ⟨⟨several, single⟩, flat⟩ := flat
    obtain ⟨written, success, reads⟩ := paths_written plain flat
    exact seq_written several single success reads
  | .alt branches, flat =>
    cases mixed : branches.all Path.isNegation with
    | true => exact negations_written plain flat mixed
    | false =>
      simp only [Path.isFlat, Bool.and_eq_true, decide_eq_true_eq, List.all_eq_true] at flat
      obtain ⟨⟨several, single⟩, flat⟩ := flat
      obtain ⟨written, success, reads⟩ := paths_written plain flat
      exact alt_written several single mixed success reads
  | .zeroOrMore path, flat =>
    have ofPath : path.isFlat = true := flat
    obtain ⟨written, success, read, _⟩ := path_written plain ofPath
    refine ⟨.zeroOrMore written .none, ?_, ?_, fun _ => ⟨rfl, rfl⟩⟩
    · rw [Path.written, success]
      rfl
    · rw [Context.path, read]
      rfl
  | .oneOrMore path, flat =>
    have ofPath : path.isFlat = true := flat
    obtain ⟨written, success, read, _⟩ := path_written plain ofPath
    refine ⟨.oneOrMore written .none, ?_, ?_, fun _ => ⟨rfl, rfl⟩⟩
    · rw [Path.written, success]
      rfl
    · rw [Context.path, read]
      rfl
  | .zeroOrOne path, flat =>
    have ofPath : path.isFlat = true := flat
    obtain ⟨written, success, read, _⟩ := path_written plain ofPath
    refine ⟨.zeroOrOne written .none, ?_, ?_, fun _ => ⟨rfl, rfl⟩⟩
    · rw [Path.written, success]
      rfl
    · rw [Context.path, read]
      rfl
  | .negated predicates, flat => exact negation_written plain flat rfl

theorem paths_written (plain : context.MakesPlain) {paths : List Path}
    (flat : Path.allFlat paths = true) :
    ∃ written, Path.allWritten paths = .ok written
      ∧ context.ReadsPaths written (Path.allMerged paths) := by
  match paths, flat with
  | [], _ => exact ⟨[], rfl, .nil⟩
  | path :: rest, flat =>
    obtain ⟨ofPath, ofRest⟩ := Bool.and_eq_true_iff.1 flat
    obtain ⟨first, success, read, _⟩ := path_written plain ofPath
    obtain ⟨others, successes, reads⟩ := paths_written plain ofRest
    refine ⟨first :: others, ?_, .cons read reads⟩
    rw [Path.allWritten, success, successes]
    rfl

end

/-! ### Paths between two terms -/

private theorem predicate_composed {written : Surface.Path} (unwrapped : written.unwrapped = written)
    (composed : written.isSimple = false) :
    context.predicate (.path written) = .ok (.path written) := by
  rw [predicate, unwrapped]
  rw [Surface.Path.isSimple, unwrapped] at composed
  cases written <;> first | rfl | cases composed

private theorem fragments_route {path : Path} (route : path.isRoute = true) (subject object : Term) :
    context.fragments subject path object
      = pure [.path subject path object context.factory.defaultGraph] := by
  cases path with
  | link | inverse | seq => cases route
  | _ => rw [fragments] <;> simp

/-- A path between two terms that stays one path is read as it. -/
theorem route_written (plain : context.MakesPlain) {subject object : Term} {path : Path}
    (ofSubject : subject.isSpellable = true) (normal : path.isNormal = true)
    (route : path.isRoute = true) (ofObject : object.isSpellable = true) :
    ∃ subject' path' object', subject.written = .ok subject' ∧ path.written = .ok path'
      ∧ object.written = .ok object'
      ∧ context.ReadsPieces [⟨.term subject', .path path', .term object'⟩]
        [.path subject path object .defaultGraph] := by
  obtain ⟨subject', writtenSubject, readSubject⟩ := term_spelled plain ofSubject
  obtain ⟨path', writtenPath, readPath, isComposed⟩ :=
    path_written plain (Path.isFlat_of_isNormal normal)
  rw [Path.merged_of_isNormal normal] at readPath
  obtain ⟨object', writtenObject, readObject⟩ := term_spelled plain ofObject
  obtain ⟨unwrapped, composed⟩ := isComposed route
  refine ⟨subject', path', object', writtenSubject, writtenPath, writtenObject,
    [⟨subject, .path path', object⟩], ?_, ?_⟩
  · simp only [triples, triple, node, readSubject, readObject, predicate_composed unwrapped composed,
      pure_bind]
    rfl
  · simp only [allFragments, tripleFragments, readPath]
    show (do
      let pieces ← context.fragments subject path object
      pure (pieces ++ [])) = _
    rw [fragments_route route, plain]
    rfl

end Context

end QueryAlgebra
