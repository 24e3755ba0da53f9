import QueryAlgebra.Proofs.Lifting.WrittenPaths
import QueryAlgebra.Proofs.Semantics.PathRelations

/-! # What becomes of a path that is written and read again

A flat path can always be written, and what is read again is the path with its alternatives of
negated sets put together. That is the path itself exactly if the only negated sets that were put
together are one forwards and one backwards, as a negated set with members of both kinds is split.

A negated set with all members of others leads nowhere where none of the others leads, so no pairs
are gained. Pairs are lost where a link is excluded by one of the sets only.
-/

namespace QueryAlgebra

namespace Path

/-! ### When nothing is put together -/

private theorem isNormal_of_isNegation {path : Path} (flat : path.isFlat = true)
    (negation : path.isNegation = true) : path.isNormal = true := by
  match path, negation with
  | .negated _, _ => exact flat
  | .inverse (.negated _), _ => exact flat

private theorem allNormal_of_negations {branches : List Path} (flat : allFlat branches = true)
    (negations : branches.all isNegation = true) : allNormal branches = true := by
  induction branches with
  | nil => rfl
  | cons branch rest ih =>
    obtain ⟨ofBranch, ofRest⟩ := Bool.and_eq_true_iff.1 flat
    obtain ⟨negation, negations⟩ := Bool.and_eq_true_iff.1 negations
    exact Bool.and_eq_true_iff.2
      ⟨isNormal_of_isNegation ofBranch negation, ih ofRest negations⟩

private theorem stayApart_of_mixed {branches : List Path}
    (mixed : branches.all isNegation = false) : stayApart branches = true := by
  unfold stayApart
  split
  · rfl
  · rw [mixed]
    rfl

/-- A negated set is an alternative only if it is split. -/
private theorem stayApart_of_negatedPath {forward inverse : List NamedNode} {branches : List Path}
    (same : Context.negatedPath forward inverse = .alt branches) : stayApart branches = true := by
  unfold Context.negatedPath at same
  split at same
  · cases same
  · cases same
  · cases same
    rfl

mutual

private theorem isNormal_of_merged {path : Path} (flat : path.isFlat = true)
    (same : path.merged = path) : path.isNormal = true := by
  match path, flat, same with
  | .link _, flat, _ | .negated _, flat, _ => exact flat
  | .inverse path, flat, same =>
    exact @isNormal_of_merged path flat (Path.inverse.inj same)
  | .zeroOrMore path, flat, same =>
    exact @isNormal_of_merged path flat (Path.zeroOrMore.inj same)
  | .oneOrMore path, flat, same =>
    exact @isNormal_of_merged path flat (Path.oneOrMore.inj same)
  | .zeroOrOne path, flat, same =>
    exact @isNormal_of_merged path flat (Path.zeroOrOne.inj same)
  | .seq steps, flat, same =>
    obtain ⟨shape, flat⟩ := Bool.and_eq_true_iff.1 flat
    exact Bool.and_eq_true_iff.2 ⟨shape, allNormal_of_allMerged flat (Path.seq.inj same)⟩
  | .alt branches, flat, same =>
    obtain ⟨shape, flat⟩ := Bool.and_eq_true_iff.1 flat
    rw [merged] at same
    cases mixed : branches.all isNegation with
    | true =>
      rw [if_pos mixed] at same
      have normal := allNormal_of_negations flat mixed
      simp only [isNormal, shape, stayApart_of_negatedPath same, normal, Bool.and_self]
    | false =>
      rw [mixed, if_neg Bool.false_ne_true] at same
      have normal := allNormal_of_allMerged flat (Path.alt.inj same)
      simp only [isNormal, shape, stayApart_of_mixed mixed, normal, Bool.and_self]

private theorem allNormal_of_allMerged {paths : List Path} (flat : allFlat paths = true)
    (same : allMerged paths = paths) : allNormal paths = true := by
  match paths, flat, same with
  | [], _, _ => rfl
  | path :: rest, flat, same =>
    obtain ⟨ofPath, ofRest⟩ := Bool.and_eq_true_iff.1 flat
    obtain ⟨samePath, sameRest⟩ := List.cons.inj same
    exact Bool.and_eq_true_iff.2
      ⟨isNormal_of_merged ofPath samePath, allNormal_of_allMerged ofRest sameRest⟩

end

/-- A flat path is left as it is exactly if negated sets stay apart in it. -/
theorem merged_eq_iff {path : Path} (flat : path.isFlat = true) :
    path.merged = path ↔ path.isNormal = true :=
  ⟨isNormal_of_merged flat, merged_of_isNormal⟩

/-! ### The pairs that are related -/

variable (graph : TripleGraph)

theorem relatesByOne_iff (branches : List Path) (first last : Term) :
    RelatesByOne graph branches first last
      ↔ ∃ branch ∈ branches, branch.Relates graph first last := by
  induction branches with
  | nil => simp [RelatesByOne]
  | cons branch rest ih =>
    rw [List.exists_mem_cons_iff, ← ih]
    rfl

/-- A negated set with members leads along the links that it does not exclude. -/
theorem relates_negatedPath_iff {forward inverse : List NamedNode}
    (some : forward ≠ [] ∨ inverse ≠ []) (first last : Term) :
    (Context.negatedPath forward inverse).Relates graph first last ↔
      forward ≠ [] ∧ graph.LinksOtherwise (· ∈ forward) first last
        ∨ inverse ≠ [] ∧ graph.LinksOtherwise (· ∈ inverse) last first := by
  match forward, inverse with
  | [], [] => exact absurd rfl (some.elim id id)
  | _ :: _, [] => simp [Context.negatedPath, Relates]
  | [], _ :: _ => simp [Context.negatedPath, Relates]
  | _ :: _, _ :: _ => simp [Context.negatedPath, relates_alternative, Relates]

variable {graph}

/-- Whatever a set does not exclude is not excluded by a part of it. -/
private theorem linksOtherwise_of_subset {excluded part : List NamedNode} (subset : part ⊆ excluded)
    {first last : Term} (links : graph.LinksOtherwise (· ∈ excluded) first last) :
    graph.LinksOtherwise (· ∈ part) first last := by
  obtain ⟨predicate, spared, links⟩ := links
  exact ⟨predicate, fun member => spared (subset member), links⟩

private theorem exists_excluded {excluded : Path → List NamedNode} {branches : List Path}
    (some : branches.flatMap excluded ≠ []) :
    ∃ branch ∈ branches, excluded branch ≠ [] ∧ excluded branch ⊆ branches.flatMap excluded := by
  obtain ⟨predicate, member⟩ := List.exists_mem_of_ne_nil _ some
  obtain ⟨branch, inBranches, inBranch⟩ := List.mem_flatMap.1 member
  refine ⟨branch, inBranches, List.ne_nil_of_mem inBranch, fun other ofBranch => ?_⟩
  exact List.mem_flatMap.2 ⟨branch, inBranches, ofBranch⟩

/-- A branch that excludes links forwards is a negated set. -/
private theorem relates_of_excludedForwards {branch : Path} (some : branch.excludedForwards ≠ [])
    {first last : Term} (links : graph.LinksOtherwise (· ∈ branch.excludedForwards) first last) :
    branch.Relates graph first last := by
  match branch with
  | .negated _ => exact links
  | .link _ | .inverse _ | .seq _ | .alt _ | .zeroOrMore _ | .oneOrMore _ | .zeroOrOne _ =>
    exact absurd rfl some

/-- A branch that excludes links backwards is an inverse negated set. -/
private theorem relates_of_excludedBackwards {branch : Path}
    (some : branch.excludedBackwards ≠ []) {first last : Term}
    (links : graph.LinksOtherwise (· ∈ branch.excludedBackwards) last first) :
    branch.Relates graph first last := by
  match branch with
  | .inverse (.negated _) => exact links
  | .inverse (.link _) | .inverse (.inverse _) | .inverse (.seq _) | .inverse (.alt _)
  | .inverse (.zeroOrMore _) | .inverse (.oneOrMore _) | .inverse (.zeroOrOne _)
  | .link _ | .negated _ | .seq _ | .alt _ | .zeroOrMore _ | .oneOrMore _ | .zeroOrOne _ =>
    exact absurd rfl some

private theorem excluded_of_negations {branches : List Path} (several : 2 ≤ branches.length)
    (flat : allFlat branches = true) (negations : branches.all isNegation = true) :
    branches.flatMap excludedForwards ≠ [] ∨ branches.flatMap excludedBackwards ≠ [] := by
  match branches, several with
  | branch :: rest, _ =>
    have negation := (Bool.and_eq_true_iff.1 negations).1
    have ofBranch := (Bool.and_eq_true_iff.1 flat).1
    match branch, negation with
    | .negated (_ :: _), _ => exact .inl (List.cons_ne_nil _ _)
    | .inverse (.negated (_ :: _)), _ => exact .inr (List.cons_ne_nil _ _)
    | .negated [], _ => cases ofBranch
    | .inverse (.negated []), _ => cases ofBranch

mutual

/-- Putting negated sets together relates no new pairs. -/
theorem relates_of_merged {path : Path} (flat : path.isFlat = true) {first last : Term}
    (relates : path.merged.Relates graph first last) : path.Relates graph first last := by
  match path, flat with
  | .link _, _ | .negated _, _ => exact relates
  | .inverse path, flat => exact @relates_of_merged path flat _ _ relates
  | .zeroOrMore path, flat =>
    have ofPath : path.isFlat = true := flat
    have fewer : path.merged.Relates graph ≤ path.Relates graph :=
      fun _ _ => relates_of_merged ofPath
    exact relates.imp id (Relation.TransGen.mono fewer first last)
  | .oneOrMore path, flat =>
    have ofPath : path.isFlat = true := flat
    have fewer : path.merged.Relates graph ≤ path.Relates graph :=
      fun _ _ => relates_of_merged ofPath
    exact Relation.TransGen.mono fewer first last relates
  | .zeroOrOne path, flat =>
    have ofPath : path.isFlat = true := flat
    exact relates.imp id (relates_of_merged ofPath)
  | .seq steps, flat =>
    exact relatesInTurn_of_merged (Bool.and_eq_true_iff.1 flat).2 relates
  | .alt branches, flat =>
    simp only [isFlat, Bool.and_eq_true, decide_eq_true_eq] at flat
    obtain ⟨⟨several, _⟩, flat⟩ := flat
    rw [merged] at relates
    cases mixed : branches.all isNegation with
    | false =>
      rw [mixed, if_neg Bool.false_ne_true] at relates
      exact relatesByOne_of_merged flat relates
    | true =>
      rw [if_pos mixed, relates_negatedPath_iff graph (excluded_of_negations several flat mixed)]
        at relates
      rw [Relates, relatesByOne_iff]
      rcases relates with ⟨some, links⟩ | ⟨some, links⟩
      · obtain ⟨branch, member, some, part⟩ := exists_excluded some
        exact ⟨branch, member,
          relates_of_excludedForwards some (linksOtherwise_of_subset part links)⟩
      · obtain ⟨branch, member, some, part⟩ := exists_excluded some
        exact ⟨branch, member,
          relates_of_excludedBackwards some (linksOtherwise_of_subset part links)⟩

theorem relatesInTurn_of_merged {steps : List Path} (flat : allFlat steps = true)
    {first last : Term} (relates : RelatesInTurn graph (allMerged steps) first last) :
    RelatesInTurn graph steps first last := by
  match steps, flat with
  | [], _ => exact relates
  | step :: rest, flat =>
    obtain ⟨ofStep, ofRest⟩ := Bool.and_eq_true_iff.1 flat
    obtain ⟨between, head, tail⟩ := relates
    exact ⟨between, relates_of_merged ofStep head, relatesInTurn_of_merged ofRest tail⟩

theorem relatesByOne_of_merged {branches : List Path} (flat : allFlat branches = true)
    {first last : Term} (relates : RelatesByOne graph (allMerged branches) first last) :
    RelatesByOne graph branches first last := by
  match branches, flat with
  | [], _ => exact relates
  | branch :: rest, flat =>
    obtain ⟨ofBranch, ofRest⟩ := Bool.and_eq_true_iff.1 flat
    exact relates.imp (relates_of_merged ofBranch) (relatesByOne_of_merged ofRest)

end

end Path

/-! ### Paths that come back -/

namespace Context

variable {context : Context}

/-- A flat path can be written, and what is read again is the path with its alternatives of negated
sets put together. It is the path itself exactly if negated sets stay apart in it; in any case it
relates no pairs that the path does not relate. -/
theorem path_comes_back_iff (plain : context.MakesPlain) {path : Path} (flat : path.isFlat = true) :
    ∃ written, path.written = .ok written ∧ context.path written = .ok path.merged
      ∧ (path.merged = path ↔ path.isNormal = true)
      ∧ ∀ graph first last, written.Relates context graph first last →
        path.Relates graph first last := by
  obtain ⟨written, success, read, _⟩ := path_written plain flat
  refine ⟨written, success, read, Path.merged_eq_iff flat, fun graph first last relates => ?_⟩
  rw [relates_of_path graph read] at relates
  exact Path.relates_of_merged flat relates

/-- A link other than `a`, or a link other than `b`. -/
def otherThanEither : Path :=
  .alt [.negated [⟨"http://example.org/a"⟩], .negated [⟨"http://example.org/b"⟩]]

/-- A link and then the inverse of a path that is put together. -/
theorem path_comes_back_iff_linkThenOther :
    (Path.seq [.link ⟨"http://example.org/p"⟩, .inverse otherThanEither]).isFlat = true
      ∧ ∃ written,
        (Path.seq [.link ⟨"http://example.org/p"⟩, .inverse otherThanEither]).written = .ok written
        ∧ (Context.mk .plain false .empty none).path written
          = .ok (.seq [.link ⟨"http://example.org/p"⟩,
            .inverse (.negated [⟨"http://example.org/a"⟩, ⟨"http://example.org/b"⟩])]) := by
  have flat :
      (Path.seq [.link ⟨"http://example.org/p"⟩, .inverse otherThanEither]).isFlat = true := by
    decide +kernel
  have plain : (Context.mk .plain false .empty none).MakesPlain := rfl
  obtain ⟨written, success, read, _⟩ := path_comes_back_iff plain flat
  exact ⟨flat, written, success, read⟩

/-- Two negated sets are read again as one, which leads along no link that either excludes. -/
theorem not_path_comes_back_otherThanEither :
    otherThanEither.isFlat = true
      ∧ ¬ (∃ written, otherThanEither.written = .ok written
        ∧ (Context.mk .plain false .empty none).path written = .ok otherThanEither)
      ∧ ∃ written, otherThanEither.written = .ok written ∧ ∃ graph first last,
        otherThanEither.Relates graph first last
        ∧ ¬ written.Relates (Context.mk .plain false .empty none) graph first last := by
  have flat : otherThanEither.isFlat = true := by decide +kernel
  have plain : (Context.mk .plain false .empty none).MakesPlain := rfl
  obtain ⟨written, success, read, _⟩ := path_written plain flat
  refine ⟨flat, ?_, written, success, ?_⟩
  · rintro ⟨other, same, comesBack⟩
    cases success.symm.trans same
    cases read.symm.trans comesBack
  · let subject : Term := .iri ⟨"http://example.org/s"⟩
    let object : Term := .iri ⟨"http://example.org/o"⟩
    refine ⟨⟨{(subject, ⟨"http://example.org/a"⟩, object)}, ∅⟩, subject, object, ?_, ?_⟩
    · exact .inr (.inl ⟨⟨"http://example.org/a"⟩, by decide, rfl⟩)
    · rw [relates_of_path _ read]
      rintro ⟨predicate, spared, links⟩
      cases links
      exact spared (by decide)

end Context

end QueryAlgebra
