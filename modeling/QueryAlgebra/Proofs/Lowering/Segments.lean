import QueryAlgebra.Lowering.Triples
import QueryAlgebra.Proofs.Lowering.Outcomes
import Mathlib.Data.List.Chain

/-! # The segments of a basic graph pattern

The pieces of triples are put together into segments: runs of patterns with the paths between them.
Read from left to right the segments are the pieces again, no run is empty, and no two runs meet;
there is only one way to do so (`Segment.ofFragments_eq_iff`). It does not matter either whether the
pieces are taken from the end or, with a run held open, from the beginning
(`Segment.ofFragments_eq_foldl`). So what is read from triples is determined by their pieces:
`Context.basicGraphPattern_ok_iff`.
-/

namespace QueryAlgebra

namespace Segment

/-- The pieces that a segment is put together from. -/
def pieces : Segment → List Fragment
  | .run patterns => patterns.map .pattern
  | .path subject predicate object graph => [.path subject predicate object graph]

/-- Whether a segment is a run of patterns. -/
def isRun : Segment → Bool
  | .run _ => true
  | .path .. => false

/-- Two segments that are not both runs. -/
abbrev Apart (first second : Segment) : Prop := ¬(first.isRun = true ∧ second.isRun = true)

/-- Segments of which no two adjacent ones are runs, and no run is empty. -/
structure Separated (segments : List Segment) : Prop where
  apart : segments.IsChain Apart
  filled : .run [] ∉ segments

/-! ### One piece -/

section

variable {segments : List Segment}

@[simp] theorem flatMap_pieces_cons (piece : Fragment) (segments : List Segment) :
    (cons piece segments).flatMap pieces = piece :: segments.flatMap pieces := by
  cases piece with
  | path => rfl
  | pattern pattern => rcases segments with _ | ⟨_ | _, _⟩ <;> rfl

theorem Separated.tail {segment : Segment} (separated : Separated (segment :: segments)) :
    Separated segments :=
  ⟨separated.apart.tail, fun isEmpty => separated.filled (List.mem_cons_of_mem _ isEmpty)⟩

/-- A path before segments keeps them apart. -/
theorem Separated.cons_path (separated : Separated segments) (subject : Term) (predicate : Path)
    (object graph : Term) : Separated (.path subject predicate object graph :: segments) where
  apart := List.isChain_cons.2 ⟨fun _ _ both => Bool.noConfusion both.1, separated.apart⟩
  filled isEmpty := by
    rcases List.mem_cons.1 isEmpty with same | isEmpty
    · cases same
    · exact separated.filled isEmpty

/-- A run that is not empty keeps segments apart that begin with a path. -/
theorem Separated.cons_run (separated : Separated segments) {patterns : List Pattern}
    (filled : patterns ≠ []) (path : ∀ next ∈ segments.head?, next.isRun = false) :
    Separated (.run patterns :: segments) where
  apart := List.isChain_cons.2 ⟨fun next isNext both => by
    rw [path next isNext] at both
    exact Bool.noConfusion both.2, separated.apart⟩
  filled isEmpty := by
    rcases List.mem_cons.1 isEmpty with same | isEmpty
    · exact filled (Segment.run.inj same).symm
    · exact separated.filled isEmpty

/-- What follows a run begins with a path. -/
theorem Separated.path_of_run {patterns : List Pattern}
    (separated : Separated (.run patterns :: segments)) :
    ∀ next ∈ segments.head?, next.isRun = false := fun next isNext =>
  Bool.eq_false_iff.2 fun isRun => (List.isChain_cons.1 separated.apart).1 next isNext ⟨rfl, isRun⟩

/-- A piece before segments that are separated leaves them so. -/
theorem Separated.cons (separated : Separated segments) (piece : Fragment) :
    Separated (Segment.cons piece segments) := by
  cases piece with
  | path subject predicate object graph => exact separated.cons_path subject predicate object graph
  | pattern pattern =>
    have single : [pattern] ≠ [] := List.cons_ne_nil _ _
    rcases segments with _ | ⟨patterns | path, rest⟩
    · exact separated.cons_run single fun _ => nofun
    · exact separated.tail.cons_run (List.cons_ne_nil _ _) separated.path_of_run
    · exact separated.cons_run single fun next isNext => by cases isNext; rfl

/-! ### All pieces -/

/-- Putting pieces together loses none of them, and changes nothing in their order. -/
@[simp] theorem flatMap_pieces_ofFragments (fragments : List Fragment) :
    (ofFragments fragments).flatMap pieces = fragments := by
  induction fragments with
  | nil => rfl
  | cons piece rest ih =>
    show (cons piece (ofFragments rest)).flatMap pieces = _
    rw [flatMap_pieces_cons, ih]

theorem separated_ofFragments (fragments : List Fragment) : Separated (ofFragments fragments) := by
  induction fragments with
  | nil => exact ⟨.nil, List.not_mem_nil⟩
  | cons piece rest ih => exact ih.cons piece

/-- Patterns before segments that begin with a path are a run of their own. -/
private theorem foldr_cons_patterns {patterns : List Pattern} (filled : patterns ≠ [])
    (path : ∀ next ∈ segments.head?, next.isRun = false) :
    (patterns.map .pattern).foldr Segment.cons segments = .run patterns :: segments := by
  induction patterns with
  | nil => exact absurd rfl filled
  | cons pattern rest ih =>
    rw [List.map_cons, List.foldr_cons]
    rcases rest with _ | ⟨next, rest⟩
    · rcases segments with _ | ⟨_ | _, _⟩
      · rfl
      · exact Bool.noConfusion (path _ rfl)
      · rfl
    · rw [ih (List.cons_ne_nil _ _)]
      rfl

/-- Segments that are separated are what is put together from their pieces. -/
theorem Separated.ofFragments_flatMap (separated : Separated segments) :
    ofFragments (segments.flatMap pieces) = segments := by
  induction segments with
  | nil => rfl
  | cons segment rest ih =>
    have ofRest := ih separated.tail
    rw [ofFragments] at ofRest ⊢
    rw [List.flatMap_cons, List.foldr_append, ofRest]
    cases segment with
    | path => rfl
    | run patterns =>
      have filled : patterns ≠ [] := by
        rintro rfl
        exact separated.filled List.mem_cons_self
      exact foldr_cons_patterns filled separated.path_of_run

/-- There is one way to put pieces together into segments that are separated. -/
theorem ofFragments_eq_iff {fragments : List Fragment} :
    ofFragments fragments = segments
      ↔ segments.flatMap pieces = fragments ∧ Separated segments := by
  constructor
  · rintro rfl
    exact ⟨flatMap_pieces_ofFragments fragments, separated_ofFragments fragments⟩
  · rintro ⟨rfl, separated⟩
    exact separated.ofFragments_flatMap

end

/-! ### From left to right -/

/-- Segments that are finished, and the patterns of a run that may go on. -/
structure Scan where
  finished : List Segment
  pending : List Pattern

namespace Scan

/-- The segments of what has been read; the run that may go on is the last, unless it is empty. -/
def segments (scan : Scan) : List Segment :=
  if scan.pending = [] then scan.finished else scan.finished ++ [.run scan.pending]

/-- Read a piece: a pattern goes into the run that may go on, and a path ends it. -/
def read (scan : Scan) : Fragment → Scan
  | .pattern pattern => ⟨scan.finished, scan.pending ++ [pattern]⟩
  | .path subject predicate object graph =>
    ⟨scan.segments ++ [.path subject predicate object graph], []⟩

/-- A path, or the end, leaves the run that may go on as it is. -/
private theorem finished_append (scan : Scan) {rest : List Segment}
    (path : ∀ next ∈ rest.head?, next.isRun = false) :
    scan.finished ++ (scan.pending.map .pattern).foldr cons rest = scan.segments ++ rest := by
  rw [segments]
  split
  · rename_i none
    rw [none]
    rfl
  · rename_i filled
    rw [foldr_cons_patterns filled path, List.append_cons]

/-- The patterns of a run that may go on are put before what is still to be read. -/
theorem segments_foldl_read (scan : Scan) (fragments : List Fragment) :
    (fragments.foldl read scan).segments
      = scan.finished ++ (scan.pending.map .pattern).foldr cons (ofFragments fragments) := by
  induction fragments generalizing scan with
  | nil =>
    have ends : ∀ next ∈ ([] : List Segment).head?, next.isRun = false := fun _ => nofun
    exact ((finished_append scan ends).trans (List.append_nil _)).symm
  | cons piece rest ih =>
    rw [List.foldl_cons, ih]
    cases piece with
    | pattern pattern =>
      rw [read, List.map_append, List.foldr_append]
      rfl
    | path subject predicate object graph =>
      rw [read, List.append_assoc]
      exact (finished_append scan fun next isNext => by cases isNext; rfl).symm

end Scan

/-- Pieces that are read one after another, with a run held open until a path ends it, give the same
segments. -/
theorem ofFragments_eq_foldl (fragments : List Fragment) :
    ofFragments fragments = (fragments.foldl Scan.read ⟨[], []⟩).segments :=
  (Scan.segments_foldl_read ⟨[], []⟩ fragments).symm

/-- What a segment is put together into is no join. -/
private theorem flatMap_parts (segments : List Segment) :
    (segments.map toOperation).flatMap (Operation.parts .join) = segments.map toOperation := by
  induction segments with
  | nil => rfl
  | cons segment rest ih =>
    rw [List.map_cons, List.flatMap_cons, ih]
    cases segment <;> rfl

end Segment

/-! ### The operation of triples -/

namespace Operation

/-- The flat join of members; a lone member stands for itself. -/
def joined : List Operation → Operation
  | [] => .bgp []
  | [member] => member
  | members => .of (.combine .join members)

theorem ofFragments_eq_joined (fragments : List Fragment) :
    ofFragments fragments = joined ((Segment.ofFragments fragments).map Segment.toOperation) := by
  have flat := Segment.flatMap_parts (Segment.ofFragments fragments)
  rw [ofFragments]
  generalize (Segment.ofFragments fragments).map Segment.toOperation = members at flat ⊢
  rcases members with _ | ⟨first, _ | ⟨second, rest⟩⟩
  · rfl
  · rfl
  · exact congrArg (fun inputs => Operation.of (.combine .join inputs)) flat

/-- What holds of the empty operation, of runs of given pieces, of their paths and of joins of these
holds of what the pieces are put together into. -/
theorem ofFragments_cases {fragments : List Fragment} {P Q : Operation → Prop}
    (run : ∀ patterns, patterns ≠ [] →
      (∀ pattern ∈ patterns, .pattern pattern ∈ fragments) → Q (.bgp patterns))
    (path : ∀ subject predicate object graph, .path subject predicate object graph ∈ fragments →
      Q (.of (.path subject predicate object graph)))
    (empty : P (.bgp [])) (single : ∀ member, Q member → P member)
    (join : ∀ members, 2 ≤ members.length → members.flatMap (parts .join) = members →
      (∀ member ∈ members, Q member) → P (.of (.combine .join members))) :
    P (ofFragments fragments) := by
  have ofMembers : ∀ member ∈ (Segment.ofFragments fragments).map Segment.toOperation,
      Q member := by
    refine List.forall_mem_map.2 fun segment isSegment => ?_
    have given : segment.pieces ⊆ fragments := fun piece isPiece => by
      rw [← Segment.flatMap_pieces_ofFragments fragments]
      exact List.mem_flatMap.2 ⟨segment, isSegment, isPiece⟩
    cases segment with
    | run patterns =>
      refine run patterns ?_ fun pattern isPattern => given (List.mem_map_of_mem isPattern)
      rintro rfl
      exact (Segment.separated_ofFragments fragments).filled isSegment
    | path => exact path _ _ _ _ (given (List.mem_singleton_self _))
  have flat := Segment.flatMap_parts (Segment.ofFragments fragments)
  rw [ofFragments_eq_joined]
  generalize (Segment.ofFragments fragments).map Segment.toOperation = members at ofMembers flat
  rcases members with _ | ⟨first, _ | ⟨second, rest⟩⟩
  · exact empty
  · exact single first (ofMembers first (List.mem_singleton_self first))
  · exact join _ (Nat.le_add_left 2 rest.length) flat ofMembers

end Operation

namespace Context

variable {context : Context}

/-- The pieces of triples that are treated one after another. A triple with a term for its predicate
is a pattern, and one with a path is what the path comes to. -/
inductive PiecesInTurn (context : Context) :
    NameSupply → List FlatTriple → List (List Fragment) → NameSupply → Prop
  | nil (supply : NameSupply) : PiecesInTurn context supply [] [] supply
  | term {subject predicate object : Term} {rest : List FlatTriple}
    {others : List (List Fragment)} {supply after : NameSupply} :
    PiecesInTurn context supply rest others after →
    PiecesInTurn context supply (⟨subject, .term predicate, object⟩ :: rest)
      ([.pattern ⟨subject, predicate, object, context.factory.defaultGraph⟩] :: others) after
  | path {subject object : Term} {written : Surface.Path} {path : Path} {pieces : List Fragment}
    {rest : List FlatTriple} {others : List (List Fragment)} {supply between after : NameSupply} :
    context.path written = .ok path →
    context.fragments subject path object supply = .ok pieces between →
    PiecesInTurn context between rest others after →
    PiecesInTurn context supply (⟨subject, .path written, object⟩ :: rest) (pieces :: others) after

theorem tripleFragments_path_ok_iff {subject object : Term} {written : Surface.Path}
    {supply after : NameSupply} {pieces : List Fragment} :
    context.tripleFragments ⟨subject, .path written, object⟩ supply = .ok pieces after
      ↔ ∃ path, context.path written = .ok path
        ∧ context.fragments subject path object supply = .ok pieces after := by
  have steps : context.tripleFragments ⟨subject, .path written, object⟩
      = liftM (context.path written) >>= fun path => context.fragments subject path object := rfl
  rw [steps, Lowering.bind_ok_iff]
  constructor
  · rintro ⟨path, between, lifted, success⟩
    obtain ⟨isPath, rfl⟩ := Lowering.of_lift_ok lifted
    exact ⟨path, isPath, success⟩
  · rintro ⟨path, isPath, success⟩
    exact ⟨path, supply, by rw [isPath]; rfl, success⟩

/-- The pieces of a list of triples are those of the triples one after another. -/
theorem allFragments_ok_iff {flat : List FlatTriple} {supply after : NameSupply}
    {fragments : List Fragment} :
    context.allFragments flat supply = .ok fragments after
      ↔ ∃ pieces, context.PiecesInTurn supply flat pieces after ∧ pieces.flatten = fragments := by
  induction flat generalizing supply after fragments with
  | nil =>
    rw [allFragments, Lowering.pure_ok_iff]
    constructor
    · rintro ⟨rfl, rfl⟩
      exact ⟨[], .nil supply, rfl⟩
    · rintro ⟨_, ⟨⟩, rfl⟩
      exact ⟨rfl, rfl⟩
  | cons triple rest ih =>
    obtain ⟨subject, predicate, object⟩ := triple
    simp only [allFragments, Lowering.bind_ok_iff, Lowering.pure_ok_iff, ih]
    constructor
    · rintro ⟨first, between, isFirst, _, _, ⟨others, areOthers, rfl⟩, rfl, rfl⟩
      cases predicate with
      | term predicate =>
        obtain ⟨rfl, rfl⟩ := Lowering.of_pure_ok isFirst
        exact ⟨_, .term areOthers, rfl⟩
      | path written =>
        obtain ⟨path, isPath, success⟩ := tripleFragments_path_ok_iff.1 isFirst
        exact ⟨_, .path isPath success areOthers, rfl⟩
    · rintro ⟨_, inTurn, rfl⟩
      cases inTurn with
      | term areOthers => exact ⟨_, supply, rfl, _, after, ⟨_, areOthers, rfl⟩, rfl, rfl⟩
      | path isPath success areOthers =>
        exact ⟨_, _, tripleFragments_path_ok_iff.2 ⟨_, isPath, success⟩, _, after,
          ⟨_, areOthers, rfl⟩, rfl, rfl⟩

/-- **Triples become segments that read as their pieces.** The operation of a list of triples is
one segment, a join of several, or the empty basic graph pattern if there is none. From left to
right the segments are the pieces of the triples in their order; no two runs of patterns meet, and
none is empty. -/
theorem basicGraphPattern_ok_iff {written : List Surface.Triple} {supply after : NameSupply}
    {operation : Operation} :
    context.basicGraphPattern written supply = .ok operation after
      ↔ ∃ flat between pieces segments,
        context.triples written supply = .ok flat between
        ∧ context.PiecesInTurn between flat pieces after
        ∧ segments.flatMap Segment.pieces = pieces.flatten
        ∧ Segment.Separated segments
        ∧ operation = .joined (segments.map Segment.toOperation) := by
  simp only [basicGraphPattern, Lowering.bind_ok_iff, Lowering.pure_ok_iff, allFragments_ok_iff]
  constructor
  · rintro ⟨flat, between, areTriples, _, _, ⟨pieces, inTurn, rfl⟩, rfl, rfl⟩
    exact ⟨flat, between, pieces, _, areTriples, inTurn, Segment.flatMap_pieces_ofFragments _,
      Segment.separated_ofFragments _, Operation.ofFragments_eq_joined _⟩
  · rintro ⟨flat, between, pieces, segments, areTriples, inTurn, read, separated, rfl⟩
    have isOnly := Segment.ofFragments_eq_iff.2 ⟨read, separated⟩
    refine ⟨flat, between, areTriples, _, after, ⟨pieces, inTurn, rfl⟩, ?_, rfl⟩
    rw [Operation.ofFragments_eq_joined, isOnly]

/-- In `?s <p> ?o . ?s <p>*/<p> ?o . ?o <p> ?s` the last step of the path goes into the run behind
its first. -/
example (supply : NameSupply) :
    let p : Surface.Iri := ⟨.full "http://ex.org/p", .none⟩
    let triple (subject : String) (verb : Surface.Verb) (object : String) : Surface.Triple :=
      ⟨.term (.var ⟨subject⟩), verb, .term (.var ⟨object⟩)⟩
    let pattern (subject object : String) : Pattern :=
      ⟨.var ⟨subject⟩, .iri ⟨"http://ex.org/p"⟩, .var ⟨object⟩, .defaultGraph⟩
    (ofOptions .plain {}).basicGraphPattern
      [triple "s" (.simple (.iri p)) "o",
        triple "s" (.path (.sequence (.zeroOrMore (.iri p) .none) (.iri p) .none)) "o",
        triple "o" (.simple (.iri p)) "s"] supply
      = .ok (.joined [
          .bgp [pattern "s" "o"],
          .of (.path (.var ⟨"s"⟩) (.zeroOrMore (.link ⟨"http://ex.org/p"⟩))
            (.var ⟨supply.takeVariable.1⟩) .defaultGraph),
          .bgp [pattern supply.takeVariable.1 "o", pattern "o" "s"]]) supply.takeVariable.2 := by
  rfl

end Context

end QueryAlgebra
