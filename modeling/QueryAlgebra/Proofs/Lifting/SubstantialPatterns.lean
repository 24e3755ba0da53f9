import QueryAlgebra.Proofs.Lifting.GrantedQueries
import QueryAlgebra.Proofs.Lowering.ComparedPatterns
import QueryAlgebra.Proofs.Lowering.Segments
import QueryAlgebra.Proofs.Operation.GraphsTakenOut
import QueryAlgebra.Proofs.Operation.MatchedGraphs

/-! # Patterns that are written as something

The operation that a pattern is read as is the empty basic graph pattern, or it has substance: it is
written as more than an empty group, also after graph names are taken out of it. So the pattern of
an update is lost only if it is empty.
-/

namespace QueryAlgebra

open Lowering (Yields)

/-- An operation is written as more than an empty group. -/
inductive Operation.HasSubstance : Operation → Prop
  | bgp {patterns : List Pattern} {metadata : Option Metadata} (some : patterns ≠ []) :
    HasSubstance ⟨.bgp patterns, metadata⟩
  | values {vars : List Variable} {rows : List Row} {metadata : Option Metadata} :
    HasSubstance ⟨.values vars rows, metadata⟩
  | path {subject object graph : Term} {predicate : Path} {metadata : Option Metadata} :
    HasSubstance ⟨.path subject predicate object graph, metadata⟩
  | wrap {wrapper : Wrapper} {input : Operation} {metadata : Option Metadata}
    (asked : ∀ default named, wrapper = .dataset default named → input.HasSubstance) :
    HasSubstance ⟨.wrap wrapper input, metadata⟩
  | filter {input : Operation} {condition : Expression} {metadata : Option Metadata} :
    HasSubstance ⟨.filter input condition, metadata⟩
  | extend {input : Operation} {name : Variable} {value : Expression}
    {metadata : Option Metadata} : HasSubstance ⟨.extend input name value, metadata⟩
  | leftJoin {left right : Operation} {condition : Option Expression}
    {metadata : Option Metadata} : HasSubstance ⟨.leftJoin left right condition, metadata⟩
  | minus {left right : Operation} {metadata : Option Metadata} :
    HasSubstance ⟨.minus left right, metadata⟩
  | join {inputs : List Operation} {input : Operation} {metadata : Option Metadata}
    (member : input ∈ inputs) (ofInput : input.HasSubstance) :
    HasSubstance ⟨.combine .join inputs, metadata⟩
  | union {inputs : List Operation} {metadata : Option Metadata} (several : 2 ≤ inputs.length) :
    HasSubstance ⟨.combine .union inputs, metadata⟩

/-! ### What patterns are read as -/

namespace Operation

/-- An operation is the empty basic graph pattern or is written as more than an empty group. -/
def IsEmptyOrSubstance (operation : Operation) : Prop :=
  operation.isEmptyBgp = true ∨ operation.HasSubstance

theorem isEmptyOrSubstance_bgp (patterns : List Pattern) :
    (Operation.bgp patterns).IsEmptyOrSubstance := by
  cases patterns with
  | nil => exact .inl rfl
  | cons first rest => exact .inr (.bgp (List.cons_ne_nil first rest))

/-- A join that is kept flat contains all that is joined. -/
theorem HasSubstance.inJoin {inputs : List Operation} {input : Operation}
    (ofInput : input.HasSubstance) (member : input ∈ inputs) :
    (Operation.join inputs).HasSubstance := by
  have parts : ∃ part ∈ input.parts .join, part.HasSubstance := by
    unfold Operation.parts
    split
    · split
      · cases ofInput with
        | join inside ofPart => exact ⟨_, inside, ofPart⟩
        | union => contradiction
      · exact ⟨_, List.mem_singleton_self _, ofInput⟩
    · exact ⟨_, List.mem_singleton_self _, ofInput⟩
  obtain ⟨part, isPart, ofPart⟩ := parts
  exact .join (List.mem_flatMap.2 ⟨input, member, isPart⟩) ofPart

/-- A union that is kept flat has at least two branches. -/
theorem hasSubstance_union {left right : Operation} (ofLeft : left.IsEmptyOrSubstance)
    (ofRight : right.IsEmptyOrSubstance) : (Operation.union [left, right]).HasSubstance := by
  have parts : ∀ {operation : Operation}, operation.IsEmptyOrSubstance →
      1 ≤ (operation.parts .union).length := by
    intro operation either
    unfold Operation.parts
    split
    · split
      · rcases either with empty | ofOperation
        · cases empty
        · cases ofOperation with
          | join => contradiction
          | union several => exact Nat.le_of_succ_le several
      · exact Nat.le_refl 1
    · exact Nat.le_refl 1
  refine .union ?_
  rw [List.flatMap_cons, List.flatMap_cons, List.flatMap_nil, List.append_nil, List.length_append]
  exact Nat.add_le_add (parts ofLeft) (parts ofRight)

theorem IsEmptyOrSubstance.simplifiedJoin {left right : Operation}
    (ofLeft : left.IsEmptyOrSubstance) (ofRight : right.IsEmptyOrSubstance) :
    (simplifiedJoin left right).IsEmptyOrSubstance := by
  unfold QueryAlgebra.simplifiedJoin
  split
  · exact isEmptyOrSubstance_bgp _
  · split
    · exact ofRight
    · rename_i present
      split
      · exact ofLeft
      · exact .inr ((ofLeft.resolve_left present).inJoin (List.mem_cons_self ..))

theorem IsEmptyOrSubstance.filtered {operation : Operation}
    (ofOperation : operation.IsEmptyOrSubstance) (filters : List Expression) :
    (filtered operation filters).IsEmptyOrSubstance := by
  unfold QueryAlgebra.filtered
  split
  · exact .inr .filter
  · exact ofOperation

theorem isEmptyOrSubstance_ofFragments (fragments : List Fragment) :
    (ofFragments fragments).IsEmptyOrSubstance := by
  refine ofFragments_cases (Q := HasSubstance) (fun _ filled _ => .bgp filled)
    (fun _ _ _ _ _ => .path) (.inl rfl) (fun _ => .inr) fun members several _ ofMembers => .inr ?_
  obtain ⟨member, isMember⟩ := List.exists_mem_of_length_pos (Nat.zero_lt_of_lt several)
  exact .join isMember (ofMembers member isMember)

theorem hasSubstance_leftJoinOf (left right : Operation) :
    (leftJoinOf left right).HasSubstance := by
  unfold leftJoinOf
  split <;> exact .leftJoin

end Operation

namespace Context

variable (context : Context)

/-- Queries show variables, whatever their clauses are. -/
private theorem yields_selectSubstance (query : Surface.Select) :
    Yields Operation.HasSubstance (context.select query) := by
  obtain ⟨duplicates, projection, dataset, inner, modifiers⟩ := query
  rw [select]
  refine .bind_any fun input => .bind_any fun found => .bind_any fun solutions =>
    .lift fun result made => ?_
  have projected : (sliced modifiers.limit modifiers.offset (withDuplicates duplicates (.of (.wrap
      (.project (context.shown projection inner modifiers.values found.1))
      solutions)))).HasSubstance := by
    unfold sliced withDuplicates
    split
    · cases duplicates <;> exact .wrap nofun
    · exact .wrap nofun
  unfold overDataset at made
  split at made
  · cases made
    exact projected
  · split at made
    · cases made
      exact projected
    · obtain ⟨default, _, made⟩ := ok_of_bind made
      obtain ⟨named, _, made⟩ := ok_of_bind made
      cases made
      exact .wrap fun _ _ _ => projected

mutual

/-- A pattern is read as the empty basic graph pattern or as something that is written. -/
theorem yields_substance : ∀ pattern : Surface.Pattern,
    Yields Operation.IsEmptyOrSubstance (context.pattern pattern)
  | .bgp triples _ => .bind_any fun _ => .bind_any fun fragments =>
    .pure (Operation.isEmptyOrSubstance_ofFragments fragments)
  | .group elements _ => by
    rw [pattern]
    exact (yields_elementsSubstance elements (Operation.isEmptyOrSubstance_bgp []) []).bind
      fun _ ofElements => .pure (ofElements.filtered _)
  | .union left right _ => by
    rw [pattern]
    exact (yields_substance left).bind fun _ ofLeft => (yields_substance right).bind
      fun _ ofRight => .pure (.inr (Operation.hasSubstance_union ofLeft ofRight))
  | .graph name inner _ => by
    rw [pattern]
    refine .bind_any fun input => .bind_any fun name => ?_
    split
    · exact .bind_any fun input => .pure (.inr (.wrap nofun))
    · exact .pure (.inr (.wrap nofun))
  | .service silent endpoint inner _ => by
    rw [pattern]
    exact .bind_any fun input => .bind_any fun name => .pure (.inr (.wrap nofun))
  | .values data _ => by
    rw [pattern]
    exact .bind_any fun rows => .pure (.inr .values)
  | .subquery query _ => fun supply operation after success =>
    .inr (context.yields_selectSubstance query supply operation after success)
  | .optional _ _ | .minus _ _ | .filter _ _ | .bind _ _ _ => .throw _

theorem yields_elementsSubstance : ∀ (elements : List Surface.Pattern) {operation : Operation},
    operation.IsEmptyOrSubstance → ∀ filters : List Expression,
    Yields (fun read => read.1.IsEmptyOrSubstance) (context.elements elements operation filters)
  | [], _, ofOperation, _ => .pure ofOperation
  | element :: rest, operation, ofOperation, filters => by
    have asMember (isMember : element.isMember = true) :
        Yields (fun read => read.1.IsEmptyOrSubstance)
          (context.elements (element :: rest) operation filters) := by
      rw [elements_member context isMember]
      exact (yields_substance element).bind fun _ ofRight =>
        yields_elementsSubstance rest (ofOperation.simplifiedJoin ofRight) filters
    cases element with
    | filter condition span =>
      rw [elements]
      exact .bind_any fun _ => yields_elementsSubstance rest ofOperation _
    | optional pattern span =>
      rw [elements]
      exact .bind_any fun _ =>
        yields_elementsSubstance rest (.inr (Operation.hasSubstance_leftJoinOf _ _)) filters
    | minus pattern span =>
      rw [elements]
      exact .bind_any fun _ => yields_elementsSubstance rest (.inr .minus) filters
    | bind value name span =>
      rw [elements]
      exact .bind_any fun _ => yields_elementsSubstance rest (.inr .extend) filters
    | bgp | group | union | values | graph | service | subquery => exact asMember rfl

end

end Context

/-! ### Graph names -/

namespace Operation.HasSubstance

variable {change : Rebuild} {operation : Operation}

/-- A rebuilding of parts that keeps substance there keeps it everywhere. -/
theorem rebuild (keeps : ∀ operation : Operation, operation.HasSubstance →
      (change.operation operation).HasSubstance)
    (substance : operation.HasSubstance) : (operation.rebuild change).HasSubstance := by
  have step : ∀ {operator : Operator} {metadata : Option Metadata},
      HasSubstance ⟨operator, metadata⟩ → HasSubstance ⟨operator.rebuild change, metadata⟩ →
      HasSubstance (Operation.rebuild change ⟨operator, metadata⟩) := by
    intro operator metadata before after
    rw [Operation.rebuild]
    split
    · exact before
    · exact keeps _ after
  induction substance with
  | bgp some =>
    refine step (.bgp some) ?_
    rw [Operator.rebuild]
    exact .bgp (mt List.map_eq_nil_iff.1 some)
  | @leftJoin left right condition metadata =>
    refine step .leftJoin ?_
    cases condition <;> rw [Operator.rebuild] <;> exact .leftJoin
  | @join inputs input metadata member ofInput ih =>
    refine step (.join member ofInput) ?_
    rw [Operator.rebuild, Operation.rebuildAll_eq_map]
    exact .join (List.mem_map_of_mem member) ih
  | @union inputs metadata several =>
    refine step (.union several) ?_
    rw [Operator.rebuild, Operation.rebuildAll_eq_map]
    exact .union (by rwa [List.length_map])
  | values => exact step .values (by rw [Operator.rebuild]; exact .values)
  | path => exact step .path (by rw [Operator.rebuild]; exact .path)
  | wrap asked ih => exact step (.wrap asked) (by rw [Operator.rebuild]; exact .wrap ih)
  | filter => exact step .filter (by rw [Operator.rebuild]; exact .filter)
  | extend => exact step .extend (by rw [Operator.rebuild]; exact .extend)
  | minus => exact step .minus (by rw [Operator.rebuild]; exact .minus)

private theorem relabel {metadata : Option Metadata} (substance : operation.HasSubstance) :
    HasSubstance ⟨operation.operator, metadata⟩ := by
  cases substance with
  | bgp some => exact .bgp some
  | join member ofInput => exact .join member ofInput
  | union several => exact .union several
  | wrap asked => exact .wrap asked
  | _ => constructor

private theorem ofGraphPart {part : Term × List Pattern} (some : part.2 ≠ []) :
    (ofGraphPart part).HasSubstance := by
  unfold Operation.ofGraphPart
  dsimp only
  split
  · exact .bgp (mt List.map_eq_nil_iff.1 some)
  · exact .wrap nofun

/-- Patterns that are split by graph are written in some of the parts. -/
private theorem splitByGraph {patterns : List Pattern} (some : patterns ≠ [])
    (metadata : Option Metadata) : HasSubstance ⟨.splitByGraph patterns, metadata⟩ := by
  have parts : ∀ part ∈ (Pattern.byGraph patterns).map Operation.ofGraphPart,
      part.HasSubstance := by
    intro part member
    obtain ⟨⟨name, others⟩, ofGraph, rfl⟩ := List.mem_map.1 member
    obtain ⟨graph, isGraph, same⟩ := List.mem_map.1 ofGraph
    obtain ⟨rfl, rfl⟩ := Prod.ext_iff.1 same
    obtain ⟨pattern, isPattern, rfl⟩ := List.mem_map.1 (List.mem_eraseDups.1 isGraph)
    exact ofGraphPart (List.ne_nil_of_mem (List.mem_filter.2 ⟨isPattern, decide_eq_true rfl⟩))
  have nonempty : (Pattern.byGraph patterns).map Operation.ofGraphPart ≠ [] := by
    intro empty
    have sorted := Pattern.perm_byGraph patterns
    rw [List.map_eq_nil_iff.1 empty] at sorted
    exact some sorted.nil_eq.symm
  rw [Operator.splitByGraph]
  split
  · exact .bgp some
  · generalize (Pattern.byGraph patterns).map Operation.ofGraphPart = all at parts nonempty
    rcases all with _ | ⟨first, _ | ⟨second, rest⟩⟩
    · exact absurd rfl nonempty
    · exact (parts first (List.mem_singleton_self first)).relabel
    · exact ((parts first (List.mem_cons_self ..)).inJoin (List.mem_cons_self ..)).relabel

/-- What is written is still written after graph names are taken out of it. -/
theorem withoutEmbeddedGraphs (substance : operation.HasSubstance) :
    operation.withoutEmbeddedGraphs.HasSubstance := by
  have cleared : (operation.rebuild clearingBlocks).HasSubstance := by
    refine substance.rebuild fun ⟨operator, metadata⟩ ofOther => ?_
    cases isBlock : operator.isGraph with
    | false => rwa [clearingBlocks_same operator metadata isBlock]
    | true =>
      cases operator with
      | wrap wrapper input =>
        cases wrapper with
        | graph name => exact .wrap nofun
        | _ => cases isBlock
      | _ => cases isBlock
  have wrapped : ((operation.rebuild clearingBlocks).rebuild wrapping).HasSubstance := by
    refine cleared.rebuild fun ⟨operator, metadata⟩ ofOther => ?_
    cases isMatching : operator.isMatching with
    | false => rwa [wrapping_same operator metadata isMatching]
    | true =>
      cases ofOther with
      | bgp some => exact splitByGraph some metadata
      | path =>
        show HasSubstance (if _ then _ else _)
        split
        · exact .path
        · exact .wrap nofun
      | _ => cases isMatching
  exact wrapped

end Operation.HasSubstance

/-! ### What is written -/

/-- Whether a pattern is a group without elements. -/
def Surface.Pattern.isHollow : Surface.Pattern → Bool
  | .group [] _ => true
  | _ => false

/-- Elements of a group are more than an empty group. -/
def Surface.Pattern.HaveSubstance (patterns : List Surface.Pattern) : Prop :=
  ∃ pattern ∈ patterns, pattern.isHollow = false

namespace Surface.Pattern

theorem haveSubstance_singleton {pattern : Surface.Pattern} (isSolid : pattern.isHollow = false) :
    HaveSubstance [pattern] := ⟨pattern, List.mem_singleton_self pattern, isSolid⟩

theorem haveSubstance_append (patterns : List Surface.Pattern) {pattern : Surface.Pattern}
    (isSolid : pattern.isHollow = false) : HaveSubstance (patterns ++ [pattern]) :=
  ⟨pattern, List.mem_append_right _ (List.mem_singleton_self pattern), isSolid⟩

theorem haveSubstance_mergeTriples {patterns : List Surface.Pattern}
    (substance : HaveSubstance patterns) : HaveSubstance (mergeTriples patterns) := by
  induction patterns with
  | nil => exact substance
  | cons first rest ih =>
    rw [mergeTriples]
    unfold consMerged
    split
    · exact ⟨_, List.mem_cons_self .., rfl⟩
    · obtain ⟨pattern, member, isSolid⟩ := substance
      rcases List.mem_cons.1 member with rfl | inRest
      · exact ⟨pattern, List.mem_cons_self .., isSolid⟩
      · obtain ⟨other, isOther, solid⟩ := ih ⟨pattern, inRest, isSolid⟩
        exact ⟨other, List.mem_cons_of_mem _ isOther, solid⟩

theorem haveSubstance_unionOf {patterns : List Surface.Pattern} (several : 2 ≤ patterns.length) :
    HaveSubstance (unionOf patterns) := by
  cases patterns with
  | nil => exact absurd several (by decide)
  | cons first rest =>
    rcases List.eq_nil_or_concat' rest with rfl | ⟨others, last, rfl⟩
    · exact absurd several (by simp)
    · rw [unionOf, List.foldl_append]
      exact haveSubstance_singleton rfl

/-- Elements with substance are no empty pattern when they are put into a group. -/
theorem isEmptyPattern_groupOf {patterns : List Surface.Pattern}
    (substance : HaveSubstance patterns) :
    Context.isEmptyPattern (groupOf patterns) = false := by
  obtain ⟨pattern, member, isSolid⟩ := substance
  have elements : groupElements patterns ≠ [] := by
    unfold groupElements
    split
    · rename_i elements span
      obtain rfl := List.mem_singleton.1 member
      rintro rfl
      cases isSolid
    · exact List.ne_nil_of_mem member
  rw [groupOf]
  cases groups : groupElements patterns with
  | nil => exact absurd groups elements
  | cons => rfl

end Surface.Pattern

/-- An operation is written as a query or as elements with substance. -/
def Lifted.HasSubstance : Lifted → Prop
  | .elements patterns => Surface.Pattern.HaveSubstance patterns
  | .query _ => True

open Surface.Pattern (HaveSubstance)

theorem Collecting.Grants.elementsSubstance {lifted : Collecting Lifted}
    (substance : lifted.Grants fun written _ => written.HasSubstance) :
    lifted.asElements.Grants fun elements _ => HaveSubstance elements := by
  refine substance.bind fun written found substance => ?_
  cases written with
  | elements patterns => exact .lift (P := (· = patterns)) rfl fun _ same => same ▸ substance
  | query asked =>
    cases asked with
    | select query =>
      exact .lift (P := (· = [Surface.Pattern.subquery query .none])) rfl
        fun _ same => same ▸ Surface.Pattern.haveSubstance_singleton rfl
    | _ => trivial

namespace Operation

private theorem grants_partSubstance {inputs : List Operation} {input : Operation}
    (member : input ∈ inputs)
    (substance : (input.written false).Grants fun written _ => written.HasSubstance) :
    (allElements inputs).Grants fun parts _ => HaveSubstance parts.flatten := by
  induction inputs with
  | nil => exact absurd member List.not_mem_nil
  | cons first rest ih =>
    rw [allElements]
    rcases List.mem_cons.1 member with rfl | inRest
    · refine substance.elementsSubstance.bind fun elements _ ⟨pattern, isElement, isSolid⟩ => ?_
      refine .bind_any fun others _ => .pure ?_
      exact ⟨pattern, List.mem_append_left _ isElement, isSolid⟩
    · refine .bind_any fun elements _ => ?_
      refine (ih inRest).bind fun others _ ⟨pattern, isElement, isSolid⟩ => .pure ?_
      exact ⟨pattern, List.mem_append_right _ isElement, isSolid⟩

private theorem grants_partsLength (inputs : List Operation) :
    (allElements inputs).Grants fun parts _ => parts.length = inputs.length := by
  induction inputs with
  | nil => exact .pure rfl
  | cons first rest ih =>
    rw [allElements]
    refine .bind_any fun elements _ => ?_
    exact ih.bind fun others _ same => .pure (congrArg (· + 1) same)

/-- What has substance is written as something, if it can be written. -/
theorem HasSubstance.grants_written {operation : Operation} (substance : operation.HasSubstance) :
    (operation.written false).Grants fun written _ => written.HasSubstance := by
  induction substance with
  | @bgp patterns metadata some =>
    cases patterns with
    | nil => exact absurd rfl some
    | cons first rest =>
      rw [Operation.written, Operator.written]
      · exact .bindLift .any fun triples _ => .pure (Surface.Pattern.haveSubstance_singleton rfl)
      · exact some
  | values =>
    rw [Operation.written, Operator.written]
    exact .bindLift .any fun rows _ => .pure (Surface.Pattern.haveSubstance_singleton rfl)
  | path =>
    rw [Operation.written, Operator.written]
    split
    · exact .bindLift .any fun _ _ => .bindLift .any fun _ _ => .bindLift .any fun _ _ =>
        .pure (Surface.Pattern.haveSubstance_singleton rfl)
    · trivial
  | @wrap wrapper input metadata =>
    cases wrapper <;> rw [Operation.written, Operator.written]
    case project | ask => exact .bindLift .any fun scope _ => .pure trivial
    case describe =>
      exact .bindLift .any fun scope _ => .bindLift .any fun target _ => .pure trivial
    case graph | service =>
      refine .bindLift .any fun name _ => ?_
      exact .bind_any fun elements _ =>
        .pure (Surface.Pattern.haveSubstance_singleton rfl)
    case distinct | reduced =>
      refine .bind_any fun query _ => ?_
      exact .bindLift .any fun query _ => .pure trivial
    case slice | dataset =>
      exact .bind_any fun query _ => .pure trivial
  | filter =>
    rw [Operation.written, Operator.written]
    refine .bind_any fun elements _ => ?_
    refine .bind_any fun condition _ => .pure ?_
    cases elements <;> exact Surface.Pattern.haveSubstance_singleton rfl
  | extend =>
    rw [Operation.written, Operator.written]
    refine .bind_any fun elements _ => ?_
    exact .bind_any fun value _ =>
      .pure (Surface.Pattern.haveSubstance_append elements rfl)
  | leftJoin =>
    rw [Operation.written, Operator.written]
    refine .bind_any fun elements _ => ?_
    refine .bind_any fun optional _ => ?_
    exact .bind_any fun filters _ =>
      .pure (Surface.Pattern.haveSubstance_append elements rfl)
  | minus =>
    rw [Operation.written, Operator.written]
    refine .bind_any fun elements _ => ?_
    exact .bind_any fun removed _ =>
      .pure (Surface.Pattern.haveSubstance_append elements rfl)
  | join member ofInput ih =>
    rw [Operation.written, Operator.written]
    exact (grants_partSubstance member ih).bind fun parts _ substance =>
      .pure (Surface.Pattern.haveSubstance_mergeTriples substance)
  | @union inputs metadata several =>
    rw [Operation.written, Operator.written]
    refine (grants_partsLength inputs).bind fun parts _ same => .pure ?_
    exact Surface.Pattern.haveSubstance_unionOf (by rwa [List.length_map, same])

end Operation

end QueryAlgebra
