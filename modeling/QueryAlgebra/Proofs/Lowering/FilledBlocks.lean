import QueryAlgebra.Proofs.Lowering.EmbeddedSites
import QueryAlgebra.Proofs.NameMap
import QueryAlgebra.Proofs.Operation.NamedGraphs
import QueryAlgebra.Proofs.Operation.SparedNames

/-! # Graph names that only fill patterns

Where the name of a graph block is spared, it goes into the block without any other change: patterns
and paths inside get the name as their graph, those in values that are bound to variables only if
the name is hidden around the binding. Which of them get it is a placing, `Placing.filling`, so the
operation with the names of its blocks in it is determined by the one without:
`Context.puts_embedGraph`. New variables are taken for names that are hidden, although none of them
is used.
-/

namespace QueryAlgebra

/-- Where a part of an operation stands: outside graph blocks, or in a graph block of a name, which
may be hidden by what is in between. -/
inductive Area where
  | outside
  | block (name : Term) (hidden : Bool)
deriving DecidableEq

namespace Area

/-- The area below what may hide the name of a block. -/
def hide (hides : Term → Bool) : Area → Area
  | .outside => .outside
  | .block name hidden => .block name (hidden || hides name)

/-- The area inside a wrapper. -/
def enter (wrapper : Wrapper) (area : Area) : Area :=
  match wrapper with
  | .graph name => .block name false
  | .service .. => .outside
  | other => area.hide fun name => other.hides name

/-- The area of a value that is bound to a variable; the name of a block that is not hidden passes
it by. -/
def value : Area → Area
  | .block name true => .block name true
  | _ => .outside

/-- The graph of the patterns and paths of an area. -/
def graph : Area → Term
  | .outside => .defaultGraph
  | .block name _ => name.asGraph

end Area

/-- The name of every graph block goes into the patterns and paths inside. -/
def Placing.filling : Placing Area where
  enter := Area.enter
  bind name := Area.hide fun graph => .var name == graph
  value := Area.value
  graph := Area.graph

/-! ### Steps that take variables alone -/

/-- A supply with more variables in use, and the same labels. -/
structure NameSupply.AddsVariables (supply after : NameSupply) : Prop where
  vars : supply.vars ⊆ after.vars
  labels : after.labels = supply.labels
  nextLabel : after.nextLabel = supply.nextLabel

theorem NameSupply.AddsVariables.trans {supply between after : NameSupply}
    (first : supply.AddsVariables between) (second : between.AddsVariables after) :
    supply.AddsVariables after :=
  ⟨List.Subset.trans first.vars second.vars, second.labels.trans first.labels,
    second.nextLabel.trans first.nextLabel⟩

/-- A step that comes to a result from every supply, taking variables alone. -/
def Lowering.Puts {α : Type} (result : α) (step : Lowering α) : Prop :=
  ∀ supply, ∃ after, step supply = .ok result after ∧ supply.AddsVariables after

namespace Lowering.Puts

variable {α β : Type}

theorem pure (result : α) : Puts result (pure result) := fun supply =>
  ⟨supply, rfl, List.Subset.refl _, rfl, rfl⟩

theorem bind {between : α} {result : β} {step : Lowering α} {next : α → Lowering β}
    (first : Puts between step) (second : Puts result (next between)) :
    Puts result (step >>= next) := fun supply => by
  obtain ⟨after, success, adds⟩ := first supply
  obtain ⟨last, success', adds'⟩ := second after
  exact ⟨last, by rw [bind_ok success, success'], adds.trans adds'⟩

/-- A name that is hidden is replaced by a new variable. -/
theorem shadow {context : Context} {embedding : Embedding} {hidden : Bool} {result : β}
    {next : Embedding → Lowering β} (goesOn : ∀ replacement : Option Variable,
      replacement.isSome = (embedding.replacement.isSome || hidden) →
      Puts result (next { embedding with replacement })) :
    Puts result (context.shadow embedding hidden >>= next) := by
  rw [Context.shadow]
  split
  · rename_i isNew
    obtain ⟨rfl, isNone⟩ := Bool.and_eq_true_iff.1 isNew
    intro supply
    have adds : supply.AddsVariables supply.takeVariable.2 :=
      ⟨List.subset_cons_self .., rfl, rfl⟩
    obtain ⟨last, success, adds'⟩ := goesOn (some (context.factory.var supply.takeVariable.1))
      (Bool.or_true _).symm supply.takeVariable.2
    exact ⟨last, success, adds.trans adds'⟩
  · rename_i known
    refine goesOn embedding.replacement ?_
    cases isHidden : hidden with
    | false => exact (Bool.or_false _).symm
    | true =>
      rw [Bool.or_true]
      rw [isHidden, Bool.true_and, Option.isNone_iff_eq_none, ← ne_eq,
        ← Option.isSome_iff_ne_none] at known
      exact known

end Lowering.Puts

/-! ### What an embedding leaves alone -/

namespace Embedding

/-- Where a name goes in: it is the name of a block, what it fills stands outside blocks, and other
parts stand in blocks of other names. -/
structure Meets (embedding : Embedding) (area : Area) : Prop where
  named : embedding.name.asGraph = embedding.name
  isName : embedding.name ≠ .defaultGraph
  outside : embedding.fills = true → area = .outside
  other : area.graph ≠ embedding.name

/-- Where parts of an area stand when the name has gone in. -/
def into (embedding : Embedding) (area : Area) : Area :=
  if embedding.fills then .block embedding.name embedding.replacement.isSome else area

variable {embedding : Embedding} {area : Area}

theorem into_hide {replacement : Option Variable} {hides : Term → Bool}
    (isSome : replacement.isSome = (embedding.replacement.isSome || hides embedding.name)) :
    (embedding.into area).hide hides = into { embedding with replacement } (area.hide hides) := by
  unfold into
  split
  · rw [isSome]
    rfl
  · rfl

theorem Meets.hide (meets : embedding.Meets area) (replacement : Option Variable)
    (hides : Term → Bool) : Meets { embedding with replacement } (area.hide hides) where
  named := meets.named
  isName := meets.isName
  outside fills := by rw [meets.outside fills]; rfl
  other := by
    have other := meets.other
    cases area <;> exact other

/-- Inside a block, the name fills nothing. -/
theorem Meets.inside (meets : embedding.Meets area) :
    (embedding.inside true).Meets area where
  named := meets.named
  isName := meets.isName
  outside fills := by
    have keeps : (embedding.inside true).fills = false := Bool.and_false _
    rw [keeps] at fills
    cases fills
  other := meets.other

/-- A block inside is in an area of its own, unless it is one of the name that is replaced. -/
theorem Meets.enter (meets : embedding.Meets area) (keeps : embedding.fills = false)
    {wrapper : Wrapper} (spared : embedding.name ∉ wrapper.ownTerms) :
    embedding.Meets (area.enter wrapper) where
  named := meets.named
  isName := meets.isName
  outside fills := by rw [keeps] at fills; cases fills
  other := by
    cases wrapper with
    | graph own =>
      have other : own ≠ embedding.name := fun same => spared (same ▸ List.mem_singleton_self own)
      intro same
      cases own with
      | var | iri => exact other same
      | _ => exact meets.isName same.symm
    | service => exact meets.isName.symm
    | _ => exact (meets.hide none _).other

theorem Meets.value (meets : embedding.Meets area) : embedding.Meets area.value where
  named := meets.named
  isName := meets.isName
  outside fills := by rw [meets.outside fills]; rfl
  other := by
    have other := meets.other
    cases area with
    | outside => exact other
    | block own hidden =>
      cases hidden with
      | true => exact other
      | false => exact meets.isName.symm

/-- The value of a binding gets the name if it has been hidden around the binding. -/
theorem into_value (meets : embedding.Meets area) :
    (embedding.into area).value
      = if embedding.replacement.isSome then embedding.into area.value else area.value := by
  unfold into
  cases fills : embedding.fills with
  | true =>
    rw [meets.outside fills]
    cases embedding.replacement <;> rfl
  | false => simp

theorem substitute_of_ne {term : Term}
    (spared : embedding.replacement.isSome = true → term ≠ embedding.name) :
    embedding.substitute term = term := by
  unfold substitute
  split
  · rename_i isSome
    exact if_neg (spared (isSome ▸ rfl))
  · rfl

theorem graph_into (meets : embedding.Meets area) :
    embedding.graph area.graph = (embedding.into area).graph := by
  unfold graph into
  split
  · rename_i fills
    obtain ⟨fills, -⟩ := Bool.and_eq_true_iff.1 fills
    rw [if_pos fills]
    exact meets.named.symm
  · rename_i keeps
    rw [substitute_of_ne fun _ => meets.other]
    split
    · rename_i fills
      rw [fills, meets.outside fills] at keeps
      exact absurd rfl keeps
    · rfl

theorem map_pattern (meets : embedding.Meets area) {patterns : List Pattern}
    (spared : embedding.replacement.isSome = true →
      ∀ pattern ∈ patterns, embedding.name ∉ pattern.terms) :
    (patterns.map (·.inGraph area.graph)).map embedding.pattern
      = patterns.map (·.inGraph (embedding.into area).graph) := by
  rw [List.map_map]
  refine List.map_congr_left fun pattern member => ?_
  have keeps {term : Term} (isTerm : term ∈ pattern.terms) : embedding.substitute term = term :=
    substitute_of_ne fun isSome same => spared isSome pattern member (same ▸ isTerm)
  simp only [Function.comp_apply, Embedding.pattern, Pattern.inGraph, graph_into meets]
  rw [keeps (by simp [Pattern.terms]), keeps (by simp [Pattern.terms]),
    keeps (by simp [Pattern.terms])]

theorem var_of_spared {name : Variable}
    (spared : embedding.replacement.isSome = true → .var name ≠ embedding.name) :
    embedding.var name = name := by
  unfold Embedding.var
  split
  · rw [Variable.mapTerm, substitute_of_ne spared]
  · rfl

theorem map_var {vars : List Variable}
    (spared : embedding.replacement.isSome = true → embedding.name ∉ vars.map .var) :
    vars.map embedding.var = vars :=
  (List.map_congr_left fun _ member => var_of_spared fun isSome same =>
    spared isSome (same ▸ List.mem_map_of_mem member)).trans (List.map_id vars)

theorem wrapper_of_spared {wrapper : Wrapper}
    (spared : embedding.replacement.isSome = true → embedding.name ∉ wrapper.ownTerms) :
    embedding.wrapper wrapper = wrapper := by
  have keeps {term : Term} (isOwn : term ∈ wrapper.ownTerms) : embedding.substitute term = term :=
    substitute_of_ne fun isSome same => spared isSome (same ▸ isOwn)
  rw [wrapper_eq]
  cases wrapper with
  | project vars =>
    refine congrArg Wrapper.project ((List.map_congr_left fun name member => ?_).trans
      (List.map_id vars))
    rw [Variable.mapTerm, keeps (List.mem_map_of_mem member)]
    rfl
  | graph name => exact congrArg Wrapper.graph (keeps (List.mem_singleton_self name))
  | service name silent =>
    exact congrArg (Wrapper.service · silent) (keeps (List.mem_singleton_self name))
  | describe terms =>
    exact congrArg Wrapper.describe
      ((List.map_congr_left fun _ member => keeps member).trans (List.map_id terms))
  | distinct | reduced | slice | dataset | ask => rfl

theorem row_of_spared {row : Row}
    (spared : embedding.replacement.isSome = true → embedding.name ∉ rowTerms row) :
    embedding.row row = row := by
  unfold Embedding.row
  split
  · have keeps {entry : String × Term} (member : entry ∈ row.entries) {term : Term}
        (isOf : term ∈ [Term.var ⟨entry.1⟩, entry.2]) : embedding.substitute term = term :=
      substitute_of_ne fun isSome same =>
        spared isSome (List.mem_flatMap.2 ⟨entry, member, same ▸ isOf⟩)
    have same : row.entries.map (fun entry =>
        ((Variable.mapTerm embedding.substitute ⟨entry.1⟩).name, embedding.substitute entry.2))
          = row.entries := by
      refine (List.map_congr_left fun entry member => ?_).trans (List.map_id row.entries)
      rw [Variable.mapTerm, keeps member List.mem_cons_self,
        keeps member (List.mem_cons_of_mem _ List.mem_cons_self)]
      rfl
    rw [mapRow, same, NameMap.ofList_entries]
  · rfl

theorem map_row {rows : List Row}
    (spared : embedding.replacement.isSome = true → embedding.name ∉ rows.flatMap rowTerms) :
    rows.map embedding.row = rows :=
  (List.map_congr_left fun _ member => row_of_spared fun isSome isTerm =>
    spared isSome (List.mem_flatMap.2 ⟨_, member, isTerm⟩)).trans (List.map_id rows)

end Embedding

/-! ### The name of a block goes in -/

/-- What is around a block does not matter inside. -/
theorem Operator.place_of_setsGraph {operator : Operator} (isBlock : operator.setsGraph = true)
    (area area' : Area) : operator.place .filling area = operator.place .filling area' := by
  cases operator with
  | wrap wrapper input =>
    cases wrapper with
    | graph | service => rfl
    | _ => cases isBlock
  | _ => cases isBlock

section

variable {wrapper : Wrapper} {input : Operation} (other : ∀ vars, wrapper ≠ .project vars)

include other

/-- Wrappers other than projections and blocks lead into no other area. -/
private theorem Area.enter_of_other (isPlain : (Operator.wrap wrapper input).setsGraph = false)
    (area : Area) : area.enter wrapper = area := by
  have stays : area.hide (fun _ => false) = area := by
    cases area with
    | outside => rfl
    | block name hidden => exact congrArg (Area.block name) (Bool.or_false hidden)
  cases wrapper with
  | project vars => exact absurd rfl (other vars)
  | graph | service => cases isPlain
  | distinct | reduced | slice | dataset | ask | describe => exact stays

private theorem Wrapper.hides_of_other (name : Term) : wrapper.hides name = false := by
  cases wrapper with
  | project vars => exact absurd rfl (other vars)
  | _ => rfl

end

namespace Context

variable (context : Context)

open Lowering (Puts)

mutual

/-- The name of a block goes into what spares it, and no other change is made. -/
theorem puts_embed : ∀ (operation : Operation) {embedding : Embedding} {area : Area},
    embedding.Meets area →
    operation.spares embedding.name embedding.replacement.isSome = true →
    Puts (operation.place .filling (embedding.into area))
      (context.embed embedding (operation.place .filling area))
  | ⟨operator, metadata⟩, embedding, area, meets, spared => by
    rw [Operation.place, Operation.place, embed, Operator.setsGraph_place]
    cases isIdle : embedding.isIdle operator.setsGraph with
    | true =>
      rw [if_pos rfl]
      have stays : operator.place .filling (embedding.into area)
          = operator.place .filling area := by
        rcases Bool.or_eq_true_iff.1 (Bool.and_eq_true_iff.1 isIdle).2 with isBlock | keeps
        · exact Operator.place_of_setsGraph isBlock ..
        · rw [Embedding.into, if_neg (by simpa using keeps)]
      rw [stays]
      exact .pure _
    | false =>
      rw [if_neg Bool.false_ne_true]
      cases isBlock : operator.setsGraph with
      | true =>
        have isSome : embedding.replacement.isSome = true := by
          simpa [Embedding.isIdle, isBlock, Option.isSome_iff_ne_none] using isIdle
        rcases Operation.spares_iff.1 spared with ⟨shown, -⟩ | ⟨own, ofParts⟩
        · rw [isSome] at shown
          cases shown
        · rw [Operator.place_of_setsGraph isBlock _ ((embedding.inside true).into area)]
          exact (puts_embedOperator operator meets.inside (fun _ => ⟨Bool.and_false _, isSome⟩) own
            ofParts).bind (.pure _)
      | false =>
        rcases Operation.spares_iff.1 spared with ⟨-, sets⟩ | ⟨own, ofParts⟩
        · rw [isBlock] at sets
          cases sets
        · rw [Embedding.inside_false]
          exact (puts_embedOperator operator meets (by simp [isBlock]) own ofParts).bind (.pure _)

theorem puts_embedOperator : ∀ (operator : Operator) {embedding : Embedding} {area : Area},
    embedding.Meets area →
    (operator.setsGraph = true → embedding.fills = false ∧ embedding.replacement.isSome = true) →
    (embedding.replacement.isSome = true → embedding.name ∉ operator.ownTerms) →
    operator.spares embedding.name embedding.replacement.isSome = true →
    Puts (operator.place .filling (embedding.into area))
      (context.embedOperator embedding (operator.place .filling area))
  | .bgp patterns, embedding, area, meets, _, _, spared => by
    rw [Operator.place, Operator.place, embedOperator]
    have kept := Embedding.map_pattern meets (Operator.spares_bgp.1 spared)
    exact kept ▸ .pure _
  | .values vars rows, _, _, meets, _, own, _ => by
    have ofVars := Embedding.map_var fun isSome member => own isSome (List.mem_append_left _ member)
    have ofRows := Embedding.map_row fun isSome member => own isSome (List.mem_append_right _ member)
    rw [Operator.place, Operator.place, embedOperator, ofVars, ofRows]
    exact .pure _
  | .nop, _, _, _, _, _, _ => .pure _
  | .manage _, _, _, _, _, _, _ => .pure _
  | .path subject predicate object _, _, _, meets, _, own, _ => by
    have ofSubject := Embedding.substitute_of_ne fun isSome same =>
      own isSome (same ▸ List.mem_cons_self)
    have ofObject := Embedding.substitute_of_ne fun isSome same =>
      own isSome (same ▸ List.mem_cons_of_mem _ List.mem_cons_self)
    have ofGraph := Embedding.graph_into meets
    rw [Operator.place, Operator.place, embedOperator, ofSubject, ofObject]
    exact ofGraph ▸ .pure _
  | .wrap wrapper input, embedding, area, meets, isBlock, own, spared => by
    by_cases isProject : ∃ vars, wrapper = .project vars
    · obtain ⟨vars, rfl⟩ := isProject
      rw [Operator.place, Operator.place, embedOperator, Embedding.wrapper_of_spared own]
      refine .shadow fun replacement isSome => ?_
      have ofInput := puts_embed input (meets.hide replacement fun name =>
        Wrapper.hides name (.project vars)) (isSome ▸ spared)
      rw [← Embedding.into_hide isSome] at ofInput
      exact ofInput.bind (.pure _)
    · have other : ∀ vars, wrapper ≠ .project vars := fun vars same => isProject ⟨vars, same⟩
      have entered : (embedding.into area).enter wrapper = embedding.into (area.enter wrapper)
          ∧ embedding.Meets (area.enter wrapper) := by
        cases sets : (Operator.wrap wrapper input).setsGraph with
        | true =>
          obtain ⟨keeps, isSome⟩ := isBlock sets
          refine ⟨?_, meets.enter keeps (own isSome)⟩
          rw [Embedding.into, Embedding.into, if_neg (by simp [keeps]), if_neg (by simp [keeps])]
        | false =>
          rw [Area.enter_of_other other sets, Area.enter_of_other other sets]
          exact ⟨rfl, meets⟩
      rw [Operator.spares, Wrapper.hides_of_other other, Bool.or_false] at spared
      rw [Operator.place, Operator.place, embedOperator_wrap _ _ _ other, ← Embedding.wrapper_eq,
        Embedding.wrapper_of_spared own]
      have ofInput := puts_embed input entered.2 spared
      rw [← entered.1] at ofInput
      exact ofInput.bind (.pure _)
  | .filter input condition, _, _, meets, _, own, spared => by
    obtain ⟨ofInput, ofCondition⟩ := Bool.and_eq_true_iff.1 spared
    rw [Operator.place, Operator.place, embedOperator]
    exact (puts_embed input meets ofInput).bind
      ((puts_embedExpression condition meets ofCondition).bind (.pure _))
  | .extend input name value, embedding, area, meets, _, own, spared => by
    obtain ⟨ofInput, ofValue⟩ := Bool.and_eq_true_iff.1 spared
    have ofName := Embedding.var_of_spared fun isSome same =>
      own isSome (same ▸ List.mem_cons_self)
    rw [Operator.place, Operator.place, embedOperator, ofName]
    refine .shadow fun replacement isSome => ?_
    have ofInput := puts_embed input (meets.hide replacement fun graph => .var name == graph)
      (isSome ▸ ofInput)
    rw [← Embedding.into_hide isSome] at ofInput
    refine ofInput.bind ?_
    have valued := Embedding.into_value meets
    cases isNew : embedding.replacement with
    | none =>
      rw [isNew] at valued
      rw [show Placing.filling.value (embedding.into area) = area.value from valued]
      exact .pure _
    | some new =>
      rw [isNew] at valued ofValue
      rw [show Placing.filling.value (embedding.into area) = embedding.into area.value from valued]
      exact (puts_embedExpression value meets.value (isNew ▸ ofValue)).bind (.pure _)
  | .group input keys aggregates, _, _, meets, _, own, spared => by
    obtain ⟨ofInput, ofAggregates⟩ := Bool.and_eq_true_iff.1 spared
    have ofKeys := Embedding.map_var fun isSome member => own isSome (List.mem_append_left _ member)
    have ofNames (isSome : _) : _ ∉ _ := fun member => own isSome (List.mem_append_right _ member)
    rw [Operator.place, Operator.place, embedOperator, ofKeys]
    exact (puts_embed input meets ofInput).bind
      ((puts_embedAggregates aggregates meets ofNames ofAggregates).bind (.pure _))
  | .orderBy input keys, _, _, meets, _, _, spared => by
    obtain ⟨ofInput, ofKeys⟩ := Bool.and_eq_true_iff.1 spared
    rw [Operator.place, Operator.place, embedOperator]
    exact (puts_embed input meets ofInput).bind
      ((puts_embedExpressions keys meets ofKeys).bind (.pure _))
  | .construct .., _, _, _, _, _, spared => by cases spared
  | .deleteInsert .., _, _, _, _, _, spared => by cases spared
  | .combine how inputs, _, _, meets, _, _, spared => by
    rw [Operator.place, Operator.place, embedOperator]
    exact (puts_embedAll inputs meets spared).bind (.pure _)
  | .leftJoin left right none, _, _, meets, _, _, spared => by
    obtain ⟨ofLeft, ofRight⟩ := Bool.and_eq_true_iff.1 spared
    rw [Operator.place, Operator.place, embedOperator]
    exact (puts_embed left meets ofLeft).bind ((puts_embed right meets ofRight).bind (.pure _))
  | .leftJoin left right (some condition), _, _, meets, _, _, spared => by
    obtain ⟨ofSides, ofCondition⟩ := Bool.and_eq_true_iff.1 spared
    obtain ⟨ofLeft, ofRight⟩ := Bool.and_eq_true_iff.1 ofSides
    rw [Operator.place, Operator.place, embedOperator]
    exact (puts_embed left meets ofLeft).bind ((puts_embed right meets ofRight).bind
      ((puts_embedExpression condition meets ofCondition).bind (.pure _)))
  | .minus left right, _, _, meets, _, _, spared => by
    obtain ⟨ofLeft, ofRight⟩ := Bool.and_eq_true_iff.1 spared
    rw [Operator.place, Operator.place, embedOperator]
    exact (puts_embed left meets ofLeft).bind ((puts_embed right meets ofRight).bind (.pure _))

theorem puts_embedExpression : ∀ (expression : Expression) {embedding : Embedding} {area : Area},
    embedding.Meets area →
    expression.spares embedding.name embedding.replacement.isSome = true →
    Puts (expression.place .filling (embedding.into area))
      (context.embedExpression embedding (expression.place .filling area))
  | .term value, _, _, _, spared => by
    have kept := Embedding.substitute_of_ne (Expression.spares_term.1 spared)
    rw [Expression.place, Expression.place, embedExpression, kept]
    exact .pure _
  | .wildcard, _, _, _, _ => .pure _
  | .call callee arguments, _, _, meets, spared => by
    rw [Expression.place, Expression.place, embedExpression]
    exact (puts_embedExpressions arguments meets spared).bind (.pure _)
  | .aggregate name argument distinct separator, _, _, meets, spared => by
    rw [Expression.place, Expression.place, embedExpression]
    exact (puts_embedExpression argument meets spared).bind (.pure _)
  | .existence negated input, _, _, meets, spared => by
    rw [Expression.place, Expression.place, embedExpression]
    exact (puts_embed input meets spared).bind (.pure _)

theorem puts_embedAll : ∀ (operations : List Operation) {embedding : Embedding} {area : Area},
    embedding.Meets area →
    Operation.allSpare embedding.name embedding.replacement.isSome operations = true →
    Puts (Operation.allPlaced .filling (embedding.into area) operations)
      (context.embedAll embedding (Operation.allPlaced .filling area operations))
  | [], _, _, _, _ => .pure _
  | operation :: rest, _, _, meets, spared => by
    obtain ⟨ofFirst, ofRest⟩ := Bool.and_eq_true_iff.1 spared
    rw [Operation.allPlaced, Operation.allPlaced, embedAll]
    exact (puts_embed operation meets ofFirst).bind ((puts_embedAll rest meets ofRest).bind (.pure _))

theorem puts_embedExpressions : ∀ (expressions : List Expression) {embedding : Embedding}
    {area : Area}, embedding.Meets area →
    Expression.allSpare embedding.name embedding.replacement.isSome expressions = true →
    Puts (Expression.allPlaced .filling (embedding.into area) expressions)
      (context.embedExpressions embedding (Expression.allPlaced .filling area expressions))
  | [], _, _, _, _ => .pure _
  | expression :: rest, _, _, meets, spared => by
    obtain ⟨ofFirst, ofRest⟩ := Bool.and_eq_true_iff.1 spared
    rw [Expression.allPlaced, Expression.allPlaced, embedExpressions]
    exact (puts_embedExpression expression meets ofFirst).bind
      ((puts_embedExpressions rest meets ofRest).bind (.pure _))

theorem puts_embedAggregates : ∀ (aggregates : List BoundAggregate) {embedding : Embedding}
    {area : Area}, embedding.Meets area →
    (embedding.replacement.isSome = true → embedding.name ∉ aggregates.map (.var ·.name)) →
    BoundAggregate.allSpare embedding.name embedding.replacement.isSome aggregates = true →
    Puts (BoundAggregate.allPlaced .filling (embedding.into area) aggregates)
      (context.embedAggregates embedding (BoundAggregate.allPlaced .filling area aggregates))
  | [], _, _, _, _, _ => .pure _
  | ⟨name, expression⟩ :: rest, embedding, _, meets, own, spared => by
    obtain ⟨ofFirst, ofRest⟩ := Bool.and_eq_true_iff.1 spared
    have ofName : embedding.var name = name := Embedding.var_of_spared fun isSome same =>
      own isSome (same ▸ List.mem_cons_self)
    have ofNames isSome (member : _ ∈ rest.map (Term.var ·.name)) :=
      own isSome (List.mem_cons_of_mem _ member)
    rw [BoundAggregate.allPlaced, BoundAggregate.allPlaced, embedAggregates, ofName]
    exact (puts_embedExpression expression meets ofFirst).bind
      ((puts_embedAggregates rest meets ofNames ofRest).bind (.pure _))

end

/-- The name of a graph block goes into what spares it, and just fills patterns. -/
theorem puts_embedGraph {name : Term} (named : name.asGraph = name) (isName : name ≠ .defaultGraph)
    {operation : Operation} (spared : operation.spares name false = true) :
    Puts (operation.place .filling (.block name false))
      (context.embedGraph name (operation.place .filling .outside)) := by
  have meets : Embedding.Meets ⟨name, none, true⟩ .outside :=
    ⟨named, isName, fun _ => rfl, isName.symm⟩
  exact puts_embed context operation meets spared

end Context

end QueryAlgebra
