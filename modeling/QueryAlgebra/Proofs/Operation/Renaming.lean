import QueryAlgebra.Operation.Canonical
import QueryAlgebra.Proofs.Operation.OwnTerms
import Mathlib.Data.List.Nodup

/-! # Renamings that tell names apart

Two renamings separate the names of two operations if names that they give one new name are the
same. Operations that such renamings make equal are equal, with the rows of inline data and the
expressions in them: `Operation.eq_of_renamed`.
-/

namespace QueryAlgebra

/-- Names of the same kind that two renamings give one new name are the same, whether they are both
from the first list, both from the second, or one from either. -/
structure Separates (f g : LocalName → String) (first second : List LocalName) : Prop where
  left : ∀ m ∈ first, ∀ n ∈ first, m.isVar = n.isVar → f m = f n → m = n
  right : ∀ m ∈ second, ∀ n ∈ second, m.isVar = n.isVar → g m = g n → m = n
  across : ∀ m ∈ first, ∀ n ∈ second, m.isVar = n.isVar → f m = g n → m = n

namespace Separates

variable {f g : LocalName → String} {first second more others : List LocalName}

theorem symm (separates : Separates f g first second) : Separates g f second first :=
  ⟨separates.right, separates.left, fun m ofSecond n ofFirst kind same =>
    (separates.across n ofFirst m ofSecond kind.symm same.symm).symm⟩

theorem mono (separates : Separates f g first second) (ofFirst : more ⊆ first)
    (ofSecond : others ⊆ second) : Separates f g more others :=
  ⟨fun m mem n mem' => separates.left m (ofFirst mem) n (ofFirst mem'),
    fun m mem n mem' => separates.right m (ofSecond mem) n (ofSecond mem'),
    fun m mem n mem' => separates.across m (ofFirst mem) n (ofSecond mem')⟩

theorem append (separates : Separates f g (first ++ more) (second ++ others)) :
    Separates f g first second ∧ Separates f g more others :=
  ⟨separates.mono (List.subset_append_left ..) (List.subset_append_left ..),
    separates.mono (List.subset_append_right ..) (List.subset_append_right ..)⟩

end Separates

/-! ### Terms and patterns -/

namespace Term

variable {f g : LocalName → String}

theorem localNames_quad (subject predicate object graph : Term) :
    (quad subject predicate object graph).localNames
      = subject.localNames ++ predicate.localNames ++ object.localNames ++ graph.localNames := by
  simp [localNames, nested]

theorem renameLocal_quad (subject predicate object graph : Term) :
    (quad subject predicate object graph).renameLocal f
      = quad (subject.renameLocal f) (predicate.renameLocal f) (object.renameLocal f)
        (graph.renameLocal f) := rfl

theorem eq_of_renamed {first second : Term}
    (separates : Separates f g first.localNames second.localNames)
    (same : first.renameLocal f = second.renameLocal g) : first = second := by
  induction first generalizing second with
  | iri | literal | defaultGraph => cases second <;> first | exact same | cases same
  | blank node =>
    cases second with
    | blank other =>
      have labels : f (.blank node.label) = g (.blank other.label) := by
        simpa [renameLocal, mapNested] using same
      have equal := separates.across (.blank node.label) (by simp [localNames, nested])
        (.blank other.label) (by simp [localNames, nested]) rfl labels
      cases node
      cases other
      cases equal
      rfl
    | _ => cases same
  | var name =>
    cases second with
    | var other =>
      have names : f (.var name.name) = g (.var other.name) := by
        simpa [renameLocal, mapNested] using same
      have equal := separates.across (.var name.name) (by simp [localNames, nested])
        (.var other.name) (by simp [localNames, nested]) rfl names
      cases name
      cases other
      cases equal
      rfl
    | _ => cases same
  | quad subject predicate object graph ihSubject ihPredicate ihObject ihGraph =>
    cases second with
    | quad subject' predicate' object' graph' =>
      rw [renameLocal_quad, renameLocal_quad, quad.injEq] at same
      obtain ⟨subjects, predicates, objects, graphs⟩ := same
      rw [localNames_quad, localNames_quad] at separates
      obtain ⟨separates, ofGraph⟩ := separates.append
      obtain ⟨separates, ofObject⟩ := separates.append
      obtain ⟨ofSubject, ofPredicate⟩ := separates.append
      rw [ihSubject ofSubject subjects, ihPredicate ofPredicate predicates,
        ihObject ofObject objects, ihGraph ofGraph graphs]
    | _ => cases same

/-- Lists of terms that renamings make equal are equal. -/
theorem all_eq_of_renamed {first second : List Term}
    (separates : Separates f g (first.flatMap localNames) (second.flatMap localNames))
    (same : first.map (renameLocal f) = second.map (renameLocal g)) : first = second := by
  induction first generalizing second with
  | nil => simpa using same
  | cons head rest ih =>
    cases second with
    | nil => cases same
    | cons head' rest' =>
      rw [List.map_cons, List.map_cons, List.cons.injEq] at same
      rw [List.flatMap_cons, List.flatMap_cons] at separates
      obtain ⟨ofHead, ofRest⟩ := separates.append
      rw [eq_of_renamed ofHead same.1, ih ofRest same.2]

end Term

/-- The names of variables where each is a term of its own. -/
private theorem vars_eq_of_renamed {f g : LocalName → String} {first second : List Variable}
    (separates : Separates f g ((first.map Term.var).flatMap Term.localNames)
      ((second.map Term.var).flatMap Term.localNames))
    (same : first.map (Variable.mapTerm (Term.renameLocal f))
      = second.map (Variable.mapTerm (Term.renameLocal g))) : first = second := by
  have terms : (first.map Term.var).map (Term.renameLocal f)
      = (second.map Term.var).map (Term.renameLocal g) := by
    have wrapped := congrArg (List.map Term.var) same
    rw [List.map_map, List.map_map] at wrapped ⊢
    exact wrapped
  have equal := Term.all_eq_of_renamed separates terms
  exact (List.map_inj_right fun _ _ same => Term.var.inj same).1 equal

private theorem var_eq_of_renamed {f g : LocalName → String} {first second : Variable}
    (separates : Separates f g (Term.var first).localNames (Term.var second).localNames)
    (same : first.mapTerm (Term.renameLocal f) = second.mapTerm (Term.renameLocal g)) :
    first = second :=
  Term.var.inj (Term.eq_of_renamed separates (congrArg Term.var same))

namespace Pattern

variable {f g : LocalName → String}

theorem eq_of_renamed {first second : Pattern}
    (separates : Separates f g (first.terms.flatMap Term.localNames)
      (second.terms.flatMap Term.localNames))
    (same : first.mapTerms (Term.renameLocal f) = second.mapTerms (Term.renameLocal g)) :
    first = second := by
  obtain ⟨subject, predicate, object, graph⟩ := first
  obtain ⟨subject', predicate', object', graph'⟩ := second
  have terms : [subject, predicate, object, graph].map (Term.renameLocal f)
      = [subject', predicate', object', graph'].map (Term.renameLocal g) := by
    rw [mapTerms, mapTerms, mk.injEq] at same
    obtain ⟨subjects, predicates, objects, graphs⟩ := same
    simp only [List.map_cons, List.map_nil, subjects, predicates, objects, graphs]
  cases Term.all_eq_of_renamed separates terms
  rfl

theorem all_eq_of_renamed {first second : List Pattern}
    (separates : Separates f g (first.flatMap fun pattern => pattern.terms.flatMap Term.localNames)
      (second.flatMap fun pattern => pattern.terms.flatMap Term.localNames))
    (same : first.map (mapTerms (Term.renameLocal f))
      = second.map (mapTerms (Term.renameLocal g))) :
    first = second := by
  induction first generalizing second with
  | nil => simpa using same
  | cons head rest ih =>
    cases second with
    | nil => cases same
    | cons head' rest' =>
      rw [List.map_cons, List.map_cons, List.cons.injEq] at same
      rw [List.flatMap_cons, List.flatMap_cons] at separates
      obtain ⟨ofHead, ofRest⟩ := separates.append
      rw [eq_of_renamed ofHead same.1, ih ofRest same.2]

end Pattern

/-- The renaming of a template, which keeps the labels of blank nodes. -/
def ofTemplate (f : LocalName → String) (name : LocalName) : String :=
  if name.isVar then f name else name.text

private theorem eq_of_ofTemplate {f g : LocalName → String} {m n : LocalName}
    (vars : m.isVar = true → n.isVar = true → f m = g n → m = n) (kind : m.isVar = n.isVar)
    (same : ofTemplate f m = ofTemplate g n) : m = n := by
  cases m with
  | var name =>
    cases n with
    | var other => exact vars rfl rfl same
    | blank other => cases kind
  | blank label =>
    cases n with
    | var other => cases kind
    | blank other => exact congrArg LocalName.blank same

private theorem separates_ofTemplate {f g : LocalName → String} {first second : List LocalName}
    (separates : Separates f g (first.filter LocalName.isVar) (second.filter LocalName.isVar)) :
    Separates (ofTemplate f) (ofTemplate g) first second where
  left m mem n mem' kind same := eq_of_ofTemplate (fun isVar isVar' =>
    separates.left m (List.mem_filter.2 ⟨mem, isVar⟩) n (List.mem_filter.2 ⟨mem', isVar'⟩) kind)
    kind same
  right m mem n mem' kind same := eq_of_ofTemplate (fun isVar isVar' =>
    separates.right m (List.mem_filter.2 ⟨mem, isVar⟩) n (List.mem_filter.2 ⟨mem', isVar'⟩) kind)
    kind same
  across m mem n mem' kind same := eq_of_ofTemplate (fun isVar isVar' =>
    separates.across m (List.mem_filter.2 ⟨mem, isVar⟩) n (List.mem_filter.2 ⟨mem', isVar'⟩) kind)
    kind same

/-! ### Rows of inline data -/

/-- What is found in a row under new names, if its columns have different ones. -/
private theorem find?_mapRow {f : LocalName → String} {row : Row}
    (injective : ∀ entry ∈ row.entries, ∀ entry' ∈ row.entries,
      f (.var entry.1) = f (.var entry'.1) → entry.1 = entry'.1) (key : String) (value : Term) :
    (mapRow (Term.renameLocal f) row).find? key = some value
      ↔ ∃ entry ∈ row.entries, f (.var entry.1) = key ∧ entry.2.renameLocal f = value := by
  rw [mapRow, NameMap.find?_ofList (nodup_mapRow injective)]
  simp [Variable.mapTerm, Term.renameLocal, Term.mapNested, Prod.ext_iff]

theorem subset_names_row {row : Row} {entry : String × Term}
    (member : entry ∈ row.entries) :
    .var entry.1 :: entry.2.localNames ⊆ (rowTerms row).flatMap Term.localNames := by
  have inTerms : ∀ term ∈ [Term.var ⟨entry.1⟩, entry.2], term ∈ rowTerms row := fun term inEntry =>
    List.mem_flatMap.2 ⟨entry, member, inEntry⟩
  intro name mem
  rcases List.mem_cons.1 mem with rfl | inCell
  · exact List.mem_flatMap.2 ⟨_, inTerms (.var ⟨entry.1⟩) (List.mem_cons_self ..),
      by simp [Term.localNames, Term.nested]⟩
  · exact List.mem_flatMap.2 ⟨entry.2, inTerms entry.2 (by simp), inCell⟩

private theorem entries_subset_of_renamed {f g : LocalName → String} {first second : Row}
    (separates : Separates f g ((rowTerms first).flatMap Term.localNames)
      ((rowTerms second).flatMap Term.localNames))
    (same : mapRow (Term.renameLocal f) first = mapRow (Term.renameLocal g) second) :
    ∀ entry ∈ first.entries, entry ∈ second.entries := by
  intro entry member
  have injective : ∀ entry ∈ first.entries, ∀ entry' ∈ first.entries,
      f (.var entry.1) = f (.var entry'.1) → entry.1 = entry'.1 := by
    intro entry member entry' member' keys
    exact LocalName.var.inj (separates.left _ (subset_names_row member (List.mem_cons_self ..)) _
      (subset_names_row member' (List.mem_cons_self ..)) rfl keys)
  have injective' : ∀ entry ∈ second.entries, ∀ entry' ∈ second.entries,
      g (.var entry.1) = g (.var entry'.1) → entry.1 = entry'.1 := by
    intro entry member entry' member' keys
    exact LocalName.var.inj (separates.right _ (subset_names_row member (List.mem_cons_self ..)) _
      (subset_names_row member' (List.mem_cons_self ..)) rfl keys)
  have found := (find?_mapRow injective _ _).2 ⟨entry, member, rfl, rfl⟩
  rw [same, find?_mapRow injective'] at found
  obtain ⟨entry', member', keys, values⟩ := found
  have ofNames := separates.mono (subset_names_row member) (subset_names_row member')
  have sameKey : entry.1 = entry'.1 := LocalName.var.inj
    (ofNames.across _ (List.mem_cons_self ..) _ (List.mem_cons_self ..) rfl keys.symm)
  have sameValue : entry.2 = entry'.2 := Term.eq_of_renamed
    (ofNames.mono (List.subset_cons_self ..) (List.subset_cons_self ..)) values.symm
  rw [Prod.ext sameKey sameValue]
  exact member'

/-- Rows that renamings make equal are equal. -/
private theorem row_eq_of_renamed {f g : LocalName → String} {first second : Row}
    (separates : Separates f g ((rowTerms first).flatMap Term.localNames)
      ((rowTerms second).flatMap Term.localNames))
    (same : mapRow (Term.renameLocal f) first = mapRow (Term.renameLocal g) second) :
    first = second := by
  refine NameMap.ext_find? fun key => Option.ext fun value => ?_
  rw [NameMap.find?_eq_some_iff, NameMap.find?_eq_some_iff]
  exact ⟨entries_subset_of_renamed separates same _,
    entries_subset_of_renamed separates.symm same.symm _⟩

private theorem rows_eq_of_renamed {f g : LocalName → String} {first second : List Row}
    (separates : Separates f g ((first.flatMap rowTerms).flatMap Term.localNames)
      ((second.flatMap rowTerms).flatMap Term.localNames))
    (same : first.map (mapRow (Term.renameLocal f)) = second.map (mapRow (Term.renameLocal g))) :
    first = second := by
  induction first generalizing second with
  | nil => simpa using same
  | cons head rest ih =>
    cases second with
    | nil => cases same
    | cons head' rest' =>
      rw [List.map_cons, List.map_cons, List.cons.injEq] at same
      rw [List.flatMap_cons, List.flatMap_cons, List.flatMap_append, List.flatMap_append]
        at separates
      obtain ⟨ofHead, ofRest⟩ := separates.append
      rw [row_eq_of_renamed ofHead same.1, ih ofRest same.2]

/-! ### Operations -/

/-- What renames the parts of an operation. -/
def Rebuild.ofRenaming (rename : LocalName → String) : Rebuild where
  closed _ := false
  pattern place :=
    if place = .template then Pattern.mapTerms (Term.renameLocal (ofTemplate rename))
    else Pattern.mapTerms (Term.renameLocal rename)
  expression := Expression.mapOwnTerms (Term.renameLocal rename)
  operation op := ⟨op.operator.mapOwnTerms (Term.renameLocal rename), op.metadata⟩

/-- What names the parts of an operation have. -/
def Gather.ofLocalNames : Gather LocalName where
  closed _ := false
  pattern place pattern :=
    let names := pattern.terms.flatMap Term.localNames
    if place = .template then names.filter LocalName.isVar else names
  expression expression := expression.ownTerms.flatMap Term.localNames
  operator operator := operator.ownTerms.flatMap Term.localNames

/-- The names of an operator, those of its inputs first. -/
def Operator.localNames (operator : Operator) : List LocalName :=
  operator.gather .ofLocalNames ++ operator.ownTerms.flatMap Term.localNames

/-- Replace the names of an operator and of its inputs. -/
def Operator.renameLocal (rename : LocalName → String) (operator : Operator) : Operator :=
  (operator.rebuild (.ofRenaming rename)).mapOwnTerms (Term.renameLocal rename)

private theorem Pattern.template_eq_of_renamed {f g : LocalName → String}
    {first second : List Pattern}
    (separates : Separates f g (first.flatMap (Gather.ofLocalNames.pattern .template))
      (second.flatMap (Gather.ofLocalNames.pattern .template)))
    (same : first.map ((Rebuild.ofRenaming f).pattern .template)
      = second.map ((Rebuild.ofRenaming g).pattern .template)) : first = second := by
  have names : ∀ patterns : List Pattern,
      patterns.flatMap (Gather.ofLocalNames.pattern .template)
        = (patterns.flatMap fun pattern => pattern.terms.flatMap Term.localNames).filter
          LocalName.isVar := by
    intro patterns
    rw [List.filter_flatMap]
    rfl
  rw [names, names] at separates
  exact Pattern.all_eq_of_renamed (separates_ofTemplate separates) same

private theorem Pattern.optional_eq_of_renamed {f g : LocalName → String} {place : Place}
    (outside : place ≠ .template) {first second : Option (List Pattern)}
    (separates : Separates f g ((first.getD []).flatMap (Gather.ofLocalNames.pattern place))
      ((second.getD []).flatMap (Gather.ofLocalNames.pattern place)))
    (same : first.map (·.map ((Rebuild.ofRenaming f).pattern place))
      = second.map (·.map ((Rebuild.ofRenaming g).pattern place))) : first = second := by
  cases first with
  | none => cases second <;> first | rfl | cases same
  | some patterns =>
    cases second with
    | none => cases same
    | some patterns' =>
      have sameMaps := Option.some.inj same
      simp only [Rebuild.ofRenaming, if_neg outside] at sameMaps
      simp only [Gather.ofLocalNames, if_neg outside, Option.getD_some] at separates
      rw [Pattern.all_eq_of_renamed separates sameMaps]

namespace Wrapper

variable {f g : LocalName → String}

theorem eq_of_renamed {first second : Wrapper}
    (separates : Separates f g (first.ownTerms.flatMap Term.localNames)
      (second.ownTerms.flatMap Term.localNames))
    (same : first.mapOwnTerms (Term.renameLocal f) = second.mapOwnTerms (Term.renameLocal g)) :
    first = second := by
  have single : ∀ {term term' : Term},
      Separates f g ([term].flatMap Term.localNames) ([term'].flatMap Term.localNames) →
      term.renameLocal f = term'.renameLocal g → term = term' := fun separates same =>
    List.singleton_injective (Term.all_eq_of_renamed separates (congrArg (fun term => [term]) same))
  cases first with
  | project vars =>
    cases second with
    | project vars' => rw [vars_eq_of_renamed separates (project.inj same)]
    | _ => cases same
  | graph name =>
    cases second with
    | graph name' => rw [single separates (graph.inj same)]
    | _ => cases same
  | service name silent =>
    cases second with
    | service name' silent' =>
      obtain ⟨names, rfl⟩ := service.inj same
      rw [single separates names]
    | _ => cases same
  | describe terms =>
    cases second with
    | describe terms' =>
      exact congrArg describe (Term.all_eq_of_renamed separates (describe.inj same))
    | _ => cases same
  | distinct | reduced | slice | dataset | ask => cases second <;> first | exact same | cases same

end Wrapper

/-- A renaming keeps the form of an operator. -/
theorem Operator.ctorIdx_renameLocal (rename : LocalName → String) (operator : Operator) :
    (operator.renameLocal rename).ctorIdx = operator.ctorIdx := by
  cases operator with
  | leftJoin left right condition => cases condition <;> rfl
  | deleteInsert delete insert scope => cases scope <;> rfl
  | _ => rfl

theorem Operator.ctorIdx_eq_of_renamed {f g : LocalName → String} {first second : Operator}
    (same : first.renameLocal f = second.renameLocal g) : first.ctorIdx = second.ctorIdx := by
  rw [← ctorIdx_renameLocal f first, same, ctorIdx_renameLocal]

section

variable {f g : LocalName → String}

mutual

/-- Operations that renamings make equal are equal if the renamings tell their names apart. -/
theorem Operation.eq_of_renamed : ∀ {first second : Operation},
    Separates f g first.localNames second.localNames →
    first.renameLocal f = second.renameLocal g → first = second
  | ⟨operator, metadata⟩, ⟨operator', metadata'⟩, separates, same => by
    obtain ⟨operators, rfl⟩ := Operation.mk.inj same
    rw [Operator.eq_of_renamed separates operators]
termination_by structural first => first

theorem Operator.eq_of_renamed : ∀ {first second : Operator},
    Separates f g first.localNames second.localNames →
    first.renameLocal f = second.renameLocal g → first = second
  | .bgp patterns, second, separates, same => by
    cases second with
    | bgp patterns' =>
      rw [Pattern.all_eq_of_renamed separates.append.1 (Operator.bgp.inj same)]
    | _ => cases Operator.ctorIdx_eq_of_renamed same
  | .values vars rows, second, separates, same => by
    cases second with
    | values vars' rows' =>
      obtain ⟨sameVars, sameRows⟩ := Operator.values.inj same
      have ofTerms := separates.append.2
      rw [Operator.ownTerms, Operator.ownTerms, List.flatMap_append, List.flatMap_append] at ofTerms
      rw [vars_eq_of_renamed ofTerms.append.1 sameVars,
        rows_eq_of_renamed ofTerms.append.2 sameRows]
    | _ => cases Operator.ctorIdx_eq_of_renamed same
  | .nop, second, separates, same => by
    cases second with
    | nop => rfl
    | _ => cases Operator.ctorIdx_eq_of_renamed same
  | .path subject predicate object graph, second, separates, same => by
    cases second with
    | path subject' predicate' object' graph' =>
      obtain ⟨subjects, rfl, objects, graphs⟩ := Operator.path.inj same
      have terms : [subject, object, graph].map (Term.renameLocal f)
          = [subject', object', graph'].map (Term.renameLocal g) := by
        simp only [List.map_cons, List.map_nil, subjects, objects, graphs]
      cases Term.all_eq_of_renamed separates.append.2 terms
      rfl
    | _ => cases Operator.ctorIdx_eq_of_renamed same
  | .manage action, second, separates, same => by
    cases second with
    | manage action' => exact same
    | _ => cases Operator.ctorIdx_eq_of_renamed same
  | .wrap wrapper input, second, separates, same => by
    cases second with
    | wrap wrapper' input' =>
      obtain ⟨wrappers, inputs⟩ := Operator.wrap.inj same
      rw [Wrapper.eq_of_renamed separates.append.2 wrappers,
        Operation.eq_of_renamed separates.append.1 inputs]
    | _ => cases Operator.ctorIdx_eq_of_renamed same
  | .filter input condition, second, separates, same => by
    cases second with
    | filter input' condition' =>
      obtain ⟨inputs, conditions⟩ := Operator.filter.inj same
      obtain ⟨ofInput, ofCondition⟩ := separates.append.1.append
      rw [Operation.eq_of_renamed ofInput inputs, Expression.eq_of_renamed ofCondition conditions]
    | _ => cases Operator.ctorIdx_eq_of_renamed same
  | .extend input name value, second, separates, same => by
    cases second with
    | extend input' name' value' =>
      obtain ⟨inputs, names, values⟩ := Operator.extend.inj same
      obtain ⟨ofInput, ofValue⟩ := separates.append.1.append
      have ofName : Separates f g (Term.var name).localNames (Term.var name').localNames := by
        simpa [Operator.ownTerms] using separates.append.2
      rw [Operation.eq_of_renamed ofInput inputs, Expression.eq_of_renamed ofValue values,
        var_eq_of_renamed ofName names]
    | _ => cases Operator.ctorIdx_eq_of_renamed same
  | .group input keys aggregates, second, separates, same => by
    cases second with
    | group input' keys' aggregates' =>
      obtain ⟨inputs, sameKeys, sameAggregates⟩ := Operator.group.inj same
      obtain ⟨ofInput, ofAggregates⟩ := separates.append.1.append
      have ofNames := separates.append.2
      rw [Operator.ownTerms, Operator.ownTerms, List.flatMap_append, List.flatMap_append] at ofNames
      rw [Operation.eq_of_renamed ofInput inputs, vars_eq_of_renamed ofNames.append.1 sameKeys,
        BoundAggregate.all_eq_of_renamed ofAggregates ofNames.append.2 sameAggregates]
    | _ => cases Operator.ctorIdx_eq_of_renamed same
  | .orderBy input keys, second, separates, same => by
    cases second with
    | orderBy input' keys' =>
      obtain ⟨inputs, sameKeys⟩ := Operator.orderBy.inj same
      obtain ⟨ofInput, ofKeys⟩ := separates.append.1.append
      rw [Operation.eq_of_renamed ofInput inputs, Expression.all_eq_of_renamed ofKeys sameKeys]
    | _ => cases Operator.ctorIdx_eq_of_renamed same
  | .construct input template, second, separates, same => by
    cases second with
    | construct input' template' =>
      obtain ⟨inputs, templates⟩ := Operator.construct.inj same
      obtain ⟨ofInput, ofTemplate⟩ := separates.append.1.append
      rw [Operation.eq_of_renamed ofInput inputs,
        Pattern.template_eq_of_renamed ofTemplate templates]
    | _ => cases Operator.ctorIdx_eq_of_renamed same
  | .combine how inputs, second, separates, same => by
    cases second with
    | combine how' inputs' =>
      obtain ⟨rfl, sameInputs⟩ := Operator.combine.inj same
      rw [Operation.all_eq_of_renamed separates.append.1 sameInputs]
    | _ => cases Operator.ctorIdx_eq_of_renamed same
  | .leftJoin left right none, second, separates, same => by
    cases second with
    | leftJoin left' right' condition =>
      cases condition with
      | none =>
        obtain ⟨lefts, rights, -⟩ := Operator.leftJoin.inj same
        obtain ⟨ofLeft, ofRight⟩ := separates.append.1.append
        rw [Operation.eq_of_renamed ofLeft lefts, Operation.eq_of_renamed ofRight rights]
      | some condition => cases (Operator.leftJoin.inj same).2.2
    | _ => cases Operator.ctorIdx_eq_of_renamed same
  | .leftJoin left right (some condition), second, separates, same => by
    cases second with
    | leftJoin left' right' condition' =>
      cases condition' with
      | none => cases (Operator.leftJoin.inj same).2.2
      | some condition' =>
        obtain ⟨lefts, rights, conditions⟩ := Operator.leftJoin.inj same
        obtain ⟨ofSides, ofCondition⟩ := separates.append.1.append
        obtain ⟨ofLeft, ofRight⟩ := ofSides.append
        rw [Operation.eq_of_renamed ofLeft lefts, Operation.eq_of_renamed ofRight rights,
          Expression.eq_of_renamed ofCondition (Option.some.inj conditions)]
    | _ => cases Operator.ctorIdx_eq_of_renamed same
  | .minus left right, second, separates, same => by
    cases second with
    | minus left' right' =>
      obtain ⟨lefts, rights⟩ := Operator.minus.inj same
      obtain ⟨ofLeft, ofRight⟩ := separates.append.1.append
      rw [Operation.eq_of_renamed ofLeft lefts, Operation.eq_of_renamed ofRight rights]
    | _ => cases Operator.ctorIdx_eq_of_renamed same
  | .deleteInsert delete insert none, second, separates, same => by
    cases second with
    | deleteInsert delete' insert' scope =>
      cases scope with
      | none =>
        obtain ⟨deletes, inserts, -⟩ := Operator.deleteInsert.inj same
        obtain ⟨ofDelete, ofInsert⟩ := separates.append.1.append
        rw [Pattern.optional_eq_of_renamed (by decide) ofDelete deletes,
          Pattern.optional_eq_of_renamed (by decide) ofInsert inserts]
      | some scope => cases (Operator.deleteInsert.inj same).2.2
    | _ => cases Operator.ctorIdx_eq_of_renamed same
  | .deleteInsert delete insert (some scope), second, separates, same => by
    cases second with
    | deleteInsert delete' insert' scope' =>
      cases scope' with
      | none => cases (Operator.deleteInsert.inj same).2.2
      | some scope' =>
        obtain ⟨deletes, inserts, scopes⟩ := Operator.deleteInsert.inj same
        obtain ⟨ofTemplates, ofScope⟩ := separates.append.1.append
        obtain ⟨ofDelete, ofInsert⟩ := ofTemplates.append
        rw [Pattern.optional_eq_of_renamed (by decide) ofDelete deletes,
          Pattern.optional_eq_of_renamed (by decide) ofInsert inserts,
          Operation.eq_of_renamed ofScope (Option.some.inj scopes)]
    | _ => cases Operator.ctorIdx_eq_of_renamed same
termination_by structural first => first

theorem Expression.eq_of_renamed : ∀ {first second : Expression},
    Separates f g (first.gather .ofLocalNames) (second.gather .ofLocalNames) →
    first.rebuild (.ofRenaming f) = second.rebuild (.ofRenaming g) → first = second
  | .term value, second, separates, same => by
    cases second with
    | term value' =>
      have terms : [value].map (Term.renameLocal f) = [value'].map (Term.renameLocal g) :=
        congrArg (fun term => [term]) (Expression.term.inj same)
      cases Term.all_eq_of_renamed separates terms
      rfl
    | _ => cases same
  | .call callee arguments, second, separates, same => by
    cases second with
    | call callee' arguments' =>
      obtain ⟨rfl, sameArguments⟩ := Expression.call.inj same
      rw [Expression.all_eq_of_renamed separates.append.1 sameArguments]
    | _ => cases same
  | .aggregate name argument distinct separator, second, separates, same => by
    cases second with
    | aggregate name' argument' distinct' separator' =>
      obtain ⟨rfl, sameArgument, rfl, rfl⟩ := Expression.aggregate.inj same
      rw [Expression.eq_of_renamed separates.append.1 sameArgument]
    | _ => cases same
  | .existence negated input, second, separates, same => by
    cases second with
    | existence negated' input' =>
      obtain ⟨rfl, inputs⟩ := Expression.existence.inj same
      rw [Operation.eq_of_renamed separates.append.1 inputs]
    | _ => cases same
  | .wildcard, second, separates, same => by
    cases second with
    | wildcard => rfl
    | _ => cases same
termination_by structural first => first

theorem Operation.all_eq_of_renamed : ∀ {first second : List Operation},
    Separates f g (Operation.gatherAll .ofLocalNames first)
      (Operation.gatherAll .ofLocalNames second) →
    Operation.rebuildAll (.ofRenaming f) first = Operation.rebuildAll (.ofRenaming g) second →
    first = second
  | [], second, separates, same => by
    cases second with
    | nil => rfl
    | cons head rest => cases same
  | head :: rest, second, separates, same => by
    cases second with
    | nil => cases same
    | cons head' rest' =>
      obtain ⟨heads, rests⟩ := List.cons.inj same
      obtain ⟨ofHead, ofRest⟩ := separates.append
      rw [Operation.eq_of_renamed ofHead heads, Operation.all_eq_of_renamed ofRest rests]
termination_by structural first => first

theorem Expression.all_eq_of_renamed : ∀ {first second : List Expression},
    Separates f g (Expression.gatherAll .ofLocalNames first)
      (Expression.gatherAll .ofLocalNames second) →
    Expression.rebuildAll (.ofRenaming f) first = Expression.rebuildAll (.ofRenaming g) second →
    first = second
  | [], second, separates, same => by
    cases second with
    | nil => rfl
    | cons head rest => cases same
  | head :: rest, second, separates, same => by
    cases second with
    | nil => cases same
    | cons head' rest' =>
      obtain ⟨heads, rests⟩ := List.cons.inj same
      obtain ⟨ofHead, ofRest⟩ := separates.append
      rw [Expression.eq_of_renamed ofHead heads, Expression.all_eq_of_renamed ofRest rests]
termination_by structural first => first

theorem BoundAggregate.all_eq_of_renamed : ∀ {first second : List BoundAggregate},
    Separates f g (BoundAggregate.gatherAll .ofLocalNames first)
      (BoundAggregate.gatherAll .ofLocalNames second) →
    Separates f g ((first.map (Term.var ·.name)).flatMap Term.localNames)
      ((second.map (Term.var ·.name)).flatMap Term.localNames) →
    (BoundAggregate.rebuildAll (.ofRenaming f) first).map
        (fun bound =>
          (⟨bound.name.mapTerm (Term.renameLocal f), bound.expression⟩ : BoundAggregate))
      = (BoundAggregate.rebuildAll (.ofRenaming g) second).map
        (fun bound => ⟨bound.name.mapTerm (Term.renameLocal g), bound.expression⟩) →
    first = second
  | [], second, _, _, same => by
    cases second with
    | nil => rfl
    | cons head rest =>
      cases head
      cases same
  | ⟨name, value⟩ :: rest, second, separates, ofNames, same => by
    cases second with
    | nil => cases same
    | cons head' rest' =>
      obtain ⟨name', value'⟩ := head'
      obtain ⟨heads, rests⟩ := List.cons.inj same
      obtain ⟨names, values⟩ := BoundAggregate.mk.inj heads
      obtain ⟨ofHead, ofRest⟩ := separates.append
      rw [List.map_cons, List.map_cons, List.flatMap_cons, List.flatMap_cons] at ofNames
      obtain ⟨ofName, ofOthers⟩ := ofNames.append
      have sameName : name = name' := var_eq_of_renamed ofName names
      rw [sameName, Expression.eq_of_renamed ofHead values,
        BoundAggregate.all_eq_of_renamed ofRest ofOthers rests]
termination_by structural first => first

end

end

end QueryAlgebra
