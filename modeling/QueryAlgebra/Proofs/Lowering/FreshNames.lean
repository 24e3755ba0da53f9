import QueryAlgebra.Lowering.BlankNodes
import QueryAlgebra.Proofs.Lowering.Outcomes
import QueryAlgebra.Proofs.NumberedNames

/-! # New names are new

Every name that is taken from a supply is the first of its sequence that was not in use before, and
is in use from then on (`NameSupply.Takes.fresh`, `NameSupply.Takes.has_iff`). So the names taken
one after another are different from each other and from those in use at the start:
`NameSupply.Mints.nodup`, `NameSupply.Mints.fresh`, and for whatever is asked for in any order
`Context.new_names_are_first_free`. The numbered sequences never come further than the names in use
are many (`NameSupply.Mints.counters_le`).
-/

namespace QueryAlgebra

namespace NameSupply

/-! ### The first free names -/

theorem variableName_injective (m n : Nat) (same : variableName m = variableName n) : m = n :=
  append_toString_injective "var" same

theorem labelName_injective (m n : Nat) (same : labelName m = labelName n) : m = n :=
  append_toString_injective "g_" same

theorem labelledName_injective (label : String) (m n : Nat)
    (same : labelledName label m = labelledName label n) : m = n := by
  cases m with
  | zero =>
    cases n with
    | zero => rfl
    | succ n => exact absurd same.symm (append_toString_ne label n)
  | succ m =>
    cases n with
    | zero => exact absurd same (append_toString_ne label m)
    | succ n => exact congrArg (· + 1) (append_toString_injective label same)

theorem takeVariable_firstFree (supply : NameSupply) :
    ∃ index, FirstFree variableName supply.vars supply.nextVariable index
      ∧ supply.takeVariable = (variableName index,
        { supply with vars := variableName index :: supply.vars, nextVariable := index + 1 }) :=
  ⟨_, (tries_firstFree variableName_injective _ _).firstFree variableName_injective, rfl⟩

theorem takeLabel_firstFree (supply : NameSupply) :
    ∃ index, FirstFree labelName supply.labels supply.nextLabel index
      ∧ supply.takeLabel = (labelName index,
        { supply with labels := labelName index :: supply.labels, nextLabel := index + 1 }) :=
  ⟨_, (tries_firstFree labelName_injective _ _).firstFree labelName_injective, rfl⟩

/-- A label that is free is its own variable; otherwise numbers are tried behind it. -/
theorem takeLabelled_firstFree (supply : NameSupply) (label : String) :
    ∃ name, supply.takeLabelled label = (name, { supply with vars := name :: supply.vars })
      ∧ if label ∈ supply.vars then
          ∃ index, FirstFree (label ++ toString ·) supply.vars 0 index
            ∧ name = label ++ toString index
        else name = label := by
  refine ⟨_, rfl, ?_⟩
  have tries := tries_firstFree (labelledName_injective label) supply.vars 0
  generalize QueryAlgebra.firstFree (labelledName label) supply.vars 0 = found at tries
  cases tries with
  | free isFree => exact if_neg isFree ▸ rfl
  | passBy isUsed later =>
    rw [if_pos (show label ∈ supply.vars from isUsed)]
    obtain ⟨index, rfl⟩ : ∃ index, found = index + 1 := ⟨found - 1, by have := later.le; omega⟩
    have ofNumbers : Tries (label ++ toString ·) supply.vars 0 index := later.of_succ fun _ => rfl
    exact ⟨index, ofNumbers.firstFree fun m n => append_toString_injective label, rfl⟩

example : (takeVariable ⟨["var0", "var2"], [], 0, 0⟩).2.takeVariable.1 = "var3"
    ∧ (takeLabelled ⟨["b", "b0"], [], 0, 0⟩ "b").1 = "b1" := by cbv

/-! ### What a supply gives out -/

/-- Whether a name is in use. -/
def Has (supply : NameSupply) : LocalName → Prop
  | .var name => name ∈ supply.vars
  | .blank label => label ∈ supply.labels

/-- A name is taken from a supply, which leaves another supply. -/
inductive Takes : NameSupply → LocalName → NameSupply → Prop
  | numbered (supply : NameSupply) :
    Takes supply (.var supply.takeVariable.1) supply.takeVariable.2
  | label (supply : NameSupply) : Takes supply (.blank supply.takeLabel.1) supply.takeLabel.2
  | labelled (supply : NameSupply) (label : String) :
    Takes supply (.var (supply.takeLabelled label).1) (supply.takeLabelled label).2

/-- Names are taken from a supply one after another. -/
inductive Mints : NameSupply → List LocalName → NameSupply → Prop
  | none (supply : NameSupply) : Mints supply [] supply
  | next {supply between after : NameSupply} {name : LocalName} {names : List LocalName} :
    Takes supply name between → Mints between names after → Mints supply (name :: names) after

/-- Names may be taken from a supply so that another is left. -/
def Gives (supply after : NameSupply) : Prop := ∃ names, Mints supply names after

variable {supply between after : NameSupply} {name : LocalName} {names more : List LocalName}

/-- A name that is taken was not in use. -/
theorem Takes.fresh (takes : Takes supply name after) : ¬ supply.Has name := by
  cases takes with
  | numbered => exact firstFree_not_mem variableName_injective supply.vars supply.nextVariable
  | label => exact firstFree_not_mem labelName_injective supply.labels supply.nextLabel
  | labelled label => exact firstFree_not_mem (labelledName_injective label) supply.vars 0

/-- A name that is taken is in use from then on. -/
theorem Takes.has_iff (takes : Takes supply name after) (other : LocalName) :
    after.Has other ↔ other = name ∨ supply.Has other := by
  cases takes with
  | numbered | labelled => cases other <;> simp [Has, takeVariable, takeLabelled]
  | label => cases other <;> simp [Has, takeLabel]

theorem Mints.has_iff (mints : Mints supply names after) (name : LocalName) :
    after.Has name ↔ name ∈ names ∨ supply.Has name := by
  induction mints with
  | none => simp
  | next takes _ ih => rw [ih, takes.has_iff, List.mem_cons]; grind

/-- No name that is taken was in use at the start. -/
theorem Mints.fresh (mints : Mints supply names after) : ∀ name ∈ names, ¬ supply.Has name := by
  induction mints with
  | none => simp
  | next takes mints ih =>
    intro name mem isUsed
    rcases List.mem_cons.1 mem with rfl | mem
    · exact takes.fresh isUsed
    · exact ih name mem ((takes.has_iff name).2 (.inr isUsed))

/-- The names that are taken are different from each other. -/
theorem Mints.nodup (mints : Mints supply names after) : names.Nodup := by
  induction mints with
  | none => exact List.nodup_nil
  | next takes mints ih =>
    exact List.nodup_cons.2 ⟨fun mem => mints.fresh _ mem ((takes.has_iff _).2 (.inl rfl)), ih⟩

theorem Mints.append (first : Mints supply names between) (second : Mints between more after) :
    Mints supply (names ++ more) after := by
  induction first with
  | none => exact second
  | next takes _ ih => exact .next takes (ih second)

namespace Gives

theorem refl (supply : NameSupply) : supply.Gives supply := ⟨[], .none supply⟩

theorem trans (first : supply.Gives between) (second : between.Gives after) :
    supply.Gives after := by
  obtain ⟨names, first⟩ := first
  obtain ⟨more, second⟩ := second
  exact ⟨names ++ more, first.append second⟩

theorem of_takes (takes : Takes supply name after) : supply.Gives after :=
  ⟨[name], .next takes (.none after)⟩

/-- A name in use stays in use. -/
theorem has (gives : supply.Gives after) (name : LocalName) (isUsed : supply.Has name) :
    after.Has name := by
  obtain ⟨names, mints⟩ := gives
  exact (mints.has_iff name).2 (.inr isUsed)

end Gives

/-! ### How far the sequences come -/

/-- All numbered names that the sequences have come past are in use. -/
structure Follows (supply : NameSupply) : Prop where
  vars : ∀ index < supply.nextVariable, variableName index ∈ supply.vars
  labels : ∀ index < supply.nextLabel, labelName index ∈ supply.labels

theorem follows_ofNames (names : Surface.Names) : (ofNames names).Follows where
  vars _ before := absurd before (Nat.not_lt_zero _)
  labels _ before := absurd before (Nat.not_lt_zero _)

/-- A search that starts behind names in use leaves names in use behind it. -/
private theorem passed_cons {name : Nat → String} {used : List String} {start index : Nat}
    (passed : ∀ other < start, name other ∈ used) (found : FirstFree name used start index) :
    ∀ other < index + 1, name other ∈ name index :: used := by
  intro other before
  rcases Nat.lt_succ_iff_lt_or_eq.1 before with earlier | rfl
  · refine List.mem_cons_of_mem _ ?_
    by_cases isBefore : other < start
    · exact passed other isBefore
    · exact found.ends.mem other (Nat.not_lt.1 isBefore) earlier
  · exact List.mem_cons_self

theorem Follows.takes {name : LocalName} (follows : supply.Follows)
    (takes : supply.Takes name after) : after.Follows := by
  cases takes with
  | numbered =>
    obtain ⟨index, found, taken⟩ := supply.takeVariable_firstFree
    rw [taken]
    exact ⟨passed_cons follows.vars found, follows.labels⟩
  | label =>
    obtain ⟨index, found, taken⟩ := supply.takeLabel_firstFree
    rw [taken]
    exact ⟨follows.vars, passed_cons follows.labels found⟩
  | labelled label =>
    exact ⟨fun index before => List.mem_cons_of_mem _ (follows.vars index before), follows.labels⟩

theorem Follows.mints {names : List LocalName} (follows : supply.Follows)
    (mints : supply.Mints names after) : after.Follows := by
  induction mints with
  | none => exact follows
  | next takes _ ih => exact ih (follows.takes takes)

/-- The counters of a request are never greater than the number of names in use. -/
theorem Mints.counters_le {written : Surface.Names} {names : List LocalName}
    (mints : (ofNames written).Mints names after) :
    after.nextVariable ≤ after.vars.length ∧ after.nextLabel ≤ after.labels.length := by
  have follows := (follows_ofNames written).mints mints
  constructor
  · refine length_le_of_passed variableName_injective fun index (_ : 0 ≤ index) before => ?_
    exact follows.vars index (by omega)
  · refine length_le_of_passed labelName_injective fun index (_ : 0 ≤ index) before => ?_
    exact follows.labels index (by omega)

/-! ### Written names -/

/-- Whether all names written in a part are in use. -/
structure Covers (supply : NameSupply) (names : Surface.Names) : Prop where
  vars : names.vars ⊆ supply.vars
  labels : names.labels ⊆ supply.labels

theorem covers_ofNames (names : Surface.Names) : (ofNames names).Covers names :=
  ⟨List.Subset.refl _, List.Subset.refl _⟩

theorem Covers.mono {names : Surface.Names} (covers : supply.Covers names)
    (gives : supply.Gives after) : after.Covers names :=
  ⟨fun name mem => gives.has (.var name) (covers.vars mem),
    fun label mem => gives.has (.blank label) (covers.labels mem)⟩

@[simp] theorem covers_and {first second : Surface.Names} :
    supply.Covers (first ++ second) ↔ supply.Covers first ∧ supply.Covers second := by
  constructor
  · intro ⟨vars, labels⟩
    exact ⟨⟨(List.append_subset.1 vars).1, (List.append_subset.1 labels).1⟩,
      ⟨(List.append_subset.1 vars).2, (List.append_subset.1 labels).2⟩⟩
  · intro ⟨first, second⟩
    exact ⟨List.append_subset.2 ⟨first.vars, second.vars⟩,
      List.append_subset.2 ⟨first.labels, second.labels⟩⟩

@[simp] theorem covers_none : supply.Covers Surface.Names.none :=
  ⟨List.nil_subset _, List.nil_subset _⟩

@[simp] theorem covers_var {name : Variable} :
    supply.Covers (Surface.Names.var name) ↔ supply.Has (.var name.name) := by
  constructor
  · exact fun covers => covers.vars (List.mem_singleton_self _)
  · exact fun isUsed => ⟨List.cons_subset.2 ⟨isUsed, List.nil_subset _⟩, List.nil_subset _⟩

@[simp] theorem covers_label {label : String} :
    supply.Covers ⟨[], [label]⟩ ↔ supply.Has (.blank label) := by
  constructor
  · exact fun covers => covers.labels (List.mem_singleton_self _)
  · exact fun isUsed => ⟨List.nil_subset _, List.cons_subset.2 ⟨isUsed, List.nil_subset _⟩⟩

@[simp] theorem covers_all {α : Type} {namesOf : α → Surface.Names} {parts : List α} :
    supply.Covers (Surface.Names.all namesOf parts)
      ↔ ∀ part ∈ parts, supply.Covers (namesOf part) := by
  induction parts with
  | nil => simp [Surface.Names.all]
  | cons part rest ih =>
    have both : Surface.Names.all namesOf (part :: rest)
        = namesOf part ++ Surface.Names.all namesOf rest := rfl
    rw [both, covers_and, ih, List.forall_mem_cons]

@[simp] theorem covers_optional {α : Type} {namesOf : α → Surface.Names} {part : Option α} :
    supply.Covers (Surface.Names.optional namesOf part)
      ↔ ∀ value, part = some value → supply.Covers (namesOf value) := by
  cases part with
  | none => simp [Surface.Names.optional]
  | some value => simp [Surface.Names.optional]

end NameSupply

/-! ### Any names in any order -/

/-- A new name that may be wanted: a numbered variable, a numbered label, or a variable that is
called after a label. -/
inductive NewName where
  | numbered
  | label
  | labelled (label : String)
deriving DecidableEq

/-- Whether the name of a variable is wanted. -/
def NewName.isVar : NewName → Bool
  | .label => false
  | _ => true

namespace Context

variable (context : Context)

/-- The term of a name. -/
def named : LocalName → Term
  | .var name => .var (context.factory.var name)
  | .blank label => .blank (context.factory.blank label)

/-- The term of a new name. -/
def newTerm : NewName → Lowering Term
  | .numbered => do pure (.var (← context.newVariable))
  | .label => context.newBlank
  | .labelled label => do pure (labelTerm (← context.labelVariables [label]) label)

/-- The variables of labels are taken from the supply. -/
theorem labelVariables_mints (labels : List String) (supply : NameSupply) :
    ∃ (vars : List (String × Variable)) (names : List String) (after : NameSupply),
      context.labelVariables labels supply = .ok vars after
      ∧ vars.map Prod.fst = labels ∧ vars.map Prod.snd = names.map context.factory.var
      ∧ supply.Mints (names.map .var) after := by
  induction labels generalizing supply with
  | nil => exact ⟨[], [], supply, rfl, rfl, rfl, .none supply⟩
  | cons label rest ih =>
    obtain ⟨vars, names, after, success, areLabels, areNames, mints⟩ :=
      ih (supply.takeLabelled label).2
    have taken : (modifyGet fun supply => supply.takeLabelled label : Lowering String) supply
        = .ok (supply.takeLabelled label).1 (supply.takeLabelled label).2 := rfl
    refine ⟨_, (supply.takeLabelled label).1 :: names, after,
      (Lowering.bind_ok taken).trans (Lowering.bind_ok success), congrArg (label :: ·) areLabels,
      congrArg (_ :: ·) areNames, .next (.labelled supply label) mints⟩

/-- Each name that is wanted is taken from the supply. -/
theorem newTerm_takes (wanted : NewName) (supply : NameSupply) :
    ∃ name after, context.newTerm wanted supply = .ok (context.named name) after
      ∧ name.isVar = wanted.isVar ∧ supply.Takes name after := by
  cases wanted with
  | numbered => exact ⟨_, _, rfl, rfl, .numbered supply⟩
  | label => exact ⟨_, _, rfl, rfl, .label supply⟩
  | labelled label =>
    refine ⟨_, _, ?_, rfl, .labelled supply label⟩
    have found (name : Variable) : labelTerm [(label, name)] label = .var name := by
      simp [labelTerm]
    exact congrArg (EStateM.Result.ok · _) (found _)

/-- Names that are wanted one after another are taken from the supply in this order. -/
theorem newTerms_mints (wanted : List NewName) (supply : NameSupply) :
    ∃ names after, wanted.mapM context.newTerm supply = .ok (names.map context.named) after
      ∧ names.map LocalName.isVar = wanted.map NewName.isVar ∧ supply.Mints names after := by
  induction wanted generalizing supply with
  | nil => exact ⟨[], supply, rfl, rfl, .none supply⟩
  | cons first rest ih =>
    obtain ⟨name, between, isFirst, sameKind, takes⟩ := context.newTerm_takes first supply
    obtain ⟨names, after, areOthers, sameKinds, mints⟩ := ih between
    refine ⟨name :: names, after, ?_, ?_, .next takes mints⟩
    · rw [List.mapM_cons, Lowering.bind_ok isFirst, Lowering.bind_ok areOthers]
      rfl
    · rw [List.map_cons, List.map_cons, sameKind, sameKinds]

/-- A factory that tells names apart makes different terms of them. -/
theorem named_injective (ofVars : Function.Injective context.factory.var)
    (ofBlanks : Function.Injective context.factory.blank) : Function.Injective context.named := by
  intro first second same
  cases first with
  | var name =>
    cases second with
    | var name' => exact congrArg LocalName.var (ofVars (Term.var.inj same))
    | blank => cases same
  | blank label =>
    cases second with
    | var => cases same
    | blank label' => exact congrArg LocalName.blank (ofBlanks (Term.blank.inj same))

/-- **New names are the first that are free.** A numbered name is the first free one from the
counter on, which moves behind it; a variable for a label is the label, or else the label with the
least number that makes it free. What is taken is in use from then on, so that all names ever taken
are different from each other and from those in use before. -/
theorem new_names_are_first_free (supply : NameSupply) :
    (∃ index, FirstFree NameSupply.variableName supply.vars supply.nextVariable index
      ∧ context.newVariable supply
        = .ok (context.factory.var (NameSupply.variableName index))
          { supply with
            vars := NameSupply.variableName index :: supply.vars
            nextVariable := index + 1 })
    ∧ (∃ index, FirstFree NameSupply.labelName supply.labels supply.nextLabel index
      ∧ context.newBlank supply
        = .ok (.blank (context.factory.blank (NameSupply.labelName index)))
          { supply with
            labels := NameSupply.labelName index :: supply.labels
            nextLabel := index + 1 })
    ∧ (∀ label, ∃ name,
      context.labelVariables [label] supply
        = .ok [(label, context.factory.var name)] { supply with vars := name :: supply.vars }
      ∧ if label ∈ supply.vars then
          ∃ index, FirstFree (label ++ toString ·) supply.vars 0 index
            ∧ name = label ++ toString index
        else name = label)
    ∧ ∀ wanted : List NewName, ∃ (names : List LocalName) (after : NameSupply),
      wanted.mapM context.newTerm supply = .ok (names.map context.named) after
      ∧ names.map LocalName.isVar = wanted.map NewName.isVar
      ∧ names.Nodup
      ∧ (∀ name ∈ names, ¬ supply.Has name)
      ∧ (∀ name, after.Has name ↔ name ∈ names ∨ supply.Has name)
      ∧ (Function.Injective context.factory.var → Function.Injective context.factory.blank →
        (names.map context.named).Nodup) := by
  refine ⟨?_, ?_, fun label => ?_, fun wanted => ?_⟩
  · obtain ⟨index, found, taken⟩ := supply.takeVariable_firstFree
    refine ⟨index, found, ?_⟩
    show EStateM.Result.ok (context.factory.var supply.takeVariable.1) supply.takeVariable.2 = _
    rw [taken]
  · obtain ⟨index, found, taken⟩ := supply.takeLabel_firstFree
    refine ⟨index, found, ?_⟩
    show EStateM.Result.ok (Term.blank (context.factory.blank supply.takeLabel.1))
      supply.takeLabel.2 = _
    rw [taken]
  · obtain ⟨name, taken, isFirst⟩ := supply.takeLabelled_firstFree label
    refine ⟨name, ?_, isFirst⟩
    show EStateM.Result.ok [(label, context.factory.var (supply.takeLabelled label).1)]
      (supply.takeLabelled label).2 = _
    rw [taken]
  · obtain ⟨names, after, success, sameKinds, mints⟩ := context.newTerms_mints wanted supply
    exact ⟨names, after, success, sameKinds, mints.nodup, mints.fresh, mints.has_iff,
      fun ofVars ofBlanks => mints.nodup.map (context.named_injective ofVars ofBlanks)⟩

end Context

end QueryAlgebra
