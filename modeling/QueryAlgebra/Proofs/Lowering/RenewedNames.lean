import QueryAlgebra.Proofs.Lowering.FreshNames
import QueryAlgebra.Proofs.Operation.CorrespondingOperators

/-! # Names that are taken anew

A step may come to an operation that was made before, but with new variables in place of some of its
own. `Lowering.Renews` says so, without saying which new variables they are: from every supply, each
old variable has a new one, and the result is related to the old one wherever known variables stand
for themselves and old ones for new ones. Steps one after another renew the variables of both
(`Lowering.Renews.bind`), and a step that is sure to succeed and renews none is the operation itself
(`Lowering.Renews.eq_pure`).
-/

namespace QueryAlgebra

/-! ### Old variables and new ones -/

/-- Old variables, each with a new one. -/
abbrev Renewals := List (Variable × Variable)

/-- Names of one kind stand for each other one to one: labels and known variables for themselves,
and old variables for new ones. -/
structure Renewals.Keep (related : LocalName → LocalName → Prop) (known : Variable → Prop)
    (renewals : Renewals) : Prop where
  oneToOne : Relator.BiUnique related
  kinds (m n : LocalName) : related m n → m.isVar = n.isVar
  blank (label : String) : related (.blank label) (.blank label)
  known (name : Variable) : known name → related (.var name.name) (.var name.name)
  renewed : ∀ pair ∈ renewals, related (.var pair.1.name) (.var pair.2.name)

namespace Renewals

variable {related : LocalName → LocalName → Prop} {known : Variable → Prop}
  {renewals more : Renewals}

theorem Keep.mono (keep : renewals.Keep related known) (part : more ⊆ renewals) :
    more.Keep related known :=
  ⟨keep.oneToOne, keep.kinds, keep.blank, keep.known,
    fun pair member => keep.renewed pair (part member)⟩

theorem Keep.append (keep : (renewals ++ more).Keep related known) :
    renewals.Keep related known ∧ more.Keep related known :=
  ⟨keep.mono (List.subset_append_left ..), keep.mono (List.subset_append_right ..)⟩

/-- Names that stand for each other, and no others. -/
inductive Related (known : Variable → Prop) (renewals : Renewals) :
    LocalName → LocalName → Prop where
  | blank (label : String) : Related known renewals (.blank label) (.blank label)
  | known {name : Variable} : known name →
    Related known renewals (.var name.name) (.var name.name)
  | renewed {pair : Variable × Variable} : pair ∈ renewals →
    Related known renewals (.var pair.1.name) (.var pair.2.name)

theorem Related.isVar {m n : LocalName} (isRelated : Related known renewals m n) :
    m.isVar = n.isVar := by
  cases isRelated <;> rfl

/-- Different variables, none of which is known. -/
structure Apart (known : Variable → Prop) (names : List Variable) : Prop where
  nodup : names.Nodup
  apart : ∀ name ∈ names, ¬ known name

private theorem Apart.eq_of_mem {f : Variable × Variable → Variable}
    (apart : Apart known (renewals.map f)) {first second : Variable × Variable}
    (isFirst : first ∈ renewals) (isSecond : second ∈ renewals)
    (same : LocalName.var (f first).name = .var (f second).name) : first = second :=
  List.inj_on_of_nodup_map apart.nodup isFirst isSecond
    (congrArg Variable.mk (LocalName.var.inj same))

private theorem Apart.absurd {f : Variable × Variable → Variable}
    (apart : Apart known (renewals.map f)) {pair : Variable × Variable} {name : Variable}
    (member : pair ∈ renewals) (isKnown : known name)
    (same : LocalName.var (f pair).name = .var name.name) : False := by
  have equal : f pair = name := congrArg Variable.mk (LocalName.var.inj same)
  exact apart.apart _ (List.mem_map_of_mem member) (equal ▸ isKnown)

/-- Which name stands for which is one to one if all variables are different. -/
theorem biUnique_related (old : Apart known (renewals.map (·.1)))
    (new : Apart known (renewals.map (·.2))) : Relator.BiUnique (Related known renewals) := by
  constructor
  · rintro m n k first second
    generalize same : k = k' at second
    cases first with
    | blank =>
      cases second with
      | blank => exact same
      | known | renewed => cases same
    | known isKnown =>
      cases second with
      | blank => cases same
      | known => exact same
      | renewed member => exact (new.absurd member isKnown same.symm).elim
    | renewed member =>
      cases second with
      | blank => cases same
      | known isKnown => exact (new.absurd member isKnown same).elim
      | renewed member' => rw [new.eq_of_mem member member' same]
  · rintro m n k first second
    generalize same : m = m' at second
    cases first with
    | blank =>
      cases second with
      | blank => exact same
      | known | renewed => cases same
    | known isKnown =>
      cases second with
      | blank => cases same
      | known => exact same
      | renewed member => exact (old.absurd member isKnown same.symm).elim
    | renewed member =>
      cases second with
      | blank => cases same
      | known isKnown => exact (old.absurd member isKnown same).elim
      | renewed member' => rw [old.eq_of_mem member member' same]

theorem keep_related (old : Apart known (renewals.map (·.1)))
    (new : Apart known (renewals.map (·.2))) : renewals.Keep (Related known renewals) known :=
  ⟨biUnique_related old new, fun _ _ => Related.isVar, .blank, fun _ => .known, fun _ => .renewed⟩

/-- Without old variables, each name may stand for itself. -/
theorem keep_eq (known : Variable → Prop) : Keep Eq known [] where
  oneToOne := ⟨fun _ _ _ first second => first.trans second.symm,
    fun _ _ _ first second => first.symm.trans second⟩
  kinds _ _ same := congrArg LocalName.isVar same
  blank _ := rfl
  known _ _ := rfl
  renewed := List.forall_mem_nil _

end Renewals

/-! ### Supplies -/

namespace NameSupply

variable {supply between after : NameSupply} {news more : List Variable}

/-- Variables are in use that are different from each other and were not in use before. -/
structure Adds (supply : NameSupply) (news : List Variable) (after : NameSupply) : Prop where
  nodup : news.Nodup
  fresh : ∀ name ∈ news, ¬ supply.Has (.var name.name)
  used : ∀ name ∈ news, after.Has (.var name.name)
  grows : ∀ name, supply.Has name → after.Has name

namespace Adds

theorem of_gives (gives : supply.Gives after) : supply.Adds [] after :=
  ⟨List.nodup_nil, List.forall_mem_nil _, List.forall_mem_nil _, gives.has⟩

theorem append (first : supply.Adds news between) (second : between.Adds more after) :
    supply.Adds (news ++ more) after where
  nodup := List.nodup_append.2 ⟨first.nodup, second.nodup, fun name member other isOther same =>
    second.fresh other isOther (same ▸ first.used name member)⟩
  fresh := List.forall_mem_append.2
    ⟨first.fresh, fun name member isUsed => second.fresh name member (first.grows _ isUsed)⟩
  used := List.forall_mem_append.2
    ⟨fun name member => second.grows _ (first.used name member), second.used⟩
  grows name isUsed := second.grows name (first.grows name isUsed)

theorem perm (adds : supply.Adds news after) (perm : more.Perm news) : supply.Adds more after where
  nodup := perm.nodup_iff.2 adds.nodup
  fresh name member := adds.fresh name (perm.subset member)
  used name member := adds.used name (perm.subset member)
  grows := adds.grows

end Adds

end NameSupply

namespace Renewals

variable {known : Variable → Prop} {names more : List Variable} {supply after : NameSupply}
  {renewals : Renewals}

/-- If variables are to be taken anew at all, the old ones are different from each other and from
the known ones, and these are in use. -/
def Ready (known : Variable → Prop) (names : List Variable) (supply : NameSupply) : Prop :=
  names ≠ [] → Apart known names ∧ ∀ name, known name → supply.Has (.var name.name)

theorem Apart.mono (apart : Apart known names) (part : more.Subperm names) : Apart known more :=
  have ⟨_, perm, sublist⟩ := part
  ⟨perm.nodup_iff.1 (apart.nodup.sublist sublist), fun name member =>
    apart.apart name (part.subset member)⟩

theorem Ready.mono (ready : Ready known names supply) (part : more.Subperm names)
    (grows : ∀ name, supply.Has name → after.Has name) : Ready known more after := by
  intro some
  obtain ⟨apart, inUse⟩ := ready fun none => some (List.subperm_nil.1 (none ▸ part))
  exact ⟨apart.mono part, fun name isKnown => grows _ (inUse name isKnown)⟩

/-- Old variables can stand for the new ones that are taken for them. -/
theorem Ready.exists_keep (ready : Ready known names supply)
    (old : (renewals.map (·.1)).Perm names) (adds : supply.Adds (renewals.map (·.2)) after) :
    ∃ related, renewals.Keep related known := by
  by_cases none : names = []
  · obtain rfl : renewals = [] := List.map_eq_nil_iff.1 (none ▸ old).eq_nil
    exact ⟨Eq, keep_eq known⟩
  · obtain ⟨apart, inUse⟩ := ready none
    exact ⟨_, keep_related (apart.mono old.subperm)
      ⟨adds.nodup, fun name member isKnown => adds.fresh name member (inUse name isKnown)⟩⟩

end Renewals

/-! ### Steps that renew variables -/

namespace Lowering

open Renewals (Ready)

variable {α β : Type} {sure : Prop} {known : Variable → Prop} {names more : List Variable}
  {R T : (LocalName → LocalName → Prop) → α → Prop} {S : (LocalName → LocalName → Prop) → β → Prop}
  {step : Lowering α} {next : α → Lowering β} {value : α}

/-- Whenever a step succeeds, it has taken a new variable for each old one, and its result is right
wherever known variables stand for themselves and old ones for new ones. A step that is sure to
succeed does nothing besides. -/
structure Renews (sure : Prop) (known : Variable → Prop) (names : List Variable)
    (R : (LocalName → LocalName → Prop) → α → Prop) (step : Lowering α) : Prop where
  succeeds : sure → ∃ value, step = Pure.pure value
  renews : ∀ supply value after, Ready known names supply → step supply = .ok value after →
    ∃ renewals : Renewals, (renewals.map (·.1)).Perm names
      ∧ supply.Adds (renewals.map (·.2)) after
      ∧ ∀ related, renewals.Keep related known → R related value

namespace Renews

theorem pure (holds : ∀ related, Renewals.Keep related known [] → R related value) :
    Renews sure known [] R (pure value) where
  succeeds _ := ⟨value, rfl⟩
  renews supply result after _ success := by
    obtain ⟨rfl, rfl⟩ := of_pure_ok success
    exact ⟨[], .nil, .of_gives (.refl supply), holds⟩

/-- A step that comes to what is related to itself. -/
theorem of_eq {result : α} (same : step = Pure.pure result)
    (holds : ∀ related, Renewals.Keep related known [] → R related result) :
    Renews sure known [] R step := by
  rw [same]
  exact .pure holds

theorem imp (renews : Renews sure known names R step)
    (weaker : ∀ related value, R related value → T related value) :
    Renews sure known names T step where
  succeeds := renews.succeeds
  renews supply value after ready success := by
    obtain ⟨renewals, old, adds, holds⟩ := renews.renews supply value after ready success
    exact ⟨renewals, old, adds, fun related keep => weaker related value (holds related keep)⟩

/-- Known variables stand for themselves in what a step comes to. -/
theorem imp_of_keep (renews : Renews sure known names R step)
    (weaker : ∀ related, Renewals.Keep related known [] → ∀ value, R related value →
      T related value) :
    Renews sure known names T step where
  succeeds := renews.succeeds
  renews supply value after ready success := by
    obtain ⟨renewals, old, adds, holds⟩ := renews.renews supply value after ready success
    exact ⟨renewals, old, adds, fun related keep =>
      weaker related (keep.mono (List.nil_subset _)) value (holds related keep)⟩

theorem perm (renews : Renews sure known names R step) (perm : names.Perm more) :
    Renews sure known more R step where
  succeeds := renews.succeeds
  renews supply value after ready success := by
    obtain ⟨renewals, old, rest⟩ := renews.renews supply value after
      (ready.mono perm.subperm fun _ => id) success
    exact ⟨renewals, old.trans perm, rest⟩

/-- Steps one after another renew the variables of both. -/
theorem bind (first : Renews sure known names R step) (goesOn : ∀ value,
      Renews sure known more (fun related result => R related value → S related result)
        (next value)) :
    Renews sure known (names ++ more) S (step >>= next) where
  succeeds isSure := by
    obtain ⟨value, rfl⟩ := first.succeeds isSure
    rw [pure_bind]
    exact (goesOn value).succeeds isSure
  renews supply result last ready success := by
    obtain ⟨value, after, ofFirst, ofNext⟩ := of_bind_ok success
    obtain ⟨renewals, old, adds, holds⟩ := first.renews supply value after
      (ready.mono (List.sublist_append_left ..).subperm fun _ => id) ofFirst
    obtain ⟨others, old', adds', holds'⟩ := (goesOn value).renews after result last
      (ready.mono (List.sublist_append_right ..).subperm adds.grows) ofNext
    refine ⟨renewals ++ others, ?_, ?_, fun related keep => ?_⟩
    · rw [List.map_append]
      exact old.append old'
    · rw [List.map_append]
      exact adds.append adds'
    · exact holds' related keep.append.2 (holds related keep.append.1)

/-- A step that goes on without new names, where known variables stand for themselves. -/
theorem map_of_keep (first : Renews sure known names R step) {f : α → β}
    (goesOn : ∀ related, Renewals.Keep related known [] → ∀ value, R related value →
      S related (f value)) :
    Renews sure known names S (step >>= fun value => Pure.pure (f value)) := by
  have both : Renews sure known (names ++ []) S (step >>= fun value => Pure.pure (f value)) :=
    first.bind fun value => .pure fun related keep holds => goesOn related keep value holds
  rwa [List.append_nil] at both

/-- A step that goes on without new names. -/
theorem map (first : Renews sure known names R step) {f : α → β}
    (goesOn : ∀ related value, R related value → S related (f value)) :
    Renews sure known names S (step >>= fun value => Pure.pure (f value)) :=
  first.map_of_keep fun related _ => goesOn related

end Renews

end Lowering

/-! ### Operations that correspond to themselves -/

section

variable {related : LocalName → LocalName → Prop}

private theorem renames_itself (names : List LocalName) :
    Renames (fun m n => m ∈ names ∧ n = m) LocalName.text names where
  related name member := ⟨member, by cases name <;> rfl⟩
  injective m _ n _ kind same := by
    cases m <;> cases n <;> first | exact congrArg _ same | cases kind

private theorem joins_itself {names : List LocalName} (itself : ∀ name ∈ names, related name name)
    (m n k : LocalName) : m ∈ names ∧ k = m → n ∈ names ∧ k = n → related m n := by
  rintro ⟨member, rfl⟩ ⟨-, rfl⟩
  exact itself k member

/-- A term corresponds to itself if all of its names stand for themselves. -/
theorem Term.corresponds_self {term : Term} (itself : ∀ name ∈ term.localNames, related name name) :
    term.Corresponds related term :=
  .through (joins_itself itself) _ _ _ (corresponds_renameLocal (renames_itself _))
    (corresponds_renameLocal (renames_itself _))

/-- An operation corresponds to itself if all of its names stand for themselves. -/
theorem Operation.corresponds_self {operation : Operation}
    (itself : ∀ name ∈ operation.localNames, related name name) :
    operation.Corresponds related operation :=
  .through (joins_itself itself) (corresponds_renameLocal (renames_itself _))
    (corresponds_renameLocal (renames_itself _))

end

section

variable {related : LocalName → LocalName → Prop} {known : Variable → Prop} {renewals : Renewals}

/-- Names of which all variables are known. -/
def AllKnown (known : Variable → Prop) (names : List LocalName) : Prop :=
  ∀ name : Variable, .var name.name ∈ names → known name

theorem AllKnown.itself {names : List LocalName} (isKnown : AllKnown known names)
    (keep : renewals.Keep related known) : ∀ name ∈ names, related name name := by
  rintro (name | label) member
  · exact keep.known ⟨name⟩ (isKnown ⟨name⟩ member)
  · exact keep.blank label

/-- A step that is sure to succeed and renews no variable is the operation itself. -/
theorem Lowering.Renews.eq_pure {sure : Prop} {operation : Operation} {step : Lowering Operation}
    (isSure : sure) (renews : Lowering.Renews sure (fun _ => True) []
      (fun related value => operation.Corresponds related value) step) :
    step = Pure.pure operation := by
  obtain ⟨value, rfl⟩ := renews.succeeds isSure
  obtain ⟨renewals, old, -, holds⟩ :=
    renews.renews default value default (fun some => absurd rfl some) rfl
  obtain rfl : renewals = [] := List.map_eq_nil_iff.1 old.eq_nil
  have same : operation.Corresponds Eq value := holds Eq (Renewals.keep_eq _)
  rw [same.eq fun _ _ => id]

end

end QueryAlgebra
