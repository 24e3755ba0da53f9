import QueryAlgebra.Operation.Equality
import QueryAlgebra.Proofs.NumberedNames
import QueryAlgebra.Proofs.Operation.CorrespondingNames
import QueryAlgebra.Proofs.Operation.Renaming
import Mathlib.Data.Set.Function

/-! # The canonical form of an operation

The canonical renaming gives different names to different names that are met, and what it gives to
a name depends on the names met before it alone. So the canonical renamings of operations whose
names begin alike separate the names that they have in common.

Canonical names make an operation that corresponds to it: the names that are renamed are numbered,
and each becomes the name with its number (`Operation.corresponds_canonicalize`). So operations of
one canonical form differ in their names alone.
-/

namespace QueryAlgebra

/-! ### Canonical names tell names apart -/

theorem canonicalName_injective {first second : Nat}
    (same : canonicalName first = canonicalName second) : first = second :=
  append_toString_injective "value_" same

theorem canonicalRenaming_of_mem {names : List LocalName} {name : LocalName}
    (member : name ∈ names) :
    ∃ index, names.idxOf? name = some index
      ∧ canonicalRenaming names name = canonicalName index := by
  cases found : names.idxOf? name with
  | none => exact absurd member (List.idxOf?_eq_none_iff.1 found)
  | some index => exact ⟨index, rfl, by rw [canonicalRenaming, found]⟩

/-- Different names have different canonical names. -/
theorem canonicalRenaming_injective {names : List LocalName} {first second : LocalName}
    (ofFirst : first ∈ names) (ofSecond : second ∈ names)
    (same : canonicalRenaming names first = canonicalRenaming names second) : first = second := by
  obtain ⟨index, found, renamed⟩ := canonicalRenaming_of_mem ofFirst
  obtain ⟨index', found', renamed'⟩ := canonicalRenaming_of_mem ofSecond
  rw [renamed, renamed'] at same
  obtain ⟨_, at_, _⟩ := List.idxOf?_eq_some_iff.1 found
  obtain ⟨_, at_', _⟩ := List.idxOf?_eq_some_iff.1 found'
  have indices := canonicalName_injective same
  subst indices
  exact at_.symm.trans at_'

/-- The canonical name of a name does not depend on what is met later. -/
theorem canonicalRenaming_append {first : List LocalName} {name : LocalName}
    (member : name ∈ first) (later : List LocalName) :
    canonicalRenaming (firstSeen (first ++ later)) name
      = canonicalRenaming (firstSeen first) name := by
  have inFirst : name ∈ firstSeen first := List.mem_eraseDups.2 member
  have inLonger : name ∈ firstSeen (first ++ later) :=
    List.mem_eraseDups.2 (List.mem_append_left _ member)
  obtain ⟨index, found, renamed⟩ := canonicalRenaming_of_mem inFirst
  obtain ⟨index', found', renamed'⟩ := canonicalRenaming_of_mem inLonger
  have indices : (firstSeen (first ++ later)).idxOf? name = some index := by
    have earlier : first.eraseDups.findIdx? (· == name) = some index := found
    rw [firstSeen, List.eraseDups_append, List.idxOf?, List.findIdx?_append, earlier]
    rfl
  rw [renamed, renamed', Option.some.inj (found'.symm.trans indices)]

/-- The canonical renamings of two lists of names that begin alike tell the names of the first list
apart, and the names that the lists have in common from all of them. -/
theorem separates_canonical {common later later' first second : List LocalName}
    (ofFirst : first ⊆ common ++ later) (ofSecond : second ⊆ common) :
    Separates (canonicalRenaming (firstSeen (common ++ later)))
      (canonicalRenaming (firstSeen (common ++ later'))) first second where
  left m mem n mem' _ same :=
    canonicalRenaming_injective (List.mem_eraseDups.2 (ofFirst mem))
      (List.mem_eraseDups.2 (ofFirst mem')) same
  right m mem n mem' _ same :=
    canonicalRenaming_injective (List.mem_eraseDups.2 (List.mem_append_left _ (ofSecond mem)))
      (List.mem_eraseDups.2 (List.mem_append_left _ (ofSecond mem'))) same
  across m mem n mem' _ same := by
    rw [canonicalRenaming_append (ofSecond mem'),
      ← canonicalRenaming_append (ofSecond mem') later] at same
    exact canonicalRenaming_injective (List.mem_eraseDups.2 (ofFirst mem))
      (List.mem_eraseDups.2 (List.mem_append_left _ (ofSecond mem'))) same

namespace Operation

theorem canonical_true (operation : Operation) :
    operation.canonical true
      = operation.renameLocal (canonicalRenaming (firstSeen operation.localNames)) := by
  rw [canonical, canonicalNames]
  simp

end Operation

/-! ### Operations of one canonical form -/

/-- What canonical names make of a name: one that is renamed becomes the name with its number, and
other variables stay as they are unless variables are renamed. -/
inductive CanonicallyNamed (renameVariables : Bool) (names : List LocalName) :
    LocalName → LocalName → Prop where
  | numbered {name : LocalName} (index : Nat) (isAt : names[index]? = some name) :
    CanonicallyNamed renameVariables names name (name.withText ("value_" ++ toString index))
  | kept {name : String} (keeps : renameVariables = false) :
    CanonicallyNamed renameVariables names (.var name) (.var name)

/-- Two lists of names have two names of one kind at the same place. -/
def SamePlace (names others : List LocalName) (name other : LocalName) : Prop :=
  name.isVar = other.isVar ∧ ∃ index : Nat, names[index]? = some name ∧ others[index]? = some other

namespace LocalName

@[simp] theorem withText_text (name : LocalName) : name.withText name.text = name := by
  cases name <;> rfl

theorem eq_of_text {name other : LocalName} (kind : name.isVar = other.isVar)
    (text : name.text = other.text) : name = other := by
  cases name <;> cases other <;> first | exact congrArg _ text | cases kind

theorem of_withText_eq {name other : LocalName} {text text' : String}
    (same : name.withText text = other.withText text') :
    name.isVar = other.isVar ∧ text = text' := by
  cases name <;> cases other <;> cases same <;> exact ⟨rfl, rfl⟩

end LocalName

theorem nodup_firstSeen {α : Type} [BEq α] [LawfulBEq α] (names : List α) :
    (firstSeen names).Nodup := by
  cases names with
  | nil => simp [firstSeen]
  | cons name rest =>
    rw [firstSeen, List.eraseDups_cons, List.nodup_cons]
    refine ⟨?_, nodup_firstSeen _⟩
    rw [List.mem_eraseDups]
    simp
termination_by names.length
decreasing_by exact Nat.lt_succ_of_le (List.length_filter_le _ _)

theorem getElem?_of_idxOf? {names : List LocalName} {name : LocalName} {index : Nat}
    (found : names.idxOf? name = some index) : names[index]? = some name := by
  obtain ⟨inside, same, -⟩ := List.idxOf?_eq_some_iff.1 found
  rw [List.getElem?_eq_getElem inside, same]

section

variable {names others : List LocalName}

/-- Names of one canonical name are at the same place. -/
theorem CanonicallyNamed.samePlace (m n k : LocalName) (ofFirst : CanonicallyNamed true names m k)
    (ofSecond : CanonicallyNamed true others n k) : SamePlace names others m n := by
  generalize same : k = k' at ofSecond
  cases ofFirst with
  | kept keeps => cases keeps
  | numbered index isAt =>
    cases ofSecond with
    | kept keeps => cases keeps
    | numbered index' isAt' =>
      obtain ⟨kind, texts⟩ := LocalName.of_withText_eq same
      obtain rfl : index = index' := canonicalName_injective texts
      exact ⟨kind, index, isAt, isAt'⟩

namespace SamePlace

theorem symm {m n : LocalName} (same : SamePlace names others m n) : SamePlace others names n m :=
  ⟨same.1.symm, same.2.imp fun _ places => places.symm⟩

/-- At most one name is at the same place. -/
theorem unique (distinct : names.Nodup) {m n n' : LocalName} (first : SamePlace names others m n)
    (second : SamePlace names others m n') : n = n' := by
  obtain ⟨-, index, isAt, isAt'⟩ := first
  obtain ⟨-, index', isAt'', isAt'''⟩ := second
  obtain ⟨inside, atIndex⟩ := List.getElem?_eq_some_iff.1 isAt
  obtain ⟨inside', atIndex'⟩ := List.getElem?_eq_some_iff.1 isAt''
  obtain rfl : index = index' :=
    (List.Nodup.getElem_inj_iff distinct).1 (atIndex.trans atIndex'.symm)
  exact Option.some.inj (isAt'.symm.trans isAt''')

end SamePlace

end

namespace Operation

/-- Whether the traversal that gives canonical names can hold an operation. -/
def fitsNaming (operation : Operation) : Bool :=
  (Node.operation operation).fits Traversal.defaultLimit
    (fun kind => if kind = .construct then .afresh else .descend) 1

theorem canonicalize_of_fitsNaming {operation : Operation} (renameVariables : Bool)
    (fits : operation.fitsNaming = true) :
    operation.canonicalize renameVariables = .ok (operation.canonical renameVariables) := by
  have checked : (Node.operation operation).checkFits
      (fun kind => if kind = .construct then .afresh else .descend) = .ok () := if_pos fits
  rw [canonicalize, checked]
  rfl

theorem canonicalize_eq_ok {operation canonical : Operation} {renameVariables : Bool}
    (done : operation.canonicalize renameVariables = .ok canonical) :
    operation.canonical renameVariables = canonical := by
  rw [canonicalize, Node.checkFits] at done
  split at done
  · exact Except.ok.inj done
  · cases done

theorem mem_canonicalNames {operation : Operation} {renameVariables : Bool} {name : LocalName} :
    name ∈ operation.canonicalNames renameVariables
      ↔ name ∈ operation.localNames ∧ (renameVariables || !name.isVar) = true := by
  rw [canonicalNames, firstSeen, List.mem_eraseDups, List.mem_filter]

theorem nodup_canonicalNames (renameVariables : Bool) (operation : Operation) :
    (operation.canonicalNames renameVariables).Nodup :=
  nodup_firstSeen _

/-- The canonical renaming gives every name of an operation its canonical name. -/
theorem renames_canonical (renameVariables : Bool) (operation : Operation) :
    Renames (CanonicallyNamed renameVariables (operation.canonicalNames renameVariables))
      (canonicalRenaming (operation.canonicalNames renameVariables)) operation.localNames where
  related name mem := by
    by_cases renamed : name ∈ operation.canonicalNames renameVariables
    · obtain ⟨index, found, canonical⟩ := canonicalRenaming_of_mem renamed
      rw [canonical]
      exact .numbered index (getElem?_of_idxOf? found)
    · have kept : renameVariables = false ∧ name.isVar = true := by
        simpa [mem_canonicalNames, mem] using renamed
      rw [canonicalRenaming, List.idxOf?_eq_none_iff.2 renamed]
      cases name with
      | var name => exact .kept kept.1
      | blank label => cases kept.2
  injective m mem n mem' kind same := by
    -- Whether a name is renamed depends on its kind alone.
    by_cases renamed : (renameVariables || !m.isVar) = true
    · have renamed' := renamed
      rw [kind] at renamed'
      exact canonicalRenaming_injective (mem_canonicalNames.2 ⟨mem, renamed⟩)
        (mem_canonicalNames.2 ⟨mem', renamed'⟩) same
    · have renamed' := renamed
      rw [kind] at renamed'
      rw [canonicalRenaming, canonicalRenaming,
        List.idxOf?_eq_none_iff.2 fun inNames => renamed (mem_canonicalNames.1 inNames).2,
        List.idxOf?_eq_none_iff.2 fun inNames => renamed' (mem_canonicalNames.1 inNames).2] at same
      exact LocalName.eq_of_text kind same

theorem corresponds_canonical (renameVariables : Bool) (operation : Operation) :
    operation.Corresponds
      (CanonicallyNamed renameVariables (operation.canonicalNames renameVariables))
      (operation.canonical renameVariables) :=
  corresponds_renameLocal (operation.renames_canonical renameVariables)

/-- Operations of one canonical form correspond by a renaming that is one to one on their names. -/
theorem corresponds_of_canonical {first second : Operation}
    (same : first.canonical true = second.canonical true) :
    ∃ rename : LocalName → LocalName,
      Set.BijOn rename {name | name ∈ first.localNames} {name | name ∈ second.localNames}
        ∧ (∀ name ∈ first.localNames, (rename name).isVar = name.isVar)
        ∧ first.Corresponds (fun name other => name ∈ first.localNames ∧ other = rename name)
          second := by
  have ofSecond := second.corresponds_canonical true
  rw [← same] at ofSecond
  have correspond := (first.corresponds_canonical true).through CanonicallyNamed.samePlace ofSecond
  have names := correspond.names
  choose! rename mem_rename samePlace using names.forth
  have eq_rename : ∀ m ∈ first.localNames, ∀ n,
      SamePlace (first.canonicalNames true) (second.canonicalNames true) m n → n = rename m :=
    fun m mem n places => places.unique (first.nodup_canonicalNames true) (samePlace m mem)
  refine ⟨rename, ⟨mem_rename, ?_, ?_⟩, fun name mem => (samePlace name mem).1.symm, ?_⟩
  · intro m mem m' mem' renamed
    have places := (samePlace m mem).symm
    rw [renamed] at places
    exact places.unique (second.nodup_canonicalNames true) (samePlace m' mem').symm
  · intro n mem
    obtain ⟨m, mem', places⟩ := names.back n mem
    exact ⟨m, mem', (eq_rename m mem' n places).symm⟩
  · refine (first.corresponds_canonical true).through (fun m n k ofFirst ofSecond => ?_) ofSecond
    have places := CanonicallyNamed.samePlace m n k ofFirst ofSecond
    have mem : m ∈ first.localNames := by
      obtain ⟨-, _, isAt, -⟩ := places
      exact (mem_canonicalNames.1 (List.mem_of_getElem? isAt)).1
    exact ⟨mem, eq_rename m mem n places⟩

/-- An operation that the traversal can hold has a canonical form, and corresponds to it: the names
that are renamed, each once, are those of its names that are asked for, each becomes the name with
its number, and all else is the same. Operations that have the canonical form where variables are
renamed too differ from it by a renaming that is one to one. -/
theorem corresponds_canonicalize (renameVariables : Bool) (operation : Operation)
    (fits : operation.fitsNaming = true) :
    ∃ names canonical, operation.canonicalize renameVariables = .ok canonical
      ∧ names.Nodup
      ∧ (∀ name, name ∈ names
        ↔ name ∈ operation.localNames ∧ (renameVariables || !name.isVar) = true)
      ∧ operation.Corresponds (CanonicallyNamed renameVariables names) canonical
      ∧ ∀ other : Operation, renameVariables = true → other.canonicalize true = .ok canonical →
        ∃ rename : LocalName → LocalName,
          Set.BijOn rename {name | name ∈ operation.localNames} {name | name ∈ other.localNames}
            ∧ (∀ name ∈ operation.localNames, (rename name).isVar = name.isVar)
            ∧ operation.Corresponds
              (fun name other => name ∈ operation.localNames ∧ other = rename name) other := by
  refine ⟨operation.canonicalNames renameVariables, operation.canonical renameVariables,
    canonicalize_of_fitsNaming renameVariables fits,
    operation.nodup_canonicalNames renameVariables, fun _ => mem_canonicalNames,
    operation.corresponds_canonical renameVariables, fun other all done => ?_⟩
  subst all
  exact corresponds_of_canonical (canonicalize_eq_ok done).symm

/-- The construction of a new node for each pair of given nodes of which the first leads to a node,
under given names of the two columns and of the node that is led to. -/
private def pairsLeading (column column' label : String) : Operation :=
  .of (.construct
    ⟨.combine .join
      [.of (.values [⟨column⟩, ⟨column'⟩]
        [.ofList [(column, .iri ⟨"ex:a"⟩), (column', .blank ⟨label⟩)], .ofList []]),
      .bgp [⟨.var ⟨column⟩, .iri ⟨"ex:p"⟩, .blank ⟨label⟩, .defaultGraph⟩]],
      some ⟨.ofList [("origin", .string "b0")], .ofList []⟩⟩
    [⟨.blank ⟨"pair"⟩, .iri ⟨"ex:first"⟩, .var ⟨column⟩, .defaultGraph⟩,
      ⟨.blank ⟨"pair"⟩, .iri ⟨"ex:second"⟩, .var ⟨column'⟩, .defaultGraph⟩])

/-- The columns of the second operation are in another order, and its blank node has the label that
the first gives to the nodes of its template. -/
theorem corresponds_canonicalize_pairsLeading :
    (pairsLeading "x" "y" "b0").fitsNaming = true
      ∧ (pairsLeading "x" "y" "b0").canonicalize true
        = (pairsLeading "t" "s" "pair").canonicalize true
      ∧ ∃ rename : LocalName → LocalName,
        (pairsLeading "x" "y" "b0").Corresponds
          (fun name other => name ∈ (pairsLeading "x" "y" "b0").localNames ∧ other = rename name)
          (pairsLeading "t" "s" "pair") := by
  have fits : (pairsLeading "x" "y" "b0").fitsNaming = true := by decide +kernel
  have fits' : (pairsLeading "t" "s" "pair").fitsNaming = true := by decide +kernel
  have same : (pairsLeading "x" "y" "b0").canonical true
      = (pairsLeading "t" "s" "pair").canonical true := by
    decide +kernel
  have done : (pairsLeading "x" "y" "b0").canonicalize true
      = (pairsLeading "t" "s" "pair").canonicalize true := by
    rw [canonicalize_of_fitsNaming true fits, canonicalize_of_fitsNaming true fits', same]
  obtain ⟨names, canonical, isCanonical, _, _, _, others⟩ :=
    corresponds_canonicalize true (pairsLeading "x" "y" "b0") fits
  obtain ⟨rename, _, _, correspond⟩ :=
    others (pairsLeading "t" "s" "pair") rfl (done.symm.trans isCanonical)
  exact ⟨fits, done, rename, correspond⟩

end Operation

end QueryAlgebra
