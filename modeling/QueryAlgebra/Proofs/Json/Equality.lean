import QueryAlgebra.Json
import QueryAlgebra.Proofs.NameMap

/-! # Equality of JSON values

Two values are equal if they have one normal form: the members of an object have no order, and zero
has no sign. What is found under a key determines an object (`Json.object_normal_iff`), and an
object that lists the entries of a map determines the map (`Json.keyed_injective`).
-/

namespace QueryAlgebra

/-- The number, without the sign of zero. -/
def Binary64.withoutZeroSign (number : Binary64) : Binary64 :=
  if number.isZero then ⟨0⟩ else number

theorem Binary64.isFinite_withoutZeroSign {number : Binary64} (finite : number.isFinite = true) :
    number.withoutZeroSign.isFinite = true := by
  unfold withoutZeroSign
  split
  · rfl
  · exact finite

@[simp] theorem Binary64.withoutZeroSign_withoutZeroSign (number : Binary64) :
    number.withoutZeroSign.withoutZeroSign = number.withoutZeroSign := by
  by_cases isZero : number.isZero = true
  · have isFirst : number.withoutZeroSign = ⟨0⟩ := if_pos isZero
    rw [isFirst]
    rfl
  · have itself : number.withoutZeroSign = number := if_neg isZero
    rw [itself, itself]

namespace Json

mutual

/-- The normal form of a value: the members of objects are listed in the order of their keys, the
first with a given key alone, and zero has no sign. -/
def normal : Json → Json
  | .null => .null
  | .bool value => .bool value
  | .number value => .number value
  | .real value finite => .real value.withoutZeroSign (Binary64.isFinite_withoutZeroSign finite)
  | .string text => .string text
  | .array items => .array (normalItems items)
  | .object members => .object (normalMembers members).entries

/-- The normal forms of the items of an array. -/
def normalItems : List Json → List Json
  | [] => []
  | item :: rest => item.normal :: normalItems rest

/-- The normal forms of the members of an object. -/
def normalMembers : List (String × Json) → NameMap Json
  | [] => .empty
  | (key, value) :: rest => (normalMembers rest).insert key value.normal

end

theorem normalItems_eq_map (items : List Json) : normalItems items = items.map normal := by
  induction items with
  | nil => rfl
  | cons item rest ih => rw [normalItems, ih, List.map_cons]

/-- What is found under a key of an object, in normal form. -/
theorem find?_normalMembers (members : List (String × Json)) (key : String) :
    (normalMembers members).find? key = (members.lookup key).map normal := by
  induction members with
  | nil => rfl
  | cons member rest ih =>
    obtain ⟨name, value⟩ := member
    rw [normalMembers, NameMap.find?_insert, List.lookup_cons]
    by_cases same : key = name
    · simp [same]
    · rw [if_neg (Ne.symm same), beq_eq_false_iff_ne.2 same, ih]

/-- The same is found under every key. -/
def SameMembers (first second : List (String × Json)) : Prop :=
  ∀ key, (first.lookup key).map normal = (second.lookup key).map normal

theorem normalMembers_eq_iff {first second : List (String × Json)} :
    normalMembers first = normalMembers second ↔ SameMembers first second := by
  simp only [SameMembers, ← find?_normalMembers]
  exact ⟨fun same key => by rw [same], NameMap.ext_find?⟩

theorem object_normal_iff {first second : List (String × Json)} :
    (object first).normal = (object second).normal ↔ SameMembers first second := by
  rw [normal, normal, object.injEq, ← normalMembers_eq_iff]
  exact ⟨NameMap.ext, congrArg _⟩

/-- Optional members are found under their own name alone. -/
theorem lookup_optionalMember (key name : String) (value : Option Json) :
    (optionalMember name value).lookup key = if key = name then value else none := by
  cases value with
  | none => simp [optionalMember]
  | some json =>
    by_cases same : key = name
    · simp [optionalMember, same]
    · simp [optionalMember, List.lookup_cons, same, beq_eq_false_iff_ne.2 same]

/-- What is found among the entries of a map is found in the map. -/
theorem lookup_entries_eq {α : Type} (m : NameMap α) (key : String) :
    m.entries.lookup key = m.find? key := by
  rw [NameMap.find?]
  induction m.entries with
  | nil => rfl
  | cons entry rest ih =>
    rw [List.lookup_cons, List.find?_cons, ih]
    by_cases same : entry.1 = key
    · simp [same]
    · rw [beq_eq_false_iff_ne.2 same, beq_eq_false_iff_ne.2 (Ne.symm same)]

theorem SameMembers.refl (members : List (String × Json)) : SameMembers members members :=
  fun _ => rfl

theorem SameMembers.cons {key : String} {value value' : Json}
    {members members' : List (String × Json)} (same : value.normal = value'.normal)
    (rest : SameMembers members members') :
    SameMembers ((key, value) :: members) ((key, value') :: members') := fun other => by
  rw [List.lookup_cons, List.lookup_cons]
  split
  · exact congrArg some same
  · exact rest other

theorem SameMembers.append {first first' second second' : List (String × Json)}
    (ofFirst : SameMembers first first') (ofSecond : SameMembers second second') :
    SameMembers (first ++ second) (first' ++ second') := fun key => by
  rw [List.lookup_append, List.lookup_append, Option.map_or, Option.map_or, ofFirst key,
    ofSecond key]

theorem SameMembers.optional {key : String} {value value' : Option Json}
    (same : value.map normal = value'.map normal) :
    SameMembers (optionalMember key value) (optionalMember key value') := fun other => by
  rw [lookup_optionalMember, lookup_optionalMember]
  split
  · exact same
  · rfl

mutual

/-- A value is equal to its normal form. -/
@[simp] theorem normal_normal : ∀ value : Json, value.normal.normal = value.normal
  | .null | .bool _ | .number _ | .string _ => rfl
  | .real value _ => by
    simp only [normal, Binary64.withoutZeroSign_withoutZeroSign]
  | .array items => congrArg array (normalItems_normalItems items)
  | .object members => congrArg (fun m => object (NameMap.entries m))
      (normalMembers_normalMembers members)

theorem normalItems_normalItems : ∀ items : List Json,
    normalItems (normalItems items) = normalItems items
  | [] => rfl
  | item :: rest => congrArg₂ List.cons (normal_normal item) (normalItems_normalItems rest)

theorem normalMembers_normalMembers : ∀ members : List (String × Json),
    normalMembers (normalMembers members).entries = normalMembers members
  | [] => rfl
  | (key, value) :: rest => by
    have ofRest := normalMembers_normalMembers rest
    refine NameMap.ext_find? fun other => ?_
    have found := congrArg (NameMap.find? · other) ofRest
    simp only [find?_normalMembers, lookup_entries_eq] at found
    rw [find?_normalMembers, lookup_entries_eq, normalMembers, NameMap.find?_insert]
    split
    · exact congrArg some (normal_normal value)
    · rw [find?_normalMembers, found]

end

theorem string_normal {text text' : String} (same : (string text).normal = (string text').normal) :
    text = text' := by
  simpa [normal] using same

/-- Objects of the same members agree in what can be read off a tag. -/
theorem read_of_sameMembers {α β : Type} {members : α → List (String × Json)}
    {what : α → β} (key : String) (read : String → β)
    (tagged : ∀ x, ∃ tag, (members x).lookup key = some (.string tag) ∧ what x = read tag)
    {first second : α} (same : SameMembers (members first) (members second)) :
    what first = what second := by
  obtain ⟨tag, found, isRead⟩ := tagged first
  obtain ⟨tag', found', isRead'⟩ := tagged second
  have tags := same key
  rw [found, found'] at tags
  rw [isRead, isRead', string_normal (Option.some.inj tags)]

theorem bool_normal {value value' : Bool} (same : (bool value).normal = (bool value').normal) :
    value = value' := by
  simpa [normal] using same

theorem number_normal {n m : Nat} (same : (number n).normal = (number m).normal) : n = m := by
  simpa only [normal, number.injEq, Int.natCast_inj] using same

theorem array_cons {item item' : Json} {rest rest' : List Json}
    (same : (array (item :: rest)).normal = (array (item' :: rest')).normal) :
    item.normal = item'.normal ∧ (array rest).normal = (array rest').normal := by
  simpa [normal, normalItems] using same

/-- Lists are equal if their arrays are, where their items are told apart. -/
theorem array_injective {α : Type} {toJson : α → Json}
    (injective : ∀ x y, (toJson x).normal = (toJson y).normal → x = y) {first second : List α}
    (same : (array (first.map toJson)).normal = (array (second.map toJson)).normal) :
    first = second := by
  rw [normal, normal, array.injEq, normalItems_eq_map, normalItems_eq_map, List.map_map,
    List.map_map] at same
  exact List.map_injective_iff.2 (fun x y => injective x y) same

/-- Optional values are equal if they are found alike, where values are told apart. -/
theorem optional_injective {α : Type} {toJson : α → Json}
    (injective : ∀ x y, (toJson x).normal = (toJson y).normal → x = y) {first second : Option α}
    (same : (first.map toJson).map normal = (second.map toJson).map normal) : first = second := by
  rw [Option.map_map, Option.map_map] at same
  exact Option.map_injective (fun x y => injective x y) same

/-- What is found in an object that lists the entries of a map, under keys made of theirs. -/
theorem lookup_entries {α : Type} {keyOf : String → String} (distinct : keyOf.Injective)
    (toJson : α → Json) (m : NameMap α) (key : String) :
    (m.entries.map fun entry => (keyOf entry.1, toJson entry.2)).lookup (keyOf key)
      = (m.find? key).map toJson := by
  rw [NameMap.find?]
  induction m.entries with
  | nil => rfl
  | cons entry rest ih =>
    rw [List.map_cons, List.lookup_cons, List.find?_cons]
    by_cases same : entry.1 = key
    · simp [same]
    · have other : keyOf key ≠ keyOf entry.1 := fun equal => same (distinct equal).symm
      rw [beq_eq_false_iff_ne.2 other, beq_eq_false_iff_ne.2 same, ih]

/-- Maps are equal if the objects that list their entries are, where values are told apart. -/
theorem keyed_injective {α : Type} {keyOf : String → String} (distinct : keyOf.Injective)
    {toJson : α → Json} (injective : ∀ x y, (toJson x).normal = (toJson y).normal → x = y)
    {m n : NameMap α}
    (same : (object (m.entries.map fun entry => (keyOf entry.1, toJson entry.2))).normal
      = (object (n.entries.map fun entry => (keyOf entry.1, toJson entry.2))).normal) : m = n := by
  refine NameMap.ext_find? fun key => optional_injective injective ?_
  rw [← lookup_entries distinct, ← lookup_entries distinct]
  exact object_normal_iff.1 same (keyOf key)

end Json

end QueryAlgebra
