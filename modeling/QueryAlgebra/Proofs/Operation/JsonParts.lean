import QueryAlgebra.Node
import QueryAlgebra.Operation.JsonForm
import QueryAlgebra.Proofs.Json.Equality

/-! # JSON forms of the parts of operations

Terms, patterns, rows, paths, targets and metadata are told apart by their JSON forms.
-/

namespace QueryAlgebra

open Json (SameMembers)

/-! ### Terms -/

theorem NamedNode.toJson_injective (first second : NamedNode)
    (same : first.toJson.normal = second.toJson.normal) : first = second := by
  have found := Json.object_normal_iff.1 same
  exact congrArg NamedNode.mk (Json.string_normal (Option.some.inj (found "value")))

theorem Variable.toJson_injective (first second : Variable)
    (same : first.toJson.normal = second.toJson.normal) : first = second := by
  have found := Json.object_normal_iff.1 same
  exact congrArg Variable.mk (Json.string_normal (Option.some.inj (found "value")))

/-- The members of the object of a term. -/
private def Term.members : Term → List (String × Json)
  | .iri node => [("termType", .string "NamedNode"), ("value", .string node.iri)]
  | .blank node => [("termType", .string "BlankNode"), ("value", .string node.label)]
  | .literal text =>
    [("termType", .string "Literal"), ("value", .string text.value)]
      ++ Json.optionalMember "language" (text.language.map .string)
      ++ [("datatype", text.datatype.toJson)]
  | .var name => [("termType", .string "Variable"), ("value", .string name.name)]
  | .defaultGraph => [("termType", .string "DefaultGraph"), ("value", .string "")]
  | .quad subject predicate object graph =>
    [("termType", .string "Quad"), ("subject", subject.toJson), ("predicate", predicate.toJson),
      ("object", object.toJson), ("graph", graph.toJson)]

private theorem Term.toJson_eq (term : Term) : term.toJson = .object term.members := by
  cases term <;> rfl

/-- Literals have their text, language and datatype under three keys. -/
private theorem Term.lookup_literal (text : Literal) :
    (Term.literal text).members.lookup "value" = some (.string text.value)
      ∧ (Term.literal text).members.lookup "language" = text.language.map .string
      ∧ (Term.literal text).members.lookup "datatype" = some text.datatype.toJson := by
  obtain ⟨_, language, _⟩ := text
  cases language <;> exact ⟨rfl, rfl, rfl⟩

private theorem Term.literal_of_members {text text' : Literal}
    (same : SameMembers (Term.literal text).members (Term.literal text').members) :
    text = text' := by
  obtain ⟨value, language, datatype⟩ := lookup_literal text
  obtain ⟨value', language', datatype'⟩ := lookup_literal text'
  have values := same "value"
  have languages := same "language"
  have datatypes := same "datatype"
  rw [value, value'] at values
  rw [language, language'] at languages
  rw [datatype, datatype'] at datatypes
  obtain ⟨_, _, _⟩ := text
  obtain ⟨_, _, _⟩ := text'
  obtain rfl := Json.string_normal (Option.some.inj values)
  obtain rfl := Json.optional_injective (fun _ _ => Json.string_normal) languages
  obtain rfl := NamedNode.toJson_injective _ _ (Option.some.inj datatypes)
  rfl

/-- Terms with equal objects are made by one constructor, of the same under every key. -/
private theorem Term.same_members {first second : Term}
    (same : first.toJson.normal = second.toJson.normal) :
    first.ctorIdx = second.ctorIdx ∧ SameMembers first.members second.members := by
  rw [toJson_eq, toJson_eq, Json.object_normal_iff] at same
  refine ⟨Json.read_of_sameMembers "termType"
    ["NamedNode", "BlankNode", "Literal", "Variable", "DefaultGraph", "Quad"].idxOf
    (fun term => ?_) same, same⟩
  cases term <;> exact ⟨_, rfl, rfl⟩

mutual

private theorem Term.eq_of_members : ∀ first second : Term, first.ctorIdx = second.ctorIdx →
    SameMembers first.members second.members → first = second
  | .iri _, .iri _, _, members =>
    congrArg (Term.iri ⟨·⟩) (Json.string_normal (Option.some.inj (members "value")))
  | .blank _, .blank _, _, members =>
    congrArg (Term.blank ⟨·⟩) (Json.string_normal (Option.some.inj (members "value")))
  | .literal _, .literal _, _, members => congrArg Term.literal (Term.literal_of_members members)
  | .var _, .var _, _, members =>
    congrArg (Term.var ⟨·⟩) (Json.string_normal (Option.some.inj (members "value")))
  | .defaultGraph, .defaultGraph, _, _ => rfl
  | .quad subject predicate object graph, .quad subject' predicate' object' graph', _, members => by
    rw [Term.toJson_injective subject subject' (Option.some.inj (members "subject")),
      Term.toJson_injective predicate predicate' (Option.some.inj (members "predicate")),
      Term.toJson_injective object object' (Option.some.inj (members "object")),
      Term.toJson_injective graph graph' (Option.some.inj (members "graph"))]

/-- Terms are told apart by their objects. -/
theorem Term.toJson_injective (first second : Term)
    (same : first.toJson.normal = second.toJson.normal) : first = second :=
  Term.eq_of_members first second (Term.same_members same).1 (Term.same_members same).2

end

/-! ### Patterns and rows -/

theorem Pattern.toJson_injective (first second : Pattern)
    (same : first.toJson.normal = second.toJson.normal) : first = second := by
  have members := Json.object_normal_iff.1 same
  have subjects := Term.toJson_injective _ _ (Option.some.inj (members "subject"))
  have predicates := Term.toJson_injective _ _ (Option.some.inj (members "predicate"))
  have objects := Term.toJson_injective _ _ (Option.some.inj (members "object"))
  have graphs := Term.toJson_injective _ _ (Option.some.inj (members "graph"))
  obtain ⟨_, _, _, _⟩ := first
  obtain ⟨_, _, _, _⟩ := second
  exact (Pattern.mk.injEq ..).mpr ⟨subjects, predicates, objects, graphs⟩

theorem patternsToJson_injective {first second : List Pattern}
    (same : (patternsToJson first).normal = (patternsToJson second).normal) : first = second :=
  Json.array_injective Pattern.toJson_injective same

theorem rowToJson_injective (first second : Row)
    (same : (rowToJson first).normal = (rowToJson second).normal) : first = second :=
  Json.keyed_injective (fun _ _ => String.append_right_inj "?" |>.1) Term.toJson_injective same

/-! ### Paths -/

/-- The members of the object of a path. -/
private def Path.members : Path → List (String × Json)
  | .link predicate => [("type", .string "link"), ("iri", predicate.toJson)]
  | .inverse path => [("type", .string "inv"), ("path", path.toJson)]
  | .seq steps => [("type", .string "seq"), ("input", .array (Path.allToJson steps))]
  | .alt branches => [("type", .string "alt"), ("input", .array (Path.allToJson branches))]
  | .zeroOrMore path => [("type", .string "ZeroOrMorePath"), ("path", path.toJson)]
  | .oneOrMore path => [("type", .string "OneOrMorePath"), ("path", path.toJson)]
  | .zeroOrOne path => [("type", .string "ZeroOrOnePath"), ("path", path.toJson)]
  | .negated predicates =>
    [("type", .string "nps"), ("iris", .array (predicates.map NamedNode.toJson))]

/-- Paths with equal objects are made by one constructor, of the same under every key. -/
private theorem Path.same_members {first second : Path}
    (same : first.toJson.normal = second.toJson.normal) :
    first.ctorIdx = second.ctorIdx ∧ SameMembers first.members second.members := by
  have toJson_eq (path : Path) : path.toJson = .object path.members := by
    cases path <;> rw [toJson, members]
  rw [toJson_eq, toJson_eq, Json.object_normal_iff] at same
  refine ⟨Json.read_of_sameMembers "type"
    ["link", "inv", "seq", "alt", "ZeroOrMorePath", "OneOrMorePath", "ZeroOrOnePath", "nps"].idxOf
    (fun path => ?_) same, same⟩
  cases path <;> exact ⟨_, rfl, rfl⟩

mutual

private theorem Path.eq_of_members : ∀ first second : Path, first.ctorIdx = second.ctorIdx →
    SameMembers first.members second.members → first = second
  | .link _, .link _, _, members =>
    congrArg Path.link (NamedNode.toJson_injective _ _ (Option.some.inj (members "iri")))
  | .inverse path, .inverse _, _, members =>
    congrArg Path.inverse (Path.toJson_injective path _ (Option.some.inj (members "path")))
  | .seq steps, .seq _, _, members =>
    congrArg Path.seq (Path.allToJson_injective steps _ (Option.some.inj (members "input")))
  | .alt branches, .alt _, _, members =>
    congrArg Path.alt (Path.allToJson_injective branches _ (Option.some.inj (members "input")))
  | .zeroOrMore path, .zeroOrMore _, _, members =>
    congrArg Path.zeroOrMore (Path.toJson_injective path _ (Option.some.inj (members "path")))
  | .oneOrMore path, .oneOrMore _, _, members =>
    congrArg Path.oneOrMore (Path.toJson_injective path _ (Option.some.inj (members "path")))
  | .zeroOrOne path, .zeroOrOne _, _, members =>
    congrArg Path.zeroOrOne (Path.toJson_injective path _ (Option.some.inj (members "path")))
  | .negated _, .negated _, _, members =>
    congrArg Path.negated
      (Json.array_injective NamedNode.toJson_injective (Option.some.inj (members "iris")))

/-- Paths are told apart by their objects. -/
theorem Path.toJson_injective (first second : Path)
    (same : first.toJson.normal = second.toJson.normal) : first = second :=
  Path.eq_of_members first second (Path.same_members same).1 (Path.same_members same).2

theorem Path.allToJson_injective : ∀ first second : List Path,
    (Json.array (Path.allToJson first)).normal = (Json.array (Path.allToJson second)).normal →
    first = second
  | [], [], _ => rfl
  | path :: rest, path' :: rest', same => by
    obtain ⟨head, others⟩ := Json.array_cons same
    rw [Path.toJson_injective path path' head, Path.allToJson_injective rest rest' others]

end

/-! ### Updates of whole graphs -/

theorem GraphTarget.toJson_injective {first second : GraphTarget}
    (same : first.toJson.normal = second.toJson.normal) : first = second := by
  cases first with
  | graph name =>
    cases second with
    | graph name' => exact congrArg graph (NamedNode.toJson_injective _ _ same)
    | _ => cases same
  | _ =>
    cases second with
    | graph => cases same
    | _ => first | rfl | exact absurd (Json.string_normal same) (by decide)

/-- An update that loads a graph has its members under three keys. -/
private theorem GraphAction.lookup_load (source : NamedNode) (destination : Option NamedNode)
    (silent : Bool) :
    (load source destination silent).members.lookup "source" = some source.toJson
      ∧ (load source destination silent).members.lookup "destination"
        = destination.map NamedNode.toJson
      ∧ (load source destination silent).members.lookup "silent" = some (.bool silent) := by
  cases destination <;> exact ⟨rfl, rfl, rfl⟩

/-- Updates of one kind are made by one constructor. -/
theorem GraphAction.ctorIdx_of_kind {first second : GraphAction}
    (same : first.kind = second.kind) : first.ctorIdx = second.ctorIdx := by
  have ofKind (action : GraphAction) :
      action.ctorIdx = [NodeKind.load, .clear, .drop, .create].idxOf action.kind := by
    cases action with
    | transfer how => cases how <;> rfl
    | _ => rfl
  rw [ofKind, ofKind, same]

/-- Updates of whole graphs are told apart by their kinds and members. -/
theorem GraphAction.eq_of_members : ∀ {first second : GraphAction}, first.kind = second.kind →
    first.ctorIdx = second.ctorIdx → SameMembers first.members second.members → first = second
  | .load source destination silent, .load source' destination' silent', _, _, members => by
    obtain ⟨atSource, atDestination, atSilent⟩ := lookup_load source destination silent
    obtain ⟨atSource', atDestination', atSilent'⟩ := lookup_load source' destination' silent'
    have sources := members "source"
    have destinations := members "destination"
    have silents := members "silent"
    rw [atSource, atSource'] at sources
    rw [atDestination, atDestination'] at destinations
    rw [atSilent, atSilent'] at silents
    rw [NamedNode.toJson_injective _ _ (Option.some.inj sources),
      Json.optional_injective NamedNode.toJson_injective destinations,
      Json.bool_normal (Option.some.inj silents)]
  | .clear _ _, .clear _ _, _, _, members | .drop _ _, .drop _ _, _, _, members => by
    rw [GraphTarget.toJson_injective (Option.some.inj (members "source")),
      Json.bool_normal (Option.some.inj (members "silent"))]
  | .create _ _, .create _ _, _, _, members => by
    rw [NamedNode.toJson_injective _ _ (Option.some.inj (members "source")),
      Json.bool_normal (Option.some.inj (members "silent"))]
  | .transfer how _ _ _, .transfer how' _ _ _, sameKind, _, members => by
    have sameHow : how = how' := by
      cases how <;> cases how' <;> first | rfl | cases sameKind
    rw [sameHow, GraphTarget.toJson_injective (Option.some.inj (members "source")),
      GraphTarget.toJson_injective (Option.some.inj (members "destination")),
      Json.bool_normal (Option.some.inj (members "silent"))]

/-! ### Wrappers -/

/-- A slice has its members under two keys. -/
private theorem Wrapper.lookup_slice (start : Nat) (length : Option Nat) :
    (slice start length).members.lookup "start" = some (.number start)
      ∧ (slice start length).members.lookup "length"
        = length.map fun n : Nat => Json.number n := by
  cases length <;> exact ⟨rfl, rfl⟩

/-- Wrappers are told apart by their kinds and members. -/
theorem Wrapper.eq_of_members : ∀ {first second : Wrapper}, first.kind = second.kind →
    SameMembers first.members second.members → first = second
  | .project _, .project _, _, members => by
    rw [Json.array_injective Variable.toJson_injective (Option.some.inj (members "variables"))]
  | .graph _, .graph _, _, members => by
    rw [Term.toJson_injective _ _ (Option.some.inj (members "name"))]
  | .service _ _, .service _ _, _, members => by
    rw [Term.toJson_injective _ _ (Option.some.inj (members "name")),
      Json.bool_normal (Option.some.inj (members "silent"))]
  | .slice start length, .slice start' length', _, members => by
    obtain ⟨atStart, atLength⟩ := lookup_slice start length
    obtain ⟨atStart', atLength'⟩ := lookup_slice start' length'
    have starts := members "start"
    have lengths := members "length"
    rw [atStart, atStart'] at starts
    rw [atLength, atLength'] at lengths
    rw [Json.number_normal (Option.some.inj starts),
      Json.optional_injective (fun _ _ => Json.number_normal) lengths]
  | .dataset _ _, .dataset _ _, _, members => by
    rw [Json.array_injective NamedNode.toJson_injective (Option.some.inj (members "default")),
      Json.array_injective NamedNode.toJson_injective (Option.some.inj (members "named"))]
  | .describe _, .describe _, _, members => by
    rw [Json.array_injective Term.toJson_injective (Option.some.inj (members "terms"))]
  | .distinct, .distinct, _, _ | .reduced, .reduced, _, _ | .ask, .ask, _, _ => rfl

/-! ### Metadata -/

theorem NodeReference.toJson_injective (first second : NodeReference)
    (same : first.toJson.normal = second.toJson.normal) : first = second := by
  have members := Json.object_normal_iff.1 same
  obtain ⟨up, down⟩ := first
  obtain ⟨up', down'⟩ := second
  rw [show up = up' from Json.number_normal (Option.some.inj (members "up")),
    show down = down' from
      Json.array_injective (fun _ _ => Json.number_normal) (Option.some.inj (members "down"))]

/-- The metadata with its data in normal form. -/
def Metadata.normal (metadata : Metadata) : Metadata :=
  ⟨Json.normalMembers metadata.data.entries, metadata.links⟩

/-- Empty data and links have no member. -/
private theorem Metadata.lookup_toJson (metadata : Metadata) :
    ∃ members, metadata.toJson = .object members
      ∧ members.lookup "data"
        = (if metadata.data.isEmpty then none else some (.object metadata.data.entries))
      ∧ members.lookup "links"
        = if metadata.links.isEmpty then none
          else some (.object (metadata.links.entries.map fun link => (link.1, link.2.toJson))) := by
  refine ⟨_, rfl, ?_, ?_⟩
  · split <;> split <;> rfl
  · split <;> split <;> rfl

private theorem isEmpty_iff {α : Type} {m : NameMap α} : m.isEmpty = true ↔ m.entries = [] :=
  List.isEmpty_iff

/-- Metadata with equal objects is equal, but for the order of members inside its data. -/
theorem Metadata.normal_of_toJson {first second : Metadata}
    (same : first.toJson.normal = second.toJson.normal) : first.normal = second.normal := by
  obtain ⟨members, isObject, atData, atLinks⟩ := first.lookup_toJson
  obtain ⟨members', isObject', atData', atLinks'⟩ := second.lookup_toJson
  rw [isObject, isObject', Json.object_normal_iff] at same
  have data := same "data"
  have links := same "links"
  rw [atData, atData'] at data
  rw [atLinks, atLinks'] at links
  have sameData : Json.normalMembers first.data.entries
      = Json.normalMembers second.data.entries := by
    split at data <;> split at data
    · rename_i isEmpty isEmpty'
      rw [isEmpty_iff.1 isEmpty, isEmpty_iff.1 isEmpty']
    · cases data
    · cases data
    · exact NameMap.ext (Json.object.inj (Option.some.inj data))
  have sameLinks : first.links = second.links := by
    split at links <;> split at links
    · rename_i isEmpty isEmpty'
      exact NameMap.ext ((isEmpty_iff.1 isEmpty).trans (isEmpty_iff.1 isEmpty').symm)
    · cases links
    · cases links
    · exact Json.keyed_injective Function.injective_id NodeReference.toJson_injective
        (Option.some.inj links)
  rw [Metadata.normal, Metadata.normal, sameData, sameLinks]

private theorem isEmpty_insert {α : Type} (m : NameMap α) (key : String) (value : α) :
    (m.insert key value).isEmpty = false := by
  rw [NameMap.isEmpty, List.isEmpty_eq_false_iff]
  show NameMap.insertEntry key value m.entries ≠ []
  cases m.entries with
  | nil => exact List.cons_ne_nil _ _
  | cons entry rest =>
    rw [NameMap.insertEntry]
    split
    · exact List.cons_ne_nil _ _
    · split
      · exact List.cons_ne_nil _ _
      · exact List.cons_ne_nil _ _

private theorem isEmpty_normalMembers (data : NameMap Json) :
    (Json.normalMembers data.entries).isEmpty = data.isEmpty := by
  obtain ⟨entries, sorted⟩ := data
  cases entries with
  | nil => rfl
  | cons entry rest => exact isEmpty_insert ..

/-- Metadata has the same object with its data in normal form. -/
theorem Metadata.toJson_normal (metadata : Metadata) :
    metadata.normal.toJson.normal = metadata.toJson.normal := by
  rw [toJson, toJson, Json.object_normal_iff]
  refine .append ?_ (.refl _)
  rw [Metadata.normal, isEmpty_normalMembers]
  split
  · exact .refl _
  · refine .cons (Json.object_normal_iff.2 ?_) (.refl _)
    rw [← Json.normalMembers_eq_iff, Json.normalMembers_normalMembers]

end QueryAlgebra
