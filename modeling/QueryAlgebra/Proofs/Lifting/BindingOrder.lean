import QueryAlgebra.Proofs.Lifting.Clauseless
import QueryAlgebra.Proofs.Lifting.QueryRereading
import QueryAlgebra.Proofs.Lifting.StarProjections

/-! # The order in which values are bound

Values that are bound right below a projection, with graph blocks between them, leave their places
when the projection is written: those of variables that are shown are computed by the query, in the
order in which these are shown, and the others are bound at the end of its pattern, outside all
graph blocks. `Operation.relowered_extended` says which pairs keep their order when that is read
again, and which values stay within the same graphs.
-/

namespace QueryAlgebra

open Lowering (Yields)
open Surface (SelectItem)

mutual

/-- The variables that values are bound to on top of an operation, with nothing but graph blocks
between, the innermost first. -/
def Operation.extended : Operation → List Variable
  | ⟨operator, _⟩ => operator.extended

/-- The variables that values are bound to by an operator and right below it. -/
def Operator.extended : Operator → List Variable
  | .extend input name _ => input.extended ++ [name]
  | .wrap (.graph _) input => input.extended
  | _ => []

end

mutual

/-- The names of the graph blocks around the place where a value is bound to a variable. -/
def Operation.graphsAround (name : Variable) : Operation → List Term
  | ⟨operator, _⟩ => operator.graphsAround name

/-- The names of the graph blocks around that place, from an operator on. -/
def Operator.graphsAround (name : Variable) : Operator → List Term
  | .extend input other _ => if other = name then [] else input.graphsAround name
  | .wrap (.graph graph) input => graph :: input.graphsAround name
  | .filter input _ => input.graphsAround name
  | .group input _ _ => input.graphsAround name
  | _ => []

end

namespace Operation

/-- The first operation is the second one with values bound to variables, the innermost first, and
with nothing but filters and groups between. -/
inductive BindsOver : Operation → List Variable → Operation → Prop
  | refl (operation : Operation) : BindsOver operation [] operation
  | extend {operation base : Operation} {names : List Variable} (name : Variable)
    (value : Expression) : BindsOver operation names base →
    BindsOver (.of (.extend operation name value)) (names ++ [name]) base
  | filter {operation base : Operation} {names : List Variable} (condition : Expression) :
    BindsOver operation names base → BindsOver (.of (.filter operation condition)) names base
  | group {operation base : Operation} {names : List Variable} (keys : List Variable)
    (aggregates : List BoundAggregate) : BindsOver operation names base →
    BindsOver (.of (.group operation keys aggregates)) names base

namespace BindsOver

variable {operation middle base : Operation} {names inner outer : List Variable}

theorem trans (first : operation.BindsOver outer middle) (second : middle.BindsOver inner base) :
    operation.BindsOver (inner ++ outer) base := by
  induction first with
  | refl => rwa [List.append_nil]
  | extend name value _ ih =>
    rw [← List.append_assoc]
    exact .extend name value (ih second)
  | filter condition _ ih => exact .filter condition (ih second)
  | group keys aggregates _ ih => exact .group keys aggregates (ih second)

theorem bindings (bindings : Bindings) (operation : Operation) :
    (bindings.extend operation).BindsOver (bindings.map (·.1)) operation := by
  induction bindings generalizing operation with
  | nil => exact .refl operation
  | cons entry rest ih => exact (ih _).trans (.extend entry.1 entry.2 (.refl operation))

theorem filtered (filters : List Expression) (operation : Operation) :
    (filtered operation filters).BindsOver [] operation := by
  unfold QueryAlgebra.filtered
  split
  · exact .filter _ (.refl operation)
  · exact .refl operation

/-- Replacing blank nodes changes nothing about what is bound. -/
theorem replaceBlanks (binds : operation.BindsOver names base) (replace : String → Term) :
    (operation.replaceBlanks replace).BindsOver names (base.replaceBlanks replace) := by
  induction binds with
  | refl => exact .refl _
  | extend name value _ ih => exact .extend name _ ih
  | filter condition _ ih => exact .filter _ ih
  | group keys aggregates _ ih => exact .group keys _ ih

/-- No graph block is around the values. -/
theorem graphsAround (binds : operation.BindsOver names base) {name : Variable}
    (member : name ∈ names) : operation.graphsAround name = [] := by
  induction binds with
  | refl => cases member
  | @extend operation base names last value _ ih =>
    show (if last = name then [] else operation.graphsAround name) = []
    split
    · rfl
    · rename_i other
      refine ih ((List.mem_append.1 member).resolve_right fun isLast => ?_)
      exact other (List.mem_singleton.1 isLast).symm
  | filter condition _ ih => exact ih member
  | group keys aggregates _ ih => exact ih member

end BindsOver

end Operation

/-! ### Values below a form -/

/-- Whether the query form around an operator reaches its input. -/
def Operator.seesThrough : Operator → Bool
  | .wrap (.graph _) _ => true
  | .extend .. => true
  | .orderBy .. => true
  | _ => false

/-- Only operators that are seen through are written otherwise right below a query form. -/
theorem Operator.written_inForm {operator : Operator} (closed : operator.seesThrough = false) :
    operator.written true = operator.written false := by
  cases operator with
  | wrap wrapper input =>
    cases wrapper <;> first | simp only [Operator.written]; done | cases closed
  | bgp patterns => cases patterns <;> simp only [Operator.written]
  | combine how inputs => cases how <;> simp only [Operator.written]
  | extend | orderBy => cases closed
  | _ => simp only [Operator.written]

theorem Operator.extended_of_closed {operator : Operator} (closed : operator.seesThrough = false) :
    operator.extended = [] := by
  cases operator with
  | wrap wrapper input => cases wrapper <;> first | rfl | cases closed
  | extend => cases closed
  | _ => rfl

/-- Nothing is found but values bound to variables, the outermost first, and nothing in those. -/
structure Found.OnlyValues (names : List Variable) (found : List Found) : Prop where
  names : (extensions found).map (·.1) = names
  values : ∀ entry ∈ extensions found, entry.2.FindsNothing
  aggregates : aggregates found = []
  groupKeys : groupKeys found = []
  orderKeys : orderKeys found = []

theorem Found.OnlyValues.nil : Found.OnlyValues [] [] :=
  ⟨rfl, List.forall_mem_nil _, rfl, rfl, rfl⟩

theorem Found.OnlyValues.cons {names : List Variable} {found : List Found}
    (only : Found.OnlyValues names found) (name : Variable) {value : Collecting Surface.Expression}
    (nothing : value.FindsNothing) :
    Found.OnlyValues (name :: names) (.extension name value.outcome :: found) where
  names := congrArg (name :: ·) only.names
  values := List.forall_mem_cons.2 ⟨nothing, only.values⟩
  aggregates := only.aggregates
  groupKeys := only.groupKeys
  orderKeys := only.orderKeys

/-- What is found does not depend on what an operation is written as. -/
theorem Collecting.Grants.found_asElements {P : List Found → Prop} {lifted : Collecting Lifted}
    (first : lifted.Grants fun _ found => P found) :
    lifted.asElements.Grants fun _ found => P found :=
  first.bind fun lifted found holds => .lift .any fun elements _ => by rwa [List.append_nil]

private theorem findsValues_of_closed {operator : Operator} {metadata : Option Metadata}
    (closed : operator.seesThrough = false)
    (clauseless : Operation.Clauseless ⟨operator, metadata⟩) :
    (operator.written true).Grants fun _ found =>
      Found.OnlyValues operator.extended.reverse found := by
  have nothing : (operator.written false).FindsNothing := clauseless.findsNothing
  rw [Operator.written_inForm closed, Operator.extended_of_closed closed]
  exact nothing.imp fun lifted found none => none ▸ .nil

mutual

/-- Below a query form, the values bound on top of an operation without clauses are found. -/
theorem Operation.Clauseless.findsValues : ∀ {operation : Operation}, operation.Clauseless →
    (operation.written true).Grants fun _ found =>
      Found.OnlyValues operation.extended.reverse found
  | ⟨operator, metadata⟩, clauseless =>
    Operator.findsValues operator metadata clauseless

private theorem Operator.findsValues : ∀ (operator : Operator) (metadata : Option Metadata),
    Operation.Clauseless ⟨operator, metadata⟩ →
    (operator.written true).Grants fun _ found => Found.OnlyValues operator.extended.reverse found
  | .extend input name value, _, clauseless => by
    obtain ⟨ofInput, ofValue⟩ := List.append_eq_nil_iff.1
      ((Operation.clauseless_iff.1 clauseless).2.resolve_left Bool.false_ne_true)
    rw [Operator.written, if_pos rfl]
    refine .note ((Operation.Clauseless.findsValues ofInput).imp fun lifted found only => ?_)
    rw [Operator.extended, List.reverse_append]
    exact only.cons name (Expression.Clauseless.findsNothing ofValue)
  | .wrap (.graph name) input, _, clauseless => by
    have ofInput : input.Clauseless :=
      (Operation.clauseless_iff.1 clauseless).2.resolve_left Bool.false_ne_true
    rw [Operator.written]
    refine .bindLift .any fun written _ => ?_
    refine (Collecting.Grants.found_asElements (Operation.Clauseless.findsValues ofInput)).bind
      fun elements found only => .pure ?_
    rwa [List.append_nil]
  | .orderBy .., _, clauseless => absurd (Operation.clauseless_iff.1 clauseless).1 nofun
  | .bgp _, _, clauseless | .values .., _, clauseless | .nop, _, clauseless
  | .path .., _, clauseless | .manage _, _, clauseless | .wrap (.project _) _, _, clauseless
  | .wrap (.service ..) _, _, clauseless | .wrap .distinct _, _, clauseless
  | .wrap .reduced _, _, clauseless | .wrap (.slice ..) _, _, clauseless
  | .wrap (.dataset ..) _, _, clauseless | .wrap .ask _, _, clauseless
  | .wrap (.describe _) _, _, clauseless | .filter .., _, clauseless
  | .group .., _, clauseless | .construct .., _, clauseless | .combine .., _, clauseless
  | .leftJoin .., _, clauseless | .minus .., _, clauseless | .deleteInsert .., _, clauseless =>
    findsValues_of_closed rfl clauseless

end

theorem Found.findsNothing_writtenExtensions (aggregates : NameMap Surface.Expression)
    {values : List (Variable × Collecting Surface.Expression)}
    (nothing : ∀ entry ∈ values, entry.2.FindsNothing) :
    (writtenExtensions aggregates values).FindsNothing := by
  induction values with
  | nil => exact .pure []
  | cons entry rest ih =>
    obtain ⟨first, others⟩ := List.forall_mem_cons.1 nothing
    exact first.bind fun value => (ih others).bind fun extensions => .pure _

/-- The clauses of a query are the values bound on top of an operation without clauses. -/
theorem Operation.Clauseless.exists_scope {input : Operation} (clauseless : input.Clauseless)
    {scope : QueryScope} (made : (input.written true).asScope = .ok scope) :
    ∃ elements extensions, extensions.map (·.1) = input.extended
      ∧ scope = ⟨Surface.Pattern.groupElements elements, extensions, .empty,
        Surface.Modifiers.none⟩ := by
  obtain ⟨⟨elements, found⟩, outcome, made⟩ := ok_of_bind made
  have only : Found.OnlyValues input.extended.reverse found :=
    clauseless.findsValues.found_asElements.of_ok outcome
  have nothing := Found.findsNothing_writtenExtensions .empty
    fun entry member => only.values entry (List.mem_reverse.1 member)
  have ofClauses : QueryScope.ofFound elements found = .ok scope := made
  obtain ⟨⟨entries, _⟩, ofAggregates, made⟩ := ok_of_bind made
  rw [only.aggregates] at ofAggregates
  cases ofAggregates
  obtain ⟨⟨extensions, more⟩, values, _⟩ := ok_of_bind made
  obtain rfl : more = [] := nothing.of_ok values
  have names := Found.names_writtenExtensions values
  rw [List.map_reverse, only.names, List.reverse_reverse] at names
  have order : Found.writtenOrder .empty (Found.orderKeys found) = pure [] := by
    rw [only.orderKeys]
    rfl
  have same : QueryScope.ofFound elements found = _ := PlainQuery.ofFound_ungrouped
    only.aggregates only.groupKeys (congrArg Collecting.mk values) order
  exact ⟨elements, extensions, names, Except.ok.inj (ofClauses.symm.trans same)⟩

/-! ### Graph names -/

section

variable {change : Rebuild}

/-- A rebuilding after which the same values are bound on top of each operation. -/
structure Rebuild.KeepsExtended (change : Rebuild) : Prop where
  operation (operation : Operation) : (change.operation operation).extended = operation.extended

mutual

theorem Operation.extended_rebuild (keeps : change.KeepsExtended) :
    ∀ operation : Operation, (operation.rebuild change).extended = operation.extended
  | ⟨operator, metadata⟩ => by
    rw [Operation.rebuild]
    split
    · rfl
    · exact (keeps.operation _).trans (Operator.extended_rebuild keeps operator)

private theorem Operator.extended_rebuild (keeps : change.KeepsExtended) :
    ∀ operator : Operator, (operator.rebuild change).extended = operator.extended
  | .extend input name value => by
    rw [Operator.rebuild, Operator.extended, Operator.extended,
      Operation.extended_rebuild keeps input]
  | .wrap (.graph name) input => by
    rw [Operator.rebuild]
    exact Operation.extended_rebuild keeps input
  | .wrap (.project _) _ | .wrap (.service ..) _ | .wrap .distinct _ | .wrap .reduced _
  | .wrap (.slice ..) _ | .wrap (.dataset ..) _ | .wrap .ask _ | .wrap (.describe _) _
  | .bgp _ | .values .. | .nop | .path .. | .manage _ | .filter .. | .group .. | .orderBy ..
  | .construct .. | .combine .. | .leftJoin _ _ none | .leftJoin _ _ (some _) | .minus ..
  | .deleteInsert _ _ none | .deleteInsert _ _ (some _) => by rw [Operator.rebuild] <;> rfl

end

end

namespace Operation

private theorem clearing_keepsExtended (name : Term) : (clearing name).KeepsExtended where
  operation operation := by
    obtain ⟨operator, metadata⟩ := operation
    cases operator <;> rfl

private theorem clearingBlocks_keepsExtended : clearingBlocks.KeepsExtended where
  operation operation := by
    obtain ⟨operator, metadata⟩ := operation
    cases operator with
    | wrap wrapper input =>
      cases wrapper with
      | graph name => exact extended_rebuild (clearing_keepsExtended name) input
      | _ => rfl
    | _ => rfl

private theorem extended_splitByGraph (patterns : List Pattern) :
    (Operator.splitByGraph patterns).extended = [] := by
  rw [Operator.splitByGraph]
  split
  · rfl
  · split
    · rename_i part isOnly
      have member := isOnly ▸ List.mem_singleton_self part
      obtain ⟨⟨name, others⟩, _, rfl⟩ := List.mem_map.1 member
      rw [ofGraphPart]
      split <;> rfl
    · rfl

private theorem wrapping_keepsExtended : wrapping.KeepsExtended where
  operation operation := by
    obtain ⟨operator, metadata⟩ := operation
    cases operator with
    | bgp patterns => exact extended_splitByGraph patterns
    | path subject predicate object graph =>
      show Operation.extended (if graph.isDefaultGraph = true then _ else _) = []
      split <;> rfl
    | _ => rfl

/-- Taking graph names out of an operation leaves the values that are bound on top of it. -/
theorem extended_withoutEmbeddedGraphs (operation : Operation) :
    operation.withoutEmbeddedGraphs.extended = operation.extended :=
  (extended_rebuild wrapping_keepsExtended _).trans
    (extended_rebuild clearingBlocks_keepsExtended operation)

end Operation

/-! ### What is shown and what is left -/

/-- The variable that an item computes. -/
def Surface.SelectItem.computed? : SelectItem → Option Variable
  | .var _ => none
  | .computed _ name => some name

namespace Extensions

/-- A value that is bound to a variable is taken, and the first entry of the variable is gone. -/
theorem take_names (name : Variable) (extensions : Extensions) :
    ((extensions.take name).1.isSome = true ↔ name ∈ extensions.map (·.1))
      ∧ (extensions.take name).2.map (·.1) = (extensions.map (·.1)).erase name := by
  induction extensions with
  | nil => exact ⟨by simp [take], rfl⟩
  | cons entry rest ih =>
    obtain ⟨found, left⟩ := ih
    by_cases same : entry.1 = name
    · simp [take, same]
    · simp only [take, same, if_false, List.map_cons, List.erase_cons, left, List.mem_cons, found]
      simp [same, Ne.symm same]

/-- Of values bound to different variables, those of shown variables are computed where the
variables are first shown, and the others are left in their order. -/
theorem shown_selectItems {extensions : Extensions} (distinct : (extensions.map (·.1)).Nodup)
    (vars : List Variable) :
    let shown := extensions.selectItems .empty vars
    shown.2.map (·.1) = (extensions.map (·.1)).filter (· ∉ vars)
      ∧ (∀ name, name ∈ shown.1.filterMap SelectItem.computed?
        ↔ name ∈ extensions.map (·.1) ∧ name ∈ vars)
      ∧ (shown.1.filterMap SelectItem.computed?).Pairwise
        fun first second => vars.idxOf first < vars.idxOf second := by
  induction vars generalizing extensions with
  | nil => exact ⟨by simp [selectItems], by simp [selectItems], .nil⟩
  | cons name names ih =>
    obtain ⟨found, rest⟩ := take_names name extensions
    have distinctRest : ((extensions.take name).2.map (·.1)).Nodup := rest ▸ distinct.erase name
    rw [distinct.erase_eq_filter] at rest
    obtain ⟨left, members, sorted⟩ := ih distinctRest
    rw [rest] at left members
    have later : ∀ other ∈ ((extensions.take name).2.selectItems .empty names).1.filterMap
        SelectItem.computed?, other ≠ name := by
      intro other member
      have inRest := ((members other).1 member).1
      simpa using (List.mem_filter.1 inRest).2
    have index : ∀ other, other ≠ name → (name :: names).idxOf other = names.idxOf other + 1 :=
      fun other different => List.idxOf_cons_ne _ different.symm
    have sortedAgain := sorted.imp_of_mem (S := fun first second =>
        (name :: names).idxOf first < (name :: names).idxOf second) fun first second less => by
      rw [index _ (later _ first), index _ (later _ second)]
      omega
    have leftAgain : (((extensions.take name).2.selectItems .empty names).2.map (·.1))
        = (extensions.map (·.1)).filter (· ∉ name :: names) := by
      rw [left, List.filter_filter]
      refine List.filter_congr fun other _ => ?_
      rw [Bool.eq_iff_iff]
      simp [and_comm]
    have split (other : Variable) : other ∈ name :: names ∧ other ∈ extensions.map (·.1)
        ↔ (other = name ∧ name ∈ extensions.map (·.1))
          ∨ other ∈ ((extensions.take name).2.selectItems .empty names).1.filterMap
            SelectItem.computed? := by
      rw [members, List.mem_filter, List.mem_cons]
      by_cases same : other = name
      · simp [same]
      · simp [same, and_comm]
    cases value : (extensions.take name).1 with
    | none =>
      have absent : name ∉ extensions.map (·.1) := fun member => by
        rw [← found, value] at member
        cases member
      have computed : (selectItems .empty (name :: names) extensions).1.filterMap
          SelectItem.computed? = ((extensions.take name).2.selectItems .empty names).1.filterMap
            SelectItem.computed? := by
        rw [selectItems, value]
        rfl
      refine ⟨leftAgain, fun other => ?_, computed ▸ sortedAgain⟩
      rw [computed, and_comm, split]
      exact ⟨.inr, fun shown => shown.resolve_left fun isName => absent isName.2⟩
    | some written =>
      have computed : (selectItems .empty (name :: names) extensions).1.filterMap
          SelectItem.computed? = name :: ((extensions.take name).2.selectItems .empty
            names).1.filterMap SelectItem.computed? := by
        rw [selectItems, value]
        rfl
      have present : name ∈ extensions.map (·.1) := found.1 (by rw [value]; rfl)
      refine ⟨leftAgain, fun other => ?_, ?_⟩
      · rw [computed, and_comm, split, List.mem_cons, and_iff_left present]
      · rw [computed, List.pairwise_cons]
        refine ⟨fun other member => ?_, sortedAgain⟩
        rw [List.idxOf_cons_self, index other (later other member)]
        omega

end Extensions

section

variable {α : Type} [DecidableEq α]

private theorem idxOf_filter_lt {keep : α → Bool} {members : List α} {first second : α}
    (ofFirst : keep first = true) (ofSecond : keep second = true) :
    (members.filter keep).idxOf first < (members.filter keep).idxOf second
      ↔ members.idxOf first < members.idxOf second := by
  induction members with
  | nil => rfl
  | cons member rest ih =>
    cases kept : keep member with
    | true =>
      rw [List.filter_cons_of_pos kept]
      grind
    | false =>
      rw [List.filter_cons_of_neg (by simp [kept])]
      grind

private theorem idxOf_lt_of_sorted {rank : α → Nat} {members : List α} {first second : α}
    (sorted : members.Pairwise fun first second => rank first < rank second)
    (ofFirst : first ∈ members) (ofSecond : second ∈ members) :
    members.idxOf first < members.idxOf second ↔ rank first < rank second := by
  induction members with
  | nil => cases ofFirst
  | cons member rest ih =>
    rw [List.pairwise_cons] at sorted
    grind

private theorem perm_of_shown {names taken vars : List α} (distinct : names.Nodup)
    (members : ∀ name, name ∈ taken ↔ name ∈ names ∧ name ∈ vars)
    (sorted : taken.Pairwise fun first second => vars.idxOf first < vars.idxOf second) :
    (names.filter (· ∉ vars) ++ taken).Perm names := by
  have distinctTaken : taken.Nodup := sorted.imp fun less same => by
    rw [same] at less
    exact Nat.lt_irrefl _ less
  have apart : (names.filter (· ∉ vars)).Disjoint taken := fun name left shown => by
    have hidden : name ∉ vars := by simpa using (List.mem_filter.1 left).2
    exact hidden ((members name).1 shown).2
  refine (List.perm_ext_iff_of_nodup ((distinct.filter _).append distinctTaken apart) distinct).2 ?_
  intro name
  rw [List.mem_append, members, List.mem_filter]
  by_cases shown : name ∈ vars <;> simp [shown]

/-- How variables are ordered after those that are not shown are put before those that are, which
are sorted by where they are shown. -/
private theorem idxOf_lt_iff_of_shown {names taken vars : List α}
    (members : ∀ name, name ∈ taken ↔ name ∈ names ∧ name ∈ vars)
    (sorted : taken.Pairwise fun first second => vars.idxOf first < vars.idxOf second)
    {inner outer : α} (ofInner : inner ∈ names) (ofOuter : outer ∈ names)
    (below : names.idxOf inner < names.idxOf outer) :
    (names.filter (· ∉ vars) ++ taken).idxOf inner < (names.filter (· ∉ vars) ++ taken).idxOf outer
      ↔ (inner ∈ vars → outer ∈ vars ∧ vars.idxOf inner < vars.idxOf outer) := by
  have left (name : α) : name ∈ names.filter (· ∉ vars) ↔ name ∈ names ∧ name ∉ vars := by simp
  have indexShown {name : α} (shown : name ∈ vars) :
      (names.filter (· ∉ vars) ++ taken).idxOf name
        = (names.filter (· ∉ vars)).length + taken.idxOf name :=
    List.idxOf_append_of_notMem fun member => ((left name).1 member).2 shown
  have indexHidden {name : α} (ofName : name ∈ names) (hidden : name ∉ vars) :
      (names.filter (· ∉ vars) ++ taken).idxOf name = (names.filter (· ∉ vars)).idxOf name
        ∧ (names.filter (· ∉ vars)).idxOf name < (names.filter (· ∉ vars)).length :=
    have member := (left name).2 ⟨ofName, hidden⟩
    ⟨List.idxOf_append_of_mem member, List.idxOf_lt_length_of_mem member⟩
  by_cases innerShown : inner ∈ vars <;> by_cases outerShown : outer ∈ vars
  · have order := idxOf_lt_of_sorted sorted ((members inner).2 ⟨ofInner, innerShown⟩)
      ((members outer).2 ⟨ofOuter, outerShown⟩)
    rw [indexShown innerShown, indexShown outerShown, Nat.add_lt_add_iff_left, order]
    exact ⟨fun less _ => ⟨outerShown, less⟩, fun both => (both innerShown).2⟩
  · obtain ⟨same, bound⟩ := indexHidden ofOuter outerShown
    rw [indexShown innerShown, same]
    constructor
    · intro less
      omega
    · intro both
      exact absurd (both innerShown).1 outerShown
  · obtain ⟨same, bound⟩ := indexHidden ofInner innerShown
    rw [same, indexShown outerShown]
    exact ⟨fun _ shown => absurd shown innerShown, fun _ => by omega⟩
  · have order : (names.filter (· ∉ vars)).idxOf inner < (names.filter (· ∉ vars)).idxOf outer :=
      (idxOf_filter_lt (by simpa using innerShown) (by simpa using outerShown)).2 below
    rw [(indexHidden ofInner innerShown).1, (indexHidden ofOuter outerShown).1]
    exact ⟨fun _ shown => absurd shown innerShown, fun _ => order⟩

end

/-! ### Reading the query again -/

namespace Context

variable {context : Context}

/-- Values at the end of a group are bound over what comes before. -/
theorem yields_binds (plain : context.MakesPlain) (extensions : Extensions) (before : Operation)
    (filters : List Expression) :
    Yields (fun result => result.1.BindsOver (extensions.map (·.1)) before)
      (context.elements extensions.binds before filters) := by
  induction extensions generalizing before with
  | nil => exact .pure (.refl before)
  | cons entry rest ih =>
    show Yields _ (context.elements (.bind entry.2 entry.1 .none :: Extensions.binds rest) before
      filters)
    rw [elements]
    refine .bind_any fun value => ?_
    intro supply result after made
    have binds := ih _ _ _ _ made
    rw [var_eq plain] at binds
    exact binds.trans (.extend entry.1 value (.refl before))

end Context

/-- A group of patterns that ends with values keeps them at its end. -/
theorem Surface.Pattern.exists_groupOf_binds (elements : List Surface.Pattern)
    (extensions : Extensions) : ∃ front,
    groupOf (elements ++ extensions.binds) = .group (front ++ extensions.binds) .none := by
  cases extensions with
  | nil =>
    refine ⟨groupElements elements, ?_⟩
    rw [Extensions.binds, List.map_nil, List.append_nil, List.append_nil, groupOf]
  | cons entry rest =>
    refine ⟨elements, congrArg (Surface.Pattern.group · .none) ?_⟩
    rw [Extensions.binds, List.map_cons]
    rcases elements with _ | ⟨first, _ | ⟨second, others⟩⟩
    · cases rest <;> rfl
    · cases first <;> rfl
    · cases first <;> rfl

namespace Context

variable {context : Context}

/-- The pattern of a query binds its last values. -/
theorem yields_pattern_binds (plain : context.MakesPlain) (elements : List Surface.Pattern)
    (extensions : Extensions) :
    Yields (fun operation => ∃ base, operation.BindsOver (extensions.map (·.1)) base)
      (context.pattern (Surface.Pattern.groupOf (elements ++ extensions.binds))) := by
  obtain ⟨front, same⟩ := Surface.Pattern.exists_groupOf_binds elements extensions
  rw [same, Context.pattern, elements_append]
  refine .bind (P := fun result => ∃ base, result.1.BindsOver (extensions.map (·.1)) base) ?_ ?_
  · refine .bind_any fun before => ?_
    intro supply result after made
    exact ⟨before.1, yields_binds plain extensions before.1 before.2 _ _ _ made⟩
  · rintro ⟨operation, filters⟩ ⟨base, binds⟩
    refine .pure ⟨base, ?_⟩
    have whole := (Operation.BindsOver.filtered filters operation).trans binds
    rwa [List.append_nil] at whole

/-- The items of a query bind the variables that they compute. -/
theorem yields_selectItems (plain : context.MakesPlain) :
    ∀ (items : List SelectItem) (aggregates : List BoundAggregate),
    Yields (fun result => (Bindings.ofItems result.1).map (·.1)
        = items.filterMap SelectItem.computed?)
      ((context.selectItems items).run aggregates)
  | [], _ => .pure rfl
  | .var name :: rest, aggregates => by
    rw [selectItems, StateT.run_bind]
    exact (yields_selectItems plain rest aggregates).bind fun result same => .pure same
  | .computed value name :: rest, aggregates => by
    rw [selectItems]
    simp only [StateT.run_bind]
    refine .bind_any fun _ => .bind_any fun _ => ?_
    refine (yields_selectItems plain rest _).bind fun result same => .pure ?_
    rw [var_eq plain]
    exact congrArg (name :: ·) same

end Context

namespace Context

variable {context : Context}

/-- The clauses after the pattern of a query bind the values that it computes, over its pattern. -/
theorem yields_solutions_binds (selected : List (Variable × Option Expression))
    (aggregates : List BoundAggregate) (input : Operation) :
    Yields (fun solutions => solutions.BindsOver ((Bindings.ofItems selected).map (·.1)) input)
      (context.solutions selected aggregates input .none) := by
  show Yields _ (context.solutions selected aggregates input ⟨none, [], [], none, none, none⟩)
  rw [solutions, conditions, orderKeys]
  simp only [StateT.run_pure, pure_bind, List.foldl_nil, joinedWith, List.isEmpty_nil, if_true,
    computed_eq]
  split
  · exact .pure (.bindings _ input)
  · have whole := (Operation.BindsOver.bindings (Bindings.ofItems selected) _).trans
      (.group [] aggregates (.refl input))
    exact .pure whole

/-- The items of a projection, or a star if none is computed, bind the variables they compute. -/
theorem yields_projection_binds (plain : context.MakesPlain) {star : Bool} {items : List SelectItem}
    (plainStar : star = true → items.filterMap SelectItem.computed? = []) :
    Yields (fun result => (Bindings.ofItems result.1).map (·.1)
        = items.filterMap SelectItem.computed?)
      ((context.projection (if star then .all else .items items)).run []) := by
  cases star with
  | true =>
    rw [if_pos rfl, projection, plainStar rfl]
    exact .pure rfl
  | false =>
    rw [if_neg Bool.false_ne_true, projection]
    exact yields_selectItems plain items []

/-- A query binds the values that its items compute over those at the end of its pattern. -/
theorem yields_select_binds (plain : context.MakesPlain) (elements : List Surface.Pattern)
    (extensions : Extensions) (all : Bool) (vars : List Variable) :
    Yields (fun operation => ∃ shown solutions base,
        operation = .of (.wrap (.project shown) solutions)
        ∧ solutions.BindsOver ((extensions.selectItems .empty vars).2.map (·.1)
          ++ (extensions.selectItems .empty vars).1.filterMap SelectItem.computed?) base)
      (context.select (QueryScope.select ⟨elements, extensions, .empty, .none⟩ all vars)) := by
  have plainStar (star : Bool) (isStar : (!(extensions.selectItems .empty vars).1.any
      (·.isComputed) && star) = true) :
      (extensions.selectItems .empty vars).1.filterMap SelectItem.computed? = [] := by
    obtain ⟨noneComputed, _⟩ := Bool.and_eq_true_iff.1 isStar
    refine List.filterMap_eq_nil_iff.2 fun item member => ?_
    have notComputed : item.isComputed = false := by simp_all
    cases item with
    | var name => rfl
    | computed value name => cases notComputed
  rw [QueryScope.select, select]
  refine (yields_pattern_binds plain elements (extensions.selectItems .empty vars).2).bind ?_
  rintro input ⟨base, below⟩
  refine (yields_projection_binds plain (by rw [Bool.and_assoc]; exact plainStar _)).bind ?_
  rintro ⟨selected, aggregates⟩ names
  refine (yields_solutions_binds selected aggregates input).bind fun solutions above => ?_
  exact .pure ⟨_, solutions, base, rfl, names ▸ above.trans below⟩

/-- A request for a query is read as the query, whose blank nodes may then be replaced. -/
theorem of_request {blankToVariable : Bool} {query : Surface.Select} {supply last : NameSupply}
    {result : Operation} (reads : context.request blankToVariable ⟨.none, .query (.select query)⟩
      supply = .ok result last) :
    ∃ read after, context.select query supply = .ok read after
      ∧ (result = read ∨ ∃ replace, result = read.replaceBlanks replace) := by
  have reads : (do
      let operation ← context.select query
      if blankToVariable then context.blanksToVariables operation
        else pure operation : Lowering Operation) supply = .ok result last := reads
  obtain ⟨read, after, ofQuery, reads⟩ := Lowering.of_bind_ok reads
  refine ⟨read, after, ofQuery, ?_⟩
  cases blankToVariable with
  | false => exact .inl (Lowering.of_pure_ok reads).1.symm
  | true =>
    obtain ⟨_, _, _, reads⟩ := Lowering.of_bind_ok reads
    obtain ⟨replaced, _, _, reads⟩ := Lowering.of_bind_ok reads
    exact .inr ⟨labelTerm replaced, (Lowering.of_pure_ok reads).1.symm⟩

end Context

namespace Operation

/-- A projection that can be written is read again unless the stack is too small. -/
theorem relowers_project {options : Options} {vars : List Variable} {input : Operation}
    {metadata : Option Metadata} {request : Surface.Request}
    (absolute : AllAbsolute (Operation.iris ⟨.wrap (.project vars) input, metadata⟩))
    (lifts : lift ⟨.wrap (.project vars) input, metadata⟩ = .ok request) :
    ∃ scope, (input.withoutEmbeddedGraphs.written true).asScope = .ok scope
      ∧ ((∃ limit, request.lower options = .error (.traversal (.stackOverflow limit)))
        ∨ ∃ result read supply after, request.lower options = .ok result
          ∧ (Context.ofOptions .plain options).select
            (scope.select (input.withoutEmbeddedGraphs.shows vars) vars) supply = .ok read after
          ∧ (result = read ∨ ∃ replace, result = read.replaceBlanks replace)) := by
  obtain ⟨scope, source, rfl⟩ := lift_project lifts
  refine ⟨scope, source, ?_⟩
  have admits : (Surface.Demands.lifted options).Admit input.withoutEmbeddedGraphs.iris :=
    admits_of_allAbsolute
      (absolute_withoutEmbeddedGraphs (AllAbsolute.operation.1 absolute).1)
  obtain ⟨meets, -⟩ := (grants_written (fun _ _ => trivial) true
    input.withoutEmbeddedGraphs.bound input.withoutEmbeddedGraphs admits
    fun _ => List.Subset.refl _).asScope.of_ok source
  have meetsQuery : Surface.Request.Meets (.lifted options) ⟨.none, .query (.select
      (scope.select (input.withoutEmbeddedGraphs.shows vars) vars))⟩ :=
    ⟨.inl rfl, meets.select _ vars⟩
  refine (Surface.Request.exists_lower_of_meets meetsQuery).symm.imp id fun ⟨result, lowers⟩ => ?_
  obtain ⟨last, made⟩ := Surface.Request.lower_ok_iff.1 lowers
  obtain ⟨read, after, reads, same⟩ := Context.of_request made
  exact ⟨result, read, _, after, lowers, reads, same⟩

/-- Values bound right below a projection come back when it is written and read again, unless the
stack is too small, each outside all graph blocks. One that is below another stays so just if its
variable is not shown, or both variables are and its variable is shown first. -/
theorem relowered_extended {options : Options} {vars : List Variable} {input : Operation}
    {metadata : Option Metadata} {request : Surface.Request} (clauseless : input.Clauseless)
    (distinct : input.extended.Nodup)
    (absolute : AllAbsolute (Operation.iris ⟨.wrap (.project vars) input, metadata⟩))
    (lifts : lift ⟨.wrap (.project vars) input, metadata⟩ = .ok request) :
    (∃ limit, request.lower options = .error (.traversal (.stackOverflow limit)))
      ∨ ∃ shown solutions names base,
        request.lower options = .ok (.of (.wrap (.project shown) solutions))
          ∧ solutions.BindsOver names base
          ∧ names.Perm input.extended
          ∧ (∀ inner ∈ input.extended, ∀ outer ∈ input.extended,
            input.extended.idxOf inner < input.extended.idxOf outer →
            (names.idxOf inner < names.idxOf outer
              ↔ (inner ∈ vars → outer ∈ vars ∧ vars.idxOf inner < vars.idxOf outer)))
          ∧ ∀ name ∈ input.extended,
            (solutions.graphsAround name = input.graphsAround name
              ↔ input.graphsAround name = []) := by
  obtain ⟨scope, source, relowers⟩ := @relowers_project options _ _ _ _ absolute lifts
  refine relowers.imp id fun ⟨result, read, supply, after, lowers, reads, same⟩ => ?_
  obtain ⟨elements, extensions, names, rfl⟩ :=
    clauseless.withoutEmbeddedGraphs.exists_scope source
  rw [extended_withoutEmbeddedGraphs] at names
  have plain : (Context.ofOptions .plain options).MakesPlain := rfl
  have again : ∃ shown solutions base, result = .of (.wrap (.project shown) solutions)
      ∧ solutions.BindsOver ((extensions.selectItems .empty vars).2.map (·.1)
        ++ (extensions.selectItems .empty vars).1.filterMap SelectItem.computed?) base := by
    obtain ⟨shown, solutions, base, rfl, binds⟩ :=
      Context.yields_select_binds plain _ extensions _ vars _ _ _ reads
    rcases same with rfl | ⟨replace, rfl⟩
    · exact ⟨shown, solutions, base, rfl, binds⟩
    · exact ⟨shown, _, _, rfl, binds.replaceBlanks replace⟩
  obtain ⟨shown, solutions, base, rfl, binds⟩ := again
  obtain ⟨left, members, sorted⟩ := Extensions.shown_selectItems (names ▸ distinct) vars
  rw [names] at left members
  rw [left] at binds
  have same := perm_of_shown distinct members sorted
  refine ⟨shown, solutions, _, base, lowers, binds, same, ?_, fun name member => ?_⟩
  · intro inner ofInner outer ofOuter below
    exact idxOf_lt_iff_of_shown members sorted ofInner ofOuter below
  · rw [binds.graphsAround (same.mem_iff.2 member)]
    exact eq_comm

/-- The triples of an IRI. -/
def linked : Operation :=
  .bgp [⟨.var ⟨"s"⟩, .iri ⟨"http://example.org/p"⟩, .var ⟨"o"⟩, .defaultGraph⟩]

/-- An operation with the double of an object. -/
def withDouble (input : Operation) : Operation :=
  .of (.extend input ⟨"x"⟩ (.operator "+" [.var ⟨"o"⟩, .var ⟨"o"⟩]))

/-- An operation with the square of that double. -/
def withSquare (input : Operation) : Operation :=
  .of (.extend input ⟨"y"⟩ (.operator "*" [.var ⟨"x"⟩, .var ⟨"x"⟩]))

/-- The double of an object. -/
def doubled : Surface.Expression := .binary .add (.var ⟨"o"⟩) (.var ⟨"o"⟩)

/-- The square of that double. -/
def squared : Surface.Expression := .binary .mul (.var ⟨"x"⟩) (.var ⟨"x"⟩)

/-- A query without clauses after its pattern. -/
def selectOf (items : List SelectItem) (elements : List Surface.Pattern) : Surface.Request :=
  ⟨.none, .query (.select ⟨.keep, .items items, none, .group elements .none, .none⟩)⟩

/-- The query that computes both values. -/
def bothComputed : Surface.Request :=
  selectOf [.computed doubled ⟨"x"⟩, .computed squared ⟨"y"⟩] [connectedPair ⟨"s"⟩ ⟨"o"⟩]

/-- Both values are shown, the inner one first. -/
theorem relowered_extended_bothComputed :
    lift (.of (.wrap (.project [⟨"x"⟩, ⟨"y"⟩]) linked.withDouble.withSquare)) = .ok bothComputed
      ∧ ((∃ limit, bothComputed.lower {} = .error (.traversal (.stackOverflow limit)))
        ∨ ∃ shown solutions names base,
          bothComputed.lower {} = .ok (.of (.wrap (.project shown) solutions))
            ∧ solutions.BindsOver names base
            ∧ names.idxOf ⟨"x"⟩ < names.idxOf ⟨"y"⟩) := by
  have absolute : AllAbsolute
      (Operation.of (.wrap (.project [⟨"x"⟩, ⟨"y"⟩]) linked.withDouble.withSquare)).iris := by
    unfold AllAbsolute
    decide +kernel
  have lifts : lift (.of (.wrap (.project [⟨"x"⟩, ⟨"y"⟩]) linked.withDouble.withSquare))
      = .ok bothComputed := by
    rw [lift, withoutGraphs_of_fits (by decide +kernel)]
    rfl
  refine ⟨lifts, (@relowered_extended {} _ _ _ _ (by decide +kernel) (by decide) absolute
    lifts).imp id ?_⟩
  rintro ⟨shown, solutions, names, base, lowers, binds, -, order, -⟩
  exact ⟨shown, solutions, names, base, lowers, binds,
    (order ⟨"x"⟩ (by decide) ⟨"y"⟩ (by decide) (by decide)).2 (by decide)⟩

/-- The query that computes the double, after its pattern has bound the square. -/
def doubledAfterSquared : Surface.Request :=
  selectOf [.computed doubled ⟨"x"⟩] [connectedPair ⟨"s"⟩ ⟨"o"⟩, .bind squared ⟨"y"⟩ .none]

/-- The query that computes the double after a graph block. -/
def doubledAfterGraph : Surface.Request :=
  selectOf [.computed doubled ⟨"x"⟩]
    [.graph (.var ⟨"g"⟩) (.group [connectedPair ⟨"s"⟩ ⟨"o"⟩] .none) .none]

/-- If only the inner value is shown, it comes to stand above the outer one, which uses it; and a
shown value of a graph block leaves the block. -/
theorem not_relowered_extended_innerShown :
    lift (.of (.wrap (.project [⟨"x"⟩]) linked.withDouble.withSquare)) = .ok doubledAfterSquared
      ∧ doubledAfterSquared.lower {}
        = .ok (.of (.wrap (.project [⟨"x"⟩]) linked.withSquare.withDouble))
      ∧ lift (.of (.wrap (.project [⟨"x"⟩]) (linked.withDouble.graph (.var ⟨"g"⟩))))
        = .ok doubledAfterGraph
      ∧ doubledAfterGraph.lower {}
        = .ok (.of (.wrap (.project [⟨"x"⟩]) (linked.graph (.var ⟨"g"⟩)).withDouble)) := by
  refine ⟨?_, by decide +kernel, ?_, by decide +kernel⟩
  · rw [lift, withoutGraphs_of_fits (by decide +kernel)]
    rfl
  · rw [lift, withoutGraphs_of_fits (by decide +kernel)]
    rfl

end Operation

end QueryAlgebra
