import QueryAlgebra.Proofs.Lifting.NormalRereading
import QueryAlgebra.Proofs.Lowering.ExtractedAggregates
import QueryAlgebra.Proofs.Operation.CanonicalForm
import Mathlib.Data.List.Forall2

/-! # Clauses that are read again

The expressions of the clauses of a query are read one after another, and the aggregates are taken
out of each before the next is read. `Extracting.Renews` says what comes of steps that do so: what
is left of expressions that correspond to the written ones, and a list that binds each different
aggregate once. At the end the aggregates that are bound correspond to those that were bound before
the query was written, `Extracting.Renews.run`, and so what is left of the expressions corresponds
to what was left of them then.
-/

namespace QueryAlgebra

open Renewals (Ready)

/-! ### Corresponding expressions without their aggregates -/

/-- If what is related is the same on one side just when it is on the other, then what is met for
the first time is related as well. -/
theorem forall₂_eraseDups {α β : Type} [BEq α] [LawfulBEq α] [BEq β] [LawfulBEq β]
    {R : α → β → Prop} (same : ∀ {a a' b b'}, R a a' → R b b' → (a = b ↔ a' = b'))
    {first : List α} {second : List β} (related : List.Forall₂ R first second) :
    List.Forall₂ R first.eraseDups second.eraseDups := by
  induction length : first.length using Nat.strong_induction_on generalizing first second with
  | _ length ih =>
    cases related with
    | nil => exact .nil
    | @cons a b first second head rest =>
      rw [List.eraseDups_cons, List.eraseDups_cons]
      have others : List.Forall₂ R (first.filter fun other => !other == a)
          (second.filter fun other => !other == b) := by
        refine List.rel_filter (fun c d ofOthers => ?_) rest
        simp only [Bool.not_eq_true', beq_eq_false_iff_ne, ne_eq, same ofOthers head]
      refine .cons head (ih _ ?_ others rfl)
      subst length
      exact Nat.lt_succ_of_le (List.length_filter_le ..)

/-- Members that are different are all met for the first time. -/
theorem eraseDups_of_nodup {α : Type} [BEq α] [LawfulBEq α] {members : List α}
    (distinct : members.Nodup) : members.eraseDups = members := by
  induction members with
  | nil => rfl
  | cons head rest ih =>
    obtain ⟨absent, others⟩ := List.nodup_cons.1 distinct
    have kept : (rest.filter fun other => !other == head) = rest := by
      refine List.filter_eq_self.2 fun other member => ?_
      rw [Bool.not_eq_true', beq_eq_false_iff_ne]
      exact fun same => absent (same ▸ member)
    rw [List.eraseDups_cons, kept, ih others]

theorem eraseDups_eraseDups_append {α : Type} [BEq α] [LawfulBEq α] (first second : List α) :
    (first.eraseDups ++ second).eraseDups = (first ++ second).eraseDups := by
  have same : second.removeAll first.eraseDups = second.removeAll first := by
    refine List.filter_congr fun member _ => ?_
    rw [List.elem_eq_contains, List.elem_eq_contains, Bool.eq_iff_iff]
    simp
  have distinct : first.eraseDups.Nodup := nodup_firstSeen first
  rw [List.eraseDups_append, List.eraseDups_append, eraseDups_of_nodup distinct, same]

section

variable {related : LocalName → LocalName → Prop} {found found' : List BoundAggregate}

/-- Expressions that correspond to aggregates are bound in the same places. -/
private theorem orVariable_corresponds (oneToOne : Relator.BiUnique related)
    (alike : List.Forall₂ (BoundAggregate.Corresponds related) found found')
    {aggregate aggregate' : Expression} (correspond : aggregate.Corresponds related aggregate') :
    (aggregate.orVariable found).Corresponds related (aggregate'.orVariable found') := by
  induction alike with
  | nil => exact correspond
  | @cons bound _ _ _ first _ ih =>
    cases first with
    | @mk _ _ expression _ ofName ofExpression =>
      have same := Expression.Corresponds.eq_iff oneToOne ofExpression correspond
      simp only [Expression.orVariable, List.find?_cons] at ih ⊢
      by_cases isFirst : expression = aggregate
      · rw [beq_iff_eq.2 isFirst, beq_iff_eq.2 (same.1 isFirst)]
        exact .term (.var ofName)
      · rw [beq_eq_false_iff_ne.2 isFirst,
          beq_eq_false_iff_ne.2 fun other => isFirst (same.2 other)]
        exact ih

namespace Expression

mutual

/-- What is left of corresponding expressions corresponds if the bound aggregates do. -/
theorem Corresponds.grouped (oneToOne : Relator.BiUnique related)
    (alike : List.Forall₂ (BoundAggregate.Corresponds related) found found') :
    ∀ {first second : Expression}, first.Corresponds related second →
    (first.grouped found).Corresponds related (second.grouped found')
  | _, _, .term value => .term value
  | _, _, .call callee arguments =>
    .call callee (Corresponds.allGrouped oneToOne alike arguments)
  | _, _, .aggregate name distinct separator argument =>
    orVariable_corresponds oneToOne alike (.aggregate name distinct separator argument)
  | _, _, .existence negated input => .existence negated input
  | _, _, .wildcard => .wildcard

theorem Corresponds.allGrouped (oneToOne : Relator.BiUnique related)
    (alike : List.Forall₂ (BoundAggregate.Corresponds related) found found') :
    ∀ {first second : List Expression}, List.Forall₂ (Corresponds related) first second →
    List.Forall₂ (Corresponds related) (Expression.allGrouped found first)
      (Expression.allGrouped found' second)
  | _, _, .nil => .nil
  | _, _, .cons head rest =>
    .cons (Corresponds.grouped oneToOne alike head) (Corresponds.allGrouped oneToOne alike rest)

end

mutual

/-- The aggregates of corresponding expressions correspond. -/
theorem Corresponds.ownAggregates : ∀ {first second : Expression},
    first.Corresponds related second →
    List.Forall₂ (Corresponds related) first.ownAggregates second.ownAggregates
  | _, _, .term _ => .nil
  | _, _, .call _ arguments => Corresponds.allOwnAggregates arguments
  | _, _, .aggregate name distinct separator argument =>
    .cons (.aggregate name distinct separator argument) .nil
  | _, _, .existence _ _ => .nil
  | _, _, .wildcard => .nil

theorem Corresponds.allOwnAggregates : ∀ {first second : List Expression},
    List.Forall₂ (Corresponds related) first second →
    List.Forall₂ (Corresponds related) (Expression.allOwnAggregates first)
      (Expression.allOwnAggregates second)
  | _, _, .nil => .nil
  | _, _, .cons head rest =>
    List.rel_append (Corresponds.ownAggregates head) (Corresponds.allOwnAggregates rest)

end

end Expression

end

/-! ### Aggregates that are bound -/

/-- Aggregates correspond if their expressions and their variables do. -/
private theorem corresponds_of_zip {related : LocalName → LocalName → Prop}
    {first second : List BoundAggregate} (ofExpressions : List.Forall₂
      (Expression.Corresponds related) (first.map (·.expression)) (second.map (·.expression)))
    (ofNames : ∀ pair ∈ (first.map (·.name)).zip (second.map (·.name)),
      related (.var pair.1.name) (.var pair.2.name)) :
    List.Forall₂ (BoundAggregate.Corresponds related) first second := by
  rw [List.forall₂_map_left_iff, List.forall₂_map_right_iff] at ofExpressions
  induction ofExpressions with
  | nil => exact .nil
  | @cons bound bound' _ _ head _ ih =>
    rw [List.map_cons, List.map_cons, List.zip_cons_cons, List.forall_mem_cons] at ofNames
    cases bound
    cases bound'
    exact .cons (.mk ofNames.1 head) (ih ofNames.2)

namespace NameSupply

/-- A variable that is taken is in use from then on. -/
theorem Adds.of_takes {supply after : NameSupply} {name : String}
    (takes : supply.Takes (.var name) after) : supply.Adds [⟨name⟩] after where
  nodup := List.nodup_singleton _
  fresh := List.forall_mem_singleton.2 takes.fresh
  used := List.forall_mem_singleton.2 ((takes.has_iff _).2 (.inl rfl))
  grows other isUsed := (takes.has_iff other).2 (.inr isUsed)

theorem Adds.mono {supply after : NameSupply} {news more : List Variable}
    (adds : supply.Adds news after) (part : more.Sublist news) : supply.Adds more after where
  nodup := adds.nodup.sublist part
  fresh name member := adds.fresh name (part.subset member)
  used name member := adds.used name (part.subset member)
  grows := adds.grows

end NameSupply

namespace Context.Binds

variable {context : Context} {supply after : NameSupply} {found later : List BoundAggregate}
  {aggregates : List Expression}

/-- Aggregates that are bound now are bound to variables that were not in use. -/
theorem adds (plain : context.MakesPlain)
    (binds : context.Binds supply found aggregates after later) :
    ∃ more, later = found ++ more ∧ supply.Adds (more.map (·.name)) after := by
  induction binds with
  | done supply found => exact ⟨[], (List.append_nil found).symm, .of_gives (.refl supply)⟩
  | take takes _ ih =>
    obtain ⟨more, rfl, adds⟩ := ih
    exact ⟨more, rfl, (NameSupply.Adds.of_gives (.of_takes takes)).append adds⟩
  | known _ _ ih => exact ih
  | @new supply _ _ _ aggregate _ _ _ ih =>
    obtain ⟨more, rfl, adds⟩ := ih
    refine ⟨_ :: more, (List.append_cons ..).symm, ?_⟩
    rw [plain]
    exact (NameSupply.Adds.of_takes (.numbered supply)).append adds

/-- The aggregates that are bound are those that are met, each once. -/
theorem eraseDups (binds : context.Binds supply found aggregates after later)
    (distinct : (found.map (·.expression)).Nodup) :
    later.map (·.expression) = (found.map (·.expression) ++ aggregates).eraseDups := by
  induction binds with
  | done supply found => rw [List.append_nil, eraseDups_of_nodup distinct]
  | take _ _ ih => exact ih distinct
  | @known _ _ found _ aggregate _ holds _ ih =>
    have isFound : (found.map (·.expression)).contains aggregate = true :=
      List.contains_iff_mem.2 holds
    rw [ih distinct, List.eraseDups_append, List.eraseDups_append, List.cons_removeAll, isFound]
    rfl
  | new absent binds ih =>
    refine (ih ?_).trans ?_
    · rw [List.map_append]
      refine List.nodup_append.2 ⟨distinct, List.nodup_singleton _, ?_⟩
      rintro first isFirst _ isLast rfl
      obtain rfl := List.mem_singleton.1 isLast
      exact absent isFirst
    · rw [List.map_append, List.append_assoc]
      rfl

end Context.Binds

/-! ### Steps that take aggregates out of what they read -/

/-- What is left of what an expression is read as. -/
def Expression.LeftOf (related : LocalName → LocalName → Prop) (found : List BoundAggregate)
    (expression left : Expression) : Prop :=
  ∃ read, expression.Corresponds related read ∧ left = read.grouped found

namespace Extracting

variable {known : Variable → Prop} {names more : List Variable} {α β : Type}
  {expressions others : List Expression} {R : (Expression → Expression → Prop) → α → Prop}
  {S : (Expression → Expression → Prop) → β → Prop}

/-- A step reads expressions one after another and binds the aggregates in what it reads, each that
is not bound yet to a new variable. What it results in is right in terms of what is left of the
expressions once all are read. -/
def Renews (known : Variable → Prop) (expressions : List Expression) (names : List Variable)
    (R : (Expression → Expression → Prop) → α → Prop) (step : Extracting α) : Prop :=
  ∀ found supply value later after, Ready known names supply →
    step.run found supply = .ok (value, later) after →
    ∃ (renewals : Renewals) (read : List Expression) (bound : List BoundAggregate),
      (renewals.map (·.1)).Perm names ∧ later = found ++ bound
      ∧ supply.Adds (renewals.map (·.2) ++ bound.map (·.name)) after
      ∧ ((found.map (·.expression)).Nodup → later.map (·.expression)
        = (found.map (·.expression) ++ read.flatMap (·.ownAggregates)).eraseDups)
      ∧ ∀ related, renewals.Keep related known →
        List.Forall₂ (Expression.Corresponds related) expressions read
        ∧ ∀ final, later <+: final → R (Expression.LeftOf related final) value

namespace Renews

theorem pure {value : α} (holds : ∀ left, R left value) :
    Renews known [] [] R (pure value) := by
  intro found supply result later after _ run
  cases run
  refine ⟨[], [], [], .nil, (List.append_nil _).symm, .of_gives (.refl _), fun distinct => ?_,
    fun related _ => ⟨.nil, fun final _ => holds _⟩⟩
  rw [List.flatMap_nil, List.append_nil, eraseDups_of_nodup distinct]

theorem imp {T : (Expression → Expression → Prop) → α → Prop} {step : Extracting α}
    (renews : Renews known expressions names R step)
    (weaker : ∀ left value, R left value → T left value) :
    Renews known expressions names T step := by
  intro found supply value later after ready run
  obtain ⟨renewals, read, bound, old, same, adds, distinct, holds⟩ :=
    renews found supply value later after ready run
  exact ⟨renewals, read, bound, old, same, adds, distinct, fun related keep =>
    ⟨(holds related keep).1,
      fun final isLater => weaker _ _ ((holds related keep).2 final isLater)⟩⟩

/-- Steps one after another read what both read. -/
theorem bind {step : Extracting α} {next : α → Extracting β}
    (first : Renews known expressions names R step) (goesOn : ∀ value,
      Renews known others more (fun left result => R left value → S left result) (next value)) :
    Renews known (expressions ++ others) (names ++ more) S (step >>= next) := by
  intro found supply result later last ready run
  rw [StateT.run_bind] at run
  obtain ⟨⟨value, middle⟩, between, ofFirst, ofNext⟩ := Lowering.of_bind_ok run
  obtain ⟨renewals, read, bound, old, rfl, adds, distinct, holds⟩ := first found supply value middle
    between (ready.mono (List.sublist_append_left ..).subperm fun _ => id) ofFirst
  obtain ⟨renewals', read', bound', old', rfl, adds', distinct', holds'⟩ := goesOn value _ between
    result later last (ready.mono (List.sublist_append_right ..).subperm adds.grows) ofNext
  refine ⟨renewals ++ renewals', read ++ read', bound ++ bound', ?_, List.append_assoc .., ?_,
    fun different => ?_, fun related keep => ?_⟩
  · rw [List.map_append]
    exact old.append old'
  · refine (adds.append adds').perm ?_
    simp only [List.map_append]
    rw [List.append_assoc, List.append_assoc]
    refine List.Perm.append_left _ ?_
    rw [← List.append_assoc, ← List.append_assoc]
    exact List.Perm.append_right _ List.perm_append_comm
  · have ofFound := distinct different
    have inMiddle : ((found ++ bound).map (·.expression)).Nodup := ofFound ▸ nodup_firstSeen _
    rw [distinct' inMiddle, ofFound, List.flatMap_append, ← List.append_assoc,
      eraseDups_eraseDups_append]
  · obtain ⟨areRead, isValue⟩ := holds related keep.append.1
    obtain ⟨areRead', isResult⟩ := holds' related keep.append.2
    exact ⟨List.rel_append areRead areRead', fun final isLater => isResult final isLater
      (isValue final ((List.prefix_append ..).trans isLater))⟩

/-- A step that goes on without reading. -/
theorem map {step : Extracting α} (renews : Renews known expressions names R step) {f : α → β}
    (goesOn : ∀ left value, R left value → S left (f value)) :
    Renews known expressions names S (step >>= fun value => Pure.pure (f value)) := by
  have both : Renews known (expressions ++ []) (names ++ []) S
      (step >>= fun value => Pure.pure (f value)) :=
    renews.bind fun value => .pure fun left holds => goesOn left value holds
  rwa [List.append_nil, List.append_nil] at both

/-- An expression is read and its aggregates are taken out. -/
theorem clause {context : Context} (plain : context.MakesPlain) {written : Surface.Expression}
    {expression : Expression}
    (reads : Lowering.Renews False known names
      (fun related value => expression.Corresponds related value) (context.expression written)) :
    Renews known [expression] names (fun left value => left expression value) (do
      let value ← context.expression written
      context.extractAggregates value) := by
  intro found supply value later after ready run
  rw [StateT.run_bind] at run
  obtain ⟨⟨read, middle⟩, between, isRead, extracted⟩ := Lowering.of_bind_ok run
  obtain ⟨_, _, isRead, same⟩ := Lowering.of_bind_ok isRead
  cases same
  obtain ⟨renewals, old, adds, holds⟩ := reads.renews supply read between ready isRead
  obtain ⟨isLeft, binds⟩ := Context.run_extractAggregates extracted
  obtain ⟨bound, rfl, addsBound⟩ := binds.adds plain
  refine ⟨renewals, [read], bound, old, rfl, adds.append addsBound, fun distinct => ?_,
    fun related keep => ⟨.cons (holds related keep) .nil, fun final isLater =>
      ⟨read, holds related keep, ?_⟩⟩⟩
  · rw [List.flatMap_singleton]
    exact binds.eraseDups distinct
  · exact isLeft.trans (Expression.grouped_mono isLater read binds.holds)

/-- When all expressions are read, the bound aggregates correspond to those of the expressions, and
what is left of them corresponds as well. -/
theorem run {step : Extracting α} (renews : Renews known expressions names R step)
    {aggregates : List BoundAggregate} (all : aggregates.map (·.expression)
      = (expressions.flatMap (·.ownAggregates)).eraseDups)
    (mono : ∀ {first second : Expression → Expression → Prop} {value},
      (∀ expression left, first expression left → second expression left) → R first value →
      R second value) :
    Lowering.Renews False known (names ++ aggregates.map (·.name)) (fun related result =>
        List.Forall₂ (BoundAggregate.Corresponds related) aggregates result.2
          ∧ R (fun expression left => (expression.grouped aggregates).Corresponds related left)
            result.1)
      (step.run []) where
  succeeds := False.elim
  renews supply result after ready success := by
    obtain ⟨value, later⟩ := result
    have ready' := ready.mono (List.sublist_append_left ..).subperm fun _ => id
    obtain ⟨renewals, read, bound, old, same, adds, distinct, holds⟩ :=
      renews [] supply value later after ready' success
    rw [List.nil_append] at same
    have ofBound : bound.map (·.expression) = (read.flatMap (·.ownAggregates)).eraseDups :=
      same ▸ distinct List.nodup_nil
    -- The aggregates agree under any names that keep what is known.
    have agree : ∀ {related}, renewals.Keep related known → List.Forall₂
        (Expression.Corresponds related) (aggregates.map (·.expression))
        (bound.map (·.expression)) := by
      intro related keep
      rw [all, ofBound]
      exact forall₂_eraseDups (Expression.Corresponds.eq_iff keep.oneToOne)
        (List.rel_flatMap (holds related keep).1 fun _ _ => Expression.Corresponds.ownAggregates)
    have lengths : (aggregates.map (·.name)).length = (bound.map (·.name)).length := by
      obtain ⟨related, keep⟩ := ready'.exists_keep old (adds.mono (List.sublist_append_left ..))
      have same := (agree keep).length_eq
      rwa [List.length_map, List.length_map] at same ⊢
    refine ⟨renewals ++ (aggregates.map (·.name)).zip (bound.map (·.name)), ?_, ?_,
      fun related keep => ?_⟩
    · rw [List.map_append, List.map_fst_zip lengths.le]
      exact old.append_right _
    · rw [List.map_append, List.map_snd_zip lengths.ge]
      exact adds
    · have ofNames := keep.append.2.renewed
      have alike : List.Forall₂ (BoundAggregate.Corresponds related) aggregates bound :=
        corresponds_of_zip (agree keep.append.1) ofNames
      refine ⟨same ▸ alike, mono ?_ ((holds related keep.append.1).2 later (List.prefix_refl _))⟩
      rintro expression left ⟨read, correspond, rfl⟩
      exact correspond.grouped keep.oneToOne (same ▸ alike)

end Renews

end Extracting

/-! ### The clauses of a query -/

/-- Expressions are read again from the texts that they are written as. -/
def Context.Tells (context : Context) (known : Variable → Prop)
    (text : Expression → Surface.Expression) (namesOf : Expression → List Variable)
    (expressions : List Expression) : Prop :=
  ∀ expression ∈ expressions, Lowering.Renews False known (namesOf expression)
    (fun related value => expression.Corresponds related value)
    (context.expression (text expression))

/-- An item of a projection that shows a variable, computed if it has a value. -/
def Context.itemOf (text : Expression → Surface.Expression)
    (item : Variable × Option Expression) : Surface.SelectItem :=
  match item.2 with
  | none => .var item.1
  | some value => .computed (text value) item.1

/-- A key of an order is that of another expression in the same direction. -/
def IsKeyOf (left : Expression → Expression → Prop) (key : Surface.Direction × Expression)
    (read : Expression) : Prop :=
  ∃ value, left key.2 value ∧ read = Context.orderKey key.1 value

/-- An item shows the same variable with a value just if another does. -/
def IsItemOf (left : Expression → Expression → Prop) (item read : Variable × Option Expression) :
    Prop :=
  read.1 = item.1 ∧ Option.Rel left item.2 read.2

theorem IsItemOf.mono {first second : Expression → Expression → Prop}
    {item read : Variable × Option Expression}
    (wider : ∀ expression left, first expression left → second expression left)
    (isItem : IsItemOf first item read) : IsItemOf second item read := by
  obtain ⟨name, value⟩ := item
  obtain ⟨name', value'⟩ := read
  obtain ⟨same, values⟩ := isItem
  cases values with
  | none => exact ⟨same, .none⟩
  | some isLeft => exact ⟨same, .some (wider _ _ isLeft)⟩

namespace Context

open Extracting (Renews)

variable {context : Context} {known : Variable → Prop} {text : Expression → Surface.Expression}
  {namesOf : Expression → List Variable}

/-- An expression that is read, before the clauses after it are. -/
private theorem renews_clauseThen (plain : context.MakesPlain) {expression : Expression}
    {rest : List Expression} (tells : context.Tells known text namesOf (expression :: rest))
    {α : Type} {next : Expression → Extracting α}
    {R : (Expression → Expression → Prop) → α → Prop}
    (goesOn : ∀ value, Renews known rest (rest.flatMap namesOf)
      (fun left result => left expression value → R left result) (next value)) :
    Renews known (expression :: rest) ((expression :: rest).flatMap namesOf) R (do
      let value ← context.expression (text expression)
      let value ← context.extractAggregates value
      next value) := by
  have first := Renews.clause plain (tells expression List.mem_cons_self)
  have both := first.bind goesOn
  rwa [bind_assoc] at both

theorem renews_conditions (plain : context.MakesPlain) {conditions : List Expression}
    (tells : context.Tells known text namesOf conditions) :
    Renews known conditions (conditions.flatMap namesOf)
      (fun left read => List.Forall₂ left conditions read)
      (context.conditions (conditions.map text)) := by
  induction conditions with
  | nil =>
    rw [List.map_nil, conditions]
    exact .pure fun _ => .nil
  | cons condition rest ih =>
    rw [List.map_cons, conditions]
    have others := ih fun other member => tells other (List.mem_cons_of_mem _ member)
    exact renews_clauseThen plain tells fun value =>
      others.map fun left read ofRest ofFirst => .cons ofFirst ofRest

/-- A variable is a key of an order as any expression is. -/
private theorem orderKeys_of (direction : Surface.Direction) (written : Surface.Expression)
    (rest : List Surface.OrderKey) :
    context.orderKeys (.of direction written :: rest) = (do
      let value ← context.expression written
      let value ← context.extractAggregates value
      let others ← context.orderKeys rest
      pure (orderKey direction value :: others)) := by
  cases written with
  | var name =>
    have read : (liftM (context.expression (.var name)) : Extracting Expression)
        = pure (.var (context.var name)) := by
      rw [expression]
      rfl
    have fits : (Expression.var (context.var name)).FitsExtraction := by
      rw [Expression.FitsExtraction, Node.checkFits, Node.fits]
      rfl
    have extracted : context.extractAggregates (.var (context.var name))
        = pure (.var (context.var name)) := by
      rw [extractAggregates_of_fits context fits, Expression.var, replaceAggregates]
    rw [Surface.OrderKey.of, orderKeys, read, pure_bind, extracted, pure_bind]
  | _ =>
    rw [Surface.OrderKey.of, orderKeys]
    intro _ same
    cases same

theorem renews_orderKeys (plain : context.MakesPlain)
    {order : List (Surface.Direction × Expression)}
    (tells : context.Tells known text namesOf (order.map (·.2))) :
    Renews known (order.map (·.2)) ((order.map (·.2)).flatMap namesOf)
      (fun left read => List.Forall₂ (IsKeyOf left) order read)
      (context.orderKeys (order.map fun key => .of key.1 (text key.2))) := by
  induction order with
  | nil =>
    rw [List.map_nil, List.map_nil, orderKeys]
    exact .pure fun _ => .nil
  | cons key rest ih =>
    rw [List.map_cons, List.map_cons, orderKeys_of]
    have others := ih fun other member => tells other (List.mem_cons_of_mem _ member)
    exact renews_clauseThen plain tells fun value =>
      others.map fun left read ofRest ofFirst => .cons ⟨value, ofFirst, rfl⟩ ofRest

theorem renews_selectItems (plain : context.MakesPlain)
    {items : List (Variable × Option Expression)}
    (tells : context.Tells known text namesOf ((Bindings.ofItems items).map (·.2))) :
    Renews known ((Bindings.ofItems items).map (·.2))
      (((Bindings.ofItems items).map (·.2)).flatMap namesOf)
      (fun left read => List.Forall₂ (IsItemOf left) items read)
      (context.selectItems (items.map (itemOf text))) := by
  induction items with
  | nil =>
    rw [List.map_nil, selectItems]
    exact .pure fun _ => .nil
  | cons item rest ih =>
    obtain ⟨name, _ | value⟩ := item
    · rw [List.map_cons, itemOf, selectItems, var_eq plain]
      exact (ih tells).map fun left read ofRest => .cons ⟨rfl, .none⟩ ofRest
    · rw [List.map_cons, itemOf, selectItems, var_eq plain]
      have others := ih fun other member => tells other (List.mem_cons_of_mem _ member)
      exact renews_clauseThen plain tells fun value =>
        others.map fun left read ofRest ofFirst => .cons ⟨rfl, .some ofFirst⟩ ofRest

/-- The expressions of the clauses of a query, in the order in which they are read. -/
def clauses (context : Context) (projection : Surface.Projection)
    (having : List Surface.Expression) (orderBy : List Surface.OrderKey) :
    Extracting (List (Variable × Option Expression) × List Expression × List Expression) := do
  let items ← context.projection projection
  let conditions ← context.conditions having
  let order ← context.orderKeys orderBy
  pure (items, conditions, order)

/-- Clauses are those of a query but for what is left of their expressions. -/
structure AreClausesOf (left : Expression → Expression → Prop)
    (items : List (Variable × Option Expression)) (conditions : List Expression)
    (order : List (Surface.Direction × Expression))
    (read : List (Variable × Option Expression) × List Expression × List Expression) : Prop where
  items : List.Forall₂ (IsItemOf left) items read.1
  conditions : List.Forall₂ left conditions read.2.1
  order : List.Forall₂ (IsKeyOf left) order read.2.2

theorem AreClausesOf.mono {first second : Expression → Expression → Prop}
    {items : List (Variable × Option Expression)} {conditions : List Expression}
    {order : List (Surface.Direction × Expression)}
    {read : List (Variable × Option Expression) × List Expression × List Expression}
    (wider : ∀ expression left, first expression left → second expression left)
    (clauses : AreClausesOf first items conditions order read) :
    AreClausesOf second items conditions order read where
  items := clauses.items.imp fun _ _ => .mono wider
  conditions := clauses.conditions.imp fun _ _ => wider _ _
  order := clauses.order.imp fun _ _ ⟨value, isLeft, same⟩ => ⟨value, wider _ _ isLeft, same⟩

/-- The clauses of a query are read again. A star stands for items without values. -/
theorem renews_clauses (plain : context.MakesPlain) {projection : Surface.Projection}
    {items : List (Variable × Option Expression)} {conditions : List Expression}
    {order : List (Surface.Direction × Expression)}
    (shows : projection = .items (items.map (itemOf text)) ∨ projection = .all ∧ items = [])
    (tells : context.Tells known text namesOf
      ((Bindings.ofItems items).map (·.2) ++ (conditions ++ order.map (·.2)))) :
    Renews known ((Bindings.ofItems items).map (·.2) ++ (conditions ++ order.map (·.2)))
      (((Bindings.ofItems items).map (·.2) ++ (conditions ++ order.map (·.2))).flatMap namesOf)
      (fun left read => AreClausesOf left items conditions order read)
      (context.clauses projection (conditions.map text)
        (order.map fun key => .of key.1 (text key.2))) := by
  obtain ⟨ofItems, others⟩ := List.forall_mem_append.1 tells
  obtain ⟨ofConditions, ofOrder⟩ := List.forall_mem_append.1 others
  have readItems : Renews known ((Bindings.ofItems items).map (·.2))
      (((Bindings.ofItems items).map (·.2)).flatMap namesOf)
      (fun left read => List.Forall₂ (IsItemOf left) items read)
      (context.projection projection) := by
    rcases shows with rfl | ⟨rfl, rfl⟩
    · rw [Context.projection]
      exact renews_selectItems plain ofItems
    · rw [Context.projection]
      exact .pure fun _ => .nil
  rw [List.flatMap_append, List.flatMap_append]
  refine readItems.bind fun items => (renews_conditions plain ofConditions).bind fun conditions =>
    (renews_orderKeys plain ofOrder).map fun left order ofOrder ofConditions ofItems => ?_
  exact ⟨ofItems, ofConditions, ofOrder⟩

end Context

end QueryAlgebra
