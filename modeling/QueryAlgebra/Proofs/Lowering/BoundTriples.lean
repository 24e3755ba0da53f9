import QueryAlgebra.Proofs.Lifting.WrittenTerms
import QueryAlgebra.Proofs.Lowering.Behaviour
import QueryAlgebra.Proofs.Operation.ScopeMembers
import QueryAlgebra.Surface.Scope

/-! # The variables that triples bring into scope

Terms, collections and property lists become triples with the variables that are written; a sequence
of a property path goes through new variables, which are in scope as well. So the operation of
triples has the written variables in scope and, besides them, only variables that were taken from
the supply meanwhile: `Context.binds_basicGraphPattern`.
-/

namespace QueryAlgebra

/-- A variable is among the names that are taken while one supply becomes another. -/
def NameSupply.Minted (supply after : NameSupply) (name : Variable) : Prop :=
  ¬ supply.Has (.var name.name) ∧ after.Has (.var name.name)

/-- What becomes of a part has the variables in scope that the part writes, and besides them only
variables that are taken meanwhile. -/
structure Binds (supply after : NameSupply) (written met : List Variable) : Prop where
  all : ∀ name ∈ written, name ∈ met
  only : ∀ name ∈ met, name ∈ written ∨ supply.Minted after name

namespace NameSupply.Minted

variable {supply between after : NameSupply} {name : Variable}

theorem earlier (gives : supply.Gives between) (minted : between.Minted after name) :
    supply.Minted after name :=
  ⟨fun isUsed => minted.1 (gives.has _ isUsed), minted.2⟩

theorem later (gives : between.Gives after) (minted : supply.Minted between name) :
    supply.Minted after name :=
  ⟨minted.1, gives.has _ minted.2⟩

end NameSupply.Minted

namespace Binds

variable {supply between after : NameSupply} {written met written' met' : List Variable}

theorem of_iff (same : ∀ name, name ∈ met ↔ name ∈ written) : Binds supply after written met :=
  ⟨fun name => (same name).2, fun name member => .inl ((same name).1 member)⟩

theorem refl (vars : List Variable) : Binds supply after vars vars := of_iff fun _ => Iff.rfl

theorem congr (binds : Binds supply after written met)
    (sameWritten : ∀ name, name ∈ written' ↔ name ∈ written)
    (sameMet : ∀ name, name ∈ met' ↔ name ∈ met) : Binds supply after written' met' :=
  ⟨fun name member => (sameMet name).2 (binds.all name ((sameWritten name).1 member)),
    fun name member => (binds.only name ((sameMet name).1 member)).imp_left (sameWritten name).2⟩

theorem earlier (gives : supply.Gives between) (binds : Binds between after written met) :
    Binds supply after written met :=
  ⟨binds.all, fun name member => (binds.only name member).imp_right (.earlier gives)⟩

theorem later (gives : between.Gives after) (binds : Binds supply between written met) :
    Binds supply after written met :=
  ⟨binds.all, fun name member => (binds.only name member).imp_right (.later gives)⟩

theorem append (first : Binds supply after written met)
    (second : Binds supply after written' met') :
    Binds supply after (written ++ written') (met ++ met') := by
  constructor
  · intro name member
    exact List.mem_append.2 ((List.mem_append.1 member).imp (first.all name) (second.all name))
  · intro name member
    rw [List.mem_append]
    rcases List.mem_append.1 member with member | member
    · exact (first.only name member).imp_left .inl
    · exact (second.only name member).imp_left .inr

/-- A new variable that stands between two parts is one of those that are taken. -/
theorem hide {name : Variable} (minted : supply.Minted after name)
    (binds : Binds supply after written met)
    (others : ∀ other, other ∈ written → other ∈ written' ∨ other = name)
    (kept : ∀ other, other ∈ written' → other ∈ written) : Binds supply after written' met :=
  ⟨fun other member => binds.all other (kept other member), fun other member => by
    rcases binds.only other member with member | isMinted
    · rcases others other member with member | rfl
      · exact .inl member
      · exact .inr minted
    · exact .inr isMinted⟩

end Binds

/-- A result has a property if the step succeeds. -/
theorem Settles.of_ok {α : Type} {P : α → Prop} {result : Except LoweringError α}
    (holds : ∀ value, result = .ok value → P value) : Settles False P result := by
  cases result with
  | ok value => exact holds value rfl
  | error => exact id

/-- The variables of a predicate; those of a path are none. -/
def FlatPredicate.vars : FlatPredicate → List Variable
  | .term value => value.vars
  | .path _ => []

/-- The variables of a triple that is spelled out. -/
def FlatTriple.vars (triple : FlatTriple) : List Variable :=
  triple.subject.vars ++ triple.predicate.vars ++ triple.object.vars

namespace Context

open Lowering (Behaves)

variable {context : Context} {supply : NameSupply}

/-! ### Terms -/

theorem binds_newVariable (plain : context.MakesPlain) :
    Behaves False (fun after name => supply.Minted after name) context.newVariable supply := by
  have takes := NameSupply.Takes.numbered supply
  have taken : Behaves False (fun after text => supply.Minted after ⟨text⟩)
      (modifyGet NameSupply.takeVariable : Lowering String) supply :=
    ⟨.of_takes takes, takes.fresh, (takes.has_iff _).2 (.inl rfl)⟩
  rw [newVariable, plain]
  exact taken.bind fun text after _ minted => .pure minted

theorem vars_newBlank :
    Behaves False (fun _ term => term.vars = []) context.newBlank supply := by
  rw [newBlank]
  exact (Behaves.take (.label supply)).bind fun _ _ _ _ => .pure rfl

theorem vars_varOrIri (plain : context.MakesPlain) (written : Surface.VarOrIri) :
    Settles False (fun term => term.vars = written.vars) (context.varOrIri written) := by
  cases written with
  | var name => exact (congrArg (fun name => [name]) (var_eq plain name) :)
  | iri iri =>
    rw [varOrIri]
    exact (Settles.of_ok (P := fun _ => True) fun _ _ => trivial).bind fun node _ => rfl

theorem vars_defaultGraph (plain : context.MakesPlain) :
    context.factory.defaultGraph.vars = [] := by
  rw [plain]
  rfl

theorem vars_term (plain : context.MakesPlain) (written : Surface.Term) :
    Behaves False (fun _ term => term.vars = written.vars) (context.term written) supply := by
  induction written generalizing supply with
  | var name =>
    rw [Context.term, var_eq plain]
    exact .pure rfl
  | iri iri =>
    rw [Context.term]
    exact .bindLift (Settles.of_ok (P := fun _ => True) fun _ _ => trivial) fun _ _ => .pure rfl
  | literal text =>
    rw [Context.term]
    exact .bindLift (Settles.of_ok (P := fun _ => True) fun _ _ => trivial) fun _ _ => .pure rfl
  | blank label =>
    rw [Context.term]
    exact .pure rfl
  | anonymous =>
    rw [Context.term]
    exact vars_newBlank
  | quoted subject predicate object ihSubject ihObject =>
    rw [Context.term, quad_eq plain]
    refine ihSubject.bind fun _ s₁ gives₁ ofSubject => ?_
    refine .bindLift (vars_varOrIri plain predicate) fun _ ofPredicate => ?_
    refine ihObject.bind fun _ s₂ gives₂ ofObject => .pure ?_
    rw [Term.vars_quad, ofSubject, ofPredicate, ofObject, vars_defaultGraph plain,
      List.append_nil, Surface.Term.vars]

theorem vars_predicate (plain : context.MakesPlain) (verb : Surface.Verb) :
    Settles False (fun predicate => predicate.vars = verb.vars) (context.predicate verb) := by
  cases verb with
  | simple name =>
    rw [predicate]
    exact (vars_varOrIri plain name).bind fun _ same => same
  | path written =>
    rw [predicate]
    split
    · exact (Settles.of_ok (P := fun _ => True) fun _ _ => trivial).bind fun node _ => rfl
    · exact rfl
    · exact rfl

/-! ### Spelling out triples -/

/-- The variables of triples that are spelled out. -/
abbrev varsOf (triples : List FlatTriple) : List Variable := triples.flatMap FlatTriple.vars

theorem vars_newCells (count : Nat) :
    Behaves False (fun _ cells => cells.length = count ∧ ∀ cell ∈ cells, cell.vars = [])
      (context.newCells count) supply := by
  induction count generalizing supply with
  | zero => exact .pure ⟨rfl, List.forall_mem_nil _⟩
  | succ count ih =>
    rw [newCells]
    refine vars_newBlank.bind fun cell _ _ ofCell => ih.bind fun cells _ _ ofCells => .pure ?_
    exact ⟨congrArg (· + 1) ofCells.1, List.forall_mem_cons.2 ⟨ofCell, ofCells.2⟩⟩

private theorem vars_headD {cells : List Term} {last : Term}
    (ofCells : ∀ cell ∈ cells, cell.vars = []) (ofLast : last.vars = []) :
    (cells.headD last).vars = [] := by
  cases cells with
  | nil => exact ofLast
  | cons cell rest => exact ofCells cell List.mem_cons_self

/-- The triples of a cell have the variables of the item alone. -/
private theorem vars_cellTriples (context : Context) {cell next : Term} (value : Term)
    (ofCell : cell.vars = []) (ofNext : next.vars = []) :
    varsOf (context.cellTriples cell value next) = value.vars := by
  simp [varsOf, cellTriples, FlatTriple.vars, FlatPredicate.vars, vocabulary, ofCell, ofNext]

mutual

theorem vars_node (plain : context.MakesPlain) : ∀ (written : Surface.GraphNode)
    {supply : NameSupply},
    Behaves False (fun _ result => ∀ name,
        name ∈ result.1.vars ++ varsOf result.2 ↔ name ∈ written.vars)
      (context.node written) supply
  | .term value, _ => by
    rw [node]
    refine (vars_term plain value).bind fun term _ _ same => .pure fun name => ?_
    rw [same]
    simp [Surface.GraphNode.vars]
  | .collection items, _ => by
    rw [node]
    refine (vars_newCells items.length).bind fun cells _ _ ofCells => ?_
    refine (vars_listTriples plain items ofCells.1 ofCells.2 rfl).bind
      fun triples _ _ same => .pure fun name => ?_
    rw [vars_headD ofCells.2 rfl]
    exact same name
  | .properties entries, _ => by
    rw [node]
    refine vars_newBlank.bind fun subject _ _ bare => ?_
    refine (vars_propertyTriples plain entries bare).bind
      fun triples _ _ same => .pure fun name => ?_
    rw [bare]
    exact same name

theorem vars_listTriples (plain : context.MakesPlain) : ∀ (items : List Surface.GraphNode)
    {cells : List Term} {last : Term} {supply : NameSupply}, cells.length = items.length →
    (∀ cell ∈ cells, cell.vars = []) → last.vars = [] →
    Behaves False (fun _ triples => ∀ name,
        name ∈ varsOf triples ↔ name ∈ Surface.GraphNode.varsOfItems items)
      (context.listTriples items cells last) supply
  | [], _, _, _, _, _, _ => .pure fun _ => Iff.rfl
  | item :: items, cell :: cells, last, _, sameLength, bare, ofLast => by
    rw [List.forall_mem_cons] at bare
    rw [listTriples]
    refine (vars_node plain item).bind fun result _ _ ofItem => ?_
    refine (vars_listTriples plain items (Nat.succ.inj sameLength) bare.2 ofLast).bind
      fun rest _ _ ofRest => .pure fun name => ?_
    have ofCell := vars_cellTriples context result.1 bare.1 (vars_headD bare.2 ofLast)
    have ofItem := ofItem name
    simp only [varsOf, List.flatMap_append, List.mem_append] at ofItem ofCell ⊢
    rw [ofCell, Surface.GraphNode.varsOfItems, List.mem_append, ← ofItem, ← ofRest name,
      or_comm (a := name ∈ List.flatMap _ _)]

theorem vars_propertyTriples (plain : context.MakesPlain) :
    ∀ (entries : List (Surface.Verb × Surface.GraphNode)) {subject : Term} {supply : NameSupply},
    subject.vars = [] →
    Behaves False (fun _ triples => ∀ name,
        name ∈ varsOf triples ↔ name ∈ Surface.GraphNode.varsOfEntries entries)
      (context.propertyTriples subject entries) supply
  | [], _, _, _ => .pure fun _ => Iff.rfl
  | (verb, object) :: entries, subject, _, bare => by
    rw [propertyTriples]
    refine .bindLift (vars_predicate plain verb) fun predicate ofPredicate => ?_
    refine (vars_node plain object).bind fun result _ _ ofObject => ?_
    refine (vars_propertyTriples plain entries bare).bind
      fun rest _ _ ofRest => .pure fun name => ?_
    have ofObject := ofObject name
    simp only [varsOf, List.flatMap_append, List.flatMap_cons, List.mem_append,
      Surface.GraphNode.varsOfEntries, FlatTriple.vars, bare, ofPredicate, List.nil_append]
      at ofObject ⊢
    rw [← ofObject, ← ofRest name]
    grind

end

theorem vars_triple (plain : context.MakesPlain) (written : Surface.Triple) :
    Behaves False (fun _ triples => ∀ name, name ∈ varsOf triples ↔ name ∈ written.vars)
      (context.triple written) supply := by
  rw [triple]
  refine (vars_node plain written.subject).bind fun subject _ _ ofSubject => ?_
  refine .bindLift (vars_predicate plain written.verb) fun predicate ofPredicate => ?_
  refine (vars_node plain written.object).bind fun object _ _ ofObject => .pure fun name => ?_
  have ofSubject := ofSubject name
  have ofObject := ofObject name
  simp only [varsOf, List.flatMap_append, List.flatMap_cons, List.flatMap_nil, List.append_nil,
    List.mem_append, Surface.Triple.vars, FlatTriple.vars, ofPredicate] at ofSubject ofObject ⊢
  rw [← ofSubject, ← ofObject]
  grind

theorem vars_triples (plain : context.MakesPlain) (written : List Surface.Triple) :
    Behaves False
      (fun _ triples => ∀ name, name ∈ varsOf triples ↔ name ∈ written.flatMap Surface.Triple.vars)
      (context.triples written) supply := by
  induction written generalizing supply with
  | nil => exact .pure fun _ => Iff.rfl
  | cons first rest ih =>
    rw [triples]
    refine (vars_triple plain first).bind fun triples _ _ ofFirst => ?_
    refine ih.bind fun others _ _ ofRest => .pure fun name => ?_
    rw [varsOf, List.flatMap_append, List.mem_append, List.flatMap_cons, List.mem_append,
      ← ofFirst name, ← ofRest name]

/-! ### Property paths -/

/-- The variables of pieces of a basic graph pattern. -/
abbrev varsOfPieces (fragments : List Fragment) : List Variable := fragments.flatMap Fragment.vars

mutual

theorem binds_fragments (plain : context.MakesPlain) : ∀ (path : Path) (subject object : Term)
    {supply : NameSupply},
    Behaves False
      (fun after fragments =>
        Binds supply after (subject.vars ++ object.vars) (varsOfPieces fragments))
      (context.fragments subject path object) supply
  | .link _, subject, object, _ => by
    rw [fragments]
    refine .pure (.of_iff fun name => ?_)
    simp [varsOfPieces, Fragment.vars, vars_defaultGraph plain]
  | .inverse path, subject, object, _ => by
    rw [fragments]
    refine (binds_fragments plain path object subject).imp fun _ _ _ binds => ?_
    exact binds.congr (fun name => by simp [or_comm]) fun _ => Iff.rfl
  | .seq steps, subject, object, _ => by
    rw [fragments]
    exact binds_stepFragments plain steps subject object
  | .alt _, subject, object, _
  | .zeroOrMore _, subject, object, _
  | .oneOrMore _, subject, object, _
  | .zeroOrOne _, subject, object, _
  | .negated _, subject, object, _ =>
    .pure (.of_iff fun name => by simp [varsOfPieces, Fragment.vars, vars_defaultGraph plain])

theorem binds_stepFragments (plain : context.MakesPlain) : ∀ (steps : List Path)
    (subject object : Term) {supply : NameSupply},
    Behaves False
      (fun after fragments =>
        Binds supply after (subject.vars ++ object.vars) (varsOfPieces fragments))
      (context.stepFragments subject steps object) supply
  | [], subject, object, _ =>
    .pure (.of_iff fun name => by simp [varsOfPieces, Fragment.vars, vars_defaultGraph plain])
  | [step], subject, object, _ => by
    rw [stepFragments]
    exact binds_fragments plain step subject object
  | step :: next :: steps, subject, object, _ => by
    rw [stepFragments]
    refine (binds_newVariable plain).bind fun between s₁ gives₁ minted => ?_
    refine (binds_fragments plain step subject (.var between)).bind
      fun first s₂ gives₂ ofFirst => ?_
    refine (binds_stepFragments plain (next :: steps) (.var between) object).bind
      fun rest s₃ gives₃ ofRest => .pure ?_
    have both := ((ofFirst.earlier gives₁).later gives₃).append
      (ofRest.earlier (gives₁.trans gives₂))
    rw [varsOfPieces, List.flatMap_append]
    refine both.hide (minted.later (gives₂.trans gives₃)) (fun name => ?_) fun name => ?_
    · simp only [Term.vars_var, List.mem_append, List.mem_singleton]
      grind
    · simp only [Term.vars_var, List.mem_append, List.mem_singleton]
      grind

end

theorem binds_tripleFragments (plain : context.MakesPlain) (triple : FlatTriple) :
    Behaves False (fun after fragments => Binds supply after triple.vars (varsOfPieces fragments))
      (context.tripleFragments triple) supply := by
  obtain ⟨subject, predicate, object⟩ := triple
  rw [tripleFragments]
  cases predicate with
  | term value =>
    refine .pure (.of_iff fun name => ?_)
    simp [varsOfPieces, Fragment.vars, FlatTriple.vars, FlatPredicate.vars,
      vars_defaultGraph plain]
  | path written =>
    refine .bindLift (Settles.of_ok (P := fun _ => True) fun _ _ => trivial) fun path _ => ?_
    refine (binds_fragments plain path subject object).imp fun _ _ _ binds => ?_
    exact binds.congr (fun name => by simp [FlatTriple.vars, FlatPredicate.vars]) fun _ => Iff.rfl

theorem binds_allFragments (plain : context.MakesPlain) (triples : List FlatTriple) :
    Behaves False
      (fun after fragments => Binds supply after (varsOf triples) (varsOfPieces fragments))
      (context.allFragments triples) supply := by
  induction triples generalizing supply with
  | nil => exact .pure (.of_iff fun _ => Iff.rfl)
  | cons triple rest ih =>
    rw [allFragments]
    refine (binds_tripleFragments plain triple).bind fun first s₁ gives₁ ofFirst => ?_
    refine ih.bind fun others s₂ gives₂ ofRest => .pure ?_
    rw [varsOf, varsOfPieces, List.flatMap_append, List.flatMap_cons]
    exact (ofFirst.later gives₂).append (ofRest.earlier gives₁)

/-- The operation of triples has their variables in scope, and besides them only variables that are
taken meanwhile. -/
theorem binds_basicGraphPattern (plain : context.MakesPlain) (written : List Surface.Triple) :
    Behaves False
      (fun after operation =>
        Binds supply after (written.flatMap Surface.Triple.vars) operation.met)
      (context.basicGraphPattern written) supply := by
  rw [basicGraphPattern]
  refine (vars_triples plain written).bind fun flat s₁ gives₁ same => ?_
  refine (binds_allFragments plain flat).bind fun fragments s₂ gives₂ binds => .pure ?_
  rw [Operation.met_ofFragments]
  exact (binds.earlier gives₁).congr (fun name => (same name).symm) fun _ => Iff.rfl

end Context

end QueryAlgebra
