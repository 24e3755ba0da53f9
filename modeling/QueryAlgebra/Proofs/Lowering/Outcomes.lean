import QueryAlgebra.Lowering.Request

/-! # Comparing steps of the passage to the algebra

Two steps agree if they both fail with the same error, or both succeed with related results, and
leave the same supply of names. Agreement is kept by putting steps one after another.
-/

namespace QueryAlgebra

/-- A sequence of two steps that take no names succeeds only if both succeed. -/
theorem ok_of_bind {ε α β : Type} {first : Except ε α} {next : α → Except ε β} {result : β}
    (success : first >>= next = .ok result) :
    ∃ value, first = .ok value ∧ next value = .ok result := by
  cases first with
  | error error => cases success
  | ok value => exact ⟨value, rfl, success⟩

namespace Lowering

variable {α β γ δ : Type} {R : α → β → Prop} {S : γ → δ → Prop}

/-- Outcomes that are the same error, or related results, over the same supply. -/
inductive Alike (R : α → β → Prop) :
    EStateM.Result LoweringError NameSupply α → EStateM.Result LoweringError NameSupply β → Prop
  | ok {first : α} {second : β} {supply : NameSupply} (related : R first second) :
    Alike R (.ok first supply) (.ok second supply)
  | error {error : LoweringError} {supply : NameSupply} :
    Alike R (.error error supply) (.error error supply)

/-- Two steps that have alike outcomes from every supply. -/
def Agree (R : α → β → Prop) (first : Lowering α) (second : Lowering β) : Prop :=
  ∀ supply, Alike R (first supply) (second supply)

theorem Alike.refl {R : α → α → Prop} (related : ∀ value, R value value)
    (outcome : EStateM.Result LoweringError NameSupply α) : Alike R outcome outcome := by
  cases outcome with
  | ok value supply => exact .ok (related value)
  | error error supply => exact .error

/-- What the second of two alike outcomes is if the first is a result. -/
theorem Alike.of_ok {first : α} {supply : NameSupply}
    {outcome : EStateM.Result LoweringError NameSupply β}
    (alike : Alike R (.ok first supply) outcome) :
    ∃ second, outcome = .ok second supply ∧ R first second := by
  cases alike with
  | ok related => exact ⟨_, rfl, related⟩

/-- What the second of two alike outcomes is if the first is an error. -/
theorem Alike.of_error {error : LoweringError} {supply : NameSupply}
    {outcome : EStateM.Result LoweringError NameSupply β}
    (alike : Alike R (.error error supply) outcome) : outcome = .error error supply := by
  cases alike with
  | error => rfl

theorem lift_map (f : α → β) (outcome : Except LoweringError α) :
    (liftM (f <$> outcome) : Lowering β) = f <$> (liftM outcome : Lowering α) := by
  cases outcome <;> rfl

theorem map_ite (f : α → β) (condition : Prop) [Decidable condition] (first second : Lowering α) :
    f <$> (if condition then first else second)
      = if condition then f <$> first else f <$> second :=
  apply_ite (f <$> ·) condition first second

theorem bind_ok {step : Lowering α} {next : α → Lowering γ} {value : α}
    {supply after : NameSupply} (success : step supply = .ok value after) :
    (step >>= next) supply = next value after := by
  simp only [bind, EStateM.bind, success]

theorem bind_error {step : Lowering α} {next : α → Lowering γ} {error : LoweringError}
    {supply after : NameSupply} (failure : step supply = .error error after) :
    (step >>= next) supply = .error error after := by
  simp only [bind, EStateM.bind, failure]

/-- A sequence of two steps succeeds only if both succeed. -/
theorem of_bind_ok {step : Lowering α} {next : α → Lowering γ} {result : γ}
    {supply last : NameSupply} (success : (step >>= next) supply = .ok result last) :
    ∃ value after, step supply = .ok value after ∧ next value after = .ok result last := by
  cases outcome : step supply with
  | ok value after => exact ⟨value, after, rfl, by rw [← success, bind_ok outcome]⟩
  | error error after => rw [bind_error outcome] at success; cases success

theorem of_pure_ok {value result : α} {supply last : NameSupply}
    (success : (pure value : Lowering α) supply = .ok result last) :
    value = result ∧ supply = last := by
  cases success
  exact ⟨rfl, rfl⟩

/-- A sequence of two steps succeeds exactly if both succeed. -/
theorem bind_ok_iff {step : Lowering α} {next : α → Lowering γ} {result : γ}
    {supply last : NameSupply} :
    (step >>= next) supply = .ok result last
      ↔ ∃ value after, step supply = .ok value after ∧ next value after = .ok result last := by
  refine ⟨of_bind_ok, ?_⟩
  rintro ⟨value, after, first, second⟩
  rw [bind_ok first, second]

theorem pure_ok_iff {value result : α} {supply last : NameSupply} :
    (pure value : Lowering α) supply = .ok result last ↔ value = result ∧ supply = last := by
  refine ⟨of_pure_ok, ?_⟩
  rintro ⟨rfl, rfl⟩
  rfl

/-- What does not depend on names succeeds without taking any. -/
theorem of_lift_ok {result : Except LoweringError α} {value : α} {supply after : NameSupply}
    (success : (liftM result : Lowering α) supply = .ok value after) :
    result = .ok value ∧ supply = after := by
  cases result with
  | ok found =>
    obtain ⟨rfl, rfl⟩ := of_pure_ok success
    exact ⟨rfl, rfl⟩
  | error => cases success

/-- Steps that go on alike from alike outcomes have alike outcomes together. -/
theorem Alike.bind {first : Lowering α} {second : Lowering β} {next : α → Lowering γ}
    {next' : β → Lowering δ} {supply : NameSupply}
    (alike : Alike R (first supply) (second supply))
    (goesOn : ∀ value value' after, first supply = .ok value after → R value value' →
      Alike S (next value after) (next' value' after)) :
    Alike S ((first >>= next) supply) ((second >>= next') supply) := by
  cases outcome : first supply with
  | ok value after =>
    rw [outcome] at alike
    obtain ⟨value', outcome', related⟩ := alike.of_ok
    rw [bind_ok outcome, bind_ok outcome']
    exact goesOn value value' after outcome related
  | error error after =>
    rw [outcome] at alike
    cases outcome' : second supply with
    | ok value' after' => rw [outcome'] at alike; cases alike
    | error error' after' =>
      rw [outcome'] at alike
      cases alike
      rw [bind_error outcome, bind_error outcome']
      exact .error

theorem Agree.refl {R : α → α → Prop} (related : ∀ value, R value value) (step : Lowering α) :
    Agree R step step := fun supply => Alike.refl related (step supply)

theorem Agree.bind {first : Lowering α} {second : Lowering β} {next : α → Lowering γ}
    {next' : β → Lowering δ} (agree : Agree R first second)
    (goesOn : ∀ value value', R value value' → Agree S (next value) (next' value')) :
    Agree S (first >>= next) (second >>= next') := fun supply =>
  (agree supply).bind fun value value' after _ related => goesOn value value' related after

theorem Agree.pure {value : α} {value' : β} (related : R value value') :
    Agree R (pure value) (pure value') := fun _ => .ok related

/-- Steps that begin with the same step and go on alike agree. -/
theorem Agree.same_bind {step : Lowering α} {next : α → Lowering γ} {next' : α → Lowering δ}
    (goesOn : ∀ value, Agree S (next value) (next' value)) :
    Agree S (step >>= next) (step >>= next') :=
  Agree.bind (Agree.refl (fun _ => rfl) step) fun value value' (same : value = value') =>
    same ▸ goesOn value

/-- A property that holds of every result of a step. -/
def Yields (P : α → Prop) (step : Lowering α) : Prop :=
  ∀ supply value after, step supply = .ok value after → P value

theorem Yields.pure {P : α → Prop} {value : α} (holds : P value) :
    Yields P (pure value : Lowering α) := by
  intro supply result after success
  obtain ⟨rfl, rfl⟩ := of_pure_ok success
  exact holds

theorem Yields.bind {P : α → Prop} {Q : γ → Prop} {step : Lowering α} {next : α → Lowering γ}
    (yields : Yields P step) (goesOn : ∀ value, P value → Yields Q (next value)) :
    Yields Q (step >>= next) := by
  intro supply result last success
  obtain ⟨value, after, first, second⟩ := of_bind_ok success
  exact goesOn value (yields supply value after first) after result last second

theorem Yields.bind_any {Q : γ → Prop} {step : Lowering α} {next : α → Lowering γ}
    (goesOn : ∀ value, Yields Q (next value)) : Yields Q (step >>= next) :=
  Yields.bind (P := fun _ => True) (fun _ _ _ _ => trivial) fun value _ => goesOn value

theorem Yields.and {P Q : α → Prop} {step : Lowering α} (first : Yields P step)
    (second : Yields Q step) : Yields (fun value => P value ∧ Q value) step :=
  fun supply value after success =>
    ⟨first supply value after success, second supply value after success⟩

theorem Yields.throw {P : α → Prop} (error : LoweringError) :
    Yields P (throw error : Lowering α) := by
  intro supply result after success
  cases success

/-- A step agrees with itself if all its results are related to themselves. -/
theorem Yields.agree {R : α → α → Prop} {step : Lowering α}
    (yields : Yields (fun value => R value value) step) : Agree R step step := fun supply => by
  cases outcome : step supply with
  | ok value after => exact .ok (yields supply value after outcome)
  | error error after => exact .error

/-- A step whose results are related only to themselves, and only if they have a property. -/
theorem Agree.yields {P : α → Prop} {step : Lowering α}
    (agree : Agree (fun value value' => P value ∧ value = value') step step) : Yields P step := by
  intro supply value after success
  have alike := agree supply
  rw [success] at alike
  cases alike with
  | ok related => exact related.1

theorem Yields.lift {P : α → Prop} {result : Except LoweringError α}
    (holds : ∀ value, result = .ok value → P value) : Yields P (liftM result : Lowering α) := by
  cases result with
  | ok value => exact Yields.pure (holds value rfl)
  | error error => exact Yields.throw error

end Lowering

/-! ### Requests -/

namespace Surface.Request

variable {options : Options} {request : Surface.Request}

/-- A request has an operation if its passage ends with this operation. -/
theorem lower_ok_iff {operation : Operation} :
    request.lower options = .ok operation
      ↔ ∃ after, (Context.ofOptions .plain options).request options.blankToVariable request
        (.ofNames request.names) = .ok operation after := by
  rw [lower, lowerWith]
  cases (Context.ofOptions .plain options).request options.blankToVariable request
    (.ofNames request.names) <;> simp

/-- A request fails if its passage ends with the error. -/
theorem lower_error_iff {error : LoweringError} :
    request.lower options = .error error
      ↔ ∃ after, (Context.ofOptions .plain options).request options.blankToVariable request
        (.ofNames request.names) = .error error after := by
  rw [lower, lowerWith]
  cases (Context.ofOptions .plain options).request options.blankToVariable request
    (.ofNames request.names) <;> simp

/-- If the passage of a request ends alike with other options, the request has related operations,
or fails with the same error. -/
theorem lower_alike (options options' : Options) {R : Operation → Operation → Prop}
    (alike : Lowering.Alike R
      ((Context.ofOptions .plain options).request options.blankToVariable request
        (.ofNames request.names))
      ((Context.ofOptions .plain options').request options'.blankToVariable request
        (.ofNames request.names))) :
    (∃ first second, request.lower options = .ok first ∧ request.lower options' = .ok second
        ∧ R first second)
      ∨ ∃ error, request.lower options = .error error ∧ request.lower options' = .error error := by
  cases outcome : (Context.ofOptions .plain options).request options.blankToVariable request
      (.ofNames request.names) with
  | ok first after =>
    rw [outcome] at alike
    obtain ⟨second, outcome', related⟩ := alike.of_ok
    exact .inl ⟨first, second, lower_ok_iff.2 ⟨after, outcome⟩, lower_ok_iff.2 ⟨after, outcome'⟩,
      related⟩
  | error error after =>
    rw [outcome] at alike
    exact .inr ⟨error, lower_error_iff.2 ⟨after, outcome⟩,
      lower_error_iff.2 ⟨after, alike.of_error⟩⟩

end Surface.Request

end QueryAlgebra
