import QueryAlgebra.Proofs.Lowering.WellFormedRequests
import QueryAlgebra.Proofs.Operation.AllowedNames
import QueryAlgebra.Proofs.Surface.JsonNames

/-! # The names in the operation of a request

All names that are taken from the supply while a request becomes an operation are different from
each other and from the names written in the request, and the operation has no others.
-/

namespace QueryAlgebra

/-- The names in use at the start are those written in the request. -/
theorem NameSupply.has_ofNames {request : Surface.Request} {name : LocalName} :
    (ofNames request.names).Has name ↔ name ∈ request.toJson.names := by
  rw [Surface.Request.mem_names_toJson]
  cases name <;> exact Iff.rfl

/-- What holds of every request, whatever is written in it. -/
def Guarantee.ofNames (options : Options) : Guarantee where
  demands := .nothing
  clean := False
  strict := False
  graphs := options.quads = true
  full := False.elim
  three := False.elim
  updates := False.elim
  tight := False.elim

namespace Surface.Request

/-- The names that are taken from the supply for a request are new, and its operation has only these
names and those that are written. -/
theorem taken_names_are_new (options : Options) (request : Surface.Request) :
    ∃ minted after, (NameSupply.ofNames request.names).Mints minted after
      ∧ minted.Nodup ∧ (∀ name ∈ minted, name ∉ request.toJson.names)
      ∧ match (Context.ofOptions .plain options).request options.blankToVariable request
          (.ofNames request.names) with
        | .ok operation last => last = after ∧ request.lower options = .ok operation
          ∧ ∀ name ∈ operation.allNames, name ∈ request.toJson.names ∨ name ∈ minted
        | .error error last => last = after ∧ request.lower options = .error error := by
  have suits : (Context.ofOptions .plain options).Suits (.ofNames options) :=
    ⟨rfl, False.elim, Iff.rfl⟩
  have behaves := Context.behaves_request suits options.blankToVariable
    (NameSupply.covers_ofNames request.names) request.meets_nothing
  have fresh : ∀ {minted after}, (NameSupply.ofNames request.names).Mints minted after →
      ∀ name ∈ minted, name ∉ request.toJson.names := fun mints name isMinted isWritten =>
    mints.fresh name isMinted (NameSupply.has_ofNames.2 isWritten)
  unfold Lowering.Behaves at behaves
  rw [lower, lowerWith]
  cases outcome : (Context.ofOptions .plain options).request options.blankToVariable request
      (.ofNames request.names) with
  | error error last =>
    rw [outcome] at behaves
    obtain ⟨⟨minted, mints⟩, -⟩ := behaves
    exact ⟨minted, last, mints, mints.nodup, fresh mints, rfl, rfl⟩
  | ok operation last =>
    rw [outcome] at behaves
    obtain ⟨⟨minted, mints⟩, isRequest⟩ := behaves
    refine ⟨minted, last, mints, mints.nodup, fresh mints, rfl, rfl, fun name inOperation => ?_⟩
    rcases (mints.has_iff name).1 (isRequest.allows name inOperation) with isMinted | isWritten
    · exact .inr isMinted
    · exact .inl (NameSupply.has_ofNames.1 isWritten)

end Surface.Request

end QueryAlgebra
