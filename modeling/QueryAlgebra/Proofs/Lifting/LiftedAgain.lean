import QueryAlgebra.Proofs.Lifting.MeetingRequests
import QueryAlgebra.Proofs.Lowering.WellFormedRequests

/-! # Lifting what was lowered

The operation of any request lifts to a request, and that request has an operation under the same
options. The operation of a request is well-formed with absolute IRIs, so it can be written in full;
what is written so can be read without prefixes and without a base. Nothing can fail but a traversal
that needs more stack than there is.
-/

namespace QueryAlgebra

open Surface (Demands)

/-- The demand that `if` has three arguments where it is called as a built-in function. -/
def Surface.Demands.threeToIf : Demands :=
  ⟨fun _ => True, fun function count => function = .ifElse → count = 3, True, True⟩

/-- What holds of the requests that are lifted: all IRIs are written in full, triples are updated
only if graph names may stand in patterns, and nothing is loose. -/
def Surface.Demands.lifted (options : Options) : Demands :=
  ⟨fun iri => iri.isFull = true, fun _ _ => True, options.quads = true, False⟩

/-- What holds of a request that was lifted. -/
def Guarantee.ofLifted (options : Options) : Guarantee where
  demands := .lifted options
  clean := True
  strict := False
  graphs := options.quads = true
  full _ _ full := full
  three := False.elim
  updates _ updates := updates
  tight _ := id

namespace Surface.Request

/-- A request that was lifted has an operation, unless the stack is too small. -/
theorem exists_lower_of_meets {options : Options} {request : Surface.Request}
    (meets : request.Meets (.lifted options)) :
    (∃ operation, request.lower options = .ok operation)
      ∨ ∃ limit, request.lower options = .error (.traversal (.stackOverflow limit)) := by
  have suits : (Context.ofOptions .plain options).Suits (.ofLifted options) :=
    ⟨rfl, False.elim, Iff.rfl⟩
  have behaves := Context.behaves_request suits options.blankToVariable
    (NameSupply.covers_ofNames request.names) meets
  unfold Lowering.Behaves at behaves
  rw [lower, lowerWith]
  cases outcome : (Context.ofOptions .plain options).request options.blankToVariable request
      (.ofNames request.names) with
  | ok operation after => exact .inl ⟨operation, rfl⟩
  | error error after =>
    rw [outcome] at behaves
    obtain ⟨limit⟩ := behaves.2 trivial
    exact .inr ⟨limit, rfl⟩

end Surface.Request

end QueryAlgebra
