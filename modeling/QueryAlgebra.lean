import QueryAlgebra.Decimal.Binary64
import QueryAlgebra.Decimal.Shortest
import QueryAlgebra.Iri
import QueryAlgebra.Json
import QueryAlgebra.Json.Scan
import QueryAlgebra.Lifting.Collected
import QueryAlgebra.Lifting.Operation
import QueryAlgebra.Lifting.QueryScope
import QueryAlgebra.Lifting.Request
import QueryAlgebra.Lifting.Substitution
import QueryAlgebra.Lifting.Triples
import QueryAlgebra.Lowering.Aggregates
import QueryAlgebra.Lowering.BlankNodes
import QueryAlgebra.Lowering.Context
import QueryAlgebra.Lowering.GraphBlocks
import QueryAlgebra.Lowering.Names
import QueryAlgebra.Lowering.Pattern
import QueryAlgebra.Lowering.Request
import QueryAlgebra.Lowering.Triples
import QueryAlgebra.NameMap
import QueryAlgebra.Node
import QueryAlgebra.Node.OwnTerms
import QueryAlgebra.Node.Slots
import QueryAlgebra.Operation
import QueryAlgebra.Operation.Canonical
import QueryAlgebra.Operation.EmbeddedGraphs
import QueryAlgebra.Operation.Equality
import QueryAlgebra.Operation.JsonForm
import QueryAlgebra.Operation.Scope
import QueryAlgebra.Operation.Walk
import QueryAlgebra.Options
import QueryAlgebra.Path
import QueryAlgebra.Proofs.Iri
import QueryAlgebra.Proofs.Json.Equality
import QueryAlgebra.Proofs.Lifting.AccountedVariables
import QueryAlgebra.Proofs.Lifting.BindingOrder
import QueryAlgebra.Proofs.Lifting.Bindings
import QueryAlgebra.Proofs.Lifting.BoundVariables
import QueryAlgebra.Proofs.Lifting.Clauseless
import QueryAlgebra.Proofs.Lifting.ExpressionRereading
import QueryAlgebra.Proofs.Lifting.GrantedOperations
import QueryAlgebra.Proofs.Lifting.GrantedQueries
import QueryAlgebra.Proofs.Lifting.GrantedTerms
import QueryAlgebra.Proofs.Lifting.GroupedRereading
import QueryAlgebra.Proofs.Lifting.GroupedSolutions
import QueryAlgebra.Proofs.Lifting.JoinedMembers
import QueryAlgebra.Proofs.Lifting.LiftedAgain
import QueryAlgebra.Proofs.Lifting.Meaning
import QueryAlgebra.Proofs.Lifting.MeetingOperations
import QueryAlgebra.Proofs.Lifting.MeetingQueries
import QueryAlgebra.Proofs.Lifting.MeetingRequests
import QueryAlgebra.Proofs.Lifting.MeetingTerms
import QueryAlgebra.Proofs.Lifting.NormalForm
import QueryAlgebra.Proofs.Lifting.NormalLift
import QueryAlgebra.Proofs.Lifting.NormalRereading
import QueryAlgebra.Proofs.Lifting.OuterFilters
import QueryAlgebra.Proofs.Lifting.PathRereading
import QueryAlgebra.Proofs.Lifting.PieceNames
import QueryAlgebra.Proofs.Lifting.Pieces
import QueryAlgebra.Proofs.Lifting.PlainLift
import QueryAlgebra.Proofs.Lifting.PlainPieces
import QueryAlgebra.Proofs.Lifting.PlainQueries
import QueryAlgebra.Proofs.Lifting.QueryNames
import QueryAlgebra.Proofs.Lifting.QueryRequests
import QueryAlgebra.Proofs.Lifting.QueryRereading
import QueryAlgebra.Proofs.Lifting.ReadClauses
import QueryAlgebra.Proofs.Lifting.Regrouping
import QueryAlgebra.Proofs.Lifting.Rereading
import QueryAlgebra.Proofs.Lifting.RestoredAggregates
import QueryAlgebra.Proofs.Lifting.RetoldClauses
import QueryAlgebra.Proofs.Lifting.RetoldForms
import QueryAlgebra.Proofs.Lifting.RetoldQueries
import QueryAlgebra.Proofs.Lifting.SettledForm
import QueryAlgebra.Proofs.Lifting.SettledRequests
import QueryAlgebra.Proofs.Lifting.SpelledQueries
import QueryAlgebra.Proofs.Lifting.StarProjections
import QueryAlgebra.Proofs.Lifting.SubstantialPatterns
import QueryAlgebra.Proofs.Lifting.UpdateRereading
import QueryAlgebra.Proofs.Lifting.WrittenBlocks
import QueryAlgebra.Proofs.Lifting.WrittenExpressions
import QueryAlgebra.Proofs.Lifting.WrittenPaths
import QueryAlgebra.Proofs.Lifting.WrittenQueries
import QueryAlgebra.Proofs.Lifting.WrittenTerms
import QueryAlgebra.Proofs.Lowering.AbsolutePasses
import QueryAlgebra.Proofs.Lowering.AbsoluteRequests
import QueryAlgebra.Proofs.Lowering.AbsoluteTerms
import QueryAlgebra.Proofs.Lowering.AdmittedParts
import QueryAlgebra.Proofs.Lowering.Behaviour
import QueryAlgebra.Proofs.Lowering.BlankVariables
import QueryAlgebra.Proofs.Lowering.BoundPatterns
import QueryAlgebra.Proofs.Lowering.BoundTriples
import QueryAlgebra.Proofs.Lowering.Collections
import QueryAlgebra.Proofs.Lowering.ComparedPatterns
import QueryAlgebra.Proofs.Lowering.Comparison
import QueryAlgebra.Proofs.Lowering.ComposedComparisons
import QueryAlgebra.Proofs.Lowering.EmbeddedSites
import QueryAlgebra.Proofs.Lowering.EnclosingGraphs
import QueryAlgebra.Proofs.Lowering.ExpandedIris
import QueryAlgebra.Proofs.Lowering.ExpandedRequests
import QueryAlgebra.Proofs.Lowering.ExtractedAggregates
import QueryAlgebra.Proofs.Lowering.FilledBlocks
import QueryAlgebra.Proofs.Lowering.FilledRequests
import QueryAlgebra.Proofs.Lowering.FreshNames
import QueryAlgebra.Proofs.Lowering.GraphRoundTrip
import QueryAlgebra.Proofs.Lowering.GroupFilters
import QueryAlgebra.Proofs.Lowering.HiddenGraphs
import QueryAlgebra.Proofs.Lowering.LikePatterns
import QueryAlgebra.Proofs.Lowering.Likeness
import QueryAlgebra.Proofs.Lowering.MarkedBlocks
import QueryAlgebra.Proofs.Lowering.MarkedPatterns
import QueryAlgebra.Proofs.Lowering.MarkedRequests
import QueryAlgebra.Proofs.Lowering.MarkedTerms
import QueryAlgebra.Proofs.Lowering.MatchedPieces
import QueryAlgebra.Proofs.Lowering.NamesOfRequests
import QueryAlgebra.Proofs.Lowering.OpenBlocks
import QueryAlgebra.Proofs.Lowering.Outcomes
import QueryAlgebra.Proofs.Lowering.PairedNames
import QueryAlgebra.Proofs.Lowering.PairedPieces
import QueryAlgebra.Proofs.Lowering.PathPieces
import QueryAlgebra.Proofs.Lowering.PlacedLikeness
import QueryAlgebra.Proofs.Lowering.PlainPattern
import QueryAlgebra.Proofs.Lowering.RenewedNames
import QueryAlgebra.Proofs.Lowering.SameTerms
import QueryAlgebra.Proofs.Lowering.Scoping
import QueryAlgebra.Proofs.Lowering.Segments
import QueryAlgebra.Proofs.Lowering.SimplifiedRequests
import QueryAlgebra.Proofs.Lowering.SpanlessRequests
import QueryAlgebra.Proofs.Lowering.SpanlessTerms
import QueryAlgebra.Proofs.Lowering.Translation
import QueryAlgebra.Proofs.Lowering.WellFormedAggregates
import QueryAlgebra.Proofs.Lowering.WellFormedBlocks
import QueryAlgebra.Proofs.Lowering.WellFormedPatterns
import QueryAlgebra.Proofs.Lowering.WellFormedRequests
import QueryAlgebra.Proofs.Lowering.WellFormedTerms
import QueryAlgebra.Proofs.Lowering.WellFormedTriples
import QueryAlgebra.Proofs.NameMap
import QueryAlgebra.Proofs.NumberedNames
import QueryAlgebra.Proofs.Operation.AllowedNames
import QueryAlgebra.Proofs.Operation.BlankReplacement
import QueryAlgebra.Proofs.Operation.CanonicalForm
import QueryAlgebra.Proofs.Operation.CanonicalInvariance
import QueryAlgebra.Proofs.Operation.ClearedGraphs
import QueryAlgebra.Proofs.Operation.ClearedIris
import QueryAlgebra.Proofs.Operation.Correspondence
import QueryAlgebra.Proofs.Operation.CorrespondenceLaws
import QueryAlgebra.Proofs.Operation.CorrespondingBlanks
import QueryAlgebra.Proofs.Operation.CorrespondingGraphs
import QueryAlgebra.Proofs.Operation.CorrespondingNames
import QueryAlgebra.Proofs.Operation.CorrespondingOperators
import QueryAlgebra.Proofs.Operation.GraphsTakenOut
import QueryAlgebra.Proofs.Operation.Iris
import QueryAlgebra.Proofs.Operation.JsonDetermines
import QueryAlgebra.Proofs.Operation.JsonParts
import QueryAlgebra.Proofs.Operation.KeptForms
import QueryAlgebra.Proofs.Operation.Leaves
import QueryAlgebra.Proofs.Operation.MarkedNames
import QueryAlgebra.Proofs.Operation.MatchedGraphs
import QueryAlgebra.Proofs.Operation.NamedGraphs
import QueryAlgebra.Proofs.Operation.OwnTerms
import QueryAlgebra.Proofs.Operation.PatternSites
import QueryAlgebra.Proofs.Operation.PlacedGraphs
import QueryAlgebra.Proofs.Operation.Renaming
import QueryAlgebra.Proofs.Operation.ScopeMembers
import QueryAlgebra.Proofs.Operation.SimplifiedForm
import QueryAlgebra.Proofs.Operation.SparedNames
import QueryAlgebra.Proofs.Operation.WellFormed
import QueryAlgebra.Proofs.Operation.WellFormedRebuild
import QueryAlgebra.Proofs.Operation.WellFormedness
import QueryAlgebra.Proofs.RoundTrip
import QueryAlgebra.Proofs.Semantics.Interpretation
import QueryAlgebra.Proofs.Semantics.PathRelations
import QueryAlgebra.Proofs.Semantics.Solutions
import QueryAlgebra.Proofs.Surface.Demands
import QueryAlgebra.Proofs.Surface.JsonNames
import QueryAlgebra.Proofs.Surface.Layout
import QueryAlgebra.Proofs.Surface.PatternParts
import QueryAlgebra.Proofs.Surface.ScopeNames
import QueryAlgebra.Proofs.Surface.WrittenIris
import QueryAlgebra.Proofs.Traversal.Configuration
import QueryAlgebra.Proofs.Traversal.Fitting
import QueryAlgebra.Proofs.Traversal.Recursion
import QueryAlgebra.Proofs.Traversal.Refinement
import QueryAlgebra.Proofs.Traversal.Refitting
import QueryAlgebra.Proofs.Traversal.SlotAccess
import QueryAlgebra.Proofs.Traversal.StackBound
import QueryAlgebra.Proofs.Traversal.Unchanged
import QueryAlgebra.Proofs.Traversal.Visiting
import QueryAlgebra.Surface.JsonForm
import QueryAlgebra.Surface.Names
import QueryAlgebra.Surface.Operators
import QueryAlgebra.Surface.Query
import QueryAlgebra.Surface.Request
import QueryAlgebra.Surface.Scope
import QueryAlgebra.Surface.Triple
import QueryAlgebra.Term
import QueryAlgebra.Text.Lowercase
import QueryAlgebra.Traversal
import QueryAlgebra.Traversal.Table
import QueryAlgebra.Traversal.Visit
