import QueryPlan.Expr.Json
import QueryPlan.Json.Parser
import QueryPlan.Json.Printer
import QueryPlan.Planning
import QueryPlan.Settings.Read
import QueryPlan.Proofs.Row
import QueryPlan.Proofs.Fit
import QueryPlan.Proofs.Outcome
import QueryPlan.Proofs.Contraction
import QueryPlan.Proofs.Growth
import QueryPlan.Proofs.Leads
import QueryPlan.Proofs.Select
import QueryPlan.Proofs.Merge
import QueryPlan.Proofs.Pair
import QueryPlan.Proofs.Applied
import QueryPlan.Proofs.Classified
import QueryPlan.Proofs.Copies
import QueryPlan.Proofs.Union
import QueryPlan.Proofs.Sides
import QueryPlan.Proofs.Alone
import QueryPlan.Proofs.Disjunction
import QueryPlan.Proofs.Conjunction
import QueryPlan.Proofs.Outer
import QueryPlan.Proofs.Detached
import QueryPlan.Proofs.LinkedJoin
import QueryPlan.Proofs.Start
import QueryPlan.Proofs.Unlinked
import QueryPlan.Proofs.Evaluation
import QueryPlan.Proofs.Validated
import QueryPlan.Proofs.InnerLinks
import QueryPlan.Proofs.Chains
import QueryPlan.Proofs.OuterLink
import QueryPlan.Proofs.LeftChains
import QueryPlan.Proofs.Steps
import QueryPlan.Proofs.Meets
import QueryPlan.Proofs.SoundFilters
import QueryPlan.Proofs.Failures
import QueryPlan.Proofs.LinkEnds
import QueryPlan.Proofs.ReportedColumns
import QueryPlan.Proofs.OuterJoinCount
import QueryPlan.Proofs.SoleOwners
import QueryPlan.Proofs.Conserved
import QueryPlan.Proofs.MarkPairs
import QueryPlan.Proofs.Completeness
import QueryPlan.Proofs.ResolvableFilters
import QueryPlan.Proofs.LikeJoins
import QueryPlan.Proofs.LikeFilters
import QueryPlan.Proofs.LikeQueries
import QueryPlan.Proofs.Renamed
import QueryPlan.Proofs.Uncached
import QueryPlan.Proofs.Idle
import QueryPlan.Proofs.Vacuous
import QueryPlan.Proofs.Names
import QueryPlan.Proofs.NestedPlans
import QueryPlan.Proofs.SharedCaches
import QueryPlan.Proofs.JsonRoundTrip
import QueryPlan.Proofs.LinkConsistency
import QueryPlan.Proofs.JoinFlag
import QueryPlan.Proofs.OpaqueHandles
import QueryPlan.Proofs.LocalFilters
import QueryPlan.Proofs.JoinRuns
import QueryPlan.Proofs.Padded
import QueryPlan.Proofs.Forests
import QueryPlan.Proofs.LinkedChains
import QueryPlan.Proofs.PendingOuterJoins
import QueryPlan.Proofs.SettledFilters
import QueryPlan.Proofs.DisjointChains
import QueryPlan.Proofs.Classification
import QueryPlan.Proofs.RealConjuncts
import QueryPlan.Proofs.Positions
import QueryPlan.Proofs.Reconciliation
import QueryPlan.Proofs.FailedCalls
import QueryPlan.Proofs.CopiedSets
import QueryPlan.Proofs.Explained
import QueryPlan.Proofs.WrittenNames
import QueryPlan.Proofs.FirstAppearances
import QueryPlan.Proofs.Interchanges
import QueryPlan.Proofs.Spelling
import QueryPlan.Proofs.UniqueReading
