import PolicyReach.Ordered.Map
import PolicyReach.Text.Blank
import PolicyReach.Text.Keyword
import PolicyReach.Json.Printer
import PolicyReach.Json.Reader
import PolicyReach.Json.Record
import PolicyReach.Json.Canonical
import PolicyReach.TextFile
import PolicyReach.Rule
import PolicyReach.Policy.Fixture
import PolicyReach.PermissionMap.Reader
import PolicyReach.Config
import PolicyReach.Mode
import PolicyReach.Registry
import PolicyReach.AnalysisError
import PolicyReach.Flow.Scan
import PolicyReach.Flow.Selection
import PolicyReach.Flow.PathEnumeration
import PolicyReach.Pattern.Match
import PolicyReach.Pattern.Reader
import PolicyReach.Query
import PolicyReach.Flow.Session
import PolicyReach.Session
import PolicyReach.Version
import PolicyReach.Proofs.Registry.Slots
import PolicyReach.Proofs.Registry.Runs
import PolicyReach.Proofs.Registry.Isolation
import PolicyReach.Proofs.Registry.Ledger
import PolicyReach.Proofs.Registry.Release
import PolicyReach.Proofs.PermissionMap.Weights
import PolicyReach.Proofs.Flow.Relation
import PolicyReach.Proofs.Flow.Shape
import PolicyReach.Proofs.Flow.Walk
import PolicyReach.Proofs.Flow.ShortestPath
import PolicyReach.Proofs.Flow.Results
import PolicyReach.Proofs.Flow.PathEnumeration
import PolicyReach.Proofs.Flow.Overflow
import PolicyReach.Proofs.Flow.Locality
import PolicyReach.Proofs.Flow.EarlyStop
import PolicyReach.Proofs.Flow.Growth
import PolicyReach.Proofs.Flow.Tables
import PolicyReach.Proofs.Session.Calls
import PolicyReach.Proofs.Session.Outcomes
import PolicyReach.Proofs.Session.Epoch
import PolicyReach.Proofs.Session.Reach
import PolicyReach.Proofs.Flow.Duality
import PolicyReach.Proofs.Session.Founded
import PolicyReach.Proofs.Session.Inquiry
import PolicyReach.Proofs.Session.Enumeration
import PolicyReach.Proofs.Session.Overflow
import PolicyReach.Proofs.Session.Continuation
import PolicyReach.Proofs.Session.FirstPath
import PolicyReach.Proofs.Session.Isolation
import PolicyReach.Proofs.Policy.References
import PolicyReach.Proofs.Grants
import PolicyReach.Proofs.DomainTransition.Memo
import PolicyReach.Proofs.DomainTransition.Exact
import PolicyReach.Proofs.Relabel.PairGrants
import PolicyReach.Proofs.Policy.Names
import PolicyReach.Proofs.Policy.Coverage
import PolicyReach.Proofs.Policy.Lookup
import PolicyReach.Proofs.Relabel.ObjectModes
import PolicyReach.Proofs.Relabel.SubjectMode
import PolicyReach.Proofs.DomainTransition.Cache
import PolicyReach.Proofs.DomainTransition.Duality
import PolicyReach.Proofs.Flow.InPlace
import PolicyReach.Proofs.Registry.InPlace
import PolicyReach.Proofs.Session.InPlace
import PolicyReach.Proofs.Session.Failure
import PolicyReach.Proofs.Policy.Coherence
import PolicyReach.Proofs.Policy.Renaming
import PolicyReach.Proofs.Session.Renaming
import PolicyReach.Proofs.Session.PostFilter
import PolicyReach.Proofs.Flow.Known
import PolicyReach.Proofs.Session.Known
import PolicyReach.Proofs.Session.Policies
import PolicyReach.Proofs.PermissionMap.Grammar
import PolicyReach.Proofs.Flow.GrowthRuns
import PolicyReach.Proofs.Flow.Ties
import PolicyReach.Proofs.Flow.LazyFrontier
import PolicyReach.Proofs.Session.HopModes
import PolicyReach.Proofs.Flow.CandidateLimit
import PolicyReach.Proofs.Registry.Forgery
import PolicyReach.Proofs.Json.RoundTrip
import PolicyReach.Proofs.PermissionMap.Content
import PolicyReach.Proofs.Session.Reload
import PolicyReach.Proofs.Policy.Loading
import PolicyReach.Proofs.Registry.Token
import PolicyReach.Proofs.Flow.TableGraph
