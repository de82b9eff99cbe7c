import Scrutinizer.Library.Exec
import Scrutinizer.Library.HashOrder
import Scrutinizer.Library.HashMap
import Scrutinizer.Library.MapM
import Scrutinizer.Library.Engine
import Scrutinizer.Library.FirstPath
import Scrutinizer.Library.Reach
import Scrutinizer.Collector
import Scrutinizer.Analyzer
import Scrutinizer.Calls
import Scrutinizer.CollectionRule
import Scrutinizer.StorageOrder
import Scrutinizer.Verdict
import Scrutinizer.CollectionOrder
import Scrutinizer.Skips
import Scrutinizer.Resolve
import Scrutinizer.Closures
import Scrutinizer.DropGlue
import Scrutinizer.UnknownTypes
import Scrutinizer.FieldWrites
import Scrutinizer.Recursion
import Scrutinizer.BorrowedStores
import Scrutinizer.CachedContexts
import Scrutinizer.DerivedStates
import Scrutinizer.Precheck
import Scrutinizer.Visits
import Scrutinizer.Configuration
import Scrutinizer.Transition
import Scrutinizer.Substitution
import Scrutinizer.CallSources
import Scrutinizer.Library.Search
import Scrutinizer.Entries
import Scrutinizer.Library.Chain
import Scrutinizer.MonotoneStates
import Scrutinizer.Wrapping
import Scrutinizer.Fixpoints
import Scrutinizer.Library.Extension
import Scrutinizer.MoreFuel
import Scrutinizer.StackDepth
import Scrutinizer.Upvars
import Scrutinizer.SpreadTuples
import Scrutinizer.Library.Unfolding
import Scrutinizer.TypeUnfolding
import Scrutinizer.MutRefVisitor
import Scrutinizer.Library.Codec
import Scrutinizer.Spans
import Scrutinizer.Dependencies
import Scrutinizer.Projections
import Scrutinizer.ProjectionClosure
import Scrutinizer.Library.LeastTable
import Scrutinizer.Schedules
import Scrutinizer.Library.Traces
import Scrutinizer.Paths
import Scrutinizer.Selector
import Scrutinizer.Driver
import Scrutinizer.DriverVerdicts
import Scrutinizer.Library.LastWrite
import Scrutinizer.Artifacts
import Scrutinizer.Builds
import Scrutinizer.ServedBodies
import Scrutinizer.Library.Bounded
import Scrutinizer.TypedPrograms
import Scrutinizer.Dispatch
import Scrutinizer.Acyclic
import Scrutinizer.Invocations
import Scrutinizer.Escapes
