import Glia.Rules.PlanReady
import Glia.Rules.Evaluate
import Glia.Algo.ReachExact
import Glia.Algo.Indexed
import Glia.Rules.ExecExact
import Glia.Graph.CrossLinksSteady
import Glia.CodeDomain.EntryReadBack
import Glia.Graph.MovesChanged
import Glia.Engine.DeltaScope
import Glia.Engine.AsOf
import Glia.Graph.QueuePairs
import Glia.Engine.GroupCacheFresh
import Glia.Engine.StatPollSound
import Glia.Rules.StrataExact
import Glia.Algo.TimelineWhole
import Glia.Store.LayoutPrefix
import Glia.Store.CellsLockHeld
import Glia.Rules.BodyRun
import Glia.Algo.Components
import Glia.Algo.ReachParents
import Glia.Algo.DeltaExact
import Glia.Rules.ClosurePath
import Glia.Rules.SccExact
import Glia.Rules.ClosureCalls
import Glia.Rules.AggregateExact
import Glia.Algo.CutExact
import Glia.Rules.RelationRuns
import Glia.Graph.FileTokens
import Glia.Graph.CellWrites
import Glia.Graph.ScopedBinding
import Glia.Algo.QuotientWalks
import Glia.Graph.MovesOneToOne
import Glia.Algo.Modularity
import Glia.Store.ContainerSafe
import Glia.Store.PrepareExact
import Glia.Store.LayoutFiles
import Glia.Store.LayoutInFull
import Glia.Graph.BodyHash
import Glia.Graph.Canonical
import Glia.Graph.RekeyExact
import Glia.Algo.FromSourceExact
import Glia.Algo.ReachableBy
import Glia.Graph.Primary
import Glia.Graph.RoleFoldExact
import Glia.Algo.MinHash
import Glia.Algo.PprDistribution
import Glia.Graph.Blast
import Glia.Graph.HttpPaths
import Glia.Graph.OwnerScopes
import Glia.Graph.Wildcards
import Glia.Engine.CyclesExact
import Glia.Engine.ForbidPathExact
import Glia.Algo.Gain
import Glia.Graph.Hints
import Glia.Rules.Interner
import Glia.Engine.ServicesExact
import Glia.Engine.SharedImportExact
import Glia.Rules.DeltaRuns
