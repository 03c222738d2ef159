import Glia.Algo.Bfs
import Glia.Algo.WitnessCycle
import Glia.Engine.Delta
import Glia.Engine.ModuleImports
import Glia.Graph.CrossLinks
import Glia.Kit.Ranking

/-! Loops between services, service links that could loop, and import cycles, each with a witness
walk; every pass has an index of its own. -/
namespace Glia.Engine.Cycles

open Glia.Algo
open Glia.Graph (MergedGraph channelOf)

def flowMechanisms : List EdgeCategoryId :=
  [EdgeCategory.httpCalls, EdgeCategory.grpcCalls, EdgeCategory.rpcCalls, EdgeCategory.queueFlows,
    EdgeCategory.graphqlCalls, EdgeCategory.wsConnects, EdgeCategory.eventFlows,
    EdgeCategory.cliInvokes]

/-- The categories a runtime loop can travel. -/
def flowCausal : List EdgeCategoryId :=
  [EdgeCategory.queueFlows, EdgeCategory.eventFlows, EdgeCategory.httpCalls, EdgeCategory.grpcCalls,
    EdgeCategory.rpcCalls, EdgeCategory.wsConnects, EdgeCategory.graphqlCalls,
    EdgeCategory.handledBy, EdgeCategory.calls, EdgeCategory.uses, EdgeCategory.injects]

def asyncFlows : List EdgeCategoryId := [EdgeCategory.queueFlows, EdgeCategory.eventFlows]

def possibleNote : String :=
  "each service both publishes to and consumes from the others, but no consumer-handler -> producer path is in the graph (callback registration and cross-module dispatch may be unextracted)"

inductive CycleKind where
  | eventLoop
  | callLoop
  | possibleLoop
  | importCycle
  deriving DecidableEq, Repr

def CycleKind.rank : CycleKind → Nat
  | eventLoop => 0
  | callLoop => 1
  | possibleLoop => 2
  | importCycle => 3

structure CycleArgs where
  kinds : List String := ["event", "import"]
  scope : Option String := none
  maxMembers : Nat := 50

def CycleArgs.wants (args : CycleArgs) (kind : String) : Bool :=
  args.kinds.any fun k => k = kind || k = "all"

structure CycleHop where
  fromQname : String
  toQname : String
  category : String
  channel : Option String
  file : Option String
  line : Option Int
  deriving DecidableEq, Repr

structure CycleRow where
  kind : CycleKind
  tier : Tier
  services : List String
  mechanisms : List String
  channels : List String
  size : Nat
  members : List String
  witness : List CycleHop
  note : Option String
  deriving DecidableEq, Repr

structure Pending where
  row : CycleRow
  scopeIds : List NodeId
  deriving DecidableEq, Repr

structure ServiceLink where
  source : String
  target : String
  mechanism : String
  channel : String
  exampleFromQname : String
  exampleToQname : String
  deriving DecidableEq, Repr

/-- The merged graph; how a node is located, a file in a repo keyed to a service, an edge's EVIDENCE
read and a file held to a scope; the service map's links. -/
structure Ctx where
  merged : MergedGraph
  locate : NodeId → LocatedNode
  serviceOf : String → Nat → String
  why : Why Evidence
  inScope : String → String → Bool
  links : List ServiceLink
  upper : Char → List Char

def ordered (l : List String) : List String := Kit.Ranking.dedup (l.insertionSort (· ≤ ·))

namespace Ctx
variable (ctx : Ctx)

def repoOf (id : NodeId) : Nat :=
  ((ctx.merged.graphs.find? fun g => g.nodes.any fun n => n.id = id).map (·.repo)).getD 0

def service (id : NodeId) : Option String :=
  ((ctx.locate id).file.or (splitOwner (ctx.locate id).qname).2).map fun file =>
    ctx.serviceOf file (ctx.repoOf id)

def servicesOf (ids : List NodeId) : List String := ordered (ids.filterMap ctx.service)

def byQname (ids : List NodeId) : List (String ×ₗ NodeId) :=
  (ids.map fun id => toLex ((ctx.locate id).qname, id)).insertionSort (· ≤ ·)

def memberQnames (ids : List NodeId) : List String :=
  (ctx.byQname ids).map fun q => (ofLex q).1

end Ctx

/-- The file and 1-based line of an edge's EVIDENCE, when it names a file. -/
def evidenceSite (ev : Option Evidence) : Option (Option String × Option Int) :=
  ev.bind fun e => e.file.map fun file => (some file, e.line.map fun l => (l : Int) + 1)

section Paths
variable (adj : Adjacency)

def parentIn (reached : List Reached) (id : NodeId) : Option (NodeId × EdgeCategoryId) :=
  (reached.find? fun r => r.id = id).map fun r => (r.parent, r.via)

def pathBack (parent : NodeId → Option (NodeId × EdgeCategoryId)) (start : NodeId) :
    Nat → List Hop → NodeId → List Hop
  | 0, _, _ => []
  | fuel + 1, hops, ix =>
    if ix = start then hops
    else
      match parent ix with
      | none => []
      | some (p, via) => pathBack parent start fuel (⟨p, via, ix⟩ :: hops) p

def shortestPath (start goal : NodeId) : List Hop :=
  if start = goal then []
  else
    pathBack (parentIn (bfs adj [start] .forward usizeMax).reached) start (adj.len + 1) [] goal

def cycleThrough (edge : Hop) : List Hop := edge :: shortestPath adj edge.toId edge.fromId

/-- From the first placed member to the first of another service, and back. -/
def crossingWalk (placed : List (NodeId × String)) : List Hop :=
  match placed with
  | [] => []
  | (u, su) :: _ =>
    match placed.find? fun p => p.2 ≠ su with
    | none => []
    | some (v, _) => shortestPath adj u v ++ shortestPath adj v u

end Paths

section FlowLoops
variable (ctx : Ctx)

structure Spanning where
  index : Nat
  members : List NodeId
  services : List String
  deriving DecidableEq, Repr

structure Crossing where
  rank : Nat
  fromQname : String
  toQname : String
  edge : Hop
  deriving DecidableEq, Repr

def Crossing.key (c : Crossing) : Nat ×ₗ String ×ₗ String ×ₗ EdgeCategoryId :=
  toLex (c.rank, toLex (c.fromQname, toLex (c.toQname, c.edge.category)))

/-- A queue or event hop before another cross-service mechanism, before any other. -/
def crossingRank (c : EdgeCategoryId) : Nat :=
  if asyncFlows.contains c then 0 else if flowMechanisms.contains c then 1 else 2

def flowIndex : Adjacency := Adjacency.build (mergedSource ctx.merged) (.of flowCausal)

def spanning : List Spanning :=
  ((stronglyConnected (flowIndex ctx)).zipIdx.map fun c =>
    ⟨c.2, c.1, ctx.servicesOf c.1⟩).filter fun s => 2 ≤ s.services.length

def compOf (id : NodeId) : Option Nat :=
  ((spanning ctx).find? fun s => s.members.contains id).map Spanning.index

def crossingOf (e : Edge) : Option (Nat × Crossing) :=
  if !flowCausal.contains e.category then none
  else
    match compOf ctx e.fromId, compOf ctx e.toId with
    | some a, some b =>
      if a ≠ b then none
      else
        match ctx.service e.fromId, ctx.service e.toId with
        | some sa, some sb =>
          if sa = sb then none
          else some (a, ⟨crossingRank e.category, (ctx.locate e.fromId).qname,
            (ctx.locate e.toId).qname, ⟨e.fromId, e.category, e.toId⟩⟩)
        | _, _ => none
    | _, _ => none

/-- Keep the least crossing edge of each component, the first of equals. -/
def keepCrossing (best : Nat → Option Crossing) (e : Edge) : Nat → Option Crossing :=
  match crossingOf ctx e with
  | none => best
  | some (ci, cand) =>
    match best ci with
    | some held =>
      if cand.key < held.key then Function.update best ci (some cand) else best
    | none => Function.update best ci (some cand)

def crossings : Nat → Option Crossing :=
  ctx.merged.allEdges.foldl (keepCrossing ctx) fun _ => none

def placed (ids : List NodeId) : List (NodeId × String) :=
  (ctx.byQname ids).filterMap fun q => (ctx.service (ofLex q).2).map fun s => ((ofLex q).2, s)

def flowHops (s : Spanning) : List Hop :=
  match crossings ctx s.index with
  | some best => cycleThrough (flowIndex ctx) best.edge
  | none => crossingWalk (flowIndex ctx) (placed ctx s.members)

def siteOf (h : Hop) : Option Evidence :=
  (ctx.merged.allEdges.find? fun e =>
    e.fromId = h.fromId && e.toId = h.toId && e.category = h.category).bind ctx.why.evidenceOf

def flowHop (h : Hop) : CycleHop :=
  let f := ctx.locate h.fromId
  let t := ctx.locate h.toId
  let site := (evidenceSite (siteOf ctx h)).getD (f.file, f.line)
  { fromQname := f.qname
    toQname := t.qname
    category := EdgeCategory.name h.category
    channel :=
      if flowMechanisms.contains h.category then
        some (if channelOf ctx.upper f.qname f.name = "" then channelOf ctx.upper t.qname t.name
          else channelOf ctx.upper f.qname f.name)
      else none
    file := site.1
    line := site.2 }

def flowRow (s : Spanning) : Pending :=
  let hops := flowHops ctx s
  let witness := hops.map (flowHop ctx)
  let crossed := hops.filter fun h => flowMechanisms.contains h.category
  { row :=
      { kind := if hops.any fun h => asyncFlows.contains h.category then .eventLoop else .callLoop
        tier := .derived
        services := s.services
        mechanisms := ordered ((if crossed = [] then hops else crossed).map fun h =>
          EdgeCategory.name h.category)
        channels := ordered (witness.filterMap CycleHop.channel)
        size := s.members.length
        members := ctx.memberQnames s.members
        witness := witness
        note := none }
    scopeIds := s.members }

def flowLoops : List Pending := (spanning ctx).map (flowRow ctx)

end FlowLoops

section PossibleLoops
variable (ctx : Ctx)

def asyncLinks : List (ServiceLink × EdgeCategoryId) :=
  ctx.links.filterMap fun l =>
    (asyncFlows.find? fun c => EdgeCategory.name c = l.mechanism).map fun c => (l, c)

def linkNames : List String :=
  ordered ((asyncLinks ctx).flatMap fun l => [l.1.source, l.1.target])

def nameIx (s : String) : NodeId := if s ∈ linkNames ctx then (linkNames ctx).idxOf s else 0

def serviceGraph : GraphSource where
  nodeIds := List.range (linkNames ctx).length
  edges := (asyncLinks ctx).map fun l =>
    ⟨nameIx ctx l.1.source, nameIx ctx l.1.target, l.2, .strong, []⟩

def qnameIndex (q : String) : Option NodeId :=
  ctx.merged.graphs.findSome? fun g =>
    g.nodes.findSome? fun n => if g.nav.qnameById[n.id]? = some q then some n.id else none

def linkOf (h : Hop) : Option ServiceLink :=
  ((asyncLinks ctx).find? fun l =>
    l.2 = h.category && nameIx ctx l.1.source = h.fromId && nameIx ctx l.1.target = h.toId).map
      Prod.fst

def linkHop (l : ServiceLink) : CycleHop :=
  let site := (qnameIndex ctx l.exampleFromQname).map ctx.locate
  { fromQname := l.source
    toQname := l.target
    category := l.mechanism
    channel := some l.channel
    file := site.bind LocatedNode.file
    line := site.bind LocatedNode.line }

def possibleRow (services : List String) (hops : List Hop) : Pending :=
  let found := hops.filterMap (linkOf ctx)
  let witness := found.map (linkHop ctx)
  { row :=
      { kind := .possibleLoop
        tier := .heuristic
        services := services
        mechanisms := ordered (witness.map CycleHop.category)
        channels := ordered (witness.filterMap CycleHop.channel)
        size := services.length
        members := services
        witness := witness
        note := some possibleNote }
    scopeIds := found.flatMap fun l =>
      (qnameIndex ctx l.exampleFromQname).toList ++ (qnameIndex ctx l.exampleToQname).toList }

def possibleLoops (covered : List (List String)) : List Pending :=
  let adj := Adjacency.build (serviceGraph ctx) .all
  (stronglyConnected adj).filterMap fun comp =>
    let services := comp.map fun ix => (linkNames ctx).getD ix ""
    if covered.contains services then none
    else comp.head?.map fun start => possibleRow ctx services (witnessCycle adj comp start)

end PossibleLoops

section ImportCycles
variable (ctx : Ctx)

def imports : ModuleImports Evidence := moduleImportGraph ctx.why ctx.merged

def importIndex : Adjacency := Adjacency.build (imports ctx).source (.of [EdgeCategory.imports])

def importHop (h : Hop) : CycleHop :=
  let f := ctx.locate h.fromId
  let site := (evidenceSite ((imports ctx).evidenceAt h.fromId h.toId)).getD (f.file, f.line)
  { fromQname := f.qname
    toQname := (ctx.locate h.toId).qname
    category := EdgeCategory.name h.category
    channel := none
    file := site.1
    line := site.2 }

def importRow (comp : List NodeId) (start : NodeId) : Pending where
  row :=
    { kind := .importCycle
      tier := .derived
      services := ctx.servicesOf comp
      mechanisms := [EdgeCategory.name EdgeCategory.imports]
      channels := []
      size := comp.length
      members := ctx.memberQnames comp
      witness := (witnessCycle (importIndex ctx) comp start).map (importHop ctx)
      note := none }
  scopeIds := comp

/-- The member first in qname order starts the witness. -/
def importCycles : List Pending :=
  (stronglyConnected (importIndex ctx)).filterMap fun comp =>
    (ctx.byQname comp).head?.map fun q => importRow ctx comp (ofLex q).2

end ImportCycles

section Rows
variable (ctx : Ctx) (args : CycleArgs)

def pending : List Pending :=
  (if args.wants "event" then
    flowLoops ctx ++ possibleLoops ctx ((flowLoops ctx).map fun p => p.row.services)
  else []) ++ if args.wants "import" then importCycles ctx else []

/-- No node the row checks is located outside the scope. -/
def Pending.within (p : Pending) : Bool :=
  match args.scope with
  | none => true
  | some raw => p.scopeIds.all fun id => (ctx.locate id).file.all (ctx.inScope raw)

def CycleRow.sortKey (r : CycleRow) : Nat ×ₗ Natᵒᵈ ×ₗ List String :=
  toLex (r.kind.rank, toLex (OrderDual.toDual r.size, r.members))

def CycleRow.listed (r : CycleRow) : CycleRow :=
  if args.maxMembers = 0 then r else { r with members := r.members.take args.maxMembers }

def cycles : List CycleRow :=
  ((((pending ctx args).filter (Pending.within ctx args)).map Pending.row).insertionSort
    fun a b => a.sortKey ≤ b.sortKey).map (CycleRow.listed args)

end Rows

end Glia.Engine.Cycles
