import Glia.Algo.Delta
import Glia.Graph.Identity
import Mathlib

/-! The graph delta of two builds with every row named and located, over whole graphs or
over the graphs a watch update rebuilt. -/
namespace Glia.Engine

open Glia.Algo (DeltaSide DeltaOptions EdgeKey GraphDelta graphDelta CellRead)
open Glia.Graph (MergedGraph RepoGraph Node NodeReader IdMap detectMovesWith)
open Glia.Kit (OrdMap gather)

structure Located where
  id : NodeId
  qname : String
  kind : String
  file : Option String
  line : Option Int
  deriving DecidableEq

inductive Basis where
  | site
  | fromNode
  | toNode
  | file
  | absent
  deriving DecidableEq

structure Evidence where
  emitter : String
  rule : Option String
  file : Option String
  line : Option Nat
  basis : Basis
  deriving DecidableEq

/-- What a delta reads of nodes, edges and payloads. No row's presence or order among equal
names rests on how these read. -/
structure DeltaReader extends NodeReader where
  locate : MergedGraph → NodeId → Located
  evidence : Edge → Option Evidence
  /-- An EVIDENCE payload's emitter and rule, without its site. -/
  evidenceStamp : CellPayload → Option (List UInt8)

/-- The cell kinds whose payloads are a node's content. -/
def contentCells : List CellTypeId := [CellType.code, CellType.schemaFields]

section Side

def hasJsonSchema (n : Node) : Bool :=
  n.cells.any fun c => c.kind == CellType.schemaFields &&
    match c.payload with
    | .json _ => true
    | _ => false

def textCopy (n : Node) : Node :=
  let copied := (n.cells.filter fun c => c.kind ∈ contentCells).map fun c =>
    match c.payload with
    | .json j => if c.kind = CellType.schemaFields then { c with payload := .text j } else c
    | _ => c
  { n with cells := copied }

def isRegion (g : RepoGraph) (id : NodeId) : Bool :=
  g.nav.kindById[id]? == some NodeKind.region

def regionIds (m : MergedGraph) : Finset NodeId :=
  ((m.graphs.flatMap fun g => g.nodes.filter fun n => isRegion g n.id).map Node.id).toFinset

/-- Whether a node's Text copy stands in for it. -/
def isCopied (ids : NodeId → Bool) (g : RepoGraph) (n : Node) : Bool :=
  !isRegion g n.id && ids n.id && hasJsonSchema n

def schemaCopies (m : MergedGraph) (ids : NodeId → Bool) : List Node :=
  m.graphs.flatMap fun g => (g.nodes.filter (isCopied ids g)).map textCopy

def sideNodes (m : MergedGraph) (ids keep : NodeId → Bool) : List Node :=
  (m.graphs.flatMap fun g => g.nodes.filter fun n =>
    keep n.id && decide (n.id ∉ regionIds m) && !isCopied ids g n) ++ schemaCopies m ids

def sideEdges (m : MergedGraph) (keep : Edge → Bool) : List Edge :=
  m.allEdges.filter fun e =>
    decide (e.fromId ∉ regionIds m) && decide (e.toId ∉ regionIds m) && keep e

end Side

structure DeltaNode where
  change : String
  id : NodeId
  beforeId : Option NodeId
  qname : String
  beforeQname : Option String
  kind : String
  file : Option String
  line : Option Int
  side : String
  deriving DecidableEq

structure DeltaEdge where
  change : String
  fromQname : String
  toQname : String
  category : String
  confidence : String
  wasConfidence : Option String
  siteFile : Option String
  siteLine : Option Int
  basis : Option String
  emitter : Option String
  rule : Option String
  wasEmitter : Option String
  wasRule : Option String
  deriving DecidableEq

structure DeltaCounts where
  nodesAdded : Nat
  nodesRemoved : Nat
  nodesModified : Nat
  nodesMoved : Nat
  edgesAdded : Nat
  edgesRemoved : Nat
  edgesReconfidenced : Nat
  edgesRestamped : Nat
  regionsExcluded : Nat
  movesIgnored : Nat
  deriving DecidableEq

structure LocatedRows where
  delta : GraphDelta
  nodes : List DeltaNode
  edges : List DeltaEdge
  counts : DeltaCounts
  deriving DecidableEq

section Rows

def confidenceStr : Confidence → String
  | .strong => "strong"
  | .medium => "medium"
  | .weak => "weak"

def basisStr : Basis → String
  | .site => "site"
  | .fromNode => "from_node"
  | .toNode => "to_node"
  | .file => "file"
  | .absent => "none"

def nodeRow (change : String) (place : Located) (prior : Option Located) (side : String) :
    DeltaNode where
  change := change
  id := place.id
  beforeId := prior.map Located.id
  qname := place.qname
  beforeQname := prior.map Located.qname
  kind := place.kind
  file := place.file
  line := place.line
  side := side

def edgeRow (read : DeltaReader) (change : String) (key : EdgeKey) (locate : NodeId → Located)
    (edge : Option Edge) (was : Option Confidence) : DeltaEdge :=
  let ev := edge.bind read.evidence
  { change := change
    fromQname := (locate key.source).qname
    toQname := (locate key.target).qname
    category := EdgeCategory.name key.category
    confidence := confidenceStr ((edge.map Edge.confidence).getD .weak)
    wasConfidence := was.map confidenceStr
    siteFile := ev.bind Evidence.file
    siteLine := (ev.bind Evidence.line).map fun l => (l : Int) + 1
    basis := ev.map fun e => basisStr e.basis
    emitter := ev.map Evidence.emitter
    rule := ev.bind Evidence.rule
    wasEmitter := none
    wasRule := none }

def firstEdges (edges : List Edge) : OrdMap EdgeKey Edge :=
  gather EdgeKey.of (fun e seen => some (seen.getD e)) ∅ edges

def wasMoved (moved : List (NodeId × NodeId)) : IdMap NodeId :=
  gather Prod.snd (fun p _ => some p.1) ∅ moved

def nodeRank (n : DeltaNode) : String ×ₗ String ×ₗ NodeId :=
  toLex (n.change, toLex (n.qname, n.id))

def edgeRank (e : DeltaEdge) : String ×ₗ String ×ₗ String ×ₗ String :=
  toLex (e.change, toLex (e.category, toLex (e.fromQname, e.toQname)))

variable (read : DeltaReader) (before after : MergedGraph) (delta : GraphDelta)

def nodeRows : List DeltaNode :=
  let was := wasMoved delta.movedNodes
  delta.addedNodes.map (fun id => nodeRow "added" (read.locate after id) none "after") ++
    delta.removedNodes.map (fun id => nodeRow "removed" (read.locate before id) none "before") ++
    delta.modifiedNodes.map (fun id => nodeRow "modified" (read.locate after id)
      ((was[id]?).map (read.locate before)) "after") ++
    delta.movedNodes.map fun p =>
      nodeRow "moved" (read.locate after p.2) (some (read.locate before p.1)) "after"

def restampedRow (old new : OrdMap EdgeKey Edge) (key : EdgeKey) : DeltaEdge :=
  let was := wasMoved delta.movedNodes
  let prior := (old[key.map fun id => (was[id]?).getD id]?).bind read.evidence
  { edgeRow read "restamped" key (read.locate after) new[key]? none with
    wasRule := prior.bind Evidence.rule
    wasEmitter := prior.map Evidence.emitter }

def edgeRows (old new : OrdMap EdgeKey Edge) : List DeltaEdge :=
  delta.addedEdges.map (fun k => edgeRow read "added" k (read.locate after) new[k]? none) ++
    delta.removedEdges.map
      (fun k => edgeRow read "removed" k (read.locate before) old[k]? none) ++
    delta.reconfidencedEdges.map (fun r =>
      edgeRow read "reconfidenced" r.1 (read.locate after) new[r.1]? (some r.2.1)) ++
    delta.restampedEdges.map (restampedRow read after delta old new)

def locateRows (oldEdges newEdges : List Edge) (regionsExcluded : Nat) : LocatedRows where
  delta := delta
  nodes := (nodeRows read before after delta).insertionSort fun x y => nodeRank x ≤ nodeRank y
  edges := (edgeRows read before after delta (firstEdges oldEdges)
    (firstEdges newEdges)).insertionSort fun x y => edgeRank x ≤ edgeRank y
  counts :=
    { nodesAdded := delta.addedNodes.length
      nodesRemoved := delta.removedNodes.length
      nodesModified := delta.modifiedNodes.length
      nodesMoved := delta.movedNodes.length
      edgesAdded := delta.addedEdges.length
      edgesRemoved := delta.removedEdges.length
      edgesReconfidenced := delta.reconfidencedEdges.length
      edgesRestamped := delta.restampedEdges.length
      regionsExcluded := regionsExcluded
      movesIgnored := delta.ignoredMoves }

end Rows

section Located
variable (read : DeltaReader) (before after : MergedGraph)

def deltaOptions (moves : List (NodeId × NodeId)) : DeltaOptions where
  contentCells := contentCells
  moves := moves
  edgeCell := some ⟨CellType.evidence, read.evidenceStamp⟩

def movePairs (renames : List (String × String)) : List (NodeId × NodeId) :=
  (detectMovesWith read.toNodeReader before after renames).nodes.map fun m => (m.oldId, m.newId)

def locatedDelta (pairs : List (NodeId × NodeId)) (ids : NodeId → Bool) (keep : Edge → Bool) :
    LocatedRows :=
  let oldEdges := sideEdges before keep
  let newEdges := sideEdges after keep
  let delta := graphDelta ⟨sideNodes before ids ids, oldEdges⟩ ⟨sideNodes after ids ids, newEdges⟩
    (deltaOptions read pairs)
  locateRows read before after delta oldEdges newEdges
    (regionIds before ∪ regionIds after).card

/-- The full delta: every node and edge of both sides. -/
def locatedDeltaCounted (renames : List (String × String)) : LocatedRows :=
  locatedDelta read before after (movePairs read before after renames) (fun _ => true)
    fun _ => true

structure DeltaScope where
  before : Finset Nat
  after : Finset Nat
  moves : Bool

def scopedGraphs (m : MergedGraph) (at_ : Finset Nat) : List RepoGraph :=
  (m.graphs.zipIdx.filter fun e => e.2 ∈ at_).map Prod.fst

def cleanGraphs (m : MergedGraph) (at_ : Finset Nat) : List RepoGraph :=
  (m.graphs.zipIdx.filter fun e => e.2 ∉ at_).map Prod.fst

variable (scope : DeltaScope)

def scopeIds : Finset NodeId :=
  (((scopedGraphs before scope.before ++ scopedGraphs after scope.after).flatMap
    RepoGraph.nodes).map Node.id).toFinset

def scopeKeys : Finset EdgeKey :=
  (((scopedGraphs before scope.before ++ scopedGraphs after scope.after).flatMap
    RepoGraph.edges ++ (before.crossEdges ++ after.crossEdges)).map EdgeKey.of).toFinset

def inScope (ids : Finset NodeId) (keys : Finset EdgeKey) (k : EdgeKey) : Bool :=
  k ∈ keys || k.source ∈ ids || k.target ∈ ids

def locatedDeltaScoped : LocatedRows :=
  let ids := scopeIds before after scope
  let keys := scopeKeys before after scope
  let pairs := if scope.moves then movePairs read before after [] else []
  locatedDelta read before after pairs (fun id => id ∈ ids)
    fun e => inScope ids keys (EdgeKey.of e)

end Located

end Glia.Engine
