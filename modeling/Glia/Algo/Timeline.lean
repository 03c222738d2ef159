import Glia.Algo.Delta
import Mathlib

/-! The validity spans of a graph's nodes and edges over consecutive snapshots, each span
keyed by its item's newest identity. -/
namespace Glia.Algo

open Glia.Graph (IdMap)
open Glia.Kit (OrdMap gather)

/-- One validity interval of one edge, under the key last seen. -/
structure EdgeSpan where
  key : EdgeKey
  fromRev : Nat
  untilRev : Option Nat
  deriving DecidableEq

/-- One validity interval of one node, under the id last seen; `priorIds` has the revision of
each move and the id before it, oldest first. -/
structure NodeSpan where
  id : NodeId
  fromRev : Nat
  untilRev : Option Nat
  priorIds : List (Nat × NodeId)
  deriving DecidableEq

structure Timeline where
  revs : Nat
  edges : List EdgeSpan
  nodes : List NodeSpan
  movesApplied : Nat
  movesIgnored : Nat

/-- The largest revision a `u32` holds. -/
def maxRev : Nat := 2 ^ 32 - 1

def nextRev (rev : Nat) : Nat := min (rev + 1) maxRev

abbrev NodeEntry := Nat × List (Nat × NodeId)

structure TimelineBuilder where
  openEdges : OrdMap EdgeKey Nat
  openNodes : IdMap NodeEntry
  closedEdges : List EdgeSpan
  closedNodes : List NodeSpan
  rev : Nat
  movesApplied : Nat
  movesIgnored : Nat

section Maps
variable {κ β : Type} [LinearOrder κ]

def closeSpans (removed : List κ) (m : OrdMap κ β) : OrdMap κ β × List (κ × β) :=
  removed.foldl (fun s k =>
    match s.1[k]? with
    | some v => (s.1.erase k, s.2 ++ [(k, v)])
    | none => s) (m, [])

/-- A fresh map of the entries under their next keys. -/
def carryOpen (next : κ × β → κ × β) (m : OrdMap κ β) : OrdMap κ β :=
  gather (fun e => (next e).1) (fun e _ => some (next e).2) ∅ m.toList

def openSpans (added : List κ) (init : β) (m : OrdMap κ β) : OrdMap κ β :=
  gather id (fun _ seen => some (seen.getD init)) m added

end Maps

namespace TimelineBuilder

def new (first : DeltaSide) : TimelineBuilder :=
  let d := graphDelta {} first {}
  { openEdges := openSpans d.addedEdges 0 ∅
    openNodes := openSpans d.addedNodes (0, []) ∅
    closedEdges := []
    closedNodes := []
    rev := 0
    movesApplied := 0
    movesIgnored := 0 }

def carryNode (moved : IdMap NodeId) (rev : Nat) (e : NodeId × NodeEntry) : NodeId × NodeEntry :=
  match moved[e.1]? with
  | some to_ => (to_, (e.2.1, e.2.2 ++ [(rev, e.1)]))
  | none => e

def carryEdge (moved : IdMap NodeId) (e : EdgeKey × Nat) : EdgeKey × Nat :=
  (e.1.map (remap moved), e.2)

def push (b : TimelineBuilder) (prev next : DeltaSide) (moves : List (NodeId × NodeId)) :
    TimelineBuilder :=
  let rev := nextRev b.rev
  let d := graphDelta prev next { moves := moves }
  let edges := closeSpans d.removedEdges b.openEdges
  let nodes := closeSpans d.removedNodes b.openNodes
  let moved : IdMap NodeId := gather Prod.fst (fun p _ => some p.2) ∅ d.movedNodes
  let stays := d.movedNodes.isEmpty
  let openEdges := if stays then edges.1 else carryOpen (carryEdge moved) edges.1
  let openNodes := if stays then nodes.1 else carryOpen (carryNode moved rev) nodes.1
  { openEdges := openSpans d.addedEdges rev openEdges
    openNodes := openSpans d.addedNodes (rev, []) openNodes
    closedEdges := b.closedEdges ++ edges.2.map fun e => ⟨e.1, e.2, some rev⟩
    closedNodes := b.closedNodes ++ nodes.2.map fun e => ⟨e.1, e.2.1, some rev, e.2.2⟩
    rev := rev
    movesApplied := b.movesApplied + d.movedNodes.length
    movesIgnored := b.movesIgnored + d.ignoredMoves }

/-- A closed span, by its end, before an open one. -/
def untilOrder (a b : Option Nat) : Bool :=
  match a, b with
  | some x, some y => x ≤ y
  | some _, none => true
  | none, some _ => false
  | none, none => true

def finish (b : TimelineBuilder) : Timeline :=
  let edges := b.closedEdges ++ b.openEdges.toList.map fun e => ⟨e.1, e.2, none⟩
  let nodes := b.closedNodes ++ b.openNodes.toList.map fun e => ⟨e.1, e.2.1, none, e.2.2⟩
  { revs := nextRev b.rev
    edges := edges.insertionSort fun x y =>
      toLex (x.fromRev, x.key) < toLex (y.fromRev, y.key) ∨
        ((x.fromRev, x.key) = (y.fromRev, y.key) ∧ untilOrder x.untilRev y.untilRev)
    nodes := nodes.insertionSort fun x y =>
      toLex (x.fromRev, x.id) < toLex (y.fromRev, y.id) ∨
        ((x.fromRev, x.id) = (y.fromRev, y.id) ∧ untilOrder x.untilRev y.untilRev)
    movesApplied := b.movesApplied
    movesIgnored := b.movesIgnored }

structure Push where
  moves : List (NodeId × NodeId)
  next : DeltaSide

/-- Fold `pushes` onto a builder whose last snapshot is `prev`. -/
def pushAll : TimelineBuilder → DeltaSide → List Push → TimelineBuilder
  | b, _, [] => b
  | b, prev, p :: pushes => pushAll (b.push prev p.next p.moves) p.next pushes

end TimelineBuilder

end Glia.Algo
