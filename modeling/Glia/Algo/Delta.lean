import Glia.CodeDomain
import Glia.Graph.Types
import Mathlib.Data.Finset.Option
import Mathlib.Data.List.Sort
import Mathlib.Data.Prod.Lex

/-! The difference between two snapshots of a graph: nodes and edges added, removed,
changed or moved. -/
namespace Glia.Algo

open Glia.Graph (Node IdMap)
open Glia.Kit (OrdMap gather)

structure DeltaSide where
  nodes : List Node := []
  edges : List Edge := []

/-- An edge's identity across snapshots: from, to, category. -/
abbrev EdgeKey := NodeId ×ₗ NodeId ×ₗ EdgeCategoryId

instance : Std.TransOrd EdgeKey := inferInstance

namespace EdgeKey

def of (e : Edge) : EdgeKey := toLex (e.fromId, toLex (e.toId, e.category))

def source (k : EdgeKey) : NodeId := (ofLex k).1

def target (k : EdgeKey) : NodeId := (ofLex (ofLex k).2).1

def category (k : EdgeKey) : EdgeCategoryId := (ofLex (ofLex k).2).2

def map (f : NodeId → NodeId) (k : EdgeKey) : EdgeKey :=
  toLex (f k.source, toLex (f k.target, k.category))

@[simp] theorem source_map (f : NodeId → NodeId) (k : EdgeKey) : (k.map f).source = f k.source :=
  rfl

@[simp] theorem target_map (f : NodeId → NodeId) (k : EdgeKey) : (k.map f).target = f k.target :=
  rfl

@[simp] theorem category_map (f : NodeId → NodeId) (k : EdgeKey) :
    (k.map f).category = k.category := rfl

@[simp] theorem source_of (e : Edge) : (of e).source = e.fromId := rfl

@[simp] theorem target_of (e : Edge) : (of e).target = e.toId := rfl

theorem ext_ends {k k' : EdgeKey} (hs : k.source = k'.source) (ht : k.target = k'.target)
    (hc : k.category = k'.category) : k = k' :=
  Prod.ext hs (Prod.ext ht hc)

end EdgeKey

abbrev EdgeCellKey := CellPayload → Option (List UInt8)

structure CellRead where
  kind : CellTypeId
  key : EdgeCellKey

structure DeltaOptions where
  /-- Cell kinds whose Text payloads are a node's content. -/
  contentCells : List CellTypeId := []
  /-- `(before, after)` ids of nodes that moved. -/
  moves : List (NodeId × NodeId) := []
  edgeCell : Option CellRead := none

/-- The difference `after - before`; every list by ascending id. -/
structure GraphDelta where
  addedNodes : List NodeId
  removedNodes : List NodeId
  modifiedNodes : List NodeId
  movedNodes : List (NodeId × NodeId)
  addedEdges : List EdgeKey
  removedEdges : List EdgeKey
  reconfidencedEdges : List (EdgeKey × Confidence × Confidence)
  restampedEdges : List EdgeKey
  ignoredMoves : Nat
  deriving DecidableEq

section Content

/-- The sorted, deduplicated `(cell kind, text)` of a node. -/
abbrev Texts := Finset (CellTypeId × String)

def textsOf (kinds : List CellTypeId) (n : Node) : Texts :=
  (n.cells.filterMap fun c =>
    match c.payload with
    | .text s => if c.kind ∈ kinds then some (c.kind, s) else none
    | _ => none).toFinset

def addTexts (kinds : List CellTypeId) (n : Node) (seen : Option Texts) : Option Texts :=
  some (seen.getD ∅ ∪ textsOf kinds n)

/-- A side's nodes folded into their content, across every copy of an id. -/
def content (side : DeltaSide) (kinds : List CellTypeId) : IdMap Texts :=
  gather Node.id (addTexts kinds) ∅ side.nodes

end Content

section Moves

structure Accepted where
  moves : IdMap NodeId := ∅
  targets : Finset NodeId := ∅
  ignored : Nat := 0

def acceptPair (old new : IdMap Texts) (s : Accepted) (p : NodeId × NodeId) : Accepted :=
  if p.1 ≠ p.2 ∧ old.contains p.1 ∧ new.contains p.2 ∧ !s.moves.contains p.1 ∧
      p.2 ∉ s.targets then
    { s with moves := s.moves.insert p.1 p.2, targets := insert p.2 s.targets }
  else { s with ignored := s.ignored + 1 }

def named (before : DeltaSide) (old : IdMap Texts) (targets : Finset NodeId) (a : NodeId) :
    Bool :=
  a ∈ targets ∧ (old.contains a || before.edges.any fun e => e.fromId == a || e.toId == a)

/-- The moves but for those onto a named target that does not itself move away. -/
def dropClashes (taken : NodeId → Bool) (moves : IdMap NodeId) : IdMap NodeId :=
  moves.filter fun _ a => !(taken a && !moves.contains a)

/-- Dropping a move can strand another one's target, so repeat. -/
def settleMoves (taken : NodeId → Bool) : Nat → IdMap NodeId → IdMap NodeId
  | 0, moves => moves
  | fuel + 1, moves =>
    if (dropClashes taken moves).size = moves.size then moves
    else settleMoves taken fuel (dropClashes taken moves)

/-- The move pairs that apply, before id to after id, and how many do not. -/
def acceptMoves (pairs : List (NodeId × NodeId)) (before : DeltaSide) (old new : IdMap Texts) :
    IdMap NodeId × Nat :=
  let s := pairs.foldl (acceptPair old new) {}
  let moves := settleMoves (named before old s.targets) s.moves.size s.moves
  (moves, s.ignored + (s.moves.size - moves.size))

def remap (moves : IdMap NodeId) (id : NodeId) : NodeId := moves[id]?.getD id

end Moves

section Edges

/-- A remapped key's edges: the strongest confidence, the key as the first copy gave it, and
the copies' compared cell parts. -/
structure Folded where
  confidence : Confidence
  given : EdgeKey
  cell : Finset (List UInt8)
  deriving DecidableEq

def partOf (cell : Option CellRead) (e : Edge) : Option (List UInt8) :=
  cell.bind fun read =>
    (e.cells.find? fun c => c.kind == read.kind).bind fun c => read.key c.payload

def foldEdge (cell : Option CellRead) (e : Edge) (seen : Option Folded) : Option Folded :=
  let slot := seen.getD ⟨e.confidence, EdgeKey.of e, ∅⟩
  some
    { slot with
      confidence :=
        if slot.confidence.rank < e.confidence.rank then e.confidence else slot.confidence
      cell := slot.cell ∪ (partOf cell e).toFinset }

def foldEdges (edges : List Edge) (f : NodeId → NodeId) (cell : Option CellRead) :
    OrdMap EdgeKey Folded :=
  gather (fun e => (EdgeKey.of e).map f) (foldEdge cell) ∅ edges

end Edges

section Delta
variable (before after : DeltaSide) (opts : DeltaOptions)

def wasIds (moves : IdMap NodeId) (old new : IdMap Texts) : IdMap NodeId :=
  gather (fun e : NodeId × Texts => remap moves e.1) (fun e _ => some e.1) ∅
    (old.toList.filter fun e => new.contains (remap moves e.1))

def graphDelta : GraphDelta :=
  let old := content before opts.contentCells
  let new := content after opts.contentCells
  let (moves, ignored) := acceptMoves opts.moves before old new
  let was := wasIds moves old new
  let oldEdges := foldEdges before.edges (remap moves) opts.edgeCell
  let newEdges := foldEdges after.edges id opts.edgeCell
  { addedNodes := new.toList.filterMap fun e => if was.contains e.1 then none else some e.1
    removedNodes := old.toList.filterMap fun e =>
      if new.contains (remap moves e.1) then none else some e.1
    modifiedNodes := new.toList.filterMap fun e => (was[e.1]?).bind fun b =>
      if old[b]? = some e.2 then none else some e.1
    movedNodes := moves.toList
    addedEdges := newEdges.toList.filterMap fun e =>
      if oldEdges.contains e.1 then none else some e.1
    removedEdges := (oldEdges.toList.filterMap fun e =>
      if newEdges.contains e.1 then none else some e.2.given).insertionSort (· ≤ ·)
    reconfidencedEdges := oldEdges.toList.filterMap fun e => (newEdges[e.1]?).bind fun now =>
      if now.confidence = e.2.confidence then none
      else some (e.1, e.2.confidence, now.confidence)
    restampedEdges := oldEdges.toList.filterMap fun e => (newEdges[e.1]?).bind fun now =>
      if now.confidence = e.2.confidence ∧ now.cell ≠ e.2.cell then some e.1 else none
    ignoredMoves := ignored }

end Delta

end Glia.Algo
