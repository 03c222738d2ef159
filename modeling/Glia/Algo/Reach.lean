import Glia.Algo.Adjacency
import Glia.Kit.Layers

/-! The levelled breadth-first walk over an index: pass `L` walks only the edges, and
starts only the seeds, of level at most `L`. -/
namespace Glia.Algo

inductive Walk where
  | forward
  | backward
  | both
  deriving DecidableEq, Repr

/-- An edge level no pass walks. -/
def never : Nat := 255

def usizeMax : Nat := 18446744073709551615

structure LevelReached where
  id : NodeId
  level : Nat
  depth : Nat
  via : EdgeCategoryId
  parent : NodeId
  keptEdge : Nat
  deriving DecidableEq, Repr

structure LevelBfs where
  reached : List LevelReached
  seeds : List (NodeId × Nat)
  scanned : Nat
  deriving DecidableEq, Repr

structure LevelWalk where
  walk : Walk
  levels : Nat
  maxDepth : Nat
  within : Option (List Bool)
  parentRank : Option (List Nat)
  plus : Bool
  deriving DecidableEq, Repr

/-- `levels` passes along `walk`: unbounded depth, no mask, no rank, seeds start
visited. -/
def LevelWalk.new (walk : Walk) (levels : Nat) : LevelWalk :=
  ⟨walk, levels, usizeMax, none, none, false⟩

/-- A node's out- and in-list merged by edge position, a self-loop taken once. -/
def mergeIncidences : List Inc → List Inc → List Inc
  | [], ins => ins
  | out :: outs, [] => out :: outs
  | out :: outs, inn :: ins =>
    if out.edge < inn.edge then out :: mergeIncidences outs (inn :: ins)
    else if out.edge = inn.edge then out :: mergeIncidences outs ins
    else inn :: mergeIncidences (out :: outs) ins
termination_by outs ins => outs.length + ins.length

def incidences (adj : Adjacency) (node : Nat) : Walk → List Inc
  | .forward => adj.outgoing node
  | .backward => adj.incoming node
  | .both => mergeIncidences (adj.outgoing node) (adj.incoming node)

structure Pass where
  visited : Nat → Bool
  reported : Nat → Bool
  reached : List LevelReached
  next : List Nat
  scanned : Nat

section Bfs

variable (adj : Adjacency) (edgeLevel : List Nat) (how : LevelWalk)

def inside (ix : Nat) : Bool :=
  match how.within with
  | none => true
  | some mask => mask.getD ix false

def enter (level depth node : Nat) (s : Pass) (inc : Inc) : Pass :=
  let s := { s with scanned := s.scanned + 1 }
  if level < edgeLevel.getD inc.edge never || s.visited inc.other || !inside how inc.other then s
  else
    { s with
      visited := Function.update s.visited inc.other true
      reported := Function.update s.reported inc.other true
      reached :=
        if s.reported inc.other then s.reached
        else
          s.reached ++ [⟨adj.id inc.other, level, depth + 1, inc.category, adj.id node, inc.edge⟩]
      next := s.next ++ [inc.other] }

def expandNode (level depth : Nat) (s : Pass) (node : Nat) : Pass :=
  (incidences adj node how.walk).foldl (enter adj edgeLevel how level depth node) s

def layerOrder (frontier : List Nat) : List Nat :=
  match how.parentRank with
  | none => frontier
  | some rank =>
    frontier.insertionSort fun a b =>
      rank.getD a 0 < rank.getD b 0 ∨ (rank.getD a 0 = rank.getD b 0 ∧ a ≤ b)

def layers (level : Nat) : Nat → Nat → List Nat → Pass → Pass
  | 0, _, _, s => s
  | fuel + 1, depth, frontier, s =>
    if frontier = [] ∨ how.maxDepth ≤ depth then s
    else
      let s := (layerOrder how frontier).foldl (expandNode adj edgeLevel how level depth)
        { s with next := [] }
      layers level fuel (depth + 1) s.next s

/-- Each started seed once, at its lowest level, in first-occurrence order. -/
def addSeed (start : List (Nat × Nat)) (seed : NodeId × Nat) : List (Nat × Nat) :=
  match adj.indexOf seed.1 with
  | none => start
  | some ix =>
    if !inside how ix then start
    else if start.any fun s => s.1 == ix then
      start.map fun s => if s.1 = ix then (s.1, min s.2 seed.2) else s
    else start ++ [(ix, seed.2)]

def startSeeds (seeds : List (NodeId × Nat)) : List (Nat × Nat) :=
  (seeds.foldl (addSeed adj how) []).filter fun s => s.2 < how.levels

/-- One pass at `level`: the visited set starts over, the reports are kept. -/
def pass (start : List (Nat × Nat)) (s : Pass) (level : Nat) : Pass :=
  let frontier := (start.filter fun e => e.2 ≤ level).map Prod.fst
  let visited : Nat → Bool := fun ix => !how.plus && frontier.contains ix
  layers adj edgeLevel how level (adj.len + 2) 0 frontier { s with visited := visited, next := [] }

/-- The lengths the walk's tables must have. -/
def lengthsAgree : Bool :=
  edgeLevel.length == adj.keptEdges &&
    (match how.within with
    | none => true
    | some mask => mask.length == adj.len) &&
    match how.parentRank with
    | none => true
    | some rank => rank.length == adj.len

/-- The levelled multi-source walk; empty when a table has the wrong length. -/
def bfsLevels (seeds : List (NodeId × Nat)) : LevelBfs :=
  if lengthsAgree adj edgeLevel how then
    let start := startSeeds adj how seeds
    let done := (List.range how.levels).foldl (pass adj edgeLevel how start)
      ⟨fun _ => false, fun _ => false, [], [], 0⟩
    ⟨done.reached, start.map fun s => (adj.id s.1, s.2), done.scanned⟩
  else ⟨[], [], 0⟩

end Bfs

end Glia.Algo
