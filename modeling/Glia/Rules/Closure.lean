import Glia.Algo.Cycles
import Glia.Algo.Reach
import Glia.Rules.Relation

/-! The `reaches` and `scc` builtins over one index per category set. The counters a
closure reports are not modelled, past the rows its memo holds: the row budget counts
those. -/
namespace Glia.Rules

open Algo

structure CatIndex where
  keep : CategorySet
  adj : Adjacency
  keptLevel : List Nat
  ok : Bool

def keptWithOrdinal (g : GraphSource) (keep : CategorySet) : List (Edge × Nat) :=
  g.edges.zipIdx.filter fun e => keep.contains e.1.category

def CatIndex.build (g : GraphSource) (tiers : List Tier) (keep : CategorySet) : CatIndex :=
  let adj := Adjacency.build g keep
  let keptLevel := (keptWithOrdinal g keep).map fun e => (tiers[e.2]?.map Tier.level).getD never
  { keep := keep
    adj := adj
    keptLevel := keptLevel
    ok := tiers.length == g.edges.length && keptLevel.length == adj.keptEdges }

def direction (backward : Bool) : Walk := if backward then .backward else .forward

def CatIndex.levelled (ix : CatIndex) (seeds : List (NodeId × Nat)) (backward : Bool)
    (depth : Option Nat) : LevelBfs :=
  bfsLevels ix.adj ix.keptLevel
    { LevelWalk.new (direction backward) 3 with plus := true, maxDepth := depth.getD usizeMax }
    seeds

def tierOfLevel : Nat → Option Tier
  | 0 => some .fact
  | 1 => some .derived
  | 2 => some .heuristic
  | _ => none

def rowsOf (walk : LevelBfs) : List (NodeId × Tier) :=
  walk.reached.filterMap fun r => (tierOfLevel r.level).map fun t => (r.id, t)

def keepOf (src : FactSource) : CatSet → CategorySet
  | .all => .all
  | .carry => .of src.tables.carryEdges
  | .of ids => .of ids

/-- A per-source walk: its set, source, direction and depth, `u32::MAX` for none. -/
structure MemoKey where
  set : Nat
  source : NodeId
  backward : Bool
  depth : Nat
  deriving DecidableEq, Repr

structure Closure where
  sets : List (CatSet × CatIndex)
  memo : List (MemoKey × List (NodeId × Tier))
  memoRows : Nat

namespace Closure

def new : Closure := ⟨[], [], 0⟩

section Source

variable (src : FactSource) (tiers : List Tier)

def set (c : Closure) (cats : CatSet) : Closure × Nat :=
  match c.sets.findIdx? fun s => s.1 == cats with
  | some i => (c, i)
  | none =>
    ({ c with
        sets := c.sets ++ [(cats, CatIndex.build src.toGraphSource tiers (keepOf src cats))] },
      c.sets.length)

/-- The rows of a walk over a set's index; none when the index and the tiers disagree. -/
def walkRows (ix : CatIndex) (seeds : List (NodeId × Nat)) (backward : Bool)
    (depth : Option Nat) : List (NodeId × Tier) :=
  if ix.ok then rowsOf (ix.levelled seeds backward depth) else []

def reachFrom (c : Closure) (cats : CatSet) (seeds : List (NodeId × Tier)) (backward : Bool)
    (depth : Option Nat) : Closure × List (NodeId × Tier) :=
  let s := c.set src tiers cats
  match s.1.sets[s.2]? with
  | none => (s.1, [])
  | some (_, ix) => (s.1, walkRows ix (seeds.map fun e => (e.1, e.2.level)) backward depth)

def reach (c : Closure) (cats : CatSet) (source : NodeId) (backward : Bool)
    (depth : Option Nat) : Closure × List (NodeId × Tier) :=
  let s := c.set src tiers cats
  let key : MemoKey := ⟨s.2, source, backward, depth.getD indexLimit⟩
  match s.1.memo.find? fun m => m.1 == key with
  | some m => (s.1, m.2)
  | none =>
    let rows := match s.1.sets[s.2]? with
      | none => []
      | some (_, ix) => walkRows ix [(source, 0)] backward depth
    ({ s.1 with memo := (key, rows) :: s.1.memo, memoRows := s.1.memoRows + rows.length }, rows)

/-- One forward walk per indexed id; `none` as soon as the rows pass `limit`. -/
def reachAllFrom (ix : CatIndex) (depth : Option Nat) (limit : Nat) :
    List NodeId → List (NodeId × NodeId × Tier) → Option (List (NodeId × NodeId × Tier))
  | [], out => some out
  | x :: rest, out =>
    let walk := ix.levelled [(x, 0)] false depth
    if limit < out.length + walk.reached.length then none
    else reachAllFrom ix depth limit rest (out ++ (rowsOf walk).map fun r => (x, r.1, r.2))

/-- Every `(x, y, tier)` of a `reaches` with both ends free. -/
def reachAll (c : Closure) (cats : CatSet) (depth : Option Nat) (limit : Nat) :
    Closure × Option (List (NodeId × NodeId × Tier)) :=
  let s := c.set src tiers cats
  match s.1.sets[s.2]? with
  | none => (s.1, some [])
  | some (_, ix) => (s.1, if ix.ok then reachAllFrom ix depth limit ix.adj.ids [] else some [])

def levelOf (walk : LevelBfs) (id : NodeId) : Nat :=
  match walk.reached.find? fun r => r.id == id with
  | some r => r.level
  | none => never

def ranked (members : List NodeId) : List NodeId :=
  members.insertionSort fun a b =>
    src.renderNode a < src.renderNode b ∨ (src.renderNode a = src.renderNode b ∧ a ≤ b)

def component (ix : CatIndex) (members : List NodeId) : GraphSource × List Nat :=
  let inside := (((src.keptEdges ix.keep).zip ix.keptLevel).filter fun e =>
    members.contains e.1.fromId && members.contains e.1.toId)
  (⟨ranked src members, inside.map Prod.fst⟩, inside.map Prod.snd)

/-- One component's rows: each member with the representative, at the first level at which
they reach each other. -/
def componentRows (ix : CatIndex) (members : List NodeId) : List (NodeId × NodeId × Tier) :=
  match ranked src members with
  | [] => []
  | rep :: rest =>
    let sub := component src ix members
    let adj := Adjacency.build sub.1 .all
    let how : LevelWalk := { LevelWalk.new .forward 3 with plus := true }
    let out := bfsLevels adj sub.2 how [(rep, 0)]
    let back := bfsLevels adj sub.2 { how with walk := .backward } [(rep, 0)]
    (rep :: rest).filterMap fun x =>
      let level := if x = rep then levelOf out x else max (levelOf out x) (levelOf back x)
      (tierOfLevel level).map fun t => (x, rep, t)

/-- Every `(x, rep, tier)` of `scc` over `cats`, components in Tarjan's order. -/
def sccRows (c : Closure) (cats : CatSet) : Closure × List (NodeId × NodeId × Tier) :=
  let s := c.set src tiers cats
  match s.1.sets[s.2]? with
  | none => (s.1, [])
  | some (_, ix) =>
    (s.1, if ix.ok then (stronglyConnected ix.adj).flatMap (componentRows src ix) else [])

end Source

end Closure

end Glia.Rules
