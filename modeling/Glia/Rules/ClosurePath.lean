import Glia.Rules.Closure
import Glia.Rules.Resolve

/-! The walks an explanation shows: a one-level walk with each layer ranked by rendered key,
its parents followed back from the target, and the edge of each hop. -/
namespace Glia.Rules

open Algo

structure Hop where
  fromId : NodeId
  toId : NodeId
  category : EdgeCategoryId
  ordinal : Nat
  tier : Tier
  deriving DecidableEq, Repr

structure Pair where
  fromIx : Nat
  toIx : Nat
  level : Nat
  name : Nat
  kept : Nat
  category : EdgeCategoryId
  deriving DecidableEq, Repr

/-- Sorted by ends, level, category-name rank and kept position. -/
def Pair.le (a b : Pair) : Prop :=
  toLex (toLex (a.fromIx, a.toIx), toLex (a.level, toLex (a.name, a.kept))) ≤
    toLex (toLex (b.fromIx, b.toIx), toLex (b.level, toLex (b.name, b.kept)))

instance : DecidableRel Pair.le := fun _ _ => inferInstanceAs (Decidable (toLex _ ≤ toLex _))

namespace CatIndex

variable (src : FactSource) (ix : CatIndex)

def keptOrdinal : List Nat :=
  (keptWithOrdinal src.toGraphSource ix.keep).map fun e => min e.2 indexLimit

def order : List Nat :=
  (List.range ix.adj.len).insertionSort fun a b =>
    toLex (src.renderNode (ix.adj.id a), toLex (ix.adj.id a, a)) ≤
      toLex (src.renderNode (ix.adj.id b), toLex (ix.adj.id b, b))

def rank : List Nat := (List.range ix.adj.len).map fun i => (ix.order src).idxOf i

def nameRank (ids : List EdgeCategoryId) (c : EdgeCategoryId) : Nat :=
  let named := (ids.dedup.map fun c => (categoryText src.tables.registries c, c)).insertionSort
    fun a b => toLex a ≤ toLex b
  (named.map Prod.snd).idxOf c

def rawPairs : List Pair :=
  (src.keptEdges ix.keep).zipIdx.filterMap fun e =>
    (ix.adj.indexOf e.1.fromId).bind fun a =>
      (ix.adj.indexOf e.1.toId).map fun b =>
        ⟨a, b, ix.keptLevel.getD e.2 never, 0, e.2, e.1.category⟩

def sortedPairs : List Pair :=
  let raw := ix.rawPairs src
  let ids := raw.map Pair.category
  (raw.map fun p => { p with name := nameRank src ids p.category }).insertionSort Pair.le

def hop (a b level : Nat) : Option Hop :=
  let after := (ix.sortedPairs src).dropWhile fun p =>
    decide (toLex (p.fromIx, p.toIx) < toLex (a, b))
  (after.head?.filter fun p => p.fromIx = a ∧ p.toIx = b ∧ p.level ≤ level).bind fun p =>
    (tierOfLevel p.level).map fun tier =>
      ⟨ix.adj.id a, ix.adj.id b, p.category, (ix.keptOrdinal src).getD p.kept indexLimit, tier⟩

def record (reached : List LevelReached) : List (Option Nat) :=
  reached.zipIdx.foldl (fun table r =>
    match ix.adj.indexOf r.1.id with
    | some at' => table.set at' (some r.2)
    | none => table) (List.replicate ix.adj.len none)

def chase (reached : List LevelReached) (level : Nat) (backward : Bool) :
    Nat → List Hop → Nat → Option (List Hop)
  | 0, _, _ => none
  | fuel + 1, hops, goal =>
    (((ix.record reached)[goal]?.bind id).bind fun i => reached[i]?).bind fun r =>
      (ix.adj.indexOf r.parent).bind fun parent =>
        (if backward then ix.hop src goal parent level else ix.hop src parent goal level).bind
          fun h =>
            if r.depth ≤ 1 then some (hops ++ [h])
            else if ix.adj.len < (hops ++ [h]).length then none
            else chase reached level backward fuel (hops ++ [h]) parent

def rankedPath (seeds : List NodeId) (target : NodeId) (level : Nat) (backward : Bool)
    (within : Option (List Bool)) : Option (List Hop) :=
  (ix.adj.indexOf target).bind fun goal =>
    let one := ix.keptLevel.map fun l => if l ≤ level then 0 else never
    let how : LevelWalk := { LevelWalk.new (direction backward) 1 with
      plus := true, parentRank := some (ix.rank src), within := within }
    let walk := bfsLevels ix.adj one how (seeds.map fun s => (s, 0))
    (ix.chase src walk.reached level backward (ix.adj.len + 1) [] goal).map fun hops =>
      if backward then hops else hops.reverse

/-- Dense index to its component's position, `none` outside them. -/
def componentOf : List (Option Nat) :=
  (stronglyConnected ix.adj).zipIdx.foldl (fun table c =>
    c.1.foldl (fun table x =>
      match ix.adj.indexOf x with
      | some at' => table.set at' (some c.2)
      | none => table) table) (List.replicate ix.adj.len none)

end CatIndex

namespace Closure

section Source

variable (src : FactSource) (tiers : List Tier)

def path (c : Closure) (cats : CatSet) (seeds : List NodeId) (target : NodeId) (level : Tier)
    (backward : Bool) : Closure × Option (List Hop) :=
  let s := c.set src tiers cats
  match s.1.sets[s.2]? with
  | none => (s.1, none)
  | some (_, ix) =>
    (s.1, if ix.ok then ix.rankedPath src seeds target level.level backward none else none)

/-- A shortest cycle at `level` through `rep` and `x` inside their component, empty when
there is none. -/
def cycle (c : Closure) (cats : CatSet) (x rep : NodeId) (level : Tier) : Closure × List Hop :=
  let s := c.set src tiers cats
  match s.1.sets[s.2]? with
  | none => (s.1, [])
  | some (_, ix) =>
    let at' : NodeId → Option Nat := fun y =>
      (ix.adj.indexOf y).bind fun i => ix.componentOf[i]?.bind id
    let mask := (List.range ix.adj.len).map fun i =>
      decide (ix.componentOf[i]?.bind id = at' rep)
    let walk := fun a b => ix.rankedPath src [a] b level.level false (some mask)
    (s.1,
      if ix.ok = false ∨ at' rep = none ∨ at' x ≠ at' rep then []
      else if x = rep then (walk rep rep).getD []
      else ((walk rep x).bind fun out => (walk x rep).map fun back => out ++ back).getD [])

inductive Request where
  | reachFrom (cats : CatSet) (seeds : List (NodeId × Tier)) (backward : Bool)
      (depth : Option Nat)
  | reach (cats : CatSet) (source : NodeId) (backward : Bool) (depth : Option Nat)
  | reachAll (cats : CatSet) (depth : Option Nat) (limit : Nat)
  | scc (cats : CatSet)
  | path (cats : CatSet) (seeds : List NodeId) (target : NodeId) (level : Tier) (backward : Bool)
  | cycle (cats : CatSet) (x rep : NodeId) (level : Tier)

def serve (c : Closure) : Request → Closure
  | .reachFrom cats seeds backward depth => (c.reachFrom src tiers cats seeds backward depth).1
  | .reach cats source backward depth => (c.reach src tiers cats source backward depth).1
  | .reachAll cats depth limit => (c.reachAll src tiers cats depth limit).1
  | .scc cats => (c.sccRows src tiers cats).1
  | .path cats seeds target level backward => (c.path src tiers cats seeds target level backward).1
  | .cycle cats x rep level => (c.cycle src tiers cats x rep level).1

def served (requests : List Request) : Closure := requests.foldl (serve src tiers) new

end Source

end Closure

end Glia.Rules
