import Glia.Algo.Reach
import Glia.Engine.ModuleImports
import Glia.Kit.Ranking
import Mathlib

/-! A transitive `forbid_edge`: what `from` reaches in `to` by any path outside the `via` facades,
found by a tiered walk and shown by a shortest path at the hit's tier. -/
namespace Glia.Engine.Check

open Glia.Algo
open Glia.Graph (MergedGraph IdMap)

def passes : Nat := 3

/-- An empty slot of a hop index. -/
def noEdge : Nat := 4294967295

/-- The evidence rows a violation lists at most. -/
def maxEvidence : Nat := 100

inductive Chain where
  | imports
  | symbols
  | mixed
  deriving DecidableEq, Repr

/-- The tie-break between two chains at one tier and depth: imports first. -/
def Chain.order : Chain → Nat
  | imports => 0
  | symbols => 1
  | mixed => 2

/-- A graph one chain walks, with the tier of each edge and where it is asserted. `levels` reads the
tiers of `(ordinal, edge)` pairs off whatever table the graph keeps. -/
structure PathGraph (ε : Type) where
  source : GraphSource
  tier : Edge → Tier
  levels : List (Nat × Edge) → List Nat
  site : Edge → Option ε × (Tier × Option String)
  aligned : ∀ kept : List (Nat × Edge), (∀ k ∈ kept, source.edges[k.1]? = some k.2) →
    levels kept = kept.map fun k => (tier k.2).level

/-- The check's own facts: the merged graph, a scope's nodes (in no order a reader depends on), the
locator, `why`'s reading of an edge and the located row of one. -/
structure Ctx (ε ρ : Type) where
  merged : MergedGraph
  members : String → List NodeId
  locate : NodeId → LocatedNode
  why : Why ε
  row : NodeId → EdgeCategoryId → NodeId → Option ε → Tier × Option String → ρ

section Graphs
variable {ε : Type} (why : Why ε)

def edgeTier (e : Edge) : Tier := (why.tierOf (why.evidenceOf e) e).1

def edgeLevels (merged : MergedGraph) : List Nat :=
  (mergedSource merged).edges.map fun e => (edgeTier why e).level

def nodeGraph (merged : MergedGraph) : PathGraph ε where
  source := mergedSource merged
  tier := edgeTier why
  levels kept := kept.map fun k => ((edgeLevels why merged)[k.1]?).getD (edgeTier why k.2).level
  site e := (why.evidenceOf e, why.tierOf (why.evidenceOf e) e)
  aligned kept at' := by
    apply List.map_congr_left
    intro k mem
    rw [edgeLevels, List.getElem?_map, at' k mem]
    rfl

def importGraph (imports : ModuleImports ε) : PathGraph ε where
  source := imports.source
  tier e := (why.tierOf (imports.evidenceAt e.fromId e.toId) e).1
  levels kept := kept.map fun k =>
    (why.tierOf (imports.evidenceAt k.2.fromId k.2.toId) k.2).1.level
  site e := (imports.evidenceAt e.fromId e.toId,
    why.tierOf (imports.evidenceAt e.fromId e.toId) e)
  aligned _ _ := rfl

end Graphs

structure PathScopes where
  toSet : List NodeId
  viaSet : List NodeId
  deriving DecidableEq, Repr

namespace PathScopes

/-- A node the walk enters but never leaves. -/
def stops (s : PathScopes) (id : NodeId) : Bool := s.toSet.contains id || s.viaSet.contains id

def isHit (s : PathScopes) (id : NodeId) : Bool := s.toSet.contains id && !s.viaSet.contains id

end PathScopes

def barred (g : GraphSource) (scopes : PathScopes) : GraphSource :=
  { g with edges := g.edges.filter fun e => !scopes.stops e.fromId }

def keptOrdinals (g : GraphSource) (scopes : PathScopes) (keep : CategorySet) : List (Nat × Edge) :=
  (g.edges.zipIdx.map Prod.swap).filter fun k =>
    !scopes.stops k.2.fromId && keep.contains k.2.category

/-- One node of `to` a chain reached first in pass `level`: its shortest witness there, and its
hops' located rows. -/
structure PathHit (ρ : Type) where
  node : NodeId
  level : Nat
  chain : Chain
  path : List Edge
  hops : List ρ
  deriving DecidableEq

/-- The stronger tier, then fewer hops, then imports first. -/
def PathHit.rank {ρ : Type} (h : PathHit ρ) : Nat ×ₗ Nat ×ₗ Nat :=
  toLex (h.level, toLex (h.hops.length, h.chain.order))

section Hops

/-- The first kept edge of a `(from, category, to)` at each level; an absent key is empty slots. -/
abbrev HopIndex := NodeId × EdgeCategoryId × NodeId → Nat → Nat

/-- Put the kept edge `e` of level `lvl`, at `k` in kept order, in its slot. -/
def putHop (walked : NodeId → Bool) (index : HopIndex) (e : Edge) (lvl k : Nat) : HopIndex :=
  if passes ≤ lvl ∨ !(walked e.fromId && walked e.toId) then index
  else
    let key := (e.fromId, e.category, e.toId)
    if index key lvl = noEdge then
      Function.update index key (Function.update (index key) lvl (min k noEdge))
    else index

def hopIndex (walked : NodeId → Bool) (kept : List Edge) (levels : List Nat) : HopIndex :=
  (kept.zip levels).zipIdx.foldl (fun index e => putHop walked index e.1.1 e.1.2 e.2)
    fun _ _ => noEdge

def byName (cats : List EdgeCategoryId) : List EdgeCategoryId :=
  Kit.Ranking.dedup (cats.insertionSort fun a b =>
    toLex (EdgeCategory.name a, a) ≤ toLex (EdgeCategory.name b, b))

/-- The witness hop walkable at `level`: the strongest tier, then the smallest category name, then
the first in edge order. -/
def pickHop (kept : List Edge) (index : HopIndex) (named : List EdgeCategoryId)
    (fromId toId : NodeId) (level : Nat) : Option Edge :=
  let slots := (List.range (min level (passes - 1) + 1)).flatMap fun slot =>
    named.map fun c => index (fromId, c, toId) slot
  (slots.find? (· ≠ noEdge)).bind fun k => kept[k]?

def reportTable (adj : Adjacency) (reached : List LevelReached) : List (Option Nat) :=
  reached.zipIdx.foldl (fun table r =>
    match adj.indexOf r.1.id with
    | some at' => table.set at' (some r.2)
    | none => table) (List.replicate adj.len none)

def reachedAt (adj : Adjacency) (reached : List LevelReached) (node : NodeId) :
    Option LevelReached :=
  (adj.indexOf node).bind fun ix =>
    ((reportTable adj reached)[ix]?.bind id).bind fun i => reached[i]?

/-- Follow the parents from `goal`, a hop each, down to depth 1; the last hop of the walk first. -/
def followBack (adj : Adjacency) (reached : List LevelReached)
    (pick : NodeId → NodeId → Option Edge) (kept : List Edge) :
    Nat → List Edge → NodeId → List Edge
  | 0, path, _ => path
  | fuel + 1, path, goal =>
    match reachedAt adj reached goal with
    | none => path
    | some r =>
      match (pick r.parent goal).or kept[r.keptEdge]? with
      | none => path
      | some e =>
        if r.depth ≤ 1 ∨ adj.len < (path ++ [e]).length then path ++ [e]
        else followBack adj reached pick kept fuel (path ++ [e]) r.parent

end Hops

section Walk
variable {ε ρ : Type} (ctx : Ctx ε ρ)

/-- A node's place among those a witness can pass, by qname, then id. -/
def qnameRank (adj : Adjacency) (on : List NodeId) : List Nat :=
  let order := (on.filterMap fun id => (adj.indexOf id).map fun ix =>
    toLex ((ctx.locate id).qname, toLex (id, ix))).insertionSort (· ≤ ·)
  order.zipIdx.foldl (fun table e => table.set (ofLex (ofLex e.1).2).2 (min e.2 noEdge))
    (List.replicate adj.len noEdge)

def hopRow (g : PathGraph ε) (e : Edge) : ρ :=
  ctx.row e.fromId e.category e.toId (g.site e).1 (g.site e).2

def oneLevel (levels : List Nat) (level : Nat) : List Nat :=
  levels.map fun l => if l ≤ level then 0 else never

def walkChain (g : PathGraph ε) (chain : Chain) (cats : List EdgeCategoryId) (seeds : List NodeId)
    (scopes : PathScopes) : List (PathHit ρ) :=
  let adj := Adjacency.build (barred g.source scopes) (.of cats)
  let ordinals := keptOrdinals g.source scopes (.of cats)
  let levels := g.levels ordinals
  let kept := ordinals.map Prod.snd
  let starts := seeds.map fun s => (s, 0)
  let walk := bfsLevels adj levels (.new .forward passes) starts
  let hits := walk.reached.filter fun r => scopes.isHit r.id
  if hits = [] then []
  else
    let on := walk.seeds.map Prod.fst ++ walk.reached.map LevelReached.id
    let walked := fun id => (adj.indexOf id).isSome && on.contains id
    let index := hopIndex walked kept levels
    (List.range passes).flatMap fun level =>
      let atLevel := (hits.filter fun h => h.level = level).map LevelReached.id
      if atLevel = [] then []
      else
        let how : LevelWalk :=
          { LevelWalk.new .forward 1 with parentRank := some (qnameRank ctx adj on) }
        let ranked := bfsLevels adj (oneLevel levels level) how starts
        let pick := fun a b => pickHop kept index (byName cats) a b level
        atLevel.map fun node =>
          let path := (followBack adj ranked.reached pick kept (adj.len + 1) [] node).reverse
          ⟨node, level, chain, path, path.map (hopRow ctx g)⟩

end Walk

structure ConstraintRule where
  id : String
  decl : Option String
  deriving DecidableEq, Repr

structure Violation (ρ : Type) where
  ruleId : String
  ruleKind : String
  decl : Option String
  tier : Tier
  count : Nat
  evidence : List ρ
  subject : List String
  file : Option String
  line : Option Int
  deriving DecidableEq

def forbidPathKind : String := "forbid_path"

section Rule
variable {ε ρ : Type} (ctx : Ctx ε ρ)

def Ctx.scope (scope role : String) : Except String (List NodeId) :=
  if ctx.members scope = [] then
    .error (role ++ " scope `" ++ scope ++
      "` matches no located node (no file sits under it and no PROJECT is at it)")
  else .ok (ctx.members scope)

def Ctx.viaScope : List String → Except String (List NodeId)
  | [] => .ok []
  | v :: rest => do
    let here ← ctx.scope v "via"
    let others ← Ctx.viaScope rest
    .ok (here ++ others)

def seedsOf (fromSet : List NodeId) (scopes : PathScopes) : List NodeId :=
  (((fromSet.filter fun id => !scopes.stops id).map fun id =>
    toLex ((ctx.locate id).qname, id)).insertionSort (· ≤ ·)).map fun k => (ofLex k).2

def chainsOf (cats : List EdgeCategoryId) (named : Bool) :
    List (PathGraph ε × Chain × List EdgeCategoryId) :=
  let nodes := nodeGraph ctx.why ctx.merged
  if named && cats.contains EdgeCategory.imports && cats.contains EdgeCategory.calls then
    [(nodes, .mixed, cats)]
  else
    let symbols := cats.filter fun c => c ≠ EdgeCategory.imports
    (if cats.contains EdgeCategory.imports then
      [(importGraph ctx.why (moduleImportGraph ctx.why ctx.merged), .imports,
        [EdgeCategory.imports])]
    else []) ++
      if symbols = [] then [] else [(nodes, .symbols, symbols)]

def foundHits (cats : List EdgeCategoryId) (named : Bool) (seeds : List NodeId)
    (scopes : PathScopes) : List (PathHit ρ) :=
  (chainsOf ctx cats named).flatMap fun c => walkChain ctx c.1 c.2.1 c.2.2 seeds scopes

def keepBest (best : IdMap (PathHit ρ)) (h : PathHit ρ) : IdMap (PathHit ρ) :=
  match best[h.node]? with
  | some held => if held.rank ≤ h.rank then best else best.insert h.node h
  | none => best.insert h.node h

def bestHits (found : List (PathHit ρ)) : List (PathHit ρ) :=
  (found.foldl keepBest ∅).toList.map Prod.snd

def violationOf (rule : ConstraintRule) (h : PathHit ρ) : Violation ρ where
  ruleId := rule.id
  ruleKind := forbidPathKind
  decl := rule.decl
  tier := (Tier.all[h.level]?).getD .heuristic
  count := h.hops.length
  evidence := h.hops.take maxEvidence
  subject := [(ctx.locate h.node).qname]
  file := (ctx.locate h.node).file
  line := (ctx.locate h.node).line

def reportKey (h : PathHit ρ) : String ×ₗ WithBot String ×ₗ WithBot Int ×ₗ NodeId :=
  toLex ((ctx.locate h.node).qname, toLex ((ctx.locate h.node).file,
    toLex ((ctx.locate h.node).line, h.node)))

def forbidPath (rule : ConstraintRule) (scope : String × String × List String)
    (cats : List EdgeCategoryId) (named : Bool) : Except String (List (Violation ρ)) := do
  let fromSet ← ctx.scope scope.1 "from"
  let toSet ← ctx.scope scope.2.1 "to"
  let viaSet ← ctx.viaScope scope.2.2
  let scopes : PathScopes := ⟨toSet, viaSet⟩
  let best := bestHits (foundHits ctx cats named (seedsOf ctx fromSet scopes) scopes)
  let sorted := best.insertionSort fun a b => reportKey ctx a ≤ reportKey ctx b
  .ok (sorted.map (violationOf ctx rule))

end Rule

end Glia.Engine.Check
