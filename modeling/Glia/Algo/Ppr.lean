import Glia.Core
import Glia.Kit.CountingSort
import Glia.Kit.Grouping

/-! Personalised PageRank over any scalars: the index built once for a graph, and the walk over the
edges that each call used to make. -/
namespace Glia.Algo.Ppr

open Glia.Kit (OrdMap)
open Glia.Kit.CountingSort (starts filled)

section Scalars

/-- The operations the ranking applies to its scalars, none of them lawful. -/
structure Scalar (F : Type) where
  zero : F
  one : F
  ofCount : Nat → F
  add : F → F → F
  sub : F → F → F
  mul : F → F → F
  div : F → F → F
  abs : F → F
  lt : F → F → Bool
  le : F → F → Bool
  eq : F → F → Bool
  /-- The two are one bit pattern. -/
  sameBits : F → F → Bool
  /-- `clamp(0.01, 0.99)`. -/
  clampDamping : F → F
  /-- What a sum starts from. -/
  sumStart : F

variable {F : Type}

def Scalar.sum (o : Scalar F) (l : List F) : F := l.foldl o.add o.sumStart

end Scalars

section Config

inductive Direction where
  | forward
  | backward
  | undirected
  deriving DecidableEq

structure ActivationConfig (F : Type) where
  damping : F
  direction : Direction := .forward
  edgeWeights : OrdMap EdgeCategoryId F := ∅
  maxIterations : Nat := 100
  epsilon : F

variable {F : Type} (o : Scalar F)

/-- The weights by category, which an index keeps of its config. -/
def ActivationConfig.weightFingerprint (config : ActivationConfig F) :
    List (EdgeCategoryId × F) := config.edgeWeights.toList

def sameWeights (a b : List (EdgeCategoryId × F)) : Bool :=
  a.length == b.length && (a.zip b).all fun w => w.1.1 == w.2.1 && o.sameBits w.1.2 w.2.2

def ActivationConfig.weight (config : ActivationConfig F) (category : EdgeCategoryId) : F :=
  config.edgeWeights[category]?.getD o.one

/-- A repeated id maps to its last index. -/
def idToIdx (nodeIds : List NodeId) : OrdMap NodeId Nat :=
  nodeIds.zipIdx.foldl (fun m p => m.insert p.1 p.2) ∅

def personalise (n : Nat) (ids : OrdMap NodeId Nat) (seeds : List NodeId) : List F :=
  let seedCount := (seeds.filter fun s => ids.contains s).length
  let seedWeight := o.div o.one (o.ofCount seedCount)
  seeds.foldl (fun p seed =>
    match ids[seed]? with
    | some idx => p.set idx seedWeight
    | none => p) (List.replicate n o.zero)

def nextScore (d restart propagated danglingSum : F) : F :=
  o.add (o.mul (o.sub o.one d) restart)
    (o.mul d (o.add propagated (o.mul danglingSum restart)))

def propagates (scores outW : List F) (inc : Nat × F) : F :=
  let out := outW.getD inc.1 o.zero
  if o.lt o.zero out then o.div (o.mul (scores.getD inc.1 o.zero) inc.2) out else o.zero

def l1Diff (scores newScores : List F) : F :=
  o.sum ((scores.zip newScores).map fun p => o.abs (o.sub p.1 p.2))

end Config

section Index
variable {F : Type} (o : Scalar F)

/-- One graph's incidences under one config: `inc[start[i]..start[i + 1]]` sends to node `i`. -/
structure PprIndex (F : Type) where
  nodeIds : List NodeId
  idToIdx : OrdMap NodeId Nat
  start : List Nat
  inc : List (Nat × F)
  outW : List F
  dangling : List Nat
  damping : F
  direction : Direction
  weights : List (EdgeCategoryId × F)
  maxIterations : Nat
  epsilon : F

/-- The incidences in edge order, by target, and each node's outgoing weight. -/
structure Incidences (F : Type) where
  events : List (Nat × Nat × F) := []
  outW : List F

def addWeight (outW : List F) (i : Nat) (w : F) : List F := outW.modify i fun x => o.add x w

def addEdge (config : ActivationConfig F) (ids : OrdMap NodeId Nat) (s : Incidences F) (e : Edge) :
    Incidences F :=
  let w := config.weight o e.category
  if o.le w o.zero then s
  else
    match ids[e.fromId]?, ids[e.toId]? with
    | some fi, some ti =>
      match config.direction with
      | .forward => ⟨s.events ++ [(ti, fi, w)], addWeight o s.outW fi w⟩
      | .backward => ⟨s.events ++ [(fi, ti, w)], addWeight o s.outW ti w⟩
      | .undirected => ⟨s.events ++ [(ti, fi, w), (fi, ti, w)],
          addWeight o (addWeight o s.outW fi w) ti w⟩
    | _, _ => s

namespace PprIndex

def build (nodeIds : List NodeId) (edges : List Edge) (config : ActivationConfig F) : PprIndex F :=
  let n := nodeIds.length
  let ids := Ppr.idToIdx nodeIds
  let s := edges.foldl (addEdge o config ids) { outW := List.replicate n o.zero }
  { nodeIds
    idToIdx := ids
    start := starts n s.events
    inc := filled n (0, o.zero) s.events
    outW := s.outW
    dangling := (List.range n).filter fun j => o.eq (s.outW.getD j o.zero) o.zero
    damping := config.damping
    direction := config.direction
    weights := config.weightFingerprint
    maxIterations := config.maxIterations
    epsilon := config.epsilon }

variable (ix : PprIndex F)

/-- The index computes the config's ranking, each scalar bit for bit. -/
def matchesConfig (config : ActivationConfig F) : Bool :=
  o.sameBits ix.damping config.damping && decide (ix.direction = config.direction) &&
    ix.maxIterations == config.maxIterations && o.sameBits ix.epsilon config.epsilon &&
    sameWeights o ix.weights config.weightFingerprint

def row (i : Nat) : List (Nat × F) :=
  (ix.inc.drop (ix.start.getD i 0)).take (ix.start.getD (i + 1) 0 - ix.start.getD i 0)

/-- One round over the scores, written over what the other buffer holds. -/
def round (d : F) (personalization scores buffer : List F) : List F :=
  let danglingSum := o.sum (ix.dangling.map fun j => scores.getD j o.zero)
  (List.range ix.nodeIds.length).foldl (fun buffer i =>
    let propagated := o.sum ((ix.row i).map (propagates o scores ix.outW))
    buffer.set i (nextScore o d (personalization.getD i o.zero) propagated danglingSum)) buffer

/-- At most `left` rounds more, the two buffers swapped after each. -/
def rounds (d : F) (personalization : List F) :
    Nat → List F → List F → Nat → List F × Nat
  | 0, scores, _, iterations => (scores, iterations)
  | left + 1, scores, buffer, iterations =>
    let newScores := ix.round o d personalization scores buffer
    if o.lt (l1Diff o scores newScores) ix.epsilon then (newScores, iterations + 1)
    else rounds d personalization left newScores scores (iterations + 1)

def iterate (personalization : List F) : List F × Nat :=
  ix.rounds o (o.clampDamping ix.damping) personalization ix.maxIterations personalization
    (List.replicate ix.nodeIds.length o.zero) 0

/-- The scores, aligned with the nodes, and the rounds that gave them. -/
def vector (seeds : List NodeId) : List F × Nat :=
  if ix.nodeIds.length = 0 ∨ seeds = [] then ([], 0)
  else if (seeds.filter fun s => ix.idToIdx.contains s).length = 0 then ([], 0)
  else ix.iterate o (personalise o ix.nodeIds.length ix.idToIdx seeds)

end PprIndex

end Index

section Head
variable {F : Type} (o : Scalar F)

/-- The incidences of each target, a list for each, and each node's outgoing weight. -/
structure Incoming (F : Type) where
  incoming : List (List (Nat × F))
  outWeight : List F

def pushIncoming (incoming : List (List (Nat × F))) (target : Nat) (inc : Nat × F) :
    List (List (Nat × F)) := incoming.modify target (· ++ [inc])

def addIncoming (config : ActivationConfig F) (ids : OrdMap NodeId Nat) (s : Incoming F) (e : Edge) :
    Incoming F :=
  let w := config.weight o e.category
  if o.le w o.zero then s
  else
    match ids[e.fromId]?, ids[e.toId]? with
    | some fi, some ti =>
      match config.direction with
      | .forward => ⟨pushIncoming s.incoming ti (fi, w), addWeight o s.outWeight fi w⟩
      | .backward => ⟨pushIncoming s.incoming fi (ti, w), addWeight o s.outWeight ti w⟩
      | .undirected => ⟨pushIncoming (pushIncoming s.incoming ti (fi, w)) fi (ti, w),
          addWeight o (addWeight o s.outWeight fi w) ti w⟩
    | _, _ => s

def headRound (n : Nat) (s : Incoming F) (d : F) (personalization scores : List F) : List F :=
  let danglingSum := o.sum (((List.range n).filter fun j =>
    o.eq (s.outWeight.getD j o.zero) o.zero).map fun j => scores.getD j o.zero)
  (List.range n).foldl (fun newScores i =>
    let propagated := o.sum ((s.incoming.getD i []).map (propagates o scores s.outWeight))
    newScores.set i (nextScore o d (personalization.getD i o.zero) propagated danglingSum))
    (List.replicate n o.zero)

def headRounds (n : Nat) (s : Incoming F) (d epsilon : F) (personalization : List F) :
    Nat → List F → Nat → List F × Nat
  | 0, scores, iterations => (scores, iterations)
  | left + 1, scores, iterations =>
    let newScores := headRound o n s d personalization scores
    if o.lt (l1Diff o scores newScores) epsilon then (newScores, iterations + 1)
    else headRounds n s d epsilon personalization left newScores (iterations + 1)

/-- The ranking each call made before there was an index. -/
def pprVectorHead (nodeIds : List NodeId) (edges : List Edge) (seeds : List NodeId)
    (config : ActivationConfig F) : List F × Nat :=
  let n := nodeIds.length
  if n = 0 ∨ seeds = [] then ([], 0)
  else
    let ids := Ppr.idToIdx nodeIds
    let s := edges.foldl (addIncoming o config ids)
      ⟨List.replicate n [], List.replicate n o.zero⟩
    if (seeds.filter fun s => ids.contains s).length = 0 then ([], 0)
    else
      let personalization := personalise o n ids seeds
      headRounds o n s (o.clampDamping config.damping) config.epsilon personalization
        config.maxIterations personalization 0

end Head

end Glia.Algo.Ppr
