import Glia.Algo.Cycles

/-! Stratification of the predicate dependency graph. -/
namespace Glia.Rules

open Glia.Algo

/-- How a rule's body reads a predicate. -/
inductive Dep where
  | pos
  | neg
  | agg
  deriving DecidableEq, Repr

def Dep.category : Dep → EdgeCategoryId
  | pos => 0
  | neg => 1
  | agg => 2

/-- One dependency: the rule defining `head` reads `body` as `dep`; `site` is the
caller's reference to the literal. -/
structure DepEdge where
  body : Nat
  head : Nat
  dep : Dep
  site : Nat
  deriving DecidableEq, Repr

structure Strata where
  /-- Per predicate: its stratum, an index into `order`. -/
  stratumOf : List Nat
  /-- Per stratum, lowest first: its predicates, ascending. -/
  order : List (List Nat)
  /-- Per predicate: in a component of two or more, or reading itself. -/
  recursive : List Bool
  /-- Per predicate: its component's smallest member. -/
  component : List Nat
  deriving DecidableEq, Repr

/-- A component a negated or aggregated read stays inside. -/
structure BadCycle where
  preds : List Nat
  dep : Dep
  site : Nat
  deriving DecidableEq, Repr

def predGraph (n : Nat) (edges : List DepEdge) : GraphSource where
  nodeIds := List.range n
  edges := edges.map fun e => ⟨e.body, e.head, e.dep.category, .strong, []⟩

def predRange (npreds : Nat) (edges : List DepEdge) : Nat :=
  (edges.map fun e => max e.body e.head + 1).foldl max npreds

namespace Stratify

/-- The component `p` is in, by its smallest member; itself when alone. -/
def componentOf (comps : List (List Nat)) (p : Nat) : Nat :=
  match comps.find? fun c => c.contains p with
  | some c => c.headD p
  | none => p

def offence (comp : Nat → Nat) (edges : List DepEdge) (rep : Nat) : Option DepEdge :=
  edges.find? fun e => e.dep ≠ .pos && comp e.body == rep && comp e.head == rep

def badCycles (comps : List (List Nat)) (comp : Nat → Nat) (edges : List DepEdge) :
    List BadCycle :=
  comps.filterMap fun members =>
    (offence comp edges (members.headD 0)).map fun e => ⟨members, e.dep, e.site⟩

def crossing (comp : Nat → Nat) (edges : List DepEdge) : List (Nat × Nat) :=
  (edges.map fun e => (comp e.body, comp e.head)).filter fun e => e.1 ≠ e.2

/-- Kahn's loop state: the ready components ascending, the reads each component still
waits for, and the components emitted. -/
structure Kahn where
  ready : List Nat
  indegree : Nat → Nat
  emitted : List Nat

def Kahn.release (k : Kahn) (c : Nat) : Kahn :=
  let left := k.indegree c - 1
  { k with
    indegree := Function.update k.indegree c left
    ready := if left = 0 then k.ready.orderedInsert (· ≤ ·) c else k.ready }

def Kahn.emit (cross : List (Nat × Nat)) (k : Kahn) (c : Nat) (rest : List Nat) : Kahn :=
  ((cross.filter fun e => e.1 = c).map Prod.snd).foldl Kahn.release
    { k with ready := rest, emitted := k.emitted ++ [c] }

def Kahn.run (cross : List (Nat × Nat)) : Nat → Kahn → Kahn
  | 0, k => k
  | fuel + 1, k =>
    match k.ready with
    | [] => k
    | c :: rest => Kahn.run cross fuel (k.emit cross c rest)

def Kahn.init (n : Nat) (comp : Nat → Nat) (cross : List (Nat × Nat)) : Kahn :=
  let indegree := fun c => (cross.map Prod.snd).count c
  { ready := (List.range n).filter fun c => comp c = c && indegree c = 0
    indegree := indegree
    emitted := [] }

def kahn (n : Nat) (comp : Nat → Nat) (cross : List (Nat × Nat)) : List Nat :=
  (Kahn.run cross n (Kahn.init n comp cross)).emitted

end Stratify

open Stratify in
def stratify (npreds : Nat) (edges : List DepEdge) : Except (List BadCycle) Strata :=
  let n := predRange npreds edges
  let comps := stronglyConnected (Adjacency.build (predGraph n edges) .all)
  let comp := componentOf comps
  let bad := badCycles comps comp edges
  if bad ≠ [] then .error bad
  else
    let emitted := kahn n comp (crossing comp edges)
    .ok
      { stratumOf := (List.range n).map fun p => emitted.idxOf (comp p)
        order := emitted.map fun c => (List.range n).filter fun p => comp p = c
        recursive := (List.range n).map fun p => comps.any fun c => c.contains p
        component := (List.range n).map comp }

end Glia.Rules
