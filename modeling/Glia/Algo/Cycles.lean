import Glia.Algo.Adjacency

/-! Tarjan's strongly connected components, written with an explicit frame stack. -/
namespace Glia.Algo

/-- The loop's state: `order v = none` is a vertex not visited yet, and a frame is a
vertex with the position of its next outgoing edge to examine. -/
structure Tarjan where
  order : Nat → Option Nat
  low : Nat → Nat
  onStack : Nat → Bool
  stack : List Nat
  frames : List (Nat × Nat)
  next : Nat
  found : List (List NodeId)
  enter : Option Nat

namespace Tarjan

def init : Tarjan where
  order := fun _ => none
  low := fun _ => 0
  onStack := fun _ => false
  stack := []
  frames := []
  next := 0
  found := []
  enter := none

def open' (s : Tarjan) (v : Nat) : Tarjan where
  order := Function.update s.order v (some s.next)
  low := Function.update s.low v s.next
  onStack := Function.update s.onStack v true
  stack := v :: s.stack
  frames := (v, 0) :: s.frames
  next := s.next + 1
  found := s.found
  enter := none

def opened (s : Tarjan) : Tarjan :=
  match s.enter with
  | some v => s.open' v
  | none => s

def examine (s : Tarjan) (v pos : Nat) (rest : List (Nat × Nat)) (inc : Inc) : Tarjan :=
  let s := { s with frames := (v, pos + 1) :: rest }
  match s.order inc.other with
  | none => { s with enter := some inc.other }
  | some o =>
    if s.onStack inc.other then
      { s with low := Function.update s.low v (min (s.low v) o) }
    else s

def fold (s : Tarjan) (v : Nat) (rest : List (Nat × Nat)) : Tarjan :=
  match rest with
  | [] => { s with frames := [] }
  | (parent, pos) :: below =>
    { s with
      frames := (parent, pos) :: below
      low := Function.update s.low parent (min (s.low parent) (s.low v)) }

/-- The stack down to `v`, in pop order. -/
def popped (v : Nat) : List Nat → List Nat
  | [] => []
  | w :: below => if w = v then [w] else w :: popped v below

def close (adj : Adjacency) (s : Tarjan) (v : Nat) : Tarjan :=
  let members := popped v s.stack
  let ids := (members.map adj.id).insertionSort (· ≤ ·)
  let nontrivial := 2 ≤ members.length || (adj.outgoing v).any fun inc => inc.other == v
  { s with
    stack := s.stack.drop members.length
    onStack := fun w => s.onStack w && !members.contains w
    found := if nontrivial then s.found ++ [ids] else s.found }

/-- Every edge of the top frame `v` is examined. -/
def leave (adj : Adjacency) (s : Tarjan) (v : Nat) (rest : List (Nat × Nat)) : Tarjan :=
  let s' := s.fold v rest
  if some (s'.low v) = s'.order v then s'.close adj v else s'

def turn (adj : Adjacency) (s : Tarjan) : Option Tarjan :=
  let s := s.opened
  match s.frames with
  | [] => none
  | (v, pos) :: rest =>
    match (adj.outgoing v)[pos]? with
    | some inc => some (s.examine v pos rest inc)
    | none => some (s.leave adj v rest)

def run (adj : Adjacency) : Nat → Tarjan → Tarjan
  | 0, s => s
  | fuel + 1, s =>
    match s.turn adj with
    | none => s
    | some s' => run adj fuel s'

/-- Each turn of one root examines an edge or closes a frame. -/
def fuel (adj : Adjacency) : Nat := adj.keptEdges + adj.len + 1

def visit (adj : Adjacency) (s : Tarjan) (root : Nat) : Tarjan :=
  match s.order root with
  | some _ => s
  | none => run adj (fuel adj) { s with enter := some root }

end Tarjan

/-- Every non-trivial strongly connected component, its ids sorted by value, the
components sorted by their first id. -/
def stronglyConnected (adj : Adjacency) : List (List NodeId) :=
  let s := (List.range adj.len).foldl (Tarjan.visit adj) Tarjan.init
  s.found.insertionSort fun a b => a.headD 0 ≤ b.headD 0

end Glia.Algo
