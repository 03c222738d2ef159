import Glia.Algo.WeightedGraph

/-! The Stoer-Wagner global minimum cut, with every phase cut it computes on the way. -/
namespace Glia.Algo

/-- One phase's cut: the phase's last super-vertex against the rest of the view. -/
structure PhaseCut where
  weight : Nat
  side : List Nat
  deriving DecidableEq, Repr

structure MinCut where
  weight : Nat
  side : List Bool
  phases : List PhaseCut
  deriving DecidableEq, Repr

section Heap

/-- A heap entry: a connectivity and a label. The greatest connectivity is on top, of those
the smallest label. -/
abbrev HeapEntry := Nat × Nat

def HeapEntry.above (e f : HeapEntry) : Bool := f.1 < e.1 || (e.1 == f.1 && e.2 < f.2)

def heapTop : HeapEntry → List HeapEntry → HeapEntry
  | best, [] => best
  | best, e :: rest => heapTop (if HeapEntry.above e best then e else best) rest

def heapPop : List HeapEntry → Option (HeapEntry × List HeapEntry)
  | [] => none
  | e :: rest => some (heapTop e rest, (e :: rest).erase (heapTop e rest))

theorem heapTop_mem (best : HeapEntry) (rest : List HeapEntry) :
    heapTop best rest ∈ best :: rest := by
  induction rest generalizing best with
  | nil => exact List.mem_cons_self
  | cons e rest ih =>
    rw [heapTop]
    have := ih (if HeapEntry.above e best then e else best)
    split at this <;> rename_i above
    · rw [if_pos above]
      exact List.mem_cons_of_mem _ this
    · rw [if_neg above]
      rcases List.mem_cons.mp this with eq | mem
      · rw [eq]
        exact List.mem_cons_self
      · exact List.mem_cons_of_mem _ (List.mem_cons_of_mem _ mem)

theorem heapPop_length {heap rest : List HeapEntry} {e : HeapEntry}
    (popped : heapPop heap = some (e, rest)) : rest.length < heap.length := by
  cases heap with
  | nil => cases popped
  | cons f heap =>
    cases popped
    rw [List.length_erase_of_mem (heapTop_mem f heap)]
    simp

end Heap

section Grow

-- The super-vertices' neighbour rows and their labels.
variable (adj : Nat → WeightRow) (alive : List Nat)

/-- The set a phase grows: each label's connectivity to it, whether it is in it, the labels
waiting, and the last two added. -/
structure Phase where
  key : Nat → Nat
  added : Nat → Bool
  heap : List HeapEntry
  prev : Nat
  last : Nat
  cut : Nat
  count : Nat
  scan : Nat

def Phase.tighten (s : Phase) (e : Nat × Nat) : Phase :=
  if s.added e.1 then s
  else
    let k := satAdd (s.key e.1) e.2
    { s with key := Function.update s.key e.1 k, heap := (k, e.1) :: s.heap }

def Phase.enter (s : Phase) (v : Nat) : Phase :=
  { s with
    added := Function.update s.added v true
    prev := s.last
    last := v
    cut := s.key v
    count := s.count + 1 }

def Phase.add (s : Phase) (v : Nat) : Phase :=
  if (s.enter v).count = alive.length then s.enter v
  else (adj v).foldl Phase.tighten (s.enter v)

def Phase.skip (s : Phase) : Nat := s.scan + ((alive.drop s.scan).takeWhile s.added).length

theorem Phase.tighten_count (s : Phase) (e : Nat × Nat) : (s.tighten e).count = s.count := by
  unfold tighten
  split <;> rfl

theorem Phase.foldl_tighten_count (row : WeightRow) (s : Phase) :
    (row.foldl Phase.tighten s).count = s.count := by
  induction row generalizing s with
  | nil => rfl
  | cons e row ih => rw [List.foldl_cons, ih, tighten_count]

@[simp] theorem Phase.add_count (s : Phase) (v : Nat) :
    (s.add adj alive v).count = s.count + 1 := by
  unfold add
  split
  · rfl
  · rw [foldl_tighten_count]
    rfl

/-- Add labels until every one is in the set: the top of the heap, past the stale entries,
or, once it runs dry, the smallest label left. -/
def grow (s : Phase) : Phase :=
  if s.count < alive.length then
    match _popped : heapPop s.heap with
    | some ((k, v), rest) =>
      if s.added v ∨ k ≠ s.key v then grow { s with heap := rest }
      else grow (Phase.add adj alive { s with heap := rest } v)
    | none =>
      match alive[s.skip alive]? with
      | none => { s with scan := s.skip alive }
      | some v => grow (Phase.add adj alive { s with scan := s.skip alive } v)
  else s
termination_by (alive.length - s.count, s.heap.length)
decreasing_by
  · exact Prod.Lex.right _ (heapPop_length _popped)
  · apply Prod.Lex.left
    rw [Phase.add_count]
    dsimp only
    omega
  · apply Prod.Lex.left
    rw [Phase.add_count]
    dsimp only
    omega

end Grow

section Merge

/-- A row without its entry for a label: where binary search finds it in a sorted row. -/
def removeLabel (gone : Nat) : WeightRow → WeightRow
  | [] => []
  | e :: rest =>
    if e.1 = gone then rest
    else if gone < e.1 then e :: rest
    else e :: removeLabel gone rest

/-- A row with a weight added to its entry for a label, or the entry put in its place. -/
def addWeight (keep w : Nat) : WeightRow → WeightRow
  | [] => [(keep, w)]
  | e :: rest =>
    if e.1 = keep then (e.1, satAdd e.2 w) :: rest
    else if keep < e.1 then (keep, w) :: e :: rest
    else e :: addWeight keep w rest

/-- Two sorted rows as one, summing a neighbour both hold and leaving out the two labels
being merged. -/
def mergeRows (x y : Nat) : WeightRow → WeightRow → WeightRow
  | [], b => b.filter fun e => e.1 ≠ x ∧ e.1 ≠ y
  | a, [] => a.filter fun e => e.1 ≠ x ∧ e.1 ≠ y
  | p :: a, q :: b =>
    if p.1 = q.1 then
      ([(p.1, satAdd p.2 q.2)].filter fun e => e.1 ≠ x ∧ e.1 ≠ y) ++ mergeRows x y a b
    else if p.1 < q.1 then ([p].filter fun e => e.1 ≠ x ∧ e.1 ≠ y) ++ mergeRows x y a (q :: b)
    else ([q].filter fun e => e.1 ≠ x ∧ e.1 ≠ y) ++ mergeRows x y (p :: a) b
termination_by a b => a.length + b.length

/-- The super-vertices: their rows, their members and the labels that are left, ascending,
each the smallest member of its own. -/
structure SuperGraph where
  adj : Nat → WeightRow
  members : Nat → List Nat
  alive : List Nat

/-- One of the moved neighbours' rows, its entry for the label gone added to the one kept. -/
def redirect (keep gone : Nat) (adj : Nat → WeightRow) (e : Nat × Nat) : Nat → WeightRow :=
  if e.1 = keep then adj
  else Function.update adj e.1 (addWeight keep e.2 (removeLabel gone (adj e.1)))

/-- Merge two super-vertices into one under the smaller label. -/
def SuperGraph.merge (c : SuperGraph) (a b : Nat) : SuperGraph :=
  let keep := min a b
  let gone := max a b
  let moved := c.adj gone
  let adj := moved.foldl (redirect keep gone) (Function.update c.adj gone [])
  let kept := c.members keep
  let joining := c.members gone
  { adj := Function.update adj keep (mergeRows keep gone (adj keep) moved)
    members := Function.update (Function.update c.members gone []) keep
      -- the shorter list is appended to the longer
      (if kept.length < joining.length then joining ++ kept else kept ++ joining)
    alive := c.alive.filter fun v => v ≠ gone }

end Merge

section Sweep

/-- The run between phases: the super-vertices, what the last phase left of its keys, and
the cuts so far with the earliest least. -/
structure CutRun where
  graph : SuperGraph
  key : Nat → Nat
  added : Nat → Bool
  phases : List PhaseCut
  best : Nat

def CutRun.open (r : CutRun) : Phase where
  key := fun v => if v ∈ r.graph.alive then 0 else r.key v
  added := fun v => if v ∈ r.graph.alive then false else r.added v
  heap := []
  prev := 0
  last := 0
  cut := 0
  count := 0
  scan := 0

def CutRun.grown (r : CutRun) : Phase := grow r.graph.adj r.graph.alive r.open

def CutRun.phase (r : CutRun) : CutRun :=
  let s := r.grown
  let side := (r.graph.members s.last).insertionSort (· ≤ ·)
  { graph := r.graph.merge s.prev s.last
    key := s.key
    added := s.added
    phases := r.phases ++ [⟨s.cut, side⟩]
    best := match r.phases[r.best]? with
      | none => r.phases.length
      | some p => if s.cut < p.weight then r.phases.length else r.best }

/-- Phase after phase, until one super-vertex is left; `none` when the fuel runs out. -/
def sweep : Nat → CutRun → Option CutRun
  | fuel, r =>
    if 1 < r.graph.alive.length then
      match fuel with
      | 0 => none
      | fuel + 1 => sweep fuel r.phase
    else some r

/-- Each node a super-vertex of its own. -/
def WeightedGraph.singletons (g : WeightedGraph) : CutRun where
  graph :=
    { adj := g.neighbours
      members := fun v => [v]
      alive := List.range g.len }
  key := fun _ => 0
  added := fun _ => false
  phases := []
  best := 0

/-- The global minimum cut; none of fewer than two nodes. -/
def stoerWagner (g : WeightedGraph) : Option MinCut :=
  if g.len < 2 then none
  else do
    let r ← sweep g.len g.singletons
    let p ← r.phases[r.best]?
    some ⟨p.weight, (List.range g.len).map fun v => p.side.contains v, r.phases⟩

end Sweep

end Glia.Algo
