import Glia.Algo.Reach
import Glia.Algo.ReachIds
import Glia.Kit.BreadthFirst

/-! The plain breadth-first walk over an index, by a queue. -/
namespace Glia.Algo

open Kit

/-- A node a walk reached: its hops from the nearest seed, the edge that reached it first, and
the node it was reached from. -/
structure Reached where
  id : NodeId
  depth : Nat
  via : EdgeCategoryId
  parent : NodeId
  deriving DecidableEq, Repr

structure Bfs where
  reached : List Reached
  scanned : Nat
  deriving DecidableEq, Repr

structure BfsState where
  visited : Nat → Bool
  queue : List (Nat × Nat)
  out : Bfs

section Walk
variable (adj : Adjacency)

def seedQueue (seeds : List NodeId) : List (Nat × Nat) × (Nat → Bool) :=
  seeds.foldl (fun s seed =>
    match adj.indexOf seed with
    | none => s
    | some ix => if s.2 ix then s else (s.1 ++ [(ix, 0)], Function.update s.2 ix true))
    ([], fun _ => false)

def follow (depth node : Nat) (s : BfsState) (inc : Inc) : BfsState :=
  let out := { s.out with scanned := s.out.scanned + 1 }
  if s.visited inc.other then { s with out := out }
  else
    { visited := Function.update s.visited inc.other true
      queue := s.queue ++ [(inc.other, depth + 1)]
      out := { out with reached := out.reached ++
        [⟨adj.id inc.other, depth + 1, inc.category, adj.id node⟩] } }

/-- Take nodes off the queue until it is empty; each node is on it once. -/
def bfsLoop (walk : Walk) (maxDepth : Nat) : Nat → BfsState → BfsState
  | 0, s => s
  | fuel + 1, s =>
    match s.queue with
    | [] => s
    | (node, depth) :: rest =>
      let s := { s with queue := rest }
      if maxDepth ≤ depth then bfsLoop walk maxDepth fuel s
      else bfsLoop walk maxDepth fuel ((incidences adj node walk).foldl (follow adj depth node) s)

def bfs (seeds : List NodeId) (walk : Walk) (maxDepth : Nat) : Bfs :=
  let start := seedQueue adj seeds
  (bfsLoop adj walk maxDepth (adj.len + 1) ⟨start.2, start.1, ⟨[], 0⟩⟩).out

end Walk

section Exact
variable {adj : Adjacency} {walk : Walk}

def Steps (adj : Adjacency) (walk : Walk) (u v : Nat) : Prop :=
  ∃ inc ∈ incidences adj u walk, inc.other = v

/-- The nodes the incidences of a node add, in order. -/
def freshOf (visited : Nat → Bool) : List Inc → List Nat
  | [] => []
  | inc :: rest =>
    if visited inc.other then freshOf visited rest
    else inc.other :: freshOf (Function.update visited inc.other true) rest

theorem mem_freshOf {visited : Nat → Bool} {incs : List Inc} {v : Nat} :
    v ∈ freshOf visited incs ↔ visited v = false ∧ ∃ inc ∈ incs, inc.other = v := by
  induction incs generalizing visited with
  | nil => simp [freshOf]
  | cons inc rest ih =>
    unfold freshOf
    split
    · rename_i seen
      rw [ih]
      constructor
      · rintro ⟨out, inc', mem, eq⟩
        exact ⟨out, inc', List.mem_cons_of_mem _ mem, eq⟩
      · rintro ⟨out, inc', mem, rfl⟩
        rcases List.mem_cons.mp mem with rfl | later
        · rw [out] at seen
          cases seen
        · exact ⟨out, inc', later, rfl⟩
    · rename_i unseen
      rw [List.mem_cons, ih]
      by_cases here : v = inc.other
      · subst here
        simp [unseen]
      · simp [here, Ne.symm here]

theorem freshOf_nodup (visited : Nat → Bool) (incs : List Inc) : (freshOf visited incs).Nodup := by
  induction incs generalizing visited with
  | nil => exact List.nodup_nil
  | cons inc rest ih =>
    unfold freshOf
    split
    · exact ih _
    · rw [List.nodup_cons]
      refine ⟨fun mem => ?_, ih _⟩
      have out := (mem_freshOf.mp mem).1
      simp at out

theorem foldl_follow (depth node : Nat) (incs : List Inc) (s : BfsState) :
    let t := incs.foldl (follow adj depth node) s
    (∀ v, t.visited v = (s.visited v || decide (v ∈ freshOf s.visited incs))) ∧
      t.queue = s.queue ++ (freshOf s.visited incs).map (fun v => (v, depth + 1)) ∧
      t.out.reached.map (fun r => (r.id, r.depth)) =
        s.out.reached.map (fun r => (r.id, r.depth)) ++
          (freshOf s.visited incs).map (fun v => (adj.id v, depth + 1)) := by
  induction incs generalizing s with
  | nil => simp [freshOf]
  | cons inc rest ih =>
    dsimp only
    rw [List.foldl_cons]
    obtain ⟨visited, queue, told⟩ := ih (follow adj depth node s inc)
    rw [queue, told, freshOf]
    by_cases seen : s.visited inc.other = true
    · have same : follow adj depth node s inc =
          { s with out := { s.out with scanned := s.out.scanned + 1 } } := by
        unfold follow
        exact if_pos seen
      rw [if_pos seen]
      refine ⟨fun v => ?_, ?_, ?_⟩
      · rw [visited, same]
      · rw [same]
      · rw [same]
    · have moved : (follow adj depth node s inc).visited =
          Function.update s.visited inc.other true ∧
          (follow adj depth node s inc).queue = s.queue ++ [(inc.other, depth + 1)] ∧
          (follow adj depth node s inc).out.reached = s.out.reached ++
            [⟨adj.id inc.other, depth + 1, inc.category, adj.id node⟩] := by
        unfold follow
        dsimp only
        rw [if_neg seen]
        exact ⟨rfl, rfl, rfl⟩
      rw [if_neg seen]
      refine ⟨fun v => ?_, ?_, ?_⟩
      · rw [visited, moved.1]
        by_cases here : v = inc.other
        · subst here
          simp
        · simp [here]
      · rw [moved.1, moved.2.1]
        simp
      · rw [moved.1, moved.2.2]
        simp

def unseen (adj : Adjacency) (visited : Nat → Bool) : Finset Nat :=
  (Finset.range adj.len).filter fun v => visited v = false

def Searched (adj : Adjacency) (walk : Walk) (S : Set Nat) (maxDepth : Nat) (s : BfsState)
    (rows : List (Nat × Nat)) : Prop :=
  Search (Steps adj walk) S maxDepth s.queue {v | s.visited v = true} rows ∧
    s.out.reached.map (fun r => (r.id, r.depth)) = rows.map fun e => (adj.id e.1, e.2)

theorem expand_searched {S : Set Nat} {maxDepth node depth : Nat} {rest : List (Nat × Nat)}
    {s : BfsState} {rows : List (Nat × Nat)} (queue : s.queue = (node, depth) :: rest)
    (h : Searched adj walk S maxDepth s rows) (near : depth < maxDepth) :
    ∃ rows', Searched adj walk S maxDepth
      ((incidences adj node walk).foldl (follow adj depth node) { s with queue := rest }) rows' := by
  obtain ⟨search, told⟩ := h
  rw [queue] at search
  obtain ⟨visited, queued, reached⟩ :=
    @foldl_follow adj depth node (incidences adj node walk) { s with queue := rest }
  have grown := search.expand near (freshOf_nodup s.visited (incidences adj node walk))
    (fun v mem => by
      have out := (mem_freshOf.mp mem).1
      simp [out])
    (fun v mem => (mem_freshOf.mp mem).2)
    (fun v step => by
      by_cases seen : s.visited v = true
      · exact .inl seen
      · exact .inr (mem_freshOf.mpr ⟨by simpa using seen, step⟩))
  have seen : {v | ((incidences adj node walk).foldl (follow adj depth node)
      { s with queue := rest }).visited v = true} =
      {v | s.visited v = true} ∪ {v | v ∈ freshOf s.visited (incidences adj node walk)} := by
    ext v
    simp [visited]
  refine ⟨rows ++ (freshOf s.visited (incidences adj node walk)).map fun v => (v, depth + 1),
    ?_, ?_⟩
  · rw [queued, seen]
    exact grown
  · rw [reached, told, List.map_append, List.map_map]
    rfl

theorem skip_searched {S : Set Nat} {maxDepth node depth : Nat} {rest : List (Nat × Nat)}
    {s : BfsState} {rows : List (Nat × Nat)} (queue : s.queue = (node, depth) :: rest)
    (h : Searched adj walk S maxDepth s rows) (far : maxDepth ≤ depth) :
    Searched adj walk S maxDepth { s with queue := rest } rows := by
  obtain ⟨search, told⟩ := h
  rw [queue] at search
  exact ⟨search.skip far, told⟩

theorem expand_unseen {node depth : Nat} {rest : List (Nat × Nat)} (s : BfsState) :
    let t := (incidences adj node walk).foldl (follow adj depth node) { s with queue := rest }
    (unseen adj t.visited).card + t.queue.length ≤
      (unseen adj s.visited).card + rest.length := by
  intro t
  obtain ⟨visited, queued, _⟩ :=
    @foldl_follow adj depth node (incidences adj node walk) { s with queue := rest }
  have once := freshOf_nodup s.visited (incidences adj node walk)
  have apart : Disjoint (unseen adj t.visited)
      (freshOf s.visited (incidences adj node walk)).toFinset := by
    rw [Finset.disjoint_left]
    intro v mem mem'
    have out := (Finset.mem_filter.mp mem).2
    rw [visited, List.mem_toFinset.mp mem' |> decide_eq_true, Bool.or_true] at out
    cases out
  have inside : (unseen adj t.visited) ∪ (freshOf s.visited (incidences adj node walk)).toFinset ⊆
      unseen adj s.visited := by
    intro v mem
    rcases Finset.mem_union.mp mem with old | new
    · obtain ⟨lt, out⟩ := Finset.mem_filter.mp old
      rw [visited, Bool.or_eq_false_iff] at out
      exact Finset.mem_filter.mpr ⟨lt, out.1⟩
    · obtain ⟨out, inc, memInc, rfl⟩ := mem_freshOf.mp (List.mem_toFinset.mp new)
      exact Finset.mem_filter.mpr ⟨Finset.mem_range.mpr (incidences_lt adj memInc), out⟩
  have few := Finset.card_le_card inside
  rw [Finset.card_union_of_disjoint apart, List.toFinset_card_of_nodup once] at few
  have length := congrArg List.length queued
  rw [List.length_append, List.length_map] at length
  change _ + t.queue.length ≤ _
  have length : t.queue.length = rest.length +
    (freshOf s.visited (incidences adj node walk)).length := length
  omega

theorem bfsLoop_searched {S : Set Nat} {maxDepth : Nat} (fuel : Nat) {s : BfsState}
    {rows : List (Nat × Nat)} (h : Searched adj walk S maxDepth s rows)
    (enough : (unseen adj s.visited).card + s.queue.length ≤ fuel) :
    ∃ rows', (bfsLoop adj walk maxDepth fuel s).queue = [] ∧
      Searched adj walk S maxDepth (bfsLoop adj walk maxDepth fuel s) rows' := by
  induction fuel generalizing s rows with
  | zero =>
    have empty : s.queue = [] := List.length_eq_zero_iff.mp (by omega)
    exact ⟨rows, empty, h⟩
  | succ fuel ih =>
    unfold bfsLoop
    cases queue : s.queue with
    | nil => exact ⟨rows, queue, h⟩
    | cons e rest =>
      obtain ⟨node, depth⟩ := e
      rw [queue, List.length_cons] at enough
      dsimp only
      split
      · rename_i far
        exact ih (skip_searched queue h far) (by dsimp only; omega)
      · rename_i near
        obtain ⟨rows', grown⟩ := expand_searched queue h (Nat.lt_of_not_le near)
        have fewer := @expand_unseen adj walk node depth rest s
        exact ih grown (fewer.trans (by omega))

def seedIndexes (adj : Adjacency) (seeds : List NodeId) : Set Nat :=
  {v | ∃ seed ∈ seeds, adj.indexOf seed = some v}

theorem seedQueue_spec (adj : Adjacency) (seeds : List NodeId) :
    ∃ l : List Nat, (seedQueue adj seeds).1 = l.map (fun v => (v, 0)) ∧ l.Nodup ∧
      (∀ v, (seedQueue adj seeds).2 v = true ↔ v ∈ l) ∧ ∀ v, v ∈ l ↔ v ∈ seedIndexes adj seeds := by
  unfold seedQueue seedIndexes
  induction seeds using List.reverseRecOn with
  | nil => exact ⟨[], rfl, List.nodup_nil, by simp, by simp⟩
  | append_singleton seeds seed ih =>
    obtain ⟨l, queue, once, visited, mem⟩ := ih
    rw [List.foldl_append, List.foldl_cons, List.foldl_nil]
    cases at' : adj.indexOf seed with
    | none =>
      refine ⟨l, queue, once, visited, fun v => ?_⟩
      rw [mem]
      simp [or_and_right, exists_or, at']
    | some ix =>
      dsimp only
      have grown : ∀ v, (∃ s ∈ seeds ++ [seed], adj.indexOf s = some v) ↔
          (∃ s ∈ seeds, adj.indexOf s = some v) ∨ v = ix := by
        intro v
        simp [or_and_right, exists_or, at', eq_comm]
      split
      · rename_i seen
        refine ⟨l, queue, once, visited, fun v => ?_⟩
        have held : v ∈ l ∨ v = ix ↔ v ∈ l :=
          or_iff_left_of_imp fun eq => eq ▸ (visited ix).mp seen
        exact ((grown v).trans ((or_congr_left (mem v).symm).trans held)).symm
      · rename_i unseen'
        have out : ix ∉ l := fun held => unseen' ((visited ix).mpr held)
        refine ⟨l ++ [ix], ?_, ?_, fun v => ?_, fun v => ?_⟩
        · rw [queue, List.map_append, List.map_singleton]
        · rw [List.nodup_append]
          exact ⟨once, List.nodup_singleton ix, fun a memA b memB eq => out (by
            rw [← List.mem_singleton.mp memB, ← eq]
            exact memA)⟩
        · by_cases here : v = ix
          · subst here
            simp
          · simp [here, visited]
        · rw [List.mem_append, List.mem_singleton]
          exact ((grown v).trans (or_congr_left (mem v).symm)).symm

theorem seedQueue_few (adj : Adjacency) (seeds : List NodeId) :
    (unseen adj (seedQueue adj seeds).2).card + (seedQueue adj seeds).1.length ≤ adj.len := by
  obtain ⟨l, queue, once, visited, mem⟩ := seedQueue_spec adj seeds
  have apart : Disjoint (unseen adj (seedQueue adj seeds).2) l.toFinset := by
    rw [Finset.disjoint_left]
    intro v memV held
    have out := (Finset.mem_filter.mp memV).2
    rw [(visited v).mpr (List.mem_toFinset.mp held)] at out
    cases out
  have inside : unseen adj (seedQueue adj seeds).2 ∪ l.toFinset ⊆ Finset.range adj.len := by
    intro v memV
    rcases Finset.mem_union.mp memV with old | held
    · exact (Finset.mem_filter.mp old).1
    · obtain ⟨seed, _, at'⟩ := (mem v).mp (List.mem_toFinset.mp held)
      exact Finset.mem_range.mpr (adj.indexOf_lt at')
  have few := Finset.card_le_card inside
  rw [Finset.card_union_of_disjoint apart, List.toFinset_card_of_nodup once,
    Finset.card_range] at few
  rw [queue, List.length_map]
  omega

theorem steps_lt {u v : Nat} (h : Steps adj walk u v) : v < adj.len := by
  obtain ⟨inc, mem, rfl⟩ := h
  exact incidences_lt adj mem

theorem dist_lt {S : Set Nat} {v k : Nat} (pos : 1 ≤ k) (h : Kit.Dist (Steps adj walk) S v k) :
    v < adj.len := by
  obtain ⟨j, rfl⟩ := Nat.exists_eq_add_of_le' pos
  obtain ⟨u, _, step⟩ := dist_succ h
  exact steps_lt step

theorem start_searched (adj : Adjacency) (seeds : List NodeId) (walk : Walk) (maxDepth : Nat) :
    Searched adj walk (seedIndexes adj seeds) maxDepth
      ⟨(seedQueue adj seeds).2, (seedQueue adj seeds).1, ⟨[], 0⟩⟩ [] := by
  obtain ⟨l, queue, once, visited, mem⟩ := seedQueue_spec adj seeds
  have seen : {v | (seedQueue adj seeds).2 v = true} = seedIndexes adj seeds := by
    ext v
    rw [Set.mem_ofPred_eq, visited, mem]
  refine ⟨?_, rfl⟩
  dsimp only
  rw [queue, seen]
  exact Search.start mem

theorem bfs_rows (adj : Adjacency) (seeds : List NodeId) (walk : Walk) (maxDepth : Nat) :
    ∃ rows : List (Nat × Nat), (rows.map Prod.fst).Nodup ∧
      (∀ v k, (v, k) ∈ rows ↔
        1 ≤ k ∧ k ≤ maxDepth ∧ Kit.Dist (Steps adj walk) (seedIndexes adj seeds) v k) ∧
      (bfs adj seeds walk maxDepth).reached.map (fun r => (r.id, r.depth)) =
        rows.map fun e => (adj.id e.1, e.2) := by
  obtain ⟨rows, empty, search, told⟩ := bfsLoop_searched (adj.len + 1)
    (start_searched adj seeds walk maxDepth)
    ((seedQueue_few adj seeds).trans (Nat.le_succ _))
  rw [empty] at search
  exact ⟨rows, search.once, search.done, told⟩

theorem bfs_nodup (adj : Adjacency) (seeds : List NodeId) (walk : Walk) (maxDepth : Nat) :
    ((bfs adj seeds walk maxDepth).reached.map Reached.id).Nodup := by
  obtain ⟨rows, once, exact', told⟩ := bfs_rows adj seeds walk maxDepth
  have ids := congrArg (List.map Prod.fst) told
  rw [List.map_map, List.map_map] at ids
  change (bfs adj seeds walk maxDepth).reached.map Reached.id = _ at ids
  rw [ids]
  change (rows.map (adj.id ∘ Prod.fst)).Nodup
  rw [← List.map_map]
  apply List.Nodup.map_on _ once
  intro u memU v memV eq
  obtain ⟨⟨u, j⟩, rowU, rfl⟩ := List.mem_map.mp memU
  obtain ⟨⟨v, k⟩, rowV, rfl⟩ := List.mem_map.mp memV
  obtain ⟨posU, _, distU⟩ := (exact' u j).mp rowU
  obtain ⟨posV, _, distV⟩ := (exact' v k).mp rowV
  exact adj.id_injective (dist_lt posU distU) (dist_lt posV distV) eq

theorem dist_le {S : Set Nat} {v k : Nat} (h : Kit.Dist (Steps adj walk) S v k) : k ≤ adj.len := by
  cases k with
  | zero => exact Nat.zero_le _
  | succ k =>
    have inside : ∀ n, Within (Steps adj walk) S n ⊆ indexes adj := by
      intro n v mem
      cases n with
      | zero => cases mem
      | succ n =>
        obtain ⟨u, _, step⟩ := (mem_within_succ _ S n v).mp mem
        exact steps_lt step
    obtain ⟨s, mem, way⟩ := h.1
    have near := mem_within_of_card _ S (indexes_finite adj) inside (ncard_indexes adj).le
      ((mem_within_iff _ S (k + 1) v).mpr ⟨k + 1, by omega, le_rfl, s, mem, way⟩)
    obtain ⟨j, _, le, s', mem', way'⟩ := (mem_within_iff _ S adj.len v).mp near
    exact (h.2 ⟨s', mem', way'⟩).trans le

theorem bfs_tells {seeds : List NodeId} {maxDepth n v : Nat} (deep : adj.len ≤ maxDepth)
    (way : ∃ s ∈ seedIndexes adj seeds, Hops (Steps adj walk) n s v)
    (out : v ∉ seedIndexes adj seeds) :
    ∃ r ∈ (bfs adj seeds walk maxDepth).reached, r.id = adj.id v := by
  obtain ⟨rows, _, exact', told⟩ := bfs_rows adj seeds walk maxDepth
  obtain ⟨k, _, dist⟩ := exists_dist way
  have pos : 1 ≤ k := by
    refine Nat.pos_of_ne_zero fun zero => out ?_
    rw [zero] at dist
    exact dist_zero.mp dist
  have row := List.mem_map_of_mem (f := fun e => (adj.id e.1, e.2))
    ((exact' v k).mpr ⟨pos, (dist_le dist).trans deep, dist⟩)
  rw [← told] at row
  obtain ⟨r, mem, eq⟩ := List.mem_map.mp row
  exact ⟨r, mem, congrArg Prod.fst eq⟩

section Rooted
variable {S : Set Nat}

/-- A seed stands at depth 0, a node reached where its row says. -/
def Stands (adj : Adjacency) (S : Set Nat) (rows : List Reached) (v d : Nat) : Prop :=
  v ∈ S ∧ d = 0 ∨ ∃ r ∈ rows, r.id = adj.id v ∧ r.depth = d

/-- The row is of an edge from a node one hop nearer. -/
def HangsBy (adj : Adjacency) (walk : Walk) (S : Set Nat) (rows : List Reached) (r : Reached) :
    Prop :=
  ∃ u, ∃ inc ∈ incidences adj u walk, ∃ d, Stands adj S rows u d ∧
    r = ⟨adj.id inc.other, d + 1, inc.category, adj.id u⟩

structure Rooted (adj : Adjacency) (walk : Walk) (S : Set Nat) (s : BfsState) : Prop where
  queued : ∀ e ∈ s.queue, Stands adj S s.out.reached e.1 e.2
  rows : ∀ r ∈ s.out.reached, HangsBy adj walk S s.out.reached r

theorem Stands.mono {rows rows' : List Reached} (sub : rows ⊆ rows') {v d : Nat}
    (h : Stands adj S rows v d) : Stands adj S rows' v d :=
  h.imp_right fun told => told.imp fun _ row => ⟨sub row.1, row.2⟩

theorem HangsBy.mono {rows rows' : List Reached} (sub : rows ⊆ rows') {r : Reached}
    (h : HangsBy adj walk S rows r) : HangsBy adj walk S rows' r := by
  obtain ⟨u, inc, mem, d, stands, eq⟩ := h
  exact ⟨u, inc, mem, d, stands.mono sub, eq⟩

theorem follow_rooted {s : BfsState} (h : Rooted adj walk S s) {node depth : Nat}
    (stands : Stands adj S s.out.reached node depth) {inc : Inc}
    (mem : inc ∈ incidences adj node walk) :
    Rooted adj walk S (follow adj depth node s inc) ∧
      s.out.reached ⊆ (follow adj depth node s inc).out.reached := by
  unfold follow
  split
  · exact ⟨⟨h.queued, h.rows⟩, List.Subset.refl _⟩
  · have sub : s.out.reached ⊆ s.out.reached ++
        [⟨adj.id inc.other, depth + 1, inc.category, adj.id node⟩] := List.subset_append_left _ _
    refine ⟨⟨fun e held => ?_, fun r told => ?_⟩, sub⟩
    · cases List.mem_append.mp held with
      | inl old => exact (h.queued e old).mono sub
      | inr last =>
        rw [List.mem_singleton.mp last]
        exact .inr ⟨_, List.mem_append_right _ (List.mem_singleton_self _), rfl, rfl⟩
    · cases List.mem_append.mp told with
      | inl old => exact (h.rows r old).mono sub
      | inr last => exact ⟨node, inc, mem, depth, stands.mono sub, List.mem_singleton.mp last⟩

theorem foldl_follow_rooted {node depth : Nat} (incs : List Inc)
    (mem : ∀ inc ∈ incs, inc ∈ incidences adj node walk) :
    ∀ s : BfsState, Rooted adj walk S s → Stands adj S s.out.reached node depth →
      Rooted adj walk S (incs.foldl (follow adj depth node) s) := by
  induction incs with
  | nil => exact fun s h _ => h
  | cons inc rest ih =>
    intro s h stands
    obtain ⟨rooted, sub⟩ := follow_rooted h stands (mem inc List.mem_cons_self)
    exact ih (fun i held => mem i (List.mem_cons_of_mem _ held)) _ rooted (stands.mono sub)

theorem bfsLoop_rooted {maxDepth : Nat} (fuel : Nat) :
    ∀ s : BfsState, Rooted adj walk S s → Rooted adj walk S (bfsLoop adj walk maxDepth fuel s) := by
  induction fuel with
  | zero => exact fun s h => h
  | succ fuel ih =>
    intro s h
    unfold bfsLoop
    cases queue : s.queue with
    | nil => exact h
    | cons e rest =>
      obtain ⟨node, depth⟩ := e
      have taken : Rooted adj walk S { s with queue := rest } :=
        ⟨fun e mem => h.queued e (queue ▸ List.mem_cons_of_mem _ mem), h.rows⟩
      dsimp only
      split
      · exact ih _ taken
      · exact ih _ (foldl_follow_rooted _ (fun _ => id) _ taken
          (h.queued (node, depth) (queue ▸ List.mem_cons_self)))

theorem bfs_rooted (adj : Adjacency) (seeds : List NodeId) (walk : Walk) (maxDepth : Nat) :
    ∀ r ∈ (bfs adj seeds walk maxDepth).reached,
      HangsBy adj walk (seedIndexes adj seeds) (bfs adj seeds walk maxDepth).reached r := by
  obtain ⟨l, queue, _, _, mem⟩ := seedQueue_spec adj seeds
  refine (bfsLoop_rooted (adj.len + 1) _ ⟨fun e held => ?_, fun r none' => ?_⟩).rows
  · rw [queue] at held
    obtain ⟨v, inside, rfl⟩ := List.mem_map.mp held
    exact .inl ⟨(mem v).mp inside, rfl⟩
  · cases none'

end Rooted

end Exact

section Ids
variable {g : GraphSource} {keep : CategorySet} {walk : Walk} {cap : Nat}

def Follows (walk : Walk) (e : Edge) (a b : NodeId) : Prop :=
  match walk with
  | .forward => e.fromId = a ∧ e.toId = b
  | .backward => e.toId = a ∧ e.fromId = b
  | .both => e.fromId = a ∧ e.toId = b ∨ e.toId = a ∧ e.fromId = b

def StepAlong (g : GraphSource) (keep : CategorySet) (walk : Walk) (a b : NodeId) : Prop :=
  ∃ e ∈ g.keptEdges keep, Follows walk e a b

/-- A merge keeps every incidence of the first list, and of the second but those at an edge of
the first. -/
theorem merged_of_mem (outs ins : List Inc) :
    (∀ inc ∈ outs, inc ∈ mergeIncidences outs ins) ∧
      ∀ inc ∈ ins, inc ∈ mergeIncidences outs ins ∨ ∃ o ∈ outs, o.edge = inc.edge := by
  fun_induction mergeIncidences outs ins with
  | case1 ins => simp
  | case2 out outs => simp
  | case3 out outs inn ins lt ih =>
    refine ⟨fun inc mem => ?_, fun inc mem => ?_⟩
    · rcases List.mem_cons.mp mem with rfl | later
      · exact List.mem_cons_self
      · exact List.mem_cons_of_mem _ (ih.1 inc later)
    · rcases ih.2 inc mem with kept | ⟨o, held, eq⟩
      · exact .inl (List.mem_cons_of_mem _ kept)
      · exact .inr ⟨o, List.mem_cons_of_mem _ held, eq⟩
  | case4 out outs inn ins lt eq ih =>
    refine ⟨fun inc mem => ?_, fun inc mem => ?_⟩
    · rcases List.mem_cons.mp mem with rfl | later
      · exact List.mem_cons_self
      · exact List.mem_cons_of_mem _ (ih.1 inc later)
    · rcases List.mem_cons.mp mem with rfl | later
      · exact .inr ⟨out, List.mem_cons_self, eq⟩
      · rcases ih.2 inc later with kept | ⟨o, held, same⟩
        · exact .inl (List.mem_cons_of_mem _ kept)
        · exact .inr ⟨o, List.mem_cons_of_mem _ held, same⟩
  | case5 out outs inn ins lt ne ih =>
    refine ⟨fun inc mem => List.mem_cons_of_mem _ (ih.1 inc mem), fun inc mem => ?_⟩
    rcases List.mem_cons.mp mem with rfl | later
    · exact .inl List.mem_cons_self
    · rcases ih.2 inc later with kept | held
      · exact .inl (List.mem_cons_of_mem _ kept)
      · exact .inr held

theorem steps_both {adj : Adjacency} {u v : Nat} :
    Steps adj .both u v ↔ Steps adj .forward u v ∨ Steps adj .backward u v := by
  have merged := merged_of_mem (adj.outgoing u) (adj.incoming u)
  constructor
  · rintro ⟨inc, mem, eq⟩
    rcases mem_mergeIncidences mem with out | inn
    · exact .inl ⟨inc, out, eq⟩
    · exact .inr ⟨inc, inn, eq⟩
  · rintro (⟨inc, mem, eq⟩ | ⟨inc, mem, eq⟩)
    · exact ⟨inc, merged.1 inc mem, eq⟩
    · rcases merged.2 inc mem with kept | ⟨o, held, same⟩
      · exact ⟨inc, kept, eq⟩
      · -- the edge is a self-loop, taken once
        have atO := (adj.mem_outgoing u o).mp held
        have atI := (adj.mem_incoming u inc).mp mem
        rw [same, atI] at atO
        have ends := Option.some.inj atO
        have src : inc.other = u := congrArg Kept.src ends
        have dst : u = o.other := congrArg Kept.dst ends
        exact ⟨o, merged.1 o held, dst.symm.trans (src.symm.trans eq)⟩

variable (fits : g.Fits keep cap)
include fits

theorem steps_forward (u v : Nat) : Steps (Adjacency.buildCapped g keep cap) .forward u v ↔
    ∃ e ∈ g.keptEdges keep, (Adjacency.buildCapped g keep cap).ids[u]? = some e.fromId ∧
      (Adjacency.buildCapped g keep cap).ids[v]? = some e.toId := by
  unfold Steps incidences
  simp only [Adjacency.mem_outgoing, kept_iff fits]
  constructor
  · rintro ⟨inc, ⟨e, at', _, src, dst⟩, rfl⟩
    exact ⟨e, List.mem_of_getElem? at', src, dst⟩
  · rintro ⟨e, mem, src, dst⟩
    obtain ⟨j, at'⟩ := List.mem_iff_getElem?.mp mem
    exact ⟨⟨j, v, e.category⟩, ⟨e, at', rfl, src, dst⟩, rfl⟩

theorem steps_backward (u v : Nat) : Steps (Adjacency.buildCapped g keep cap) .backward u v ↔
    ∃ e ∈ g.keptEdges keep, (Adjacency.buildCapped g keep cap).ids[u]? = some e.toId ∧
      (Adjacency.buildCapped g keep cap).ids[v]? = some e.fromId := by
  unfold Steps incidences
  simp only [Adjacency.mem_incoming, kept_iff fits]
  constructor
  · rintro ⟨inc, ⟨e, at', _, src, dst⟩, rfl⟩
    exact ⟨e, List.mem_of_getElem? at', dst, src⟩
  · rintro ⟨e, mem, src, dst⟩
    obtain ⟨j, at'⟩ := List.mem_iff_getElem?.mp mem
    exact ⟨⟨j, v, e.category⟩, ⟨e, at', rfl, dst, src⟩, rfl⟩

omit fits in
theorem id_eq_iff {adj : Adjacency} {i : Nat} {x : NodeId} :
    adj.ids[i]? = some x ↔ i < adj.len ∧ adj.id i = x := by
  constructor
  · intro h
    refine ⟨(List.getElem?_eq_some_iff.mp h).1, ?_⟩
    rw [Adjacency.id, List.getD_eq_getElem?_getD, h, Option.getD_some]
  · rintro ⟨lt, rfl⟩
    rw [Adjacency.id, List.getD_eq_getElem?_getD, List.getElem?_eq_getElem lt, Option.getD_some]

theorem steps_iff (walk : Walk) (u v : Nat) :
    Steps (Adjacency.buildCapped g keep cap) walk u v ↔
      u < (Adjacency.buildCapped g keep cap).len ∧ v < (Adjacency.buildCapped g keep cap).len ∧
        StepAlong g keep walk ((Adjacency.buildCapped g keep cap).id u)
          ((Adjacency.buildCapped g keep cap).id v) := by
  have forward := steps_forward fits u v
  have backward := steps_backward fits u v
  simp only [id_eq_iff] at forward backward
  unfold StepAlong
  cases walk with
  | forward =>
    rw [forward]
    constructor
    · rintro ⟨e, mem, src, dst⟩
      exact ⟨src.1, dst.1, e, mem, src.2.symm, dst.2.symm⟩
    · rintro ⟨ltU, ltV, e, mem, src, dst⟩
      exact ⟨e, mem, ⟨ltU, src.symm⟩, ltV, dst.symm⟩
  | backward =>
    rw [backward]
    constructor
    · rintro ⟨e, mem, src, dst⟩
      exact ⟨src.1, dst.1, e, mem, src.2.symm, dst.2.symm⟩
    · rintro ⟨ltU, ltV, e, mem, src, dst⟩
      exact ⟨e, mem, ⟨ltU, src.symm⟩, ltV, dst.symm⟩
  | both =>
    rw [steps_both, forward, backward]
    constructor
    · rintro (⟨e, mem, src, dst⟩ | ⟨e, mem, src, dst⟩)
      · exact ⟨src.1, dst.1, e, mem, .inl ⟨src.2.symm, dst.2.symm⟩⟩
      · exact ⟨src.1, dst.1, e, mem, .inr ⟨src.2.symm, dst.2.symm⟩⟩
    · rintro ⟨ltU, ltV, e, mem, ⟨src, dst⟩ | ⟨src, dst⟩⟩
      · exact .inl ⟨e, mem, ⟨ltU, src.symm⟩, ltV, dst.symm⟩
      · exact .inr ⟨e, mem, ⟨ltU, src.symm⟩, ltV, dst.symm⟩

theorem stepAlong_indexed {walk : Walk} {a b : NodeId} (h : StepAlong g keep walk a b) :
    (∃ u, u < (Adjacency.buildCapped g keep cap).len ∧
      (Adjacency.buildCapped g keep cap).id u = a) ∧
    ∃ v, v < (Adjacency.buildCapped g keep cap).len ∧
      (Adjacency.buildCapped g keep cap).id v = b := by
  obtain ⟨_, mem⟩ := Adjacency.build_holds fits
  have indexed : ∀ x, x ∈ g.indexed keep → ∃ u, u < (Adjacency.buildCapped g keep cap).len ∧
      (Adjacency.buildCapped g keep cap).id u = x := by
    intro x held
    obtain ⟨u, at'⟩ := List.mem_iff_getElem?.mp ((mem x).mpr held)
    exact ⟨u, id_eq_iff.mp at'⟩
  obtain ⟨e, kept, follows⟩ := h
  have ends : e.fromId ∈ g.indexed keep ∧ e.toId ∈ g.indexed keep := by
    unfold GraphSource.indexed
    constructor <;> rw [List.mem_toFinset, List.mem_append, List.mem_flatMap] <;>
      exact .inr ⟨e, kept, by simp⟩
  unfold Follows at follows
  cases walk with
  | forward =>
    obtain ⟨rfl, rfl⟩ := follows
    exact ⟨indexed _ ends.1, indexed _ ends.2⟩
  | backward =>
    obtain ⟨rfl, rfl⟩ := follows
    exact ⟨indexed _ ends.2, indexed _ ends.1⟩
  | both =>
    rcases follows with ⟨rfl, rfl⟩ | ⟨rfl, rfl⟩
    · exact ⟨indexed _ ends.1, indexed _ ends.2⟩
    · exact ⟨indexed _ ends.2, indexed _ ends.1⟩

theorem hops_indexed (walk : Walk) (seeds : List NodeId) {v : Nat}
    (lt : v < (Adjacency.buildCapped g keep cap).len) (n : Nat) :
    (∃ u ∈ seedIndexes (Adjacency.buildCapped g keep cap) seeds,
      Hops (Steps (Adjacency.buildCapped g keep cap) walk) n u v) ↔
      ∃ s ∈ {s | s ∈ seeds},
        Hops (StepAlong g keep walk) n s ((Adjacency.buildCapped g keep cap).id v) := by
  have image : ∀ u, u < (Adjacency.buildCapped g keep cap).len →
      (Hops (Steps (Adjacency.buildCapped g keep cap) walk) n u v ↔
        Hops (StepAlong g keep walk) n ((Adjacency.buildCapped g keep cap).id u)
          ((Adjacency.buildCapped g keep cap).id v)) := by
    intro u ltU
    rw [← hops_image (steps_iff fits walk) (fun a b h => (stepAlong_indexed fits h).2) ltU]
    constructor
    · exact fun way => ⟨v, lt, rfl, way⟩
    · rintro ⟨w, ltW, eq, way⟩
      exact Adjacency.id_injective _ ltW lt eq ▸ way
  constructor
  · rintro ⟨u, ⟨s, mem, at'⟩, way⟩
    rw [image u (Adjacency.indexOf_lt _ at'), Adjacency.id_of_indexOf _ at'] at way
    exact ⟨s, mem, way⟩
  · rintro ⟨s, mem, way⟩
    have indexed : ∃ u, u < (Adjacency.buildCapped g keep cap).len ∧
        (Adjacency.buildCapped g keep cap).id u = s := by
      cases n with
      | zero => exact ⟨v, lt, way.symm⟩
      | succ n =>
        obtain ⟨z, first, _⟩ := (hops_succ_left _ n s _).mp way
        exact (stepAlong_indexed fits first).1
    obtain ⟨u, ltU, rfl⟩ := indexed
    exact ⟨u, ⟨_, mem, Adjacency.indexOf_id _ ltU⟩, (image u ltU).mpr way⟩

theorem dist_indexed (walk : Walk) (seeds : List NodeId) (k : Nat) {v : Nat}
    (lt : v < (Adjacency.buildCapped g keep cap).len) :
    Kit.Dist (Steps (Adjacency.buildCapped g keep cap) walk)
        (seedIndexes (Adjacency.buildCapped g keep cap) seeds) v k ↔
      Kit.Dist (StepAlong g keep walk) {s | s ∈ seeds}
        ((Adjacency.buildCapped g keep cap).id v) k := by
  unfold Kit.Dist
  rw [Set.ext fun n => hops_indexed fits walk seeds lt n]

theorem mem_bfs (seeds : List NodeId) (walk : Walk) (maxDepth : Nat) :
    (∀ y k, (y, k) ∈ (bfs (Adjacency.buildCapped g keep cap) seeds walk maxDepth).reached.map
        (fun r => (r.id, r.depth)) ↔
      1 ≤ k ∧ k ≤ maxDepth ∧ Kit.Dist (StepAlong g keep walk) {s | s ∈ seeds} y k) ∧
    ((bfs (Adjacency.buildCapped g keep cap) seeds walk maxDepth).reached.map
      (fun r => r.id)).Nodup := by
  obtain ⟨rows, once, exact', told⟩ :=
    bfs_rows (Adjacency.buildCapped g keep cap) seeds walk maxDepth
  have dists := fun v lt k => dist_indexed fits walk seeds k (v := v) lt
  constructor
  · intro y k
    rw [told, List.mem_map]
    constructor
    · rintro ⟨⟨v, j⟩, mem, eq⟩
      cases eq
      obtain ⟨pos, le, dist⟩ := (exact' v _).mp mem
      exact ⟨pos, le, (dists v (dist_lt pos dist) _).mp dist⟩
    · rintro ⟨pos, le, dist⟩
      obtain ⟨j, rfl⟩ := Nat.exists_eq_add_of_le' pos
      obtain ⟨u, _, step⟩ := dist_succ dist
      obtain ⟨_, v, lt, rfl⟩ := stepAlong_indexed fits step
      exact ⟨(v, j + 1), (exact' v _).mpr ⟨pos, le, (dists v lt _).mpr dist⟩, rfl⟩
  · exact bfs_nodup _ seeds walk maxDepth

end Ids

end Glia.Algo
