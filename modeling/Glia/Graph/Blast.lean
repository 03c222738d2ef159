import Glia.Algo.Ppr
import Glia.Algo.ReachScan
import Glia.Graph.Types
import Glia.Kit.Dedup
import Glia.Kit.Ranking
import Glia.Kit.NearestSeed
import Glia.Algo.ReachableBy

/-! The blast radius of a list of seeds: the closure one walk reaches from all of them, each node
with its depth and its seed, ranked by one PageRank and filtered. -/
namespace Glia.Graph

open Glia.Algo
open Glia.Algo.Ppr (Scalar ActivationConfig PprIndex)
open Glia.Kit (firsts)
open Glia.Kit.Ranking (sortBy)

namespace Blast

inductive Reach where
  | forward
  | backward
  | both
  deriving DecidableEq

def Reach.walk : Reach → Walk
  | .forward => .forward
  | .backward => .backward
  | .both => .both

def Reach.direction : Reach → Ppr.Direction
  | .forward => .forward
  | .backward => .backward
  | .both => .undirected

structure DomainTables (F : Type) where
  carryEdges : List EdgeCategoryId
  activation : ActivationConfig F

abbrev FilterPredicate (F : Type) := GraphSource → NodeId → F → Bool

structure BlastHit (F : Type) where
  id : NodeId
  depth : Nat
  reason : EdgeCategoryId
  score : F
  seed : NodeId
  deriving DecidableEq

section Rank
variable {F : Type} (o : Scalar F)

/-- The whole closure is scored, along the walk's direction. -/
def closureConfig (tables : DomainTables F) (reach : Reach) : ActivationConfig F :=
  { tables.activation with direction := reach.direction }

def scoreAt (scored : IdMap F) (id : NodeId) : F :=
  match scored[id]? with
  | some s => if o.lt o.zero s then s else o.zero
  | none => o.zero

def candidateScores (scored : List (NodeId × F)) (candidates : List NodeId) : List (NodeId × F) :=
  let at_ : IdMap F := scored.foldl (fun m p => m.insert p.1 p.2) ∅
  (firsts id candidates).map fun id => (id, scoreAt o at_ id)

def rankCmp (a b : NodeId × F) : Ordering :=
  if o.lt b.2 a.2 then .lt else if o.lt a.2 b.2 then .gt else compare a.1 b.1

/-- The prebuilt index, ignored where it was built for another config. -/
def usedIndex (config : ActivationConfig F) (index : Option (PprIndex F)) : Option (PprIndex F) :=
  index.filter fun ix => ix.matchesConfig o config

def rankedNodes (g : GraphSource) (config : ActivationConfig F) (index : Option (PprIndex F)) :
    List NodeId :=
  match usedIndex o config index with
  | some ix => ix.nodeIds
  | none => g.nodeIds

def pprScores (g : GraphSource) (config : ActivationConfig F) (index : Option (PprIndex F))
    (seeds : List NodeId) : List (NodeId × F) :=
  let ix := (usedIndex o config index).getD (PprIndex.build o g.nodeIds g.edges config)
  (rankedNodes o g config index).zip (ix.vector o seeds).1

def rank (g : GraphSource) (config : ActivationConfig F) (filters : List (FilterPredicate F))
    (index : Option (PprIndex F)) (seeds candidates : List NodeId) : List (NodeId × F) :=
  if rankedNodes o g config index = [] ∨ seeds = [] then []
  else
    let ranked := filters.foldl (fun ranked keep => ranked.filter fun p => keep g p.1 p.2)
      (candidateScores o (pprScores o g config index seeds) candidates)
    (sortBy (rankCmp o) ranked).take usizeMax

end Rank

section Attribution

abbrev First := IdMap (Nat × EdgeCategoryId × NodeId)

/-- A seed is its own, another node its entry's. -/
def ownerOf (seeds : List NodeId) (first : First) (v : NodeId) : NodeId :=
  if v ∈ seeds then v else ((first[v]?).map fun e => e.2.2).getD v

def attributeTo (seeds : List NodeId) (first : First) (r : Reached) : First :=
  first.insert r.id (r.depth, r.via, ownerOf seeds first r.parent)

end Attribution

section Radius
variable {F : Type} (o : Scalar F)

def blastRadius (g : GraphSource) (seeds : List NodeId) (reach : Reach) (maxDepth : Nat)
    (tables : DomainTables F) (filters : List (FilterPredicate F)) (index : Option (PprIndex F)) :
    List (BlastHit F) :=
  let seeds := firsts id seeds
  let b := bfs (Adjacency.build g (.of tables.carryEdges)) seeds reach.walk maxDepth
  if b.reached = [] then []
  else
    let first : First := b.reached.foldl (attributeTo seeds) ∅
    let closure := b.reached.map fun r => r.id
    (rank o g (closureConfig tables reach) filters index seeds closure).filterMap fun p =>
      (first[p.1]?).map fun e => ⟨p.1, e.1, e.2.1, p.2, e.2.2⟩

end Radius

end Blast

end Glia.Graph

/-! A hit's depth is its distance from the nearest seed, and its seed the first listed of those. -/
namespace Glia.Graph.Blast

open Glia.Algo
open Glia.Algo.Ppr (Scalar ActivationConfig PprIndex)
open Glia.Kit (Claims FirstNearest Hops firsts)

section Visits
variable {node depth : Nat}

theorem foldl_scanVisit (node : NodeId) (depth : Nat) (l : List (NodeId × EdgeCategoryId))
    (s : ScanState) :
    ∃ told : List Reached, told.map (fun r => r.id) = Kit.Hunt.fresh s.visited (l.map Prod.fst) ∧
      (∀ r ∈ told, r.depth = depth + 1 ∧ r.parent = node) ∧
      (∀ v, (l.foldl (scanVisit node depth) s).visited v =
        (s.visited v || decide (v ∈ Kit.Hunt.fresh s.visited (l.map Prod.fst)))) ∧
      (l.foldl (scanVisit node depth) s).queue =
        s.queue ++ (Kit.Hunt.fresh s.visited (l.map Prod.fst)).map (fun v => (v, depth + 1)) ∧
      (l.foldl (scanVisit node depth) s).order = s.order ++ told := by
  induction l generalizing s with
  | nil => exact ⟨[], by simp [Kit.Hunt.fresh]⟩
  | cons n l ih =>
    rw [List.foldl_cons, List.map_cons, Kit.Hunt.fresh]
    by_cases seen : s.visited n.1 = true
    · rw [if_pos seen, scanVisit, if_pos seen]
      exact ih s
    · rw [if_neg seen, scanVisit, if_neg seen]
      obtain ⟨told, ids, rows, visited, queue, order⟩ := ih
        { visited := Function.update s.visited n.1 true
          queue := s.queue ++ [(n.1, depth + 1)]
          order := s.order ++ [⟨n.1, depth + 1, n.2, node⟩] }
      dsimp only at ids visited queue order
      refine ⟨⟨n.1, depth + 1, n.2, node⟩ :: told, ?_, fun r mem => ?_, fun v => ?_, ?_, ?_⟩
      · rw [List.map_cons, ids]
      · rcases List.mem_cons.mp mem with rfl | later
        · exact ⟨rfl, rfl⟩
        · exact rows r later
      · rw [visited]
        by_cases here : v = n.1
        · simp [here]
        · simp [here]
      · rw [queue, List.append_assoc]
        rfl
      · rw [order, List.append_assoc]
        rfl

end Visits

section Owners
variable {seeds : List NodeId}

theorem ownerOf_seed {first : First} {v : NodeId} (seed : v ∈ seeds) : ownerOf seeds first v = v :=
  if_pos seed

theorem ownerOf_entry {first : First} {v : NodeId} {e : Nat × EdgeCategoryId × NodeId}
    (other : v ∉ seeds) (entry : first[v]? = some e) : ownerOf seeds first v = e.2.2 := by
  rw [ownerOf, if_neg other, entry]
  rfl

theorem attributeTo_get (first : First) (r : Reached) (v : NodeId) :
    (attributeTo seeds first r)[v]? =
      if r.id = v then some (r.depth, r.via, ownerOf seeds first r.parent) else first[v]? := by
  unfold attributeTo
  simp only [Std.ExtTreeMap.getElem?_insert, compare_eq_iff_eq]

theorem ownerOf_other {first : First} {r : Reached} {v : NodeId} (apart : v ≠ r.id) :
    ownerOf seeds (attributeTo seeds first r) v = ownerOf seeds first v := by
  unfold ownerOf
  rw [attributeTo_get, if_neg (Ne.symm apart)]

theorem ownerOf_self {first : First} {r : Reached} (other : r.id ∉ seeds) :
    ownerOf seeds (attributeTo seeds first r) r.id = ownerOf seeds first r.parent := by
  refine ownerOf_entry (e := (r.depth, r.via, ownerOf seeds first r.parent)) other ?_
  rw [attributeTo_get, if_pos rfl]

theorem ownerOf_foldl {node : NodeId} {told : List Reached} (first : First)
    (apart : (told.map fun r => r.id).Nodup) (other : ∀ r ∈ told, r.id ∉ seeds)
    (found : ∀ r ∈ told, r.parent = node ∧ r.id ≠ node) (v : NodeId) :
    ownerOf seeds (told.foldl (attributeTo seeds) first) v =
      if v ∈ told.map (fun r => r.id) then ownerOf seeds first node else ownerOf seeds first v := by
  induction told generalizing first with
  | nil => rfl
  | cons r told ih =>
    rw [List.map_cons, List.nodup_cons] at apart
    obtain ⟨parent, ne⟩ := found r List.mem_cons_self
    rw [List.foldl_cons, ih _ apart.2 (fun q mem => other q (List.mem_cons_of_mem r mem))
      (fun q mem => found q (List.mem_cons_of_mem r mem)), ownerOf_other (Ne.symm ne), List.map_cons]
    by_cases later : v ∈ told.map fun r => r.id
    · rw [if_pos later, if_pos (List.mem_cons_of_mem _ later)]
    · rw [if_neg later]
      by_cases here : v = r.id
      · subst here
        rw [if_pos List.mem_cons_self, ownerOf_self (other r List.mem_cons_self), parent]
      · rw [ownerOf_other here, if_neg (by simp [here, later])]

theorem foldl_entry {told : List Reached} (first : First)
    (apart : (told.map fun r => r.id).Nodup) (v : NodeId) :
    ((told.foldl (attributeTo seeds) first)[v]?).map (fun e => e.1) =
      match told.find? fun r => r.id = v with
      | some r => some r.depth
      | none => (first[v]?).map fun e => e.1 := by
  induction told generalizing first with
  | nil => rfl
  | cons r told ih =>
    rw [List.map_cons, List.nodup_cons] at apart
    rw [List.foldl_cons, ih _ apart.2, attributeTo_get, List.find?_cons]
    by_cases here : r.id = v
    · have gone : told.find? (fun q => q.id = v) = none := by
        rw [List.find?_eq_none]
        intro q mem same
        exact apart.1 (here ▸ (of_decide_eq_true same) ▸ List.mem_map_of_mem mem)
      rw [gone, if_pos here, decide_eq_true here]
      rfl
    · rw [if_neg here, decide_eq_false here]

end Owners

section Walk
variable {g : GraphSource} {keep : CategorySet} {walk : Walk} {seeds : List NodeId} {rank : NodeId → Nat}
  {maxDepth : Nat}

theorem mem_nexts {u v : NodeId} :
    v ∈ (nexts walk.fwd walk.bwd (g.keptEdges keep) u).map Prod.fst ↔ StepAlong g keep walk u v := by
  have taken (e : Edge) : scanNext walk.fwd walk.bwd u e = some v ↔ Follows walk e u v := by
    unfold scanNext Follows
    cases walk with
    | forward => simp [Walk.fwd, Walk.bwd]
    | backward => simp [Walk.fwd, Walk.bwd]
    | both =>
      simp only [Walk.fwd, Walk.bwd, Bool.true_and, beq_iff_eq]
      by_cases src : e.fromId = u
      · rw [if_pos src, Option.some_inj]
        constructor
        · exact fun dst => .inl ⟨src, dst⟩
        · rintro (⟨_, dst⟩ | ⟨dst, src'⟩)
          · exact dst
          · rw [dst, ← src, src']
      · rw [if_neg src]
        simp [src]
  simp only [nexts, List.map_filterMap, List.mem_filterMap, Option.map_map, Function.comp_def,
    Option.map_id', taken]
  rfl

variable (g keep walk seeds rank maxDepth) in
/-- The walk so far, each node it has visited with the seed its entry names. -/
def Walked (s : ScanState) : Prop :=
  Claims (StepAlong g keep walk) {x | x ∈ seeds} rank maxDepth s.queue {v | s.visited v = true}
    (s.order.map fun r => (r.id, r.depth)) (ownerOf seeds (s.order.foldl (attributeTo seeds) ∅))

theorem Walked.expand {s : ScanState} {u : NodeId} {d : Nat} {rest : List (NodeId × Nat)}
    (h : Walked g keep walk seeds rank maxDepth s) (head : s.queue = (u, d) :: rest)
    (near : d < maxDepth) : Walked g keep walk seeds rank maxDepth
      (g.edges.foldl (scanEdge keep walk.fwd walk.bwd u d) { s with queue := rest }) := by
  unfold Walked at h
  rw [head] at h
  rw [foldl_scanEdge]
  obtain ⟨told, ids, rows, visited, queue, order⟩ := foldl_scanVisit u d
    (nexts walk.fwd walk.bwd (g.keptEdges keep) u) { s with queue := rest }
  dsimp only at ids visited queue order
  have once := Kit.Hunt.fresh_nodup s.visited ((nexts walk.fwd walk.bwd (g.keptEdges keep) u).map Prod.fst)
  have meant : ∀ v, v ∈ told.map (fun r => r.id) ↔
      s.visited v = false ∧ StepAlong g keep walk u v := by
    intro v
    rw [ids, Kit.Hunt.mem_fresh, mem_nexts]
  rw [← ids] at once visited queue
  have seenHead : s.visited u = true := h.seen (u, d) List.mem_cons_self
  have new : ∀ r ∈ told, s.visited r.id = false := fun r mem =>
    ((meant r.id).mp (List.mem_map_of_mem mem)).1
  have other : ∀ r ∈ told, r.id ∉ seeds := by
    intro r mem seed
    have seen : s.visited r.id = true := h.seeds seed
    rw [new r mem] at seen
    cases seen
  have found : ∀ r ∈ told, r.parent = u ∧ r.id ≠ u := by
    intro r mem
    refine ⟨(rows r mem).2, fun same => ?_⟩
    have seen := new r mem
    rw [same, seenHead] at seen
    cases seen
  have owners := ownerOf_foldl (s.order.foldl (attributeTo seeds) ∅) once other found
  have grown : Claims (StepAlong g keep walk) {x | x ∈ seeds} rank maxDepth
      (rest ++ (told.map fun r => r.id).map fun v => (v, d + 1))
      ({v | s.visited v = true} ∪ {v | v ∈ told.map fun r => r.id})
      (s.order.map (fun r => (r.id, r.depth)) ++ (told.map fun r => r.id).map fun v => (v, d + 1))
      (ownerOf seeds ((s.order ++ told).foldl (attributeTo seeds) ∅)) := by
    refine h.expand near once (fun v mem seen => ?_) (fun v mem => ((meant v).mp mem).2)
      (fun v step => ?_) (fun v seen => ?_) fun v mem => ?_
    · have out := ((meant v).mp mem).1
      rw [show s.visited v = true from seen] at out
      cases out
    · by_cases seen : s.visited v = true
      · exact .inl seen
      · exact .inr ((meant v).mpr ⟨eq_false_of_ne_true seen, step⟩)
    · have out : v ∉ told.map fun r => r.id := by
        intro mem
        have unseen := ((meant v).mp mem).1
        rw [show s.visited v = true from seen] at unseen
        cases unseen
      rw [List.foldl_append, owners, if_neg out]
    · rw [List.foldl_append, owners, if_pos mem]
  have seen' : {v | (List.foldl (scanVisit u d) { s with queue := rest }
      (nexts walk.fwd walk.bwd (g.keptEdges keep) u)).visited v = true} =
        {v | s.visited v = true} ∪ {v | v ∈ told.map fun r => r.id} := by
    ext v
    rw [Set.mem_ofPred_eq, visited, Bool.or_eq_true, decide_eq_true_eq]
    rfl
  have rows' : (s.order ++ told).map (fun r => (r.id, r.depth)) =
      s.order.map (fun r => (r.id, r.depth)) ++ (told.map fun r => r.id).map fun v => (v, d + 1) := by
    rw [List.map_append, List.map_map]
    congr 1
    refine List.map_congr_left fun r mem => ?_
    rw [(rows r mem).1]
    rfl
  unfold Walked
  rw [show (nexts walk.fwd walk.bwd (g.edges.filter fun e => keep.contains e.category) u) =
    nexts walk.fwd walk.bwd (g.keptEdges keep) u from rfl, queue, order, seen', rows']
  exact grown

theorem Walked.loop {s : ScanState} (h : Walked g keep walk seeds rank maxDepth s) (fuel : Nat) :
    Walked g keep walk seeds rank maxDepth
      (blastLoop keep walk.fwd walk.bwd g.edges maxDepth fuel s) := by
  induction fuel generalizing s with
  | zero => exact h
  | succ fuel ih =>
    rw [blastLoop]
    cases head : s.queue with
    | nil => exact h
    | cons item rest =>
      obtain ⟨u, d⟩ := item
      dsimp only
      by_cases far : maxDepth ≤ d
      · rw [if_pos far]
        refine ih ?_
        unfold Walked at h ⊢
        rw [head] at h
        exact h.skip far
      · rw [if_neg far]
        exact ih (h.expand head (Nat.lt_of_not_le far))

end Walk

section Reached
variable {g : GraphSource} {keep : CategorySet} {walk : Walk} {cap : Nat}

theorem bfs_claims (fits : g.Fits keep cap) (seeds : List NodeId) (walk : Walk) (maxDepth : Nat) :
    ∃ visited : Set NodeId,
      Claims (StepAlong g keep walk) {x | x ∈ firsts id seeds} (fun x => seeds.idxOf x) maxDepth []
        visited
        ((bfs (Adjacency.buildCapped g keep cap) (firsts id seeds) walk maxDepth).reached.map
          fun r => (r.id, r.depth))
        (ownerOf (firsts id seeds)
          ((bfs (Adjacency.buildCapped g keep cap) (firsts id seeds) walk maxDepth).reached.foldl
            (attributeTo (firsts id seeds)) ∅)) := by
  obtain ⟨empty, same⟩ := @bfs_scan g keep cap walk maxDepth fits (firsts id seeds)
  have start : Walked g keep walk (firsts id seeds) (fun x => seeds.idxOf x) maxDepth
      ⟨fun x => (firsts id seeds).contains x, (firsts id seeds).map (·, 0), []⟩ := by
    unfold Walked
    have seen : {v | (firsts id seeds).contains v = true} = {x | x ∈ firsts id seeds} := by
      ext v
      exact List.contains_iff_mem
    dsimp only
    rw [seen]
    exact Claims.start (fun v => Iff.rfl) (Kit.firsts_ranked seeds) fun v mem => ownerOf_seed mem
  have ended := start.loop ((firsts id seeds).length + (g.nodeIds.length + 2 * g.edges.length))
  rw [same]
  unfold Walked at ended
  unfold blastRun at empty
  rw [empty] at ended
  exact ⟨_, ended⟩

theorem reached_entry (fits : g.Fits keep cap) {seeds : List NodeId} {maxDepth : Nat} {v : NodeId}
    {k : Nat} (mem : (v, k) ∈ (bfs (Adjacency.buildCapped g keep cap) (firsts id seeds) walk
      maxDepth).reached.map fun r => (r.id, r.depth)) :
    ∃ via seed, ((bfs (Adjacency.buildCapped g keep cap) (firsts id seeds) walk
        maxDepth).reached.foldl (attributeTo (firsts id seeds)) ∅)[v]? = some (k, via, seed) ∧
      FirstNearest (StepAlong g keep walk) {x | x ∈ seeds} (fun x => seeds.idxOf x) k seed v := by
  obtain ⟨visited, claims⟩ := bfs_claims fits seeds walk maxDepth
  have nearest := claims.done mem
  have other : v ∉ firsts id seeds := (claims.told _ mem).2.1
  have once := claims.once
  rw [List.map_map] at once
  have listed := @foldl_entry (firsts id seeds) _ ∅ once v
  obtain ⟨r, memR, same⟩ := List.mem_map.mp mem
  obtain ⟨rfl, rfl⟩ := Prod.mk.inj same
  have found : (bfs (Adjacency.buildCapped g keep cap) (firsts id seeds) walk
      maxDepth).reached.find? (fun q => q.id = r.id) = some r := by
    cases q : (bfs (Adjacency.buildCapped g keep cap) (firsts id seeds) walk
        maxDepth).reached.find? (fun q => q.id = r.id) with
    | none => exact absurd (decide_eq_true rfl) (List.find?_eq_none.mp q r memR)
    | some q' =>
      have held := List.find?_some q
      have at_ : q'.id = r.id := of_decide_eq_true held
      rw [List.inj_on_of_nodup_map once (List.mem_of_find?_eq_some q) memR at_]
  rw [found] at listed
  obtain ⟨e, entry, depth⟩ := Option.map_eq_some_iff.mp listed
  refine ⟨e.2.1, e.2.2, ?_, ?_⟩
  · rw [entry, ← depth]
  · rw [ownerOf_entry other entry] at nearest
    have same : {x | x ∈ firsts id seeds} = {x | x ∈ seeds} := by
      ext x
      exact Kit.mem_firsts_id
    rwa [same] at nearest

theorem mem_reached (fits : g.Fits keep cap) (seeds : List NodeId) (walk : Walk) (maxDepth : Nat) :
    (∀ v k, (v, k) ∈ (bfs (Adjacency.buildCapped g keep cap) (firsts id seeds) walk
        maxDepth).reached.map (fun r => (r.id, r.depth)) ↔
      v ∉ seeds ∧ k ≤ maxDepth ∧ Kit.Dist (StepAlong g keep walk) {x | x ∈ seeds} v k) ∧
    ((bfs (Adjacency.buildCapped g keep cap) (firsts id seeds) walk maxDepth).reached.map
      fun r => r.id).Nodup := by
  obtain ⟨rows, once⟩ := mem_bfs fits (firsts id seeds) walk maxDepth
  have same : {x | x ∈ firsts id seeds} = {x | x ∈ seeds} := by
    ext x
    exact Kit.mem_firsts_id
  refine ⟨fun v k => ?_, once⟩
  rw [rows, same]
  constructor
  · rintro ⟨pos, le, dist⟩
    refine ⟨fun seed => ?_, le, dist⟩
    have zero := dist.unique (Kit.dist_zero.mpr (show v ∈ {x | x ∈ seeds} from seed))
    omega
  · rintro ⟨other, le, dist⟩
    refine ⟨Nat.pos_of_ne_zero fun zero => ?_, le, dist⟩
    rw [zero] at dist
    have seed : v ∈ {x | x ∈ seeds} := Kit.dist_zero.mp dist
    exact other seed

theorem closure_length (fits : g.Fits keep cap) (seeds : List NodeId) (walk : Walk)
    (maxDepth : Nat) : ((bfs (Adjacency.buildCapped g keep cap) (firsts id seeds) walk
      maxDepth).reached.map fun r => r.id).length ≤ cap := by
  obtain ⟨rows, once⟩ := mem_bfs fits (firsts id seeds) walk maxDepth
  rw [← List.toFinset_card_of_nodup once]
  refine (Finset.card_le_card fun v mem => ?_).trans fits.1
  obtain ⟨r, memR, rfl⟩ := List.mem_map.mp (List.mem_toFinset.mp mem)
  obtain ⟨pos, _, dist⟩ := (rows r.id r.depth).mp (List.mem_map_of_mem memR)
  obtain ⟨j, depth⟩ := Nat.exists_eq_add_of_le' pos
  rw [depth] at dist
  obtain ⟨u, _, step⟩ := Kit.dist_succ dist
  obtain ⟨_, w, lt, named⟩ := stepAlong_indexed fits step
  rw [← (Adjacency.build_holds fits).2, ← named]
  exact List.mem_of_getElem? (id_eq_iff.mpr ⟨lt, rfl⟩)

end Reached

section Hits
variable {F : Type} (o : Scalar F) (g : GraphSource) (seeds : List NodeId) (reach : Reach)
  (maxDepth : Nat) (tables : DomainTables F) (filters : List (FilterPredicate F))
  (index : Option (PprIndex F))

def closureScore (v : NodeId) : F :=
  scoreAt o ((pprScores o g (closureConfig tables reach) index (firsts id seeds)).foldl
    (fun m p => m.insert p.1 p.2) ∅) v

/-- The attribution is exact: which nodes are hits, at which depth and of which seed, and that a
repeated seed adds nothing and a filter only takes rows away. -/
structure Attributed : Prop where
  hits : ∀ (v : NodeId) (depth : Nat) (seed : NodeId),
    (∃ h ∈ blastRadius o g seeds reach maxDepth tables filters index,
      h.id = v ∧ h.depth = depth ∧ h.seed = seed) ↔
    v ∉ seeds ∧ depth ≤ maxDepth ∧
      Kit.Dist (StepAlong g (.of tables.carryEdges) reach.walk) {s | s ∈ seeds} v depth ∧
      FirstNearest (StepAlong g (.of tables.carryEdges) reach.walk) {s | s ∈ seeds}
        (fun s => seeds.idxOf s) depth seed v ∧
      ∀ keep ∈ filters, keep g v (closureScore o g seeds reach tables index v) = true
  once : ((blastRadius o g seeds reach maxDepth tables filters index).map fun h => h.id).Nodup
  repeated : ∀ (l l' : List NodeId) (s : NodeId), seeds = l ++ s :: l' → s ∈ l →
    blastRadius o g (l ++ l') reach maxDepth tables filters index =
      blastRadius o g seeds reach maxDepth tables filters index
  filtered : (blastRadius o g seeds reach maxDepth tables filters index).Perm
    ((blastRadius o g seeds reach maxDepth tables [] index).filter fun h =>
      filters.all fun keep => keep g h.id h.score)

variable {o g seeds reach maxDepth tables filters index}

theorem foldl_filters (ranked : List (NodeId × F)) :
    filters.foldl (fun ranked keep => ranked.filter fun p => keep g p.1 p.2) ranked =
      ranked.filter fun p => filters.all fun keep => keep g p.1 p.2 := by
  induction filters generalizing ranked with
  | nil => simp
  | cons keep filters ih =>
    rw [List.foldl_cons, ih, List.filter_filter]
    refine List.filter_congr fun p _ => ?_
    rw [List.all_cons, Bool.and_comm]

theorem rank_perm {config : ActivationConfig F} {seeds candidates : List NodeId}
    (listed : rankedNodes o g config index ≠ []) (some_ : seeds ≠ [])
    (short : candidates.length ≤ usizeMax) :
    (rank o g config filters index seeds candidates).Perm
      ((candidateScores o (pprScores o g config index seeds) candidates).filter
        fun p => filters.all fun keep => keep g p.1 p.2) := by
  unfold rank
  rw [if_neg (not_or.mpr ⟨listed, some_⟩), foldl_filters]
  have few : (Kit.Ranking.sortBy (rankCmp o)
      ((candidateScores o (pprScores o g config index seeds) candidates).filter
        fun p => filters.all fun keep => keep g p.1 p.2)).length ≤ usizeMax := by
    rw [(Kit.Ranking.sortBy_perm _).length_eq]
    refine (List.length_filter_le _ _).trans ?_
    unfold candidateScores
    rw [List.length_map]
    exact (Kit.firstsAfter_sublist ∅ candidates).length_le.trans short
  dsimp only
  rw [List.take_of_length_le few]
  exact Kit.Ranking.sortBy_perm _

/-- An index of the graph's own, or one built for another config, answers as none does. -/
theorem blastRadius_unindexed {ix : PprIndex F}
    (own : ix.matchesConfig o (closureConfig tables reach) = true →
      ix = PprIndex.build o g.nodeIds g.edges (closureConfig tables reach)) :
    blastRadius o g seeds reach maxDepth tables filters (some ix) =
      blastRadius o g seeds reach maxDepth tables filters none := by
  have scored (seeds : List NodeId) : rankedNodes o g (closureConfig tables reach) (some ix) =
        rankedNodes o g (closureConfig tables reach) none ∧
      pprScores o g (closureConfig tables reach) (some ix) seeds =
        pprScores o g (closureConfig tables reach) none seeds := by
    cases same : ix.matchesConfig o (closureConfig tables reach) with
    | false =>
      have unused : usedIndex o (closureConfig tables reach) (some ix) = none := by
        simp only [usedIndex, Option.filter_some, same, Bool.false_eq_true, if_false]
      simp only [pprScores, rankedNodes, unused]
      exact ⟨rfl, rfl⟩
    | true =>
      have used : usedIndex o (closureConfig tables reach) (some ix) = some ix := by
        simp only [usedIndex, Option.filter_some, same, if_true]
      simp only [pprScores, rankedNodes, used]
      rw [own same]
      exact ⟨rfl, rfl⟩
  obtain ⟨nodes, scores⟩ := scored (firsts id seeds)
  unfold blastRadius rank
  simp only [nodes, scores]

variable (o g seeds reach maxDepth tables index) in
def closureRows : List Reached :=
  (bfs (Adjacency.build g (.of tables.carryEdges)) (firsts id seeds) reach.walk maxDepth).reached

variable (g seeds reach maxDepth tables) in
def closureFirst : First :=
  (closureRows g seeds reach maxDepth tables).foldl (attributeTo (firsts id seeds)) ∅

variable (g seeds reach maxDepth tables) in
def hitOf (p : NodeId × F) : Option (BlastHit F) :=
  ((closureFirst g seeds reach maxDepth tables)[p.1]?).map fun e => ⟨p.1, e.1, e.2.1, p.2, e.2.2⟩

variable (o g seeds reach maxDepth tables index) in
def closureScores : List (NodeId × F) :=
  candidateScores o (pprScores o g (closureConfig tables reach) index (firsts id seeds))
    ((closureRows g seeds reach maxDepth tables).map fun r => r.id)

theorem blastRadius_eq : blastRadius o g seeds reach maxDepth tables filters index =
    if closureRows g seeds reach maxDepth tables = [] then []
    else (rank o g (closureConfig tables reach) filters index (firsts id seeds)
      ((closureRows g seeds reach maxDepth tables).map fun r => r.id)).filterMap
        (hitOf g seeds reach maxDepth tables) := rfl

theorem blastRadius_perm (fits : g.Fits (.of tables.carryEdges) indexLimit)
    (listed : rankedNodes o g (closureConfig tables reach) index ≠ []) :
    (blastRadius o g seeds reach maxDepth tables filters index).Perm
      (((closureScores o g seeds reach maxDepth tables index).filter
        fun p => filters.all fun keep => keep g p.1 p.2).filterMap
          (hitOf g seeds reach maxDepth tables)) := by
  rw [blastRadius_eq]
  by_cases none : closureRows g seeds reach maxDepth tables = []
  · have empty : closureScores o g seeds reach maxDepth tables index = [] := by
      unfold closureScores
      rw [none]
      rfl
    rw [if_pos none, empty]
    exact List.Perm.refl _
  · rw [if_neg none]
    refine List.Perm.filterMap _ (rank_perm listed ?_ ?_)
    · intro empty
      obtain ⟨r, mem⟩ := List.exists_mem_of_ne_nil _ none
      obtain ⟨_, _, dist⟩ := ((mem_reached fits seeds reach.walk maxDepth).1 r.id r.depth).mp
        (List.mem_map_of_mem mem)
      obtain ⟨⟨s, seed, _⟩, _⟩ := dist
      have held : s ∈ firsts id seeds := Kit.mem_firsts_id.mpr seed
      rw [empty] at held
      cases held
    · exact (closure_length fits seeds reach.walk maxDepth).trans (by decide)

theorem mem_closureScores {p : NodeId × F} :
    p ∈ closureScores o g seeds reach maxDepth tables index ↔
      (∃ r ∈ closureRows g seeds reach maxDepth tables, r.id = p.1) ∧
        p.2 = closureScore o g seeds reach tables index p.1 := by
  unfold closureScores candidateScores
  simp only [List.mem_map, Kit.mem_firsts_id]
  constructor
  · rintro ⟨v, known, rfl⟩
    exact ⟨known, rfl⟩
  · rintro ⟨known, score⟩
    exact ⟨p.1, known, Prod.ext rfl score.symm⟩

theorem closureScores_ids : ((closureScores o g seeds reach maxDepth tables index).map
    Prod.fst).Nodup := by
  unfold closureScores candidateScores
  rw [List.map_map]
  have once := (@Kit.firstsAfter_once _ _ _ id ∅
    ((closureRows g seeds reach maxDepth tables).map fun r => r.id)).1
  exact once

theorem hitOf_id {p : NodeId × F} {h : BlastHit F}
    (hit : hitOf g seeds reach maxDepth tables p = some h) : h.id = p.1 ∧ h.score = p.2 := by
  obtain ⟨e, _, rfl⟩ := Option.map_eq_some_iff.mp hit
  exact ⟨rfl, rfl⟩

theorem filterMap_hitOf (l : List (NodeId × F)) (q : NodeId → F → Bool) :
    (l.filter fun p => q p.1 p.2).filterMap (hitOf g seeds reach maxDepth tables) =
      (l.filterMap (hitOf g seeds reach maxDepth tables)).filter fun h => q h.id h.score := by
  induction l with
  | nil => rfl
  | cons p l ih =>
    rw [List.filterMap_cons]
    cases hit : hitOf g seeds reach maxDepth tables p with
    | none =>
      by_cases kept : q p.1 p.2 = true
      · rw [List.filter_cons_of_pos (by exact kept), List.filterMap_cons, hit]
        exact ih
      · rw [List.filter_cons_of_neg (by exact kept)]
        exact ih
    | some h =>
      obtain ⟨same, score⟩ := hitOf_id hit
      dsimp only
      by_cases kept : q p.1 p.2 = true
      · rw [List.filter_cons_of_pos (by exact kept), List.filterMap_cons, hit,
          List.filter_cons_of_pos (by rwa [same, score]), ← ih]
      · rw [List.filter_cons_of_neg (by exact kept),
          List.filter_cons_of_neg (by rwa [same, score])]
        exact ih

theorem map_filterMap_hitOf {l : List (NodeId × F)} (once : (l.map Prod.fst).Nodup) :
    ((l.filterMap (hitOf g seeds reach maxDepth tables)).map fun h => h.id).Nodup := by
  refine List.Nodup.sublist ?_ once
  induction l with
  | nil => exact List.Sublist.refl _
  | cons p l ih =>
    rw [List.filterMap_cons, List.map_cons]
    have rest := ih (List.nodup_cons.mp once).2
    cases hit : hitOf g seeds reach maxDepth tables p with
    | none => exact rest.cons p.1
    | some h =>
      dsimp only
      rw [List.map_cons, (hitOf_id hit).1]
      exact rest.cons_cons p.1

theorem attributed_of_fits (fits : g.Fits (.of tables.carryEdges) indexLimit)
    (listed : rankedNodes o g (closureConfig tables reach) index ≠ []) :
    Attributed o g seeds reach maxDepth tables filters index where
  hits v depth seed := by
    have perm := @blastRadius_perm F o g seeds reach maxDepth tables filters index fits listed
    have rows := (mem_reached fits seeds reach.walk maxDepth).1
    constructor
    · rintro ⟨h, mem, rfl, rfl, rfl⟩
      obtain ⟨p, held, hit⟩ := List.mem_filterMap.mp (perm.mem_iff.mp mem)
      obtain ⟨scored, kept⟩ := List.mem_filter.mp held
      obtain ⟨⟨r, found, same⟩, score⟩ := mem_closureScores.mp scored
      have row : (p.1, r.depth) ∈ (bfs (Adjacency.build g (.of tables.carryEdges)) (firsts id seeds)
          reach.walk maxDepth).reached.map (fun r => (r.id, r.depth)) :=
        same ▸ List.mem_map_of_mem found
      obtain ⟨via, seed, entry, nearest⟩ := reached_entry fits row
      obtain ⟨e, at_, rfl⟩ := Option.map_eq_some_iff.mp hit
      rw [show (closureFirst g seeds reach maxDepth tables)[p.1]? = _ from entry] at at_
      cases at_
      obtain ⟨other, le, dist⟩ := (rows _ _).mp row
      refine ⟨other, le, dist, nearest, fun keep mem' => ?_⟩
      dsimp only
      rw [← score]
      exact List.all_eq_true.mp kept keep mem'
    · rintro ⟨other, le, dist, nearest, kept⟩
      have row := (rows v depth).mpr ⟨other, le, dist⟩
      obtain ⟨via, seed', entry, nearest'⟩ := reached_entry fits row
      have same : seed' = seed := by
        refine nearest'.unique ?_ nearest
        intro a memA b _ eq
        exact (List.idxOf_inj memA).mp eq
      obtain ⟨r, found, at_⟩ := List.mem_map.mp row
      have scored : (v, closureScore o g seeds reach tables index v) ∈
          closureScores o g seeds reach maxDepth tables index :=
        mem_closureScores.mpr ⟨⟨r, found, congrArg Prod.fst at_⟩, rfl⟩
      refine ⟨⟨v, depth, via, closureScore o g seeds reach tables index v, seed'⟩, ?_, rfl, rfl, same⟩
      refine perm.mem_iff.mpr (List.mem_filterMap.mpr ⟨_, List.mem_filter.mpr ⟨scored,
        List.all_eq_true.mpr kept⟩, ?_⟩)
      unfold hitOf
      rw [show (closureFirst g seeds reach maxDepth tables)[v]? = _ from entry]
      rfl
  once := by
    have perm := @blastRadius_perm F o g seeds reach maxDepth tables filters index fits listed
    rw [(perm.map _).nodup_iff]
    have scored := @closureScores_ids F o g seeds reach maxDepth tables index
    refine map_filterMap_hitOf (List.Nodup.sublist ?_ scored)
    exact List.filter_sublist.map _
  repeated l l' s split mem := by
    have same : firsts id seeds = firsts id (l ++ l') := split ▸ Kit.firsts_repeat mem
    unfold blastRadius
    rw [same]
  filtered := by
    have perm := @blastRadius_perm F o g seeds reach maxDepth tables filters index fits listed
    have all := @blastRadius_perm F o g seeds reach maxDepth tables [] index fits listed
    rw [List.filter_eq_self.mpr fun p _ => List.all_nil] at all
    rw [filterMap_hitOf _ fun v score => filters.all fun keep => keep g v score] at perm
    exact perm.trans (all.symm.filter _)

theorem blastRadius_nothing
    (past : ¬(g.Fits (.of tables.carryEdges) indexLimit ∧
      rankedNodes o g (closureConfig tables reach) index ≠ [])) :
    blastRadius o g seeds reach maxDepth tables filters index = [] := by
  rw [blastRadius_eq]
  by_cases fits : g.Fits (.of tables.carryEdges) indexLimit
  · have none := not_not.mp fun listed => past ⟨fits, listed⟩
    have empty : rank o g (closureConfig tables reach) filters index (firsts id seeds)
        ((closureRows g seeds reach maxDepth tables).map fun r => r.id) = [] := if_pos (.inl none)
    rw [empty]
    split <;> rfl
  · refine if_pos ?_
    unfold closureRows Adjacency.build
    rw [Adjacency.build_past fits]
    exact bfs_empty _ _ _

variable (o g seeds reach maxDepth tables filters index) in
/-- Where the graph lists a node and fits the index the attribution is exact; elsewhere there is no
hit. -/
theorem blast_exact :
    (g.Fits (.of tables.carryEdges) indexLimit ∧
        rankedNodes o g (closureConfig tables reach) index ≠ [] →
      Attributed o g seeds reach maxDepth tables filters index) ∧
    (¬(g.Fits (.of tables.carryEdges) indexLimit ∧
        rankedNodes o g (closureConfig tables reach) index ≠ []) →
      blastRadius o g seeds reach maxDepth tables filters index = []) :=
  ⟨fun within => attributed_of_fits within.1 within.2, blastRadius_nothing⟩

end Hits

section Unlisted

def plainScalar : Scalar Nat where
  zero := 0
  one := 1
  ofCount := id
  add := (· + ·)
  sub := (· - ·)
  mul := (· * ·)
  div := (· / ·)
  abs := id
  lt := fun a b => decide (a < b)
  le := fun a b => decide (a ≤ b)
  eq := fun a b => decide (a = b)
  sameBits := fun a b => decide (a = b)
  clampDamping := id
  sumStart := 0

/-- An edge between ids no node is listed for. -/
def unlistedSource : GraphSource := ⟨[], [⟨1, 2, 4, .strong, []⟩]⟩

def callTables : DomainTables Nat := ⟨[4], { damping := 0, epsilon := 0 }⟩

/-- One hop from the seed, and no hit. -/
theorem unlisted_missed :
    ¬Attributed plainScalar unlistedSource [1] .forward 1 callTables [] none := by
  intro exact_
  have step : StepAlong unlistedSource (.of callTables.carryEdges) .forward 1 2 :=
    ⟨⟨1, 2, 4, .strong, []⟩, by decide, rfl, rfl⟩
  have near : Kit.Hops (StepAlong unlistedSource (.of callTables.carryEdges) .forward) 1 1 2 :=
    (Kit.hops_one _ 1 2).mpr step
  have dist : Kit.Dist (StepAlong unlistedSource (.of callTables.carryEdges) .forward)
      {s | s ∈ [1]} 2 1 := by
    refine ⟨⟨1, List.mem_singleton_self 1, near⟩, fun n way => ?_⟩
    obtain ⟨s, seed, walk⟩ := way
    cases List.mem_singleton.mp seed
    cases n with
    | zero => cases walk
    | succ n => exact Nat.succ_le_succ (Nat.zero_le n)
  obtain ⟨h, mem, _⟩ := (exact_.hits 2 1 1).mpr ⟨by decide, by decide, dist,
    ⟨List.mem_singleton_self 1, near, fun t seed _ => by cases List.mem_singleton.mp seed; rfl⟩,
    fun keep mem => absurd mem List.not_mem_nil⟩
  rw [blastRadius_nothing (by decide)] at mem
  cases mem

end Unlisted

end Glia.Graph.Blast
