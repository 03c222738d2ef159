import Glia.Algo.ReachScan
import Glia.Kit.EarlySearch

/-! Which sources reach a sink: the walk backward over the index, and the scan of the source's
edges, each stopping once every source is hit. -/
namespace Glia.Algo

open Kit

section Indexed
variable (adj : Adjacency)

/-- The search before its first step. -/
def huntFrom (sink : NodeId) : Hunt Nat :=
  match adj.indexOf sink with
  | some ix => ⟨Function.update (fun _ => false) ix true, [(ix, 0)], fun _ => false, 0⟩
  | none => ⟨fun _ => false, [], fun _ => false, 0⟩

def reachableRun (sink : NodeId) (sources : List NodeId) (maxDepth : Nat) : Hunt Nat :=
  Hunt.loop (fun ix => sources.any fun s => adj.indexOf s == some ix)
    (fun ix => (adj.incoming ix).map Inc.other) sources.toFinset.card maxDepth (adj.len + 1)
    (huntFrom adj sink)

def reachableBy (sink : NodeId) (sources : List NodeId) (maxDepth : Nat) : List NodeId :=
  if sources.isEmpty then []
  else sources.filter fun s =>
    match adj.indexOf s with
    | some ix => (reachableRun adj sink sources maxDepth).hit ix
    | none => false

end Indexed

section Scan

structure HitScan where
  visited : NodeId → Bool
  queue : List (NodeId × Nat)
  hit : Finset NodeId

def scanHit (keep : CategorySet) (targets : Finset NodeId) (depth : Nat) (s : HitScan) (e : Edge) :
    HitScan :=
  if keep.contains e.category then
    if s.visited e.fromId then s
    else
      { visited := Function.update s.visited e.fromId true
        queue := s.queue ++ [(e.fromId, depth + 1)]
        hit := if e.fromId ∈ targets then insert e.fromId s.hit else s.hit }
  else s

def scanHitLoop (keep : CategorySet) (edges : List Edge) (targets : Finset NodeId)
    (maxDepth : Nat) : Nat → HitScan → HitScan
  | 0, s => s
  | fuel + 1, s =>
    match s.queue with
    | [] => s
    | (node, depth) :: rest =>
      let s := { s with queue := rest }
      if maxDepth ≤ depth ∨ s.hit.card = targets.card then
        if s.hit.card = targets.card then s
        else scanHitLoop keep edges targets maxDepth fuel s
      else scanHitLoop keep edges targets maxDepth fuel
        ((edges.filter fun e => e.toId = node).foldl (scanHit keep targets depth) s)

def scanHitRun (keep : CategorySet) (g : GraphSource) (sink : NodeId) (sources : List NodeId)
    (maxDepth : Nat) : HitScan :=
  scanHitLoop keep g.edges sources.toFinset maxDepth (g.edges.length + 1)
    ⟨Function.update (fun _ => false) sink true, [(sink, 0)], ∅⟩

def scanReachableBy (keep : CategorySet) (g : GraphSource) (sink : NodeId)
    (sources : List NodeId) (maxDepth : Nat) : List NodeId :=
  if sources.isEmpty then []
  else sources.filter fun s => s ∈ (scanHitRun keep g sink sources maxDepth).hit

def comesFrom (keep : CategorySet) (edges : List Edge) (node : NodeId) : List NodeId :=
  ((edges.filter fun e => e.toId = node).filter fun e => keep.contains e.category).map Edge.fromId

/-- The scan hunts over ids: its hits are those of the search, each counted once. -/
structure Hunts (h : Hunt NodeId) (s : HitScan) : Prop where
  visited : h.visited = s.visited
  queue : h.queue = s.queue
  hit : ∀ x, h.hit x = true ↔ x ∈ s.hit
  hits : h.hits = s.hit.card
  seen : ∀ x ∈ s.hit, s.visited x = true

variable {keep : CategorySet} {targets : Finset NodeId} {h : Hunt NodeId} {s : HitScan}

theorem Hunts.visit (sim : Hunts h s) {depth : Nat} {e : Edge}
    (kept : keep.contains e.category = true) :
    Hunts (h.visit (fun x => decide (x ∈ targets)) depth e.fromId)
      (scanHit keep targets depth s e) := by
  rw [scanHit, if_pos kept, Hunt.visit, sim.visited]
  by_cases again : s.visited e.fromId = true
  · rw [if_pos again, if_pos again]
    exact sim
  · have new : e.fromId ∉ s.hit := fun held => again (sim.seen _ held)
    rw [if_neg again, if_neg again]
    refine ⟨rfl, ?_, fun x => ?_, ?_, fun x mem => ?_⟩
    · dsimp only
      rw [sim.queue]
    · dsimp only
      by_cases wants : e.fromId ∈ targets
      · rw [if_pos (decide_eq_true wants), if_pos wants, Finset.mem_insert]
        by_cases here : x = e.fromId
        · rw [here, Function.update_self]
          exact iff_of_true rfl (.inl rfl)
        · rw [Function.update_of_ne here, sim.hit]
          exact (or_iff_right here).symm
      · rw [if_neg (by rwa [decide_eq_true_iff]), if_neg wants]
        exact sim.hit x
    · dsimp only
      by_cases wants : e.fromId ∈ targets
      · rw [if_pos (decide_eq_true wants), if_pos wants, Finset.card_insert_of_notMem new, sim.hits]
      · rw [if_neg (by rwa [decide_eq_true_iff]), if_neg wants]
        exact sim.hits
    · dsimp only at mem ⊢
      by_cases here : x = e.fromId
      · rw [here, Function.update_self]
      · rw [Function.update_of_ne here]
        split at mem
        · exact sim.seen x ((Finset.mem_insert.mp mem).resolve_left here)
        · exact sim.seen x mem

theorem Hunts.visits (sim : Hunts h s) (depth : Nat) (es : List Edge) :
    Hunts (((es.filter fun e => keep.contains e.category).map Edge.fromId).foldl
        (Hunt.visit (fun x => decide (x ∈ targets)) depth) h)
      (es.foldl (scanHit keep targets depth) s) := by
  induction es generalizing h s with
  | nil => exact sim
  | cons e es ih =>
    rw [List.foldl_cons]
    by_cases kept : keep.contains e.category = true
    · rw [List.filter_cons_of_pos (by exact kept), List.map_cons, List.foldl_cons]
      exact ih (sim.visit kept)
    · have same : scanHit keep targets depth s e = s := if_neg kept
      rw [List.filter_cons_of_neg (by exact kept), same]
      exact ih sim

theorem Hunts.loop (sim : Hunts h s) (edges : List Edge) (maxDepth fuel : Nat) :
    Hunts (Hunt.loop (fun x => decide (x ∈ targets)) (comesFrom keep edges) targets.card maxDepth
      fuel h) (scanHitLoop keep edges targets maxDepth fuel s) := by
  induction fuel generalizing h s with
  | zero => exact sim
  | succ fuel ih =>
    rw [Hunt.loop, scanHitLoop, sim.queue]
    cases s.queue with
    | nil => exact sim
    | cons item rest =>
      obtain ⟨node, depth⟩ := item
      have popped : Hunts { h with queue := rest } { s with queue := rest } :=
        ⟨sim.visited, rfl, sim.hit, sim.hits, sim.seen⟩
      dsimp only
      by_cases all : s.hit.card = targets.card
      · rw [if_pos (sim.hits.trans all), if_pos (.inr all), if_pos all]
        exact popped
      · rw [if_neg (sim.hits ▸ all)]
        by_cases far : maxDepth ≤ depth
        · rw [if_pos far, if_pos (.inl far), if_neg all]
          exact ih popped
        · rw [if_neg far, if_neg (not_or.mpr ⟨far, all⟩)]
          exact ih (popped.visits depth _)

end Scan

section Meaning
variable {g : GraphSource} {keep : CategorySet} {cap : Nat}

theorem mem_comesFrom {x y : NodeId} :
    y ∈ comesFrom keep g.edges x ↔ StepAlong g keep .backward x y := by
  unfold comesFrom StepAlong GraphSource.keptEdges Follows
  simp only [List.mem_map, List.mem_filter, decide_eq_true_eq]
  constructor
  · rintro ⟨e, ⟨⟨mem, here⟩, kept⟩, eq⟩
    exact ⟨e, ⟨mem, kept⟩, here, eq⟩
  · rintro ⟨e, ⟨mem, kept⟩, here, eq⟩
    exact ⟨e, ⟨⟨mem, here⟩, kept⟩, eq⟩

/-- The scan ends, and hits the sources within the bound. -/
theorem scanHitRun_spec (sink : NodeId) (sources : List NodeId) (maxDepth : Nat) :
    ((scanHitRun keep g sink sources maxDepth).queue = [] ∨
      (scanHitRun keep g sink sources maxDepth).hit.card = sources.toFinset.card) ∧
    ∀ x ∈ sources, x ∈ (scanHitRun keep g sink sources maxDepth).hit ↔
      ∃ k, 1 ≤ k ∧ k ≤ maxDepth ∧ Kit.Dist (StepAlong g keep .backward) {sink} x k := by
  have start : Hunt.Holds (StepAlong g keep .backward) {sink} maxDepth
      (fun x => decide (x ∈ sources.toFinset))
      ⟨Function.update (fun _ => false) sink true, [(sink, 0)], fun _ => false, 0⟩ [] := by
    refine ⟨?_, fun v => ?_, rfl⟩
    · have seen : {v | Function.update (fun _ => false) sink true v = true} = {sink} := by
        ext v
        by_cases here : v = sink
        · simp [here]
        · simp [here]
      dsimp only
      rw [seen]
      exact Search.start (l := [sink]) fun v => List.mem_singleton
    · exact iff_of_false Bool.false_ne_true fun both => List.not_mem_nil both.2
  have few : (Hunt.left (g.edges.map Edge.fromId).toFinset
      (Function.update (fun _ => false) sink true)).card ≤ g.edges.length := by
    refine (Finset.card_filter_le _ _).trans ((List.toFinset_card_le _).trans ?_)
    rw [List.length_map]
  obtain ⟨rows, caught⟩ := @Hunt.loop_caught NodeId _ _ _ maxDepth sources.toFinset.card _
    (comesFrom keep g.edges) (g.edges.map Edge.fromId).toFinset
    (fun u v => mem_comesFrom.symm)
    (fun u v mem => by
      obtain ⟨e, held, eq⟩ := List.mem_map.mp mem
      have listed := (List.mem_filter.mp (List.mem_filter.mp held).1).1
      exact List.mem_toFinset.mpr (eq ▸ List.mem_map_of_mem listed))
    (g.edges.length + 1) _ _ start (Nat.succ_le_succ few)
  have sim : Hunts ⟨Function.update (fun _ => false) sink true, [(sink, 0)], fun _ => false, 0⟩
      ⟨Function.update (fun _ => false) sink true, [(sink, 0)], ∅⟩ :=
    ⟨rfl, rfl, fun x => iff_of_false Bool.false_ne_true (Finset.notMem_empty x), rfl,
      fun x mem => absurd mem (Finset.notMem_empty x)⟩
  have ran := @Hunts.loop keep sources.toFinset _ _ sim g.edges maxDepth (g.edges.length + 1)
  refine ⟨?_, fun x mem => ?_⟩
  · rcases caught.ended with empty | all
    · exact .inl (ran.queue.symm.trans empty)
    · exact .inr (ran.hits.symm.trans all)
  · have hit := caught.source_hit sources.toFinset some
      (fun v => by simp) rfl (List.mem_toFinset.mpr mem)
    simp only [Option.some.injEq, exists_eq_left'] at hit
    exact (ran.hit x).symm.trans hit

theorem steps_incoming (adj : Adjacency) (u v : Nat) :
    Steps adj .backward u v ↔ v ∈ (adj.incoming u).map Inc.other := by
  rw [List.mem_map]
  rfl

/-- The walk over the index ends, and hits the sources within the bound. -/
theorem reachableRun_spec (adj : Adjacency) (sink : NodeId) (sources : List NodeId)
    (maxDepth : Nat) :
    ((reachableRun adj sink sources maxDepth).queue = [] ∨
      (reachableRun adj sink sources maxDepth).hits = sources.toFinset.card) ∧
    ∀ x ∈ sources, (∃ ix, adj.indexOf x = some ix ∧
        (reachableRun adj sink sources maxDepth).hit ix = true) ↔
      ∃ ix, adj.indexOf x = some ix ∧ ∃ k, 1 ≤ k ∧ k ≤ maxDepth ∧
        Kit.Dist (Steps adj .backward) (seedIndexes adj [sink]) ix k := by
  have start : Hunt.Holds (Steps adj .backward) (seedIndexes adj [sink]) maxDepth
      (fun ix => sources.any fun s => adj.indexOf s == some ix) (huntFrom adj sink) [] := by
    unfold huntFrom seedIndexes
    cases at_ : adj.indexOf sink with
    | none =>
      refine ⟨?_, fun v => iff_of_false Bool.false_ne_true fun both => List.not_mem_nil both.2, rfl⟩
      have seen : {v : Nat | (fun _ : Nat => false) v = true} =
          {v | ∃ seed ∈ [sink], adj.indexOf seed = some v} := by
        ext v
        simp [at_]
      dsimp only at seen ⊢
      rw [seen]
      exact Search.start (l := []) fun v => by simp [at_]
    | some ix =>
      refine ⟨?_, fun v => iff_of_false Bool.false_ne_true fun both => List.not_mem_nil both.2, rfl⟩
      have seen : {v : Nat | Function.update (fun _ => false) ix true v = true} =
          {v | ∃ seed ∈ [sink], adj.indexOf seed = some v} := by
        ext v
        by_cases here : v = ix
        · simp [here, at_]
        · simp [here, at_]
      dsimp only
      rw [seen]
      exact Search.start (l := [ix]) fun v => by simp [at_, eq_comm]
  have few : (Hunt.left (Finset.range adj.len) (huntFrom adj sink).visited).card +
      (huntFrom adj sink).queue.length ≤ adj.len + 1 := by
    have all : (Hunt.left (Finset.range adj.len) (huntFrom adj sink).visited).card ≤ adj.len :=
      (Finset.card_filter_le _ _).trans (Finset.card_range _).le
    have one : (huntFrom adj sink).queue.length ≤ 1 := by
      unfold huntFrom
      cases adj.indexOf sink with
      | none => exact Nat.zero_le 1
      | some ix => exact le_rfl
    omega
  obtain ⟨rows, caught⟩ := @Hunt.loop_caught Nat _ _ _ maxDepth sources.toFinset.card _
    (fun ix => (adj.incoming ix).map Inc.other) (Finset.range adj.len) (steps_incoming adj)
    (fun u v mem => Finset.mem_range.mpr (steps_lt ((steps_incoming adj u v).mpr mem)))
    (adj.len + 1) _ _ start few
  refine ⟨caught.ended, fun x mem => ?_⟩
  exact caught.source_hit sources.toFinset adj.indexOf
    (fun v => by simp) rfl (List.mem_toFinset.mpr mem)

variable (fits : g.Fits keep cap)
include fits

/-- Within the limit the walk over the index hits what the scan hits. -/
theorem reachableBy_scan (sink : NodeId) (sources : List NodeId) (maxDepth : Nat) :
    reachableBy (Adjacency.buildCapped g keep cap) sink sources maxDepth =
      scanReachableBy keep g sink sources maxDepth := by
  have indexed := (reachableRun_spec (Adjacency.buildCapped g keep cap) sink sources maxDepth).2
  have scanned := (@scanHitRun_spec g keep sink sources maxDepth).2
  have one : {s | s ∈ [sink]} = ({sink} : Set NodeId) := by
    ext x
    exact List.mem_singleton
  unfold reachableBy scanReachableBy
  split
  · rfl
  · refine List.filter_congr fun x mem => ?_
    have hit : (match (Adjacency.buildCapped g keep cap).indexOf x with
        | some ix => (reachableRun (Adjacency.buildCapped g keep cap) sink sources maxDepth).hit ix
        | none => false) = true ↔ ∃ ix, (Adjacency.buildCapped g keep cap).indexOf x = some ix ∧
          (reachableRun (Adjacency.buildCapped g keep cap) sink sources maxDepth).hit ix = true := by
      cases (Adjacency.buildCapped g keep cap).indexOf x with
      | none => simp
      | some ix => simp
    rw [Bool.eq_iff_iff, hit, indexed x mem, decide_eq_true_iff, scanned x mem]
    constructor
    · rintro ⟨ix, at_, k, pos, le, dist⟩
      rw [dist_indexed fits .backward [sink] k (Adjacency.indexOf_lt _ at_),
        Adjacency.id_of_indexOf _ at_, one] at dist
      exact ⟨k, pos, le, dist⟩
    · rintro ⟨k, pos, le, dist⟩
      obtain ⟨j, rfl⟩ := Nat.exists_eq_add_of_le' pos
      obtain ⟨u, _, step⟩ := dist_succ dist
      obtain ⟨_, ix, inside, rfl⟩ := stepAlong_indexed fits step
      refine ⟨ix, Adjacency.indexOf_id _ inside, j + 1, pos, le, ?_⟩
      rw [dist_indexed fits .backward [sink] (j + 1) inside, one]
      exact dist

end Meaning

section Limit
variable {g : GraphSource} {keep : CategorySet}

theorem fits_enough (g : GraphSource) (keep : CategorySet) :
    g.Fits keep (max (g.indexed keep).card (g.keptEdges keep).length) :=
  ⟨le_max_left _ _, le_max_right _ _⟩

theorem mem_blast (seeds : List NodeId) (walk : Walk) (maxDepth : Nat) (y : NodeId) (k : Nat) :
    (y, k) ∈ (blast keep walk.fwd walk.bwd g seeds maxDepth).map (fun r => (r.id, r.depth)) ↔
      1 ≤ k ∧ k ≤ maxDepth ∧ Kit.Dist (StepAlong g keep walk) {s | s ∈ seeds} y k := by
  have large := fits_enough g keep
  rw [← (bfs_scan large seeds).2]
  exact (mem_bfs large seeds walk maxDepth).1 y k

theorem scanReachableBy_eq (sink : NodeId) (sources : List NodeId) (maxDepth : Nat) :
    scanReachableBy keep g sink sources maxDepth = sources.filter fun s =>
      s ∈ (blast keep false true g [sink] maxDepth).map Reached.id := by
  have one : {s | s ∈ [sink]} = ({sink} : Set NodeId) := by
    ext x
    exact List.mem_singleton
  have found : ∀ x, x ∈ (blast keep false true g [sink] maxDepth).map Reached.id ↔
      ∃ k, 1 ≤ k ∧ k ≤ maxDepth ∧ Kit.Dist (StepAlong g keep .backward) {sink} x k := by
    intro x
    have rows := @mem_blast g keep [sink] .backward maxDepth x
    rw [one] at rows
    constructor
    · intro mem
      obtain ⟨r, held, rfl⟩ := List.mem_map.mp mem
      exact ⟨r.depth, (rows r.depth).mp (List.mem_map_of_mem held)⟩
    · rintro ⟨k, near⟩
      obtain ⟨r, held, eq⟩ := List.mem_map.mp ((rows k).mpr near)
      cases eq
      exact List.mem_map_of_mem held
  unfold scanReachableBy
  split
  · rename_i none
    rw [List.isEmpty_iff.mp none]
    rfl
  · refine List.filter_congr fun x mem => decide_eq_decide.mpr ?_
    rw [(@scanHitRun_spec g keep sink sources maxDepth).2 x mem, found]

def bfsRun (adj : Adjacency) (seeds : List NodeId) (walk : Walk) (maxDepth : Nat) : BfsState :=
  bfsLoop adj walk maxDepth (adj.len + 1) ⟨(seedQueue adj seeds).2, (seedQueue adj seeds).1, ⟨[], 0⟩⟩

theorem bfs_eq_run (adj : Adjacency) (seeds : List NodeId) (walk : Walk) (maxDepth : Nat) :
    bfs adj seeds walk maxDepth = (bfsRun adj seeds walk maxDepth).out := rfl

theorem bfsRun_ended (adj : Adjacency) (seeds : List NodeId) (walk : Walk) (maxDepth : Nat) :
    (bfsRun adj seeds walk maxDepth).queue = [] := by
  obtain ⟨_, empty, _⟩ := bfsLoop_searched (adj.len + 1)
    (start_searched adj seeds walk maxDepth) ((seedQueue_few adj seeds).trans (Nat.le_succ _))
  exact empty

theorem seedQueue_empty (seeds : List NodeId) : (seedQueue .empty seeds).1 = [] := by
  have none : ∀ x, Adjacency.empty.indexOf x = none := fun x => if_neg List.not_mem_nil
  unfold seedQueue
  induction seeds using List.reverseRecOn with
  | nil => rfl
  | append_singleton seeds seed ih => rw [List.foldl_append, List.foldl_cons, List.foldl_nil, none, ih]

theorem bfs_empty (seeds : List NodeId) (walk : Walk) (maxDepth : Nat) :
    (bfs .empty seeds walk maxDepth).reached = [] := by
  have stop : bfsRun .empty seeds walk maxDepth =
      ⟨(seedQueue .empty seeds).2, (seedQueue .empty seeds).1, ⟨[], 0⟩⟩ := by
    rw [bfsRun, bfsLoop, seedQueue_empty]
  rw [bfs_eq_run, stop]

theorem reachableBy_empty (sink : NodeId) (sources : List NodeId) (maxDepth : Nat) :
    reachableBy .empty sink sources maxDepth = [] := by
  have none : ∀ x, Adjacency.empty.indexOf x = none := fun x => if_neg List.not_mem_nil
  unfold reachableBy
  split
  · rfl
  · refine List.filter_eq_nil_iff.mpr fun x _ => ?_
    rw [none]
    exact Bool.false_ne_true

end Limit

/-- Within the index limit the walks over an index find what the scans of the source's edges
find; past it they find nothing. Every loop ends. -/
theorem reach_indexed (g : GraphSource) (keep : CategorySet) :
    (∀ seeds walk maxDepth, (bfsRun (Adjacency.build g keep) seeds walk maxDepth).queue = [] ∧
      (blastRun keep walk.fwd walk.bwd g seeds maxDepth).queue = [] ∧
      (bfs (Adjacency.build g keep) seeds walk maxDepth).reached =
        if g.Fits keep indexLimit then blast keep walk.fwd walk.bwd g seeds maxDepth else []) ∧
    (∀ sink sources maxDepth,
      ((reachableRun (Adjacency.build g keep) sink sources maxDepth).queue = [] ∨
        (reachableRun (Adjacency.build g keep) sink sources maxDepth).hits =
          sources.toFinset.card) ∧
      ((scanHitRun keep g sink sources maxDepth).queue = [] ∨
        (scanHitRun keep g sink sources maxDepth).hit.card = sources.toFinset.card) ∧
      reachableBy (Adjacency.build g keep) sink sources maxDepth =
        (if g.Fits keep indexLimit then scanReachableBy keep g sink sources maxDepth else []) ∧
      scanReachableBy keep g sink sources maxDepth = sources.filter fun s =>
        s ∈ (blast keep false true g [sink] maxDepth).map Reached.id) := by
  have past : ¬g.Fits keep indexLimit → Adjacency.build g keep = .empty := Adjacency.build_past
  refine ⟨fun seeds walk maxDepth => ⟨bfsRun_ended _ seeds walk maxDepth,
    (bfs_scan (fits_enough g keep) seeds).1, ?_⟩, fun sink sources maxDepth =>
    ⟨(reachableRun_spec _ sink sources maxDepth).1, scanHitRun_spec sink sources maxDepth |>.1, ?_,
      scanReachableBy_eq sink sources maxDepth⟩⟩
  · split
    · rename_i fits
      exact (bfs_scan fits seeds).2
    · rename_i beyond
      rw [past beyond, bfs_empty]
  · split
    · rename_i fits
      exact reachableBy_scan fits sink sources maxDepth
    · rename_i beyond
      rw [past beyond, reachableBy_empty]

theorem wide_past (n : Nat) (es : List Edge) (keep : CategorySet) :
    ¬GraphSource.Fits ⟨List.range (n + 1), es⟩ keep n := by
  rintro ⟨few, _⟩
  have all : (List.range (n + 1)).toFinset ⊆
      GraphSource.indexed ⟨List.range (n + 1), es⟩ keep := by
    intro x mem
    rw [GraphSource.indexed, List.mem_toFinset]
    exact List.mem_append_left _ (List.mem_toFinset.mp mem)
  have count := Finset.card_le_card all
  rw [List.toFinset_card_of_nodup List.nodup_range, List.length_range] at count
  omega

/-- One more node than an index holds, and one edge. -/
def wideSource : GraphSource :=
  ⟨List.range (indexLimit + 1), [⟨0, 1, 1, .strong, []⟩]⟩

/-- Past the limit the walk over the index misses what the scan finds. -/
theorem wideSource_missed :
    (bfs (Adjacency.build wideSource .all) [0] .forward 1).reached ≠
      blast .all true false wideSource [0] 1 := by
  have beyond : ¬wideSource.Fits .all indexLimit := wide_past _ _ _
  have near : (1, 1) ∈ (blast .all true false wideSource [0] 1).map
      (fun r => (r.id, r.depth)) := by
    have edge : (⟨0, 1, 1, .strong, []⟩ : Edge) ∈ wideSource.keptEdges .all :=
      List.mem_filter.mpr ⟨List.mem_singleton_self _, rfl⟩
    refine (@mem_blast wideSource .all [0] .forward 1 1 1).mpr ⟨le_rfl, le_rfl, ?_, ?_⟩
    · exact ⟨0, List.mem_singleton_self 0, 0, rfl, _, edge, rfl, rfl⟩
    · rintro n ⟨s, seed, way⟩
      cases n with
      | zero =>
        have zero : s = 0 := List.mem_singleton.mp seed
        rw [zero] at way
        cases way
      | succ n => exact Nat.succ_le_succ (Nat.zero_le n)
  rw [Adjacency.build, Adjacency.build_past beyond, bfs_empty]
  intro same
  rw [← same] at near
  cases near

end Glia.Algo
