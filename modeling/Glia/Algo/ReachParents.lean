import Glia.Algo.ReachIds

/-! The parents a levelled walk reports: each one layer up, so following them is a
shortest walk of the pass. -/
namespace Glia.Algo

open Kit

section Told

variable {adj : Adjacency} (edgeLevel : List Nat) (how : LevelWalk)

/-- The report's node stands one layer below its parent. -/
def ToldBelow (adj : Adjacency) (edgeLevel : List Nat) (how : LevelWalk)
    (start : List (Nat × Nat)) (r : LevelReached) : Prop :=
  ∃ n u v, r.depth = n + 1 ∧ r.id = adj.id v ∧ r.parent = adj.id u ∧
    u ∈ Front (Walkable adj edgeLevel how r.level) (Started start r.level) n ∧
    v ∈ Front (Walkable adj edgeLevel how r.level) (Started start r.level) (n + 1) ∧
    Walkable adj edgeLevel how r.level u v

structure Layer (adj : Adjacency) (edgeLevel : List Nat) (how : LevelWalk)
    (start : List (Nat × Nat)) (level d : Nat) (s : Pass) : Prop where
  seen : ∀ v ∈ Within (Walkable adj edgeLevel how level) (Started start level) d,
    s.visited v = true
  told : ∀ r ∈ s.reached, ToldBelow adj edgeLevel how start r

variable {edgeLevel how}

theorem enter_layer {start : List (Nat × Nat)} {level d node : Nat} {s : Pass} {inc : Inc}
    (front : node ∈ Front (Walkable adj edgeLevel how level) (Started start level) d)
    (mem : inc ∈ incidences adj node how.walk) (h : Layer adj edgeLevel how start level d s) :
    Layer adj edgeLevel how start level d (enter adj edgeLevel how level d node s inc) := by
  simp only [enter]
  split
  · exact ⟨h.seen, h.told⟩
  · rename_i go
    simp only [Bool.or_eq_true, decide_eq_true_eq, Bool.not_eq_true', not_or, not_lt,
      Bool.not_eq_true, Bool.not_eq_false] at go
    obtain ⟨⟨low, fresh⟩, isIn⟩ := go
    constructor
    · intro v hv
      by_cases eq : v = inc.other <;> simp [eq, h.seen v hv]
    · simp only
      split
      · exact h.told
      · intro r hr
        rcases List.mem_append.mp hr with hr | hr
        · exact h.told r hr
        · cases List.mem_singleton.mp hr
          have step : Walkable adj edgeLevel how level node inc.other := ⟨inc, mem, rfl, low, isIn⟩
          refine ⟨d, node, inc.other, rfl, rfl, rfl, front, ?_, step⟩
          rw [mem_front_succ, mem_within_succ_front]
          refine ⟨.inr ⟨node, front, step⟩, fun early => ?_⟩
          rw [h.seen _ early] at fresh
          cases fresh

theorem expandNode_layer {start : List (Nat × Nat)} {level d node : Nat} {s : Pass}
    (front : node ∈ Front (Walkable adj edgeLevel how level) (Started start level) d)
    (h : Layer adj edgeLevel how start level d s) :
    Layer adj edgeLevel how start level d (expandNode adj edgeLevel how level d s node) :=
  List.foldlRecOn (motive := Layer adj edgeLevel how start level d) _ _ h
    fun _ hs _ mem => enter_layer front mem hs

theorem layers_told {start : List (Nat × Nat)} {level : Nat} (first : Pass)
    (seeds : ∀ v, first.visited v = true → v ∈ Started start level) (fuel : Nat) {d : Nat}
    {frontier : List Nat}
    (front : Layered (Walkable adj edgeLevel how level) (Started start level) first d frontier)
    {s : Pass}
    (marked : Marked adj level first s
      (Within (Walkable adj edgeLevel how level) (Started start level) d))
    (told : ∀ r ∈ s.reached, ToldBelow adj edgeLevel how start r) :
    ∀ r ∈ (layers adj edgeLevel how level fuel d frontier s).reached,
      ToldBelow adj edgeLevel how start r := by
  induction fuel generalizing d frontier s with
  | zero => exact told
  | succ fuel ih =>
    unfold layers
    split
    · exact told
    · obtain ⟨front', marked'⟩ := layer_step edgeLevel how seeds front marked
      refine ih front' marked' ?_
      suffices layer : Layer adj edgeLevel how start level d ((layerOrder how frontier).foldl
          (expandNode adj edgeLevel how level d) { s with next := [] }) from layer.told
      refine List.foldlRecOn (motive := Layer adj edgeLevel how start level d) _ _ ⟨?_, told⟩ ?_
      · intro v hv
        exact (marked.visited v).mpr (.inr hv)
      · intro s hs node mem
        exact expandNode_layer ((front node).mp ((mem_layerOrder how frontier node).mp mem)).1 hs

theorem bfsLevels_told (seeds : List (NodeId × Nat)) :
    ∀ r ∈ (bfsLevels adj edgeLevel how seeds).reached,
      ToldBelow adj edgeLevel how (startSeeds adj how seeds) r := by
  unfold bfsLevels
  split
  · dsimp only
    refine List.foldlRecOn (motive := fun s : Pass => ∀ r ∈ s.reached,
      ToldBelow adj edgeLevel how (startSeeds adj how seeds) r) _ _ (by simp) ?_
    intro s told level _
    unfold pass
    refine layers_told { s with visited := seeded how (startSeeds adj how seeds) level }
      ?_ _ (layered_start _ level _ _) ⟨?_, ?_, ?_⟩ told
    · exact fun v seen => ((seeded_iff how _ level v).mp seen).2
    · simp [seeded]
    · simp
    · simp
  · intro r hr
    cases hr

/-- The report's kept edge goes from its parent to its node and is of its level. -/
def TakenEdge (adj : Adjacency) (edgeLevel : List Nat) (how : LevelWalk) (r : LevelReached) : Prop :=
  ∃ u, ∃ inc ∈ incidences adj u how.walk, r.parent = adj.id u ∧ r.id = adj.id inc.other ∧
    r.keptEdge = inc.edge ∧ edgeLevel.getD inc.edge never ≤ r.level

theorem layers_taken (level fuel : Nat) {d : Nat} {frontier : List Nat} {s : Pass}
    (taken : ∀ r ∈ s.reached, TakenEdge adj edgeLevel how r) :
    ∀ r ∈ (layers adj edgeLevel how level fuel d frontier s).reached,
      TakenEdge adj edgeLevel how r := by
  induction fuel generalizing d frontier s with
  | zero => exact taken
  | succ fuel ih =>
    unfold layers
    split
    · exact taken
    · apply ih
      refine List.foldlRecOn (motive := fun s : Pass => ∀ r ∈ s.reached,
        TakenEdge adj edgeLevel how r) _ _ taken fun s hs node _ => ?_
      refine List.foldlRecOn (motive := fun s : Pass => ∀ r ∈ s.reached,
        TakenEdge adj edgeLevel how r) _ _ hs fun s hs inc mem => ?_
      simp only [enter]
      split
      · exact hs
      · rename_i go
        simp only [Bool.or_eq_true, decide_eq_true_eq, not_or, not_lt] at go
        dsimp only
        split
        · exact hs
        · intro r hr
          cases List.mem_append.mp hr with
          | inl old => exact hs r old
          | inr new =>
            cases List.mem_singleton.mp new
            exact ⟨node, inc, mem, rfl, rfl, rfl, go.1.1⟩

theorem bfsLevels_taken (seeds : List (NodeId × Nat)) :
    ∀ r ∈ (bfsLevels adj edgeLevel how seeds).reached, TakenEdge adj edgeLevel how r := by
  unfold bfsLevels
  split
  · dsimp only
    refine List.foldlRecOn (motive := fun s : Pass => ∀ r ∈ s.reached,
      TakenEdge adj edgeLevel how r) _ _ (by simp) fun s taken level _ => ?_
    exact layers_taken level _ taken
  · simp

end Told

section Shortest

variable {adj : Adjacency} {edgeLevel : List Nat} {how : LevelWalk}

theorem exists_report (agree : lengthsAgree adj edgeLevel how = true) (some' : 0 < how.levels)
    (deep : adj.len ≤ how.maxDepth) (seeds : List (NodeId × Nat)) {n v : Nat}
    (front : v ∈ Front (Walkable adj edgeLevel how 0)
      (Started (startSeeds adj how seeds) 0) (n + 1))
    (told : how.plus = true ∨ v ∉ Started (startSeeds adj how seeds) 0) :
    ∃ r ∈ (bfsLevels adj edgeLevel how seeds).reached, r.id = adj.id v ∧ r.level = 0 ∧
      r.depth = n + 1 ∧ ∃ u, r.parent = adj.id u ∧
        u ∈ Front (Walkable adj edgeLevel how 0) (Started (startSeeds adj how seeds) 0) n ∧
        Walkable adj edgeLevel how 0 u v := by
  have sub := @within_indexes adj edgeLevel how 0 (Started (startSeeds adj how seeds) 0)
  have few : (indexes adj).ncard ≤ how.maxDepth := by rwa [ncard_indexes]
  have reached := mem_within_of_card _ _ (indexes_finite adj) sub few front.1
  have mem := (mem_reached edgeLevel how agree seeds (adj.id v, 0)).mpr
    ⟨v, rfl, some', ⟨reached, told⟩, fun l lt => absurd lt (Nat.not_lt_zero l)⟩
  obtain ⟨r, there, eq⟩ := List.mem_map.mp mem
  obtain ⟨eqId, eqLevel⟩ := Prod.mk.inj eq
  obtain ⟨m, u, w, depth, isW, parent, frontU, frontW, step⟩ := bfsLevels_told _ r there
  rw [eqLevel] at frontU frontW step
  obtain rfl := adj.id_injective (sub _ frontW.1) (sub _ front.1) (isW.symm.trans eqId)
  obtain rfl := front_unique _ _ frontW front
  exact ⟨r, there, eqId, eqLevel, depth, u, parent, frontU, step⟩

theorem not_seed_of_front {R : Nat → Nat → Prop} {S : Set Nat} {n u v : Nat}
    (front : v ∈ Front R S (n + 1)) (step : R u v) (pos : n ≠ 0) : u ∉ S := fun seed =>
  front.2 (within_mono R S (by omega : 1 ≤ n) ⟨u, .inl seed, step⟩)

end Shortest

end Glia.Algo
