import Glia.Algo.Reach

/-! What a levelled `plus` walk reports: each node once, at the first level from which
some seed of that level reaches it in one or more hops within the depth bound. -/
namespace Glia.Algo

theorem mem_mergeIncidences {outs ins : List Inc} {inc : Inc}
    (h : inc ∈ mergeIncidences outs ins) : inc ∈ outs ∨ inc ∈ ins := by
  fun_induction mergeIncidences outs ins with
  | case1 ins => exact .inr h
  | case2 out outs => exact .inl h
  | case3 out outs inn ins lt ih =>
    rcases List.mem_cons.mp h with rfl | h
    · exact .inl List.mem_cons_self
    · rcases ih h with h | h
      · exact .inl (List.mem_cons_of_mem _ h)
      · exact .inr h
  | case4 out outs inn ins _ _ ih =>
    rcases List.mem_cons.mp h with rfl | h
    · exact .inl List.mem_cons_self
    · rcases ih h with h | h
      · exact .inl (List.mem_cons_of_mem _ h)
      · exact .inr (List.mem_cons_of_mem _ h)
  | case5 out outs inn ins _ _ ih =>
    rcases List.mem_cons.mp h with rfl | h
    · exact .inr List.mem_cons_self
    · rcases ih h with h | h
      · exact .inl h
      · exact .inr (List.mem_cons_of_mem _ h)

theorem incidences_lt (adj : Adjacency) {node : Nat} {walk : Walk} {inc : Inc}
    (h : inc ∈ incidences adj node walk) : inc.other < adj.len := by
  cases walk with
  | forward => exact (adj.outgoing_lt h).2
  | backward => exact (adj.incoming_lt h).2
  | both =>
    rcases mem_mergeIncidences h with h | h
    · exact (adj.outgoing_lt h).2
    · exact (adj.incoming_lt h).2

def LevelReached.at (r : LevelReached) : NodeId × Nat := (r.id, r.level)

section Exact

variable (adj : Adjacency) (edgeLevel : List Nat) (how : LevelWalk)

def Walkable (level u v : Nat) : Prop :=
  ∃ inc ∈ incidences adj u how.walk,
    inc.other = v ∧ edgeLevel.getD inc.edge never ≤ level ∧ inside how v = true

structure Marked (level : Nat) (s s' : Pass) (new : Set Nat) : Prop where
  visited : ∀ v, s'.visited v = true ↔ s.visited v = true ∨ v ∈ new
  reported : ∀ v, s'.reported v = true ↔ s.reported v = true ∨ v ∈ new ∧ s.visited v = false
  reached : ∀ p, p ∈ s'.reached.map LevelReached.at ↔ p ∈ s.reached.map LevelReached.at ∨
    ∃ v, p = (adj.id v, level) ∧ v ∈ new ∧ s.visited v = false ∧ s.reported v = false

structure Entered (level : Nat) (s s' : Pass) (new : Set Nat) : Prop
    extends Marked adj level s s' new where
  next : ∀ v, v ∈ s'.next ↔ v ∈ s.next ∨ v ∈ new ∧ s.visited v = false

variable {adj}

theorem Marked.trans {level : Nat} {s t u : Pass} {a b : Set Nat}
    (first : Marked adj level s t a) (second : Marked adj level t u b) :
    Marked adj level s u (a ∪ b) where
  visited v := by
    rw [second.visited, first.visited, Set.mem_union, or_assoc]
  reported v := by
    have visited := first.visited v
    rw [second.reported, first.reported, Set.mem_union]
    by_cases seen : s.visited v = true <;> by_cases new : v ∈ a <;> simp_all
  reached p := by
    rw [second.reached, first.reached, or_assoc]
    apply or_congr_right
    constructor
    · rintro (⟨v, rfl, new, seen, fresh⟩ | ⟨v, rfl, new, seen, fresh⟩)
      · exact ⟨v, rfl, .inl new, seen, fresh⟩
      · have visited := first.visited v
        have reported := first.reported v
        refine ⟨v, rfl, .inr new, ?_, ?_⟩ <;> simp_all
    · rintro ⟨v, rfl, new, seen, fresh⟩
      by_cases early : v ∈ a
      · exact .inl ⟨v, rfl, early, seen, fresh⟩
      · have visited := first.visited v
        have reported := first.reported v
        refine .inr ⟨v, rfl, new.resolve_left early, ?_, ?_⟩ <;> simp_all

theorem Marked.congr {level : Nat} {s t : Pass} {a b : Set Nat}
    (h : Marked adj level s t a) (eq : ∀ v, v ∈ a ↔ v ∈ b) : Marked adj level s t b := by
  rwa [← Set.ext eq]

theorem Entered.refl (level : Nat) (s : Pass) : Entered adj level s s ∅ where
  visited := by simp
  reported := by simp
  reached := by simp
  next := by simp

theorem Entered.trans {level : Nat} {s t u : Pass} {a b : Set Nat}
    (first : Entered adj level s t a) (second : Entered adj level t u b) :
    Entered adj level s u (a ∪ b) where
  toMarked := first.toMarked.trans second.toMarked
  next v := by
    have visited := first.visited v
    rw [second.next, first.next, Set.mem_union]
    by_cases seen : s.visited v = true <;> by_cases new : v ∈ a <;> simp_all

theorem Entered.congr {level : Nat} {s t : Pass} {a b : Set Nat}
    (h : Entered adj level s t a) (eq : ∀ v, v ∈ a ↔ v ∈ b) : Entered adj level s t b := by
  rwa [← Set.ext eq]

theorem entered_foldl {β : Type*} {level : Nat} {f : Pass → β → Pass} {new : β → Set Nat}
    (step : ∀ s x, Entered adj level s (f s x) (new x)) (xs : List β) (s : Pass) :
    Entered adj level s (xs.foldl f s) {v | ∃ x ∈ xs, v ∈ new x} := by
  induction xs generalizing s with
  | nil => exact (Entered.refl level s).congr (by simp)
  | cons x rest ih => exact ((step s x).trans (ih (f s x))).congr (by simp)

theorem enter_entered (level depth node : Nat) (s : Pass) (inc : Inc) :
    Entered adj level s (enter adj edgeLevel how level depth node s inc)
      {v | v = inc.other ∧ edgeLevel.getD inc.edge never ≤ level ∧ inside how v = true} := by
  simp only [enter]
  split
  · rename_i skip
    simp only [Bool.or_eq_true, decide_eq_true_eq, Bool.not_eq_true'] at skip
    have none : ∀ v, v = inc.other ∧ edgeLevel.getD inc.edge never ≤ level ∧
        inside how v = true → s.visited v = true := by
      rintro v ⟨rfl, le, isIn⟩
      rcases skip with (lt | seen) | out
      · omega
      · exact seen
      · rw [isIn] at out
        cases out
    refine ⟨⟨?_, ?_, ?_⟩, ?_⟩
    · intro v
      exact ⟨.inl, fun h => h.elim id (none v)⟩
    · intro v
      refine ⟨.inl, fun h => h.elim id fun h => ?_⟩
      rw [none v h.1] at h
      cases h.2
    · intro p
      refine ⟨.inl, fun h => h.elim id fun ⟨v, _, new, seen, _⟩ => ?_⟩
      rw [none v new] at seen
      cases seen
    · intro v
      refine ⟨.inl, fun h => h.elim id fun h => ?_⟩
      rw [none v h.1] at h
      cases h.2
  · rename_i go
    simp only [Bool.or_eq_true, decide_eq_true_eq, Bool.not_eq_true', not_or, not_lt,
      Bool.not_eq_true, Bool.not_eq_false] at go
    obtain ⟨⟨le, seen⟩, isIn⟩ := go
    have new : ∀ v, v ∈ {v | v = inc.other ∧ edgeLevel.getD inc.edge never ≤ level ∧
        inside how v = true} ↔ v = inc.other := by
      intro v
      exact ⟨And.left, fun eq => ⟨eq, le, eq ▸ isIn⟩⟩
    refine Entered.congr (a := {inc.other}) ?_ fun v => (new v).symm
    refine ⟨⟨?_, ?_, ?_⟩, ?_⟩
    · intro v
      by_cases eq : v = inc.other <;> simp [eq]
    · intro v
      by_cases eq : v = inc.other <;> simp [eq, seen]
    · intro p
      split
      · rename_i told
        refine ⟨.inl, fun h => h.elim id fun ⟨v, _, eq, _, fresh⟩ => ?_⟩
        rw [eq, told] at fresh
        cases fresh
      · rename_i fresh
        simp only [List.map_append, List.map_cons, List.map_nil, List.mem_append,
          List.mem_singleton, LevelReached.at]
        apply or_congr_right
        constructor
        · rintro rfl
          exact ⟨inc.other, rfl, rfl, seen, by simpa using fresh⟩
        · rintro ⟨v, rfl, rfl, _⟩
          rfl
    · intro v
      simp only [List.mem_append, List.mem_singleton]
      apply or_congr_right
      exact ⟨fun eq => ⟨eq, eq ▸ seen⟩, And.left⟩

theorem expandNode_entered (level depth : Nat) (s : Pass) (node : Nat) :
    Entered adj level s (expandNode adj edgeLevel how level depth s node)
      {v | Walkable adj edgeLevel how level node v} := by
  refine (entered_foldl (enter_entered edgeLevel how level depth node) _ s).congr fun v => ?_
  constructor
  · rintro ⟨inc, mem, rfl, le, isIn⟩
    exact ⟨inc, mem, rfl, le, isIn⟩
  · rintro ⟨inc, mem, rfl, le, isIn⟩
    exact ⟨inc, mem, rfl, le, isIn⟩

@[simp] theorem mem_layerOrder (frontier : List Nat) (v : Nat) :
    v ∈ layerOrder how frontier ↔ v ∈ frontier := by
  unfold layerOrder
  split
  · rfl
  · exact List.mem_insertionSort _

theorem walkable_lt {level u v : Nat} (h : Walkable adj edgeLevel how level u v) :
    v < adj.len := by
  obtain ⟨inc, mem, rfl, _⟩ := h
  exact incidences_lt adj mem

def indexes (adj : Adjacency) : Set Nat := {v | v < adj.len}

theorem indexes_finite (adj : Adjacency) : (indexes adj).Finite := Set.finite_lt_nat adj.len

theorem ncard_indexes (adj : Adjacency) : (indexes adj).ncard = adj.len := by
  have : indexes adj = Finset.range adj.len := by
    ext v
    simp [indexes]
  rw [this, Set.ncard_coe_finset, Finset.card_range]

open Kit in
theorem within_indexes (level : Nat) (S : Set Nat) (n : Nat) :
    Within (Walkable adj edgeLevel how level) S n ⊆ indexes adj := by
  intro v mem
  cases n with
  | zero => cases mem
  | succ n =>
    obtain ⟨u, _, step⟩ := mem
    exact walkable_lt edgeLevel how step

open Kit in
theorem within_succ_of_seeds {R : Nat → Nat → Prop} {S : Set Nat} {d : Nat} (pos : d ≠ 0)
    (seeds : Front R S d ⊆ S) : Within R S (d + 1) = Within R S d := by
  ext v
  rw [mem_within_succ_front]
  refine ⟨fun h => h.elim id fun ⟨a, front, step⟩ => ?_, .inl⟩
  exact within_mono R S (by omega : 1 ≤ d) ⟨a, .inl (seeds front), step⟩

open Kit in
def Layered (R : Nat → Nat → Prop) (S : Set Nat) (start : Pass) (d : Nat) (frontier : List Nat) :
    Prop :=
  ∀ v, v ∈ frontier ↔ v ∈ Front R S d ∧ (d = 0 ∨ start.visited v = false)

open Kit in
theorem layer_step {level : Nat} {S : Set Nat} {start : Pass}
    (seeds : ∀ v, start.visited v = true → v ∈ S) {d : Nat} {frontier : List Nat}
    (front : Layered (Walkable adj edgeLevel how level) S start d frontier) {s : Pass}
    (marked : Marked adj level start s (Within (Walkable adj edgeLevel how level) S d)) :
    Layered (Walkable adj edgeLevel how level) S start (d + 1)
      ((layerOrder how frontier).foldl (expandNode adj edgeLevel how level d)
        { s with next := [] }).next ∧
    Marked adj level start ((layerOrder how frontier).foldl (expandNode adj edgeLevel how level d)
      { s with next := [] }) (Within (Walkable adj edgeLevel how level) S (d + 1)) := by
  have entered := entered_foldl (f := expandNode adj edgeLevel how level d)
    (fun s node => expandNode_entered edgeLevel how level d s node)
    (layerOrder how frontier) { s with next := [] }
  have visited : ∀ v, s.visited v = true ↔ start.visited v = true ∨
      v ∈ Within (Walkable adj edgeLevel how level) S d := marked.visited
  -- A seed met again leads only where its own layer already led.
  have reached : ∀ v, v ∈ Within (Walkable adj edgeLevel how level) S (d + 1) ↔
      v ∈ Within (Walkable adj edgeLevel how level) S d ∨
        ∃ x ∈ layerOrder how frontier, Walkable adj edgeLevel how level x v := by
    intro v
    rw [mem_within_succ_front]
    simp only [mem_layerOrder, front _]
    constructor
    · rintro (mem | ⟨a, mem, step⟩)
      · exact .inl mem
      · by_cases seed : start.visited a = true
        · rcases Nat.eq_zero_or_pos d with rfl | pos
          · exact .inr ⟨a, ⟨mem, .inl rfl⟩, step⟩
          · exact .inl (within_mono _ S pos ⟨a, .inl (seeds a seed), step⟩)
        · exact .inr ⟨a, ⟨mem, .inr (Bool.eq_false_iff.mpr seed)⟩, step⟩
    · rintro (mem | ⟨a, mem, step⟩)
      · exact .inl mem
      · exact .inr ⟨a, mem.1, step⟩
  constructor
  · intro v
    rw [entered.next, mem_front_succ, reached]
    have at' := visited v
    simp only [List.not_mem_nil, false_or, Set.mem_ofPred_eq, Nat.add_eq_zero_iff, one_ne_zero,
      and_false]
    by_cases seen : s.visited v = true
    · have := at'.mp seen
      simp only [seen, Bool.true_eq_false, and_false, false_iff]
      rintro ⟨⟨_, out⟩, fresh⟩
      rw [fresh] at this
      exact out (this.resolve_left Bool.false_ne_true)
    · rw [at', not_or, Bool.not_eq_true] at seen
      have fresh : s.visited v = false := by
        rw [← Bool.not_eq_true, at', not_or, Bool.not_eq_true]
        exact seen
      simp only [fresh, and_true, seen.1, seen.2, false_or, not_false_eq_true]
  · refine Marked.congr (marked.trans ⟨entered.visited, entered.reported, entered.reached⟩) ?_
    intro v
    rw [reached]
    rfl

open Kit in
theorem layers_marked {level : Nat} {S : Set Nat} {start : Pass}
    (seeds : ∀ v, start.visited v = true → v ∈ S) (fuel : Nat) {d : Nat}
    (bound : d ≤ how.maxDepth) (enough : adj.len + 2 ≤ fuel + d) {frontier : List Nat}
    (front : Layered (Walkable adj edgeLevel how level) S start d frontier) {s : Pass}
    (marked : Marked adj level start s (Within (Walkable adj edgeLevel how level) S d)) :
    Marked adj level start (layers adj edgeLevel how level fuel d frontier s)
      (Within (Walkable adj edgeLevel how level) S how.maxDepth) := by
  have stop : Front (Walkable adj edgeLevel how level) S d = ∅ →
      Marked adj level start s (Within (Walkable adj edgeLevel how level) S how.maxDepth) :=
    fun empty => by rwa [within_eq_of_front_empty _ S empty bound]
  induction fuel generalizing d frontier s with
  | zero =>
    apply stop
    apply front_empty_of_card _ S (indexes_finite adj) (within_indexes edgeLevel how level S)
    rw [ncard_indexes]
    omega
  | succ fuel ih =>
    unfold layers
    split
    · rename_i done
      rcases done with rfl | deep
      · rcases Nat.eq_zero_or_pos d with rfl | pos
        · apply stop
          ext v
          have := front v
          simp_all
        · have again : Front (Walkable adj edgeLevel how level) S d ⊆ S := by
            intro v mem
            have := mt (fun fresh => (front v).mpr ⟨mem, .inr fresh⟩) List.not_mem_nil
            exact seeds v (by simpa using this)
          have same := within_succ_of_seeds (by omega) again
          rcases Nat.eq_or_lt_of_le bound with eq | lt
          · rwa [← eq]
          · have none : Front (Walkable adj edgeLevel how level) S (d + 1) = ∅ := by
              ext v
              rw [mem_front_succ, same]
              simp
            rwa [within_eq_of_front_empty _ S none lt, same]
      · rwa [Nat.le_antisymm deep bound]
    · rename_i go
      rw [not_or, not_le] at go
      obtain ⟨front', marked'⟩ := layer_step edgeLevel how seeds front marked
      refine ih (by omega) (by omega) front' marked' fun empty => ?_
      rwa [within_eq_of_front_empty _ S empty (by omega)]

def Started (start : List (Nat × Nat)) (level : Nat) : Set Nat :=
  {ix | ∃ l, (ix, l) ∈ start ∧ l ≤ level}

/-- What a pass has visited before its first layer. -/
def seeded (how : LevelWalk) (start : List (Nat × Nat)) (level : Nat) : Nat → Bool := fun ix =>
  !how.plus && ((start.filter fun e => e.2 ≤ level).map Prod.fst).contains ix

theorem seeded_iff (start : List (Nat × Nat)) (level ix : Nat) :
    seeded how start level ix = true ↔ how.plus = false ∧ ix ∈ Started start level := by
  simp only [seeded, Bool.and_eq_true, Bool.not_eq_true', List.contains_eq_mem,
    decide_eq_true_eq, List.mem_map, List.mem_filter, Prod.exists, exists_and_right,
    exists_eq_right, Started, Set.mem_ofPred_eq]

theorem layered_start (start : List (Nat × Nat)) (level : Nat) (R : Nat → Nat → Prop) (s : Pass) :
    Layered R (Started start level) s 0 ((start.filter fun e => e.2 ≤ level).map Prod.fst) := by
  intro v
  simp only [List.mem_map, List.mem_filter, decide_eq_true_eq, Prod.exists, exists_and_right,
    exists_eq_right, Kit.front_zero, Started, Set.mem_ofPred_eq, true_or, and_true]

open Kit in
theorem pass_marked (start : List (Nat × Nat)) (s : Pass) (level : Nat) :
    Marked adj level { s with visited := seeded how start level }
      (pass adj edgeLevel how start s level)
      (Within (Walkable adj edgeLevel how level) (Started start level) how.maxDepth) := by
  unfold pass
  refine layers_marked edgeLevel how ?_ _ (Nat.zero_le _) (by omega)
    (layered_start start level _ _) ⟨?_, ?_, ?_⟩
  · exact fun v seen => ((seeded_iff how start level v).mp seen).2
  · simp [seeded]
  · simp
  · simp

open Kit in
def ReachedAt (adj : Adjacency) (edgeLevel : List Nat) (how : LevelWalk)
    (start : List (Nat × Nat)) (level v : Nat) : Prop :=
  v ∈ Within (Walkable adj edgeLevel how level) (Started start level) how.maxDepth

/-- The pass at `level` reports `v` unless an earlier one did: a seed only when it is reached
again and the walk counts that. -/
def ToldAt (adj : Adjacency) (edgeLevel : List Nat) (how : LevelWalk)
    (start : List (Nat × Nat)) (level v : Nat) : Prop :=
  ReachedAt adj edgeLevel how start level v ∧ (how.plus = true ∨ v ∉ Started start level)

theorem told_fresh (start : List (Nat × Nat)) (level v : Nat) :
    ToldAt adj edgeLevel how start level v ↔
      ReachedAt adj edgeLevel how start level v ∧ seeded how start level v = false := by
  apply and_congr_right
  intro _
  rw [← Bool.not_eq_true, seeded_iff, not_and_or, Bool.not_eq_false]

/-- After the passes below `n` the reports are the nodes those passes tell, each at its
first pass. -/
theorem passes_reached (start : List (Nat × Nat)) (n : Nat) :
    let done := (List.range n).foldl (pass adj edgeLevel how start)
      ⟨fun _ => false, fun _ => false, [], [], 0⟩
    (∀ v, done.reported v = true ↔ ∃ l < n, ToldAt adj edgeLevel how start l v) ∧
      ∀ p, p ∈ done.reached.map LevelReached.at ↔
        ∃ v, p.1 = adj.id v ∧ p.2 < n ∧ ToldAt adj edgeLevel how start p.2 v ∧
          ∀ l < p.2, ¬ ToldAt adj edgeLevel how start l v := by
  induction n with
  | zero => simp
  | succ n ih =>
    simp only [List.range_succ, List.foldl_append, List.foldl_cons, List.foldl_nil] at ih ⊢
    obtain ⟨reported, reached⟩ := ih
    have marked := @pass_marked adj edgeLevel how start ((List.range n).foldl
      (pass adj edgeLevel how start) ⟨fun _ => false, fun _ => false, [], [], 0⟩) n
    have here := @told_fresh adj edgeLevel how start n
    constructor
    · intro v
      rw [marked.reported, reported]
      constructor
      · rintro (⟨l, lt, mem⟩ | mem)
        · exact ⟨l, by omega, mem⟩
        · exact ⟨n, by omega, (here v).mpr mem⟩
      · rintro ⟨l, lt, mem⟩
        rcases Nat.lt_or_ge l n with lt' | ge
        · exact .inl ⟨l, lt', mem⟩
        · obtain rfl : l = n := by omega
          exact .inr ((here v).mp mem)
    · rintro ⟨id, level⟩
      rw [marked.reached, reached]
      constructor
      · rintro (⟨v, eq, lt, mem, first⟩ | ⟨v, eq, mem, open_, fresh⟩)
        · exact ⟨v, eq, by omega, mem, first⟩
        · cases eq
          refine ⟨v, rfl, by simp, (here v).mpr ⟨mem, open_⟩, fun l lt early => ?_⟩
          have told := (reported v).mpr ⟨l, lt, early⟩
          exact absurd (fresh.symm.trans told) (by simp)
      · rintro ⟨v, eq, lt, mem, first⟩
        simp only at eq lt mem first
        rcases Nat.lt_or_ge level n with lt' | ge
        · exact .inl ⟨v, eq, lt', mem, first⟩
        · obtain rfl : level = n := by omega
          refine .inr ⟨v, by rw [eq], mem.1, ((here v).mp mem).2, ?_⟩
          rw [← Bool.not_eq_true]
          intro told
          obtain ⟨l, lt, early⟩ := (reported v).mp told
          exact first l lt early

theorem addSeed_started (start : List (Nat × Nat)) (seed : NodeId × Nat) (level ix : Nat) :
    ix ∈ Started (addSeed adj how start seed) level ↔ ix ∈ Started start level ∨
      adj.indexOf seed.1 = some ix ∧ inside how ix = true ∧ seed.2 ≤ level := by
  unfold addSeed Started
  split
  · rename_i none
    simp [none]
  · rename_i at' found
    simp only [found, Option.some.injEq, Set.mem_ofPred_eq]
    split
    · rename_i out
      rw [Bool.not_eq_true'] at out
      refine ⟨.inl, fun h => h.elim id ?_⟩
      rintro ⟨rfl, isIn, _⟩
      rw [out] at isIn
      cases isIn
    · rename_i isIn
      rw [Bool.not_eq_true', Bool.not_eq_false] at isIn
      split
      · rename_i has
        simp only [List.any_eq_true, beq_iff_eq, Prod.exists, exists_and_right,
          exists_eq_right] at has
        obtain ⟨l₀, has⟩ := has
        simp only [List.mem_map, Prod.exists]
        constructor
        · rintro ⟨l, ⟨a, b, mem, eq⟩, le⟩
          split at eq
          · rename_i eqA
            subst eqA
            simp only [Prod.mk.injEq] at eq
            obtain ⟨rfl, rfl⟩ := eq
            rcases min_le_iff.mp le with le | le
            · exact .inl ⟨b, mem, le⟩
            · exact .inr ⟨rfl, isIn, le⟩
          · simp only [Prod.mk.injEq] at eq
            obtain ⟨rfl, rfl⟩ := eq
            exact .inl ⟨b, mem, le⟩
        · rintro (⟨l, mem, le⟩ | ⟨rfl, _, le⟩)
          · by_cases eqA : ix = at'
            · subst eqA
              exact ⟨min l seed.2, ⟨ix, l, mem, by simp⟩, min_le_iff.mpr (.inl le)⟩
            · exact ⟨l, ⟨ix, l, mem, by simp [eqA]⟩, le⟩
          · exact ⟨min l₀ seed.2, ⟨_, l₀, has, by simp⟩, min_le_iff.mpr (.inr le)⟩
      · simp only [List.mem_append, List.mem_singleton, Prod.mk.injEq]
        constructor
        · rintro ⟨l, mem | ⟨rfl, rfl⟩, le⟩
          · exact .inl ⟨l, mem, le⟩
          · exact .inr ⟨rfl, isIn, le⟩
        · rintro (⟨l, mem, le⟩ | ⟨rfl, _, le⟩)
          · exact ⟨l, .inl mem, le⟩
          · exact ⟨_, .inr ⟨rfl, rfl⟩, le⟩

theorem startSeeds_started (seeds : List (NodeId × Nat)) {level : Nat} (lt : level < how.levels)
    (ix : Nat) :
    ix ∈ Started (startSeeds adj how seeds) level ↔
      ∃ id l, (id, l) ∈ seeds ∧ adj.indexOf id = some ix ∧ inside how ix = true ∧ l ≤ level := by
  have fold : ∀ (seeds : List (NodeId × Nat)) (start : List (Nat × Nat)),
      ix ∈ Started (seeds.foldl (addSeed adj how) start) level ↔ ix ∈ Started start level ∨
        ∃ id l, (id, l) ∈ seeds ∧ adj.indexOf id = some ix ∧ inside how ix = true ∧
          l ≤ level := by
    intro seeds
    induction seeds with
    | nil => simp
    | cons seed rest ih =>
      intro start
      rw [List.foldl_cons, ih, addSeed_started, or_assoc]
      apply or_congr_right
      simp only [List.mem_cons]
      constructor
      · rintro (h | ⟨id, l, mem, h⟩)
        · exact ⟨seed.1, seed.2, .inl rfl, h⟩
        · exact ⟨id, l, .inr mem, h⟩
      · rintro ⟨id, l, rfl | mem, h⟩
        · exact .inl h
        · exact .inr ⟨id, l, mem, h⟩
  have keep : ix ∈ Started (startSeeds adj how seeds) level ↔
      ix ∈ Started (seeds.foldl (addSeed adj how) []) level := by
    unfold startSeeds Started
    simp only [List.mem_filter, decide_eq_true_eq, Set.mem_ofPred_eq]
    constructor
    · rintro ⟨l, ⟨mem, _⟩, le⟩
      exact ⟨l, mem, le⟩
    · rintro ⟨l, mem, le⟩
      exact ⟨l, ⟨mem, by omega⟩, le⟩
  rw [keep, fold]
  simp [Started]

theorem mem_reached (agree : lengthsAgree adj edgeLevel how = true)
    (seeds : List (NodeId × Nat)) (p : NodeId × Nat) :
    p ∈ (bfsLevels adj edgeLevel how seeds).reached.map LevelReached.at ↔
      ∃ v, p.1 = adj.id v ∧ p.2 < how.levels ∧
        ToldAt adj edgeLevel how (startSeeds adj how seeds) p.2 v ∧
        ∀ l < p.2, ¬ ToldAt adj edgeLevel how (startSeeds adj how seeds) l v := by
  unfold bfsLevels
  rw [if_pos agree]
  exact (passes_reached edgeLevel how _ how.levels).2 p

theorem mem_bfsLevels (agree : lengthsAgree adj edgeLevel how = true) (plus : how.plus = true)
    (seeds : List (NodeId × Nat)) (p : NodeId × Nat) :
    p ∈ (bfsLevels adj edgeLevel how seeds).reached.map LevelReached.at ↔
      ∃ v, p.1 = adj.id v ∧ p.2 < how.levels ∧
        ReachedAt adj edgeLevel how (startSeeds adj how seeds) p.2 v ∧
        ∀ l < p.2, ¬ ReachedAt adj edgeLevel how (startSeeds adj how seeds) l v := by
  rw [mem_reached edgeLevel how agree seeds p]
  simp only [ToldAt, plus, true_or, and_true]

structure Distinct (adj : Adjacency) (s : Pass) : Prop where
  nodup : (s.reached.map LevelReached.id).Nodup
  told : ∀ id ∈ s.reached.map LevelReached.id,
    ∃ v < adj.len, adj.id v = id ∧ s.reported v = true

theorem enter_distinct {level depth node : Nat} {s : Pass} {inc : Inc}
    (lt : inc.other < adj.len) (h : Distinct adj s) :
    Distinct adj (enter adj edgeLevel how level depth node s inc) := by
  simp only [enter]
  split
  · exact ⟨h.nodup, h.told⟩
  · constructor
    · simp only
      split
      · exact h.nodup
      · rename_i fresh
        rw [List.map_append, List.nodup_append]
        refine ⟨h.nodup, by simp, ?_⟩
        intro a ha b hb eq
        simp only [List.map_cons, List.map_nil, List.mem_singleton] at hb
        obtain ⟨v, hv, eqV, told⟩ := h.told a ha
        have := adj.id_injective hv lt (eqV.trans (eq.trans hb))
        exact fresh (this ▸ told)
    · intro id mem
      have keep : ∀ v, s.reported v = true →
          Function.update s.reported inc.other true v = true := by
        intro v told
        by_cases eq : v = inc.other <;> simp [eq, told]
      have old : id ∈ s.reached.map LevelReached.id →
          ∃ v < adj.len, adj.id v = id ∧ Function.update s.reported inc.other true v = true := by
        intro mem
        obtain ⟨v, hv, eq, told⟩ := h.told id mem
        exact ⟨v, hv, eq, keep v told⟩
      simp only at mem ⊢
      split at mem
      · exact old mem
      · rw [List.map_append, List.mem_append] at mem
        rcases mem with mem | mem
        · exact old mem
        · simp only [List.map_cons, List.map_nil, List.mem_singleton] at mem
          exact ⟨inc.other, lt, mem.symm, by simp⟩

theorem layers_distinct (level fuel : Nat) {d : Nat} {frontier : List Nat} {s : Pass}
    (h : Distinct adj s) : Distinct adj (layers adj edgeLevel how level fuel d frontier s) := by
  induction fuel generalizing d frontier s with
  | zero => exact h
  | succ fuel ih =>
    unfold layers
    split
    · exact h
    · apply ih
      refine List.foldlRecOn (motive := Distinct adj) _ _ ⟨h.nodup, h.told⟩ fun s hs node _ => ?_
      exact List.foldlRecOn (motive := Distinct adj) _ _ hs fun s hs inc mem =>
        enter_distinct edgeLevel how (incidences_lt adj mem) hs

theorem bfsLevels_nodup (seeds : List (NodeId × Nat)) :
    ((bfsLevels adj edgeLevel how seeds).reached.map LevelReached.id).Nodup := by
  unfold bfsLevels
  split
  · refine @Distinct.nodup adj _ (List.foldlRecOn (motive := Distinct adj) _ _
      ⟨by simp, by simp⟩ fun s hs level _ => ?_)
    unfold pass
    exact layers_distinct edgeLevel how _ _ ⟨hs.nodup, hs.told⟩
  · exact List.nodup_nil

end Exact

end Glia.Algo
