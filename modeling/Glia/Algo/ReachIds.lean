import Glia.Algo.Indexed
import Glia.Algo.ReachExact

/-! A levelled walk between node ids: what it reports is what the kept edges of its level
join, however the index numbers them. -/
namespace Glia.Algo

open Kit

namespace Adjacency

theorem intern_length {cap : Nat} {ids : List NodeId} {id : NodeId} {r : List NodeId × Nat}
    (h : intern cap ids id = some r) (le : ids.length ≤ cap) :
    r.1.length ≤ cap ∧ id ∈ r.1 := by
  refine ⟨?_, List.mem_of_getElem? (intern_getElem? h)⟩
  unfold intern at h
  split at h
  · cases h
    exact le
  · split at h
    · cases h
    · cases h
      simp
      omega

theorem internAll_length {cap : Nat} {ids out : List NodeId} {new : List NodeId}
    (h : internAll cap ids new = some out) (le : ids.length ≤ cap) :
    out.length ≤ cap ∧ ids <+: out ∧ ∀ x ∈ new, x ∈ out := by
  induction new generalizing ids with
  | nil =>
    cases h
    exact ⟨le, List.prefix_rfl, by simp⟩
  | cons id rest ih =>
    obtain ⟨r, hr, h⟩ := Option.bind_eq_some_iff.mp h
    obtain ⟨le', mem⟩ := intern_length hr le
    obtain ⟨short, grows, all⟩ := ih h le'
    refine ⟨short, (intern_isPrefix hr).trans grows, fun x hx => ?_⟩
    rcases List.mem_cons.mp hx with rfl | hx
    · exact grows.subset mem
    · exact all x hx

theorem keepEdges_length {cap : Nat} {ids : List NodeId} {kept : List Kept} {es : List Edge}
    {out : List NodeId × List Kept} (h : keepEdges cap ids kept es = some out)
    (le : ids.length ≤ cap) (le' : kept.length ≤ cap) :
    out.1.length ≤ cap ∧ kept.length + es.length ≤ cap ∧ ids <+: out.1 ∧
      ∀ e ∈ es, e.fromId ∈ out.1 ∧ e.toId ∈ out.1 := by
  induction es generalizing ids kept with
  | nil =>
    cases h
    exact ⟨le, by simpa using le', List.prefix_rfl, by simp⟩
  | cons e rest ih =>
    unfold keepEdges at h
    split at h
    · cases h
    · rename_i lt
      obtain ⟨a, ha, h⟩ := Option.bind_eq_some_iff.mp h
      obtain ⟨b, hb, h⟩ := Option.bind_eq_some_iff.mp h
      obtain ⟨leA, memA⟩ := intern_length ha le
      obtain ⟨leB, memB⟩ := intern_length hb leA
      obtain ⟨short, few, grows, all⟩ := ih h leB (by simp; omega)
      refine ⟨short, by simp at few ⊢; omega,
        ((intern_isPrefix ha).trans (intern_isPrefix hb)).trans grows, fun x hx => ?_⟩
      rcases List.mem_cons.mp hx with rfl | hx
      · exact ⟨grows.subset ((intern_isPrefix hb).subset memA), grows.subset memB⟩
      · exact all x hx

theorem build_unfit {g : GraphSource} {keep : CategorySet} {cap : Nat}
    (unfit : ¬ g.Fits keep cap) : buildCapped g keep cap = empty := by
  unfold buildCapped
  split
  · rfl
  · rename_i ids hids
    split
    · rfl
    · rename_i out hout
      refine absurd ?_ unfit
      obtain ⟨le, _, nodes⟩ := internAll_length hids (Nat.zero_le _)
      obtain ⟨short, few, grows, ends⟩ := keepEdges_length hout le (Nat.zero_le _)
      refine ⟨le_trans (Finset.card_le_card (t := out.1.toFinset) ?_)
        ((List.toFinset_card_le _).trans short), by simpa using few⟩
      intro x hx
      simp only [GraphSource.indexed, List.mem_toFinset, List.mem_append, List.mem_flatMap,
        List.mem_cons, List.not_mem_nil, or_false] at hx ⊢
      rcases hx with hx | ⟨e, he, rfl | rfl⟩
      · exact grows.subset (nodes x hx)
      · exact (ends e he).1
      · exact (ends e he).2

end Adjacency

section Ids

variable (g : GraphSource) (keep : CategorySet) (edgeLevel : List Nat)

def Joins (level : Nat) (a b : NodeId) : Prop :=
  ∃ j e, (g.keptEdges keep)[j]? = some e ∧ e.fromId = a ∧ e.toId = b ∧
    edgeLevel.getD j never ≤ level

def JoinsAlong (walk : Walk) (level : Nat) (a b : NodeId) : Prop :=
  match walk with
  | .forward => Joins g keep edgeLevel level a b
  | .backward => Joins g keep edgeLevel level b a
  | .both => Joins g keep edgeLevel level a b ∨ Joins g keep edgeLevel level b a

section Fits

variable {g keep edgeLevel} {cap : Nat} (fits : g.Fits keep cap)
include fits

theorem kept_iff (u v j : Nat) (c : EdgeCategoryId) :
    (Adjacency.buildCapped g keep cap).kept[j]? = some ⟨u, v, c⟩ ↔
      ∃ e, (g.keptEdges keep)[j]? = some e ∧ e.category = c ∧
        (Adjacency.buildCapped g keep cap).ids[u]? = some e.fromId ∧
        (Adjacency.buildCapped g keep cap).ids[v]? = some e.toId := by
  obtain ⟨holds, _⟩ := Adjacency.build_holds fits
  generalize Adjacency.buildCapped g keep cap = adj at holds ⊢
  have unique : ∀ {i j : Nat} {x : NodeId}, adj.ids[i]? = some x → adj.ids[j]? = some x → i = j := by
    intro i j x hi hj
    exact Option.some.inj (((adj.indexOf_eq_some x i).mpr hi).symm.trans
      ((adj.indexOf_eq_some x j).mpr hj))
  constructor
  · intro h
    obtain ⟨lt, _⟩ := List.getElem?_eq_some_iff.mp h
    obtain ⟨lt', same⟩ := List.forall₂_iff_get.mp holds
    have lt'' : j < (g.keptEdges keep).length := lt' ▸ lt
    have at' := same j lt lt''
    simp only [List.get_eq_getElem] at at'
    rw [List.getElem?_eq_getElem lt, Option.some.injEq] at h
    rw [h] at at'
    exact ⟨_, List.getElem?_eq_getElem lt'', at'.2.2.symm, at'.1, at'.2.1⟩
  · rintro ⟨e, he, rfl, src, dst⟩
    obtain ⟨lt, _⟩ := List.getElem?_eq_some_iff.mp he
    obtain ⟨lt', same⟩ := List.forall₂_iff_get.mp holds
    have lt'' : j < adj.kept.length := lt'.symm ▸ lt
    have at' := same j lt'' lt
    simp only [List.get_eq_getElem] at at'
    rw [List.getElem?_eq_getElem lt, Option.some.injEq] at he
    rw [he] at at'
    rw [List.getElem?_eq_getElem lt'']
    congr 1
    have hs := unique at'.1 src
    have hd := unique at'.2.1 dst
    have hc := at'.2.2
    cases eq : adj.kept[j] with
    | mk s d c =>
      rw [eq] at hs hd hc
      simp only at hs hd hc
      rw [hs, hd, hc]

theorem walkable_iff {how : LevelWalk} (unmasked : how.within = none) (oneWay : how.walk ≠ .both)
    (level u v : Nat) :
    Walkable (Adjacency.buildCapped g keep cap) edgeLevel how level u v ↔
      u < (Adjacency.buildCapped g keep cap).len ∧ v < (Adjacency.buildCapped g keep cap).len ∧
        JoinsAlong g keep edgeLevel how.walk level ((Adjacency.buildCapped g keep cap).id u)
          ((Adjacency.buildCapped g keep cap).id v) := by
  have kept := kept_iff fits
  generalize Adjacency.buildCapped g keep cap = adj at kept ⊢
  have has : ∀ {i : Nat} {x : NodeId}, adj.ids[i]? = some x ↔ i < adj.len ∧ adj.id i = x := by
    intro i x
    constructor
    · intro h
      exact ⟨(List.getElem?_eq_some_iff.mp h).1, by
        rw [Adjacency.id, List.getD_eq_getElem?_getD, h, Option.getD_some]⟩
    · rintro ⟨lt, rfl⟩
      rw [Adjacency.id, List.getD_eq_getElem?_getD, List.getElem?_eq_getElem lt, Option.getD_some]
  unfold Walkable inside
  rw [unmasked]
  simp only [and_true]
  cases dir : how.walk with
  | both => exact absurd dir oneWay
  | forward =>
    simp only [incidences, Adjacency.mem_outgoing, kept, has, JoinsAlong, Joins]
    constructor
    · rintro ⟨inc, ⟨e, he, _, src, dst⟩, rfl, low⟩
      exact ⟨src.1, dst.1, _, e, he, src.2.symm, dst.2.symm, low⟩
    · rintro ⟨ltU, ltV, j, e, he, src, dst, low⟩
      exact ⟨⟨j, v, e.category⟩, ⟨e, he, rfl, ⟨ltU, src.symm⟩, ltV, dst.symm⟩, rfl, low⟩
  | backward =>
    simp only [incidences, Adjacency.mem_incoming, kept, has, JoinsAlong, Joins]
    constructor
    · rintro ⟨inc, ⟨e, he, _, src, dst⟩, rfl, low⟩
      exact ⟨dst.1, src.1, _, e, he, src.2.symm, dst.2.symm, low⟩
    · rintro ⟨ltU, ltV, j, e, he, src, dst, low⟩
      exact ⟨⟨j, v, e.category⟩, ⟨e, he, rfl, ⟨ltV, src.symm⟩, ltU, dst.symm⟩, rfl, low⟩

theorem joinsAlong_indexed {walk : Walk} {level : Nat} {a b : NodeId}
    (h : JoinsAlong g keep edgeLevel walk level a b) :
    (∃ u < (Adjacency.buildCapped g keep cap).len, (Adjacency.buildCapped g keep cap).id u = a) ∧
      ∃ v < (Adjacency.buildCapped g keep cap).len,
        (Adjacency.buildCapped g keep cap).id v = b := by
  obtain ⟨_, mem⟩ := Adjacency.build_holds fits
  generalize Adjacency.buildCapped g keep cap = adj at mem ⊢
  have ends : ∀ {l a b}, Joins g keep edgeLevel l a b →
      (∃ u < adj.len, adj.id u = a) ∧ ∃ v < adj.len, adj.id v = b := by
    rintro l a b ⟨j, e, he, rfl, rfl, _⟩
    have indexed : ∀ x, x = e.fromId ∨ x = e.toId → ∃ u < adj.len, adj.id u = x := by
      intro x hx
      have : x ∈ adj.ids := by
        rw [mem]
        simp only [GraphSource.indexed, List.mem_toFinset, List.mem_append, List.mem_flatMap]
        exact .inr ⟨e, List.mem_of_getElem? he, by simpa using hx⟩
      obtain ⟨u, lt, eq⟩ := List.getElem_of_mem this
      refine ⟨u, lt, ?_⟩
      rw [Adjacency.id, List.getD_eq_getElem?_getD, List.getElem?_eq_getElem lt, Option.getD_some, eq]
    exact ⟨indexed _ (.inl rfl), indexed _ (.inr rfl)⟩
  cases walk with
  | forward => exact ends h
  | backward => exact (ends h).symm
  | both => exact h.elim ends fun h => (ends h).symm

theorem hops_iff {how : LevelWalk} (unmasked : how.within = none) (oneWay : how.walk ≠ .both)
    (level k : Nat) {u : Nat} (lt : u < (Adjacency.buildCapped g keep cap).len) (y : NodeId) :
    (∃ v < (Adjacency.buildCapped g keep cap).len, (Adjacency.buildCapped g keep cap).id v = y ∧
      Hops (Walkable (Adjacency.buildCapped g keep cap) edgeLevel how level) k u v) ↔
    Hops (JoinsAlong g keep edgeLevel how.walk level) k
      ((Adjacency.buildCapped g keep cap).id u) y := by
  induction k generalizing y with
  | zero =>
    constructor
    · rintro ⟨v, _, rfl, rfl⟩
      rfl
    · intro h
      exact ⟨u, lt, h, rfl⟩
  | succ k ih =>
    constructor
    · rintro ⟨v, ltV, rfl, w, walk, step⟩
      have step' := (walkable_iff fits unmasked oneWay level w v).mp step
      exact ⟨_, (ih _).mp ⟨w, step'.1, rfl, walk⟩, step'.2.2⟩
    · rintro ⟨z, walk, step⟩
      obtain ⟨w, ltW, rfl, inner⟩ := (ih z).mpr walk
      obtain ⟨_, v, ltV, rfl⟩ := joinsAlong_indexed fits step
      exact ⟨v, ltV, rfl, w, inner,
        (walkable_iff fits unmasked oneWay level w v).mpr ⟨ltW, ltV, step⟩⟩

def ReachesIds (g : GraphSource) (keep : CategorySet) (edgeLevel : List Nat) (how : LevelWalk)
    (seeds : List (NodeId × Nat)) (level : Nat) (y : NodeId) : Prop :=
  ∃ k, 1 ≤ k ∧ k ≤ how.maxDepth ∧ ∃ s l, (s, l) ∈ seeds ∧ l ≤ level ∧
    Hops (JoinsAlong g keep edgeLevel how.walk level) k s y

theorem reachedAt_iff {how : LevelWalk} (unmasked : how.within = none)
    (oneWay : how.walk ≠ .both) (seeds : List (NodeId × Nat)) {level : Nat}
    (low : level < how.levels) (y : NodeId) :
    (∃ v, (Adjacency.buildCapped g keep cap).id v = y ∧
      ReachedAt (Adjacency.buildCapped g keep cap) edgeLevel how
        (startSeeds (Adjacency.buildCapped g keep cap) how seeds) level v) ↔
      ReachesIds g keep edgeLevel how seeds level y := by
  have inMask : ∀ ix, inside how ix = true := by
    intro ix
    rw [inside, unmasked]
  simp only [ReachedAt, mem_within_iff]
  constructor
  · rintro ⟨v, rfl, k, pos, le, u, started, walk⟩
    obtain ⟨s, l, mem, at', _, le'⟩ := (startSeeds_started how seeds low u).mp started
    have lt := Adjacency.indexOf_lt _ at'
    refine ⟨k, pos, le, s, l, mem, le', ?_⟩
    rw [← Adjacency.id_of_indexOf _ at']
    refine (hops_iff fits unmasked oneWay level k lt _).mp ⟨v, ?_, rfl, walk⟩
    obtain ⟨j, rfl⟩ := Nat.exists_eq_add_of_le' pos
    obtain ⟨w, _, step⟩ := walk
    exact walkable_lt edgeLevel how step
  · rintro ⟨k, pos, le, s, l, mem, le', walk⟩
    obtain ⟨j, rfl⟩ := Nat.exists_eq_add_of_le' pos
    obtain ⟨z, first, _⟩ := (hops_succ_left _ j s y).mp walk
    obtain ⟨⟨u, lt, rfl⟩, _⟩ := joinsAlong_indexed fits first
    obtain ⟨v, _, rfl, inner⟩ := (hops_iff fits unmasked oneWay level _ lt y).mpr walk
    exact ⟨v, rfl, _, pos, le, u, (startSeeds_started how seeds low u).mpr
      ⟨_, l, mem, Adjacency.indexOf_id _ lt, inMask u, le'⟩, inner⟩

/-- A walk within its limit reports every id it reaches, at the first level that does: a seed
only when it counts the seeds it comes back to. -/
theorem mem_reached_ids {how : LevelWalk} (unmasked : how.within = none)
    (oneWay : how.walk ≠ .both)
    (agree : lengthsAgree (Adjacency.buildCapped g keep cap) edgeLevel how = true)
    (seeds : List (NodeId × Nat)) (y : NodeId) (told : how.plus = true ∨ ∀ l, (y, l) ∉ seeds)
    (level : Nat) :
    (y, level) ∈ (bfsLevels (Adjacency.buildCapped g keep cap) edgeLevel how seeds).reached.map
        LevelReached.at ↔
      level < how.levels ∧ ReachesIds g keep edgeLevel how seeds level y ∧
        ∀ l < level, ¬ ReachesIds g keep edgeLevel how seeds l y := by
  have iff := @reachedAt_iff g keep edgeLevel cap fits how unmasked oneWay seeds
  have counts : ∀ l v, l < how.levels → (Adjacency.buildCapped g keep cap).id v = y →
      (ToldAt (Adjacency.buildCapped g keep cap) edgeLevel how
          (startSeeds (Adjacency.buildCapped g keep cap) how seeds) l v ↔
        ReachedAt (Adjacency.buildCapped g keep cap) edgeLevel how
          (startSeeds (Adjacency.buildCapped g keep cap) how seeds) l v) := by
    intro l v low eq
    refine and_iff_left_of_imp fun _ => told.imp_right fun fresh started => ?_
    obtain ⟨s, l', mem, at', _⟩ := (startSeeds_started how seeds low v).mp started
    rw [Adjacency.id_of_indexOf _ at'] at eq
    exact fresh l' (eq ▸ mem)
  rw [mem_reached edgeLevel how agree seeds (y, level)]
  constructor
  · rintro ⟨v, eq, low, reached, first⟩
    refine ⟨low, (iff low _).mp ⟨v, eq.symm, (counts level v low eq.symm).mp reached⟩,
      fun l lt reaches => ?_⟩
    obtain ⟨w, eqW, reached'⟩ := (iff (lt.trans low) _).mpr reaches
    have same : w = v := Adjacency.id_injective _ (within_indexes edgeLevel how _ _ _ reached')
      (within_indexes edgeLevel how _ _ _ reached.1) (eqW.trans eq)
    exact first l lt ((counts l v (lt.trans low) eq.symm).mpr (same ▸ reached'))
  · rintro ⟨low, reaches, first⟩
    obtain ⟨v, eq, reached⟩ := (iff low y).mpr reaches
    refine ⟨v, eq.symm, low, (counts level v low eq).mpr reached, fun l lt reached' => ?_⟩
    exact first l lt ((iff (lt.trans low) y).mp
      ⟨v, eq, (counts l v (lt.trans low) eq).mp reached'⟩)

theorem mem_bfsLevels_ids {how : LevelWalk} (unmasked : how.within = none)
    (oneWay : how.walk ≠ .both) (plus : how.plus = true)
    (agree : lengthsAgree (Adjacency.buildCapped g keep cap) edgeLevel how = true)
    (seeds : List (NodeId × Nat)) (y : NodeId) (level : Nat) :
    (y, level) ∈ (bfsLevels (Adjacency.buildCapped g keep cap) edgeLevel how seeds).reached.map
        LevelReached.at ↔
      level < how.levels ∧ ReachesIds g keep edgeLevel how seeds level y ∧
        ∀ l < level, ¬ ReachesIds g keep edgeLevel how seeds l y :=
  mem_reached_ids fits unmasked oneWay agree seeds y (.inl plus) level

/-- With a depth bound past the index limit every number of hops is within it. -/
theorem reachesIds_unbounded {how : LevelWalk} (unmasked : how.within = none)
    (oneWay : how.walk ≠ .both) (deep : cap ≤ how.maxDepth) (seeds : List (NodeId × Nat))
    (level : Nat) (y : NodeId) :
    ReachesIds g keep edgeLevel how seeds level y ↔
      ∃ k, 1 ≤ k ∧ ∃ s l, (s, l) ∈ seeds ∧ l ≤ level ∧
        Hops (JoinsAlong g keep edgeLevel how.walk level) k s y := by
  constructor
  · rintro ⟨k, pos, _, rest⟩
    exact ⟨k, pos, rest⟩
  · rintro ⟨k, pos, s, l, mem, le, walk⟩
    obtain ⟨j, rfl⟩ := Nat.exists_eq_add_of_le' pos
    obtain ⟨z, first, _⟩ := (hops_succ_left _ j s y).mp walk
    obtain ⟨⟨u, lt, rfl⟩, _⟩ := joinsAlong_indexed fits first
    obtain ⟨v, _, rfl, inner⟩ := (hops_iff fits unmasked oneWay level _ lt y).mpr walk
    have few : (indexes (Adjacency.buildCapped g keep cap)).ncard ≤ how.maxDepth := by
      rw [ncard_indexes]
      have := (Adjacency.build_holds fits).2
      refine le_trans ?_ (fits.1.trans deep)
      rw [Adjacency.len, ← List.toFinset_card_of_nodup (Adjacency.buildCapped g keep cap).ids_nodup]
      exact Finset.card_le_card fun x hx => (this x).mp (List.mem_toFinset.mp hx)
    have within := mem_within_of_card _ {u}
      (indexes_finite (Adjacency.buildCapped g keep cap))
      (within_indexes edgeLevel how level {u}) few
      ((mem_within_iff _ {u} (j + 1) v).mpr ⟨j + 1, pos, le_rfl, u, rfl, inner⟩)
    obtain ⟨k, pos', short, u', rfl, walk'⟩ := (mem_within_iff _ _ _ _).mp within
    have ltV := within_indexes edgeLevel how level _ _ within
    exact ⟨k, pos', short, _, l, mem, le, (hops_iff fits unmasked oneWay level k lt _).mp
      ⟨v, ltV, rfl, walk'⟩⟩

end Fits

end Ids

end Glia.Algo
