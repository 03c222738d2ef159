import Glia.Algo.ReachIds
import Glia.Rules.Closure

/-! What the closure builtins walk: a set's index reports exactly the pairs its edges join,
each at the least tier whose edges join it. -/
namespace Glia.Rules

open Algo Kit

def Link (src : FactSource) (cats : CatSet) (level : Tier) (a b : NodeId) : Prop :=
  ∃ i e, src.edges[i]? = some e ∧ (keepOf src cats).contains e.category = true ∧
    e.fromId = a ∧ e.toId = b ∧ src.edgeTier i e ≤ level

/-- A walk of at least one edge of tier at most `level`, of no more than `depth`. -/
def Reaches (src : FactSource) (cats : CatSet) (depth : Option Nat) (level : Tier)
    (x y : NodeId) : Prop :=
  ∃ k, 1 ≤ k ∧ (∀ d, depth = some d → k ≤ d) ∧ Hops (Link src cats level) k x y

def Spreads (src : FactSource) (cats : CatSet) (depth : Option Nat) (backward : Bool)
    (seeds : List (NodeId × Tier)) (level : Tier) (y : NodeId) : Prop :=
  ∃ s t, (s, t) ∈ seeds ∧ t ≤ level ∧
    if backward then Reaches src cats depth level y s else Reaches src cats depth level s y

theorem Link.mono {src : FactSource} {cats : CatSet} {l l' : Tier} (le : l ≤ l') {a b : NodeId}
    (h : Link src cats l a b) : Link src cats l' a b := by
  obtain ⟨i, e, mem, keep, rfl, rfl, low⟩ := h
  exact ⟨i, e, mem, keep, rfl, rfl, low.trans le⟩

theorem tierOfLevel_eq_some (l : Nat) (t : Tier) : tierOfLevel l = some t ↔ l = t.level := by
  constructor
  · intro h
    unfold tierOfLevel at h
    split at h <;> cases h <;> rfl
  · rintro rfl
    cases t <;> rfl

theorem tier_level_lt (t : Tier) : t.level < 3 := by cases t <;> decide

theorem exists_tier_of_lt {l : Nat} (lt : l < 3) : ∃ t : Tier, t.level = l := by
  interval_cases l
  · exact ⟨.fact, rfl⟩
  · exact ⟨.derived, rfl⟩
  · exact ⟨.heuristic, rfl⟩

theorem mem_rowsOf (walk : LevelBfs) (y : NodeId) (t : Tier) :
    (y, t) ∈ rowsOf walk ↔ (y, t.level) ∈ walk.reached.map LevelReached.at := by
  unfold rowsOf
  simp only [List.mem_filterMap, Option.map_eq_some_iff, tierOfLevel_eq_some, List.mem_map,
    Prod.mk.injEq, LevelReached.at]
  constructor
  · rintro ⟨r, mem, t', level, rfl, rfl⟩
    exact ⟨r, mem, rfl, level⟩
  · rintro ⟨r, mem, rfl, level⟩
    exact ⟨r, mem, t, level, rfl, rfl⟩

section Source

variable (src : FactSource) (cats : CatSet)

def setIndex : CatIndex := CatIndex.build src.toGraphSource (edgeTiers src) (keepOf src cats)

/-- The set's nodes and edges are within the index limit. -/
def Indexable (src : FactSource) (cats : CatSet) : Prop :=
  src.toGraphSource.Fits (keepOf src cats) indexLimit

theorem keptWithOrdinal_fst (g : GraphSource) (keep : CategorySet) :
    (keptWithOrdinal g keep).map Prod.fst = g.keptEdges keep := by
  unfold keptWithOrdinal GraphSource.keptEdges
  conv_rhs => rw [← List.zipIdx_map_fst 0 g.edges]
  rw [List.filter_map]
  rfl

theorem kept_level_iff (j l : Nat) (e : Edge) :
    ((src.keptEdges (keepOf src cats))[j]? = some e ∧
      (setIndex src cats).keptLevel.getD j never = l) ↔
      ∃ i, (keptWithOrdinal src.toGraphSource (keepOf src cats))[j]? = some (e, i) ∧
        ((edgeTiers src)[i]?.map Tier.level).getD never = l := by
  rw [← keptWithOrdinal_fst, List.getElem?_map]
  simp only [setIndex, CatIndex.build, List.getD_eq_getElem?_getD, List.getElem?_map]
  cases (keptWithOrdinal src.toGraphSource (keepOf src cats))[j]? with
  | none => simp
  | some p =>
    obtain ⟨e', i⟩ := p
    simp only [Option.map_some, Option.some.injEq, Option.getD_some, Prod.mk.injEq]
    constructor
    · rintro ⟨rfl, h⟩
      exact ⟨i, ⟨rfl, rfl⟩, h⟩
    · rintro ⟨i', ⟨rfl, rfl⟩, h⟩
      exact ⟨rfl, h⟩

theorem edgeTiers_getElem? (i : Nat) :
    (edgeTiers src)[i]? = (src.edges[i]?).map fun e => src.edgeTier i e := by
  unfold edgeTiers
  rw [List.getElem?_map, List.getElem?_zipIdx, Option.map_map]
  cases src.edges[i]? <;> simp

theorem joins_iff (level : Tier) (a b : NodeId) :
    Joins src.toGraphSource (keepOf src cats) (setIndex src cats).keptLevel level.level a b ↔
      Link src cats level a b := by
  constructor
  · rintro ⟨j, e, mem, rfl, rfl, low⟩
    obtain ⟨i, at', tier⟩ := (kept_level_iff src cats j _ e).mp ⟨mem, rfl⟩
    have kept := List.mem_of_getElem? at'
    simp only [keptWithOrdinal, List.mem_filter, List.mem_zipIdx_iff_getElem?] at kept
    refine ⟨i, e, kept.1, kept.2, rfl, rfl, ?_⟩
    rw [edgeTiers_getElem?, kept.1] at tier
    simp only [Option.map_some, Option.getD_some] at tier
    rw [Tier.le_iff_level, tier]
    exact low
  · rintro ⟨i, e, mem, keep, rfl, rfl, low⟩
    have kept : (e, i) ∈ keptWithOrdinal src.toGraphSource (keepOf src cats) := by
      simp only [keptWithOrdinal, List.mem_filter, List.mem_zipIdx_iff_getElem?]
      exact ⟨mem, keep⟩
    obtain ⟨j, at'⟩ := List.mem_iff_getElem?.mp kept
    have both := (kept_level_iff src cats j (src.edgeTier i e).level e).mpr ⟨i, at', by
      rw [edgeTiers_getElem?, mem]
      rfl⟩
    exact ⟨j, e, both.1, rfl, rfl, both.2 ▸ low⟩

theorem joinsAlong_iff (backward : Bool) (level : Tier) (a b : NodeId) :
    JoinsAlong src.toGraphSource (keepOf src cats) (setIndex src cats).keptLevel
      (direction backward) level.level a b ↔
      if backward then Link src cats level b a else Link src cats level a b := by
  cases backward
  · exact joins_iff src cats level a b
  · exact joins_iff src cats level b a

theorem hops_joinsAlong (backward : Bool) (level : Tier) (k : Nat) (s y : NodeId) :
    Hops (JoinsAlong src.toGraphSource (keepOf src cats) (setIndex src cats).keptLevel
      (direction backward) level.level) k s y ↔
      if backward then Hops (Link src cats level) k y s else Hops (Link src cats level) k s y := by
  have same : JoinsAlong src.toGraphSource (keepOf src cats) (setIndex src cats).keptLevel
      (direction backward) level.level =
      if backward then Function.swap (Link src cats level) else Link src cats level := by
    funext a b
    rw [joinsAlong_iff]
    cases backward <;> rfl
  rw [same]
  cases backward
  · rfl
  · exact hops_swap (Link src cats level) k s y

variable {src cats}

theorem setIndex_adj : (setIndex src cats).adj =
    Adjacency.buildCapped src.toGraphSource (keepOf src cats) indexLimit := rfl

theorem keptLevel_length :
    (setIndex src cats).keptLevel.length = (src.keptEdges (keepOf src cats)).length := by
  rw [← keptWithOrdinal_fst]
  simp [setIndex, CatIndex.build]

theorem edgeTiers_length : (edgeTiers src).length = src.edges.length := by
  simp [edgeTiers]

theorem setIndex_ok (fits : Indexable src cats) : (setIndex src cats).ok = true := by
  have holds := (Adjacency.build_holds fits).1.length_eq
  have level := @keptLevel_length src cats
  simp only [setIndex, CatIndex.build, Adjacency.keptEdges, Bool.and_eq_true, beq_iff_eq] at level ⊢
  exact ⟨edgeTiers_length, level.trans holds.symm⟩

theorem mem_walkRows (fits : Indexable src cats) (seeds : List (NodeId × Tier)) (backward : Bool)
    (depth : Option Nat) (y : NodeId) (t : Tier) :
    (y, t) ∈ Closure.walkRows (setIndex src cats) (seeds.map fun e => (e.1, e.2.level)) backward
        depth ↔
      IsLeast {level | Spreads src cats depth backward seeds level y} t := by
  let how : LevelWalk := { LevelWalk.new (direction backward) 3 with
    plus := true, maxDepth := depth.getD usizeMax }
  have oneWay : how.walk ≠ .both := by
    show direction backward ≠ .both
    cases backward <;> decide
  have agree : lengthsAgree (Adjacency.buildCapped src.toGraphSource (keepOf src cats) indexLimit)
      (setIndex src cats).keptLevel how = true := by
    have holds := (Adjacency.build_holds fits).1.length_eq
    have level := @keptLevel_length src cats
    simp only [lengthsAgree, how, LevelWalk.new, Adjacency.keptEdges, Bool.and_true, beq_iff_eq]
    exact level.trans holds.symm
  have reaches : ∀ level : Tier, ReachesIds src.toGraphSource (keepOf src cats)
      (setIndex src cats).keptLevel how (seeds.map fun e => (e.1, e.2.level)) level.level y ↔
      Spreads src cats depth backward seeds level y := by
    intro level
    have unfolded : (∃ k, 1 ≤ k ∧ (∀ d, depth = some d → k ≤ d) ∧ ∃ s l,
        (s, l) ∈ seeds.map (fun e => (e.1, e.2.level)) ∧ l ≤ level.level ∧
        Hops (JoinsAlong src.toGraphSource (keepOf src cats) (setIndex src cats).keptLevel how.walk
          level.level) k s y) ↔ Spreads src cats depth backward seeds level y := by
      simp only [how, LevelWalk.new, hops_joinsAlong, Spreads, Reaches, List.mem_map, Prod.exists,
        Prod.mk.injEq]
      constructor
      · rintro ⟨k, pos, short, s, l, ⟨s', t', mem, rfl, rfl⟩, le, walk⟩
        refine ⟨s', t', mem, le, ?_⟩
        cases backward
        · exact ⟨k, pos, short, walk⟩
        · exact ⟨k, pos, short, walk⟩
      · rintro ⟨s, t, mem, le, walk⟩
        cases backward
        · obtain ⟨k, pos, short, walk⟩ := walk
          exact ⟨k, pos, short, s, _, ⟨s, t, mem, rfl, rfl⟩, le, walk⟩
        · obtain ⟨k, pos, short, walk⟩ := walk
          exact ⟨k, pos, short, s, _, ⟨s, t, mem, rfl, rfl⟩, le, walk⟩
    rw [← unfolded]
    cases depth with
    | none =>
      rw [reachesIds_unbounded fits rfl oneWay (by
        show indexLimit ≤ usizeMax
        decide)]
      simp only [reduceCtorEq, false_implies, implies_true, true_and]
    | some d =>
      simp only [ReachesIds, how, Option.getD_some, Option.some.injEq, forall_eq']
  unfold Closure.walkRows
  rw [if_pos (setIndex_ok fits), mem_rowsOf]
  unfold CatIndex.levelled
  rw [setIndex_adj, mem_bfsLevels_ids fits rfl oneWay rfl agree, reaches]
  constructor
  · rintro ⟨_, spreads, first⟩
    refine ⟨spreads, fun l mem => ?_⟩
    by_contra lt
    exact first l.level (not_le.mp lt) ((reaches l).mpr mem)
  · rintro ⟨spreads, least⟩
    refine ⟨(tier_level_lt t), spreads, fun l lt mem => ?_⟩
    obtain ⟨l, rfl⟩ := exists_tier_of_lt (lt.trans (tier_level_lt t))
    exact absurd (least ((reaches l).mp mem)) (not_le.mpr lt)

theorem walkRows_unfit (unfit : ¬ Indexable src cats) (seeds : List (NodeId × Nat)) (backward : Bool)
    (depth : Option Nat) : Closure.walkRows (setIndex src cats) seeds backward depth = [] := by
  unfold Closure.walkRows
  split
  · rw [List.eq_nil_iff_forall_not_mem]
    rintro ⟨y, t⟩ mem
    rw [mem_rowsOf] at mem
    unfold CatIndex.levelled at mem
    rw [setIndex_adj, Adjacency.build_unfit unfit] at mem
    by_cases agree : lengthsAgree Adjacency.empty (setIndex src cats).keptLevel
        { LevelWalk.new (direction backward) 3 with
          plus := true, maxDepth := depth.getD usizeMax } = true
    · rw [mem_bfsLevels _ _ agree rfl] at mem
      obtain ⟨v, _, _, reached, _⟩ := mem
      have := within_indexes _ _ _ _ _ reached
      exact absurd this (Nat.not_lt_zero v)
    · unfold bfsLevels at mem
      rw [if_neg agree] at mem
      cases mem
  · rfl

theorem rowsOf_sublist (reached : List LevelReached) :
    ((reached.filterMap fun r => (tierOfLevel r.level).map fun t => (r.id, t)).map
      Prod.fst).Sublist (reached.map LevelReached.id) := by
  induction reached with
  | nil => exact List.Sublist.refl _
  | cons r rest ih =>
    rw [List.filterMap_cons, List.map_cons]
    cases tierOfLevel r.level with
    | none => exact ih.cons _
    | some t => exact ih.cons_cons _

theorem walkRows_nodup (seeds : List (NodeId × Nat)) (backward : Bool) (depth : Option Nat) :
    ((Closure.walkRows (setIndex src cats) seeds backward depth).map Prod.fst).Nodup := by
  unfold Closure.walkRows
  split
  · exact (bfsLevels_nodup _ _ _).sublist (rowsOf_sublist _)
  · exact List.nodup_nil

theorem link_indexed {level : Tier} {a b : NodeId} (h : Link src cats level a b) :
    a ∈ src.toGraphSource.indexed (keepOf src cats) ∧
      b ∈ src.toGraphSource.indexed (keepOf src cats) := by
  obtain ⟨i, e, mem, keep, rfl, rfl, _⟩ := h
  have kept : e ∈ src.keptEdges (keepOf src cats) :=
    List.mem_filter.mpr ⟨List.mem_of_getElem? mem, keep⟩
  simp only [GraphSource.indexed, List.mem_toFinset, List.mem_append, List.mem_flatMap]
  exact ⟨.inr ⟨e, kept, by simp⟩, .inr ⟨e, kept, by simp⟩⟩

theorem reaches_limit (fits : Indexable src cats) (level : Tier) (x y : NodeId) :
    Reaches src cats (some indexLimit) level x y ↔ Reaches src cats none level x y := by
  constructor
  · rintro ⟨k, pos, _, walk⟩
    exact ⟨k, pos, by simp, walk⟩
  · rintro ⟨k, pos, _, walk⟩
    have sub : ∀ n, Kit.Within (Link src cats level) {x} n ⊆
        (src.toGraphSource.indexed (keepOf src cats) : Set NodeId) := by
      intro n b mem
      cases n with
      | zero => cases mem
      | succ n =>
        obtain ⟨a, _, step⟩ := mem
        exact (link_indexed step).2
    have few : (src.toGraphSource.indexed (keepOf src cats) : Set NodeId).ncard ≤ indexLimit := by
      rw [Set.ncard_coe_finset]
      exact fits.1
    have within := mem_within_of_card _ {x} (Finset.finite_toSet _) sub few
      ((mem_within_iff _ {x} k y).mpr ⟨k, pos, le_rfl, x, rfl, walk⟩)
    obtain ⟨j, pos', le, _, rfl, walk'⟩ := (mem_within_iff _ _ _ _).mp within
    exact ⟨j, pos', by simpa using le, walk'⟩

theorem reaches_congr (fits : Indexable src cats) {depth depth' : Option Nat}
    (same : depth.getD indexLimit = depth'.getD indexLimit) (level : Tier) (x y : NodeId) :
    Reaches src cats depth level x y ↔ Reaches src cats depth' level x y := by
  have limit : ∀ d : Option Nat, Reaches src cats d level x y ↔
      Reaches src cats (some (d.getD indexLimit)) level x y := by
    intro d
    cases d with
    | none => exact (reaches_limit fits level x y).symm
    | some d => rfl
  rw [limit depth, limit depth', same]

variable (src cats)

/-- The pairs of the set, each at the least tier whose edges join it. -/
def ReachRow (depth : Option Nat) (x y : NodeId) (t : Tier) : Prop :=
  Indexable src cats ∧ IsLeast {level | Reaches src cats depth level x y} t

def SpreadRow (depth : Option Nat) (backward : Bool) (seeds : List (NodeId × Tier)) (y : NodeId)
    (t : Tier) : Prop :=
  Indexable src cats ∧ IsLeast {level | Spreads src cats depth backward seeds level y} t

variable {src cats}

theorem mem_walkRows_iff (seeds : List (NodeId × Tier)) (backward : Bool) (depth : Option Nat)
    (y : NodeId) (t : Tier) :
    (y, t) ∈ Closure.walkRows (setIndex src cats) (seeds.map fun e => (e.1, e.2.level)) backward
        depth ↔ SpreadRow src cats depth backward seeds y t := by
  by_cases fits : Indexable src cats
  · rw [mem_walkRows fits]
    exact (and_iff_right fits).symm
  · rw [walkRows_unfit fits]
    simp [SpreadRow, fits]

theorem spreads_single (depth : Option Nat) (backward : Bool) (s : NodeId) (level : Tier)
    (y : NodeId) :
    Spreads src cats depth backward [(s, .fact)] level y ↔
      if backward then Reaches src cats depth level y s else Reaches src cats depth level s y := by
  unfold Spreads
  simp

theorem spreadRow_single (depth : Option Nat) (s y : NodeId) (t : Tier) :
    SpreadRow src cats depth false [(s, .fact)] y t ↔ ReachRow src cats depth s y t := by
  unfold SpreadRow ReachRow
  simp only [spreads_single, Bool.false_eq_true, if_false]

theorem spreadRow_single_backward (depth : Option Nat) (s y : NodeId) (t : Tier) :
    SpreadRow src cats depth true [(s, .fact)] y t ↔ ReachRow src cats depth y s t := by
  unfold SpreadRow ReachRow
  simp only [spreads_single, if_true]

end Source

structure Closure.Coherent (src : FactSource) (c : Closure) : Prop where
  sets : ∀ s ∈ c.sets, s.2 = setIndex src s.1
  memo : ∀ m ∈ c.memo, ∃ s, c.sets[m.1.set]? = some s ∧ ∃ depth : Option Nat,
    m.1.depth = depth.getD indexLimit ∧
      m.2 = Closure.walkRows s.2 [(m.1.source, 0)] m.1.backward depth

section Coherent

variable {src : FactSource} {c : Closure}

theorem Closure.Coherent.new : Closure.Coherent src Closure.new :=
  ⟨by simp [Closure.new], by simp [Closure.new]⟩

theorem Closure.Coherent.set (h : c.Coherent src) (cats : CatSet) :
    (c.set src (edgeTiers src) cats).1.Coherent src ∧
      (c.set src (edgeTiers src) cats).1.sets[(c.set src (edgeTiers src) cats).2]? =
        some (cats, setIndex src cats) := by
  unfold Closure.set
  split
  · rename_i i found
    obtain ⟨lt, at', _⟩ := List.findIdx?_eq_some_iff_getElem.mp found
    refine ⟨h, ?_⟩
    simp only [List.getElem?_eq_getElem lt, Option.some.injEq]
    have index := h.sets _ (List.getElem_mem lt)
    rw [beq_iff_eq] at at'
    exact Prod.ext at' (by rw [index, at'])
  · refine ⟨⟨?_, ?_⟩, by simp [setIndex]⟩
    · intro s mem
      rcases List.mem_append.mp mem with mem | mem
      · exact h.sets s mem
      · cases List.mem_singleton.mp mem
        rfl
    · intro m mem
      obtain ⟨s, at', depth, eq⟩ := h.memo m mem
      exact ⟨s, by rw [List.getElem?_append_left (List.getElem?_eq_some_iff.mp at').1, at'],
        depth, eq⟩

theorem Closure.Coherent.reachFrom (h : c.Coherent src) (cats : CatSet)
    (seeds : List (NodeId × Tier)) (backward : Bool) (depth : Option Nat) :
    (c.reachFrom src (edgeTiers src) cats seeds backward depth).1.Coherent src ∧
      ∀ y t, (y, t) ∈ (c.reachFrom src (edgeTiers src) cats seeds backward depth).2 ↔
        SpreadRow src cats depth backward seeds y t := by
  obtain ⟨coherent, at'⟩ := h.set cats
  unfold Closure.reachFrom
  simp only [at']
  exact ⟨coherent, mem_walkRows_iff seeds backward depth⟩

/-- A per-source walk lists its pairs at their tiers, each node once. -/
theorem Closure.Coherent.reach (h : c.Coherent src) (cats : CatSet) (source : NodeId)
    (backward : Bool) (depth : Option Nat) :
    (c.reach src (edgeTiers src) cats source backward depth).1.Coherent src ∧
      (∀ y t, (y, t) ∈ (c.reach src (edgeTiers src) cats source backward depth).2 ↔
        SpreadRow src cats depth backward [(source, .fact)] y t) ∧
      ((c.reach src (edgeTiers src) cats source backward depth).2.map Prod.fst).Nodup := by
  obtain ⟨coherent, at'⟩ := h.set cats
  have walked : ∀ d : Option Nat, d.getD indexLimit = depth.getD indexLimit → ∀ y t,
      (y, t) ∈ Closure.walkRows (setIndex src cats) [(source, 0)] backward d ↔
        SpreadRow src cats depth backward [(source, .fact)] y t := by
    intro d same y t
    refine (mem_walkRows_iff [(source, .fact)] backward d y t).trans ?_
    refine and_congr_right fun fits => ?_
    simp only [spreads_single, reaches_congr fits same]
  unfold Closure.reach
  simp only
  split
  · rename_i m found
    obtain ⟨s, there, d, key, rows⟩ := coherent.memo m (List.mem_of_find?_eq_some found)
    have eq := List.find?_some found
    rw [beq_iff_eq] at eq
    rw [eq] at there key rows
    simp only at there key rows
    obtain rfl := Option.some.inj (at'.symm.trans there)
    rw [rows]
    exact ⟨coherent, walked d key.symm, walkRows_nodup _ backward d⟩
  · simp only [at']
    refine ⟨⟨coherent.sets, ?_⟩, walked depth rfl, walkRows_nodup _ backward depth⟩
    intro m mem
    rcases List.mem_cons.mp mem with rfl | mem
    · exact ⟨_, at', depth, rfl, rfl⟩
    · exact coherent.memo m mem

theorem mem_reachAllFrom {ix : CatIndex} {depth : Option Nat} {limit : Nat} {ids : List NodeId}
    {out rows : List (NodeId × NodeId × Tier)}
    (h : Closure.reachAllFrom ix depth limit ids out = some rows) :
    rows = out ++ ids.flatMap fun x =>
      (rowsOf (ix.levelled [(x, 0)] false depth)).map fun r => (x, r.1, r.2) := by
  induction ids generalizing out with
  | nil =>
    cases h
    simp
  | cons x rest ih =>
    unfold Closure.reachAllFrom at h
    simp only at h
    split at h
    · cases h
    · rw [ih h, List.flatMap_cons, List.append_assoc]

theorem reachAllFrom_mono {ix : CatIndex} {depth : Option Nat} {limit limit' : Nat}
    (le : limit ≤ limit') {ids : List NodeId} {out rows : List (NodeId × NodeId × Tier)}
    (h : Closure.reachAllFrom ix depth limit ids out = some rows) :
    Closure.reachAllFrom ix depth limit' ids out = some rows := by
  induction ids generalizing out with
  | nil => exact h
  | cons x rest ih =>
    unfold Closure.reachAllFrom at h ⊢
    simp only at h ⊢
    split at h
    · cases h
    · rw [if_neg (by omega)]
      exact ih h

theorem reachAllFrom_isSome (ix : CatIndex) (depth : Option Nat) (ids : List NodeId)
    (out : List (NodeId × NodeId × Tier)) :
    ∃ limit rows, Closure.reachAllFrom ix depth limit ids out = some rows := by
  induction ids generalizing out with
  | nil => exact ⟨0, out, rfl⟩
  | cons x rest ih =>
    let walk := ix.levelled [(x, 0)] false depth
    obtain ⟨limit, rows, enough⟩ := ih (out ++ (rowsOf walk).map fun r => (x, r.1, r.2))
    refine ⟨max limit (out.length + walk.reached.length), rows, ?_⟩
    unfold Closure.reachAllFrom
    simp only
    rw [if_neg (not_lt.mpr (le_max_right _ _))]
    exact reachAllFrom_mono (le_max_left _ _) enough

theorem mem_setIndex_ids (fits : Indexable src cats) {x y : NodeId} {level : Tier}
    {depth : Option Nat} (h : Reaches src cats depth level x y) :
    x ∈ (setIndex src cats).adj.ids := by
  obtain ⟨k, pos, _, walk⟩ := h
  obtain ⟨j, rfl⟩ := Nat.exists_eq_add_of_le' pos
  obtain ⟨z, first, _⟩ := (hops_succ_left _ j x y).mp walk
  exact ((Adjacency.build_holds fits).2 x).mpr (link_indexed first).1

/-- The walk of every pair lists each once, at its tier. -/
theorem Closure.Coherent.reachAll (h : c.Coherent src) (cats : CatSet) (depth : Option Nat)
    (limit : Nat) :
    (c.reachAll src (edgeTiers src) cats depth limit).1.Coherent src ∧
      ∀ rows, (c.reachAll src (edgeTiers src) cats depth limit).2 = some rows →
        (∀ x y t, (x, y, t) ∈ rows ↔ ReachRow src cats depth x y t) ∧
          (rows.map fun r => (r.1, r.2.1)).Nodup := by
  obtain ⟨coherent, at'⟩ := h.set cats
  unfold Closure.reachAll
  simp only [at']
  refine ⟨coherent, fun rows eq => ?_⟩
  by_cases ok : (setIndex src cats).ok = true
  · rw [if_pos ok] at eq
    have all := mem_reachAllFrom eq
    rw [List.nil_append] at all
    have walked : ∀ x, rowsOf ((setIndex src cats).levelled [(x, 0)] false depth) =
        Closure.walkRows (setIndex src cats) [(x, 0)] false depth := by
      intro x
      rw [Closure.walkRows, if_pos ok]
    subst all
    constructor
    · intro x y t
      simp only [walked, List.mem_flatMap, List.mem_map, Prod.exists, Prod.mk.injEq]
      rw [← spreadRow_single, ← mem_walkRows_iff]
      constructor
      · rintro ⟨_, _, y, t, mem, rfl, rfl, rfl⟩
        exact mem
      · intro mem
        have row := (spreadRow_single depth x y t).mp ((mem_walkRows_iff _ _ _ _ _).mp mem)
        exact ⟨x, mem_setIndex_ids row.1 row.2.1, y, t, mem, rfl, rfl, rfl⟩
    · rw [List.map_flatMap, List.nodup_flatMap]
      constructor
      · intro x _
        rw [walked, List.map_map]
        have once : ((Closure.walkRows (setIndex src cats) [(x, 0)] false depth).map
            Prod.fst).Nodup := walkRows_nodup [(x, 0)] false depth
        refine List.Nodup.map_on ?_ (List.Nodup.of_map _ once)
        intro a ha b hb eq
        simp only [Function.comp_apply, Prod.mk.injEq, true_and] at eq
        exact List.inj_on_of_nodup_map once ha hb eq
      · refine (setIndex src cats).adj.ids_nodup.imp fun {a b} ne => ?_
        intro p hp hq
        simp only [List.map_map, List.mem_map, Function.comp_apply] at hp hq
        obtain ⟨_, _, rfl⟩ := hp
        obtain ⟨_, _, eq⟩ := hq
        exact ne (Prod.mk.inj eq).1.symm
  · rw [if_neg ok] at eq
    cases eq
    refine ⟨fun x y t => ?_, List.nodup_nil⟩
    simp only [List.not_mem_nil, false_iff]
    exact fun row => ok (setIndex_ok row.1)

theorem Closure.Coherent.sccRows (h : c.Coherent src) (cats : CatSet) :
    (c.sccRows src (edgeTiers src) cats).1.Coherent src := by
  obtain ⟨coherent, at'⟩ := h.set cats
  unfold Closure.sccRows
  simp only [at']
  exact coherent

end Coherent

end Glia.Rules
