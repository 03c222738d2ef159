import Glia.Algo.Components
import Glia.Rules.ClosureExact

/-! The rows of `scc`: each node on a cycle beside its representative, at the least tier at
which the two reach each other. A component's walks stay inside it. -/
namespace Glia.Rules

open Algo Kit

def RanksBelow (src : FactSource) (a b : NodeId) : Prop :=
  src.renderNode a < src.renderNode b ∨ (src.renderNode a = src.renderNode b ∧ a ≤ b)

instance (src : FactSource) : DecidableRel (RanksBelow src) := fun _ _ =>
  inferInstanceAs (Decidable (_ ∨ _))

theorem ranksBelow_iff (src : FactSource) (a b : NodeId) :
    RanksBelow src a b ↔ toLex (src.renderNode a, a) ≤ toLex (src.renderNode b, b) := by
  rw [Prod.Lex.toLex_le_toLex]
  rfl

instance (src : FactSource) : IsTrans NodeId (RanksBelow src) :=
  ⟨fun a b c h h' => by
    rw [ranksBelow_iff] at h h' ⊢
    exact h.trans h'⟩

instance (src : FactSource) : Std.Total (RanksBelow src) :=
  ⟨fun a b => by
    rw [ranksBelow_iff, ranksBelow_iff]
    exact le_total _ _⟩

theorem ranked_eq (src : FactSource) (members : List NodeId) :
    Closure.ranked src members = members.insertionSort (RanksBelow src) := rfl

@[simp] theorem mem_ranked (src : FactSource) (members : List NodeId) (x : NodeId) :
    x ∈ Closure.ranked src members ↔ x ∈ members := List.mem_insertionSort _

theorem ranked_nodup {src : FactSource} {members : List NodeId} (once : members.Nodup) :
    (Closure.ranked src members).Nodup :=
  (List.perm_insertionSort (RanksBelow src) members).nodup_iff.mpr once

theorem ranked_head {src : FactSource} {members rest : List NodeId} {rep : NodeId}
    (eq : Closure.ranked src members = rep :: rest) :
    rep ∈ members ∧ ∀ y ∈ members, RanksBelow src rep y := by
  have sorted := List.pairwise_insertionSort (RanksBelow src) members
  rw [← ranked_eq, eq, List.pairwise_cons] at sorted
  have mem : ∀ y, y ∈ members ↔ y = rep ∨ y ∈ rest := fun y => by
    rw [← mem_ranked src, eq, List.mem_cons]
  refine ⟨(mem rep).mpr (.inl rfl), fun y hy => ?_⟩
  rcases (mem y).mp hy with rfl | hy
  · exact .inr ⟨rfl, le_rfl⟩
  · exact sorted.1 y hy

theorem RanksBelow.antisymm {src : FactSource} {a b : NodeId} (h : RanksBelow src a b)
    (h' : RanksBelow src b a) : a = b := by
  rw [ranksBelow_iff] at h h'
  exact (Prod.mk.inj (toLex.injective (le_antisymm h h'))).2

theorem levelOf_eq {walk : LevelBfs} (once : (walk.reached.map LevelReached.id).Nodup) (x : NodeId)
    (t : Tier) : Closure.levelOf walk x = t.level ↔
      (x, t.level) ∈ walk.reached.map LevelReached.at := by
  have top := tier_level_lt t
  unfold Closure.levelOf
  split
  · rename_i r found
    have mem := List.mem_of_find?_eq_some found
    have at' := List.find?_some found
    rw [beq_iff_eq] at at'
    constructor
    · intro eq
      exact List.mem_map.mpr ⟨r, mem, Prod.ext at' eq⟩
    · intro there
      obtain ⟨r', mem', eq⟩ := List.mem_map.mp there
      obtain ⟨eq, level⟩ := Prod.mk.inj eq
      rw [List.inj_on_of_nodup_map once mem mem' (at'.trans eq.symm)]
      exact level
  · rename_i missing
    have none' := List.find?_eq_none.mp missing
    constructor
    · intro eq
      rw [never] at eq
      omega
    · intro there
      obtain ⟨r, mem, eq⟩ := List.mem_map.mp there
      exact absurd (beq_iff_eq.mpr (Prod.mk.inj eq).1) (none' r mem)

/-- An unbounded three-pass walk reports each node at the least tier that joins it to the
seed. -/
theorem mem_bfsLevels_least {g : GraphSource} {keep : CategorySet} {edgeLevel : List Nat}
    (fits : g.Fits keep indexLimit) (len : edgeLevel.length = (g.keptEdges keep).length)
    (backward : Bool) (s x : NodeId) (t : Tier) :
    (x, t.level) ∈ (bfsLevels (Adjacency.build g keep) edgeLevel
        { LevelWalk.new (direction backward) 3 with plus := true } [(s, 0)]).reached.map
        LevelReached.at ↔
      IsLeast {level : Tier | ∃ k, 1 ≤ k ∧
        Hops (JoinsAlong g keep edgeLevel (direction backward) level.level) k s x} t := by
  let how : LevelWalk := { LevelWalk.new (direction backward) 3 with plus := true }
  have oneWay : how.walk ≠ .both := by
    show direction backward ≠ .both
    cases backward <;> decide
  have agree : lengthsAgree (Adjacency.buildCapped g keep indexLimit) edgeLevel how = true := by
    have holds := (Adjacency.build_holds fits).1.length_eq
    simp only [lengthsAgree, how, LevelWalk.new, Adjacency.keptEdges, Bool.and_true, beq_iff_eq]
    exact len.trans holds.symm
  have reaches : ∀ level, ReachesIds g keep edgeLevel how [(s, 0)] level x ↔
      ∃ k, 1 ≤ k ∧ Hops (JoinsAlong g keep edgeLevel (direction backward) level) k s x := by
    intro level
    rw [reachesIds_unbounded fits rfl oneWay (by
      show indexLimit ≤ usizeMax
      decide)]
    simp [how, LevelWalk.new]
  refine (mem_bfsLevels_ids fits rfl oneWay rfl agree [(s, 0)] x t.level).trans ?_
  simp only [reaches]
  constructor
  · rintro ⟨_, walk, first⟩
    refine ⟨walk, fun l mem => ?_⟩
    by_contra lt
    exact first l.level (not_le.mp lt) mem
  · rintro ⟨walk, least⟩
    refine ⟨tier_level_lt t, walk, fun l lt mem => ?_⟩
    obtain ⟨l, rfl⟩ := exists_tier_of_lt (lt.trans (tier_level_lt t))
    exact absurd (least mem) (not_le.mpr lt)

section Component

variable {src : FactSource} {cats : CatSet}

theorem joins_iff_mem_zip {g : GraphSource} {keep : CategorySet} {edgeLevel : List Nat}
    (len : edgeLevel.length = (g.keptEdges keep).length) (level : Nat) (a b : NodeId) :
    Joins g keep edgeLevel level a b ↔
      ∃ p ∈ (g.keptEdges keep).zip edgeLevel, p.1.fromId = a ∧ p.1.toId = b ∧ p.2 ≤ level := by
  constructor
  · rintro ⟨j, e, at', rfl, rfl, low⟩
    have lt : j < edgeLevel.length := len ▸ (List.getElem?_eq_some_iff.mp at').1
    rw [List.getD_eq_getElem?_getD, List.getElem?_eq_getElem lt, Option.getD_some] at low
    have mem : (e, edgeLevel[j]) ∈ (g.keptEdges keep).zip edgeLevel :=
      List.mem_of_getElem? (List.getElem?_zip_eq_some.mpr ⟨at', List.getElem?_eq_getElem lt⟩)
    exact ⟨_, mem, rfl, rfl, low⟩
  · rintro ⟨p, mem, rfl, rfl, low⟩
    obtain ⟨j, at'⟩ := List.mem_iff_getElem?.mp mem
    obtain ⟨edge, there⟩ := List.getElem?_zip_eq_some.mp at'
    refine ⟨j, p.1, edge, rfl, rfl, ?_⟩
    rwa [List.getD_eq_getElem?_getD, there, Option.getD_some]

theorem component_length (members : List NodeId) :
    (Closure.component src (setIndex src cats) members).2.length =
      ((Closure.component src (setIndex src cats) members).1.keptEdges .all).length := by
  simp [Closure.component, GraphSource.keptEdges]

theorem component_joins (members : List NodeId) (level : Nat) (a b : NodeId) :
    Joins (Closure.component src (setIndex src cats) members).1 .all
        (Closure.component src (setIndex src cats) members).2 level a b ↔
      a ∈ members ∧ b ∈ members ∧
        Joins src.toGraphSource (keepOf src cats) (setIndex src cats).keptLevel level a b := by
  rw [joins_iff_mem_zip (component_length members), joins_iff_mem_zip keptLevel_length]
  have zipped : ((Closure.component src (setIndex src cats) members).1.keptEdges .all).zip
      (Closure.component src (setIndex src cats) members).2 =
      ((src.keptEdges (keepOf src cats)).zip (setIndex src cats).keptLevel).filter fun e =>
        members.contains e.1.fromId && members.contains e.1.toId := by
    simp only [Closure.component, GraphSource.keptEdges, CategorySet.all_contains,
      List.filter_true, List.zip_map', Prod.mk.eta, List.map_id']
    rfl
  rw [zipped]
  simp only [List.mem_filter, Bool.and_eq_true, List.contains_iff_mem]
  constructor
  · rintro ⟨p, ⟨mem, inA, inB⟩, rfl, rfl, low⟩
    exact ⟨inA, inB, p, mem, rfl, rfl, low⟩
  · rintro ⟨inA, inB, p, mem, rfl, rfl, low⟩
    exact ⟨p, ⟨mem, inA, inB⟩, rfl, rfl, low⟩

theorem component_fits (fits : Indexable src cats) {members : List NodeId}
    (sub : ∀ x ∈ members, x ∈ src.toGraphSource.indexed (keepOf src cats)) :
    (Closure.component src (setIndex src cats) members).1.Fits .all indexLimit := by
  obtain ⟨nodes, edges⟩ := fits
  constructor
  · refine (Finset.card_le_card fun x hx => ?_).trans nodes
    simp only [GraphSource.indexed, GraphSource.keptEdges, Closure.component, List.mem_toFinset,
      List.mem_append, mem_ranked, List.mem_flatMap, List.mem_filter, List.mem_map,
      Bool.and_eq_true, List.contains_iff_mem, List.mem_cons, List.not_mem_nil, or_false] at hx
    apply sub
    rcases hx with hx | ⟨e, ⟨⟨p, ⟨_, inA, inB⟩, rfl⟩, _⟩, rfl | rfl⟩
    · exact hx
    · exact inA
    · exact inB
  · simp only [GraphSource.keptEdges, CategorySet.all_contains, List.filter_true,
      Closure.component, List.length_map]
    refine (List.length_filter_le _ _).trans ?_
    rw [List.length_zip]
    exact (min_le_left _ _).trans edges

theorem adj_joins_iff (fits : Indexable src cats) (a b : NodeId) :
    (setIndex src cats).adj.Joins a b ↔ Link src cats .heuristic a b := by
  have all : ∀ t : Tier, t ≤ .heuristic := fun t => by cases t <;> decide
  rw [← joins_iff]
  constructor
  · rintro ⟨k, mem, rfl, rfl⟩
    obtain ⟨j, at'⟩ := List.mem_iff_getElem?.mp mem
    obtain ⟨e, edge, _, from', to'⟩ := (kept_iff fits k.src k.dst j k.category).mp at'
    have kept := List.mem_filter.mp (List.mem_of_getElem? edge)
    obtain ⟨i, there⟩ := List.mem_iff_getElem?.mp kept.1
    rw [joins_iff]
    refine ⟨i, e, there, kept.2, ?_, ?_, all _⟩
    · rw [Adjacency.id, List.getD_eq_getElem?_getD, setIndex_adj, from', Option.getD_some]
    · rw [Adjacency.id, List.getD_eq_getElem?_getD, setIndex_adj, to', Option.getD_some]
  · intro joins
    have along : JoinsAlong src.toGraphSource (keepOf src cats) (setIndex src cats).keptLevel
      .forward Tier.heuristic.level a b := joins
    obtain ⟨⟨u, ltU, rfl⟩, v, ltV, rfl⟩ := joinsAlong_indexed fits along
    obtain ⟨j, e, edge, eqA, eqB, _⟩ := joins
    have has : ∀ {i}, i < (setIndex src cats).adj.len → (setIndex src cats).adj.ids[i]? =
        some ((setIndex src cats).adj.id i) := by
      intro i lt
      rw [Adjacency.id, List.getD_eq_getElem?_getD, List.getElem?_eq_getElem lt, Option.getD_some]
    have at' := (kept_iff fits u v j e.category).mpr
      ⟨e, edge, rfl, eqA ▸ has ltU, eqB ▸ has ltV⟩
    exact ⟨_, List.mem_of_getElem? at', rfl, rfl⟩

theorem reaches_heuristic (fits : Indexable src cats) (x y : NodeId) :
    Relation.TransGen (setIndex src cats).adj.Joins x y ↔ Reaches src cats none .heuristic x y := by
  rw [show (setIndex src cats).adj.Joins = Link src cats .heuristic from
    funext fun a => funext fun b => propext (adj_joins_iff fits a b), transGen_iff_hops]
  unfold Reaches
  simp

theorem Reaches.mono {depth : Option Nat} {l l' : Tier} (le : l ≤ l') {x y : NodeId}
    (h : Reaches src cats depth l x y) : Reaches src cats depth l' x y := by
  obtain ⟨k, pos, short, walk⟩ := h
  exact ⟨k, pos, short, walk.mono fun _ _ => Link.mono le⟩

theorem component_hops (fits : Indexable src cats) {members : List NodeId}
    (comp : members ∈ stronglyConnected (setIndex src cats).adj) {a b : NodeId}
    (hasA : a ∈ members) (hasB : b ∈ members) (level : Tier) (k : Nat) :
    Hops (Joins (Closure.component src (setIndex src cats) members).1 .all
        (Closure.component src (setIndex src cats) members).2 level.level) k a b ↔
      Hops (Link src cats level) k a b := by
  constructor
  · intro walk
    refine walk.mono fun u v joins => ?_
    exact (joins_iff src cats level u v).mp ((component_joins members _ u v).mp joins).2.2
  · intro walk
    have between : ∀ c, Relation.ReflTransGen (Link src cats level) a c →
        Relation.ReflTransGen (Link src cats level) c b → c ∈ members := by
      intro c before after
      have up : ∀ u v, Link src cats level u v → (setIndex src cats).adj.Joins u v :=
        fun u v link => (adj_joins_iff fits u v).mpr (link.mono (by cases level <;> decide))
      have before := Relation.ReflTransGen.mono up _ _ before
      have after := Relation.ReflTransGen.mono up _ _ after
      obtain ⟨way, back⟩ := (stronglyConnected_iff a b).mp ⟨members, comp, hasA, hasB⟩
      obtain ⟨c', comp', hasA', hasC⟩ := (stronglyConnected_iff a c).mpr
        ⟨(way.trans back).trans_left before, Relation.TransGen.trans_right after back⟩
      rwa [stronglyConnected_unique comp comp' hasA hasA']
    refine (walk.between between).mono fun u v step => ?_
    exact (component_joins members _ u v).mpr
      ⟨step.1, step.2.1, (joins_iff src cats level u v).mpr step.2.2⟩

theorem component_levelOf (fits : Indexable src cats) {members : List NodeId}
    (comp : members ∈ stronglyConnected (setIndex src cats).adj) {rep x : NodeId}
    (hasRep : rep ∈ members) (hasX : x ∈ members) (backward : Bool) (t : Tier) :
    Closure.levelOf (bfsLevels
        (Adjacency.build (Closure.component src (setIndex src cats) members).1 .all)
        (Closure.component src (setIndex src cats) members).2
        { LevelWalk.new (direction backward) 3 with plus := true } [(rep, 0)]) x = t.level ↔
      IsLeast {level | if backward then Reaches src cats none level x rep
        else Reaches src cats none level rep x} t := by
  have inside : ∀ y ∈ members, y ∈ src.toGraphSource.indexed (keepOf src cats) := by
    intro y hy
    have way := ((stronglyConnected_iff y y).mp ⟨members, comp, hy, hy⟩).1
    obtain ⟨z, edge, _⟩ := Relation.TransGen.head'_iff.mp way
    exact (link_indexed ((adj_joins_iff fits y z).mp edge)).1
  rw [levelOf_eq (bfsLevels_nodup _ _ _),
    mem_bfsLevels_least (component_fits fits inside) (component_length members)]
  refine iff_of_eq (congrArg (IsLeast · t) (Set.ext fun level => ?_))
  have walks := component_hops fits comp hasRep hasX level
  have walks' := component_hops fits comp hasX hasRep level
  cases backward
  · show (∃ k, 1 ≤ k ∧ Hops (Joins _ _ _ _) k rep x) ↔ Reaches src cats none level rep x
    simp only [walks, Reaches, reduceCtorEq, false_implies, implies_true, true_and]
  · show (∃ k, 1 ≤ k ∧ Hops (Function.swap (Joins _ _ _ _)) k rep x) ↔
      Reaches src cats none level x rep
    simp only [hops_swap, walks', Reaches, reduceCtorEq, false_implies, implies_true, true_and]

end Component

theorem exists_isLeast_tier {S : Set Tier} (some' : .heuristic ∈ S) : ∃ t, IsLeast S t := by
  by_cases fact : Tier.fact ∈ S
  · exact ⟨.fact, fact, fun t _ => by cases t <;> decide⟩
  · by_cases derived : Tier.derived ∈ S
    · refine ⟨.derived, derived, fun t mem => ?_⟩
      cases t with
      | fact => exact absurd mem fact
      | derived => exact le_rfl
      | heuristic => decide
    · refine ⟨.heuristic, some', fun t mem => ?_⟩
      cases t with
      | fact => exact absurd mem fact
      | derived => exact absurd mem derived
      | heuristic => exact le_rfl

theorem isLeast_both {S T : Set Tier} (upS : IsUpperSet S) (upT : IsUpperSet T) {a b : Tier}
    (hS : IsLeast S a) (hT : IsLeast T b) : IsLeast {l | l ∈ S ∧ l ∈ T} (max a b) :=
  ⟨⟨upS (le_max_left a b) hS.1, upT (le_max_right a b) hT.1⟩,
    fun _ mem => max_le (hS.2 mem.1) (hT.2 mem.2)⟩

theorem level_max (a b : Tier) : (max a b).level = max a.level b.level := by
  cases a <;> cases b <;> decide

section Rows

variable (src : FactSource) (cats : CatSet)

def EachOther (level : Tier) (x y : NodeId) : Prop :=
  Reaches src cats none level x y ∧ Reaches src cats none level y x

structure SccRows (rows : List (NodeId × NodeId × Tier)) : Prop where
  once : (rows.map Prod.fst).Nodup
  cyclic : ∀ x, x ∈ rows.map Prod.fst ↔ Reaches src cats none .heuristic x x
  rep : ∀ r ∈ rows, EachOther src cats .heuristic r.1 r.2.1 ∧
    ∀ y, EachOther src cats .heuristic r.1 y → RanksBelow src r.2.1 y
  tier : ∀ r ∈ rows, IsLeast {level | EachOther src cats level r.1 r.2.1} r.2.2

variable {src cats}

theorem reaches_isUpperSet (x y : NodeId) :
    IsUpperSet {level | Reaches src cats none level x y} := fun _ _ le h => h.mono le

theorem component_eachOther (fits : Indexable src cats) (x y : NodeId) :
    (∃ c ∈ stronglyConnected (setIndex src cats).adj, x ∈ c ∧ y ∈ c) ↔
      EachOther src cats .heuristic x y := by
  rw [stronglyConnected_iff, reaches_heuristic fits, reaches_heuristic fits]
  rfl

theorem mem_componentRows (fits : Indexable src cats) {members : List NodeId}
    (comp : members ∈ stronglyConnected (setIndex src cats).adj) (x rep : NodeId) (t : Tier) :
    (x, rep, t) ∈ Closure.componentRows src (setIndex src cats) members ↔
      x ∈ members ∧ (rep ∈ members ∧ ∀ y ∈ members, RanksBelow src rep y) ∧
        IsLeast {level | EachOther src cats level x rep} t := by
  unfold Closure.componentRows
  split
  · rename_i none'
    have empty : ∀ y, y ∉ members := fun y hy => by
      rw [← mem_ranked src, none'] at hy
      cases hy
    simp [empty]
  · rename_i rep' rest eq
    have first := ranked_head eq
    have members' : ∀ y, y ∈ rep' :: rest ↔ y ∈ members := fun y => by
      rw [← eq, mem_ranked]
    simp only [List.mem_filterMap, members', Option.map_eq_some_iff, tierOfLevel_eq_some,
      Prod.mk.injEq]
    have row : ∀ y ∈ members, ∀ t : Tier, (if y = rep' then
        Closure.levelOf (bfsLevels
          (Adjacency.build (Closure.component src (setIndex src cats) members).1 .all)
          (Closure.component src (setIndex src cats) members).2
          { LevelWalk.new .forward 3 with plus := true } [(rep', 0)]) y
        else max (Closure.levelOf (bfsLevels
          (Adjacency.build (Closure.component src (setIndex src cats) members).1 .all)
          (Closure.component src (setIndex src cats) members).2
          { LevelWalk.new .forward 3 with plus := true } [(rep', 0)]) y)
          (Closure.levelOf (bfsLevels
          (Adjacency.build (Closure.component src (setIndex src cats) members).1 .all)
          (Closure.component src (setIndex src cats) members).2
          { LevelWalk.new .backward 3 with plus := true } [(rep', 0)]) y)) = t.level ↔
        IsLeast {level | EachOther src cats level y rep'} t := by
      intro y hy t
      have both := (component_eachOther fits rep' y).mp ⟨members, comp, first.1, hy⟩
      have out := component_levelOf fits comp first.1 hy false
      have back := component_levelOf fits comp first.1 hy true
      obtain ⟨a, leastA⟩ := exists_isLeast_tier (S := {l | Reaches src cats none l rep' y}) both.1
      obtain ⟨b, leastB⟩ := exists_isLeast_tier (S := {l | Reaches src cats none l y rep'}) both.2
      have outA := (out a).mpr leastA
      have backB := (back b).mpr leastB
      have whole : IsLeast {level | EachOther src cats level y rep'} (max b a) :=
        isLeast_both (reaches_isUpperSet y rep') (reaches_isUpperSet rep' y) leastB leastA
      have level : ∀ l : Tier, l.level = t.level ↔ l = t := fun l => Tier.level_injective.eq_iff
      split
      · rename_i eq
        subst eq
        obtain rfl := leastA.unique leastB
        rw [max_self] at whole
        refine (iff_of_eq (congrArg (· = t.level) outA)).trans ((level _).trans ?_)
        exact ⟨fun eq => eq ▸ whole, fun least => whole.unique least⟩
      · refine (iff_of_eq (congrArg₂ (fun m n => max m n = t.level) outA backB)).trans ?_
        rw [← level_max, level, max_comm]
        exact ⟨fun eq => eq ▸ whole, fun least => whole.unique least⟩
    constructor
    · rintro ⟨y, hy, t', eq', rfl, rfl, rfl⟩
      exact ⟨hy, first, (row y hy t').mp eq'⟩
    · rintro ⟨hx, head, least⟩
      obtain rfl := (first.2 rep head.1).antisymm (head.2 rep' first.1)
      exact ⟨x, hx, t, (row x hx t).mpr least, rfl, rfl, rfl⟩

theorem componentRows_nodup {members : List NodeId} (once : members.Nodup) :
    ((Closure.componentRows src (setIndex src cats) members).map Prod.fst).Nodup := by
  have kept : ∀ (level : NodeId → Nat) (rep : NodeId) (xs : List NodeId),
      ((xs.filterMap fun x => (tierOfLevel (level x)).map fun t => (x, rep, t)).map
        Prod.fst).Sublist xs := by
    intro level rep xs
    induction xs with
    | nil => exact List.Sublist.refl _
    | cons x rest ih =>
      rw [List.filterMap_cons]
      cases tierOfLevel (level x) with
      | none => exact ih.cons _
      | some t => exact ih.cons_cons _
  have ranked : (Closure.ranked src members).Nodup := ranked_nodup once
  unfold Closure.componentRows
  split
  · exact List.nodup_nil
  · rename_i rep rest eq
    rw [eq] at ranked
    exact ranked.sublist (kept _ rep (rep :: rest))

/-- Within the index limit the rows are the ones `scc` is for. -/
theorem sccRows_fit (fits : Indexable src cats) : SccRows src cats
    ((stronglyConnected (setIndex src cats).adj).flatMap
      (Closure.componentRows src (setIndex src cats))) := by
  have listed : ∀ x rep t, (x, rep, t) ∈ (stronglyConnected (setIndex src cats).adj).flatMap
      (Closure.componentRows src (setIndex src cats)) ↔ ∃ c ∈ stronglyConnected (setIndex src cats).adj,
        x ∈ c ∧ (rep ∈ c ∧ ∀ y ∈ c, RanksBelow src rep y) ∧
          IsLeast {level | EachOther src cats level x rep} t := by
    intro x rep t
    rw [List.mem_flatMap]
    exact exists_congr fun c => and_congr_right fun comp => mem_componentRows fits comp x rep t
  constructor
  · rw [List.map_flatMap, List.nodup_flatMap]
    have held : ∀ c ∈ stronglyConnected (setIndex src cats).adj, ∀ x,
        x ∈ (Closure.componentRows src (setIndex src cats) c).map Prod.fst → x ∈ c := by
      intro c comp x mem
      obtain ⟨⟨x, rep, t⟩, there, rfl⟩ := List.mem_map.mp mem
      exact ((mem_componentRows fits comp x rep t).mp there).1
    constructor
    · intro c comp
      exact componentRows_nodup ((stronglyConnected_sorted comp).imp fun lt => lt.ne)
    · refine List.Pairwise.imp_of_mem ?_ (stronglyConnected_disjoint (setIndex src cats).adj)
      intro c d hc hd apart x inC inD
      exact apart (held c hc x inC) (held d hd x inD)
  · intro x
    constructor
    · intro mem
      obtain ⟨⟨x, rep, t⟩, there, rfl⟩ := List.mem_map.mp mem
      obtain ⟨c, comp, hx, _⟩ := (listed x rep t).mp there
      exact ((component_eachOther fits x x).mp ⟨c, comp, hx, hx⟩).1
    · intro cycle
      obtain ⟨c, comp, hx, _⟩ := (component_eachOther fits x x).mpr ⟨cycle, cycle⟩
      cases eq : Closure.ranked src c with
      | nil =>
        rw [← mem_ranked src, eq] at hx
        cases hx
      | cons rep rest =>
        have first := ranked_head eq
        obtain ⟨t, least⟩ := exists_isLeast_tier
          (S := {level | EachOther src cats level x rep})
          ((component_eachOther fits x rep).mp ⟨c, comp, hx, first.1⟩)
        exact List.mem_map.mpr ⟨(x, rep, t), (listed x rep t).mpr ⟨c, comp, hx, first, least⟩, rfl⟩
  · rintro ⟨x, rep, t⟩ mem
    obtain ⟨c, comp, hx, ⟨hasRep, least⟩, _⟩ := (listed x rep t).mp mem
    refine ⟨(component_eachOther fits x rep).mp ⟨c, comp, hx, hasRep⟩, fun y both => ?_⟩
    obtain ⟨d, comp', hx', hy⟩ := (component_eachOther fits x y).mpr both
    obtain rfl := stronglyConnected_unique comp comp' hx hx'
    exact least y hy
  · rintro ⟨x, rep, t⟩ mem
    obtain ⟨c, _, _, _, least⟩ := (listed x rep t).mp mem
    exact least

theorem stronglyConnected_unfit (unfit : ¬ Indexable src cats) :
    stronglyConnected (setIndex src cats).adj = [] := by
  rw [setIndex_adj, Adjacency.build_unfit unfit, List.eq_nil_iff_forall_not_mem]
  intro c comp
  obtain ⟨x, hx⟩ := List.exists_mem_of_ne_nil c (stronglyConnected_nonempty comp)
  have way := ((stronglyConnected_iff x x).mp ⟨c, comp, hx, hx⟩).1
  obtain ⟨_, ⟨k, mem, _⟩, _⟩ := Relation.TransGen.head'_iff.mp way
  cases mem

end Rows

section Coherent

variable {src : FactSource} {c : Closure}

theorem Closure.Coherent.scc_listed (h : c.Coherent src) (cats : CatSet) :
    (Indexable src cats → SccRows src cats (c.sccRows src (edgeTiers src) cats).2) ∧
      (¬ Indexable src cats → (c.sccRows src (edgeTiers src) cats).2 = []) := by
  obtain ⟨_, at'⟩ := h.set cats
  unfold Closure.sccRows
  simp only [at']
  constructor
  · intro fits
    rw [if_pos (setIndex_ok fits)]
    exact sccRows_fit fits
  · intro unfit
    rw [stronglyConnected_unfit unfit]
    split <;> rfl

end Coherent

end Glia.Rules
