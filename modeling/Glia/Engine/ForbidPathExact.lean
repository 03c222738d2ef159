import Glia.Algo.ReachParents
import Glia.Engine.ForbidPath
import Glia.Kit.Layers
import Glia.Rules.PathExact
import Mathlib

/-! The hits of a transitive `forbid_edge` are the forbidden reach, each with its least tier and a
shortest path there. -/
namespace Glia.Engine.Check

open Glia.Algo Glia.Kit
open Glia.Graph (MergedGraph IdMap)

section Paths
variable {ε : Type} (g : PathGraph ε) (cats : List EdgeCategoryId) (scopes : PathScopes)

/-- An edge a walk of `level` may take: kept, of that level or stronger, leaving no stop node. -/
structure Usable (level : Nat) (e : Edge) : Prop where
  edge : e ∈ g.source.edges
  category : e.category ∈ cats
  leaves : scopes.stops e.fromId = false
  low : (g.tier e).level ≤ level

structure ForbiddenPath (fromSet : List NodeId) (level : Nat) (node : NodeId) (path : List Edge) :
    Prop where
  some_hop : path ≠ []
  usable : ∀ e ∈ path, Usable g cats scopes level e
  leads : ∃ s ∈ fromSet, scopes.stops s = false ∧ Leads Edge.fromId Edge.toId path s node

def Step (level : Nat) (a b : NodeId) : Prop :=
  ∃ e, Usable g cats scopes level e ∧ e.fromId = a ∧ e.toId = b

variable {g cats scopes}

theorem Usable.last {l : Nat} {e : Edge} (h : Usable g cats scopes l e) :
    Usable g cats scopes (passes - 1) e := by
  refine { h with low := ?_ }
  cases g.tier e <;> decide

theorem ForbiddenPath.last {fromSet : List NodeId} {l : Nat} {node : NodeId} {path : List Edge}
    (h : ForbiddenPath g cats scopes fromSet l node path) :
    ForbiddenPath g cats scopes fromSet (passes - 1) node path :=
  { h with usable := fun e mem => (h.usable e mem).last }

variable (g cats scopes) in
def keptOf : List Edge := (barred g.source scopes).keptEdges (.of cats)

variable (g cats scopes) in
def levelsOf : List Nat := (keptOf g cats scopes).map fun e => (g.tier e).level

theorem keptOrdinals_edges : (keptOrdinals g.source scopes (.of cats)).map Prod.snd =
    keptOf g cats scopes := by
  unfold keptOrdinals keptOf barred GraphSource.keptEdges
  rw [List.filter_map, List.map_map, List.filter_filter]
  have plain : (Prod.snd ∘ Prod.swap : Edge × Nat → Edge) = Prod.fst := rfl
  rw [plain]
  have filtered : ((fun k : Nat × Edge => !scopes.stops k.2.fromId &&
      (CategorySet.of cats).contains k.2.category) ∘ Prod.swap) =
      (fun e : Edge => (CategorySet.of cats).contains e.category && !scopes.stops e.fromId) ∘
        (Prod.fst : Edge × Nat → Edge) := by
    funext k
    exact Bool.and_comm _ _
  rw [filtered, ← List.filter_map, List.zipIdx_map_fst]

theorem keptOrdinals_levels :
    g.levels (keptOrdinals g.source scopes (.of cats)) = levelsOf g cats scopes := by
  rw [g.aligned, levelsOf, ← keptOrdinals_edges, List.map_map]
  · rfl
  · intro k mem
    unfold keptOrdinals at mem
    obtain ⟨⟨e, i⟩, there, rfl⟩ := List.mem_map.mp (List.mem_filter.mp mem).1
    exact List.mem_zipIdx_iff_getElem?.mp there

theorem mem_keptOf {e : Edge} : e ∈ keptOf g cats scopes ↔
    e ∈ g.source.edges ∧ e.category ∈ cats ∧ scopes.stops e.fromId = false := by
  simp only [keptOf, barred, GraphSource.keptEdges, List.mem_filter, CategorySet.contains,
    List.contains_eq_mem, decide_eq_true_eq, Bool.not_eq_true']
  tauto

theorem usable_iff {level : Nat} {e : Edge} : Usable g cats scopes level e ↔
    e ∈ keptOf g cats scopes ∧ (g.tier e).level ≤ level := by
  rw [mem_keptOf]
  exact ⟨fun h => ⟨⟨h.edge, h.category, h.leaves⟩, h.low⟩, fun h => ⟨h.1.1, h.1.2.1, h.1.2.2, h.2⟩⟩

theorem levelsOf_getD {j : Nat} {e : Edge} (at' : (keptOf g cats scopes)[j]? = some e) :
    (levelsOf g cats scopes).getD j never = (g.tier e).level := by
  rw [levelsOf, List.getD_eq_getElem?_getD, List.getElem?_map, at']
  rfl

theorem joins_iff (level : Nat) (a b : NodeId) :
    Joins (barred g.source scopes) (.of cats) (levelsOf g cats scopes) level a b ↔
      Step g cats scopes level a b := by
  constructor
  · intro h
    obtain ⟨j, e, at', ends⟩ := h
    rw [levelsOf_getD at'] at ends
    exact ⟨e, usable_iff.mpr ⟨List.mem_of_getElem? at', ends.2.2⟩, ends.1, ends.2.1⟩
  · intro h
    obtain ⟨e, usable, ends⟩ := h
    obtain ⟨mem, low⟩ := usable_iff.mp usable
    obtain ⟨j, at'⟩ := List.mem_iff_getElem?.mp mem
    exact ⟨j, e, at', ends.1, ends.2, (levelsOf_getD at').trans_le low⟩

theorem oneLevel_getD {level j : Nat} {e : Edge} (at' : (keptOf g cats scopes)[j]? = some e) :
    (oneLevel (levelsOf g cats scopes) level).getD j never ≤ 0 ↔ (g.tier e).level ≤ level := by
  rw [oneLevel, levelsOf, List.getD_eq_getElem?_getD, List.getElem?_map, List.getElem?_map, at']
  simp only [Option.map_some, Option.getD_some]
  split
  · rename_i low
    exact ⟨fun _ => low, fun _ => le_rfl⟩
  · rename_i high
    exact ⟨fun h => absurd h (by decide), fun h => absurd h high⟩

theorem oneLevel_joins (level : Nat) (a b : NodeId) :
    Joins (barred g.source scopes) (.of cats) (oneLevel (levelsOf g cats scopes) level) 0 a b ↔
      Step g cats scopes level a b := by
  rw [← joins_iff]
  refine exists_congr fun j => exists_congr fun e => and_congr_right fun at' => ?_
  rw [oneLevel_getD at', levelsOf_getD at']

theorem exists_path_iff {fromSet : List NodeId} {level k : Nat} (pos : 1 ≤ k) {node : NodeId} :
    (∃ path, path.length = k ∧ ForbiddenPath g cats scopes fromSet level node path) ↔
      ∃ s ∈ fromSet, scopes.stops s = false ∧ Hops (Step g cats scopes level) k s node := by
  have arcs : ∀ s, Hops (Step g cats scopes level) k s node ↔ _ := fun s =>
    @hops_iff_leads Edge NodeId Edge.fromId Edge.toId s node (Usable g cats scopes level) k
  constructor
  · intro h
    obtain ⟨path, len, path'⟩ := h
    obtain ⟨s, mem, out, leads⟩ := path'.leads
    exact ⟨s, mem, out, (arcs s).mpr ⟨path, len, path'.usable, leads⟩⟩
  · intro h
    obtain ⟨s, mem, out, walk⟩ := h
    obtain ⟨path, len, usable, leads⟩ := (arcs s).mp walk
    refine ⟨path, len, ?_, usable, s, mem, out, leads⟩
    rintro rfl
    rw [List.length_nil] at len
    omega

end Paths

section Hops

/-- A filled slot holds the position of an edge of its key and level. -/
def Slotted (items : List (Edge × Nat)) (index : HopIndex) : Prop :=
  ∀ key slot, index key slot ≠ noEdge → ∃ e, items[index key slot]? = some (e, slot) ∧
    (e.fromId, e.category, e.toId) = key

theorem putHop_slotted {items : List (Edge × Nat)} {walked : NodeId → Bool} {index : HopIndex}
    (h : Slotted items index) {e : Edge} {lvl k : Nat} (at' : items[k]? = some (e, lvl)) :
    Slotted items (putHop walked index e lvl k) := by
  unfold putHop
  split
  · exact h
  · dsimp only
    split
    · intro key slot filled
      by_cases same : key = (e.fromId, e.category, e.toId)
      · subst same
        rw [Function.update_self] at filled ⊢
        by_cases here : slot = lvl
        · subst here
          rw [Function.update_self] at filled ⊢
          have whole : min k noEdge = k := by omega
          rw [whole]
          exact ⟨e, at', rfl⟩
        · rw [Function.update_of_ne here] at filled ⊢
          exact h _ _ filled
      · rw [Function.update_of_ne same] at filled ⊢
        exact h _ _ filled
    · exact h

theorem hopIndex_slotted (walked : NodeId → Bool) (kept : List Edge) (levels : List Nat) :
    Slotted (kept.zip levels) (hopIndex walked kept levels) := by
  unfold hopIndex
  refine List.foldlRecOn (motive := Slotted (kept.zip levels)) _ _ ?_ fun index h e mem => ?_
  · exact fun _ _ filled => absurd rfl filled
  · exact putHop_slotted h (List.mem_zipIdx_iff_getElem?.mp mem)

theorem pickHop_spec {walked : NodeId → Bool} {kept : List Edge} {levels : List Nat}
    {named : List EdgeCategoryId} {a b : NodeId} {level : Nat} {e : Edge}
    (pick : pickHop kept (hopIndex walked kept levels) named a b level = some e) :
    e.fromId = a ∧ e.toId = b ∧ ∃ j : Nat, kept[j]? = some e ∧ ∃ l ≤ level, levels[j]? = some l := by
  obtain ⟨k, found, at'⟩ := Option.bind_eq_some_iff.mp pick
  have filled : k ≠ noEdge := by simpa using List.find?_some found
  obtain ⟨slot, low, here⟩ := List.mem_flatMap.mp (List.mem_of_find?_eq_some found)
  obtain ⟨c, _, rfl⟩ := List.mem_map.mp here
  obtain ⟨e', inside, key⟩ := hopIndex_slotted walked kept levels (a, c, b) slot filled
  have both := List.getElem?_zip_eq_some.mp inside
  cases both.1.symm.trans at'
  rw [Prod.mk.injEq, Prod.mk.injEq] at key
  have := List.mem_range.mp low
  exact ⟨key.1, key.2.2, _, at', slot, by omega, both.2⟩

theorem reachedAt_report {adj : Adjacency} {reached : List LevelReached}
    (once : (reached.map LevelReached.id).Nodup) {r : LevelReached} (mem : r ∈ reached) {v : Nat}
    (lt : v < adj.len) (eq : r.id = adj.id v) : reachedAt adj reached (adj.id v) = some r := by
  unfold reachedAt
  rw [adj.indexOf_id lt, Option.bind_some]
  exact @Rules.record_report ⟨.all, adj, [], true⟩ reached once r mem v lt eq

end Hops

section Chain
variable {ε ρ : Type} {ctx : Ctx ε ρ} {g : PathGraph ε} {cats : List EdgeCategoryId}
  {fromSet : List NodeId} {scopes : PathScopes}

/-- The chain's index holds every node and kept edge. -/
abbrev Indexable (g : PathGraph ε) (cats : List EdgeCategoryId) (scopes : PathScopes) : Prop :=
  (barred g.source scopes).Fits (.of cats) indexLimit

abbrev chainAdj (g : PathGraph ε) (cats : List EdgeCategoryId) (scopes : PathScopes) : Adjacency :=
  Adjacency.build (barred g.source scopes) (.of cats)

abbrev startsOf (ctx : Ctx ε ρ) (fromSet : List NodeId) (scopes : PathScopes) :
    List (NodeId × Nat) := (seedsOf ctx fromSet scopes).map fun s => (s, 0)

theorem mem_seedsOf {s : NodeId} :
    s ∈ seedsOf ctx fromSet scopes ↔ s ∈ fromSet ∧ scopes.stops s = false := by
  simp only [seedsOf, List.mem_map, List.mem_insertionSort, List.mem_filter, Bool.not_eq_true']
  constructor
  · intro h
    obtain ⟨k, ⟨s', here, rfl⟩, rfl⟩ := h
    exact here
  · exact fun h => ⟨_, ⟨s, h, rfl⟩, rfl⟩

theorem mem_startsOf {s : NodeId} {l : Nat} : (s, l) ∈ startsOf ctx fromSet scopes ↔
    (s ∈ fromSet ∧ scopes.stops s = false) ∧ l = 0 := by
  simp only [startsOf, List.mem_map, Prod.mk.injEq, mem_seedsOf]
  constructor
  · intro h
    obtain ⟨s', here, rfl, rfl⟩ := h
    exact ⟨here, rfl⟩
  · exact fun h => ⟨s, h.1, rfl, h.2.symm⟩

theorem isHit_stops {n : NodeId} (hit : scopes.isHit n = true) : scopes.stops n = true := by
  simp only [PathScopes.isHit, Bool.and_eq_true] at hit
  simp only [PathScopes.stops, hit.1, Bool.true_or]

theorem hit_fresh {n : NodeId} (hit : scopes.isHit n = true) (l : Nat) :
    (n, l) ∉ startsOf ctx fromSet scopes := by
  intro mem
  have := (mem_startsOf.mp mem).1.2
  rw [isHit_stops hit] at this
  cases this

theorem chainAdj_len (fits : Indexable g cats scopes) :
    (chainAdj g cats scopes).len ≤ indexLimit := by
  have holds := (Adjacency.build_holds fits).2
  refine le_trans ?_ fits.1
  rw [Adjacency.len, ← List.toFinset_card_of_nodup (chainAdj g cats scopes).ids_nodup]
  exact Finset.card_le_card fun x hx => (holds x).mp (List.mem_toFinset.mp hx)

theorem levelsOf_length (fits : Indexable g cats scopes) :
    (levelsOf g cats scopes).length = (chainAdj g cats scopes).keptEdges := by
  have holds := (Adjacency.build_holds fits).1.length_eq
  rw [levelsOf, List.length_map]
  exact holds.symm

theorem reachesIds_iff (how : LevelWalk) (forward : how.walk = .forward) (level l : Nat)
    (edgeLevel : List Nat) (joins : ∀ a b, Joins (barred g.source scopes) (.of cats) edgeLevel l a b ↔
      Step g cats scopes level a b) (n : NodeId) :
    ReachesIds (barred g.source scopes) (.of cats) edgeLevel how (startsOf ctx fromSet scopes) l n ↔
      ∃ path, path.length ≤ how.maxDepth ∧ ForbiddenPath g cats scopes fromSet level n path := by
  have along : JoinsAlong (barred g.source scopes) (.of cats) edgeLevel how.walk l =
      Step g cats scopes level := by
    funext a b
    rw [forward]
    exact propext (joins a b)
  unfold ReachesIds
  rw [along]
  constructor
  · intro h
    obtain ⟨k, pos, deep, s, l', mem, _, walk⟩ := h
    obtain ⟨⟨inFrom, out⟩, _⟩ := mem_startsOf.mp mem
    obtain ⟨path, rfl, is⟩ := (exists_path_iff pos).mpr ⟨s, inFrom, out, walk⟩
    exact ⟨path, deep, is⟩
  · intro h
    obtain ⟨path, deep, is⟩ := h
    have pos : 1 ≤ path.length := List.length_pos_iff.mpr is.some_hop
    obtain ⟨s, inFrom, out, walk⟩ := (exists_path_iff pos).mp ⟨path, rfl, is⟩
    exact ⟨path.length, pos, deep, s, 0, mem_startsOf.mpr ⟨⟨inFrom, out⟩, rfl⟩, Nat.zero_le _, walk⟩

theorem reaches_iff (fits : Indexable g cats scopes) (how : LevelWalk)
    (forward : how.walk = .forward) (unmasked : how.within = none)
    (deep : indexLimit ≤ how.maxDepth) (level l : Nat) (edgeLevel : List Nat)
    (joins : ∀ a b, Joins (barred g.source scopes) (.of cats) edgeLevel l a b ↔
      Step g cats scopes level a b) (n : NodeId) :
    ReachesIds (barred g.source scopes) (.of cats) edgeLevel how (startsOf ctx fromSet scopes) l n ↔
      ∃ path, ForbiddenPath g cats scopes fromSet level n path := by
  constructor
  · intro h
    obtain ⟨path, _, is⟩ := (reachesIds_iff how forward level l edgeLevel joins n).mp h
    exact ⟨path, is⟩
  · intro h
    obtain ⟨path, is⟩ := h
    have oneWay : how.walk ≠ .both := by
      rw [forward]
      decide
    have shallow : ReachesIds (barred g.source scopes) (.of cats) edgeLevel
        { how with maxDepth := path.length } (startsOf ctx fromSet scopes) l n :=
      (reachesIds_iff { how with maxDepth := path.length } forward level l edgeLevel joins n).mpr
        ⟨path, le_rfl, is⟩
    obtain ⟨k, pos, _, rest⟩ := shallow
    exact (reachesIds_unbounded fits unmasked oneWay deep _ l n).mpr ⟨k, pos, rest⟩

theorem mem_chainWalk (fits : Indexable g cats scopes) {n : NodeId} (hit : scopes.isHit n = true)
    (level : Nat) :
    (n, level) ∈ (bfsLevels (chainAdj g cats scopes) (levelsOf g cats scopes)
        (.new .forward passes) (startsOf ctx fromSet scopes)).reached.map LevelReached.at ↔
      level < passes ∧ (∃ path, ForbiddenPath g cats scopes fromSet level n path) ∧
        ∀ l < level, ¬∃ path, ForbiddenPath g cats scopes fromSet l n path := by
  have agree : lengthsAgree (chainAdj g cats scopes) (levelsOf g cats scopes)
      (.new .forward passes) = true := by
    simp only [lengthsAgree, LevelWalk.new, Bool.and_true, beq_iff_eq]
    exact levelsOf_length fits
  have reaches : ∀ l, ReachesIds (barred g.source scopes) (.of cats) (levelsOf g cats scopes)
      (.new .forward passes) (startsOf ctx fromSet scopes) l n ↔
        ∃ path, ForbiddenPath g cats scopes fromSet l n path := fun l =>
    reaches_iff fits _ rfl rfl (by show indexLimit ≤ usizeMax; decide) l l _ (joins_iff l) n
  have told := @mem_reached_ids (barred g.source scopes) (.of cats) (levelsOf g cats scopes) indexLimit
    fits (.new .forward passes) rfl (by decide) agree (startsOf ctx fromSet scopes) n
    (.inr (hit_fresh hit)) level
  rw [reaches level] at told
  refine told.trans (and_congr_right fun _ => and_congr_right fun _ => ?_)
  exact forall_congr' fun l => imp_congr_right fun _ => not_congr (reaches l)

end Chain

section Witness
variable {ε ρ : Type} {ctx : Ctx ε ρ} {g : PathGraph ε} {cats : List EdgeCategoryId}
  {fromSet : List NodeId} {scopes : PathScopes} {level : Nat} {rank : List Nat}

def rankedHow (rank : List Nat) : LevelWalk :=
  { LevelWalk.new .forward 1 with parentRank := some rank }

abbrev Steps (g : PathGraph ε) (cats : List EdgeCategoryId) (scopes : PathScopes) (level : Nat)
    (rank : List Nat) : Nat → Nat → Prop :=
  Walkable (chainAdj g cats scopes) (oneLevel (levelsOf g cats scopes) level) (rankedHow rank) 0

abbrev startSet (ctx : Ctx ε ρ) (g : PathGraph ε) (cats : List EdgeCategoryId)
    (fromSet : List NodeId) (scopes : PathScopes) (rank : List Nat) : Set Nat :=
  Started (startSeeds (chainAdj g cats scopes) (rankedHow rank) (startsOf ctx fromSet scopes)) 0

abbrev rankedReached (ctx : Ctx ε ρ) (g : PathGraph ε) (cats : List EdgeCategoryId)
    (fromSet : List NodeId) (scopes : PathScopes) (level : Nat) (rank : List Nat) :
    List LevelReached :=
  (bfsLevels (chainAdj g cats scopes) (oneLevel (levelsOf g cats scopes) level) (rankedHow rank)
    (startsOf ctx fromSet scopes)).reached

theorem rankedHow_agree (fits : Indexable g cats scopes)
    (len : rank.length = (chainAdj g cats scopes).len) :
    lengthsAgree (chainAdj g cats scopes) (oneLevel (levelsOf g cats scopes) level)
      (rankedHow rank) = true := by
  simp only [lengthsAgree, rankedHow, LevelWalk.new, Bool.and_true, Bool.and_eq_true, beq_iff_eq,
    oneLevel, List.length_map]
  exact ⟨levelsOf_length fits, len⟩

theorem mem_within_paths (fits : Indexable g cats scopes) (n : Nat) {v : Nat}
    (lt : v < (chainAdj g cats scopes).len) :
    v ∈ Within (Steps g cats scopes level rank) (startSet ctx g cats fromSet scopes rank) n ↔
      ∃ path, path.length ≤ n ∧
        ForbiddenPath g cats scopes fromSet level ((chainAdj g cats scopes).id v) path := by
  have bounded := @reachedAt_iff (barred g.source scopes) (.of cats)
    (oneLevel (levelsOf g cats scopes) level) indexLimit fits { rankedHow rank with maxDepth := n } rfl
    (by show Walk.forward ≠ Walk.both; decide) (startsOf ctx fromSet scopes) 0 (by decide : 0 < 1)
    ((chainAdj g cats scopes).id v)
  rw [reachesIds_iff { rankedHow rank with maxDepth := n } rfl level 0 _ (oneLevel_joins level)]
    at bounded
  refine Iff.trans ⟨fun mem => ⟨v, rfl, mem⟩, fun h => ?_⟩ bounded
  obtain ⟨w, eq, mem⟩ := h
  obtain rfl := (chainAdj g cats scopes).id_injective (within_indexes _ _ _ _ _ mem) lt eq
  exact mem

theorem startSet_leaves {v : Nat} (mem : v ∈ startSet ctx g cats fromSet scopes rank) :
    (chainAdj g cats scopes).id v ∈ fromSet ∧
      scopes.stops ((chainAdj g cats scopes).id v) = false := by
  obtain ⟨s, l, here, at', _⟩ := (startSeeds_started (rankedHow rank) _ (by decide : 0 < 1) v).mp mem
  rw [(chainAdj g cats scopes).id_of_indexOf at']
  exact (mem_startsOf.mp here).1

/-- The hop shown between a reported node and its parent: a usable edge, however it is picked. -/
theorem exists_hop (fits : Indexable g cats scopes) {walked : NodeId → Bool}
    {named : List EdgeCategoryId} {r : LevelReached}
    (mem : r ∈ rankedReached ctx g cats fromSet scopes level rank) (low : r.level = 0) :
    ∃ e, (pickHop (keptOf g cats scopes)
        (hopIndex walked (keptOf g cats scopes) (levelsOf g cats scopes)) named r.parent r.id
          level).or (keptOf g cats scopes)[r.keptEdge]? = some e ∧
      Usable g cats scopes level e ∧ e.fromId = r.parent ∧ e.toId = r.id := by
  cases pick : pickHop (keptOf g cats scopes)
      (hopIndex walked (keptOf g cats scopes) (levelsOf g cats scopes)) named r.parent r.id level with
  | some e =>
    obtain ⟨isFrom, isTo, j, at', l, le, here⟩ := pickHop_spec pick
    refine ⟨e, rfl, usable_iff.mpr ⟨List.mem_of_getElem? at', ?_⟩, isFrom, isTo⟩
    rw [levelsOf, List.getElem?_map, at'] at here
    cases here
    exact le
  | none =>
    obtain ⟨u, inc, out, parent, isId, edge, taken⟩ := bfsLevels_taken _ r mem
    have kept := (Adjacency.mem_outgoing _ u inc).mp out
    obtain ⟨e, at', _, src, dst⟩ := (kept_iff fits u inc.other inc.edge inc.category).mp kept
    rw [low, oneLevel_getD at'] at taken
    have ends : ∀ {x i}, (chainAdj g cats scopes).ids[i]? = some x →
        (chainAdj g cats scopes).id i = x := fun found => by
      rw [Adjacency.id, List.getD_eq_getElem?_getD, found, Option.getD_some]
    refine ⟨e, ?_, usable_iff.mpr ⟨List.mem_of_getElem? at', taken⟩, ?_, ?_⟩
    · rw [Option.none_or, edge]
      exact at'
    · rw [parent]
      exact (ends src).symm
    · rw [isId]
      exact (ends dst).symm

/-- A node first reached at depth `n + 1`, no seed, is read back with a hop from its parent, one
step before. -/
theorem exists_hop_back (fits : Indexable g cats scopes)
    (len : rank.length = (chainAdj g cats scopes).len) (walked : NodeId → Bool)
    (named : List EdgeCategoryId) {n v : Nat}
    (front : v ∈ Front (Steps g cats scopes level rank) (startSet ctx g cats fromSet scopes rank)
      (n + 1))
    (fresh : v ∉ startSet ctx g cats fromSet scopes rank) :
    ∃ r e u, reachedAt (chainAdj g cats scopes)
        (rankedReached ctx g cats fromSet scopes level rank) ((chainAdj g cats scopes).id v) = some r ∧
      (pickHop (keptOf g cats scopes)
        (hopIndex walked (keptOf g cats scopes) (levelsOf g cats scopes)) named r.parent
          ((chainAdj g cats scopes).id v) level).or (keptOf g cats scopes)[r.keptEdge]? = some e ∧
      Usable g cats scopes level e ∧ e.fromId = r.parent ∧
      e.toId = (chainAdj g cats scopes).id v ∧ r.depth = n + 1 ∧
      r.parent = (chainAdj g cats scopes).id u ∧
      u ∈ Front (Steps g cats scopes level rank) (startSet ctx g cats fromSet scopes rank) n ∧
      Steps g cats scopes level rank u v := by
  have deep : (chainAdj g cats scopes).len ≤ (rankedHow rank).maxDepth :=
    (chainAdj_len fits).trans (by show indexLimit ≤ usizeMax; decide)
  obtain ⟨r, mem, isId, low, depth, u, parent, frontU, step⟩ :=
    exists_report (rankedHow_agree fits len) Nat.one_pos deep _ front (.inr fresh)
  obtain ⟨e, pick, usable, isFrom, isTo⟩ :=
    @exists_hop ε ρ ctx g cats fromSet scopes level rank fits walked named r mem low
  rw [isId] at pick isTo
  exact ⟨r, e, u, reachedAt_report (bfsLevels_nodup _ _ _) mem (within_indexes _ _ _ _ _ front.1) isId,
    pick, usable, isFrom, isTo, depth, parent, frontU, step⟩

/-- Following the parents of a node first reached at depth `n + 1`, no seed, shows a path of
`n + 1` hops from a seed, last hop first. -/
theorem followBack_path (fits : Indexable g cats scopes)
    (len : rank.length = (chainAdj g cats scopes).len) (walked : NodeId → Bool)
    (named : List EdgeCategoryId) (n : Nat) {v : Nat}
    (front : v ∈ Front (Steps g cats scopes level rank) (startSet ctx g cats fromSet scopes rank)
      (n + 1))
    (fresh : v ∉ startSet ctx g cats fromSet scopes rank) {fuel : Nat} (enough : n + 1 ≤ fuel)
    {path : List Edge} (room : path.length + (n + 1) ≤ (chainAdj g cats scopes).len) :
    ∃ s ∈ startSet ctx g cats fromSet scopes rank, ∃ more,
      followBack (chainAdj g cats scopes) (rankedReached ctx g cats fromSet scopes level rank)
        (fun a b => pickHop (keptOf g cats scopes)
          (hopIndex walked (keptOf g cats scopes) (levelsOf g cats scopes)) named a b level)
        (keptOf g cats scopes) fuel path ((chainAdj g cats scopes).id v) = path ++ more ∧
      more.length = n + 1 ∧ (∀ e ∈ more, Usable g cats scopes level e) ∧
      Leads Edge.fromId Edge.toId more.reverse ((chainAdj g cats scopes).id s)
        ((chainAdj g cats scopes).id v) := by
  induction n generalizing v fuel path with
  | zero =>
    obtain ⟨fuel, rfl⟩ := Nat.exists_eq_add_of_le' enough
    obtain ⟨r, e, u, reads, pick, usable, isFrom, isTo, depth, parent, frontU, _⟩ :=
      exists_hop_back fits len walked named front fresh
    refine ⟨u, frontU, [e], ?_, rfl, ?_, ?_⟩
    · rw [followBack, reads]
      dsimp only
      rw [pick]
      exact if_pos (.inl depth.le)
    · simpa using usable
    · simp [isFrom, isTo, parent]
  | succ n ih =>
    obtain ⟨fuel, rfl⟩ := Nat.exists_eq_add_of_le' enough
    obtain ⟨r, e, u, reads, pick, usable, isFrom, isTo, depth, parent, frontU, step⟩ :=
      exists_hop_back fits len walked named front fresh
    have freshU := not_seed_of_front front step (Nat.succ_ne_zero n)
    have room' : (path ++ [e]).length + (n + 1) ≤ (chainAdj g cats scopes).len := by
      rw [List.length_append, List.length_singleton]
      omega
    have enough' : n + 1 ≤ fuel + (n + 1) := by omega
    obtain ⟨s, seed, more, eq, length, all, leads⟩ := ih frontU freshU enough' room'
    refine ⟨s, seed, e :: more, ?_, by simp [length], ?_, ?_⟩
    · rw [show fuel + (n + 1 + 1) = fuel + (n + 1) + 1 from rfl, followBack, reads]
      dsimp only
      rw [pick]
      dsimp only
      rw [if_neg (by rw [depth, List.length_append, List.length_singleton]; omega), parent, eq,
        List.append_assoc]
      rfl
    · intro x hx
      cases List.mem_cons.mp hx with
      | inl eq => exact eq ▸ usable
      | inr old => exact all x old
    · rw [List.reverse_cons, leads_concat, isFrom, parent]
      exact ⟨leads, isTo⟩

/-- A node some path of the level ends at, no seed, is shown with a shortest one. -/
theorem followBack_shortest (fits : Indexable g cats scopes)
    (len : rank.length = (chainAdj g cats scopes).len) (walked : NodeId → Bool)
    (named : List EdgeCategoryId) {node : NodeId} (hit : scopes.stops node = true)
    (path : List Edge) (is : ForbiddenPath g cats scopes fromSet level node path) :
    ForbiddenPath g cats scopes fromSet level node
        (followBack (chainAdj g cats scopes) (rankedReached ctx g cats fromSet scopes level rank)
          (fun a b => pickHop (keptOf g cats scopes)
            (hopIndex walked (keptOf g cats scopes) (levelsOf g cats scopes)) named a b level)
          (keptOf g cats scopes) ((chainAdj g cats scopes).len + 1) [] node).reverse ∧
      ∀ path', ForbiddenPath g cats scopes fromSet level node path' →
        (followBack (chainAdj g cats scopes) (rankedReached ctx g cats fromSet scopes level rank)
          (fun a b => pickHop (keptOf g cats scopes)
            (hopIndex walked (keptOf g cats scopes) (levelsOf g cats scopes)) named a b level)
          (keptOf g cats scopes) ((chainAdj g cats scopes).len + 1) [] node).reverse.length ≤
            path'.length := by
  obtain ⟨v, lt, rfl⟩ : ∃ v < (chainAdj g cats scopes).len, (chainAdj g cats scopes).id v = node := by
    obtain ⟨s, mem, out, walk⟩ := (exists_path_iff (List.length_pos_iff.mpr is.some_hop)).mp ⟨path, rfl, is⟩
    obtain ⟨m, eq⟩ := Nat.exists_eq_add_of_le' (List.length_pos_iff.mpr is.some_hop)
    rw [eq] at walk
    obtain ⟨c, _, step⟩ := walk
    have joins : JoinsAlong (barred g.source scopes) (.of cats) (levelsOf g cats scopes) .forward level c
        node := (joins_iff level c node).mpr step
    exact (joinsAlong_indexed fits joins).2
  have within : ∀ path', ForbiddenPath g cats scopes fromSet level ((chainAdj g cats scopes).id v) path' →
      v ∈ Within (Steps g cats scopes level rank) (startSet ctx g cats fromSet scopes rank)
        path'.length := fun path' is' => (mem_within_paths fits _ lt).mpr ⟨path', le_rfl, is'⟩
  obtain ⟨n, _, front⟩ := exists_front _ _ (within path is)
  have fresh : v ∉ startSet ctx g cats fromSet scopes rank := by
    intro mem
    have := (startSet_leaves mem).2
    rw [hit] at this
    cases this
  have few : n + 1 ≤ (chainAdj g cats scopes).len := by
    have sub := @within_indexes (chainAdj g cats scopes) (oneLevel (levelsOf g cats scopes) level)
      (rankedHow rank) 0 (startSet ctx g cats fromSet scopes rank)
    have count := card_of_front _ _ (indexes_finite (chainAdj g cats scopes)) sub ⟨v, front⟩
    have most := Set.ncard_le_ncard (sub (n + 1)) (indexes_finite (chainAdj g cats scopes))
    rw [ncard_indexes] at most
    omega
  obtain ⟨s, seed, more, eq, length, all, leads⟩ :=
    @followBack_path ε ρ ctx g cats fromSet scopes level rank fits len walked named n v front fresh
      ((chainAdj g cats scopes).len + 1) (by omega) [] (by rw [List.length_nil]; omega)
  rw [eq, List.nil_append]
  refine ⟨⟨?_, ?_, ?_⟩, fun path' is' => ?_⟩
  · intro none
    rw [List.reverse_eq_nil_iff] at none
    rw [none, List.length_nil] at length
    omega
  · exact fun e mem => all e (List.mem_reverse.mp mem)
  · exact ⟨_, (startSet_leaves seed).1, (startSet_leaves seed).2, leads⟩
  · rw [List.length_reverse, length]
    by_contra short
    exact front.2 (within_mono _ _ (by omega) (within path' is'))

end Witness

section Hits
variable {ε ρ : Type} {ctx : Ctx ε ρ} {g : PathGraph ε} {chain : Chain} {cats : List EdgeCategoryId}
  {fromSet : List NodeId} {scopes : PathScopes}

theorem qnameRank_length (adj : Adjacency) (on : List NodeId) :
    (qnameRank ctx adj on).length = adj.len := by
  unfold qnameRank
  refine List.foldlRecOn (motive := fun table : List Nat => table.length = adj.len) _ _
    List.length_replicate fun table len e _ => ?_
  rw [List.length_set, len]

variable (ctx g cats fromSet scopes) in
def chainReached : List LevelReached :=
  (bfsLevels (chainAdj g cats scopes) (levelsOf g cats scopes) (.new .forward passes)
    (startsOf ctx fromSet scopes)).reached

variable (ctx g cats fromSet scopes) in
def passedNodes : List NodeId :=
  (bfsLevels (chainAdj g cats scopes) (levelsOf g cats scopes) (.new .forward passes)
    (startsOf ctx fromSet scopes)).seeds.map Prod.fst ++
    (chainReached ctx g cats fromSet scopes).map LevelReached.id

variable (ctx g cats fromSet scopes) in
def witness (level : Nat) (node : NodeId) : List Edge :=
  let adj := chainAdj g cats scopes
  let on := passedNodes ctx g cats fromSet scopes
  let index := hopIndex (fun id => (adj.indexOf id).isSome && on.contains id)
    (keptOf g cats scopes) (levelsOf g cats scopes)
  (followBack adj (rankedReached ctx g cats fromSet scopes level (qnameRank ctx adj on))
    (fun a b => pickHop (keptOf g cats scopes) index (byName cats) a b level)
    (keptOf g cats scopes) (adj.len + 1) [] node).reverse

theorem walkChain_eq : walkChain ctx g chain cats (seedsOf ctx fromSet scopes) scopes =
    let hits := (chainReached ctx g cats fromSet scopes).filter fun r => scopes.isHit r.id
    if hits = [] then []
    else (List.range passes).flatMap fun level =>
      let atLevel := (hits.filter fun h => h.level = level).map LevelReached.id
      if atLevel = [] then []
      else atLevel.map fun node =>
        let path := witness ctx g cats fromSet scopes level node
        ⟨node, level, chain, path, path.map (hopRow ctx g)⟩ := by
  unfold walkChain
  dsimp only
  rw [keptOrdinals_levels, keptOrdinals_edges]
  rfl

theorem mem_walkChain {h : PathHit ρ} :
    h ∈ walkChain ctx g chain cats (seedsOf ctx fromSet scopes) scopes ↔
      ((h.node, h.level) ∈ (chainReached ctx g cats fromSet scopes).map LevelReached.at ∧
        h.level < passes ∧ scopes.isHit h.node = true) ∧ h.chain = chain ∧
      h.path = witness ctx g cats fromSet scopes h.level h.node ∧
      h.hops = h.path.map (hopRow ctx g) := by
  rw [walkChain_eq]
  dsimp only
  constructor
  · intro mem
    split at mem
    · cases mem
    · obtain ⟨level, low, mem⟩ := List.mem_flatMap.mp mem
      split at mem
      · cases mem
      · obtain ⟨node, here, rfl⟩ := List.mem_map.mp mem
        obtain ⟨r, kept, rfl⟩ := List.mem_map.mp here
        obtain ⟨kept, eq⟩ := List.mem_filter.mp kept
        obtain ⟨there, hit⟩ := List.mem_filter.mp kept
        cases of_decide_eq_true eq
        exact ⟨⟨List.mem_map.mpr ⟨r, there, rfl⟩, List.mem_range.mp low, hit⟩, rfl, rfl, rfl⟩
  · intro h'
    obtain ⟨⟨there, low, hit⟩, isChain, isPath, isHops⟩ := h'
    obtain ⟨r, there, eq⟩ := List.mem_map.mp there
    obtain ⟨eqId, eqLevel⟩ := Prod.mk.inj eq
    have kept : r ∈ (chainReached ctx g cats fromSet scopes).filter fun r => scopes.isHit r.id :=
      List.mem_filter.mpr ⟨there, by rw [eqId]; exact hit⟩
    have here : h.node ∈ (((chainReached ctx g cats fromSet scopes).filter fun r =>
        scopes.isHit r.id).filter fun r => r.level = h.level).map LevelReached.id :=
      List.mem_map.mpr ⟨r, List.mem_filter.mpr ⟨kept, decide_eq_true eqLevel⟩, eqId⟩
    rw [if_neg (List.ne_nil_of_mem kept)]
    refine List.mem_flatMap.mpr ⟨h.level, List.mem_range.mpr low, ?_⟩
    rw [if_neg (List.ne_nil_of_mem here)]
    refine List.mem_map.mpr ⟨h.node, here, ?_⟩
    cases h
    simp only at isChain isPath isHops
    subst isPath isHops isChain
    rfl

theorem walkChain_nodup :
    ((walkChain ctx g chain cats (seedsOf ctx fromSet scopes) scopes).map PathHit.node).Nodup := by
  rw [walkChain_eq]
  dsimp only
  split
  · exact List.nodup_nil
  · rw [List.map_flatMap]
    have once : (((chainReached ctx g cats fromSet scopes).filter fun r =>
        scopes.isHit r.id).map LevelReached.id).Nodup :=
      (bfsLevels_nodup _ _ _).sublist ((List.filter_sublist).map _)
    have nodes : ∀ level, (if (((chainReached ctx g cats fromSet scopes).filter fun r =>
        scopes.isHit r.id).filter fun h => h.level = level).map LevelReached.id = [] then []
        else ((((chainReached ctx g cats fromSet scopes).filter fun r =>
          scopes.isHit r.id).filter fun h => h.level = level).map LevelReached.id).map fun node =>
            (⟨node, level, chain, witness ctx g cats fromSet scopes level node,
              (witness ctx g cats fromSet scopes level node).map (hopRow ctx g)⟩ :
              PathHit ρ)).map PathHit.node =
        (((chainReached ctx g cats fromSet scopes).filter fun r =>
          scopes.isHit r.id).filter fun h => h.level = level).map LevelReached.id := by
      intro level
      split
      · rename_i none
        rw [none]
        rfl
      · rw [List.map_map]
        exact List.map_id _
    simp only [nodes]
    rw [List.nodup_flatMap]
    refine ⟨fun level _ => once.sublist ((List.filter_sublist).map _), ?_⟩
    refine List.nodup_range.imp fun {a b} apart => ?_
    intro x inA inB
    obtain ⟨r, memR, rfl⟩ := List.mem_map.mp inA
    obtain ⟨r', memR', same⟩ := List.mem_map.mp inB
    obtain ⟨memR, levelR⟩ := List.mem_filter.mp memR
    obtain ⟨memR', levelR'⟩ := List.mem_filter.mp memR'
    obtain rfl := List.inj_on_of_nodup_map once memR' memR same
    exact apart ((of_decide_eq_true levelR).symm.trans (of_decide_eq_true levelR'))

theorem chainReached_past (past : ¬Indexable g cats scopes) :
    chainReached ctx g cats fromSet scopes = [] := by
  rw [List.eq_nil_iff_forall_not_mem]
  intro r mem
  have empty : chainAdj g cats scopes = .empty := Adjacency.build_past past
  unfold chainReached at mem
  rw [empty] at mem
  obtain ⟨u, inc, out, _⟩ := bfsLevels_taken _ r mem
  exact absurd out List.not_mem_nil

variable (ctx g chain cats fromSet scopes) in
structure Exact (hits : List (PathHit ρ)) : Prop where
  hit_iff : ∀ n, n ∈ hits.map PathHit.node ↔ Indexable g cats scopes ∧ scopes.isHit n = true ∧
    ∃ level path, ForbiddenPath g cats scopes fromSet level n path
  once : (hits.map PathHit.node).Nodup
  chain : ∀ h ∈ hits, h.chain = chain
  hops : ∀ h ∈ hits, h.hops = h.path.map (hopRow ctx g)
  path : ∀ h ∈ hits, ForbiddenPath g cats scopes fromSet h.level h.node h.path
  least : ∀ h ∈ hits, ∀ level path, ForbiddenPath g cats scopes fromSet level h.node path →
    h.level ≤ level
  shortest : ∀ h ∈ hits, ∀ path, ForbiddenPath g cats scopes fromSet h.level h.node path →
    h.path.length ≤ path.length

theorem walkChain_exact : Exact ctx g chain cats fromSet scopes
    (walkChain ctx g chain cats (seedsOf ctx fromSet scopes) scopes) := by
  by_cases fits : Indexable g cats scopes
  · have told : ∀ h ∈ walkChain ctx g chain cats (seedsOf ctx fromSet scopes) scopes,
        scopes.isHit h.node = true ∧ h.path = witness ctx g cats fromSet scopes h.level h.node ∧
          (∃ path, ForbiddenPath g cats scopes fromSet h.level h.node path) ∧
          ∀ l < h.level, ¬∃ path, ForbiddenPath g cats scopes fromSet l h.node path := by
      intro h mem
      obtain ⟨⟨there, _, hit⟩, _, isPath, _⟩ := mem_walkChain.mp mem
      exact ⟨hit, isPath, ((mem_chainWalk fits hit h.level).mp there).2⟩
    have shown : ∀ h ∈ walkChain ctx g chain cats (seedsOf ctx fromSet scopes) scopes,
        ForbiddenPath g cats scopes fromSet h.level h.node h.path ∧
          ∀ path, ForbiddenPath g cats scopes fromSet h.level h.node path →
            h.path.length ≤ path.length := by
      intro h mem
      obtain ⟨hit, isPath, ⟨path, is⟩, _⟩ := told h mem
      rw [isPath]
      exact followBack_shortest fits (qnameRank_length _ _) _ _ (isHit_stops hit) path is
    refine ⟨fun n => ?_, walkChain_nodup, fun h mem => (mem_walkChain.mp mem).2.1,
      fun h mem => (mem_walkChain.mp mem).2.2.2, fun h mem => (shown h mem).1,
      fun h mem level path is => ?_, fun h mem => (shown h mem).2⟩
    · constructor
      · intro mem
        obtain ⟨h, here, rfl⟩ := List.mem_map.mp mem
        obtain ⟨hit, _, some', _⟩ := told h here
        exact ⟨fits, hit, h.level, some'⟩
      · intro reach
        obtain ⟨_, hit, level, path, is⟩ := reach
        -- The least level is one of the passes, since no tier is above the last.
        have some' : ∃ l, ∃ path, ForbiddenPath g cats scopes fromSet l n path := ⟨level, path, is⟩
        classical
        have low : Nat.find some' < passes :=
          lt_of_le_of_lt (Nat.find_min' some' ⟨path, is.last⟩) (by decide)
        have there := (@mem_chainWalk ε ρ ctx g cats fromSet scopes fits n hit (Nat.find some')).mpr
          ⟨low, Nat.find_spec some', fun l lt => Nat.find_min some' lt⟩
        let shown := witness ctx g cats fromSet scopes (Nat.find some') n
        exact List.mem_map.mpr ⟨⟨n, Nat.find some', chain, shown, shown.map (hopRow ctx g)⟩,
          mem_walkChain.mpr ⟨⟨there, low, hit⟩, rfl, rfl, rfl⟩, rfl⟩
    · by_contra lower
      exact (told h mem).2.2.2 level (not_le.mp lower) ⟨path, is⟩
  · have none : walkChain ctx g chain cats (seedsOf ctx fromSet scopes) scopes = [] := by
      rw [List.eq_nil_iff_forall_not_mem]
      intro h mem
      have there := (mem_walkChain.mp mem).1.1
      rw [chainReached_past fits] at there
      cases there
    rw [none]
    exact ⟨by simp [fits], by simp, by simp, by simp, by simp, by simp, by simp⟩

end Hits

section Best
variable {ρ : Type}

structure Best (seen : List (PathHit ρ)) (best : IdMap (PathHit ρ)) : Prop where
  held : ∀ n h, best[n]? = some h →
    h ∈ seen ∧ h.node = n ∧ ∀ h' ∈ seen, h'.node = n → h.rank ≤ h'.rank
  full : ∀ h ∈ seen, ∃ held, best[h.node]? = some held

theorem keepBest_best {seen : List (PathHit ρ)} {best : IdMap (PathHit ρ)} (b : Best seen best)
    (h : PathHit ρ) : Best (seen ++ [h]) (keepBest best h) := by
  -- What one hit of a node is replaced by, or put for.
  have insert (under : ∀ held, best[h.node]? = some held → h.rank ≤ held.rank) :
      Best (seen ++ [h]) (best.insert h.node h) := by
    constructor
    · intro n g at'
      rw [OrdMap.get_insert] at at'
      split at at'
      · rename_i same
        cases at'
        refine ⟨List.mem_append_right _ List.mem_cons_self, same, fun h' mem eq => ?_⟩
        cases List.mem_append.mp mem with
        | inl old =>
          obtain ⟨held, is⟩ := b.full h' old
          rw [eq, ← same] at is
          exact (under held is).trans ((b.held _ _ is).2.2 h' old (eq.trans same.symm))
        | inr new => exact (List.mem_singleton.mp new).symm ▸ le_rfl
      · rename_i other
        obtain ⟨mem, eq, least⟩ := b.held n g at'
        refine ⟨List.mem_append_left _ mem, eq, fun h' mem' eq' => ?_⟩
        cases List.mem_append.mp mem' with
        | inl old => exact least h' old eq'
        | inr new => exact absurd (List.mem_singleton.mp new ▸ eq') other
    · intro g mem
      rw [OrdMap.get_insert]
      split
      · exact ⟨h, rfl⟩
      · rename_i other
        cases List.mem_append.mp mem with
        | inl old => exact b.full g old
        | inr new => exact absurd (congrArg PathHit.node (List.mem_singleton.mp new)).symm other
  unfold keepBest
  split
  · rename_i held at'
    split
    · rename_i le
      constructor
      · intro n g at''
        obtain ⟨mem, eq, least⟩ := b.held n g at''
        refine ⟨List.mem_append_left _ mem, eq, fun h' mem' eq' => ?_⟩
        cases List.mem_append.mp mem' with
        | inl old => exact least h' old eq'
        | inr new =>
          obtain rfl := List.mem_singleton.mp new
          rw [eq', at''] at at'
          cases at'
          exact le
      · intro g mem
        cases List.mem_append.mp mem with
        | inl old => exact b.full g old
        | inr new => exact ⟨held, List.mem_singleton.mp new ▸ at'⟩
    · rename_i more
      refine insert fun held' is => ?_
      rw [at'] at is
      cases is
      exact (not_le.mp more).le
  · rename_i none
    refine insert fun held is => ?_
    rw [none] at is
    cases is

theorem foldl_keepBest (found : List (PathHit ρ)) : Best found (found.foldl keepBest ∅) := by
  have run : ∀ (rest seen : List (PathHit ρ)) (best : IdMap (PathHit ρ)), Best seen best →
      Best (seen ++ rest) (rest.foldl keepBest best) := by
    intro rest
    induction rest with
    | nil =>
      intro seen best b
      rwa [List.append_nil]
    | cons h rest ih =>
      intro seen best b
      have := ih (seen ++ [h]) _ (keepBest_best b h)
      rwa [List.append_assoc] at this
  refine run found [] ∅ ⟨fun n h at' => ?_, by simp⟩
  rw [Std.ExtTreeMap.getElem?_empty] at at'
  cases at'

theorem mem_bestHits {found : List (PathHit ρ)} {h : PathHit ρ} : h ∈ bestHits found ↔
    (found.foldl keepBest ∅)[h.node]? = some h := by
  simp only [bestHits, List.mem_map, Prod.exists, exists_eq_right]
  constructor
  · intro mem
    obtain ⟨n, mem⟩ := mem
    have at' := OrdMap.mem_toList.mp mem
    rw [((foldl_keepBest found).held n h at').2.1]
    exact at'
  · exact fun at' => ⟨h.node, OrdMap.mem_toList.mpr at'⟩

theorem bestHits_nodup (found : List (PathHit ρ)) : ((bestHits found).map PathHit.node).Nodup := by
  have keys : (bestHits found).map PathHit.node =
      (found.foldl keepBest (∅ : IdMap (PathHit ρ))).toList.map Prod.fst := by
    rw [bestHits, List.map_map]
    refine List.map_congr_left fun e mem => ?_
    exact ((foldl_keepBest found).held e.1 e.2 (OrdMap.mem_toList.mp mem)).2.1
  rw [keys, List.Nodup, List.pairwise_map]
  refine (found.foldl keepBest (∅ : IdMap (PathHit ρ))).distinct_keys_toList.imp fun ne eq => ?_
  exact ne (compare_eq_iff_eq.mpr eq)

end Best

section Rule
variable {ε ρ : Type} (ctx : Ctx ε ρ) (cats : List EdgeCategoryId) (named : Bool)

def Ctx.ruleScopes (scope : String × String × List String) :
    Except String (List NodeId × PathScopes) := do
  let fromSet ← ctx.scope scope.1 "from"
  let toSet ← ctx.scope scope.2.1 "to"
  let viaSet ← ctx.viaScope scope.2.2
  .ok (fromSet, ⟨toSet, viaSet⟩)

def reportedHits (fromSet : List NodeId) (scopes : PathScopes) : List (PathHit ρ) :=
  (bestHits (foundHits ctx cats named (seedsOf ctx fromSet scopes) scopes)).insertionSort
    fun a b => reportKey ctx a ≤ reportKey ctx b

structure Reported (fromSet : List NodeId) (scopes : PathScopes) (hits : List (PathHit ρ)) :
    Prop where
  sorted : hits.Pairwise fun a b => reportKey ctx a ≤ reportKey ctx b
  once : (hits.map PathHit.node).Nodup
  hit_iff : ∀ n, n ∈ hits.map PathHit.node ↔ ∃ c ∈ chainsOf ctx cats named,
    Indexable c.1 c.2.2 scopes ∧ scopes.isHit n = true ∧
      ∃ level path, ForbiddenPath c.1 c.2.2 scopes fromSet level n path
  shown : ∀ h ∈ hits, ∃ c ∈ chainsOf ctx cats named, h.chain = c.2.1 ∧
    h.hops = h.path.map (hopRow ctx c.1) ∧
      ForbiddenPath c.1 c.2.2 scopes fromSet h.level h.node h.path
  least : ∀ h ∈ hits, ∀ c ∈ chainsOf ctx cats named, Indexable c.1 c.2.2 scopes →
    ∀ level path, ForbiddenPath c.1 c.2.2 scopes fromSet level h.node path →
      h.rank ≤ toLex (level, toLex (path.length, c.2.1.order))

variable {ctx cats named}

theorem mem_foundHits {fromSet : List NodeId} {scopes : PathScopes} {h : PathHit ρ} :
    h ∈ foundHits ctx cats named (seedsOf ctx fromSet scopes) scopes ↔
      ∃ c ∈ chainsOf ctx cats named,
        h ∈ walkChain ctx c.1 c.2.1 c.2.2 (seedsOf ctx fromSet scopes) scopes := List.mem_flatMap

theorem Exact.rank_le {g : PathGraph ε} {chain : Chain} {walked : List EdgeCategoryId}
    {fromSet : List NodeId} {scopes : PathScopes} {hits : List (PathHit ρ)}
    (e : Exact ctx g chain walked fromSet scopes hits) {h : PathHit ρ} (mem : h ∈ hits) {level : Nat}
    {path : List Edge} (is : ForbiddenPath g walked scopes fromSet level h.node path) :
    h.rank ≤ toLex (level, toLex (path.length, chain.order)) := by
  rw [PathHit.rank, e.chain h mem, e.hops h mem, List.length_map, Prod.Lex.toLex_le_toLex]
  cases (e.least h mem level path is).lt_or_eq with
  | inl lt => exact .inl lt
  | inr eq =>
    refine .inr ⟨eq, Prod.Lex.toLex_le_toLex.mpr ?_⟩
    cases (e.shortest h mem path (eq ▸ is)).lt_or_eq with
    | inl lt => exact .inl lt
    | inr same => exact .inr ⟨same, le_rfl⟩

theorem reportedHits_reported (fromSet : List NodeId) (scopes : PathScopes) :
    Reported ctx cats named fromSet scopes (reportedHits ctx cats named fromSet scopes) := by
  have best := foldl_keepBest (foundHits ctx cats named (seedsOf ctx fromSet scopes) scopes)
  have perm : (reportedHits ctx cats named fromSet scopes).Perm
      (bestHits (foundHits ctx cats named (seedsOf ctx fromSet scopes) scopes)) :=
    List.perm_insertionSort _ _
  have held : ∀ h ∈ reportedHits ctx cats named fromSet scopes,
      h ∈ foundHits ctx cats named (seedsOf ctx fromSet scopes) scopes ∧
        ∀ h' ∈ foundHits ctx cats named (seedsOf ctx fromSet scopes) scopes, h'.node = h.node →
          h.rank ≤ h'.rank := by
    intro h mem
    have is := best.held _ _ (mem_bestHits.mp (perm.mem_iff.mp mem))
    exact ⟨is.1, is.2.2⟩
  have exact_ : ∀ c ∈ chainsOf ctx cats named, Exact ctx c.1 c.2.1 c.2.2 fromSet scopes
      (walkChain ctx c.1 c.2.1 c.2.2 (seedsOf ctx fromSet scopes) scopes) :=
    fun _ _ => walkChain_exact
  refine ⟨?_, ?_, fun n => ?_, fun h mem => ?_, fun h mem c chain fits level path is => ?_⟩
  · have : IsTrans (PathHit ρ) fun a b => reportKey ctx a ≤ reportKey ctx b :=
      ⟨fun _ _ _ => le_trans⟩
    have : Std.Total fun a b : PathHit ρ => reportKey ctx a ≤ reportKey ctx b :=
      ⟨fun _ _ => le_total _ _⟩
    exact List.pairwise_insertionSort _ _
  · exact (perm.map _).nodup_iff.mpr (bestHits_nodup _)
  · rw [(perm.map PathHit.node).mem_iff]
    constructor
    · intro mem
      obtain ⟨h, here, rfl⟩ := List.mem_map.mp mem
      obtain ⟨c, chain, told⟩ := mem_foundHits.mp (best.held _ _ (mem_bestHits.mp here)).1
      exact ⟨c, chain, ((exact_ c chain).hit_iff _).mp (List.mem_map_of_mem told)⟩
    · intro reach
      obtain ⟨c, chain, reach⟩ := reach
      obtain ⟨h, told, rfl⟩ := List.mem_map.mp (((exact_ c chain).hit_iff n).mpr reach)
      obtain ⟨g, at'⟩ := best.full h (mem_foundHits.mpr ⟨c, chain, told⟩)
      have same := (best.held _ _ at').2.1
      exact List.mem_map.mpr ⟨g, mem_bestHits.mpr (same ▸ at'), same⟩
  · obtain ⟨c, chain, told⟩ := mem_foundHits.mp (held h mem).1
    exact ⟨c, chain, (exact_ c chain).chain h told, (exact_ c chain).hops h told,
      (exact_ c chain).path h told⟩
  · have hit : scopes.isHit h.node = true := by
      obtain ⟨c', chain', told⟩ := mem_foundHits.mp (held h mem).1
      exact (((exact_ c' chain').hit_iff _).mp (List.mem_map_of_mem told)).2.1
    obtain ⟨h', told, same⟩ := List.mem_map.mp
      (((exact_ c chain).hit_iff h.node).mpr ⟨fits, hit, level, path, is⟩)
    exact ((held h mem).2 h' (mem_foundHits.mpr ⟨c, chain, told⟩) same).trans
      ((exact_ c chain).rank_le told (same.symm ▸ is))

/-- For every merged graph, scopes and categories: each chain whose graph is within the index limit
hits exactly the forbidden reach, each node at its least tier with a shortest path of it, a chain past
the limit hits nothing, and the rule reports each node its chains hit once, by the path that is
least by tier, hops and chain, its evidence the path's first rows. -/
theorem forbidPath_exact (ctx : Ctx ε ρ) (rule : ConstraintRule)
    (scope : String × String × List String) (cats : List EdgeCategoryId) (named : Bool) :
    (∀ (g : PathGraph ε) (chain : Chain) (walked : List EdgeCategoryId) (fromSet : List NodeId)
      (scopes : PathScopes), Exact ctx g chain walked fromSet scopes
        (walkChain ctx g chain walked (seedsOf ctx fromSet scopes) scopes)) ∧
    (∀ (fromSet : List NodeId) (scopes : PathScopes),
      Reported ctx cats named fromSet scopes (reportedHits ctx cats named fromSet scopes)) ∧
    forbidPath ctx rule scope cats named = (ctx.ruleScopes scope).map fun s =>
      (reportedHits ctx cats named s.1 s.2).map (violationOf ctx rule) := by
  refine ⟨fun _ _ _ _ _ => walkChain_exact, reportedHits_reported, ?_⟩
  unfold forbidPath Ctx.ruleScopes
  cases ctx.scope scope.1 "from" with
  | error _ => rfl
  | ok fromSet =>
    cases ctx.scope scope.2.1 "to" with
    | error _ => rfl
    | ok toSet =>
      cases ctx.viaScope scope.2.2 with
      | error _ => rfl
      | ok viaSet => rfl

end Rule

def crowdedCalls : PathGraph Unit :=
  nodeGraph ⟨fun _ => none, fun _ _ => (.derived, none)⟩
    ⟨[], List.replicate (indexLimit + 1) ⟨1, 2, EdgeCategory.calls, .strong, []⟩⟩

def crowdedCtx : Ctx Unit Unit :=
  ⟨⟨[], []⟩, fun _ => [], fun _ => ⟨"", "", none, none⟩,
    ⟨fun _ => none, fun _ _ => (.derived, none)⟩, fun _ _ _ _ _ => ()⟩

/-- Past the index limit a call from `from` into `to` is not hit. -/
theorem crowdedCalls_missed : PathScopes.isHit ⟨[2], []⟩ 2 = true ∧
    ForbiddenPath crowdedCalls [EdgeCategory.calls] ⟨[2], []⟩ [1] 1 2
      [⟨1, 2, EdgeCategory.calls, .strong, []⟩] ∧
    walkChain crowdedCtx crowdedCalls .symbols [EdgeCategory.calls]
      (seedsOf crowdedCtx [1] ⟨[2], []⟩) ⟨[2], []⟩ = [] := by
  have past : ¬Indexable crowdedCalls [EdgeCategory.calls] ⟨[2], []⟩ := by
    intro fits
    have few := fits.2
    have whole : (barred crowdedCalls.source ⟨[2], []⟩).keptEdges (.of [EdgeCategory.calls]) =
        List.replicate (indexLimit + 1) ⟨1, 2, EdgeCategory.calls, .strong, []⟩ := by
      have edges : crowdedCalls.source.edges =
          List.replicate (indexLimit + 1) ⟨1, 2, EdgeCategory.calls, .strong, []⟩ := rfl
      rw [GraphSource.keptEdges, barred, edges, List.filter_replicate_of_pos (by decide),
        List.filter_replicate_of_pos (by decide)]
    rw [whole, List.length_replicate] at few
    omega
  refine ⟨by decide, ⟨by simp, ?_, 1, by simp, by decide, by simp⟩, ?_⟩
  · intro e mem
    cases List.mem_singleton.mp mem
    refine ⟨?_, by simp, by decide, le_rfl⟩
    show _ ∈ [] ++ List.replicate (indexLimit + 1) _
    exact List.mem_append_right _ (List.mem_replicate.mpr ⟨Nat.succ_ne_zero _, rfl⟩)
  · have exact_ : Exact crowdedCtx crowdedCalls .symbols [EdgeCategory.calls] [1] ⟨[2], []⟩ _ :=
      walkChain_exact
    rw [← List.map_eq_nil_iff (f := PathHit.node), List.eq_nil_iff_forall_not_mem]
    exact fun n mem => past ((exact_.hit_iff n).mp mem).1

end Glia.Engine.Check
