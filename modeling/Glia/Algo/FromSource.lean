import Glia.Algo.Indexed
import Glia.Algo.ViewQuotientExact

/-! The weighted view of a graph source, read off an index in the source's own order; it depends
on the nodes and edges only. -/
namespace Glia.Algo

section Table

abbrev Weights := List (EdgeCategoryId × UInt32)

def dedupFrom (e : EdgeCategoryId × UInt32) : Weights → Weights
  | [] => [e]
  | f :: rest => if e.1 = f.1 then dedupFrom e rest else e :: dedupFrom f rest

def dedupByKey : Weights → Weights
  | [] => []
  | e :: rest => dedupFrom e rest

/-- The positive category weights by category; of several for one the first listed counts. -/
def weightTable (weights : Weights) : Weights :=
  (dedupByKey (weights.insertionSort fun a b => a.1 ≤ b.1)).filter fun e => 0 < e.2

def weightIn (table : Weights) (c : EdgeCategoryId) : Nat :=
  ((table.lookup c).map UInt32.toNat).getD 0

theorem weightIn_le (table : Weights) (c : EdgeCategoryId) : weightIn table c ≤ u64Max := by
  rw [weightIn]
  cases table.lookup c with
  | none => exact Nat.zero_le _
  | some w =>
    have small := w.toNat_lt
    rw [Option.map_some, Option.getD_some, u64Max]
    omega

theorem weightIn_pos {weights : Weights} {c : EdgeCategoryId} :
    0 < weightIn (weightTable weights) c ↔ c ∈ (weightTable weights).map Prod.fst := by
  rw [weightIn]
  cases held : (weightTable weights).lookup c with
  | none =>
    refine iff_of_false (Nat.lt_irrefl 0) fun mem => ?_
    obtain ⟨e, there, eq⟩ := List.mem_map.mp mem
    have apart := List.lookup_eq_none_iff.mp held e there
    rw [eq, bne_self_eq_false] at apart
    cases apart
  | some w =>
    obtain ⟨front, back, eq, _⟩ := List.lookup_eq_some_iff.mp held
    have mem : (c, w) ∈ weightTable weights := by
      rw [eq]
      exact List.mem_append_right _ List.mem_cons_self
    have pos := (List.mem_filter.mp mem).2
    refine iff_of_true ?_ (List.mem_map_of_mem mem)
    rw [decide_eq_true_eq, UInt32.lt_iff_toNat_lt] at pos
    exact pos

end Table

section FromSource

/-- The indices in ascending order of their ids. -/
def Adjacency.byId (adj : Adjacency) : List Nat :=
  (List.range adj.len).insertionSort fun i j => adj.id i ≤ adj.id j

def Adjacency.sortedIds (adj : Adjacency) : List NodeId := adj.byId.map adj.id

/-- An edge at its source's index, as a pair of ranks. -/
def rankPair (table : Weights) (order : List Nat) (ix : Nat) (inc : Inc) : Option WeightedPair :=
  if weightIn table inc.category = 0 then none
  else some (.mk (order.idxOf ix) (order.idxOf inc.other) (weightIn table inc.category))

def rankPairs (table : Weights) (adj : Adjacency) : List WeightedPair :=
  (List.range adj.len).flatMap fun ix => (adj.outgoing ix).filterMap (rankPair table adj.byId ix)

theorem Adjacency.byId_perm (adj : Adjacency) : adj.byId.Perm (List.range adj.len) :=
  List.perm_insertionSort _ _

theorem Adjacency.mem_byId {adj : Adjacency} {ix : Nat} : ix ∈ adj.byId ↔ ix < adj.len :=
  adj.byId_perm.mem_iff.trans List.mem_range

theorem Adjacency.range_ids (adj : Adjacency) : (List.range adj.len).map adj.id = adj.ids := by
  apply List.ext_getElem
  · rw [List.length_map, List.length_range]
    rfl
  · intro i left right
    rw [List.getElem_map, List.getElem_range, Adjacency.id, List.getD_eq_getElem?_getD,
      List.getElem?_eq_getElem right, Option.getD_some]

theorem Adjacency.sortedIds_perm (adj : Adjacency) : adj.sortedIds.Perm adj.ids := by
  rw [← adj.range_ids]
  exact adj.byId_perm.map adj.id

theorem Adjacency.sortedIds_sorted (adj : Adjacency) : adj.sortedIds.Pairwise (· < ·) := by
  have trans : IsTrans Nat fun i j => adj.id i ≤ adj.id j := ⟨fun _ _ _ => le_trans⟩
  have total : Std.Total fun i j : Nat => adj.id i ≤ adj.id j := ⟨fun _ _ => le_total _ _⟩
  have sorted := List.pairwise_insertionSort (fun i j => adj.id i ≤ adj.id j) (List.range adj.len)
  have once : adj.sortedIds.Nodup := adj.sortedIds_perm.nodup_iff.mpr adj.ids_nodup
  have le : adj.sortedIds.Pairwise (· ≤ ·) := List.pairwise_map.mpr sorted
  exact (le.and once).imp fun h => lt_of_le_of_ne h.1 h.2

theorem rankPairs_valid {table : Weights} {adj : Adjacency} :
    ∀ p ∈ rankPairs table adj, p.Valid adj.sortedIds.length := by
  intro p mem
  obtain ⟨ix, _, mem⟩ := List.mem_flatMap.mp mem
  obtain ⟨inc, there, eq⟩ := List.mem_filterMap.mp mem
  have inside := adj.outgoing_lt there
  have len : adj.sortedIds.length = adj.byId.length := List.length_map _
  rw [rankPair] at eq
  split at eq
  · cases eq
  · rename_i weighs
    cases eq
    rw [len]
    exact WeightedPair.mk_valid (List.idxOf_lt_length_of_mem (Adjacency.mem_byId.mpr inside.1))
      (List.idxOf_lt_length_of_mem (Adjacency.mem_byId.mpr inside.2)) (Nat.pos_of_ne_zero weighs)

/-- The view of the edges whose category weighs something. -/
def WeightedGraph.fromSource (g : GraphSource) (weights : Weights) : WeightedGraph :=
  let table := weightTable weights
  let adj := Adjacency.build g (.of (table.map Prod.fst))
  assembleWith adj.sortedIds (rankPairs table adj) (List.replicate adj.sortedIds.length 0) indexCap
    adj.sortedIds_sorted rankPairs_valid

end FromSource

section Ranked
variable {g : GraphSource} {keep : CategorySet} {cap : Nat}

/-- Items dealt out by a key below `n`, row by row, are the items. -/
theorem flatMap_rows_perm {α : Type} (key : α → Nat) (l : List α) {n : Nat}
    (within : ∀ a ∈ l, key a < n) :
    ((List.range n).flatMap fun i => l.filter fun a => key a = i).Perm l := by
  have upTo : ∀ m, ((List.range m).flatMap fun i => l.filter fun a => key a = i).Perm
      (l.filter fun a => key a < m) := by
    intro m
    induction m with
    | zero =>
      rw [List.range_zero, List.flatMap_nil, List.filter_eq_nil_iff.mpr]
      intro a _ lt
      exact Nat.not_lt_zero _ (of_decide_eq_true lt)
    | succ m ih =>
      have parts := List.filter_append_perm (fun a => decide (key a < m))
        (l.filter fun a => key a < m + 1)
      have low : (l.filter fun a => decide (key a < m + 1)).filter (fun a => decide (key a < m)) =
          l.filter fun a => decide (key a < m) := by
        rw [List.filter_filter]
        refine List.filter_congr fun a _ => ?_
        rw [← Bool.decide_and]
        exact decide_eq_decide.mpr ⟨And.left, fun lt => ⟨lt, Nat.lt_succ_of_lt lt⟩⟩
      have high : (l.filter fun a => decide (key a < m + 1)).filter (fun a => !decide (key a < m)) =
          l.filter fun a => decide (key a = m) := by
        rw [List.filter_filter]
        refine List.filter_congr fun a _ => ?_
        rw [← decide_not, ← Bool.decide_and]
        exact decide_eq_decide.mpr (by omega)
      rw [low, high] at parts
      rw [List.range_succ, List.flatMap_append, List.flatMap_singleton]
      exact (ih.append_right _).trans parts
  have all : (l.filter fun a => decide (key a < n)) = l :=
    List.filter_eq_self.mpr fun a mem => decide_eq_true (within a mem)
  have done := upTo n
  rwa [all] at done

def edgePair (table : Weights) (ids : List NodeId) (e : Edge) : WeightedPair :=
  .mk (ids.idxOf e.fromId) (ids.idxOf e.toId) (weightIn table e.category)

def keptPair (table : Weights) (order : List Nat) (k : Kept) : Option WeightedPair :=
  if weightIn table k.category = 0 then none
  else some (.mk (order.idxOf k.src) (order.idxOf k.dst) (weightIn table k.category))

theorem row_keptPair (table : Weights) (order : List Nat) (adj : Adjacency) (ix : Nat) :
    (adj.outgoing ix).filterMap (rankPair table order ix) =
      (adj.kept.filter fun k => k.src = ix).filterMap (keptPair table order) := by
  have places : adj.kept = adj.kept.zipIdx.map Prod.fst := (List.zipIdx_map_fst 0 adj.kept).symm
  rw [Adjacency.outgoing, List.filterMap_filterMap]
  conv_rhs => rw [places]
  rw [List.filter_map, List.filterMap_map, List.filterMap_filter]
  refine List.filterMap_congr fun p _ => ?_
  dsimp only [Function.comp]
  by_cases own : p.1.src = ix
  · rw [if_pos own, if_pos (decide_eq_true own), Option.bind_some, rankPair, keptPair, own]
  · rw [if_neg own, if_neg (fun h => own (of_decide_eq_true h)), Option.bind_none]

theorem rankPairs_perm (table : Weights) (adj : Adjacency) :
    (rankPairs table adj).Perm (adj.kept.filterMap (keptPair table adj.byId)) := by
  have rows := flatMap_rows_perm Kept.src adj.kept fun k mem => (adj.kept_lt k mem).1
  have each : rankPairs table adj = ((List.range adj.len).flatMap fun ix =>
      adj.kept.filter fun k => k.src = ix).filterMap (keptPair table adj.byId) := by
    rw [rankPairs, List.filterMap_flatMap]
    exact List.flatMap_congr fun ix _ => row_keptPair table adj.byId adj ix
  rw [each]
  exact rows.filterMap _

theorem Adjacency.idxOf_byId (adj : Adjacency) {ix : Nat} (inside : ix < adj.len) :
    adj.sortedIds.idxOf (adj.id ix) = adj.byId.idxOf ix := by
  have once : adj.sortedIds.Nodup := adj.sortedIds_perm.nodup_iff.mpr adj.ids_nodup
  have place : adj.byId.idxOf ix < adj.byId.length :=
    List.idxOf_lt_length_of_mem (Adjacency.mem_byId.mpr inside)
  have place' : adj.byId.idxOf ix < adj.sortedIds.length := by
    rw [sortedIds, List.length_map]
    exact place
  have at_ : adj.sortedIds[adj.byId.idxOf ix] = adj.id ix := by
    simp only [sortedIds, List.getElem_map, List.getElem_idxOf]
  rw [← at_, once.idxOf_getElem]

theorem Adjacency.Holds.pairs {adj : Adjacency} {table : Weights} {kept : List Kept}
    {es : List Edge} (holds : Holds adj.ids kept es)
    (weighs : ∀ e ∈ es, 0 < weightIn table e.category) :
    kept.filterMap (keptPair table adj.byId) = es.map (edgePair table adj.sortedIds) := by
  have rank : ∀ {ix : Nat} {id : NodeId}, adj.ids[ix]? = some id →
      adj.byId.idxOf ix = adj.sortedIds.idxOf id := by
    intro ix id at_
    have inside : ix < adj.len := (List.getElem?_eq_some_iff.mp at_).1
    have named : adj.id ix = id := by
      rw [Adjacency.id, List.getD_eq_getElem?_getD, at_, Option.getD_some]
    rw [← adj.idxOf_byId inside, named]
  induction holds with
  | nil => rfl
  | @cons k e kept es ends _ ih =>
    obtain ⟨src, dst, category⟩ := ends
    have pos := weighs e List.mem_cons_self
    have pair : keptPair table adj.byId k = some (edgePair table adj.sortedIds e) := by
      rw [keptPair, edgePair, category, if_neg (Nat.ne_of_gt pos), rank src, rank dst]
    rw [List.filterMap_cons, pair, List.map_cons,
      ih fun e' mem => weighs e' (List.mem_cons_of_mem e mem)]

end Ranked

section Canonical

theorem satAdd_eq_capAdd : satAdd = Kit.capAdd u64Max := rfl

theorem lookup_mergePairs {pairs : List WeightedPair} (small : ∀ p ∈ pairs, p.2 ≤ u64Max)
    (k : Nat ×ₗ Nat) : (mergePairs pairs).lookup k =
      if k ∈ pairs.map Prod.fst then some (min (Kit.totalAt k pairs) u64Max) else none := by
  have perm := List.perm_insertionSort (fun p q : WeightedPair => p.1 ≤ q.1) pairs
  rw [mergePairs, satAdd_eq_capAdd, Kit.lookup_mergeRuns_cap k (sorted_by_key pairs)
    fun p mem => small p (perm.mem_iff.mp mem), Kit.totalAt_perm perm]
  exact if_congr (perm.map Prod.fst).mem_iff rfl rfl

theorem mergePairs_perm {pairs pairs' : List WeightedPair} (same : pairs.Perm pairs')
    (small : ∀ p ∈ pairs, p.2 ≤ u64Max) : mergePairs pairs = mergePairs pairs' := by
  refine Kit.eq_of_lookup (mergePairs_ascending pairs) (mergePairs_ascending pairs') fun k => ?_
  rw [lookup_mergePairs small, lookup_mergePairs fun p mem => small p (same.mem_iff.mpr mem),
    Kit.totalAt_perm same]
  exact if_congr (same.map Prod.fst).mem_iff rfl rfl

theorem layOut_congr {ids : List NodeId} {merged merged' : List WeightedPair} {selfW : List Nat}
    {idsSorted : ids.Pairwise (· < ·)} {held : PairsMerged ids.length merged}
    {held' : PairsMerged ids.length merged'} {diagonal : selfW.length = ids.length}
    (same : merged = merged') :
    layOut ids merged selfW idsSorted held diagonal =
      layOut ids merged' selfW idsSorted held' diagonal := by
  subst same
  rfl

theorem assembleWith_congr {ids ids' : List NodeId} {pairs pairs' : List WeightedPair} {cap : Nat}
    {idsSorted : ids.Pairwise (· < ·)} {idsSorted' : ids'.Pairwise (· < ·)}
    {valid : ∀ p ∈ pairs, p.Valid ids.length} {valid' : ∀ p ∈ pairs', p.Valid ids'.length}
    (sameIds : ids = ids') (same : mergePairs pairs = mergePairs pairs') :
    assembleWith ids pairs (List.replicate ids.length 0) cap idsSorted valid =
      assembleWith ids' pairs' (List.replicate ids'.length 0) cap idsSorted' valid' := by
  subst sameIds
  have beyond : cap < ids.length ∨ cap < links (mergePairs pairs) ↔
      cap < ids.length ∨ cap < links (mergePairs pairs') := by rw [same]
  unfold assembleWith
  by_cases past : cap < ids.length ∨ cap < links (mergePairs pairs)
  · rw [if_pos past, if_pos (beyond.mp past)]
  · rw [if_neg past, if_neg (mt beyond.mpr past)]
    exact layOut_congr same

theorem sortedIds_congr {adj adj' : Adjacency} (same : ∀ x, x ∈ adj.ids ↔ x ∈ adj'.ids) :
    adj.sortedIds = adj'.sortedIds := by
  have perm : adj.sortedIds.Perm adj'.sortedIds := by
    refine adj.sortedIds_perm.trans (List.Perm.trans ?_ adj'.sortedIds_perm.symm)
    exact (List.perm_ext_iff_of_nodup adj.ids_nodup adj'.ids_nodup).mpr same
  exact List.Perm.eq_of_pairwise (fun _ _ _ _ lt lt' => absurd lt' (lt_asymm lt))
    adj.sortedIds_sorted adj'.sortedIds_sorted perm

end Canonical

section Exact
variable {g g' : GraphSource} {keep : CategorySet} {weights : Weights}

theorem keptEdges_weigh : ∀ e ∈ g.keptEdges (.of ((weightTable weights).map Prod.fst)),
    0 < weightIn (weightTable weights) e.category := by
  intro e mem
  have kept := (List.mem_filter.mp mem).2
  exact weightIn_pos.mpr (List.contains_iff_mem.mp kept)

theorem rankPairs_edges (fits : g.Fits (.of ((weightTable weights).map Prod.fst)) indexLimit) :
    (rankPairs (weightTable weights)
        (Adjacency.build g (.of ((weightTable weights).map Prod.fst)))).Perm
      ((g.keptEdges (.of ((weightTable weights).map Prod.fst))).map (edgePair (weightTable weights)
        (Adjacency.build g (.of ((weightTable weights).map Prod.fst))).sortedIds)) := by
  have holds := (Adjacency.build_holds fits).1
  refine (rankPairs_perm _ _).trans (List.Perm.of_eq ?_)
  exact Adjacency.Holds.pairs holds keptEdges_weigh

theorem rankPairs_small {table : Weights} {adj : Adjacency} :
    ∀ p ∈ rankPairs table adj, p.2 ≤ u64Max := by
  intro p mem
  obtain ⟨ix, _, mem⟩ := List.mem_flatMap.mp mem
  obtain ⟨inc, _, eq⟩ := List.mem_filterMap.mp mem
  rw [rankPair] at eq
  split at eq
  · cases eq
  · cases eq
    exact weightIn_le table inc.category

theorem indexed_perm (nodes : g.nodeIds.Perm g'.nodeIds) (edges : g.edges.Perm g'.edges) :
    g.indexed keep = g'.indexed keep := by
  have kept : (g.keptEdges keep).Perm (g'.keptEdges keep) := edges.filter _
  ext x
  rw [GraphSource.indexed, GraphSource.indexed, List.mem_toFinset, List.mem_toFinset]
  exact (nodes.append (kept.flatMap_right _)).mem_iff

theorem fits_perm {cap : Nat} (nodes : g.nodeIds.Perm g'.nodeIds)
    (edges : g.edges.Perm g'.edges) : g.Fits keep cap ↔ g'.Fits keep cap := by
  have kept : (g.keptEdges keep).Perm (g'.keptEdges keep) := edges.filter _
  rw [GraphSource.Fits, GraphSource.Fits, indexed_perm nodes edges, kept.length_eq]

theorem fromSource_perm (weights : Weights) (nodes : g.nodeIds.Perm g'.nodeIds)
    (edges : g.edges.Perm g'.edges) :
    WeightedGraph.fromSource g weights = WeightedGraph.fromSource g' weights := by
  by_cases fits : g.Fits (.of ((weightTable weights).map Prod.fst)) indexLimit
  · have fits' := (fits_perm nodes edges).mp fits
    have ids : (Adjacency.build g (.of ((weightTable weights).map Prod.fst))).sortedIds =
        (Adjacency.build g' (.of ((weightTable weights).map Prod.fst))).sortedIds := by
      refine sortedIds_congr fun x => ?_
      rw [Adjacency.build, Adjacency.build, (Adjacency.build_holds fits).2,
        (Adjacency.build_holds fits').2, indexed_perm nodes edges]
    have kept : (g.keptEdges (.of ((weightTable weights).map Prod.fst))).Perm
        (g'.keptEdges (.of ((weightTable weights).map Prod.fst))) := edges.filter _
    refine @assembleWith_congr _ _ _ _ _ _ _ rankPairs_valid rankPairs_valid ids
      (mergePairs_perm ?_ rankPairs_small)
    refine (rankPairs_edges fits).trans (List.Perm.trans ?_ (rankPairs_edges fits').symm)
    rw [ids]
    exact kept.map _
  · have past := Adjacency.build_past fits
    have past' := Adjacency.build_past (mt (fits_perm nodes edges).mpr fits)
    have same : Adjacency.build g (.of ((weightTable weights).map Prod.fst)) =
        Adjacency.build g' (.of ((weightTable weights).map Prod.fst)) := past.trans past'.symm
    exact @assembleWith_congr _ _ _ _ _ _ _ rankPairs_valid rankPairs_valid (by rw [same])
      (by rw [same])

end Exact

end Glia.Algo
