import Glia.Algo.FromSource
import Mathlib.Data.Sym.Sym2

/-! What the weighted view of a source holds: the summed weights of the edges between two nodes,
kept at the greatest weight. -/
namespace Glia.Algo

abbrev weighed (weights : Weights) : CategorySet := .of ((weightTable weights).map Prod.fst)

namespace GraphSource
variable (g : GraphSource) (weights : Weights)

/-- What the edges between two nodes weigh together, whichever way they go. -/
def weightBetween (x y : NodeId) : Nat :=
  (g.edges.map fun e => if s(e.fromId, e.toId) = s(x, y)
    then weightIn (weightTable weights) e.category else 0).sum

def pairsJoined : Finset (Sym2 NodeId) :=
  (((g.keptEdges (weighed weights)).filter fun e => e.fromId ≠ e.toId).map
    fun e => s(e.fromId, e.toId)).toFinset

/-- The source is within the limits on indices and on neighbour entries. -/
def FitsView : Prop :=
  g.Fits (weighed weights) indexLimit ∧ 2 * (g.pairsJoined weights).card ≤ indexCap

end GraphSource

structure ReadsOff (g : GraphSource) (weights : Weights) (view : WeightedGraph) : Prop where
  ascending : view.ids.Pairwise (· < ·)
  ids : g.FitsView weights → view.ids.toFinset = g.indexed (weighed weights)
  past : ¬g.FitsView weights → view.ids = []
  rows : ∀ v, (view.neighbours v).Sorted
  symmetric : ∀ a b, view.pairWeight a b = view.pairWeight b a
  pairs : ∀ a b x y, view.ids[a]? = some x → view.ids[b]? = some y → a ≠ b →
    view.pairWeight a b = min (g.weightBetween weights x y) u64Max
  loops : ∀ a x, view.ids[a]? = some x →
    view.selfWeight a = min (2 * g.weightBetween weights x x) u64Max
  strengths : ∀ a, view.strength a =
    min (view.selfWeight a + ((view.neighbours a).map Prod.snd).sum) u64Max

section Loops

theorem foldl_satAdd_min {s : Nat} (l : List Nat) (small : s ≤ u64Max) :
    l.foldl satAdd s = min (s + l.sum) u64Max := by
  induction l generalizing s with
  | nil => exact (min_eq_left small).symm
  | cons a l ih =>
    rw [List.foldl_cons, ih (show satAdd s a ≤ u64Max from min_le_right _ _), List.sum_cons, satAdd]
    omega

theorem addAt_getD (l : List Nat) (e : Nat × Nat) {v : Nat} (inside : v < l.length) :
    (addAt l e).getD v 0 = if e.1 = v then satAdd (l.getD v 0) e.2 else l.getD v 0 := by
  rw [addAt, getD_modify]
  exact if_congr ⟨And.left, fun here => ⟨here, inside⟩⟩ rfl rfl

/-- A node's diagonal takes in the pair from the node to itself, there once at most. -/
theorem addLoops_getD {merged : List WeightedPair} (ascending : merged.Pairwise fun p q => p.1 < q.1)
    {selfW : List Nat} {v : Nat} (inside : v < selfW.length) :
    (addLoops selfW merged).getD v 0 = match merged.lookup (toLex (v, v)) with
      | some w => satAdd (selfW.getD v 0) (satDouble w)
      | none => selfW.getD v 0 := by
  induction merged generalizing selfW with
  | nil => rfl
  | cons p merged ih =>
    obtain ⟨above, rest⟩ := List.pairwise_cons.mp ascending
    rw [addLoops, List.foldl_cons, List.lookup_cons]
    by_cases loop : p.lo = p.hi
    · rw [if_pos loop]
      have inside' : v < (addAt selfW (p.lo, satDouble p.2)).length := by
        rw [addAt_length]
        exact inside
      refine (ih rest inside').trans ?_
      rw [addAt_getD _ _ inside]
      by_cases here : p.lo = v
      · have key : toLex (v, v) = p.1 := by
          rw [← ofLex_inj, ofLex_toLex]
          exact Prod.ext here.symm (here.symm.trans loop)
        have later : merged.lookup (toLex (v, v)) = none := by
          rw [List.lookup_eq_none_iff]
          intro q mem
          rw [bne_iff_ne, key]
          exact ne_of_lt (above q mem)
        rw [later, if_pos here, beq_iff_eq.mpr key]
      · have key : toLex (v, v) ≠ p.1 := fun same => here (congrArg (fun k => (ofLex k).1) same).symm
        rw [if_neg here, beq_eq_false_iff_ne.mpr key]
    · have key : toLex (v, v) ≠ p.1 := by
        intro same
        have low : v = p.lo := congrArg (fun k => (ofLex k).1) same
        have high : v = p.hi := congrArg (fun k => (ofLex k).2) same
        exact loop (low.symm.trans high)
      rw [if_neg loop, beq_eq_false_iff_ne.mpr key]
      exact ih rest inside

end Loops

section Places
variable {ids : List NodeId}

theorem mk_key_iff (i j w a b w' : Nat) :
    (WeightedPair.mk i j w).1 = (WeightedPair.mk a b w').1 ↔ s(i, j) = s(a, b) := by
  unfold WeightedPair.mk
  rw [← ofLex_inj, ofLex_toLex, ofLex_toLex, Prod.ext_iff, Sym2.eq_iff]
  omega

theorem edgePair_key (once : ids.Nodup) {table : Weights} {e : Edge} (src : e.fromId ∈ ids)
    (dst : e.toId ∈ ids) {a b w : Nat} {x y : NodeId} (left : ids[a]? = some x)
    (right : ids[b]? = some y) :
    (edgePair table ids e).1 = (WeightedPair.mk a b w).1 ↔ s(e.fromId, e.toId) = s(x, y) := by
  have place : ∀ {z : NodeId} {i : Nat} {x : NodeId}, z ∈ ids → ids[i]? = some x →
      (ids.idxOf z = i ↔ z = x) := by
    intro z i x mem there
    obtain ⟨inside, rfl⟩ := List.getElem?_eq_some_iff.mp there
    constructor
    · intro same
      subst same
      rw [List.getElem_idxOf]
    · intro same
      rw [same, once.idxOf_getElem]
  rw [edgePair, mk_key_iff, Sym2.eq_iff, Sym2.eq_iff, place src left, place dst right,
    place src right, place dst left]

end Places

section Kept
variable {g : GraphSource} {weights : Weights}

theorem weightIn_left {e : Edge} (out : (weighed weights).contains e.category = false) :
    weightIn (weightTable weights) e.category = 0 := by
  by_contra weighs
  have kept := weightIn_pos.mp (Nat.pos_of_ne_zero weighs)
  rw [show (weighed weights).contains e.category = true from List.contains_iff_mem.mpr kept] at out
  cases out

theorem kept_ends {e : Edge} (mem : e ∈ g.keptEdges (weighed weights)) :
    e.fromId ∈ g.indexed (weighed weights) ∧ e.toId ∈ g.indexed (weighed weights) := by
  simp only [GraphSource.indexed, List.mem_toFinset, List.mem_append, List.mem_flatMap]
  exact ⟨.inr ⟨e, mem, by simp⟩, .inr ⟨e, mem, by simp⟩⟩

theorem totalAt_edges {ids : List NodeId} (once : ids.Nodup)
    (held : ∀ x, x ∈ ids ↔ x ∈ g.indexed (weighed weights)) {a b w : Nat} {x y : NodeId}
    (left : ids[a]? = some x) (right : ids[b]? = some y) :
    Kit.totalAt (WeightedPair.mk a b w).1
      ((g.keptEdges (weighed weights)).map (edgePair (weightTable weights) ids)) =
      g.weightBetween weights x y := by
  have part : ∀ es : List Edge, (∀ e ∈ es.filter fun e => (weighed weights).contains e.category,
      e.fromId ∈ ids ∧ e.toId ∈ ids) → Kit.totalAt (WeightedPair.mk a b w).1
        ((es.filter fun e => (weighed weights).contains e.category).map
          (edgePair (weightTable weights) ids)) =
      (es.map fun e => if s(e.fromId, e.toId) = s(x, y)
        then weightIn (weightTable weights) e.category else 0).sum := by
    intro es ends
    induction es with
    | nil => rfl
    | cons e es ih =>
      rw [List.map_cons, List.sum_cons]
      cases kept : (weighed weights).contains e.category with
      | false =>
        rw [List.filter_cons_of_neg (by rw [kept]; exact Bool.false_ne_true)] at ends ⊢
        rw [ih ends, weightIn_left kept, ite_self, Nat.zero_add]
      | true =>
        rw [List.filter_cons_of_pos (by exact kept)] at ends ⊢
        obtain ⟨src, dst⟩ := ends e List.mem_cons_self
        rw [List.map_cons, Kit.totalAt_cons, ih fun e' mem => ends e' (List.mem_cons_of_mem e mem)]
        congr 1
        exact if_congr (edgePair_key once src dst left right) rfl rfl
  refine part g.edges fun e mem => ?_
  have ends := kept_ends mem
  exact ⟨(held _).mpr ends.1, (held _).mpr ends.2⟩

theorem keys_mergePairs {pairs : List WeightedPair} (small : ∀ p ∈ pairs, p.2 ≤ u64Max)
    (k : Nat ×ₗ Nat) : k ∈ (mergePairs pairs).map Prod.fst ↔ k ∈ pairs.map Prod.fst := by
  have found := lookup_mergePairs small k
  by_cases there : k ∈ pairs.map Prod.fst
  · rw [if_pos there] at found
    obtain ⟨front, back, eq, _⟩ := List.lookup_eq_some_iff.mp found
    refine iff_of_true ?_ there
    rw [eq, List.map_append]
    exact List.mem_append_right _ List.mem_cons_self
  · rw [if_neg there] at found
    refine iff_of_false (fun mem => ?_) there
    obtain ⟨p, held, key⟩ := List.mem_map.mp mem
    have apart := List.lookup_eq_none_iff.mp found p held
    rw [key, bne_self_eq_false] at apart
    cases apart

def endsAt (ids : List NodeId) (p : WeightedPair) : Sym2 NodeId :=
  s(ids.getD p.lo 0, ids.getD p.hi 0)

theorem endsAt_inj {ids : List NodeId} (once : ids.Nodup) {p q : WeightedPair}
    (left : p.Valid ids.length) (right : q.Valid ids.length) (same : endsAt ids p = endsAt ids q) :
    p.1 = q.1 := by
  have place : ∀ {i j : Nat}, i < ids.length → j < ids.length →
      ids.getD i 0 = ids.getD j 0 → i = j := by
    intro i j hi hj eq
    rw [List.getD_eq_getElem?_getD, List.getD_eq_getElem?_getD, List.getElem?_eq_getElem hi,
      List.getElem?_eq_getElem hj] at eq
    exact (once.getElem_inj_iff).mp eq
  have leftLow : p.lo < ids.length := left.ordered.trans_lt left.inside
  have rightLow : q.lo < ids.length := right.ordered.trans_lt right.inside
  rw [← ofLex_inj, Prod.ext_iff]
  rcases Sym2.eq_iff.mp same with ⟨low, high⟩ | ⟨low, high⟩
  · exact ⟨place leftLow rightLow low, place left.inside right.inside high⟩
  · have first := place leftLow right.inside low
    have second := place left.inside rightLow high
    have leftLe := left.ordered
    have rightLe := right.ordered
    dsimp only [WeightedPair.lo, WeightedPair.hi] at *
    omega

theorem endsAt_edgePair {ids : List NodeId} {table : Weights} {e : Edge} (src : e.fromId ∈ ids)
    (dst : e.toId ∈ ids) : endsAt ids (edgePair table ids e) = s(e.fromId, e.toId) := by
  have place : ∀ {x : NodeId}, x ∈ ids → ids.getD (ids.idxOf x) 0 = x := by
    intro x mem
    rw [List.getD_eq_getElem?_getD, List.getElem?_eq_getElem (List.idxOf_lt_length_of_mem mem),
      Option.getD_some, List.getElem_idxOf]
  have ends : endsAt ids (edgePair table ids e) =
      s(ids.getD (min (ids.idxOf e.fromId) (ids.idxOf e.toId)) 0,
        ids.getD (max (ids.idxOf e.fromId) (ids.idxOf e.toId)) 0) := rfl
  rw [ends]
  rcases le_total (ids.idxOf e.fromId) (ids.idxOf e.toId) with le | le
  · rw [min_eq_left le, max_eq_right le, place src, place dst]
  · rw [min_eq_right le, max_eq_left le, place src, place dst, Sym2.eq_swap]

theorem edgePair_loop {ids : List NodeId} {table : Weights} {e : Edge} (src : e.fromId ∈ ids) :
    (edgePair table ids e).lo = (edgePair table ids e).hi ↔ e.fromId = e.toId := by
  have same : (edgePair table ids e).lo = (edgePair table ids e).hi ↔
      ids.idxOf e.fromId = ids.idxOf e.toId := by
    show min _ _ = max _ _ ↔ _
    omega
  rw [same, List.idxOf_inj src]

theorem links_edges {ids : List NodeId} (once : ids.Nodup)
    (held : ∀ x, x ∈ ids ↔ x ∈ g.indexed (weighed weights)) {pairs : List WeightedPair}
    (valid : ∀ p ∈ pairs, p.Valid ids.length) (small : ∀ p ∈ pairs, p.2 ≤ u64Max)
    (perm : pairs.Perm
      ((g.keptEdges (weighed weights)).map (edgePair (weightTable weights) ids))) :
    links (mergePairs pairs) = 2 * (g.pairsJoined weights).card := by
  have apart : (((mergePairs pairs).filter fun p => p.lo ≠ p.hi).map (endsAt ids)).Nodup := by
    rw [List.Nodup, List.pairwise_map]
    have order := (mergePairs_ascending pairs).filter fun p => decide (p.lo ≠ p.hi)
    refine order.imp_of_mem fun {p q} left right before same => ?_
    have leftIn := mergePairs_valid valid p (List.mem_filter.mp left).1
    have rightIn := mergePairs_valid valid q (List.mem_filter.mp right).1
    exact ne_of_lt before (endsAt_inj once leftIn rightIn same)
  have ends : ∀ e ∈ g.keptEdges (weighed weights), e.fromId ∈ ids ∧ e.toId ∈ ids :=
    fun e mem => ⟨(held _).mpr (kept_ends mem).1, (held _).mpr (kept_ends mem).2⟩
  have same : (((mergePairs pairs).filter fun p => p.lo ≠ p.hi).map (endsAt ids)).toFinset =
      g.pairsJoined weights := by
    ext z
    rw [GraphSource.pairsJoined, List.mem_toFinset, List.mem_toFinset, List.mem_map, List.mem_map]
    constructor
    · rintro ⟨p, mem, eq⟩
      obtain ⟨mem, proper⟩ := List.mem_filter.mp mem
      have key := (keys_mergePairs small p.1).mp (List.mem_map_of_mem mem)
      obtain ⟨q, listed, sameKey⟩ := List.mem_map.mp key
      obtain ⟨e, kept, rfl⟩ := List.mem_map.mp (perm.mem_iff.mp listed)
      have ends' := ends e kept
      have sameEnds : endsAt ids p = endsAt ids (edgePair (weightTable weights) ids e) := by
        unfold endsAt WeightedPair.lo WeightedPair.hi
        rw [sameKey]
      have proper' : ¬(edgePair (weightTable weights) ids e).lo =
          (edgePair (weightTable weights) ids e).hi := by
        unfold WeightedPair.lo WeightedPair.hi
        rw [sameKey]
        exact of_decide_eq_true proper
      refine ⟨e, List.mem_filter.mpr ⟨kept, decide_eq_true ?_⟩, ?_⟩
      · exact fun loop => proper' ((edgePair_loop ends'.1).mpr loop)
      · rw [← eq, sameEnds, endsAt_edgePair ends'.1 ends'.2]
    · rintro ⟨e, mem, eq⟩
      obtain ⟨kept, proper⟩ := List.mem_filter.mp mem
      have ends' := ends e kept
      have listed : (edgePair (weightTable weights) ids e).1 ∈ pairs.map Prod.fst :=
        List.mem_map_of_mem (perm.mem_iff.mpr (List.mem_map_of_mem kept))
      obtain ⟨p, merged, sameKey⟩ := List.mem_map.mp ((keys_mergePairs small _).mpr listed)
      have sameEnds : endsAt ids p = endsAt ids (edgePair (weightTable weights) ids e) := by
        unfold endsAt WeightedPair.lo WeightedPair.hi
        rw [sameKey]
      refine ⟨p, List.mem_filter.mpr ⟨merged, decide_eq_true ?_⟩, ?_⟩
      · unfold WeightedPair.lo WeightedPair.hi
        rw [sameKey]
        exact fun loop => of_decide_eq_true proper ((edgePair_loop ends'.1).mp loop)
      · rw [sameEnds, endsAt_edgePair ends'.1 ends'.2, eq]
  rw [links, ← same, List.toFinset_card_of_nodup apart, List.length_map]

theorem getD_lookup_mergePairs {pairs : List WeightedPair} (small : ∀ p ∈ pairs, p.2 ≤ u64Max)
    (k : Nat ×ₗ Nat) :
    ((mergePairs pairs).lookup k).getD 0 = min (Kit.totalAt k pairs) u64Max := by
  rw [lookup_mergePairs small]
  split
  · rfl
  · rename_i absent
    have none : Kit.totalAt k pairs = 0 :=
      Kit.totalAt_eq_zero fun p mem key => absent (key ▸ List.mem_map_of_mem mem)
    rw [none, Option.getD_none, Nat.zero_min]

end Kept

section Reads
variable {g : GraphSource} {weights : Weights}

theorem strength_eq {view : WeightedGraph} {a : Nat} (small : view.selfWeight a ≤ u64Max) :
    view.strength a = min (view.selfWeight a + ((view.neighbours a).map Prod.snd).sum) u64Max := by
  have folded : view.strength a =
      ((view.neighbours a).map Prod.snd).foldl satAdd (view.selfWeight a) := by
    rw [List.foldl_map]
    rfl
  rw [folded, foldl_satAdd_min _ small]

theorem selfWeight_past {view : WeightedGraph} {a : Nat} (past : view.ids.length ≤ a) :
    view.selfWeight a = 0 := by
  have short : view.selfW.length ≤ a := view.selfW_length.trans_le past
  rw [WeightedGraph.selfWeight, List.getD_eq_getElem?_getD, List.getElem?_eq_none short,
    Option.getD_none]

theorem readsOff_nil {view : WeightedGraph} (none : view.ids = [])
    (past : ¬g.FitsView weights) : ReadsOff g weights view where
  ascending := view.ids_sorted
  ids := fun fits => absurd fits past
  past := fun _ => none
  rows := view.neighbours_sorted
  symmetric := view.pairWeight_comm
  pairs := by
    intro a b x y left
    rw [none] at left
    cases left
  loops := by
    intro a x there
    rw [none] at there
    cases there
  strengths := by
    intro a
    refine strength_eq ?_
    rw [selfWeight_past (by rw [none]; exact Nat.zero_le a)]
    exact Nat.zero_le _

theorem readsOff_layOut {ids : List NodeId} (idsSorted : ids.Pairwise (· < ·))
    (held : ∀ x, x ∈ ids ↔ x ∈ g.indexed (weighed weights)) {pairs : List WeightedPair}
    (valid : ∀ p ∈ pairs, p.Valid ids.length) (small : ∀ p ∈ pairs, p.2 ≤ u64Max)
    (perm : pairs.Perm
      ((g.keptEdges (weighed weights)).map (edgePair (weightTable weights) ids)))
    {selfW : List Nat} (zeros : selfW = List.replicate ids.length 0)
    (diagonal : selfW.length = ids.length) (fits : g.FitsView weights) :
    ReadsOff g weights
      (layOut ids (mergePairs pairs) selfW idsSorted (mergePairs_merged valid) diagonal) := by
  have once : ids.Nodup := idsSorted.imp ne_of_lt
  have weight : ∀ a b x y, ids[a]? = some x → ids[b]? = some y →
      ((mergePairs pairs).lookup (WeightedPair.mk a b 0).1).getD 0 =
        min (g.weightBetween weights x y) u64Max := by
    intro a b x y left right
    rw [getD_lookup_mergePairs small, Kit.totalAt_perm perm, totalAt_edges once held left right]
  have loops : ∀ a x, ids[a]? = some x →
      (layOut ids (mergePairs pairs) selfW idsSorted (mergePairs_merged valid)
        diagonal).selfWeight a = min (2 * g.weightBetween weights x x) u64Max := by
    intro a x there
    have inside : a < ids.length := (List.getElem?_eq_some_iff.mp there).1
    have start : selfW.getD a 0 = 0 := by
      rw [zeros, List.getD_eq_getElem?_getD, List.getElem?_replicate, if_pos inside,
        Option.getD_some]
    have key : toLex (a, a) = (WeightedPair.mk a a 0).1 := by
      rw [WeightedPair.mk, min_self, max_self]
    have found := weight a a x x there there
    rw [layOut_selfWeight, addLoops_getD (mergePairs_ascending pairs) (by rw [diagonal]; exact inside),
      start, key]
    cases at_ : (mergePairs pairs).lookup (WeightedPair.mk a a 0).1 with
    | none =>
      rw [at_, Option.getD_none] at found
      dsimp only
      omega
    | some w =>
      rw [at_, Option.getD_some] at found
      dsimp only
      rw [satAdd, satDouble]
      omega
  refine ⟨idsSorted, fun _ => ?_, fun past => absurd fits past, WeightedGraph.neighbours_sorted _,
    WeightedGraph.pairWeight_comm _, ?_, loops, ?_⟩
  · ext x
    rw [List.mem_toFinset]
    exact held x
  · intro a b x y left right apart
    have leftIn : a < ids.length := (List.getElem?_eq_some_iff.mp left).1
    have rightIn : b < ids.length := (List.getElem?_eq_some_iff.mp right).1
    rw [layOut_pairWeight, if_pos ⟨leftIn, rightIn, apart⟩]
    exact weight a b x y left right
  · intro a
    refine strength_eq ?_
    by_cases inside : a < ids.length
    · rw [loops a _ (List.getElem?_eq_getElem inside)]
      exact min_le_right _ _
    · rw [selfWeight_past (Nat.le_of_not_lt inside)]
      exact Nat.zero_le _

theorem readsOff_fromSource (g : GraphSource) (weights : Weights) :
    ReadsOff g weights (WeightedGraph.fromSource g weights) := by
  by_cases fits : g.Fits (weighed weights) indexLimit
  · have held := (Adjacency.build_holds fits).2
    have ids : ∀ x, x ∈ (Adjacency.build g (weighed weights)).sortedIds ↔
        x ∈ g.indexed (weighed weights) := fun x =>
      ((Adjacency.sortedIds_perm _).mem_iff).trans (held x)
    have sorted := (Adjacency.build g (weighed weights)).sortedIds_sorted
    have entries := links_edges (sorted.imp ne_of_lt) ids rankPairs_valid rankPairs_small
      (rankPairs_edges fits)
    have few : (Adjacency.build g (weighed weights)).sortedIds.length ≤ indexCap := by
      have same : (Adjacency.build g (weighed weights)).sortedIds.toFinset =
          g.indexed (weighed weights) := by
        ext x
        rw [List.mem_toFinset, ids]
      rw [← List.toFinset_card_of_nodup (sorted.imp ne_of_lt), same]
      exact fits.1
    by_cases room : 2 * (g.pairsJoined weights).card ≤ indexCap
    · have inside : ¬(indexCap < (Adjacency.build g (weighed weights)).sortedIds.length ∨
          indexCap < links (mergePairs (rankPairs (weightTable weights)
            (Adjacency.build g (weighed weights))))) := by
        rw [entries]
        omega
      unfold WeightedGraph.fromSource assembleWith
      dsimp only
      rw [if_neg inside]
      refine readsOff_layOut sorted ids rankPairs_valid rankPairs_small (rankPairs_edges fits) ?_ _
        ⟨fits, room⟩
      have zeros := resize_self (List.replicate
        (Adjacency.build g (weighed weights)).sortedIds.length 0)
      rwa [List.length_replicate] at zeros
    · have past : indexCap < (Adjacency.build g (weighed weights)).sortedIds.length ∨
          indexCap < links (mergePairs (rankPairs (weightTable weights)
            (Adjacency.build g (weighed weights)))) := by
        rw [entries]
        omega
      refine readsOff_nil ?_ fun both => room both.2
      unfold WeightedGraph.fromSource assembleWith
      dsimp only
      rw [if_pos past]
      rfl
  · refine readsOff_nil ?_ fun both => fits both.1
    have empty : (Adjacency.build g (weighed weights)).sortedIds = [] := by
      rw [Adjacency.build, Adjacency.build_past fits]
      rfl
    unfold WeightedGraph.fromSource assembleWith
    dsimp only
    split
    · rfl
    · exact empty

end Reads

/-- The weighted view holds what the edges of its source weigh between its nodes, and is the same
view whichever order the nodes and edges are listed in. -/
theorem fromSource_of_edges (g g' : GraphSource) (weights : Weights)
    (nodes : g.nodeIds.Perm g'.nodeIds) (edges : g.edges.Perm g'.edges) :
    WeightedGraph.fromSource g weights = WeightedGraph.fromSource g' weights ∧
      ReadsOff g weights (WeightedGraph.fromSource g weights) :=
  ⟨fromSource_perm weights nodes edges, readsOff_fromSource g weights⟩

/-- Two calls either way, with an end that is no node and a node listed twice. -/
def crossCalls : GraphSource :=
  ⟨[7, 3, 7], [⟨7, 3, 1, .strong, []⟩, ⟨3, 7, 1, .strong, []⟩, ⟨3, 9, 2, .strong, []⟩]⟩

theorem fromSource_of_edges_crossCalls :
    WeightedGraph.fromSource crossCalls [(1, 4), (2, 1)] =
        WeightedGraph.fromSource ⟨[3, 7, 7],
          [⟨3, 9, 2, .strong, []⟩, ⟨7, 3, 1, .strong, []⟩, ⟨3, 7, 1, .strong, []⟩]⟩ [(1, 4), (2, 1)] ∧
      ReadsOff crossCalls [(1, 4), (2, 1)] (WeightedGraph.fromSource crossCalls [(1, 4), (2, 1)]) :=
  fromSource_of_edges _ _ _ (by decide) (by decide)

end Glia.Algo
