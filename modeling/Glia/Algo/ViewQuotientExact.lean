import Glia.Algo.ViewQuotient
import Glia.Kit.Blocks

/-! The quotient sums the view's matrix over its communities. -/
namespace Glia.Algo

open Finset
open Glia.Kit (totalAt block)

section Sums

theorem WeightRow.Sorted.sum_eq {row : WeightRow} (sorted : row.Sorted) {n : Nat}
    (within : ∀ e ∈ row, e.1 < n) (F : Nat → Nat → Nat) (zero : ∀ u, F u 0 = 0) :
    (row.map fun e => F e.1 e.2).sum = ∑ u ∈ range n, F u (row.weightOf u) := by
  induction row with
  | nil => simp [zero]
  | cons e row ih =>
    have inside : e.1 ∈ range n := mem_range.mpr (within e List.mem_cons_self)
    have each : ∀ u ∈ range n, F u (WeightRow.weightOf (e :: row) u) =
        (if u = e.1 then F e.1 e.2 else 0) + F u (WeightRow.weightOf row u) := by
      intro u _
      rw [WeightRow.weightOf_cons]
      by_cases here : u = e.1
      · rw [if_pos here, if_pos here, here, sorted.weightOf_lt le_rfl, zero, Nat.add_zero]
      · rw [if_neg here, if_neg here, Nat.zero_add]
    rw [List.map_cons, List.sum_cons, ih sorted.tail fun f mem => within f (List.mem_cons_of_mem e mem),
      sum_congr rfl each, sum_add_distrib, sum_ite_eq' (range n) e.1, if_pos inside]

theorem sum_range_map (f : Nat → Nat) (n : Nat) :
    ((List.range n).map f).sum = ∑ v ∈ range n, f v := rfl

theorem totalAt_filterMap {α κ : Type} [DecidableEq κ] (k : κ) (f : α → Option (κ × Nat))
    (l : List α) : totalAt k (l.filterMap f) =
      (l.map fun a => ((f a).map fun p => if p.1 = k then p.2 else 0).getD 0).sum := by
  induction l with
  | nil => rfl
  | cons a l ih =>
    rw [List.filterMap_cons, List.map_cons, List.sum_cons, ← ih]
    cases f a with
    | none => exact (Nat.zero_add _).symm
    | some p => rfl

theorem foldl_addAt_getD (deps : List (Nat × Nat)) (l : List Nat) {c : Nat} (inside : c < l.length)
    (fits : l.getD c 0 + totalAt c deps ≤ u64Max) :
    (deps.foldl addAt l).getD c 0 = l.getD c 0 + totalAt c deps := by
  induction deps generalizing l with
  | nil => rfl
  | cons e deps ih =>
    rw [Kit.totalAt_cons] at fits
    have step : (addAt l e).getD c 0 = l.getD c 0 + if e.1 = c then e.2 else 0 := by
      rw [addAt, getD_modify]
      by_cases here : e.1 = c
      · rw [if_pos ⟨here, inside⟩, if_pos here]
        rw [if_pos here] at fits
        exact satAdd_eq (by omega)
      · rw [if_neg fun both => here both.1, if_neg here, Nat.add_zero]
    rw [List.foldl_cons, ih (addAt l e) (by rw [addAt_length]; exact inside) (by rw [step]; omega),
      step, Kit.totalAt_cons, Nat.add_assoc]

end Sums

namespace WeightedGraph
variable (g : WeightedGraph)

def entry (v u : Nat) : Nat := if v = u then g.selfWeight v else g.pairWeight v u

theorem entry_comm (v u : Nat) : g.entry v u = g.entry u v := by
  unfold entry
  by_cases same : v = u
  · rw [if_pos same, if_pos same.symm, same]
  · rw [if_neg same, if_neg (Ne.symm same), pairWeight_comm]

theorem sum_entry {v : Nat} (inside : v < g.len) :
    ∑ u ∈ range g.len, g.entry v u = g.selfWeight v + ((g.neighbours v).map Prod.snd).sum := by
  have row := (g.neighbours_sorted v).sum_eq (fun e mem => g.neighbours_lt mem) (fun _ w => w)
    fun _ => rfl
  have each : ∀ u ∈ range g.len, g.entry v u =
      (if u = v then g.selfWeight v else 0) + g.pairWeight v u := by
    intro u _
    unfold entry
    by_cases same : v = u
    · rw [if_pos same, if_pos same.symm, ← same, pairWeight_self, Nat.add_zero]
    · rw [if_neg same, if_neg (Ne.symm same), Nat.zero_add]
  rw [sum_congr rfl each, sum_add_distrib, sum_ite_eq' (range g.len) v,
    if_pos (mem_range.mpr inside)]
  exact congrArg (g.selfWeight v + ·) row.symm

theorem exactTotal_eq : g.exactTotal = ∑ v ∈ range g.len, ∑ u ∈ range g.len, g.entry v u := by
  unfold exactTotal
  rw [sum_range_map]
  apply sum_congr rfl
  intro v mem
  exact (g.sum_entry (mem_range.mp mem)).symm

/-- No sum of the view reaches the greatest weight. -/
def Unsaturated : Prop := g.exactTotal ≤ u64Max

theorem row_le_total {v : Nat} (inside : v < g.len) :
    ∑ u ∈ range g.len, g.entry v u ≤ g.exactTotal := by
  rw [exactTotal_eq]
  exact single_le_sum (f := fun v => ∑ u ∈ range g.len, g.entry v u) (fun _ _ => Nat.zero_le _)
    (mem_range.mpr inside)

variable {g} in
theorem strength_eq (fits : g.Unsaturated) {v : Nat} (inside : v < g.len) :
    g.strength v = ∑ u ∈ range g.len, g.entry v u := by
  have part := g.row_le_total inside
  rw [g.sum_entry inside] at part ⊢
  rw [← foldl_satAdd (part.trans fits), List.foldl_map]
  rfl

variable {g} in
theorem double_le {v u : Nat} (left : v < g.len) (right : u < g.len) (apart : v < u) :
    g.pairWeight v u * 2 ≤ g.exactTotal := by
  rw [exactTotal_eq, Kit.sum_pairs]
  have inner : g.entry v u + g.entry u v ≤
      ∑ x ∈ range g.len with v < x, (g.entry v x + g.entry x v) :=
    single_le_sum (f := fun x => g.entry v x + g.entry x v) (fun _ _ => Nat.zero_le _)
      (mem_filter.mpr ⟨mem_range.mpr right, apart⟩)
  have outer : g.entry v v + ∑ x ∈ range g.len with v < x, (g.entry v x + g.entry x v) ≤
      ∑ y ∈ range g.len, (g.entry y y +
        ∑ x ∈ range g.len with y < x, (g.entry y x + g.entry x y)) :=
    single_le_sum (f := fun y => g.entry y y +
      ∑ x ∈ range g.len with y < x, (g.entry y x + g.entry x y)) (fun _ _ => Nat.zero_le _)
      (mem_range.mpr left)
  have pair : g.entry v u = g.pairWeight v u := if_neg apart.ne
  rw [g.entry_comm u v, pair] at inner
  omega

variable {g} in
theorem satDouble_eq (fits : g.Unsaturated) {v u : Nat} (left : v < g.len) (right : u < g.len)
    (apart : v < u) : satDouble (g.pairWeight v u) = g.pairWeight v u * 2 :=
  min_eq_left ((double_le left right apart).trans fits)

end WeightedGraph

section Covered

/-- A membership giving every node a community below `k`. -/
structure Covers (g : WeightedGraph) (membership : List Nat) (k : Nat) : Prop where
  all : membership.length = g.len
  small : ∀ c ∈ membership, c < k

def memberOf (membership : List Nat) (v : Nat) : Nat := membership.getD v 0

variable {g : WeightedGraph} {membership : List Nat} {k : Nat}

theorem Covers.label (covers : Covers g membership k) {v : Nat} (inside : v < g.len) :
    WeightedGraph.labelOf membership k v = some (memberOf membership v) ∧
      memberOf membership v < k := by
  have there : v < membership.length := covers.all ▸ inside
  have found : membership[v]? = some membership[v] := List.getElem?_eq_getElem there
  have small : membership[v] < k := covers.small _ (List.getElem_mem there)
  have same : memberOf membership v = membership[v] := by
    rw [memberOf, List.getD_eq_getElem?_getD, found, Option.getD_some]
  rw [same, WeightedGraph.labelOf, found]
  exact ⟨by rw [Option.filter_some, if_pos (decide_eq_true small)], small⟩

theorem Covers.maps (covers : Covers g membership k) :
    ∀ v ∈ range g.len, memberOf membership v ∈ range k :=
  fun _ mem => mem_range.mpr (covers.label (mem_range.mp mem)).2

theorem satDouble_zero : satDouble 0 = 0 := rfl

theorem totalAt_nodeSelf (covers : Covers g membership k) {v : Nat} (inside : v < g.len)
    (c : Nat) :
    totalAt c (g.nodeSelf (WeightedGraph.labelOf membership k) v) =
      if memberOf membership v = c then
        g.selfWeight v + ∑ u ∈ range g.len, (if v < u ∧ memberOf membership u = c then
          satDouble (g.pairWeight v u) else 0)
      else 0 := by
  have own := (covers.label inside).1
  have row := (g.neighbours_sorted v).sum_eq (fun e mem => g.neighbours_lt mem)
    (fun u w => if u < v then 0 else if memberOf membership u = memberOf membership v ∧
      memberOf membership v = c then satDouble w else 0) (by simp [satDouble_zero])
  have read : ∀ e ∈ g.neighbours v,
      (((if e.1 < v then none else if WeightedGraph.labelOf membership k e.1 =
        some (memberOf membership v) then some (memberOf membership v, satDouble e.2) else none).map
          fun p : Nat × Nat => if p.1 = c then p.2 else 0).getD 0) =
      (if e.1 < v then 0 else if memberOf membership e.1 = memberOf membership v ∧
        memberOf membership v = c then satDouble e.2 else 0) := by
    intro e mem
    rw [(covers.label (g.neighbours_lt mem)).1]
    by_cases below : e.1 < v
    · simp [below]
    · by_cases same : memberOf membership e.1 = memberOf membership v
      · by_cases here : memberOf membership v = c
        · simp [below, same, here]
        · simp [below, same, here]
      · simp [below, same]
  rw [WeightedGraph.nodeSelf, own]
  dsimp only
  rw [Kit.totalAt_cons, totalAt_filterMap, List.map_congr_left read, row]
  by_cases here : memberOf membership v = c
  · rw [if_pos here, if_pos here]
    congr 1
    apply sum_congr rfl
    intro u _
    by_cases same : v = u
    · subst same
      have none : WeightRow.weightOf (g.neighbours v) v = 0 := g.pairWeight_self v
      simp [none, satDouble_zero]
    · by_cases below : u < v
      · rw [if_pos below, if_neg (by omega)]
      · rw [if_neg below]
        have above : v < u := by omega
        simp only [here, above, and_true, true_and]
        rfl
  · rw [if_neg here, if_neg here, Nat.zero_add]
    apply sum_eq_zero
    intro u _
    simp [here]

theorem totalAt_nodePairs (covers : Covers g membership k) {v : Nat} (inside : v < g.len)
    {c d : Nat} (apart : c ≠ d) :
    totalAt (WeightedPair.mk c d 0).1 (g.nodePairs (WeightedGraph.labelOf membership k) v) =
      ∑ u ∈ range g.len, (if v < u ∧
          (memberOf membership v = c ∧ memberOf membership u = d ∨
            memberOf membership v = d ∧ memberOf membership u = c) then
        g.pairWeight v u else 0) := by
  have own := (covers.label inside).1
  have row := (g.neighbours_sorted v).sum_eq (fun e mem => g.neighbours_lt mem)
    (fun u w => if u < v then 0 else if memberOf membership v = c ∧ memberOf membership u = d ∨
      memberOf membership v = d ∧ memberOf membership u = c then w else 0) (by simp)
  have keyed : ∀ a b w : Nat, (WeightedPair.mk a b w).1 = (WeightedPair.mk c d 0).1 ↔
      min a b = min c d ∧ max a b = max c d := by
    intro a b w
    unfold WeightedPair.mk
    rw [toLex_inj, Prod.ext_iff]
  have read : ∀ e ∈ g.neighbours v,
      (((if e.1 < v then none else (WeightedGraph.labelOf membership k e.1).bind fun d' =>
        if d' = memberOf membership v then none
        else some (WeightedPair.mk (memberOf membership v) d' e.2)).map
          fun p : WeightedPair => if p.1 = (WeightedPair.mk c d 0).1 then p.2 else 0).getD 0) =
      (if e.1 < v then 0 else if memberOf membership v = c ∧ memberOf membership e.1 = d ∨
        memberOf membership v = d ∧ memberOf membership e.1 = c then e.2 else 0) := by
    intro e mem
    rw [(covers.label (g.neighbours_lt mem)).1]
    by_cases below : e.1 < v
    · simp [below]
    · rw [if_neg below, if_neg below, Option.bind_some]
      by_cases same : memberOf membership e.1 = memberOf membership v
      · rw [if_pos same, if_neg (by omega)]
        rfl
      · rw [if_neg same, Option.map_some, Option.getD_some]
        have ends := keyed (memberOf membership v) (memberOf membership e.1) e.2
        congr 1
        apply propext
        rw [ends]
        omega
  rw [WeightedGraph.nodePairs, own]
  dsimp only
  rw [totalAt_filterMap, List.map_congr_left read, row]
  apply sum_congr rfl
  intro u _
  by_cases same : v = u
  · subst same
    have none : WeightRow.weightOf (g.neighbours v) v = 0 := g.pairWeight_self v
    simp [none]
  · by_cases below : u < v
    · rw [if_pos below, if_neg (by omega)]
    · rw [if_neg below]
      have above : v < u := by omega
      simp only [above, true_and]
      rfl

theorem block_eq (m : Nat → Nat) (A : Nat → Nat → Nat) (n c d : Nat) :
    block (range n) m A c d =
      ∑ v ∈ range n, ∑ u ∈ range n, if m v = c ∧ m u = d then A v u else 0 := by
  unfold block
  rw [sum_filter]
  apply sum_congr rfl
  intro v _
  by_cases here : m v = c
  · rw [if_pos here, sum_filter]
    simp [here]
  · rw [if_neg here]
    simp [here]

theorem totalAt_allSelf (covers : Covers g membership k) (fits : g.Unsaturated) (c : Nat) :
    totalAt c ((List.range g.len).flatMap (g.nodeSelf (WeightedGraph.labelOf membership k))) =
      block (range g.len) (memberOf membership) g.entry c c := by
  rw [Kit.totalAt_flatMap, sum_range_map, block_eq, Kit.sum_pairs]
  apply sum_congr rfl
  intro v mem
  have left := mem_range.mp mem
  rw [totalAt_nodeSelf covers left, sum_filter]
  by_cases here : memberOf membership v = c
  · have diag : g.entry v v = g.selfWeight v := if_pos rfl
    rw [if_pos here, if_pos ⟨here, here⟩, diag]
    congr 1
    apply sum_congr rfl
    intro u inside
    by_cases above : v < u
    · by_cases there : memberOf membership u = c
      · have pair : g.entry v u = g.pairWeight v u := if_neg above.ne
        rw [if_pos ⟨above, there⟩, if_pos above, if_pos ⟨here, there⟩, if_pos ⟨there, here⟩,
          WeightedGraph.satDouble_eq fits left (mem_range.mp inside) above, g.entry_comm u v, pair,
          Nat.mul_two]
      · simp [there]
    · simp [above]
  · simp [here]

theorem totalAt_allPairs (covers : Covers g membership k) {c d : Nat} (apart : c ≠ d) :
    totalAt (WeightedPair.mk c d 0).1
        ((List.range g.len).flatMap (g.nodePairs (WeightedGraph.labelOf membership k))) =
      block (range g.len) (memberOf membership) g.entry c d := by
  rw [Kit.totalAt_flatMap, sum_range_map, block_eq, Kit.sum_pairs]
  apply sum_congr rfl
  intro v mem
  have left := mem_range.mp mem
  rw [totalAt_nodePairs covers left apart, sum_filter, if_neg (by omega), Nat.zero_add]
  apply sum_congr rfl
  intro u _
  by_cases above : v < u
  · have pair : g.entry v u = g.pairWeight v u := if_neg above.ne
    rw [if_pos above, g.entry_comm u v, pair]
    by_cases first : memberOf membership v = c ∧ memberOf membership u = d
    · rw [if_pos ⟨above, .inl first⟩, if_pos first, if_neg (by omega), Nat.add_zero]
    · by_cases second : memberOf membership v = d ∧ memberOf membership u = c
      · rw [if_pos ⟨above, .inr second⟩, if_neg first, if_pos second.symm, Nat.zero_add]
      · rw [if_neg (by tauto), if_neg first, if_neg (by tauto)]
  · simp [above]

theorem block_le_total (c d : Nat) :
    block (range g.len) (memberOf membership) g.entry c d ≤ g.exactTotal := by
  rw [block_eq, WeightedGraph.exactTotal_eq]
  apply sum_le_sum
  intro v _
  apply sum_le_sum
  intro u _
  split
  · exact le_rfl
  · exact Nat.zero_le _

end Covered

section Dense

/-- The neighbour entries of a view, each pair counted at both ends. -/
def WeightedGraph.entries (g : WeightedGraph) : Nat :=
  ((List.range g.len).map fun v => (g.neighbours v).length).sum

theorem length_filterMap_eq {α β : Type} (f : α → Option β) (l : List α) :
    (l.filterMap f).length = (l.map fun a => if (f a).isSome then 1 else 0).sum := by
  induction l with
  | nil => rfl
  | cons a l ih =>
    rw [List.filterMap_cons, List.map_cons, List.sum_cons, ← ih]
    cases f a with
    | none => simp
    | some b => simp [Nat.add_comm]

def joined (g : WeightedGraph) (v u : Nat) : Nat := if 0 < g.pairWeight v u then 1 else 0

theorem joined_comm (g : WeightedGraph) (v u : Nat) : joined g v u = joined g u v := by
  rw [joined, joined, WeightedGraph.pairWeight_comm]

theorem joined_self (g : WeightedGraph) (v : Nat) : joined g v v = 0 := by
  rw [joined, WeightedGraph.pairWeight_self]
  rfl

theorem entries_eq (g : WeightedGraph) : g.entries =
    2 * ∑ v ∈ range g.len, ∑ u ∈ range g.len with v < u, joined g v u := by
  have rows : g.entries = ∑ v ∈ range g.len, ∑ u ∈ range g.len, joined g v u := by
    rw [WeightedGraph.entries, sum_range_map]
    apply sum_congr rfl
    intro v _
    have row := (g.neighbours_sorted v).sum_eq (fun e mem => g.neighbours_lt mem)
      (fun _ w => if 0 < w then 1 else 0) (by simp)
    have ones : ∀ e ∈ g.neighbours v, (if 0 < e.2 then 1 else 0) = 1 :=
      fun e mem => if_pos ((g.neighbours_sorted v).positive e mem)
    rw [List.map_congr_left ones] at row
    rw [show ∑ u ∈ range g.len, joined g v u = _ from row.symm]
    simp
  rw [rows, Kit.sum_pairs, mul_sum]
  apply sum_congr rfl
  intro v _
  rw [joined_self, Nat.zero_add, mul_sum]
  apply sum_congr rfl
  intro u _
  rw [joined_comm g u v, Nat.two_mul]

theorem nodePairs_length_le (g : WeightedGraph) (label : Nat → Option Nat) (v : Nat) :
    (g.nodePairs label v).length ≤ ∑ u ∈ range g.len with v < u, joined g v u := by
  rw [WeightedGraph.nodePairs]
  split
  · exact Nat.zero_le _
  · rename_i c _
    have row := (g.neighbours_sorted v).sum_eq (fun e mem => g.neighbours_lt mem)
      (fun u w => if u < v ∨ w = 0 then 0 else 1) (by simp)
    have each : ∀ e ∈ g.neighbours v,
        (if (if e.1 < v then none else (label e.1).bind fun d =>
          if d = c then none else some (WeightedPair.mk c d e.2)).isSome then 1 else 0) ≤
        if e.1 < v ∨ e.2 = 0 then 0 else 1 := by
      intro e mem
      have pos := (g.neighbours_sorted v).positive e mem
      by_cases below : e.1 < v
      · simp [below]
      · rw [if_neg (show ¬(e.1 < v ∨ e.2 = 0) by omega), if_neg below]
        generalize Option.isSome _ = found
        cases found with
        | false => exact Nat.zero_le 1
        | true => exact le_rfl
    rw [length_filterMap_eq]
    refine (List.sum_le_sum each).trans ?_
    rw [row, sum_filter]
    apply sum_le_sum
    intro u _
    by_cases above : v < u
    · have weight : WeightRow.weightOf (g.neighbours v) u = g.pairWeight v u := rfl
      rw [if_pos above, weight, joined]
      split <;> split <;> omega
    · by_cases same : u = v
      · subst same
        have none : WeightRow.weightOf (g.neighbours u) u = 0 := g.pairWeight_self u
        simp [none]
      · rw [if_pos (.inl (by omega))]
        exact Nat.zero_le _

theorem links_le_entries (g : WeightedGraph) (label : Nat → Option Nat) :
    links (mergePairs ((List.range g.len).flatMap (g.nodePairs label))) ≤ g.entries := by
  have kept : (mergePairs ((List.range g.len).flatMap (g.nodePairs label))).length ≤
      ((List.range g.len).flatMap (g.nodePairs label)).length := by
    refine (Kit.mergeRuns_length_le _).trans ?_
    rw [List.length_insertionSort]
  have pairs : ((List.range g.len).flatMap (g.nodePairs label)).length ≤
      ∑ v ∈ range g.len, ∑ u ∈ range g.len with v < u, joined g v u := by
    rw [List.length_flatMap, sum_range_map]
    exact sum_le_sum fun v _ => nodePairs_length_le g label v
  rw [links, entries_eq]
  have cut := List.length_filter_le (fun p : WeightedPair => p.lo ≠ p.hi)
    (mergePairs ((List.range g.len).flatMap (g.nodePairs label)))
  omega

variable {ids : List NodeId} {merged : List WeightedPair} {selfW : List Nat}
  {idsSorted : ids.Pairwise (· < ·)} {held : PairsMerged ids.length merged}
  {diagonal : selfW.length = ids.length}

theorem layOut_len : (layOut ids merged selfW idsSorted held diagonal).len = ids.length := rfl

theorem layOut_pairWeight (v u : Nat) :
    (layOut ids merged selfW idsSorted held diagonal).pairWeight v u =
      if v < ids.length ∧ u < ids.length ∧ v ≠ u then
        (merged.lookup (WeightedPair.mk v u 0).1).getD 0 else 0 :=
  weightOf_layRows held v u

theorem layOut_selfWeight (v : Nat) :
    (layOut ids merged selfW idsSorted held diagonal).selfWeight v =
      (addLoops selfW merged).getD v 0 := rfl

/-- A laid out view has the entries counted while it was laid out. -/
theorem layOut_entries : (layOut ids merged selfW idsSorted held diagonal).entries ≤
    links merged := by
  have rows : (layOut ids merged selfW idsSorted held diagonal).entries =
      ∑ v ∈ range ids.length, (merged.filterMap (entryAt v)).length := by
    rw [WeightedGraph.entries, sum_range_map, layOut_len]
    apply sum_congr rfl
    intro v mem
    exact congrArg List.length (layRows_getD merged (mem_range.mp mem))
  have one : ∀ (n : Nat) (p : WeightedPair), ∑ v ∈ range n,
      (if (entryAt v p).isSome then 1 else 0) ≤ if p.lo ≠ p.hi then 2 else 0 := by
    intro n p
    by_cases loop : p.lo = p.hi
    · simp [entryAt, loop]
    · have each : ∀ v ∈ range n, (if (entryAt v p).isSome then 1 else 0) ≤
          (if v = p.lo then 1 else 0) + if v = p.hi then 1 else 0 := by
        intro v _
        unfold entryAt
        rw [if_neg loop]
        split
        · rename_i low
          rw [if_pos low.symm]
          exact (if_pos rfl).le.trans (Nat.le_add_right _ _)
        · split
          · rename_i high
            rw [if_pos high.symm]
            exact (if_pos rfl).le.trans (Nat.le_add_left _ _)
          · simp
      have single : ∀ a : Nat, (∑ v ∈ range n, if v = a then 1 else 0) ≤ 1 := by
        intro a
        rw [sum_ite_eq' (range n) a]
        split <;> omega
      rw [if_pos loop]
      refine (sum_le_sum each).trans ?_
      rw [sum_add_distrib]
      exact Nat.add_le_add (single _) (single _)
  have counted : ∀ (n : Nat) (l : List WeightedPair),
      ∑ v ∈ range n, (l.filterMap (entryAt v)).length ≤ links l := by
    intro n l
    induction l with
    | nil => simp [links]
    | cons p l ih =>
      have split : ∀ v ∈ range n, ((p :: l).filterMap (entryAt v)).length =
          (if (entryAt v p).isSome then 1 else 0) + (l.filterMap (entryAt v)).length := by
        intro v _
        rw [length_filterMap_eq, List.map_cons, List.sum_cons, ← length_filterMap_eq]
      rw [sum_congr rfl split, sum_add_distrib]
      have front := one n p
      have whole : links (p :: l) = (if p.lo ≠ p.hi then 2 else 0) + links l := by
        unfold links
        rw [List.filter_cons]
        by_cases loop : p.lo = p.hi
        · simp [loop]
        · simp [loop]
          omega
      omega
  rw [rows]
  exact counted _ _

end Dense

section Quotient
variable {g : WeightedGraph} {membership : List Nat} {k : Nat}

theorem addLoops_of_apart {selfW : List Nat} {merged : List WeightedPair}
    (apart : ∀ p ∈ merged, p.lo ≠ p.hi) : addLoops selfW merged = selfW := by
  induction merged generalizing selfW with
  | nil => rfl
  | cons p merged ih =>
    rw [addLoops, List.foldl_cons, if_neg (apart p List.mem_cons_self)]
    exact ih fun q mem => apart q (List.mem_cons_of_mem p mem)

theorem nodePairs_apart (label : Nat → Option Nat) (l : List Nat) :
    ∀ p ∈ mergePairs (l.flatMap (g.nodePairs label)), p.lo ≠ p.hi := by
  apply Kit.mergeRuns_forall
  · intro k a b left _
    exact left
  · intro p mem
    obtain ⟨v, -, mem⟩ := List.mem_flatMap.mp ((List.mem_insertionSort _).mp mem)
    rw [WeightedGraph.nodePairs] at mem
    split at mem
    · cases mem
    · rename_i c labelled
      obtain ⟨e, inside, found⟩ := List.mem_filterMap.mp mem
      split at found
      · cases found
      · obtain ⟨d, other, found⟩ := Option.bind_eq_some_iff.mp found
        split at found
        · cases found
        · rename_i apart
          cases found
          intro same
          have ends : min c d = max c d := same
          omega

theorem foldl_addAt_length (deps : List (Nat × Nat)) (l : List Nat) :
    (deps.foldl addAt l).length = l.length := by
  induction deps generalizing l with
  | nil => rfl
  | cons e deps ih => rw [List.foldl_cons, ih, addAt_length]

theorem quotient_laid (dense : g.entries ≤ indexCap) (small : k ≤ indexCap) :
    ∃ (held : PairsMerged (List.range k).length (mergePairs ((List.range g.len).flatMap
          (g.nodePairs (WeightedGraph.labelOf membership k)))))
        (diagonal : (((List.range g.len).flatMap (g.nodeSelf
          (WeightedGraph.labelOf membership k))).foldl addAt (List.replicate k 0)).length =
            (List.range k).length),
      g.quotient membership k = layOut (List.range k)
        (mergePairs ((List.range g.len).flatMap
          (g.nodePairs (WeightedGraph.labelOf membership k))))
        (((List.range g.len).flatMap (g.nodeSelf
          (WeightedGraph.labelOf membership k))).foldl addAt (List.replicate k 0))
        List.pairwise_lt_range held diagonal := by
  have valid := g.folded_valid (WeightedGraph.labelOf membership k) (k := k) fun _ _ =>
    WeightedGraph.labelOf_lt
  have diagonal : (((List.range g.len).flatMap (g.nodeSelf
      (WeightedGraph.labelOf membership k))).foldl addAt (List.replicate k 0)).length =
        (List.range k).length := by
    rw [foldl_addAt_length, List.length_replicate, List.length_range]
  rw [WeightedGraph.folded_eq] at valid
  refine ⟨mergePairs_merged (by rw [List.length_range]; exact valid), diagonal, ?_⟩
  have open' : ¬(indexCap < (List.range k).length ∨ indexCap < links (mergePairs
      ((List.range g.len).flatMap (g.nodePairs (WeightedGraph.labelOf membership k))))) := by
    have bounded := links_le_entries g (WeightedGraph.labelOf membership k)
    rw [List.length_range]
    omega
  rw [WeightedGraph.quotient, if_neg (by omega)]
  simp only [WeightedGraph.folded_eq]
  rw [assembleWith, if_neg open']
  congr 1
  rw [← diagonal, resize_self]

theorem quotient_len (dense : g.entries ≤ indexCap) (small : k ≤ indexCap) :
    (g.quotient membership k).len = k := by
  obtain ⟨held, diagonal, laid⟩ := quotient_laid dense small
  rw [laid, layOut_len, List.length_range]

theorem quotient_ids (dense : g.entries ≤ indexCap) (small : k ≤ indexCap) :
    (g.quotient membership k).ids = List.range k := by
  obtain ⟨held, diagonal, laid⟩ := quotient_laid dense small
  rw [laid]
  rfl

theorem quotient_entries (dense : g.entries ≤ indexCap) (small : k ≤ indexCap) :
    (g.quotient membership k).entries ≤ indexCap := by
  obtain ⟨held, diagonal, laid⟩ := quotient_laid dense small
  rw [laid]
  exact layOut_entries.trans ((links_le_entries g _).trans dense)

theorem quotient_entry (covers : Covers g membership k) (fits : g.Unsaturated)
    (dense : g.entries ≤ indexCap) (small : k ≤ indexCap) {c d : Nat} (left : c < k)
    (right : d < k) : (g.quotient membership k).entry c d =
      block (range g.len) (memberOf membership) g.entry c d := by
  obtain ⟨held, diagonal, laid⟩ := quotient_laid dense small
  rw [laid, WeightedGraph.entry]
  by_cases same : c = d
  · subst same
    have total := totalAt_allSelf covers fits c
    have start : (List.replicate k 0).getD c 0 = 0 := by
      rw [List.getD_eq_getElem?_getD, List.getElem?_replicate, if_pos left, Option.getD_some]
    rw [if_pos rfl, layOut_selfWeight, addLoops_of_apart (nodePairs_apart _ _),
      foldl_addAt_getD _ _ (by rw [List.length_replicate]; exact left), start, Nat.zero_add, total]
    rw [start, Nat.zero_add, total]
    exact (block_le_total c c).trans fits
  · have total := totalAt_allPairs covers same
    have perm := List.perm_insertionSort (fun p q : WeightedPair => p.1 ≤ q.1)
      ((List.range g.len).flatMap (g.nodePairs (WeightedGraph.labelOf membership k)))
    have exact' : ∀ a b, a + b ≤ u64Max → satAdd a b = a + b := fun _ _ => satAdd_eq
    rw [if_neg same, layOut_pairWeight, List.length_range, if_pos ⟨left, right, same⟩, mergePairs,
      Kit.lookup_mergeRuns exact' _ (sorted_by_key _), Kit.totalAt_perm perm, total]
    rw [Kit.totalAt_perm perm, total]
    exact (block_le_total c d).trans fits

variable (covers : Covers g membership k) (fits : g.Unsaturated) (dense : g.entries ≤ indexCap)
  (small : k ≤ indexCap)
include covers fits dense small

theorem sum_quotient_entry {c : Nat} (left : c < k) :
    ∑ d ∈ range k, (g.quotient membership k).entry c d =
      ∑ v ∈ range g.len with memberOf membership v = c, ∑ u ∈ range g.len, g.entry v u := by
  rw [← Kit.sum_block covers.maps]
  apply sum_congr rfl
  intro d mem
  exact quotient_entry covers fits dense small left (mem_range.mp mem)

theorem quotient_exactTotal : (g.quotient membership k).exactTotal = g.exactTotal := by
  rw [WeightedGraph.exactTotal_eq, WeightedGraph.exactTotal_eq, quotient_len dense small,
    ← Kit.sum_sum_block covers.maps]
  apply sum_congr rfl
  intro c left
  apply sum_congr rfl
  intro d right
  exact quotient_entry covers fits dense small (mem_range.mp left) (mem_range.mp right)

theorem quotient_unsaturated : (g.quotient membership k).Unsaturated := by
  unfold WeightedGraph.Unsaturated
  rw [quotient_exactTotal covers fits dense small]
  exact fits

theorem quotient_strength {c : Nat} (left : c < k) : (g.quotient membership k).strength c =
    ∑ v ∈ range g.len with memberOf membership v = c, g.strength v := by
  have len : (g.quotient membership k).len = k := quotient_len dense small
  rw [WeightedGraph.strength_eq (quotient_unsaturated covers fits dense small)
    (by rw [len]; exact left), len, sum_quotient_entry covers fits dense small left]
  apply sum_congr rfl
  intro v mem
  exact (WeightedGraph.strength_eq fits (mem_range.mp (mem_filter.mp mem).1)).symm

theorem quotient_total : (g.quotient membership k).totalWeight = g.totalWeight := by
  rw [WeightedGraph.totalWeight_eq _ (quotient_unsaturated covers fits dense small),
    WeightedGraph.totalWeight_eq g fits, quotient_exactTotal covers fits dense small]

theorem quotient_pairWeight {c d : Nat} (left : c < k) (right : d < k) (apart : c ≠ d) :
    (g.quotient membership k).pairWeight c d =
      ∑ v ∈ range g.len with memberOf membership v = c,
        ∑ u ∈ range g.len with memberOf membership u = d, g.pairWeight v u := by
  have whole := quotient_entry covers fits dense small left right
  rw [WeightedGraph.entry, if_neg apart] at whole
  rw [whole, block]
  apply sum_congr rfl
  intro v inside
  apply sum_congr rfl
  intro u inside'
  have label := (mem_filter.mp inside).2
  have label' := (mem_filter.mp inside').2
  apply if_neg
  rintro rfl
  exact apart (label.symm.trans label')

end Quotient

section Compose

theorem WeightRow.Sorted.ext {r r' : WeightRow} (sorted : r.Sorted) (sorted' : r'.Sorted)
    (same : ∀ u, WeightRow.weightOf r u = WeightRow.weightOf r' u) : r = r' := by
  have once : ∀ {l : WeightRow}, l.Sorted → l.Nodup :=
    fun h => h.ascending.imp fun lt eq => (eq ▸ lt).ne rfl
  have perm : r.Perm r' := by
    rw [List.perm_ext_iff_of_nodup (once sorted) (once sorted')]
    rintro ⟨u, w⟩
    rw [sorted.mem_iff, sorted'.mem_iff, same]
  apply perm.eq_of_pairwise _ sorted.ascending sorted'.ascending
  intro a b _ _ lt gt
  exact absurd (lt.trans gt) (lt_irrefl _)

theorem WeightedGraph.ext_entry {g h : WeightedGraph} (ids : g.ids = h.ids)
    (same : ∀ v < g.len, ∀ u < g.len, g.entry v u = h.entry v u) : g = h := by
  have len : g.len = h.len := congrArg List.length ids
  have pairs : ∀ v u, g.pairWeight v u = h.pairWeight v u := by
    intro v u
    by_cases apart : v = u
    · rw [apart, pairWeight_self, pairWeight_self]
    · by_cases inside : v < g.len ∧ u < g.len
      · have both := same v inside.1 u inside.2
        rwa [entry, entry, if_neg apart, if_neg apart] at both
      · have none : ∀ x : WeightedGraph, x.len = g.len → x.pairWeight v u = 0 := by
          intro x eq
          by_contra some
          have pos : 0 < x.pairWeight v u := Nat.pos_of_ne_zero some
          have right := x.pairWeight_lt pos
          rw [x.pairWeight_comm] at pos
          have left := x.pairWeight_lt pos
          exact inside ⟨eq ▸ left, eq ▸ right⟩
        rw [none g rfl, none h len.symm]
  have rows : g.rows = h.rows := by
    apply List.ext_getElem
    · rw [g.rows_length, h.rows_length, ids]
    · intro v left right
      have row := WeightRow.Sorted.ext (g.neighbours_sorted v) (h.neighbours_sorted v) (pairs v)
      unfold neighbours at row
      rwa [List.getD_eq_getElem?_getD, List.getD_eq_getElem?_getD, List.getElem?_eq_getElem left,
        List.getElem?_eq_getElem right] at row
  have selfW : g.selfW = h.selfW := by
    apply List.ext_getElem
    · rw [g.selfW_length, h.selfW_length, ids]
    · intro v left right
      have inside : v < g.len := left.trans_eq g.selfW_length
      have diag := same v inside v inside
      rw [entry, entry, if_pos rfl, if_pos rfl] at diag
      unfold selfWeight at diag
      rwa [List.getD_eq_getElem?_getD, List.getD_eq_getElem?_getD, List.getElem?_eq_getElem left,
        List.getElem?_eq_getElem right] at diag
  cases g
  cases h
  cases ids
  cases rows
  cases selfW
  rfl

def composed (membership outer : List Nat) : List Nat := membership.map (memberOf outer)

variable {g : WeightedGraph} {membership outer : List Nat} {k k' : Nat}

theorem Covers.memberOf_composed (covers : Covers g membership k) {v : Nat} (inside : v < g.len) :
    memberOf (composed membership outer) v = memberOf outer (memberOf membership v) := by
  have there : v < membership.length := covers.all ▸ inside
  unfold memberOf composed
  rw [List.getD_eq_getElem?_getD, List.getElem?_map, List.getElem?_eq_getElem there,
    List.getD_eq_getElem?_getD (l := membership), List.getElem?_eq_getElem there]
  rfl

theorem Covers.composed (covers : Covers g membership k) (outside : outer.length = k)
    (bounded : ∀ c ∈ outer, c < k') : Covers g (composed membership outer) k' := by
  refine ⟨(List.length_map _).trans covers.all, ?_⟩
  intro c mem
  obtain ⟨d, inside, rfl⟩ := List.mem_map.mp mem
  have there : d < outer.length := outside ▸ covers.small d inside
  unfold memberOf
  rw [List.getD_eq_getElem?_getD, List.getElem?_eq_getElem there]
  exact bounded _ (List.getElem_mem there)

theorem quotient_quotient (covers : Covers g membership k) (fits : g.Unsaturated)
    (dense : g.entries ≤ indexCap) (small : k ≤ indexCap) (outside : outer.length = k)
    (bounded : ∀ c ∈ outer, c < k') :
    (g.quotient membership k).quotient outer k' = g.quotient (composed membership outer) k' := by
  by_cases over' : indexCap < k'
  · unfold WeightedGraph.quotient
    rw [if_pos over', if_pos over']
  · have small' : k' ≤ indexCap := Nat.le_of_not_lt over'
    have len : (g.quotient membership k).len = k := quotient_len dense small
    have thin : (g.quotient membership k).entries ≤ indexCap := quotient_entries dense small
    have still := quotient_unsaturated covers fits dense small
    have covers' : Covers (g.quotient membership k) outer k' := ⟨outside.trans len.symm, bounded⟩
    have whole := covers.composed outside bounded
    apply WeightedGraph.ext_entry
    · rw [quotient_ids thin small', quotient_ids dense small']
    · rw [quotient_len thin small']
      intro c left d right
      rw [quotient_entry covers' still thin small' left right,
        quotient_entry whole fits dense small' left right, len]
      have blocks : block (range k) (memberOf outer) (g.quotient membership k).entry c d =
          block (range k) (memberOf outer)
            (block (range g.len) (memberOf membership) g.entry) c d := by
        apply Kit.block_congr
        intro a ha b hb
        exact quotient_entry covers fits dense small (mem_range.mp ha) (mem_range.mp hb)
      rw [blocks, Kit.block_block covers.maps, block_eq, block_eq]
      apply sum_congr rfl
      intro v hv
      apply sum_congr rfl
      intro u hu
      rw [covers.memberOf_composed (mem_range.mp hv), covers.memberOf_composed (mem_range.mp hu)]

end Compose

end Glia.Algo
