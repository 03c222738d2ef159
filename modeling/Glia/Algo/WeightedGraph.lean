import Glia.Core
import Mathlib.Algebra.Order.BigOperators.Group.List
import Mathlib.Algebra.Order.Ring.Nat
import Mathlib.Data.List.Sort

/-! The weighted undirected view the cuts and communities run on. -/
namespace Glia.Algo

def u64Max : Nat := 18446744073709551615

/-- A sum that stays at the greatest weight. -/
def satAdd (a b : Nat) : Nat := min (a + b) u64Max

theorem satAdd_eq {a b : Nat} (fits : a + b ≤ u64Max) : satAdd a b = a + b := min_eq_left fits

/-- A neighbour list: each neighbour's index and the pair's merged weight. -/
abbrev WeightRow := List (Nat × Nat)

namespace WeightRow

/-- The weight a row holds for a neighbour, nothing where it holds none. -/
def weightOf (row : WeightRow) (v : Nat) : Nat := (row.lookup v).getD 0

structure Sorted (row : WeightRow) : Prop where
  ascending : row.Pairwise fun e f => e.1 < f.1
  positive : ∀ e ∈ row, 0 < e.2

@[simp] theorem weightOf_nil (v : Nat) : weightOf [] v = 0 := rfl

theorem weightOf_cons (e : Nat × Nat) (row : WeightRow) (v : Nat) :
    weightOf (e :: row) v = if v = e.1 then e.2 else weightOf row v := by
  by_cases same : v = e.1
  · rw [if_pos same, weightOf, List.lookup_cons, beq_iff_eq.mpr same]
    rfl
  · rw [if_neg same, weightOf, List.lookup_cons, beq_eq_false_iff_ne.mpr same]
    rfl

namespace Sorted

variable {row : WeightRow} {e : Nat × Nat}

theorem nil : Sorted [] := ⟨List.Pairwise.nil, by simp⟩

theorem tail (h : Sorted (e :: row)) : Sorted row :=
  ⟨(List.pairwise_cons.mp h.ascending).2, fun f mem => h.positive f (List.mem_cons_of_mem _ mem)⟩

theorem weightOf_lt (h : Sorted (e :: row)) {v : Nat} (below : v ≤ e.1) : weightOf row v = 0 := by
  have later := (List.pairwise_cons.mp h.ascending).1
  clear h
  induction row with
  | nil => rfl
  | cons f row ih =>
    have above := later f List.mem_cons_self
    rw [weightOf_cons, if_neg (by omega)]
    exact ih fun g mem => later g (List.mem_cons_of_mem _ mem)

theorem mem_iff (h : Sorted row) (v k : Nat) : (v, k) ∈ row ↔ 0 < k ∧ weightOf row v = k := by
  induction row with
  | nil => simp [weightOf]; omega
  | cons e row ih =>
    rw [List.mem_cons, weightOf_cons, ih h.tail]
    by_cases same : v = e.1
    · subst same
      rw [if_pos rfl, h.weightOf_lt le_rfl]
      constructor
      · rintro (eq | ⟨pos, eq⟩)
        · have weight : k = e.2 := congrArg Prod.snd eq
          exact ⟨weight ▸ h.positive _ List.mem_cons_self, weight.symm⟩
        · omega
      · rintro ⟨_, eq⟩
        exact .inl (by rw [← eq])
    · rw [if_neg same]
      constructor
      · rintro (eq | there)
        · exact absurd (congrArg Prod.fst eq) same
        · exact there
      · exact .inr

end Sorted

end WeightRow

/-- Each unordered pair of distinct nodes joined by a weighted edge holds the sum of those
edges' weights, each node its self-loop weight. Dense index `i` is the `i`-th id. -/
structure WeightedGraph where
  ids : List NodeId
  rows : List WeightRow
  selfW : List Nat
  ids_sorted : ids.Pairwise (· < ·)
  rows_length : rows.length = ids.length
  selfW_length : selfW.length = ids.length
  sorted : ∀ row ∈ rows, row.Sorted
  within : ∀ row ∈ rows, ∀ e ∈ row, e.1 < ids.length
  loopless : ∀ v, (rows.getD v []).weightOf v = 0
  symm : ∀ v u, (rows.getD v []).weightOf u = (rows.getD u []).weightOf v

namespace WeightedGraph

variable (g : WeightedGraph)

def len : Nat := g.ids.length

def neighbours (v : Nat) : WeightRow := g.rows.getD v []

def pairWeight (a b : Nat) : Nat := (g.neighbours a).weightOf b

def selfWeight (v : Nat) : Nat := g.selfW.getD v 0

def strength (v : Nat) : Nat := (g.neighbours v).foldl (fun s e => satAdd s e.2) (g.selfWeight v)

def totalWeight : Nat := ((List.range g.len).map g.strength).foldl satAdd 0

/-- Every strength summed, without a bound. -/
def exactTotal : Nat :=
  ((List.range g.len).map fun v => g.selfWeight v + ((g.neighbours v).map Prod.snd).sum).sum

theorem neighbours_sorted (v : Nat) : (g.neighbours v).Sorted := by
  unfold neighbours
  rw [List.getD_eq_getElem?_getD]
  cases at' : g.rows[v]? with
  | none => exact .nil
  | some row => exact g.sorted row (List.mem_of_getElem? at')

theorem neighbours_lt {v : Nat} {e : Nat × Nat} (mem : e ∈ g.neighbours v) : e.1 < g.len := by
  unfold neighbours at mem
  rw [List.getD_eq_getElem?_getD] at mem
  cases at' : g.rows[v]? with
  | none =>
    rw [at'] at mem
    cases mem
  | some row =>
    rw [at'] at mem
    exact g.within row (List.mem_of_getElem? at') e mem

theorem pairWeight_comm (a b : Nat) : g.pairWeight a b = g.pairWeight b a := g.symm a b

theorem pairWeight_self (a : Nat) : g.pairWeight a a = 0 := g.loopless a

theorem pairWeight_lt {a b : Nat} (some : 0 < g.pairWeight a b) : b < g.len := by
  have mem := ((g.neighbours_sorted a).mem_iff b _).mpr ⟨some, rfl⟩
  exact g.neighbours_lt mem

theorem foldl_satAdd {s : Nat} {l : List Nat} (fits : s + l.sum ≤ u64Max) :
    l.foldl satAdd s = s + l.sum := by
  induction l generalizing s with
  | nil => rfl
  | cons a l ih =>
    rw [List.sum_cons, ← Nat.add_assoc] at fits
    rw [List.foldl_cons, satAdd_eq (by omega), ih fits, List.sum_cons, Nat.add_assoc]

theorem totalWeight_eq (fits : g.exactTotal ≤ u64Max) : g.totalWeight = g.exactTotal := by
  have each : ∀ v ∈ List.range g.len,
      g.strength v = g.selfWeight v + ((g.neighbours v).map Prod.snd).sum := by
    intro v mem
    have part : g.selfWeight v + ((g.neighbours v).map Prod.snd).sum ≤ g.exactTotal :=
      List.single_le_sum (fun _ _ => Nat.zero_le _) _ (List.mem_map_of_mem mem)
    rw [← foldl_satAdd (part.trans fits), List.foldl_map]
    rfl
  unfold totalWeight
  rw [List.map_congr_left each, foldl_satAdd (by rw [Nat.zero_add]; exact fits), Nat.zero_add]
  rfl

end WeightedGraph

end Glia.Algo
