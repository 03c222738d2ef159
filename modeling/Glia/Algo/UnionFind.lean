import Mathlib.Data.List.Basic
import Mathlib.Order.MinMax

/-! Disjoint sets over dense indices: the root of a set is its smallest index. -/
namespace Glia.Algo

structure UnionFind where
  parent : List Nat
  below : ∀ i (h : i < parent.length), parent[i] ≤ i

namespace UnionFind

def new (n : Nat) : UnionFind where
  parent := List.range n
  below i h := by rw [List.getElem_range]

def len (uf : UnionFind) : Nat := uf.parent.length

/-- The first pass of `find`: up the parents to the root. An index outside the set is its own. -/
def root (uf : UnionFind) (i : Nat) : Nat :=
  if h : i < uf.parent.length then
    if uf.parent[i] = i then i else uf.root uf.parent[i]
  else i
termination_by i
decreasing_by
  have := uf.below i h
  omega

def point (uf : UnionFind) (i r : Nat) (le : r ≤ i) : UnionFind where
  parent := uf.parent.set i r
  below j h := by
    rw [List.getElem_set]
    split
    · omega
    · exact uf.below j _

/-- The second pass of `find`: every index from `cur` up to the root is pointed at it. -/
def compress (uf : UnionFind) (root cur : Nat) : UnionFind :=
  if h : root < cur ∧ uf.parent.getD cur cur < cur then
    (uf.point cur root h.1.le).compress root (uf.parent.getD cur cur)
  else uf
termination_by cur
decreasing_by exact h.2

def find (uf : UnionFind) (i : Nat) : Nat × UnionFind :=
  if uf.len ≤ i then (i, uf) else (uf.root i, uf.compress (uf.root i) i)

/-- Join two sets under the smaller root; an index outside the set links nothing. -/
def union (uf : UnionFind) (a b : Nat) : Nat × UnionFind :=
  let first := uf.find a
  let second := first.2.find b
  if second.2.len ≤ first.1 ∨ second.2.len ≤ second.1 then (first.1, second.2)
  else
    let lo := min first.1 second.1
    let hi := max first.1 second.1
    if lo ≠ hi then (lo, second.2.point hi lo min_le_max) else (lo, second.2)

variable (uf : UnionFind)

theorem root_of_ge {i : Nat} (out : uf.len ≤ i) : uf.root i = i := by
  rw [root, dif_neg (by unfold len at out; omega)]

theorem root_of_fixed {i : Nat} (fixed : uf.parent[i]? = some i) : uf.root i = i := by
  obtain ⟨h, eq⟩ := List.getElem?_eq_some_iff.mp fixed
  rw [root, dif_pos h, if_pos eq]

theorem root_step {i p : Nat} (up : uf.parent[i]? = some p) : uf.root i = uf.root p := by
  obtain ⟨h, rfl⟩ := List.getElem?_eq_some_iff.mp up
  by_cases fixed : uf.parent[i] = i
  · rw [fixed]
  · rw [root, dif_pos h, if_neg fixed]

theorem root_le (i : Nat) : uf.root i ≤ i := by
  fun_induction root uf i with
  | case1 i h fixed => exact le_rfl
  | case2 i h moved ih =>
    have := uf.below i h
    omega
  | case3 i out => exact le_rfl

theorem root_lt {i : Nat} (h : i < uf.len) : uf.root i < uf.len := (uf.root_le i).trans_lt h

theorem root_fixed {i : Nat} (h : i < uf.len) : uf.parent[uf.root i]? = some (uf.root i) := by
  fun_induction root uf i with
  | case1 i inside fixed => exact List.getElem?_eq_some_iff.mpr ⟨inside, fixed⟩
  | case2 i inside moved ih =>
    have := uf.below i inside
    exact ih (by omega)
  | case3 i out => exact absurd h out

theorem root_root (i : Nat) : uf.root (uf.root i) = uf.root i := by
  by_cases h : i < uf.len
  · exact uf.root_of_fixed (uf.root_fixed h)
  · rw [uf.root_of_ge (Nat.le_of_not_lt h), uf.root_of_ge (Nat.le_of_not_lt h)]

@[simp] theorem point_len {i r : Nat} (le : r ≤ i) : (uf.point i r le).len = uf.len := by
  simp [point, len]

theorem point_getElem? {i r : Nat} (le : r ≤ i) (h : i < uf.len) (j : Nat) :
    (uf.point i r le).parent[j]? = if j = i then some r else uf.parent[j]? := by
  unfold point len at *
  rw [List.getElem?_set]
  by_cases same : j = i
  · rw [if_pos same.symm, if_pos same, if_pos h]
  · rw [if_neg (Ne.symm same), if_neg same]

theorem root_point {i : Nat} (h : i < uf.len) (j : Nat) :
    (uf.point i (uf.root i) (uf.root_le i)).root j = uf.root j := by
  have parents := uf.point_getElem? (uf.root_le i) h
  induction j using Nat.strong_induction_on with
  | _ j ih =>
    by_cases out : uf.len ≤ j
    · rw [uf.root_of_ge out, root_of_ge _ (by rwa [point_len])]
    have inside : j < uf.parent.length := Nat.lt_of_not_le out
    by_cases same : j = i
    · subst same
      by_cases top : uf.root j = j
      · apply Eq.trans _ top.symm
        apply root_of_fixed
        rw [parents, if_pos rfl, top]
      · have lower := lt_of_le_of_ne (uf.root_le j) top
        rw [root_step _ ((parents j).trans (if_pos rfl)), ih _ lower, root_root]
    · have up : uf.parent[j]? = some uf.parent[j] := List.getElem?_eq_getElem inside
      have up' := (parents j).trans ((if_neg same).trans up)
      by_cases top : uf.parent[j] = j
      · rw [top] at up up'
        rw [root_of_fixed _ up, root_of_fixed _ up']
      · have lower := lt_of_le_of_ne (uf.below j inside) top
        rw [root_step _ up, root_step _ up', ih _ lower]

theorem root_link {lo hi : Nat} (lt : lo < hi) (h : hi < uf.len) (low : uf.root lo = lo)
    (high : uf.root hi = hi) (j : Nat) :
    (uf.point hi lo lt.le).root j = if uf.root j = hi then lo else uf.root j := by
  have parents := uf.point_getElem? lt.le h
  have lowFixed : uf.parent[lo]? = some lo := low ▸ uf.root_fixed (lt.trans h)
  induction j using Nat.strong_induction_on with
  | _ j ih =>
    by_cases out : uf.len ≤ j
    · rw [uf.root_of_ge out, root_of_ge _ (by rwa [point_len]), if_neg (by omega)]
    have inside : j < uf.parent.length := Nat.lt_of_not_le out
    by_cases same : j = hi
    · rw [same, high, if_pos rfl, root_step _ ((parents hi).trans (if_pos rfl))]
      apply root_of_fixed
      rw [parents, if_neg lt.ne, lowFixed]
    · have up : uf.parent[j]? = some uf.parent[j] := List.getElem?_eq_getElem inside
      have up' := (parents j).trans ((if_neg same).trans up)
      by_cases top : uf.parent[j] = j
      · rw [top] at up up'
        rw [root_of_fixed _ up, root_of_fixed _ up', if_neg same]
      · have lower := lt_of_le_of_ne (uf.below j inside) top
        rw [root_step _ up, root_step _ up', ih _ lower]

theorem compress_root {r cur : Nat} (own : uf.root cur = r) (h : cur < uf.len) :
    (uf.compress r cur).len = uf.len ∧ ∀ j, (uf.compress r cur).root j = uf.root j := by
  induction cur using Nat.strong_induction_on generalizing uf with
  | _ cur ih =>
    subst own
    rw [compress]
    split
    · rename_i go
      have up : uf.parent[cur]? = some (uf.parent.getD cur cur) := by
        rw [List.getD_eq_getElem?_getD, List.getElem?_eq_getElem h, Option.getD_some]
      have kept := uf.root_point h
      obtain ⟨len', roots⟩ := ih (uf.parent.getD cur cur) go.2
        (uf.point cur (uf.root cur) go.1.le) (by rw [kept, root_step _ up]) (by
          rw [point_len]
          exact go.2.trans h)
      refine ⟨len'.trans (point_len uf _), fun j => ?_⟩
      rw [roots, kept]
    · exact ⟨rfl, fun j => rfl⟩

theorem find_spec (i : Nat) :
    (uf.find i).1 = uf.root i ∧ (uf.find i).2.len = uf.len ∧
      ∀ j, (uf.find i).2.root j = uf.root j := by
  unfold find
  split
  · rename_i out
    exact ⟨(uf.root_of_ge out).symm, rfl, fun j => rfl⟩
  · rename_i inside
    exact ⟨rfl, uf.compress_root rfl (Nat.lt_of_not_le inside)⟩

/-- `union` puts the two sets under the smaller of their roots. -/
theorem union_spec {a b : Nat} (ha : a < uf.len) (hb : b < uf.len) :
    (uf.union a b).1 = min (uf.root a) (uf.root b) ∧ (uf.union a b).2.len = uf.len ∧
      ∀ j, (uf.union a b).2.root j =
        if uf.root j = uf.root a ∨ uf.root j = uf.root b then min (uf.root a) (uf.root b)
        else uf.root j := by
  obtain ⟨rootA, lenA, rootsA⟩ := uf.find_spec a
  obtain ⟨rootB, lenB, rootsB⟩ := (uf.find a).2.find_spec b
  rw [lenA] at lenB
  rw [rootsA] at rootB
  have roots : ∀ j, ((uf.find a).2.find b).2.root j = uf.root j := fun j =>
    (rootsB j).trans (rootsA j)
  have ltA := uf.root_lt ha
  have ltB := uf.root_lt hb
  unfold union
  dsimp only
  simp only [rootA, rootB, lenB]
  rw [if_neg (by omega)]
  split
  · rename_i differ
    have lt : min (uf.root a) (uf.root b) < max (uf.root a) (uf.root b) :=
      lt_of_le_of_ne min_le_max differ
    refine ⟨rfl, (point_len _ min_le_max).trans lenB, fun j => ?_⟩
    have own : ∀ i, i = uf.root a ∨ i = uf.root b → uf.root i = i := by
      rintro i (rfl | rfl)
      · exact uf.root_root a
      · exact uf.root_root b
    have link := root_link ((uf.find a).2.find b).2 lt (by
      rw [lenB]
      exact max_lt ltA ltB)
      ((roots _).trans (own _ (min_choice _ _))) ((roots _).trans (own _ (max_choice _ _))) j
    rw [link, roots]
    rcases Nat.le_total (uf.root a) (uf.root b) with le | le
    · rw [min_eq_left le, max_eq_right le]
      by_cases atA : uf.root j = uf.root a <;> by_cases atB : uf.root j = uf.root b <;>
        simp [atA, atB]
    · rw [min_eq_right le, max_eq_left le]
      by_cases atA : uf.root j = uf.root a <;> by_cases atB : uf.root j = uf.root b <;>
        simp [atA, atB]
  · rename_i one
    have one : uf.root a = uf.root b := by
      rcases Nat.le_total (uf.root a) (uf.root b) with le | le
      · rw [min_eq_left le, max_eq_right le] at one
        exact not_not.mp one
      · rw [min_eq_right le, max_eq_left le] at one
        exact (not_not.mp one).symm
    refine ⟨rfl, lenB, fun j => ?_⟩
    rw [roots, one, min_self]
    split
    · rename_i eq
      exact or_self_iff.mp eq
    · rfl

end UnionFind

end Glia.Algo
