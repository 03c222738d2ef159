import Mathlib.Data.List.Sort

/-! A stable sort under a comparator, with a count of the entries it moves. -/
namespace Glia.Kit.StableSort

open Std (TransCmp OrientedCmp LawfulEqCmp)

variable {α : Type*} (cmp : α → α → Ordering)

/-- Each entry compares no greater than the next. -/
def isSorted (v : List α) : Bool := (v.zip v.tail).all fun p => cmp p.1 p.2 != .gt

/-- The entries with their indices, sorted by entry, equal ones by index. -/
def sortOrder (v : List α) : List (α × Nat) :=
  v.zipIdx.insertionSort fun e f => cmp e.1 f.1 ≠ .gt

/-- How many of an order's entries stand at another index. -/
def displaced (order : List (α × Nat)) : Nat :=
  (order.zipIdx.filter fun e => e.2 ≠ e.1.2).length

/-- The entries sorted, and how many changed index. A sorted list is left alone. -/
def sortCounting (v : List α) : List α × Nat :=
  if isSorted cmp v then (v, 0)
  else ((sortOrder cmp v).map Prod.fst, displaced (sortOrder cmp v))

/-- An order of a list's entries under the comparator, equal ones by index. -/
structure StableOrder (v : List α) (order : List (α × Nat)) : Prop where
  perm : order.Perm v.zipIdx
  ordered : order.Pairwise fun e f =>
    cmp e.1 f.1 ≠ .gt ∧ (cmp e.1 f.1 = .eq → e.2 < f.2)

/-- The positions that hold another entry than before. -/
def changed [DecidableEq α] (v out : List α) : Nat :=
  ((v.zip out).filter fun p => p.1 ≠ p.2).length

section Order
variable {cmp}

theorem le_trans [TransCmp cmp] {a b c : α} (h : cmp a b ≠ .gt) (h' : cmp b c ≠ .gt) :
    cmp a c ≠ .gt := by
  apply Ordering.isLE_iff_ne_gt.mp
  exact TransCmp.isLE_trans (Ordering.isLE_iff_ne_gt.mpr h) (Ordering.isLE_iff_ne_gt.mpr h')

theorem le_total [OrientedCmp cmp] (a b : α) : cmp a b ≠ .gt ∨ cmp b a ≠ .gt := by
  have swap : cmp a b = (cmp b a).swap := OrientedCmp.eq_swap
  cases h : cmp b a <;> simp_all

theorem le_antisymm [OrientedCmp cmp] [LawfulEqCmp cmp] {a b : α} (h : cmp a b ≠ .gt)
    (h' : cmp b a ≠ .gt) : a = b := by
  have swap : cmp a b = (cmp b a).swap := OrientedCmp.eq_swap
  apply (LawfulEqCmp.eq_of_compare : cmp a b = .eq → a = b)
  cases h'' : cmp b a <;> simp_all

theorem isSorted_iff [TransCmp cmp] (v : List α) :
    isSorted cmp v = true ↔ v.Pairwise fun a b => cmp a b ≠ .gt := by
  induction v with
  | nil => simp [isSorted]
  | cons a v ih =>
    cases v with
    | nil => simp [isSorted]
    | cons b v =>
      have step : isSorted cmp (a :: b :: v) = (cmp a b != .gt && isSorted cmp (b :: v)) := rfl
      rw [step, Bool.and_eq_true, ih, bne_iff_ne, List.pairwise_cons (a := a)]
      constructor
      · intro ⟨first, rest⟩
        refine ⟨fun c mem => ?_, rest⟩
        rcases List.mem_cons.mp mem with rfl | later
        · exact first
        · exact le_trans first ((List.pairwise_cons.mp rest).1 c later)
      · exact fun h => ⟨h.1 b List.mem_cons_self, h.2⟩

end Order

section Ties
variable {β : Type*} {r : β → β → Prop} [DecidableRel r] {idx : β → Nat}
  (trans : ∀ a b c, r a b → r b c → r a c) (total : ∀ a b, r a b ∨ r b a)

include trans total

theorem orderedInsert_ties {a : β} {l : List β} (below : ∀ b ∈ l, idx a < idx b)
    (h : l.Pairwise fun b c => r b c ∧ (r c b → idx b < idx c)) :
    (l.orderedInsert r a).Pairwise fun b c => r b c ∧ (r c b → idx b < idx c) := by
  induction l with
  | nil => exact List.pairwise_singleton _ _
  | cons b l ih =>
    have parts := List.pairwise_cons.mp h
    rw [List.orderedInsert_cons]
    split
    · rename_i before
      apply List.pairwise_cons.mpr
      refine ⟨fun c mem => ⟨?_, fun _ => below c mem⟩, h⟩
      rcases List.mem_cons.mp mem with rfl | later
      · exact before
      · exact trans _ _ _ before (parts.1 c later).1
    · rename_i after
      apply List.pairwise_cons.mpr
      refine ⟨fun c mem => ?_, ih (fun c mem => below c (List.mem_cons_of_mem _ mem)) parts.2⟩
      rcases (List.mem_orderedInsert _).mp mem with rfl | later
      · exact ⟨(total _ _).resolve_left after, fun back => absurd back after⟩
      · exact parts.1 c later

theorem insertionSort_ties {l : List β} (ascending : l.Pairwise fun a b => idx a < idx b) :
    (l.insertionSort r).Pairwise fun b c => r b c ∧ (r c b → idx b < idx c) := by
  induction l with
  | nil => exact List.Pairwise.nil
  | cons a l ih =>
    have parts := List.pairwise_cons.mp ascending
    rw [List.insertionSort_cons]
    apply orderedInsert_ties trans total _ (ih parts.2)
    intro b mem
    exact parts.1 b ((List.mem_insertionSort _).mp mem)

end Ties

section Spec
variable {cmp}

theorem zipIdx_ascending (v : List α) (k : Nat) :
    (v.zipIdx k).Pairwise fun e f => e.2 < f.2 := by
  induction v generalizing k with
  | nil => exact List.Pairwise.nil
  | cons a v ih =>
    rw [List.zipIdx_cons, List.pairwise_cons]
    refine ⟨fun e mem => ?_, ih (k + 1)⟩
    have le := List.le_snd_of_mem_zipIdx mem
    omega

theorem sortOrder_stable [TransCmp cmp] (v : List α) : StableOrder cmp v (sortOrder cmp v) where
  perm := List.perm_insertionSort _ _
  ordered := by
    have ties := insertionSort_ties (r := fun e f : α × Nat => cmp e.1 f.1 ≠ .gt)
      (fun _ _ _ => le_trans) (fun _ _ => le_total _ _) (zipIdx_ascending v 0)
    apply ties.imp
    intro e f h
    refine ⟨h.1, fun same => h.2 ?_⟩
    have swap : cmp f.1 e.1 = (cmp e.1 f.1).swap := OrientedCmp.eq_swap
    rw [swap, same]
    decide

theorem zipIdx_stable [TransCmp cmp] {v : List α} (sorted : v.Pairwise fun a b => cmp a b ≠ .gt) :
    StableOrder cmp v v.zipIdx where
  perm := List.Perm.refl _
  ordered := by
    have firsts : v.zipIdx.Pairwise fun e f => cmp e.1 f.1 ≠ .gt := by
      have mapped := List.zipIdx_map_fst 0 v ▸ sorted
      rwa [List.pairwise_map] at mapped
    exact firsts.and (zipIdx_ascending v 0) |>.imp fun h => ⟨h.1, fun _ => h.2⟩

theorem displaced_zipIdx (v : List α) : displaced v.zipIdx = 0 := by
  unfold displaced
  rw [List.length_eq_zero_iff, List.filter_eq_nil_iff]
  intro e mem
  have inner := List.mem_zipIdx_iff_getElem?.mp mem
  rw [List.getElem?_zipIdx, Nat.zero_add] at inner
  obtain ⟨a, _, eq⟩ := Option.map_eq_some_iff.mp inner
  rw [← eq]
  simp

theorem sortCounting_spec [TransCmp cmp] (v : List α) : ∃ order, StableOrder cmp v order ∧
    (sortCounting cmp v).1 = order.map Prod.fst ∧ (sortCounting cmp v).2 = displaced order := by
  unfold sortCounting
  split
  · rename_i sorted
    exact ⟨_, zipIdx_stable ((isSorted_iff v).mp sorted), (List.zipIdx_map_fst 0 v).symm,
      (displaced_zipIdx v).symm⟩
  · exact ⟨_, sortOrder_stable v, rfl, rfl⟩

theorem sortCounting_perm [TransCmp cmp] (v : List α) : (sortCounting cmp v).1.Perm v := by
  obtain ⟨order, stable, eq, _⟩ := @sortCounting_spec α cmp _ v
  have firsts := stable.perm.map Prod.fst
  rw [List.zipIdx_map_fst] at firsts
  rwa [eq]

theorem sortCounting_sorted [TransCmp cmp] (v : List α) :
    (sortCounting cmp v).1.Pairwise fun a b => cmp a b ≠ .gt := by
  obtain ⟨order, stable, eq, _⟩ := @sortCounting_spec α cmp _ v
  rw [eq, List.pairwise_map]
  exact stable.ordered.imp fun h => h.1

theorem sortCounting_congr [TransCmp cmp] [LawfulEqCmp cmp] {v v' : List α} (same : v.Perm v') :
    (sortCounting cmp v).1 = (sortCounting cmp v').1 :=
  List.Perm.eq_of_pairwise (fun _ _ _ _ => le_antisymm) (sortCounting_sorted v)
    (sortCounting_sorted v') ((sortCounting_perm v).trans (same.trans (sortCounting_perm v').symm))

theorem sortCounting_again [TransCmp cmp] (v : List α) :
    sortCounting cmp (sortCounting cmp v).1 = ((sortCounting cmp v).1, 0) := by
  have sorted := (isSorted_iff _).mpr (@sortCounting_sorted _ cmp _ v)
  generalize (sortCounting cmp v).1 = out at sorted
  rw [sortCounting, if_pos sorted]

section Count
variable [DecidableEq α]

theorem changed_from {v : List α} (once : v.Nodup) {order : List (α × Nat)} {k : Nat}
    (own : ∀ e ∈ order, v[e.2]? = some e.1) (length : order.length + k = v.length) :
    ((order.zipIdx k).filter fun e => e.2 ≠ e.1.2).length =
      (((v.drop k).zip (order.map Prod.fst)).filter fun p => p.1 ≠ p.2).length := by
  induction order generalizing k with
  | nil => simp
  | cons e order ih =>
    rw [List.length_cons] at length
    have lt : k < v.length := by omega
    have rest := ih (k := k + 1) (fun f mem => own f (List.mem_cons_of_mem _ mem)) (by omega)
    have here : k = e.2 ↔ v[k] = e.1 := by
      have at' := own e List.mem_cons_self
      have inside := (List.getElem?_eq_some_iff.mp at').1
      constructor
      · intro eq
        subst eq
        rwa [List.getElem?_eq_getElem lt, Option.some_inj] at at'
      · intro eq
        rw [List.getElem?_eq_getElem inside, Option.some_inj] at at'
        exact (once.getElem_inj_iff).mp (eq.trans at'.symm)
    rw [List.zipIdx_cons, List.drop_eq_getElem_cons lt, List.map_cons, List.zip_cons_cons,
      List.filter_cons, List.filter_cons]
    by_cases same : k = e.2
    · rw [if_neg (by simpa using same), if_neg (by simpa using here.mp same)]
      exact rest
    · rw [if_pos (by simpa using same), if_pos (by simpa using mt here.mpr same),
        List.length_cons, List.length_cons, rest]

theorem displaced_eq_changed {v : List α} {order : List (α × Nat)} (perm : order.Perm v.zipIdx)
    (once : v.Nodup) : displaced order = changed v (order.map Prod.fst) := by
  have length : order.length = v.length := by
    rw [perm.length_eq, List.length_zipIdx]
  apply changed_from once (k := 0) _ length
  intro e mem
  exact List.mem_zipIdx_iff_getElem?.mp (perm.mem_iff.mp mem)

end Count

end Spec

end Glia.Kit.StableSort
