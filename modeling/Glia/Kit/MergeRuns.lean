import Mathlib.Algebra.BigOperators.Group.List.Basic
import Mathlib.Algebra.Order.BigOperators.Group.List
import Mathlib.Algebra.Order.Ring.Nat
import Mathlib.Data.List.Sort

/-! Adding up the runs of one key in a list sorted by key. -/
namespace Glia.Kit

section MergeRuns
variable {κ : Type*} [DecidableEq κ] (add : Nat → Nat → Nat)

/-- One more item: added to the last one kept when they share their key. -/
def mergeLast (merged : List (κ × Nat)) (e : κ × Nat) : List (κ × Nat) :=
  match merged.getLast? with
  | some last =>
    if last.1 = e.1 then merged.dropLast ++ [(last.1, add last.2 e.2)] else merged ++ [e]
  | none => [e]

def mergeRuns (l : List (κ × Nat)) : List (κ × Nat) := l.foldl (mergeLast add) []

def runsFrom (last : κ × Nat) : List (κ × Nat) → List (κ × Nat)
  | [] => [last]
  | e :: l => if last.1 = e.1 then runsFrom (last.1, add last.2 e.2) l else last :: runsFrom e l

theorem foldl_mergeLast (l done : List (κ × Nat)) (last : κ × Nat) :
    l.foldl (mergeLast add) (done ++ [last]) = done ++ runsFrom add last l := by
  induction l generalizing done last with
  | nil => rfl
  | cons e l ih =>
    rw [List.foldl_cons, mergeLast, List.getLast?_concat, runsFrom]
    dsimp only
    split
    · rw [List.dropLast_concat, ih]
    · rw [ih, List.append_assoc, List.singleton_append]

theorem mergeRuns_cons (e : κ × Nat) (l : List (κ × Nat)) :
    mergeRuns add (e :: l) = runsFrom add e l := by
  have start := foldl_mergeLast add l [] e
  exact start

/-- The weight of a key, over all its items. -/
def totalAt (k : κ) (l : List (κ × Nat)) : Nat := (l.map fun e => if e.1 = k then e.2 else 0).sum

@[simp] theorem totalAt_nil (k : κ) : totalAt k ([] : List (κ × Nat)) = 0 := rfl

theorem totalAt_cons (k : κ) (e : κ × Nat) (l : List (κ × Nat)) :
    totalAt k (e :: l) = (if e.1 = k then e.2 else 0) + totalAt k l := rfl

theorem totalAt_append (k : κ) (l l' : List (κ × Nat)) :
    totalAt k (l ++ l') = totalAt k l + totalAt k l' := by
  rw [totalAt, List.map_append, List.sum_append]
  rfl

theorem totalAt_perm {k : κ} {l l' : List (κ × Nat)} (perm : l.Perm l') :
    totalAt k l = totalAt k l' := (perm.map _).sum_eq

theorem totalAt_flatMap {α : Type*} (k : κ) (f : α → List (κ × Nat)) (l : List α) :
    totalAt k (l.flatMap f) = (l.map fun a => totalAt k (f a)).sum := by
  induction l with
  | nil => rfl
  | cons a l ih => rw [List.flatMap_cons, totalAt_append, ih, List.map_cons, List.sum_cons]

theorem totalAt_eq_zero {k : κ} {l : List (κ × Nat)} (none : ∀ e ∈ l, e.1 ≠ k) :
    totalAt k l = 0 := by
  rw [totalAt, List.sum_eq_zero]
  intro w mem
  obtain ⟨e, inside, rfl⟩ := List.mem_map.mp mem
  rw [if_neg (none e inside)]

end MergeRuns

section Sorted
variable {κ : Type*} [PartialOrder κ] [DecidableEq κ] {add : Nat → Nat → Nat}

theorem runsFrom_ge {last : κ × Nat} {l : List (κ × Nat)}
    (sorted : (last :: l).Pairwise fun e f => e.1 ≤ f.1) :
    ∀ e ∈ runsFrom add last l, last.1 ≤ e.1 := by
  induction l generalizing last with
  | nil =>
    intro e mem
    rw [runsFrom, List.mem_singleton] at mem
    rw [mem]
  | cons f l ih =>
    obtain ⟨above, rest⟩ := List.pairwise_cons.mp sorted
    intro e mem
    rw [runsFrom] at mem
    split at mem
    · rename_i same
      have start : ((last.1, add last.2 f.2) :: l).Pairwise fun e f => e.1 ≤ f.1 :=
        List.pairwise_cons.mpr ⟨fun a ha => above a (List.mem_cons_of_mem f ha),
          (List.pairwise_cons.mp rest).2⟩
      exact ih start e mem
    · obtain rfl | mem := List.mem_cons.mp mem
      · exact le_rfl
      · exact (above f List.mem_cons_self).trans (ih rest e mem)

theorem runsFrom_ascending {last : κ × Nat} {l : List (κ × Nat)}
    (sorted : (last :: l).Pairwise fun e f => e.1 ≤ f.1) :
    (runsFrom add last l).Pairwise fun e f => e.1 < f.1 := by
  induction l generalizing last with
  | nil => exact List.pairwise_singleton _ _
  | cons f l ih =>
    obtain ⟨above, rest⟩ := List.pairwise_cons.mp sorted
    rw [runsFrom]
    split
    · exact ih (List.pairwise_cons.mpr ⟨fun a ha => above a (List.mem_cons_of_mem f ha),
        (List.pairwise_cons.mp rest).2⟩)
    · rename_i apart
      refine List.pairwise_cons.mpr ⟨?_, ih rest⟩
      intro e mem
      exact (lt_of_le_of_ne (above f List.mem_cons_self) apart).trans_le (runsFrom_ge rest e mem)

theorem mergeRuns_ascending {l : List (κ × Nat)} (sorted : l.Pairwise fun e f => e.1 ≤ f.1) :
    (mergeRuns add l).Pairwise fun e f => e.1 < f.1 := by
  cases l with
  | nil => exact List.Pairwise.nil
  | cons e l =>
    rw [mergeRuns_cons]
    exact runsFrom_ascending sorted

variable [BEq κ] [LawfulBEq κ] {bound : Nat} (exact' : ∀ a b, a + b ≤ bound → add a b = a + b)
include exact'

theorem lookup_runsFrom {last : κ × Nat} {l : List (κ × Nat)} (k : κ)
    (sorted : (last :: l).Pairwise fun e f => e.1 ≤ f.1)
    (fits : totalAt k (last :: l) ≤ bound) :
    ((runsFrom add last l).lookup k).getD 0 = totalAt k (last :: l) := by
  induction l generalizing last with
  | nil =>
    rw [runsFrom, List.lookup_cons, totalAt_cons]
    by_cases same : k = last.1
    · subst same
      simp
    · rw [beq_eq_false_iff_ne.mpr same, if_neg (Ne.symm same)]
      rfl
  | cons f l ih =>
    obtain ⟨above, rest⟩ := List.pairwise_cons.mp sorted
    rw [runsFrom]
    split
    · rename_i same
      have start : ((last.1, add last.2 f.2) :: l).Pairwise fun e f => e.1 ≤ f.1 :=
        List.pairwise_cons.mpr ⟨fun a ha => above a (List.mem_cons_of_mem f ha),
          (List.pairwise_cons.mp rest).2⟩
      have joined : totalAt k ((last.1, add last.2 f.2) :: l) = totalAt k (last :: f :: l) := by
        rw [totalAt_cons, totalAt_cons, totalAt_cons]
        by_cases here : last.1 = k
        · rw [totalAt_cons, totalAt_cons, if_pos here, if_pos (same ▸ here)] at fits
          rw [if_pos here, if_pos here, if_pos (same ▸ here), exact' _ _ (by omega)]
          omega
        · rw [if_neg here, if_neg here, if_neg (same ▸ here)]
          omega
      rw [ih start (joined ▸ fits), joined]
    · rename_i apart
      rw [List.lookup_cons, totalAt_cons]
      by_cases here : k = last.1
      · subst here
        have past : totalAt last.1 (f :: l) = 0 := by
          apply totalAt_eq_zero
          intro e mem same
          obtain rfl | later := List.mem_cons.mp mem
          · exact apart same.symm
          · have le := (List.pairwise_cons.mp rest).1 e later
            exact apart (le_antisymm (above f List.mem_cons_self) (same ▸ le))
        simp [past]
      · rw [beq_eq_false_iff_ne.mpr here, if_neg (Ne.symm here)]
        rw [totalAt_cons, if_neg (Ne.symm here)] at fits
        rw [ih rest (by omega), Nat.zero_add]

theorem lookup_mergeRuns {l : List (κ × Nat)} (k : κ)
    (sorted : l.Pairwise fun e f => e.1 ≤ f.1) (fits : totalAt k l ≤ bound) :
    ((mergeRuns add l).lookup k).getD 0 = totalAt k l := by
  cases l with
  | nil => rfl
  | cons e l =>
    rw [mergeRuns_cons]
    exact lookup_runsFrom exact' k sorted fits

end Sorted

section Saturating
variable {κ : Type*} [PartialOrder κ] [DecidableEq κ] [BEq κ] [LawfulBEq κ] {bound : Nat}

def capAdd (bound a b : Nat) : Nat := min (a + b) bound

theorem lookup_runsFrom_cap {last : κ × Nat} {l : List (κ × Nat)} (k : κ)
    (sorted : (last :: l).Pairwise fun e f => e.1 ≤ f.1)
    (small : ∀ e ∈ last :: l, e.2 ≤ bound) :
    (runsFrom (capAdd bound) last l).lookup k =
      if k ∈ (last :: l).map Prod.fst then some (min (totalAt k (last :: l)) bound) else none := by
  induction l generalizing last with
  | nil =>
    have fits := small last List.mem_cons_self
    rw [runsFrom, List.lookup_cons, totalAt_cons, List.map_singleton]
    by_cases same : k = last.1
    · rw [if_pos (List.mem_singleton.mpr same), if_pos same.symm, same, beq_self_eq_true,
        totalAt_nil, Nat.add_zero, Nat.min_eq_left fits]
    · rw [if_neg (fun mem => same (List.mem_singleton.mp mem)), beq_eq_false_iff_ne.mpr same]
      rfl
  | cons f l ih =>
    obtain ⟨above, rest⟩ := List.pairwise_cons.mp sorted
    rw [runsFrom]
    split
    · rename_i same
      have start : ((last.1, capAdd bound last.2 f.2) :: l).Pairwise fun e f => e.1 ≤ f.1 :=
        List.pairwise_cons.mpr ⟨fun a ha => above a (List.mem_cons_of_mem f ha),
          (List.pairwise_cons.mp rest).2⟩
      have fits : ∀ e ∈ (last.1, capAdd bound last.2 f.2) :: l, e.2 ≤ bound := by
        intro e mem
        rcases List.mem_cons.mp mem with eq | later
        · rw [eq]
          exact Nat.min_le_right _ _
        · exact small e (List.mem_cons_of_mem _ (List.mem_cons_of_mem _ later))
      have keys : k ∈ ((last.1, capAdd bound last.2 f.2) :: l).map Prod.fst ↔
          k ∈ (last :: f :: l).map Prod.fst := by
        simp only [List.map_cons, List.mem_cons, ← same]
        tauto
      have total : min (totalAt k ((last.1, capAdd bound last.2 f.2) :: l)) bound =
          min (totalAt k (last :: f :: l)) bound := by
        rw [totalAt_cons, totalAt_cons, totalAt_cons]
        by_cases here : last.1 = k
        · rw [if_pos here, if_pos here, if_pos (same ▸ here), capAdd]
          omega
        · rw [if_neg here, if_neg here, if_neg (same ▸ here), Nat.zero_add, Nat.zero_add]
      rw [ih start fits, total]
      exact if_congr keys rfl rfl
    · rename_i apart
      have fits : ∀ e ∈ f :: l, e.2 ≤ bound := fun e mem => small e (List.mem_cons_of_mem _ mem)
      rw [List.lookup_cons]
      by_cases here : k = last.1
      · have past : totalAt k (f :: l) = 0 := by
          apply totalAt_eq_zero
          intro e mem same
          obtain rfl | later := List.mem_cons.mp mem
          · exact apart (same.trans here).symm
          · have le := (List.pairwise_cons.mp rest).1 e later
            exact apart (le_antisymm (above f List.mem_cons_self) (same.trans here ▸ le))
        have own : k ∈ (last :: f :: l).map Prod.fst := by
          rw [here]
          exact List.mem_map_of_mem List.mem_cons_self
        rw [if_pos own, totalAt_cons, past, if_pos here.symm, here, beq_self_eq_true,
          Nat.add_zero, Nat.min_eq_left (small last List.mem_cons_self)]
      · rw [beq_eq_false_iff_ne.mpr here, ih rest fits, totalAt_cons k last, if_neg (Ne.symm here),
          Nat.zero_add]
        refine if_congr ?_ rfl rfl
        rw [List.map_cons, List.map_cons, List.map_cons, List.mem_cons (b := last.1)]
        exact (or_iff_right here).symm

theorem lookup_mergeRuns_cap {l : List (κ × Nat)} (k : κ)
    (sorted : l.Pairwise fun e f => e.1 ≤ f.1) (small : ∀ e ∈ l, e.2 ≤ bound) :
    (mergeRuns (capAdd bound) l).lookup k =
      if k ∈ l.map Prod.fst then some (min (totalAt k l) bound) else none := by
  cases l with
  | nil => rfl
  | cons e l =>
    rw [mergeRuns_cons]
    exact lookup_runsFrom_cap k sorted small

end Saturating

section Keys

theorem lookup_of_mem {κ : Type*} [BEq κ] [LawfulBEq κ] {l : List (κ × Nat)}
    (once : (l.map Prod.fst).Nodup) {e : κ × Nat} (mem : e ∈ l) : l.lookup e.1 = some e.2 := by
  induction l with
  | nil => cases mem
  | cons f l ih =>
    rw [List.map_cons, List.nodup_cons] at once
    rw [List.lookup_cons]
    obtain rfl | mem := List.mem_cons.mp mem
    · rw [beq_self_eq_true]
    · have apart : e.1 ≠ f.1 := fun same => once.1 (same ▸ List.mem_map_of_mem mem)
      rw [beq_eq_false_iff_ne.mpr apart]
      exact ih once.2 mem

theorem eq_of_lookup {κ : Type*} [PartialOrder κ] [BEq κ] [LawfulBEq κ] {l l' : List (κ × Nat)}
    (sorted : l.Pairwise fun e f => e.1 < f.1) (sorted' : l'.Pairwise fun e f => e.1 < f.1)
    (same : ∀ k, l.lookup k = l'.lookup k) : l = l' := by
  have once : ∀ {m : List (κ × Nat)}, (m.Pairwise fun e f => e.1 < f.1) →
      (m.map Prod.fst).Nodup := fun asc => List.pairwise_map.mpr (asc.imp ne_of_lt)
  have mem_iff : ∀ {m : List (κ × Nat)}, (m.Pairwise fun e f => e.1 < f.1) → ∀ e,
      e ∈ m ↔ m.lookup e.1 = some e.2 := by
    intro m asc e
    constructor
    · exact lookup_of_mem (once asc)
    · intro held
      obtain ⟨front, back, eq, _⟩ := List.lookup_eq_some_iff.mp held
      rw [eq]
      exact List.mem_append_right _ List.mem_cons_self
  have perm : l.Perm l' := by
    refine (List.perm_ext_iff_of_nodup ?_ ?_).mpr fun e => ?_
    · exact sorted.imp fun lt eq => ne_of_lt lt (congrArg Prod.fst eq)
    · exact sorted'.imp fun lt eq => ne_of_lt lt (congrArg Prod.fst eq)
    · rw [mem_iff sorted, mem_iff sorted', same]
  exact List.Perm.eq_of_pairwise (fun _ _ _ _ lt lt' => absurd lt' (lt_asymm lt)) sorted sorted' perm

end Keys

section Members
variable {κ : Type*} [DecidableEq κ] {add : Nat → Nat → Nat}

theorem runsFrom_forall {P : κ × Nat → Prop}
    (join : ∀ (k : κ) a b, P (k, a) → P (k, b) → P (k, add a b)) {last : κ × Nat}
    {l : List (κ × Nat)} (first : P last) (rest : ∀ e ∈ l, P e) :
    ∀ e ∈ runsFrom add last l, P e := by
  induction l generalizing last with
  | nil =>
    intro e mem
    rw [runsFrom, List.mem_singleton] at mem
    exact mem ▸ first
  | cons f l ih =>
    have later : ∀ e ∈ l, P e := fun e mem => rest e (List.mem_cons_of_mem f mem)
    intro e mem
    rw [runsFrom] at mem
    split at mem
    · rename_i same
      refine ih (join last.1 _ _ first ?_) later e mem
      rw [same]
      exact rest f List.mem_cons_self
    · obtain rfl | mem := List.mem_cons.mp mem
      · exact first
      · exact ih (rest f List.mem_cons_self) later e mem

theorem mergeRuns_forall {P : κ × Nat → Prop}
    (join : ∀ (k : κ) a b, P (k, a) → P (k, b) → P (k, add a b)) {l : List (κ × Nat)}
    (all : ∀ e ∈ l, P e) : ∀ e ∈ mergeRuns add l, P e := by
  cases l with
  | nil => exact fun e mem => absurd mem List.not_mem_nil
  | cons f l =>
    rw [mergeRuns_cons]
    exact runsFrom_forall join (all f List.mem_cons_self)
      fun e mem => all e (List.mem_cons_of_mem f mem)

theorem runsFrom_length_le (last : κ × Nat) (l : List (κ × Nat)) :
    (runsFrom add last l).length ≤ l.length + 1 := by
  induction l generalizing last with
  | nil => exact le_rfl
  | cons f l ih =>
    rw [runsFrom]
    split
    · exact (ih _).trans (Nat.le_succ _)
    · exact Nat.succ_le_succ (ih f)

theorem mergeRuns_length_le (l : List (κ × Nat)) : (mergeRuns add l).length ≤ l.length := by
  cases l with
  | nil => exact le_rfl
  | cons f l =>
    rw [mergeRuns_cons]
    exact runsFrom_length_le f l

end Members

end Glia.Kit
