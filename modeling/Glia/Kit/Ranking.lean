import Glia.Kit.StableSort

/-! Sorting by a comparator that tells any two items apart, and dropping repeated neighbours: what
comes out depends on the items only, and commutes with a renaming the comparator does not see. -/
namespace Glia.Kit.Ranking

open Std (TransCmp OrientedCmp LawfulEqCmp)
open StableSort (le_trans le_total le_antisymm)

section Sorting
variable {α : Type*} (cmp : α → α → Ordering)

def sortBy (l : List α) : List α := l.insertionSort fun a b => cmp a b ≠ .gt

variable {cmp}

theorem sortBy_perm (l : List α) : (sortBy cmp l).Perm l := List.perm_insertionSort _ l

theorem mem_sortBy {l : List α} {a : α} : a ∈ sortBy cmp l ↔ a ∈ l := (sortBy_perm l).mem_iff

theorem sortBy_sorted [TransCmp cmp] (l : List α) :
    (sortBy cmp l).Pairwise fun a b => cmp a b ≠ .gt := by
  have trans : IsTrans α fun a b => cmp a b ≠ .gt := ⟨fun _ _ _ => le_trans⟩
  have total : Std.Total fun a b => cmp a b ≠ .gt := ⟨le_total⟩
  exact List.pairwise_insertionSort _ l

theorem sortBy_congr [TransCmp cmp] [LawfulEqCmp cmp] {l l' : List α} (same : l.Perm l') :
    sortBy cmp l = sortBy cmp l' :=
  List.Perm.eq_of_pairwise (fun _ _ _ _ => le_antisymm) (sortBy_sorted l) (sortBy_sorted l')
    ((sortBy_perm l).trans (same.trans (sortBy_perm l').symm))

theorem sortBy_map {β : Type*} {cmp' : β → β → Ordering} {f : α → β} {l : List α}
    (same : ∀ a ∈ l, ∀ b ∈ l, cmp' (f a) (f b) = cmp a b) :
    sortBy cmp' (l.map f) = (sortBy cmp l).map f := by
  refine (List.map_insertionSort (r := fun a b => cmp a b ≠ .gt)
    (s := fun a b => cmp' a b ≠ .gt) f l fun a left b right => ?_).symm
  rw [same a left b right]

end Sorting

section Dedup
variable {α : Type*} [DecidableEq α]

def dedupFrom (a : α) : List α → List α
  | [] => [a]
  | b :: l => if a = b then dedupFrom a l else a :: dedupFrom b l

/-- The first of each run of equal neighbours. -/
def dedup : List α → List α
  | [] => []
  | a :: l => dedupFrom a l

theorem mem_dedupFrom {a x : α} {l : List α} : x ∈ dedupFrom a l ↔ x = a ∨ x ∈ l := by
  induction l generalizing a with
  | nil => rw [dedupFrom, List.mem_singleton, or_iff_left List.not_mem_nil]
  | cons b l ih =>
    rw [dedupFrom]
    split
    · rename_i same
      rw [ih, List.mem_cons, same]
      tauto
    · rw [List.mem_cons, ih, List.mem_cons]

theorem mem_dedup {x : α} {l : List α} : x ∈ dedup l ↔ x ∈ l := by
  cases l with
  | nil => rfl
  | cons a l => rw [dedup, mem_dedupFrom, List.mem_cons]

theorem dedupFrom_head (a : α) (l : List α) : ∃ later, dedupFrom a l = a :: later := by
  induction l with
  | nil => exact ⟨[], rfl⟩
  | cons b l ih =>
    rw [dedupFrom]
    split
    · exact ih
    · exact ⟨_, rfl⟩

theorem dedupFrom_sorted {cmp : α → α → Ordering} [TransCmp cmp] [LawfulEqCmp cmp] {a : α}
    {l : List α} (sorted : (a :: l).Pairwise fun a b => cmp a b ≠ .gt) :
    (dedupFrom a l).Pairwise fun a b => cmp a b = .lt := by
  induction l generalizing a with
  | nil => exact List.pairwise_singleton _ _
  | cons b l ih =>
    obtain ⟨above, rest⟩ := List.pairwise_cons.mp sorted
    rw [dedupFrom]
    split
    · exact ih (List.pairwise_cons.mpr
        ⟨fun c mem => above c (List.mem_cons_of_mem b mem), (List.pairwise_cons.mp rest).2⟩)
    · rename_i apart
      refine List.pairwise_cons.mpr ⟨fun c mem => ?_, ih rest⟩
      have le : cmp a c ≠ .gt := by
        rcases mem_dedupFrom.mp mem with rfl | later
        · exact above _ List.mem_cons_self
        · exact above c (List.mem_cons_of_mem b later)
      have ne : a ≠ c := by
        intro same
        subst same
        have back : cmp b a ≠ .gt := by
          rcases mem_dedupFrom.mp mem with rfl | later
          · exact absurd rfl apart
          · exact (List.pairwise_cons.mp rest).1 a later
        exact apart (le_antisymm (above b List.mem_cons_self) back)
      cases h : cmp a c with
      | lt => rfl
      | eq => exact absurd (LawfulEqCmp.eq_of_compare h) ne
      | gt => exact absurd h le

theorem dedup_sorted {cmp : α → α → Ordering} [TransCmp cmp] [LawfulEqCmp cmp] {l : List α}
    (sorted : l.Pairwise fun a b => cmp a b ≠ .gt) :
    (dedup l).Pairwise fun a b => cmp a b = .lt := by
  cases l with
  | nil => exact List.Pairwise.nil
  | cons a l => exact dedupFrom_sorted sorted

theorem dedup_sortBy_congr {cmp : α → α → Ordering} [TransCmp cmp] [LawfulEqCmp cmp]
    {l l' : List α} (same : ∀ a, a ∈ l ↔ a ∈ l') : dedup (sortBy cmp l) = dedup (sortBy cmp l') := by
  have irrefl : ∀ a, cmp a a ≠ .lt := by
    intro a lt
    have self : cmp a a = .eq := Std.ReflCmp.compare_self
    rw [self] at lt
    cases lt
  have sorted := dedup_sorted (@sortBy_sorted α cmp _ l)
  have sorted' := dedup_sorted (@sortBy_sorted α cmp _ l')
  have once : ∀ {m : List α}, m.Pairwise (fun a b => cmp a b = .lt) → m.Nodup := by
    intro m h
    refine h.imp fun {a b} lt eq => ?_
    subst eq
    exact irrefl a lt
  have perm : (dedup (sortBy cmp l)).Perm (dedup (sortBy cmp l')) := by
    refine (List.perm_ext_iff_of_nodup (once sorted) (once sorted')).mpr fun a => ?_
    rw [mem_dedup, mem_dedup, mem_sortBy, mem_sortBy]
    exact same a
  refine List.Perm.eq_of_pairwise (fun a b _ _ lt lt' => ?_) sorted sorted' perm
  have le : cmp a b ≠ .gt := by
    rw [lt]
    decide
  have le' : cmp b a ≠ .gt := by
    rw [lt']
    decide
  exact le_antisymm le le'

theorem dedupFrom_map {β : Type*} [DecidableEq β] {f : α → β} (inj : Function.Injective f) (a : α)
    (l : List α) : dedupFrom (f a) (l.map f) = (dedupFrom a l).map f := by
  induction l generalizing a with
  | nil => rfl
  | cons b l ih =>
    rw [List.map_cons, dedupFrom, dedupFrom]
    by_cases same : a = b
    · rw [if_pos same, if_pos (congrArg f same), ih]
    · rw [if_neg same, if_neg fun eq => same (inj eq), ih, List.map_cons]

theorem dedup_map {β : Type*} [DecidableEq β] {f : α → β} (inj : Function.Injective f)
    (l : List α) : dedup (l.map f) = (dedup l).map f := by
  cases l with
  | nil => rfl
  | cons a l => exact dedupFrom_map inj a l

end Dedup

section Chunks
variable {α κ : Type*}

def chunkBy [DecidableEq κ] (key : α → κ) : List α → List (List α)
  | [] => []
  | a :: l =>
    match chunkBy key l with
    | (b :: run) :: runs => if key a = key b then (a :: b :: run) :: runs else [a] :: (b :: run) :: runs
    | runs => [a] :: runs

variable [LinearOrder κ] {key : α → κ}

theorem dedup_keys_sorted {l : List α} (sorted : l.Pairwise fun a b => key a ≤ key b) :
    (dedup (l.map key)).Pairwise (· < ·) := by
  have lawful : LawfulEqCmp (compare : κ → κ → Ordering) := ⟨fun h => compare_eq_iff_eq.mp h⟩
  have keys : (l.map key).Pairwise fun a b => compare a b ≠ .gt := by
    rw [List.pairwise_map]
    exact sorted.imp fun le => compare_le_iff_le.mpr le
  exact (dedup_sorted keys).imp fun lt => compare_lt_iff_lt.mp lt

theorem chunkBy_sorted {l : List α} (sorted : l.Pairwise fun a b => key a ≤ key b) :
    chunkBy key l = (dedup (l.map key)).map fun k => l.filter fun a => key a = k := by
  induction l with
  | nil => rfl
  | cons a l ih =>
    obtain ⟨above, rest⟩ := List.pairwise_cons.mp sorted
    cases l with
    | nil => simp [chunkBy, dedup, dedupFrom]
    | cons b l =>
      have keys := dedup_keys_sorted rest
      rw [List.map_cons, dedup] at keys
      obtain ⟨later, split⟩ := dedupFrom_head (key b) (l.map key)
      rw [split] at keys
      have past : ∀ k ∈ later, key b < k := (List.pairwise_cons.mp keys).1
      have tail : chunkBy key (b :: l) = (b :: l.filter fun c => key c = key b) ::
          later.map fun k => (b :: l).filter fun c => key c = k := by
        rw [ih rest, List.map_cons, dedup, split, List.map_cons, List.filter_cons_of_pos (by simp)]
      -- the keys after the first are above every key met
      have skip : ∀ k ∈ later, key a ≠ k := fun k mem =>
        ne_of_lt (lt_of_le_of_lt (above b List.mem_cons_self) (past k mem))
      have others : (later.map fun k => (a :: b :: l).filter fun c => key c = k) =
          later.map fun k => (b :: l).filter fun c => key c = k :=
        List.map_congr_left fun k mem =>
          List.filter_cons_of_neg (by simpa using skip k mem)
      rw [chunkBy, tail, List.map_cons, List.map_cons, dedup, dedupFrom]
      dsimp only
      by_cases same : key a = key b
      · rw [if_pos same, if_pos same, same, split, List.map_cons, others,
          List.filter_cons_of_pos (by simpa using same), List.filter_cons_of_pos (by simp)]
      · have alone : ((b :: l).filter fun c => key c = key a) = [] := by
          refine List.filter_eq_nil_iff.mpr fun c mem eq => ?_
          have le : key b ≤ key c := by
            rcases List.mem_cons.mp mem with rfl | inside
            · exact le_rfl
            · exact (List.pairwise_cons.mp rest).1 c inside
          exact same (le_antisymm (above b List.mem_cons_self) (le.trans_eq (of_decide_eq_true eq)))
        rw [if_neg same, if_neg same, split, List.map_cons, List.map_cons, others,
          List.filter_cons_of_pos (by simp), alone,
          List.filter_cons_of_neg (by simpa using same), List.filter_cons_of_pos (by simp)]

end Chunks

end Glia.Kit.Ranking
