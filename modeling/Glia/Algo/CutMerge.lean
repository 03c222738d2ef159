import Glia.Algo.CutPhase

/-! Merging two super-vertices leaves sorted rows that hold the summed weights. -/
namespace Glia.Algo

open Kit.MaxAdjacency

namespace WeightRow

variable {row : WeightRow}

theorem Sorted.cons {e : Nat × Nat} (h : row.Sorted) (some : 0 < e.2)
    (below : ∀ f ∈ row, e.1 < f.1) : Sorted (e :: row) where
  ascending := List.pairwise_cons.mpr ⟨below, h.ascending⟩
  positive := by
    intro f mem
    rcases List.mem_cons.mp mem with rfl | mem
    · exact some
    · exact h.positive f mem

theorem Sorted.below {e : Nat × Nat} (h : Sorted (e :: row)) : ∀ f ∈ row, e.1 < f.1 :=
  (List.pairwise_cons.mp h.ascending).1

theorem removeLabel_sub (gone : Nat) : ∀ e ∈ removeLabel gone row, e ∈ row := by
  induction row with
  | nil => simp [removeLabel]
  | cons f row ih =>
    intro e mem
    unfold removeLabel at mem
    split at mem
    · exact List.mem_cons_of_mem _ mem
    split at mem
    · exact mem
    rcases List.mem_cons.mp mem with rfl | mem
    · exact List.mem_cons_self
    · exact List.mem_cons_of_mem _ (ih e mem)

theorem sorted_removeLabel (h : row.Sorted) (gone : Nat) : (removeLabel gone row).Sorted := by
  induction row with
  | nil => exact .nil
  | cons f row ih =>
    unfold removeLabel
    split
    · exact h.tail
    split
    · exact h
    · exact (ih h.tail).cons (h.positive f List.mem_cons_self) fun e mem =>
        h.below e (removeLabel_sub gone e mem)

theorem weightOf_removeLabel (h : row.Sorted) (gone v : Nat) :
    (removeLabel gone row).weightOf v = if v = gone then 0 else row.weightOf v := by
  induction row with
  | nil => simp [removeLabel]
  | cons f row ih =>
    unfold removeLabel
    split
    · rename_i same
      rw [weightOf_cons]
      by_cases here : v = gone
      · rw [if_pos here, h.weightOf_lt (by omega)]
      · rw [if_neg here, if_neg (by omega)]
    split
    · rename_i ne below
      by_cases here : v = gone
      · rw [if_pos here, weightOf_cons, if_neg (by omega)]
        exact h.weightOf_lt (by omega)
      · rw [if_neg here]
    · rename_i ne notBelow
      rw [weightOf_cons, weightOf_cons, ih h.tail]
      by_cases here : v = gone
      · rw [if_pos here, if_pos here, if_neg (by omega)]
      · rw [if_neg here, if_neg here]

theorem addWeight_labels (keep w : Nat) :
    ∀ e ∈ addWeight keep w row, e.1 = keep ∨ ∃ f ∈ row, f.1 = e.1 := by
  induction row with
  | nil =>
    intro e mem
    rw [addWeight, List.mem_singleton] at mem
    exact .inl (congrArg Prod.fst mem)
  | cons f row ih =>
    intro e mem
    unfold addWeight at mem
    split at mem
    · rename_i same
      rcases List.mem_cons.mp mem with eq | mem
      · exact .inl ((congrArg Prod.fst eq).trans same)
      · exact .inr ⟨e, List.mem_cons_of_mem _ mem, rfl⟩
    split at mem
    · rcases List.mem_cons.mp mem with eq | mem
      · exact .inl (congrArg Prod.fst eq)
      · exact .inr ⟨e, mem, rfl⟩
    · rcases List.mem_cons.mp mem with eq | mem
      · exact .inr ⟨f, List.mem_cons_self, congrArg Prod.fst eq.symm⟩
      · rcases ih e mem with same | ⟨g, there, same⟩
        · exact .inl same
        · exact .inr ⟨g, List.mem_cons_of_mem _ there, same⟩

theorem sorted_addWeight (h : row.Sorted) {keep w : Nat} (some : 0 < w) :
    (addWeight keep w row).Sorted := by
  induction row with
  | nil => exact .cons .nil some (by simp)
  | cons f row ih =>
    have pos := h.positive f List.mem_cons_self
    unfold addWeight
    split
    · exact h.tail.cons (lt_min (by omega) (by decide)) h.below
    split
    · rename_i below
      refine h.cons some fun e mem => ?_
      rcases List.mem_cons.mp mem with rfl | mem
      · exact below
      · exact below.trans (h.below e mem)
    · rename_i ne notBelow
      refine (ih h.tail).cons pos fun e mem => ?_
      rcases addWeight_labels keep w e mem with same | ⟨g, there, same⟩
      · omega
      · rw [← same]
        exact h.below g there

theorem weightOf_addWeight (h : row.Sorted) {keep w : Nat}
    (fits : row.weightOf keep + w ≤ u64Max) (v : Nat) :
    (addWeight keep w row).weightOf v =
      if v = keep then row.weightOf keep + w else row.weightOf v := by
  induction row with
  | nil =>
    rw [addWeight, weightOf_cons]
    simp
  | cons f row ih =>
    unfold addWeight
    split
    · rename_i same
      rw [weightOf_cons, if_pos same.symm] at fits
      rw [weightOf_cons, weightOf_cons, weightOf_cons, same, if_pos rfl, satAdd_eq fits]
      by_cases here : v = keep
      · rw [if_pos here, if_pos here]
      · rw [if_neg here, if_neg here, if_neg here]
    split
    · rename_i ne below
      have none : weightOf (f :: row) keep = 0 := by
        rw [weightOf_cons, if_neg (by omega)]
        exact h.weightOf_lt (by omega)
      rw [weightOf_cons, none, Nat.zero_add]
    · rename_i ne notBelow
      rw [weightOf_cons, if_neg (by omega)] at fits
      rw [weightOf_cons, ih h.tail fits, weightOf_cons, weightOf_cons]
      by_cases here : v = keep
      · rw [if_pos here, if_pos here, if_neg (by omega), if_neg (by omega)]
      · rw [if_neg here, if_neg here]

theorem weightOf_filter (p : Nat → Bool) (v : Nat) :
    weightOf (row.filter fun e => p e.1) v = if p v then row.weightOf v else 0 := by
  induction row with
  | nil => simp
  | cons f row ih =>
    cases holds : p f.1 with
    | true =>
      rw [List.filter_cons_of_pos (p := fun f : Nat × Nat => p f.1) holds, weightOf_cons,
        weightOf_cons, ih]
      by_cases here : v = f.1
      · rw [if_pos here, if_pos here, here, if_pos holds]
      · rw [if_neg here, if_neg here]
    | false =>
      rw [List.filter_cons_of_neg (p := fun f : Nat × Nat => p f.1) (by simp [holds]),
        weightOf_cons, ih]
      by_cases here : v = f.1
      · rw [here, if_neg (by simp [holds]), if_neg (by simp [holds])]
      · rw [if_neg here]

theorem Sorted.filter (h : row.Sorted) (p : Nat × Nat → Bool) : Sorted (row.filter p) where
  ascending := h.ascending.sublist List.filter_sublist
  positive := fun e mem => h.positive e (List.mem_filter.mp mem).1

theorem weightOf_put (p : Nat → Bool) (e : Nat × Nat) (v : Nat) :
    weightOf (([e].filter fun f => p f.1) ++ row) v =
      if v = e.1 ∧ p v then e.2 else row.weightOf v := by
  cases holds : p e.1 with
  | true =>
    rw [List.filter_cons_of_pos (p := fun f : Nat × Nat => p f.1) holds, List.filter_nil,
      List.singleton_append, weightOf_cons]
    by_cases here : v = e.1
    · rw [if_pos here, if_pos ⟨here, here ▸ holds⟩]
    · rw [if_neg here, if_neg fun both => here both.1]
  | false =>
    rw [List.filter_cons_of_neg (p := fun f : Nat × Nat => p f.1) (by simp [holds]),
      List.filter_nil, List.nil_append, if_neg]
    rintro ⟨here, kept⟩
    rw [here, holds] at kept
    cases kept

theorem Sorted.put {e : Nat × Nat} (h : row.Sorted) (p : Nat × Nat → Bool) (some : 0 < e.2)
    (below : ∀ f ∈ row, e.1 < f.1) : Sorted ([e].filter p ++ row) := by
  cases holds : p e with
  | true =>
    rw [List.filter_cons_of_pos holds]
    exact h.cons some below
  | false =>
    rw [List.filter_cons_of_neg (by simp [holds])]
    exact h

def unmerged (x y v : Nat) : Bool := v ≠ x ∧ v ≠ y

theorem mergeRows_labels (x y : Nat) (a b : WeightRow) :
    ∀ e ∈ mergeRows x y a b, (∃ f ∈ a, f.1 = e.1) ∨ ∃ f ∈ b, f.1 = e.1 := by
  fun_induction mergeRows x y a b with
  | case1 b => exact fun e mem => .inr ⟨e, (List.mem_filter.mp mem).1, rfl⟩
  | case2 a => exact fun e mem => .inl ⟨e, (List.mem_filter.mp mem).1, rfl⟩
  | case3 p a q b same ih =>
    intro e mem
    rcases List.mem_append.mp mem with here | later
    · have eq := List.mem_singleton.mp (List.mem_filter.mp here).1
      exact .inl ⟨p, List.mem_cons_self, (congrArg Prod.fst eq).symm⟩
    · rcases ih e later with ⟨f, mem, eq⟩ | ⟨f, mem, eq⟩
      · exact .inl ⟨f, List.mem_cons_of_mem _ mem, eq⟩
      · exact .inr ⟨f, List.mem_cons_of_mem _ mem, eq⟩
  | case4 p a q b ne below ih =>
    intro e mem
    rcases List.mem_append.mp mem with here | later
    · have eq := List.mem_singleton.mp (List.mem_filter.mp here).1
      exact .inl ⟨p, List.mem_cons_self, (congrArg Prod.fst eq).symm⟩
    · rcases ih e later with ⟨f, mem, eq⟩ | right
      · exact .inl ⟨f, List.mem_cons_of_mem _ mem, eq⟩
      · exact .inr right
  | case5 p a q b ne notBelow ih =>
    intro e mem
    rcases List.mem_append.mp mem with here | later
    · have eq := List.mem_singleton.mp (List.mem_filter.mp here).1
      exact .inr ⟨q, List.mem_cons_self, (congrArg Prod.fst eq).symm⟩
    · rcases ih e later with left | ⟨f, mem, eq⟩
      · exact .inl left
      · exact .inr ⟨f, List.mem_cons_of_mem _ mem, eq⟩

theorem below_mergeRows {x y v : Nat} {a b : WeightRow} (left : ∀ f ∈ a, v < f.1)
    (right : ∀ f ∈ b, v < f.1) : ∀ e ∈ mergeRows x y a b, v < e.1 := by
  intro e mem
  rcases mergeRows_labels x y a b e mem with ⟨f, there, eq⟩ | ⟨f, there, eq⟩
  · exact eq ▸ left f there
  · exact eq ▸ right f there

theorem sorted_mergeRows (x y : Nat) {a b : WeightRow} (ha : a.Sorted) (hb : b.Sorted) :
    (mergeRows x y a b).Sorted := by
  fun_induction mergeRows x y a b with
  | case1 b => exact hb.filter _
  | case2 a => exact ha.filter _
  | case3 p a q b same ih =>
    have pos := ha.positive p List.mem_cons_self
    refine (ih ha.tail hb.tail).put _ (lt_min (by omega) (by decide)) ?_
    exact below_mergeRows ha.below fun f mem => same ▸ hb.below f mem
  | case4 p a q b ne below ih =>
    refine (ih ha.tail hb).put _ (ha.positive p List.mem_cons_self) ?_
    refine below_mergeRows ha.below fun f mem => ?_
    rcases List.mem_cons.mp mem with rfl | mem
    · exact below
    · exact below.trans (hb.below f mem)
  | case5 p a q b ne notBelow ih =>
    have above : q.1 < p.1 := by omega
    refine (ih ha hb.tail).put _ (hb.positive q List.mem_cons_self) ?_
    refine below_mergeRows (fun f mem => ?_) hb.below
    rcases List.mem_cons.mp mem with rfl | mem
    · exact above
    · exact above.trans (ha.below f mem)

/-- The merge holds both rows' weights, but for the two labels left out. -/
theorem weightOf_mergeRows (x y : Nat) {a b : WeightRow} (ha : a.Sorted) (hb : b.Sorted)
    (fits : ∀ v, v ≠ x → v ≠ y → a.weightOf v + b.weightOf v ≤ u64Max) (v : Nat) :
    (mergeRows x y a b).weightOf v =
      if v ≠ x ∧ v ≠ y then a.weightOf v + b.weightOf v else 0 := by
  have split' : ∀ row : WeightRow, (row.filter fun e => e.1 ≠ x ∧ e.1 ≠ y) =
      row.filter fun e => unmerged x y e.1 := fun _ => rfl
  have kept : unmerged x y v = true ↔ v ≠ x ∧ v ≠ y := by simp [unmerged]
  fun_induction mergeRows x y a b with
  | case1 b =>
    rw [split', weightOf_filter, weightOf_nil, Nat.zero_add]
    simp only [kept]
  | case2 a =>
    rw [split', weightOf_filter, weightOf_nil, Nat.add_zero]
    simp only [kept]
  | case3 p a q b same ih =>
    have rest : ∀ v, v ≠ x → v ≠ y → weightOf a v + weightOf b v ≤ u64Max := by
      intro u ne ne'
      have := fits u ne ne'
      rw [weightOf_cons, weightOf_cons] at this
      by_cases here : u = p.1
      · rw [here, ha.weightOf_lt le_rfl, hb.weightOf_lt same.le]
        exact Nat.zero_le _
      · rwa [if_neg here, if_neg (same ▸ here)] at this
    rw [split', weightOf_put, ih ha.tail hb.tail rest, weightOf_cons, weightOf_cons, ← same]
    simp only [kept]
    by_cases here : v = p.1
    · by_cases out : v ≠ x ∧ v ≠ y
      · have bound := fits v out.1 out.2
        rw [weightOf_cons, weightOf_cons, if_pos here, if_pos (same ▸ here)] at bound
        rw [if_pos ⟨here, out⟩, if_pos out, if_pos here, if_pos here, satAdd_eq bound]
      · rw [if_neg fun both => out both.2, if_neg out, if_neg out]
    · rw [if_neg fun both => here both.1, if_neg here, if_neg here]
  | case4 p a q b ne below ih =>
    have none : weightOf (q :: b) p.1 = 0 := by
      rw [weightOf_cons, if_neg ne]
      exact hb.weightOf_lt below.le
    have rest : ∀ v, v ≠ x → v ≠ y → weightOf a v + weightOf (q :: b) v ≤ u64Max := by
      intro u ne ne'
      have := fits u ne ne'
      rw [weightOf_cons] at this
      by_cases here : u = p.1
      · rw [if_pos here] at this
        rw [here, ha.weightOf_lt le_rfl]
        rw [here] at this
        omega
      · rwa [if_neg here] at this
    rw [split', weightOf_put, ih ha.tail hb rest, weightOf_cons p a]
    simp only [kept]
    by_cases here : v = p.1
    · by_cases out : v ≠ x ∧ v ≠ y
      · rw [if_pos ⟨here, out⟩, if_pos out, if_pos here, here, none, Nat.add_zero]
      · rw [if_neg fun both => out both.2, if_neg out, if_neg out]
    · rw [if_neg fun both => here both.1, if_neg here]
  | case5 p a q b ne notBelow ih =>
    have above : q.1 < p.1 := by omega
    have none : weightOf (p :: a) q.1 = 0 := by
      rw [weightOf_cons, if_neg (fun eq => ne eq.symm)]
      exact ha.weightOf_lt above.le
    have rest : ∀ v, v ≠ x → v ≠ y → weightOf (p :: a) v + weightOf b v ≤ u64Max := by
      intro u ne ne'
      have := fits u ne ne'
      rw [weightOf_cons q] at this
      by_cases here : u = q.1
      · rw [if_pos here] at this
        rw [here, hb.weightOf_lt le_rfl]
        rw [here] at this
        omega
      · rwa [if_neg here] at this
    rw [split', weightOf_put, ih ha hb.tail rest, weightOf_cons q b]
    simp only [kept]
    by_cases here : v = q.1
    · by_cases out : v ≠ x ∧ v ≠ y
      · rw [if_pos ⟨here, out⟩, if_pos out, if_pos here, here, none, Nat.zero_add]
      · rw [if_neg fun both => out both.2, if_neg out, if_neg out]
    · rw [if_neg fun both => here both.1, if_neg here]

end WeightRow

section Merge

variable {alive : List Nat} {w w' : Nat → Nat → Nat} {adj : Nat → WeightRow} {keep gone : Nat}

theorem redirect_apply (e : Nat × Nat) (x : Nat) : redirect keep gone adj e x =
    if x = e.1 ∧ x ≠ keep then addWeight keep e.2 (removeLabel gone (adj x)) else adj x := by
  unfold redirect
  by_cases isKeep : e.1 = keep
  · rw [if_pos isKeep, if_neg fun both => both.2 (both.1.trans isKeep)]
  · rw [if_neg isKeep]
    by_cases same : x = e.1
    · rw [same, Function.update_self, if_pos ⟨rfl, isKeep⟩]
    · rw [Function.update_of_ne same, if_neg fun both => same both.1]

theorem foldl_redirect {moved : WeightRow} (sorted : moved.Sorted) (x : Nat) :
    moved.foldl (redirect keep gone) adj x =
      if x = keep ∨ moved.weightOf x = 0 then adj x
      else addWeight keep (moved.weightOf x) (removeLabel gone (adj x)) := by
  induction moved generalizing adj with
  | nil => simp
  | cons e moved ih =>
    have pos := sorted.positive e List.mem_cons_self
    have once := sorted.weightOf_lt (Nat.le_refl e.1)
    rw [List.foldl_cons, ih sorted.tail, WeightRow.weightOf_cons]
    by_cases isKeep : x = keep
    · have here : redirect keep gone adj e x = adj x := by
        rw [redirect_apply, if_neg fun both => both.2 isKeep]
      rw [here, if_pos (.inl isKeep), if_pos (.inl isKeep)]
    · by_cases same : x = e.1
      · have here : redirect keep gone adj e x = addWeight keep e.2 (removeLabel gone (adj x)) := by
          rw [redirect_apply, if_pos ⟨same, isKeep⟩]
        have none : WeightRow.weightOf moved x = 0 := same ▸ once
        rw [if_pos (.inr none), here, if_pos same,
          if_neg (by rintro (eq | eq); exacts [isKeep eq, pos.ne' eq])]
      · have here : redirect keep gone adj e x = adj x := by
          rw [redirect_apply, if_neg fun both => same both.1]
        rw [here, if_neg same]

structure Merged (keep gone : Nat) (w w' : Nat → Nat → Nat) : Prop where
  others : ∀ a b, a ≠ keep → a ≠ gone → b ≠ keep → b ≠ gone → w' a b = w a b
  toKeep : ∀ a, a ≠ keep → a ≠ gone → w' a keep = w a keep + w a gone
  fromKeep : ∀ b, b ≠ keep → b ≠ gone → w' keep b = w keep b + w gone b

/-- Merging two super-vertices' rows leaves the rows of the merged weights. -/
theorem RowsHold.merge (rows : RowsHold alive w adj) (fits : JoinsFit alive w)
    (symm : ∀ a b, w a b = w b a) (ne : keep ≠ gone) (keepIn : keep ∈ alive) (goneIn : gone ∈ alive)
    (merged : Merged keep gone w w') :
    RowsHold (alive.filter fun v => v ≠ gone) w'
      (Function.update ((adj gone).foldl (redirect keep gone) (Function.update adj gone [])) keep
        (mergeRows keep gone
          ((adj gone).foldl (redirect keep gone) (Function.update adj gone []) keep)
          (adj gone))) := by
  have left : ∀ v, v ∈ alive.filter (fun v => v ≠ gone) ↔ v ∈ alive ∧ v ≠ gone := by
    intro v
    simp
  have goneSorted := rows.sorted gone goneIn
  have keepSorted := rows.sorted keep keepIn
  have keepRow : (adj gone).foldl (redirect keep gone) (Function.update adj gone []) keep =
      adj keep := by
    rw [foldl_redirect goneSorted, if_pos (.inl rfl), Function.update_of_ne ne]
  have movedWeight : ∀ v, v ≠ gone → (adj gone).weightOf v = if v ∈ alive then w gone v else 0 := by
    intro v notGone
    rw [rows.weight gone goneIn]
    by_cases inside : v ∈ alive
    · rw [if_pos ⟨inside, notGone⟩, if_pos inside]
    · rw [if_neg fun both => inside both.1, if_neg inside]
  have pairFits : ∀ v ∈ alive, w keep v + w gone v ≤ u64Max := by
    intro v inside
    have := fits [keep, gone] (by simp [ne]) (by simp [keepIn, goneIn]) v inside
    simpa using this
  have both : ∀ v, v ≠ keep → v ≠ gone →
      (adj keep).weightOf v + (adj gone).weightOf v =
        if v ∈ alive then w keep v + w gone v else 0 := by
    intro v notKeep notGone
    rw [movedWeight v notGone, rows.weight keep keepIn]
    by_cases inside : v ∈ alive
    · rw [if_pos ⟨inside, notKeep⟩, if_pos inside, if_pos inside]
    · rw [if_neg fun both => inside both.1, if_neg inside, if_neg inside]
  have bothFit : ∀ v, v ≠ keep → v ≠ gone →
      (adj keep).weightOf v + (adj gone).weightOf v ≤ u64Max := by
    intro v notKeep notGone
    rw [both v notKeep notGone]
    split
    · rename_i inside
      exact pairFits v inside
    · exact Nat.zero_le _
  rw [keepRow]
  constructor
  · intro a mem
    obtain ⟨inside, notGone⟩ := (left a).mp mem
    by_cases isKeep : a = keep
    · rw [isKeep, Function.update_self]
      exact WeightRow.sorted_mergeRows keep gone keepSorted goneSorted
    · rw [Function.update_of_ne isKeep, foldl_redirect goneSorted, Function.update_of_ne notGone]
      split
      · exact rows.sorted a inside
      · rename_i touched
        exact WeightRow.sorted_addWeight (WeightRow.sorted_removeLabel (rows.sorted a inside) gone)
          (Nat.pos_of_ne_zero fun zero => touched (.inr zero))
  · intro a mem b
    obtain ⟨inside, notGone⟩ := (left a).mp mem
    by_cases isKeep : a = keep
    · rw [isKeep, Function.update_self,
        WeightRow.weightOf_mergeRows keep gone keepSorted goneSorted bothFit]
      by_cases out : b ≠ keep ∧ b ≠ gone
      · rw [if_pos out, both b out.1 out.2]
        by_cases bInside : b ∈ alive
        · rw [if_pos bInside, if_pos ⟨(left b).mpr ⟨bInside, out.2⟩, out.1⟩,
            merged.fromKeep b out.1 out.2]
        · rw [if_neg bInside, if_neg fun both => bInside ((left b).mp both.1).1]
      · rw [if_neg out, if_neg]
        rintro ⟨there, notKeep⟩
        exact out ⟨notKeep, ((left b).mp there).2⟩
    · rw [Function.update_of_ne isKeep, foldl_redirect goneSorted, Function.update_of_ne notGone]
      have sorted := rows.sorted a inside
      have toGone : (adj gone).weightOf a = w gone a := by
        rw [movedWeight a notGone, if_pos inside]
      have keepWeight : (removeLabel gone (adj a)).weightOf keep = w a keep := by
        rw [WeightRow.weightOf_removeLabel sorted, if_neg ne, rows.weight a inside,
          if_pos ⟨keepIn, fun eq => isKeep eq.symm⟩]
      have weight : (if a = keep ∨ (adj gone).weightOf a = 0 then adj a
          else addWeight keep ((adj gone).weightOf a) (removeLabel gone (adj a))).weightOf b =
          if b = keep then w a keep + w gone a
          else if b = gone then 0 else (adj a).weightOf b := by
        by_cases idle : (adj gone).weightOf a = 0
        · rw [if_pos (.inr idle)]
          rw [toGone] at idle
          by_cases isKeep' : b = keep
          · rw [if_pos isKeep', isKeep', rows.weight a inside,
              if_pos ⟨keepIn, fun eq => isKeep eq.symm⟩, idle, Nat.add_zero]
          · rw [if_neg isKeep']
            by_cases isGone : b = gone
            · rw [if_pos isGone, isGone, rows.weight a inside,
                if_pos ⟨goneIn, fun eq => notGone eq.symm⟩, symm, idle]
            · rw [if_neg isGone]
        · have fit : (removeLabel gone (adj a)).weightOf keep + (adj gone).weightOf a ≤ u64Max := by
            rw [keepWeight, toGone, symm a keep]
            exact pairFits a inside
          rw [if_neg (by rintro (eq | eq); exacts [isKeep eq, idle eq]),
            WeightRow.weightOf_addWeight (WeightRow.sorted_removeLabel sorted gone) fit, keepWeight,
            toGone, WeightRow.weightOf_removeLabel sorted]
      rw [weight]
      by_cases isKeep' : b = keep
      · rw [if_pos isKeep', isKeep',
          if_pos ⟨(left keep).mpr ⟨keepIn, ne⟩, fun eq => isKeep eq.symm⟩,
          merged.toKeep a isKeep notGone, symm gone a]
      · rw [if_neg isKeep']
        by_cases isGone : b = gone
        · rw [if_pos isGone, if_neg fun both => ((left b).mp both.1).2 isGone]
        · rw [if_neg isGone, rows.weight a inside]
          by_cases bInside : b ∈ alive ∧ b ≠ a
          · rw [if_pos bInside, if_pos ⟨(left b).mpr ⟨bInside.1, isGone⟩, bInside.2⟩,
              merged.others a b isKeep notGone isKeep' isGone]
          · rw [if_neg bInside, if_neg fun both => bInside ⟨((left b).mp both.1).1, both.2⟩]

end Merge

end Glia.Algo
