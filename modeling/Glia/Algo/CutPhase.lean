import Glia.Algo.Cut
import Glia.Kit.MaxAdjacency
import Mathlib.Data.List.Perm.Subperm

/-! A phase adds the labels in a maximum-adjacency order. The heap holds each waiting label
at its present connectivity, among stale entries that are dropped on their way out. -/
namespace Glia.Algo

open Kit.MaxAdjacency

section Heap

theorem heapTop_le (best : HeapEntry) (rest : List HeapEntry) :
    ∀ f ∈ best :: rest, f.1 ≤ (heapTop best rest).1 := by
  induction rest generalizing best with
  | nil =>
    intro f mem
    rw [List.mem_singleton.mp mem, heapTop]
  | cons e rest ih =>
    intro f mem
    rw [heapTop]
    have most := ih (if HeapEntry.above e best then e else best)
    have top := most _ List.mem_cons_self
    have kept : best.1 ≤ (if HeapEntry.above e best then e else best).1 ∧
        e.1 ≤ (if HeapEntry.above e best then e else best).1 := by
      split <;> rename_i above
      · simp only [HeapEntry.above, Bool.or_eq_true, decide_eq_true_eq, Bool.and_eq_true,
          beq_iff_eq] at above
        omega
      · simp only [HeapEntry.above, Bool.or_eq_true, decide_eq_true_eq, Bool.and_eq_true,
          beq_iff_eq] at above
        omega
    rcases List.mem_cons.mp mem with rfl | mem
    · exact kept.1.trans top
    · rcases List.mem_cons.mp mem with rfl | mem
      · exact kept.2.trans top
      · exact most f (List.mem_cons_of_mem _ mem)

theorem heapPop_some {heap rest : List HeapEntry} {e : HeapEntry}
    (popped : heapPop heap = some (e, rest)) : e ∈ heap ∧ (∀ f ∈ heap, f.1 ≤ e.1) ∧
      (∀ f ∈ heap, f ≠ e → f ∈ rest) ∧ ∀ f ∈ rest, f ∈ heap := by
  cases heap with
  | nil => cases popped
  | cons f heap =>
    cases popped
    refine ⟨heapTop_mem f heap, heapTop_le f heap, ?_, fun g mem => List.mem_of_mem_erase mem⟩
    exact fun g mem ne => (List.mem_erase_of_ne ne).mpr mem

theorem heapPop_none {heap : List HeapEntry} (dry : heapPop heap = none) : heap = [] := by
  cases heap with
  | nil => rfl
  | cons f heap => cases dry

end Heap

section Tighten

theorem foldl_tighten_frame (row : WeightRow) (s : Phase) :
    let s' := row.foldl Phase.tighten s
    s'.added = s.added ∧ s'.prev = s.prev ∧ s'.last = s.last ∧ s'.cut = s.cut ∧
      s'.scan = s.scan := by
  induction row generalizing s with
  | nil => exact ⟨rfl, rfl, rfl, rfl, rfl⟩
  | cons e row ih =>
    have here : (s.tighten e).added = s.added ∧ (s.tighten e).prev = s.prev ∧
        (s.tighten e).last = s.last ∧ (s.tighten e).cut = s.cut ∧ (s.tighten e).scan = s.scan := by
      unfold Phase.tighten
      split <;> exact ⟨rfl, rfl, rfl, rfl, rfl⟩
    obtain ⟨added, prev, last, cut, scan⟩ := ih (s.tighten e)
    exact ⟨added.trans here.1, prev.trans here.2.1, last.trans here.2.2.1, cut.trans here.2.2.2.1,
      scan.trans here.2.2.2.2⟩

theorem tighten_key (s : Phase) (e : Nat × Nat) (v : Nat) : (s.tighten e).key v =
    if v = e.1 ∧ ¬ s.added v then satAdd (s.key v) e.2 else s.key v := by
  unfold Phase.tighten
  by_cases out : s.added e.1
  · rw [if_pos out, if_neg]
    rintro ⟨eq, waiting⟩
    exact waiting (eq ▸ out)
  · rw [if_neg out]
    by_cases same : v = e.1
    · subst same
      rw [if_pos ⟨rfl, out⟩]
      exact Function.update_self ..
    · rw [if_neg fun h => same h.1]
      exact Function.update_of_ne same ..

/-- Each waiting neighbour's key grows by its weight, and the heap holds the new key. -/
theorem foldl_tighten_spec {row : WeightRow} (sorted : row.Sorted) (s : Phase) :
    (∀ v, (row.foldl Phase.tighten s).key v =
      if s.added v ∨ row.weightOf v = 0 then s.key v else satAdd (s.key v) (row.weightOf v)) ∧
    (∀ f ∈ s.heap, f ∈ (row.foldl Phase.tighten s).heap) ∧
    (∀ v, ¬ s.added v → 0 < row.weightOf v →
      ((row.foldl Phase.tighten s).key v, v) ∈ (row.foldl Phase.tighten s).heap) ∧
    ∀ f ∈ (row.foldl Phase.tighten s).heap, f ∈ s.heap ∨ 0 < row.weightOf f.2 := by
  induction row generalizing s with
  | nil => simp
  | cons e row ih =>
    obtain ⟨keys, kept, fresh, only⟩ := ih sorted.tail (s.tighten e)
    have added : (s.tighten e).added = s.added := (foldl_tighten_frame [e] s).1
    have once := sorted.weightOf_lt (Nat.le_refl e.1)
    have pos := sorted.positive e List.mem_cons_self
    rw [List.foldl_cons]
    refine ⟨fun v => ?_, fun f mem => kept f ?_, fun v out some => ?_, fun f mem => ?_⟩
    · rw [keys, added, tighten_key, WeightRow.weightOf_cons]
      by_cases same : v = e.1
      · subst same
        by_cases out : s.added e.1
        · simp [out]
        · simp [out, once, pos.ne']
      · simp [same]
    · unfold Phase.tighten
      split
      · exact mem
      · exact List.mem_cons_of_mem _ mem
    · by_cases same : v = e.1
      · subst same
        have eq : (row.foldl Phase.tighten (s.tighten e)).key e.1 = satAdd (s.key e.1) e.2 := by
          rw [keys, if_pos (.inr once), tighten_key, if_pos ⟨rfl, out⟩]
        rw [eq]
        apply kept
        unfold Phase.tighten
        rw [if_neg out]
        exact List.mem_cons_self
      · rw [WeightRow.weightOf_cons, if_neg same] at some
        exact fresh v (added ▸ out) some
    · rw [WeightRow.weightOf_cons]
      rcases only f mem with there | later
      · unfold Phase.tighten at there
        split at there
        · exact .inl there
        · rcases List.mem_cons.mp there with eq | there
          · right
            rw [eq, if_pos rfl]
            exact pos
          · exact .inl there
      · right
        split
        · exact pos
        · exact later

end Tighten

section Grow

variable {alive : List Nat} {w : Nat → Nat → Nat} {adj : Nat → WeightRow}

structure RowsHold (alive : List Nat) (w : Nat → Nat → Nat) (adj : Nat → WeightRow) : Prop where
  sorted : ∀ a ∈ alive, (adj a).Sorted
  weight : ∀ a ∈ alive, ∀ b, (adj a).weightOf b = if b ∈ alive ∧ b ≠ a then w a b else 0

def JoinsFit (alive : List Nat) (w : Nat → Nat → Nat) : Prop :=
  ∀ l : List Nat, l.Nodup → (∀ a ∈ l, a ∈ alive) → ∀ v ∈ alive, join w l v ≤ u64Max

/-- The set has been grown along `order`, latest label first. -/
structure Growing (alive : List Nat) (w : Nat → Nat → Nat) (order : List Nat) (s : Phase) :
    Prop where
  maximal : MaxAdj w (· ∈ alive) order
  count : s.count = order.length
  added : ∀ v ∈ alive, s.added v = true ↔ v ∈ order
  key : ∀ v ∈ alive, v ∉ order → s.key v = join w order v
  labels : ∀ e ∈ s.heap, e.2 ∈ alive
  scanned : ∀ i < s.scan, ∀ v, alive[i]? = some v → v ∈ order
  last : ∀ x l, order = x :: l → s.last = x ∧ s.cut = join w l x
  prev : ∀ x y l, order = x :: y :: l → s.prev = y

/-- The heap holds each label still out at its present connectivity, if it has one. -/
def Waiting (alive order : List Nat) (s : Phase) : Prop :=
  ∀ v ∈ alive, v ∉ order → 0 < s.key v → (s.key v, v) ∈ s.heap

theorem all_of_full {order : List Nat} (once : order.Nodup) (inside : ∀ v ∈ order, v ∈ alive)
    (full : order.length = alive.length) : ∀ v ∈ alive, v ∈ order := by
  have sub : order.Subperm alive := List.subperm_of_subset once inside
  have same : order.Perm alive := sub.perm_of_length_le full.ge
  exact fun v mem => same.mem_iff.mpr mem

/-- Adding a label most tightly joined to the set grows it by that label. -/
theorem Growing.add (rows : RowsHold alive w adj) (fits : JoinsFit alive w)
    {order : List Nat} {s : Phase} (h : Growing alive w order s) {v : Nat} (mem : v ∈ alive)
    (out : v ∉ order) (waits : Waiting alive (v :: order) s)
    (most : ∀ u ∈ alive, u ∉ order → s.key u ≤ s.key v) :
    Growing alive w (v :: order) (s.add adj alive v) ∧
      Waiting alive (v :: order) (s.add adj alive v) := by
  have maximal : MaxAdj w (· ∈ alive) (v :: order) := by
    refine ⟨h.maximal, mem, out, fun u inside fresh => ?_⟩
    rw [← h.key u inside fresh, ← h.key v mem out]
    exact most u inside fresh
  have added : ∀ u ∈ alive, Function.update s.added v true u = true ↔ u ∈ v :: order := by
    intro u inside
    by_cases same : u = v
    · subst same
      simp
    · rw [Function.update_of_ne same, h.added u inside, List.mem_cons]
      exact ⟨.inr, fun there => there.resolve_left same⟩
  have scanned : ∀ i < s.scan, ∀ u, alive[i]? = some u → u ∈ v :: order :=
    fun i lt u at' => List.mem_cons_of_mem _ (h.scanned i lt u at')
  have prev : ∀ x y l, v :: order = x :: y :: l → s.last = y := by
    rintro x y l ⟨⟩
    exact (h.last y l rfl).1
  unfold Phase.add
  split
  · -- Every label is in the set, so no key matters any more.
    rename_i full
    have all : ∀ u ∈ alive, u ∈ v :: order :=
      all_of_full maximal.nodup maximal.inside (by rw [List.length_cons, ← h.count]; exact full)
    refine ⟨?_, fun u inside fresh => absurd (all u inside) fresh⟩
    exact {
      maximal := maximal
      count := congrArg (· + 1) h.count
      added := added
      key := fun u inside fresh => absurd (all u inside) fresh
      labels := h.labels
      scanned := scanned
      last := by rintro x l ⟨⟩; exact ⟨rfl, h.key v mem out⟩
      prev := prev }
  · obtain ⟨sameAdded, samePrev, sameLast, sameCut, sameScan⟩ :=
      foldl_tighten_frame (adj v) (s.enter v)
    obtain ⟨keys, kept, tightened, only⟩ := foldl_tighten_spec (rows.sorted v mem) (s.enter v)
    have stillOut : ∀ u ∈ alive, u ∉ v :: order → ¬ (s.enter v).added u := by
      intro u inside fresh isIn
      exact fresh ((added u inside).mp isIn)
    have weight : ∀ u ∈ alive, u ∉ v :: order → (adj v).weightOf u = w v u := by
      intro u inside fresh
      rw [rows.weight v mem u, if_pos ⟨inside, fun eq => fresh (eq ▸ List.mem_cons_self)⟩]
    have key : ∀ u ∈ alive, u ∉ v :: order →
        ((adj v).foldl Phase.tighten (s.enter v)).key u = join w (v :: order) u := by
      intro u inside fresh
      have bound := fits (v :: order) maximal.nodup maximal.inside u inside
      have before : (s.enter v).key u = join w order u :=
        h.key u inside fun there => fresh (List.mem_cons_of_mem _ there)
      rw [join_cons] at bound ⊢
      rw [keys, weight u inside fresh, before]
      split
      · rename_i idle
        rw [idle.resolve_left (stillOut u inside fresh), Nat.zero_add]
      · rw [satAdd_eq (by omega), Nat.add_comm]
    have waits' : Waiting alive (v :: order) ((adj v).foldl Phase.tighten (s.enter v)) := by
      intro u inside fresh some
      by_cases touched : 0 < (adj v).weightOf u
      · exact tightened u (stillOut u inside fresh) touched
      · have idle : (adj v).weightOf u = 0 := by omega
        have same : ((adj v).foldl Phase.tighten (s.enter v)).key u = s.key u := by
          rw [keys, if_pos (.inr idle)]
          rfl
        rw [same] at some ⊢
        exact kept _ (waits u inside fresh some)
    refine ⟨?_, waits'⟩
    exact {
      maximal := maximal
      count := by rw [Phase.foldl_tighten_count, List.length_cons, ← h.count]; rfl
      added := fun u inside => by rw [sameAdded]; exact added u inside
      key := key
      labels := by
        intro e there
        rcases only e there with old | new
        · exact h.labels e old
        · rw [rows.weight v mem] at new
          by_contra outside
          rw [if_neg fun both => outside both.1] at new
          exact Nat.lt_irrefl 0 new
      scanned := by rw [sameScan]; exact scanned
      last := by
        rintro x l ⟨⟩
        rw [sameLast, sameCut]
        exact ⟨rfl, h.key v mem out⟩
      prev := by rw [samePrev]; exact prev }

section Skip

theorem takeWhile_stop {α : Type} {p : α → Bool} {l : List α} {v : α}
    (at' : l[(l.takeWhile p).length]? = some v) : p v = false := by
  induction l with
  | nil => simp at at'
  | cons x l ih =>
    cases holds : p x with
    | true =>
      rw [List.takeWhile_cons_of_pos holds, List.length_cons, List.getElem?_cons_succ] at at'
      exact ih at'
    | false =>
      rw [List.takeWhile_cons_of_neg (by simp [holds])] at at'
      cases at'
      exact holds

theorem takeWhile_before {α : Type} {p : α → Bool} {l : List α} {i : Nat}
    (lt : i < (l.takeWhile p).length) {v : α} (at' : l[i]? = some v) : p v = true := by
  induction l generalizing i with
  | nil => simp at at'
  | cons x l ih =>
    cases holds : p x with
    | true =>
      cases i with
      | zero =>
        cases at'
        exact holds
      | succ i =>
        rw [List.takeWhile_cons_of_pos holds, List.length_cons] at lt
        exact ih (Nat.lt_of_succ_lt_succ lt) at'
    | false =>
      rw [List.takeWhile_cons_of_neg (by simp [holds])] at lt
      exact absurd lt (Nat.not_lt_zero i)

theorem skip_spec {order : List Nat} {s : Phase} (h : Growing alive w order s) :
    (∀ i < s.skip alive, ∀ v, alive[i]? = some v → v ∈ order) ∧
      ∀ v, alive[s.skip alive]? = some v → v ∈ alive ∧ v ∉ order := by
  constructor
  · intro i lt v at'
    by_cases before : i < s.scan
    · exact h.scanned i before v at'
    · have inside : i - s.scan < ((alive.drop s.scan).takeWhile s.added).length := by
        unfold Phase.skip at lt
        omega
      have there : (alive.drop s.scan)[i - s.scan]? = some v := by
        rw [List.getElem?_drop, Nat.add_sub_cancel' (Nat.le_of_not_lt before)]
        exact at'
      exact (h.added v (List.mem_of_getElem? at')).mp (takeWhile_before inside there)
  · intro v at'
    have mem := List.mem_of_getElem? at'
    refine ⟨mem, fun isIn => ?_⟩
    unfold Phase.skip at at'
    rw [← List.getElem?_drop] at at'
    have out := takeWhile_stop at'
    rw [(h.added v mem).mpr isIn] at out
    cases out

end Skip

/-- A phase's loop takes every label, each as tightly joined as any still out. -/
theorem grow_spec (rows : RowsHold alive w adj) (fits : JoinsFit alive w) (once : alive.Nodup)
    {order : List Nat} {s : Phase} (h : Growing alive w order s) (waits : Waiting alive order s) :
    ∃ order', Growing alive w order' (grow adj alive s) ∧ order'.length = alive.length := by
  fun_induction grow adj alive s generalizing order with
  | case1 s more k v rest popped stale ih =>
    obtain ⟨_, _, others, sub⟩ := heapPop_some popped
    apply @ih order
    · exact { h with labels := fun e mem => h.labels e (sub e mem) }
    · intro u inside out some
      refine others _ (waits u inside out some) fun eq => ?_
      obtain ⟨rfl, rfl⟩ := Prod.mk.inj eq
      rcases stale with isIn | ne
      · exact out ((h.added u inside).mp isIn)
      · exact ne rfl
  | case2 s more k v rest popped fresh ih =>
    obtain ⟨mem, most, others, sub⟩ := heapPop_some popped
    have inside := h.labels _ mem
    have out : v ∉ order := fun there => fresh (.inl ((h.added v inside).mpr there))
    have key : k = s.key v := by
      by_contra ne
      exact fresh (.inr ne)
    have popped : Growing alive w order { s with heap := rest } :=
      { h with labels := fun e there => h.labels e (sub e there) }
    obtain ⟨grown, waits'⟩ := popped.add rows fits inside out (fun u inside' out' some => by
      have notV : u ≠ v := fun eq => out' (eq ▸ List.mem_cons_self)
      have there := waits u inside' (fun there => out' (List.mem_cons_of_mem _ there)) some
      exact others _ there fun eq => notV (congrArg Prod.snd eq))
      (fun u inside' out' => by
        by_cases some : 0 < s.key u
        · have le := most _ (waits u inside' out' some)
          rw [key] at le
          exact le
        · exact (Nat.eq_zero_of_not_pos some).le.trans (Nat.zero_le _))
    exact ih grown waits'
  | case3 s more dry stuck =>
    -- Every label was scanned, so every one is in the set.
    exfalso
    have all : ∀ v ∈ alive, v ∈ order := by
      intro v mem
      obtain ⟨i, lt, at'⟩ := List.getElem_of_mem mem
      refine (skip_spec h).1 i ?_ v (by rw [List.getElem?_eq_getElem lt, at'])
      have := List.getElem?_eq_none_iff.mp stuck
      omega
    have le := (List.subperm_of_subset once all).length_le
    rw [h.count] at more
    omega
  | case4 s more dry v next ih =>
    obtain ⟨scanned, at'⟩ := skip_spec h
    obtain ⟨inside, out⟩ := at' v next
    have empty := heapPop_none dry
    have still : ∀ u ∈ alive, u ∉ order → s.key u = 0 := by
      intro u inside' out'
      by_contra some
      have there := waits u inside' out' (Nat.pos_of_ne_zero some)
      rw [empty] at there
      cases there
    have moved : Growing alive w order { s with scan := s.skip alive } :=
      { h with scanned := scanned }
    obtain ⟨grown, waits'⟩ := moved.add rows fits inside out
      (fun u inside' out' some => waits u inside'
        (fun there => out' (List.mem_cons_of_mem _ there)) some)
      (fun u inside' out' => (still u inside' out').le.trans (Nat.zero_le _))
    exact ih grown waits'
  | case5 s done =>
    refine ⟨order, h, le_antisymm ?_ ?_⟩
    · exact (List.subperm_of_subset h.maximal.nodup h.maximal.inside).length_le
    · rw [h.count] at done
      omega

end Grow

end Glia.Algo
