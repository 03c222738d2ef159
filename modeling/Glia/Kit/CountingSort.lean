import Mathlib.Data.List.Count
import Mathlib.Tactic.Ring

/-! Counting sort into rows: the entries of a row stand together, in entry order, between
that row's start and the next row's. -/
namespace Glia.Kit.CountingSort

variable {α : Type*}

/-- One more entry for each entry's row, counted one slot past it. -/
def counts (n : Nat) (es : List (Nat × α)) : List Nat :=
  es.foldl (fun start e => start.modify (e.1 + 1) (· + 1)) (List.replicate (n + 1) 0)

/-- Add each slot to the one after it, from the first of `n` on. -/
def sums (n : Nat) (start : List Nat) : List Nat :=
  (List.range n).foldl (fun start i => start.modify (i + 1) (· + start.getD i 0)) start

/-- Where each row starts; the last slot is past the last row. -/
def starts (n : Nat) (es : List (Nat × α)) : List Nat := sums n (counts n es)

/-- Put one entry at its row's cursor. -/
def place (s : List Nat × List α) (e : Nat × α) : List Nat × List α :=
  (s.1.modify e.1 (· + 1), s.2.set (s.1.getD e.1 0) e.2)

def filled (n : Nat) (blank : α) (es : List (Nat × α)) : List α :=
  (es.foldl place (starts n es, List.replicate es.length blank)).2

def rowOf (es : List (Nat × α)) (i : Nat) : List α :=
  es.filterMap fun e => if e.1 = i then some e.2 else none

/-- How many entries stand in the rows before `i`. -/
def before (es : List (Nat × α)) (i : Nat) : Nat := es.countP fun e => e.1 < i

theorem rowOf_append (es more : List (Nat × α)) (i : Nat) :
    rowOf (es ++ more) i = rowOf es i ++ rowOf more i := List.filterMap_append

theorem before_succ (es : List (Nat × α)) (i : Nat) :
    before es (i + 1) = before es i + (rowOf es i).length := by
  unfold before rowOf
  induction es with
  | nil => rfl
  | cons e rest ih =>
    rw [List.countP_cons, List.countP_cons, List.filterMap_cons]
    by_cases own : e.1 = i
    · simp only [own, if_true, List.length_cons]
      simp only [decide_eq_true_eq, Nat.lt_succ_self, if_true, Nat.lt_irrefl, if_false]
      omega
    · simp only [own, if_false, decide_eq_true_eq]
      split <;> split <;> omega

theorem before_mono (es : List (Nat × α)) {i j : Nat} (le : i ≤ j) : before es i ≤ before es j :=
  List.countP_mono_left fun e _ h => by
    simp only [decide_eq_true_eq] at h ⊢
    omega

theorem before_le (es : List (Nat × α)) (i : Nat) : before es i ≤ es.length := List.countP_le_length

theorem getD_modify (l : List Nat) (k : Nat) (f : Nat → Nat) {i : Nat} (lt : i < l.length) :
    (l.modify k f).getD i 0 = if k = i then f (l.getD i 0) else l.getD i 0 := by
  rw [List.getD_eq_getElem?_getD, List.getElem?_modify, List.getD_eq_getElem?_getD,
    List.getElem?_eq_getElem lt]
  split <;> rfl

/-- Counting leaves each row's length one slot past the row. -/
theorem counts_spec (n : Nat) (es : List (Nat × α)) :
    (counts n es).length = n + 1 ∧ (counts n es).getD 0 0 = 0 ∧
      ∀ i < n, (counts n es).getD (i + 1) 0 = (rowOf es i).length := by
  have fold : ∀ (more : List (Nat × α)) (start : List Nat), start.length = n + 1 →
      (more.foldl (fun start e => start.modify (e.1 + 1) (· + 1)) start).length = n + 1 ∧
      (more.foldl (fun start e => start.modify (e.1 + 1) (· + 1)) start).getD 0 0 =
        start.getD 0 0 ∧
      ∀ i < n, (more.foldl (fun start e => start.modify (e.1 + 1) (· + 1)) start).getD (i + 1) 0 =
        start.getD (i + 1) 0 + (rowOf more i).length := by
    intro more
    induction more with
    | nil =>
      intro start length
      exact ⟨length, rfl, fun i _ => rfl⟩
    | cons e rest ih =>
      intro start length
      obtain ⟨length', zero, get⟩ := ih (start.modify (e.1 + 1) (· + 1))
        (by rw [List.length_modify, length])
      refine ⟨length', ?_, fun i lt => ?_⟩
      · rw [List.foldl_cons, zero, getD_modify _ _ _ (by omega), if_neg (by omega)]
      · rw [List.foldl_cons, get i lt, getD_modify _ _ _ (by omega)]
        unfold rowOf
        rw [List.filterMap_cons]
        by_cases own : e.1 = i
        · simp only [own, if_true, List.length_cons]
          omega
        · have next : ¬ e.1 + 1 = i + 1 := by omega
          simp only [own, next, if_false]
  obtain ⟨length, zero, get⟩ := fold es (List.replicate (n + 1) 0) List.length_replicate
  refine ⟨length, ?_, fun i lt => ?_⟩
  · unfold counts
    rw [zero]
    rfl
  · unfold counts
    rw [get i lt, List.getD_eq_getElem?_getD, List.getElem?_replicate, if_pos (by omega),
      Option.getD_some, Nat.zero_add]

theorem starts_spec (n : Nat) (es : List (Nat × α)) :
    (starts n es).length = n + 1 ∧ ∀ i ≤ n, (starts n es).getD i 0 = before es i := by
  obtain ⟨length, zero, counted⟩ := counts_spec n es
  have sum : ∀ k ≤ n, (sums k (counts n es)).length = n + 1 ∧
      (∀ i ≤ k, (sums k (counts n es)).getD i 0 = before es i) ∧
      ∀ i, k ≤ i → i < n → (sums k (counts n es)).getD (i + 1) 0 = (rowOf es i).length := by
    intro k
    induction k with
    | zero =>
      intro _
      refine ⟨length, fun i le => ?_, fun i _ lt => counted i lt⟩
      obtain rfl := Nat.le_zero.mp le
      exact zero.trans (List.countP_eq_zero.mpr (by simp)).symm
    | succ k ih =>
      intro le
      obtain ⟨length', done, left⟩ := ih (by omega)
      have step : sums (k + 1) (counts n es) = (sums k (counts n es)).modify (k + 1)
          (· + (sums k (counts n es)).getD k 0) := by
        unfold sums
        rw [List.range_succ, List.foldl_append]
        rfl
      rw [step]
      refine ⟨by rw [List.length_modify, length'], fun i le' => ?_, fun i le' lt => ?_⟩
      · rw [getD_modify _ _ _ (by omega)]
        by_cases last : k + 1 = i
        · subst last
          rw [if_pos rfl, left k le_rfl (by omega), done k le_rfl, before_succ, Nat.add_comm]
        · rw [if_neg last, done i (by omega)]
      · rw [getD_modify _ _ _ (by omega), if_neg (by omega), left i (by omega) lt]
  obtain ⟨length', done, _⟩ := sum n le_rfl
  exact ⟨length', done⟩

/-- Filling, so far: each cursor is past its row's entries, which stand in order. -/
structure Filling (n : Nat) (es done : List (Nat × α)) (s : List Nat × List α) : Prop where
  cursors : s.1.length = n + 1
  length : s.2.length = es.length
  cursor : ∀ i < n, s.1.getD i 0 = before es i + (rowOf done i).length
  placed : ∀ i < n, ∀ j x, (rowOf done i)[j]? = some x → s.2[before es i + j]? = some x

theorem Filling.place {n : Nat} {es done rest : List (Nat × α)} {e : Nat × α}
    {s : List Nat × List α} (h : Filling n es done s) (split : es = done ++ e :: rest)
    (lt : e.1 < n) : Filling n es (done ++ [e]) (place s e) := by
  have row : ∀ i, rowOf (done ++ [e]) i = rowOf done i ++ if e.1 = i then [e.2] else [] := by
    intro i
    rw [rowOf_append]
    congr 1
    unfold rowOf
    by_cases own : e.1 = i <;> simp [own]
  -- a row's entries so far leave room for the ones to come
  have room : ∀ i, (rowOf done i).length + (if e.1 = i then 1 else 0) + before es i ≤
      before es (i + 1) := by
    intro i
    rw [before_succ, split, rowOf_append, List.length_append]
    unfold rowOf
    rw [List.filterMap_cons]
    by_cases own : e.1 = i
    · simp only [own, if_true, List.length_cons]
      omega
    · simp only [own, if_false]
      omega
  have slot := h.cursor e.1 lt
  constructor
  · exact (List.length_modify _ _ _).trans h.cursors
  · exact (List.length_set ..).trans h.length
  · intro i hi
    unfold CountingSort.place
    rw [getD_modify _ _ _ (by have := h.cursors; omega), h.cursor i hi, row]
    by_cases own : e.1 = i
    · simp only [own, if_true, List.length_append, List.length_singleton]
      omega
    · simp [own]
  · intro i hi j x at'
    unfold CountingSort.place
    rw [row] at at'
    dsimp only
    rw [slot]
    by_cases own : e.1 = i
    · subst own
      rw [if_pos rfl] at at'
      by_cases old : j < (rowOf done e.1).length
      · rw [List.getElem?_append_left old] at at'
        rw [List.getElem?_set_ne (by omega)]
        exact h.placed e.1 lt j x at'
      · have last : j = (rowOf done e.1).length := by
          obtain ⟨bound, _⟩ := List.getElem?_eq_some_iff.mp at'
          rw [List.length_append, List.length_singleton] at bound
          omega
        subst last
        rw [List.getElem?_append_right le_rfl, Nat.sub_self, List.getElem?_cons_zero] at at'
        have fits := room e.1
        have total := before_le es (e.1 + 1)
        rw [if_pos rfl] at fits
        rw [List.getElem?_set_self (by rw [h.length]; omega)]
        exact at'
    · rw [if_neg own, List.append_nil] at at'
      obtain ⟨bound, _⟩ := List.getElem?_eq_some_iff.mp at'
      have mine := room e.1
      have other := room i
      rw [if_pos rfl] at mine
      rw [if_neg own] at other
      rw [List.getElem?_set_ne]
      · exact h.placed i hi j x at'
      · rcases Nat.lt_or_gt_of_ne own with less | more
        · have := before_mono es (show e.1 + 1 ≤ i by omega)
          omega
        · have := before_mono es (show i + 1 ≤ e.1 by omega)
          omega

theorem filled_row (n : Nat) (blank : α) (es : List (Nat × α)) (rows : ∀ e ∈ es, e.1 < n) {i : Nat}
    (lt : i < n) : ((filled n blank es).drop ((starts n es).getD i 0)).take
      ((starts n es).getD (i + 1) 0 - (starts n es).getD i 0) = rowOf es i := by
  obtain ⟨length, start⟩ := starts_spec n es
  have fill : ∀ (todo done : List (Nat × α)) s, es = done ++ todo → Filling n es done s →
      Filling n es es (todo.foldl place s) := by
    intro todo
    induction todo with
    | nil =>
      rintro done s split h
      rw [List.append_nil] at split
      exact split ▸ h
    | cons e rest ih =>
      intro done s split h
      have mem : e ∈ es := split ▸ List.mem_append_right _ List.mem_cons_self
      exact ih (done ++ [e]) (place s e) (by rw [split, List.append_assoc]; rfl)
        (h.place split (rows e mem))
  have whole := fill es [] (starts n es, List.replicate es.length blank) rfl
    ⟨length, List.length_replicate, fun i hi => by rw [start i (by omega)]; rfl,
      fun i _ j x none' => by cases none'⟩
  rw [start i (by omega), start (i + 1) (by omega), before_succ, Nat.add_sub_cancel_left]
  apply List.ext_getElem?
  intro j
  rw [List.getElem?_take, List.getElem?_drop]
  by_cases inside : j < (rowOf es i).length
  · rw [if_pos inside, List.getElem?_eq_getElem inside]
    exact whole.placed i lt j _ (List.getElem?_eq_getElem inside)
  · rw [if_neg inside, List.getElem?_eq_none (by omega)]

end Glia.Kit.CountingSort
