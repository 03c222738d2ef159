import Glia.Kit.Topo
import Glia.Rules.Strata

/-! Kahn's loop against the order it computes: the first free component is taken each time. -/
namespace Glia.Rules.Stratify

open Glia.Kit

theorem eq_of_strict {l l' : List Nat} (sorted : l.Pairwise (· < ·)) (sorted' : l'.Pairwise (· < ·))
    (mem : ∀ x, x ∈ l ↔ x ∈ l') : l = l' := by
  refine List.Perm.eq_of_pairwise ?_ sorted sorted' ?_
  · intro a b _ _ lt lt'
    omega
  · exact (List.perm_ext_iff_of_nodup (sorted.imp fun lt => lt.ne) (sorted'.imp fun lt => lt.ne)).mpr mem

theorem orderedInsert_strict {l : List Nat} (sorted : l.Pairwise (· < ·)) {c : Nat}
    (out : c ∉ l) : (l.orderedInsert (· ≤ ·) c).Pairwise (· < ·) := by
  have weak : (l.orderedInsert (· ≤ ·) c).Pairwise (· ≤ ·) :=
    (sorted.imp fun lt => lt.le).orderedInsert c l
  have nodup : (l.orderedInsert (· ≤ ·) c).Nodup := by
    rw [(List.perm_orderedInsert _ c l).nodup_iff, List.nodup_cons]
    exact ⟨out, sorted.imp fun lt => lt.ne⟩
  exact weak.imp₂ (fun a b le ne => lt_of_le_of_ne le ne) nodup

/-- A loop state whose ready components are strictly ascending and wait for nothing. -/
structure Kahn.Ready (k : Kahn) : Prop where
  strict : k.ready.Pairwise (· < ·)
  zero : ∀ c ∈ k.ready, k.indegree c = 0

/-- Satisfying the reads `ts` frees exactly the components whose last reads they are. -/
theorem releases (ts : List Nat) {k : Kahn} (h : k.Ready)
    (few : ∀ c, ts.count c ≤ k.indegree c) :
    (ts.foldl Kahn.release k).Ready ∧
      (ts.foldl Kahn.release k).emitted = k.emitted ∧
      (∀ c, (ts.foldl Kahn.release k).indegree c = k.indegree c - ts.count c) ∧
      ∀ c, c ∈ (ts.foldl Kahn.release k).ready ↔
        c ∈ k.ready ∨ 0 < k.indegree c ∧ k.indegree c = ts.count c := by
  induction ts generalizing k with
  | nil =>
    refine ⟨h, rfl, fun c => rfl, fun c => ?_⟩
    rw [List.count_nil]
    apply Iff.intro .inl
    intro either
    exact either.resolve_right fun last => by omega
  | cons t ts ih =>
    have waits := few t
    rw [List.count_cons_self] at waits
    have out : t ∉ k.ready := by
      intro mem
      have := h.zero t mem
      omega
    have degree : ∀ c, (k.release t).indegree c =
        if c = t then k.indegree t - 1 else k.indegree c :=
      fun c => Function.update_apply k.indegree t _ c
    have mem : ∀ c, c ∈ (k.release t).ready ↔ c ∈ k.ready ∨ c = t ∧ k.indegree t = 1 := by
      intro c
      rw [Kahn.release]
      dsimp only
      split
      · rw [List.mem_orderedInsert]
        apply Iff.intro
        · intro either
          rcases either with rfl | old
          · exact .inr ⟨rfl, by omega⟩
          · exact .inl old
        · intro either
          rcases either with old | ⟨rfl, _⟩
          · exact .inr old
          · exact .inl rfl
      · apply Iff.intro .inl
        intro either
        exact either.resolve_right fun one => by omega
    have next : (k.release t).Ready := {
      strict := by
        rw [Kahn.release]
        dsimp only
        split
        · exact orderedInsert_strict h.strict out
        · exact h.strict
      zero := by
        intro c hc
        rw [degree]
        rcases (mem c).mp hc with old | ⟨rfl, one⟩
        · have ne : c ≠ t := fun eq => out (eq ▸ old)
          rw [if_neg ne]
          exact h.zero c old
        · rw [if_pos rfl]
          omega }
    have fewer : ∀ c, ts.count c ≤ (k.release t).indegree c := by
      intro c
      have := few c
      rw [degree]
      by_cases eq : c = t
      · subst eq
        rw [if_pos rfl]
        omega
      · rw [if_neg eq]
        rw [List.count_cons_of_ne (Ne.symm eq)] at this
        exact this
    obtain ⟨ready, emitted, degrees, mems⟩ := ih next fewer
    rw [List.foldl_cons]
    refine ⟨ready, emitted, fun c => ?_, fun c => ?_⟩
    · rw [degrees, degree]
      by_cases eq : c = t
      · subst eq
        rw [if_pos rfl, List.count_cons_self]
        omega
      · rw [if_neg eq, List.count_cons_of_ne (Ne.symm eq)]
    · rw [mems, mem, degree]
      by_cases eq : c = t
      · subst eq
        rw [if_pos rfl, List.count_cons_self]
        have := fewer c
        rw [degree, if_pos rfl] at this
        apply Iff.intro
        · intro either
          rcases either with (old | ⟨_, one⟩) | last
          · exact .inl old
          · exact .inr ⟨by omega, by omega⟩
          · exact .inr ⟨by omega, by omega⟩
        · intro either
          rcases either with old | last
          · exact .inl (.inl old)
          · by_cases one : k.indegree c = 1
            · exact .inl (.inr ⟨rfl, one⟩)
            · exact .inr ⟨by omega, by omega⟩
      · rw [if_neg eq, List.count_cons_of_ne (Ne.symm eq)]
        apply or_congr_left
        exact ⟨fun either => either.resolve_right fun same => eq same.1, .inl⟩

section Run

variable {cross : List (Nat × Nat)} {nodes : List Nat}

/-- The crossing reads as the relation the order has to follow. -/
def Waits (cross : List (Nat × Nat)) (p c : Nat) : Prop := (p, c) ∈ cross

/-- The loop's state after emitting `k.emitted`. -/
structure Kahn.Inv (cross : List (Nat × Nat)) (nodes : List Nat) (k : Kahn) : Prop where
  degree : ∀ c, k.indegree c = cross.countP fun e => e.2 = c ∧ e.1 ∉ k.emitted
  due : k.ready = Topo.free (Waits cross) nodes k.emitted
  finished : ∀ c ∈ k.emitted, k.indegree c = 0

variable (strict : nodes.Pairwise (· < ·)) (ends : ∀ e ∈ cross, e.2 ∈ nodes)

include strict ends in
theorem Kahn.Inv.emit {k : Kahn} (h : k.Inv cross nodes) {c : Nat} {rest : List Nat}
    (ready : k.ready = c :: rest) : (k.emit cross c rest).Inv cross nodes ∧
      (k.emit cross c rest).emitted = k.emitted ++ [c] := by
  have frees : ∀ x, x ∈ k.ready ↔ x ∈ nodes ∧ Topo.Due (Waits cross) k.emitted x := by
    intro x
    rw [h.due, Topo.mem_free]
  have zero : ∀ x, k.indegree x = 0 ↔ ∀ p, Waits cross p x → p ∈ k.emitted := by
    intro x
    rw [h.degree, List.countP_eq_zero]
    apply Iff.intro
    · intro none p mem
      by_contra out
      exact none (p, x) mem (decide_eq_true ⟨rfl, out⟩)
    · intro all e mem waits
      obtain ⟨eq, out⟩ := of_decide_eq_true waits
      exact out (all e.1 (show (e.1, x) ∈ cross from eq ▸ mem))
  have strictReady : k.ready.Pairwise (· < ·) := by
    rw [h.due, Topo.free]
    exact strict.filter _
  rw [ready, List.pairwise_cons] at strictReady
  have hc := (frees c).mp (by rw [ready]; exact List.mem_cons_self)
  have count : ∀ x, ((cross.filter fun e => e.1 = c).map Prod.snd).count x =
      cross.countP fun e => e.2 = x ∧ e.1 = c := by
    intro x
    rw [List.count, List.countP_map, List.countP_filter]
    apply List.countP_congr
    intro e _
    simp
  have parts : ∀ x, k.indegree x = (cross.countP fun e => e.2 = x ∧ e.1 = c) +
      cross.countP fun e => e.2 = x ∧ e.1 ∉ k.emitted ++ [c] := by
    intro x
    rw [h.degree, List.countP_eq_countP_filter_add cross _ fun e => e.1 = c, List.countP_filter,
      List.countP_filter]
    congr 1
    · apply List.countP_congr
      intro e _
      have := hc.2.1
      grind
    · apply List.countP_congr
      intro e _
      grind
  obtain ⟨made, emitted, degrees, mems⟩ := releases
    ((cross.filter fun e => e.1 = c).map Prod.snd)
    (k := { k with ready := rest, emitted := k.emitted ++ [c] })
    ⟨strictReady.2, fun x mem => (zero x).mpr ((frees x).mp (by
      rw [ready]
      exact List.mem_cons_of_mem c mem)).2.2⟩
    (fun x => by
      rw [count]
      have := parts x
      dsimp only
      omega)
  change (k.emit cross c rest).emitted = _ at emitted
  refine ⟨⟨fun x => ?_, ?_, fun x mem => ?_⟩, emitted⟩
  · have := parts x
    rw [emitted]
    exact (degrees x).trans (by rw [count]; dsimp only; omega)
  · apply eq_of_strict made.strict
    · rw [Topo.free]
      exact strict.filter _
    · intro x
      rw [emitted, Topo.mem_free]
      refine (mems x).trans ?_
      rw [count]
      have split := parts x
      have left : (cross.countP fun e => e.2 = x ∧ e.1 ∉ k.emitted ++ [c]) = 0 ↔
          ∀ p, Waits cross p x → p ∈ k.emitted ++ [c] := by
        rw [List.countP_eq_zero]
        apply Iff.intro
        · intro none p mem
          by_contra out
          exact none (p, x) mem (decide_eq_true ⟨rfl, out⟩)
        · intro all e mem waits
          obtain ⟨eq, out⟩ := of_decide_eq_true waits
          exact out (all e.1 (show (e.1, x) ∈ cross from eq ▸ mem))
      rw [Topo.Due, ← left, List.mem_append, List.mem_singleton]
      dsimp only
      apply Iff.intro
      · intro either
        rcases either with mem | last
        · have free := (frees x).mp (by rw [ready]; exact List.mem_cons_of_mem c mem)
          have none := (zero x).mpr free.2.2
          refine ⟨free.1, fun old => ?_, by omega⟩
          rcases old with old | rfl
          · exact free.2.1 old
          · have := strictReady.1 x mem
            omega
        · refine ⟨?_, fun old => ?_, by omega⟩
          · obtain ⟨e, mem, waits⟩ := List.countP_pos_iff.mp (last.2 ▸ last.1)
            have eq := (of_decide_eq_true waits).1
            exact eq ▸ ends e mem
          · rcases old with old | rfl
            · have := h.finished x old
              omega
            · have := (zero x).mpr hc.2.2
              omega
      · rintro ⟨inside, out, rest_⟩
        rcases Nat.eq_zero_or_pos (k.indegree x) with none | some
        · left
          have free := (frees x).mpr ⟨inside, fun old => out (.inl old), (zero x).mp none⟩
          rw [ready] at free
          exact (List.mem_cons.mp free).resolve_left fun eq => out (.inr eq)
        · right
          exact ⟨some, by omega⟩
  · rw [emitted, List.mem_append, List.mem_singleton] at mem
    have none : k.indegree x = 0 := by
      rcases mem with old | rfl
      · exact h.finished x old
      · exact (zero x).mpr hc.2.2
    exact (degrees x).trans (by dsimp only; omega)

include strict ends in
theorem Kahn.run_eq (fuel : Nat) {k : Kahn} (h : k.Inv cross nodes) :
    (Kahn.run cross fuel k).emitted = Topo.takeFrom (Waits cross) nodes fuel k.emitted := by
  induction fuel generalizing k with
  | zero => rfl
  | succ fuel ih =>
    rw [Kahn.run, Topo.takeFrom, ← h.due]
    cases ready : k.ready with
    | nil => rfl
    | cons c rest =>
      have next := h.emit strict ends ready
      dsimp only
      rw [ih next.1, next.2]

end Run

def reps (n : Nat) (comp : Nat → Nat) : List Nat := (List.range n).filter fun c => comp c = c

theorem kahn_eq {n : Nat} {comp : Nat → Nat} {cross : List (Nat × Nat)}
    (ends : ∀ e ∈ cross, e.2 ∈ reps n comp) :
    kahn n comp cross = Topo.takeFrom (Waits cross) (reps n comp) n [] := by
  have strict : (reps n comp).Pairwise (· < ·) := List.pairwise_lt_range.filter _
  apply Kahn.run_eq strict ends n
  have degree : ∀ c, (Kahn.init n comp cross).indegree c =
      cross.countP fun e => e.2 = c ∧ e.1 ∉ (Kahn.init n comp cross).emitted := by
    intro c
    change (cross.map Prod.snd).count c = _
    rw [List.count, List.countP_map]
    apply List.countP_congr
    intro e _
    simp [Kahn.init]
  refine ⟨degree, ?_, fun c mem => absurd mem List.not_mem_nil⟩
  apply eq_of_strict
  · exact List.pairwise_lt_range.filter _
  · rw [Topo.free]
    exact strict.filter _
  · intro c
    rw [Topo.mem_free, Topo.Due]
    change c ∈ (List.range n).filter (fun c => comp c = c &&
      (Kahn.init n comp cross).indegree c = 0) ↔ _
    rw [List.mem_filter, Bool.and_eq_true, decide_eq_true_iff, decide_eq_true_iff, degree,
      List.countP_eq_zero, reps, List.mem_filter, decide_eq_true_iff]
    have none : (Kahn.init n comp cross).emitted = [] := rfl
    rw [none]
    apply Iff.intro
    · rintro ⟨lt, own, free⟩
      refine ⟨⟨lt, own⟩, List.not_mem_nil, fun p mem => ?_⟩
      exact absurd (decide_eq_true ⟨rfl, List.not_mem_nil⟩) (free (p, c) mem)
    · rintro ⟨⟨lt, own⟩, _, free⟩
      refine ⟨lt, own, fun e mem waits => ?_⟩
      have eq := (of_decide_eq_true waits).1
      exact absurd (free e.1 (show (e.1, c) ∈ cross from eq ▸ mem)) List.not_mem_nil

end Glia.Rules.Stratify
