import Glia.Algo.CyclesLeave
import Mathlib

/-! The component search finds every non-trivial strongly connected component once. -/
namespace Glia.Algo

open Relation Glia.Kit

variable (adj : Adjacency)

theorem filterMap_outgoing_length (l : List (Kept × Nat)) (n : Nat)
    (lt : ∀ p ∈ l, p.1.src < n) :
    ∑ v ∈ Finset.range n, (l.filterMap fun p =>
      if p.1.src = v then some (⟨p.2, p.1.dst, p.1.category⟩ : Inc) else none).length =
      l.length := by
  induction l with
  | nil => simp
  | cons p l ih =>
    have step : ∀ v, ((p :: l).filterMap fun p =>
        if p.1.src = v then some (⟨p.2, p.1.dst, p.1.category⟩ : Inc) else none).length =
        (if p.1.src = v then 1 else 0) + (l.filterMap fun p =>
          if p.1.src = v then some (⟨p.2, p.1.dst, p.1.category⟩ : Inc) else none).length := by
      intro v
      rw [List.filterMap_cons]
      by_cases eq : p.1.src = v
      · simp only [if_pos eq, List.length_cons]
        omega
      · simp only [if_neg eq]
        omega
    rw [Finset.sum_congr rfl fun v _ => step v, Finset.sum_add_distrib,
      ih fun q mem => lt q (List.mem_cons_of_mem p mem), Finset.sum_ite_eq,
      if_pos (Finset.mem_range.mpr (lt p List.mem_cons_self)), List.length_cons]
    omega

theorem Adjacency.sum_outgoing :
    ∑ v ∈ Finset.range adj.len, (adj.outgoing v).length = adj.keptEdges := by
  have all := filterMap_outgoing_length adj.kept.zipIdx adj.len (by
    intro p mem
    obtain ⟨k, i⟩ := p
    exact (adj.kept_lt k (List.mem_of_getElem? (List.mem_zipIdx_iff_getElem?.mp mem))).1)
  rw [List.length_zipIdx] at all
  exact all

namespace Tarjan

variable {adj} {s : Tarjan}

/-- What is still to do: the edges and the frame of each vertex not numbered, and what is left
of each open frame. -/
def left (adj : Adjacency) (s : Tarjan) : Nat :=
  (∑ v ∈ Finset.range adj.len,
      if s.order v = none then (adj.outgoing v).length + 1 else 0) +
    (s.frames.map fun f => (adj.outgoing f.1).length - f.2 + 1).sum

theorem open_left (sh : Shape adj s) {w : Nat} (pend : s.enter = some w) :
    left adj (s.open' w) = left adj s := by
  have bound := sh.pending w pend
  have mem := Finset.mem_range.mpr bound.1
  rw [left, left, ← Finset.add_sum_erase _ _ mem, ← Finset.add_sum_erase _ _ mem, open_order,
    if_pos rfl, if_neg (Option.some_ne_none _), if_pos bound.2.1]
  have same : ∑ v ∈ (Finset.range adj.len).erase w,
      (if (s.open' w).order v = none then (adj.outgoing v).length + 1 else 0) =
      ∑ v ∈ (Finset.range adj.len).erase w,
        if s.order v = none then (adj.outgoing v).length + 1 else 0 := by
    apply Finset.sum_congr rfl
    intro v hv
    rw [open_order, if_neg (Finset.ne_of_mem_erase hv)]
  rw [same]
  change _ + (((adj.outgoing w).length - 0 + 1) +
    (s.frames.map fun f => (adj.outgoing f.1).length - f.2 + 1).sum) = _
  omega

theorem opened_left (sh : Shape adj s) : left adj s.opened = left adj s := by
  rw [opened]
  split
  · exact open_left sh ‹_›
  · rfl

theorem opened_order_isSome {v : Nat} (some : s.order v ≠ none) : s.opened.order v ≠ none := by
  rw [opened]
  split
  · rw [open_order]
    split
    · exact Option.some_ne_none _
    · exact some
  · exact some

theorem turn_left (h : Inv adj s) {s' : Tarjan} (turn : s.turn adj = some s') :
    left adj s' + 1 = left adj s ∧ ∀ v, s.opened.order v ≠ none → s'.order v ≠ none := by
  obtain ⟨open_, still⟩ := h.opened
  rw [← opened_left h.shape]
  rw [Tarjan.turn] at turn
  cases top : s.opened.frames with
  | nil =>
    rw [top] at turn
    cases turn
  | cons frame rest =>
    obtain ⟨v, pos⟩ := frame
    rw [top] at turn
    dsimp only at turn
    cases at_ : (adj.outgoing v)[pos]? with
    | some inc =>
      rw [at_] at turn
      cases turn
      have e : Examines s.opened (s.opened.examine v pos rest inc) v pos rest inc :=
        examine_examines open_.shape still
      have lt := (List.getElem?_eq_some_iff.mp at_).1
      apply And.intro
      · rw [left, left, e.order, e.frames, top, List.map_cons, List.map_cons, List.sum_cons,
          List.sum_cons]
        dsimp only
        omega
      · intro x some
        rw [e.order]
        exact some
    | none =>
      rw [at_] at turn
      cases turn
      have le := List.getElem?_eq_none_iff.mp at_
      have kept : (s.opened.leave adj v rest).order = s.opened.order ∧
          (s.opened.leave adj v rest).frames = rest := by
        have f : Folds s.opened (s.opened.fold v rest) v rest := fold_folds
        have c : Closes adj s.opened ((s.opened.fold v rest).close adj v) v rest := close_closes
        rw [leave]
        split
        · exact ⟨c.order, c.frames⟩
        · exact ⟨f.order, f.frames⟩
      apply And.intro
      · rw [left, left, kept.1, kept.2, top, List.map_cons, List.sum_cons]
        dsimp only
        omega
      · intro x some
        rw [kept.1]
        exact some

theorem run_closes (h : Inv adj s) (fuel : Nat) (enough : left adj s < fuel) :
    Inv adj (run adj fuel s) ∧ (run adj fuel s).frames = [] ∧ (run adj fuel s).enter = none ∧
      ∀ v, s.opened.order v ≠ none → (run adj fuel s).order v ≠ none := by
  induction fuel generalizing s with
  | zero => omega
  | succ fuel ih =>
    rw [run]
    cases turn : s.turn adj with
    | none =>
      have ends := h.turn.2 turn
      refine ⟨h, ends.1, ends.2, fun v some => ?_⟩
      rw [opened, ends.2] at some
      exact some
    | some s' =>
      have next := turn_left h turn
      have rest := ih (h.turn.1 s' turn) (by omega)
      refine ⟨rest.1, rest.2.1, rest.2.2.1, fun v some => ?_⟩
      exact rest.2.2.2 v (opened_order_isSome (next.2 v some))

structure Idle (adj : Adjacency) (s : Tarjan) : Prop where
  inv : Inv adj s
  frames : s.frames = []
  enter : s.enter = none

theorem Idle.stack (h : Idle adj s) : s.stack = [] := by
  apply List.eq_nil_iff_forall_not_mem.mpr
  intro x mem
  obtain ⟨v, own, _⟩ := h.inv.walk.owned x mem
  have gray := own.1
  rw [Tarjan.gray, h.frames] at gray
  cases gray

theorem init_idle : Idle adj init where
  inv := {
    shape := {
      numbered := fun v some => absurd rfl some
      falling := List.Pairwise.nil
      seen := fun v mem => nomatch mem
      onStack := fun v => by simp [init]
      framed := List.Sublist.slnil
      pending := fun w enter => nomatch enter }
    walk := {
      closed := fun v some => absurd rfl some
      followed := fun x mem => nomatch mem
      above := fun v mem => nomatch mem
      low := fun v mem => nomatch mem
      owned := fun x mem => nomatch mem }
    found := {
      sound := fun c mem => nomatch mem
      complete := fun v some => absurd rfl some
      disjoint := List.Pairwise.nil } }
  frames := rfl
  enter := rfl

theorem visit_idle (h : Idle adj s) {root : Nat} (lt : root < adj.len) :
    Idle adj (visit adj s root) ∧ (visit adj s root).order root ≠ none ∧
      ∀ v, s.order v ≠ none → (visit adj s root).order v ≠ none := by
  rw [visit]
  cases number : s.order root with
  | some o =>
    refine ⟨h, ?_, fun _ some => some⟩
    rw [number]
    exact Option.some_ne_none o
  | none =>
    dsimp only
    have start : Inv adj { s with enter := some root } := {
      shape := { h.inv.shape with
        pending := by
          intro w enter
          cases enter
          have none : s.gray.head? = none := by
            rw [Tarjan.gray, h.frames]
            rfl
          refine ⟨lt, number, fun t gray => ?_⟩
          change t ∈ s.gray.head? at gray
          rw [none] at gray
          cases gray }
      walk := { h.inv.walk with
        followed := by
          intro x mem
          rw [h.stack] at mem
          cases mem }
      found := {
        sound := h.inv.found.sound
        complete := h.inv.found.complete
        disjoint := h.inv.found.disjoint } }
    have enough : left adj { s with enter := some root } < fuel adj := by
      change left adj s < fuel adj
      rw [left, h.frames, fuel, List.map_nil, List.sum_nil]
      have each : ∑ v ∈ Finset.range adj.len,
          (if s.order v = none then (adj.outgoing v).length + 1 else 0) ≤
          ∑ v ∈ Finset.range adj.len, ((adj.outgoing v).length + 1) := by
        apply Finset.sum_le_sum
        intro v _
        split
        · exact le_rfl
        · exact Nat.zero_le _
      rw [Finset.sum_add_distrib, adj.sum_outgoing, Finset.sum_const, Finset.card_range,
        Nat.nsmul_eq_mul, Nat.mul_one] at each
      omega
    have ends := run_closes start (fuel adj) enough
    refine ⟨⟨ends.1, ends.2.1, ends.2.2.1⟩, ?_, fun v some => ?_⟩
    · apply ends.2.2.2
      change (open' _ root).order root ≠ none
      rw [open_order, if_pos rfl]
      exact Option.some_ne_none _
    · apply ends.2.2.2
      exact opened_order_isSome some

theorem visits_idle (roots : List Nat) (lt : ∀ r ∈ roots, r < adj.len) (h : Idle adj s) :
    Idle adj (roots.foldl (visit adj) s) ∧
      (∀ r ∈ roots, (roots.foldl (visit adj) s).order r ≠ none) ∧
      ∀ v, s.order v ≠ none → (roots.foldl (visit adj) s).order v ≠ none := by
  induction roots generalizing s with
  | nil => exact ⟨h, fun r mem => (nomatch mem), fun _ some => some⟩
  | cons root rest ih =>
    have one := visit_idle h (lt root List.mem_cons_self)
    have all := ih (fun r mem => lt r (List.mem_cons_of_mem root mem)) one.1
    refine ⟨all.1, fun r mem => ?_, fun v some => all.2.2 v (one.2.2 v some)⟩
    rcases List.mem_cons.mp mem with eq | mem
    · rw [eq]
      exact all.2.2 root one.2.1
    · exact all.2.1 r mem

end Tarjan

open Tarjan

theorem stronglyConnected_sound {c : List NodeId} (mem : c ∈ stronglyConnected adj) :
    ∃ members, IsComponent adj members ∧ c = (members.map adj.id).insertionSort (· ≤ ·) := by
  have all := @visits_idle adj _ (List.range adj.len) (fun r => List.mem_range.mp) init_idle
  rw [stronglyConnected] at mem
  obtain ⟨members, comp, eq, _⟩ := all.1.inv.found.sound c ((List.mem_insertionSort _).mp mem)
  exact ⟨members, comp, eq⟩

theorem stronglyConnected_complete {v : Nat} (cyc : OnCycle adj.Arc v) :
    ∃ c ∈ stronglyConnected adj, adj.id v ∈ c := by
  have all := @visits_idle adj _ (List.range adj.len) (fun r => List.mem_range.mp) init_idle
  obtain ⟨w, arc, _⟩ := TransGen.head'_iff.mp cyc
  have out : v ∉ ((List.range adj.len).foldl (visit adj) init).stack := by
    rw [all.1.stack]
    exact List.not_mem_nil
  obtain ⟨c, mem, held⟩ := all.1.inv.found.complete v
    (all.2.1 v (List.mem_range.mpr arc.lt.1)) out cyc
  apply Exists.intro c
  rw [stronglyConnected]
  exact ⟨(List.mem_insertionSort _).mpr mem, held⟩

theorem stronglyConnected_disjoint : (stronglyConnected adj).Pairwise List.Disjoint := by
  have all := @visits_idle adj _ (List.range adj.len) (fun r => List.mem_range.mp) init_idle
  rw [stronglyConnected]
  exact ((List.perm_insertionSort _ _).pairwise_iff fun h => h.symm).mpr all.1.inv.found.disjoint

theorem stronglyConnected_ordered :
    (stronglyConnected adj).Pairwise fun a b => a.headD 0 ≤ b.headD 0 := by
  rw [stronglyConnected]
  have : IsTrans (List NodeId) fun a b => a.headD 0 ≤ b.headD 0 := ⟨fun _ _ _ => le_trans⟩
  have : Std.Total fun a b : List NodeId => a.headD 0 ≤ b.headD 0 :=
    ⟨fun a b => le_total (a.headD 0) (b.headD 0)⟩
  exact List.pairwise_insertionSort _ _

end Glia.Algo
