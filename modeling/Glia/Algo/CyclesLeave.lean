import Glia.Algo.CyclesStep

/-! Leaving the top frame: it hands its vertices to its parent, or closes its component. -/
namespace Glia.Algo.Tarjan

open Relation Glia.Kit

variable {adj : Adjacency} {s : Tarjan}

theorem popped_append {v : Nat} {l : List Nat} (mem : v ∈ l) :
    l = popped v l ++ l.drop (popped v l).length := by
  induction l with
  | nil => cases mem
  | cons w below ih =>
    rw [popped]
    split
    · rfl
    · rename_i ne
      have mem' := (List.mem_cons.mp mem).resolve_left (Ne.symm ne)
      simpa using ih mem'

theorem mem_popped {rank : Nat → Nat} {v : Nat} {l : List Nat}
    (falling : l.Pairwise fun a b => rank b < rank a) (mem : v ∈ l) (x : Nat) :
    x ∈ popped v l ↔ x ∈ l ∧ rank v ≤ rank x := by
  induction l with
  | nil => cases mem
  | cons w below ih =>
    rw [List.pairwise_cons] at falling
    rw [popped]
    split
    · rename_i eq
      subst eq
      rw [List.mem_singleton, List.mem_cons]
      apply Iff.intro
      · intro e
        subst e
        exact ⟨.inl rfl, le_rfl⟩
      · rintro ⟨e | mem, le⟩
        · exact e
        · have := falling.1 x mem
          omega
    · rename_i ne
      have mem' := (List.mem_cons.mp mem).resolve_left (Ne.symm ne)
      rw [List.mem_cons, List.mem_cons, ih falling.2 mem']
      apply Iff.intro
      · rintro (e | h)
        · subst e
          exact ⟨.inl rfl, (falling.1 v mem').le⟩
        · exact ⟨.inr h.1, h.2⟩
      · rintro ⟨e | mem, le⟩
        · exact .inl e
        · exact .inr ⟨mem, le⟩

theorem mem_below {rank : Nat → Nat} {v : Nat} {l : List Nat}
    (falling : l.Pairwise fun a b => rank b < rank a) (mem : v ∈ l) (x : Nat) :
    x ∈ l.drop (popped v l).length ↔ x ∈ l ∧ rank x < rank v := by
  have split := popped_append mem
  have ins := mem_popped falling mem
  have apart := (List.pairwise_append.mp (split ▸ falling)).2.2
  apply Iff.intro
  · intro hx
    apply And.intro (List.mem_of_mem_drop hx)
    exact apart v ((ins v).mpr ⟨mem, le_rfl⟩) x hx
  · rintro ⟨hx, lt⟩
    rw [split, List.mem_append] at hx
    apply hx.resolve_left
    intro hp
    have := (ins x).mp hp
    omega

theorem sublist_below {v : Nat} {l rest : List Nat} (sub : (v :: rest).Sublist l)
    (nodup : l.Nodup) : rest.Sublist (l.drop (popped v l).length) := by
  induction l with
  | nil => cases sub
  | cons w below ih =>
    rw [popped]
    split
    · rename_i eq
      subst eq
      exact List.cons_sublist_cons.mp sub
    · rename_i ne
      cases sub with
      | cons _ sub => exact ih sub nodup.of_cons
      | cons_cons _ _ => exact absurd rfl ne

section Leave

variable {v pos : Nat} {rest : List (Nat × Nat)}

structure Folds (s s' : Tarjan) (v : Nat) (rest : List (Nat × Nat)) : Prop where
  order : s'.order = s.order
  stack : s'.stack = s.stack
  onStack : s'.onStack = s.onStack
  next : s'.next = s.next
  found : s'.found = s.found
  enter : s'.enter = s.enter
  frames : s'.frames = rest
  low_parent : ∀ p ∈ (rest.map Prod.fst).head?, s'.low p = min (s.low p) (s.low v)
  low_ne : ∀ q, q ∉ (rest.map Prod.fst).head? → s'.low q = s.low q

theorem fold_folds : Folds s (s.fold v rest) v rest := by
  cases rest with
  | nil =>
    refine ⟨rfl, rfl, rfl, rfl, rfl, rfl, rfl, fun p none => ?_, fun _ _ => rfl⟩
    cases none
  | cons parent below =>
    refine ⟨rfl, rfl, rfl, rfl, rfl, rfl, rfl, fun p eq => ?_, fun q ne => ?_⟩
    · cases eq
      exact Function.update_self _ _ _
    · apply Function.update_of_ne
      intro eq
      exact ne (eq ▸ rfl)

namespace Folds

variable {s' : Tarjan} (f : Folds s s' v rest) (top : s.frames = (v, pos) :: rest)

include f in
theorem rank (x : Nat) : s'.rank x = s.rank x := by
  rw [Tarjan.rank, f.order]
  rfl

include f in
theorem gray : s'.gray = rest.map Prod.fst := by
  rw [Tarjan.gray, f.frames]

include f top in
theorem gray_iff (sh : Shape adj s) (q : Nat) : q ∈ s'.gray ↔ q ∈ s.gray ∧ q ≠ v := by
  have nodup := sh.nodup.sublist sh.framed
  rw [gray_frames top, List.nodup_cons] at nodup
  rw [f.gray, gray_frames top, List.mem_cons]
  apply Iff.intro
  · intro mem
    exact ⟨.inr mem, fun eq => nodup.1 (eq ▸ mem)⟩
  · rintro ⟨mem, ne⟩
    exact mem.resolve_left ne

include f in
theorem low_le (q : Nat) : s'.low q ≤ s.low q := by
  by_cases eq : q ∈ (rest.map Prod.fst).head?
  · rw [f.low_parent q eq]
    omega
  · rw [f.low_ne q eq]

theorem top_rank (sh : Shape adj s) (top : s.frames = (v, pos) :: rest) {q : Nat}
    (mem : q ∈ s.gray) : s.rank q ≤ s.rank v := by
  have sorted := sh.falling.sublist sh.framed
  rw [gray_frames top, List.pairwise_cons] at sorted
  rw [gray_frames top] at mem
  rcases List.mem_cons.mp mem with eq | mem
  · rw [eq]
  · exact (sorted.1 q mem).le

include f top in
theorem parent_rank (sh : Shape adj s) {p q : Nat} (parent : p ∈ (rest.map Prod.fst).head?)
    (mem : q ∈ s'.gray) : s.rank q ≤ s.rank p := by
  have sorted := sh.falling.sublist sh.framed
  rw [gray_frames top, List.pairwise_cons] at sorted
  rw [f.gray] at mem
  cases below : rest.map Prod.fst with
  | nil =>
    rw [below] at parent
    cases parent
  | cons p' others =>
    rw [below] at parent mem sorted
    cases parent
    rcases List.mem_cons.mp mem with eq | mem
    · rw [eq]
    · exact ((List.pairwise_cons.mp sorted.2).1 q mem).le

include f top in
theorem examined (all : (adj.outgoing v)[pos]? = none) {x y : Nat}
    (ex : Examined adj s' x y) : Examined adj s x y := by
  apply And.intro ex.1
  intro pos' held
  rw [top, List.mem_cons] at held
  rcases held with eq | held
  · cases eq
    obtain ⟨inc, mem, eq⟩ := ex.1
    rw [List.take_of_length_le (List.getElem?_eq_none_iff.mp all)]
    exact ⟨inc, mem, eq⟩
  · exact ex.2 pos' (f.frames.symm ▸ held)

theorem owner_top (sh : Shape adj s) (top : s.frames = (v, pos) :: rest) {q x : Nat}
    (own : s.Owner q x) (le : s.rank v ≤ s.rank x) : q = v := by
  have gv : v ∈ s.gray := by
    rw [gray_frames top]
    exact List.mem_cons_self
  apply sh.rank_inj (sh.gray_mem own.1) (sh.gray_mem gv)
  have := own.2.2 v gv le
  have := top_rank sh top own.1
  omega

include f top in
theorem owner_kept (sh : Shape adj s) {q x : Nat} (own : s.Owner q x) (ne : q ≠ v) :
    s'.Owner q x := by
  rw [Owner, f.rank, f.rank]
  apply And.intro ((f.gray_iff top sh q).mpr ⟨own.1, ne⟩)
  apply And.intro own.2.1
  intro r gray le
  rw [f.rank] at le ⊢
  exact own.2.2 r ((f.gray_iff top sh r).mp gray).1 le

include f top in
theorem shape (sh : Shape adj s) (still : s.enter = none) : Shape adj s' where
  numbered x some := by
    rw [f.order] at some
    rw [f.rank, f.next]
    exact sh.numbered x some
  falling := by
    rw [f.stack]
    apply sh.falling.imp
    intro a b lt
    rw [f.rank, f.rank]
    exact lt
  seen := by
    rw [f.stack, f.order]
    exact sh.seen
  onStack := by
    rw [f.stack, f.onStack]
    exact sh.onStack
  framed := by
    rw [f.gray, f.stack]
    have sub := sh.framed
    rw [gray_frames top] at sub
    exact (List.sublist_cons_self v _).trans sub
  pending w enter := by
    rw [f.enter, still] at enter
    cases enter

include f top in
/-- A frame whose lowlink is below its number hands its vertices to its parent. -/
theorem walk (sh : Shape adj s) (h : Walk adj s)
    (all : (adj.outgoing v)[pos]? = none) (lower : s.low v < s.rank v) : Walk adj s' := by
  have gv : v ∈ s.gray := by
    rw [gray_frames top]
    exact List.mem_cons_self
  obtain ⟨u, us, ru, _, way⟩ := h.low v gv
  obtain ⟨g, own, back, _⟩ := h.owned u us
  have gne : g ≠ v := by
    intro eq
    have := own.2.1
    rw [eq] at this
    omega
  have gg := (f.gray_iff top sh g).mpr ⟨own.1, gne⟩
  cases parent : (rest.map Prod.fst).head? with
  | none =>
    rw [f.gray, List.head?_eq_none_iff.mp parent] at gg
    cases gg
  | some p =>
    have gp : p ∈ s'.gray := by
      rw [f.gray]
      exact List.mem_of_mem_head? parent
    have gp' := (f.gray_iff top sh p).mp gp
    have pv : s.rank p < s.rank v := by
      apply lt_of_le_of_ne (top_rank sh top gp'.1)
      intro eq
      exact gp'.2 (sh.rank_inj (sh.gray_mem gp'.1) (sh.gray_mem gv) eq)
    have toParent : ReflTransGen adj.Arc v p :=
      (way.trans back).trans
        (h.above g own.1 p (sh.gray_mem gp'.1) (f.parent_rank top sh parent gg))
    exact {
      closed := by
        rw [f.order, f.stack]
        exact h.closed
      followed := by
        rw [f.order, f.stack, f.enter]
        intro x mem y ex
        exact h.followed x mem y (f.examined top all ex)
      above := by
        rw [f.stack]
        intro q gray x mem le
        rw [f.rank, f.rank] at le
        exact h.above q ((f.gray_iff top sh q).mp gray).1 x mem le
      low := by
        rw [f.stack]
        intro q gray
        rw [f.rank]
        have old := ((f.gray_iff top sh q).mp gray).1
        obtain ⟨u', us', ru', le, way'⟩ := h.low q old
        have lowQ := f.low_le q
        by_cases eq : q = p
        · subst eq
          have low := f.low_parent q parent
          rcases Nat.le_total (s.low q) (s.low v) with keep | new
          · exact ⟨u', us', by rw [f.rank]; omega, by omega, way'⟩
          · refine ⟨u, us, by rw [f.rank]; omega, by omega, ?_⟩
            exact (h.above q old v (sh.gray_mem gv) pv.le).trans way
        · have low := f.low_ne q (fun mem => eq (Option.some.inj (mem.symm.trans parent)))
          exact ⟨u', us', by rw [f.rank]; omega, by omega, way'⟩
      owned := by
        rw [f.stack]
        intro x mem
        obtain ⟨q, ownQ, wayQ, bound⟩ := h.owned x mem
        by_cases eq : q = v
        · subst eq
          apply Exists.intro p
          apply And.intro
          · rw [Owner, f.rank, f.rank]
            refine ⟨gp, pv.le.trans ownQ.2.1, fun r gray le => ?_⟩
            rw [f.rank]
            exact f.parent_rank top sh parent gray
          · apply And.intro (wayQ.trans toParent)
            intro y ys ex
            have := bound y ys (f.examined top all ex)
            have := f.low_parent p parent
            rw [f.rank]
            omega
        · apply Exists.intro q
          apply And.intro (f.owner_kept top sh ownQ eq)
          apply And.intro wayQ
          intro y ys ex
          have := bound y ys (f.examined top all ex)
          have := f.low_le q
          rw [f.rank]
          omega }

include f in
theorem foundKept (h : Found adj s) : Found adj s' where
  sound := by
    rw [f.found, f.order, f.stack]
    exact h.sound
  complete := by
    rw [f.found, f.order, f.stack]
    exact h.complete
  disjoint := by
    rw [f.found]
    exact h.disjoint

end Folds

/-! Closing the component at the top frame. -/

section Root

variable (sh : Shape adj s) (h : Walk adj s) (still : s.enter = none)
variable (top : s.frames = (v, pos) :: rest) (all : (adj.outgoing v)[pos]? = none)
variable (root : s.low v = s.rank v)

include top in
theorem top_gray : v ∈ s.gray := by
  rw [gray_frames top]
  exact List.mem_cons_self

include sh top in
theorem mem_members (x : Nat) : x ∈ popped v s.stack ↔ x ∈ s.stack ∧ s.rank v ≤ s.rank x :=
  mem_popped sh.falling (sh.gray_mem (top_gray top)) x

include sh top in
theorem mem_left (x : Nat) :
    x ∈ s.stack.drop (popped v s.stack).length ↔ x ∈ s.stack ∧ s.rank x < s.rank v :=
  mem_below sh.falling (sh.gray_mem (top_gray top)) x

include sh h still top all root in
/-- No edge leaves a root's vertices but to closed ones. -/
theorem members_leads {x : Nat} (mem : x ∈ popped v s.stack) {y : Nat} (arc : adj.Arc x y) :
    s.order y ≠ none ∧ (y ∈ popped v s.stack ∨ y ∉ s.stack) := by
  have hx := (mem_members sh top x).mp mem
  obtain ⟨q, own, _, bound⟩ := h.owned x hx.1
  obtain rfl := Folds.owner_top sh top own hx.2
  have ex : Examined adj s x y := by
    apply And.intro arc
    intro pos' held
    have gray : x ∈ s.gray := List.mem_map_of_mem held
    have eq : x = q := by
      apply sh.rank_inj hx.1 (sh.gray_mem own.1)
      have := Folds.top_rank sh top gray
      omega
    subst eq
    have nodup := sh.nodup.sublist sh.framed
    rw [gray_frames top, List.nodup_cons] at nodup
    rw [top, List.mem_cons] at held
    rcases held with e | held
    · cases e
      rw [List.take_of_length_le (List.getElem?_eq_none_iff.mp all)]
      exact arc
    · exact absurd (List.mem_map_of_mem held) nodup.1
  have some := h.followed x hx.1 y ex
  rw [still] at some
  apply And.intro (some.resolve_right (Option.some_ne_none y).symm)
  by_cases on : y ∈ s.stack
  · left
    have := bound y on ex
    exact (mem_members sh top y).mpr ⟨on, by omega⟩
  · exact .inr on

include sh h top in
theorem members_mutual {x : Nat} (mem : x ∈ popped v s.stack) : Mutual adj.Arc v x := by
  have hx := (mem_members sh top x).mp mem
  apply And.intro (h.above v (top_gray top) x hx.1 hx.2)
  obtain ⟨q, own, way, _⟩ := h.owned x hx.1
  rw [Folds.owner_top sh top own hx.2] at way
  exact way

include sh h still top all root in
theorem members_whole {x : Nat} (mem : x ∈ popped v s.stack) (y : Nat) :
    y ∈ popped v s.stack ↔ Mutual adj.Arc x y := by
  apply mem_iff_mutual (S := {x | x ∈ popped v s.stack})
    (D := {x | s.order x ≠ none ∧ x ∉ s.stack}) (v := v) _ _ _ _ mem
  · intro x mem out
    exact out.2 ((mem_members sh top x).mp mem).1
  · intro x out y arc
    exact h.closed x out.1 out.2 y arc
  · intro x mem y arc
    have := members_leads sh h still top all root mem arc
    rcases this.2 with inside | out
    · exact .inl inside
    · exact .inr ⟨this.1, out⟩
  · intro x mem
    exact members_mutual sh h top mem

include sh h still top all root in
/-- The test of a component's size finds exactly the cyclic ones. -/
theorem nontrivial_iff :
    (decide (2 ≤ (popped v s.stack).length) || (adj.outgoing v).any fun inc => inc.other == v) =
      true ↔ OnCycle adj.Arc v := by
  have hv : v ∈ popped v s.stack :=
    (mem_members sh top v).mpr ⟨sh.gray_mem (top_gray top), le_rfl⟩
  have nodup : (popped v s.stack).Nodup := by
    have all := sh.nodup
    rw [popped_append (sh.gray_mem (top_gray top))] at all
    exact all.of_append_left
  rw [Bool.or_eq_true, decide_eq_true_iff, List.any_eq_true, onCycle_iff]
  apply Iff.intro
  · intro either
    rcases either with two | ⟨inc, mem, eq⟩
    · right
      obtain ⟨w, hw, ne⟩ : ∃ w ∈ popped v s.stack, w ≠ v := by
        by_contra none
        push Not at none
        have short : (popped v s.stack).length ≤ [v].length :=
          (List.subperm_of_subset nodup fun w hw => List.mem_singleton.mpr (none w hw)).length_le
        rw [List.length_singleton] at short
        omega
      exact ⟨w, ne, members_mutual sh h top hw⟩
    · left
      exact ⟨inc, mem, of_decide_eq_true eq⟩
  · intro either
    rcases either with ⟨inc, mem, eq⟩ | ⟨w, ne, m⟩
    · right
      exact ⟨inc, mem, decide_eq_true eq⟩
    · left
      have hw := (members_whole sh h still top all root hv w).mpr m
      have pair : [v, w].length ≤ (popped v s.stack).length := by
        apply (List.subperm_of_subset _ _).length_le
        · rw [List.nodup_cons, List.mem_singleton]
          exact ⟨ne.symm, List.nodup_singleton w⟩
        · intro x mem
          rcases List.mem_cons.mp mem with eq | mem
          · rw [eq]
            exact hv
          · rw [List.mem_singleton.mp mem]
            exact hw
      exact pair

structure Closes (adj : Adjacency) (s s' : Tarjan) (v : Nat) (rest : List (Nat × Nat)) :
    Prop where
  order : s'.order = s.order
  stack : s'.stack = s.stack.drop (popped v s.stack).length
  onStack : ∀ w, s'.onStack w = (s.onStack w && !(popped v s.stack).contains w)
  next : s'.next = s.next
  found : s'.found =
    if decide (2 ≤ (popped v s.stack).length) || (adj.outgoing v).any fun inc => inc.other == v
    then s.found ++ [((popped v s.stack).map adj.id).insertionSort (· ≤ ·)] else s.found
  enter : s'.enter = s.enter
  frames : s'.frames = rest
  low : ∀ q, s'.low q = (s.fold v rest).low q

theorem close_closes : Closes adj s ((s.fold v rest).close adj v) v rest := by
  have f : Folds s (s.fold v rest) v rest := fold_folds
  rw [close]
  rw [f.stack, f.onStack, f.found]
  exact ⟨f.order, rfl, fun _ => rfl, f.next, rfl, f.enter, f.frames, fun _ => rfl⟩

namespace Closes

variable {s' : Tarjan} (c : Closes adj s s' v rest)

include c in
theorem rank (x : Nat) : s'.rank x = s.rank x := by
  rw [Tarjan.rank, c.order]
  rfl

include c sh top in
theorem mem_stack (x : Nat) : x ∈ s'.stack ↔ x ∈ s.stack ∧ s.rank x < s.rank v := by
  rw [c.stack]
  exact mem_left sh top x

include c sh top in
theorem gray_iff (q : Nat) : q ∈ s'.gray ↔ q ∈ s.gray ∧ q ≠ v := by
  have f : Folds s (s.fold v rest) v rest := fold_folds
  rw [← f.gray_iff top sh, f.gray, Tarjan.gray, c.frames]

include c sh still top in
theorem shape : Shape adj s' where
  numbered x some := by
    rw [c.order] at some
    rw [c.rank, c.next]
    exact sh.numbered x some
  falling := by
    rw [c.stack]
    apply (sh.falling.sublist (List.drop_sublist _ _)).imp
    intro a b lt
    rw [c.rank, c.rank]
    exact lt
  seen x mem := by
    rw [c.order]
    exact sh.seen x ((c.mem_stack sh top x).mp mem).1
  onStack x := by
    rw [c.onStack, c.mem_stack sh top, Bool.and_eq_true, sh.onStack, Bool.not_eq_true',
      ← Bool.not_eq_true, List.contains_iff_mem, mem_members sh top]
    apply and_congr_right
    intro mem
    rw [not_and, Nat.not_le]
    exact ⟨fun lt => lt mem, fun lt _ => lt⟩
  framed := by
    rw [Tarjan.gray, c.frames, c.stack]
    apply sublist_below _ sh.nodup
    rw [← gray_frames top]
    exact sh.framed
  pending w enter := by
    rw [c.enter, still] at enter
    cases enter

include c sh top in
theorem examined {x y : Nat} (mem : x ∈ s'.stack) (ex : Examined adj s' x y) :
    Examined adj s x y := by
  apply And.intro ex.1
  intro pos' held
  apply ex.2 pos'
  rw [top, List.mem_cons] at held
  rw [c.frames]
  apply held.resolve_left
  intro eq
  have same : x = v := (Prod.mk.inj eq).1
  have := ((c.mem_stack sh top x).mp mem).2
  rw [same] at this
  omega

include c sh h still top all root in
theorem walk : Walk adj s' where
  closed := by
    rw [c.order]
    intro x some out y arc
    rw [c.mem_stack sh top] at out ⊢
    by_cases on : x ∈ s.stack
    · have mem : x ∈ popped v s.stack :=
        (mem_members sh top x).mpr ⟨on, Nat.not_lt.mp fun lt => out ⟨on, lt⟩⟩
      have leads := members_leads sh h still top all root mem arc
      apply And.intro leads.1
      intro below
      rcases leads.2 with inside | apart
      · have := ((mem_members sh top y).mp inside).2
        omega
      · exact apart below.1
    · have old := h.closed x some on y arc
      exact ⟨old.1, fun below => old.2 below.1⟩
  followed x mem y ex := by
    rw [c.order, c.enter]
    exact h.followed x ((c.mem_stack sh top x).mp mem).1 y (c.examined sh top mem ex)
  above q gray x mem le := by
    rw [c.rank, c.rank] at le
    exact h.above q ((c.gray_iff sh top q).mp gray).1 x ((c.mem_stack sh top x).mp mem).1 le
  low q gray := by
    have old := (c.gray_iff sh top q).mp gray
    obtain ⟨u, us, eq, le, way⟩ := h.low q old.1
    have f : Folds s (s.fold v rest) v rest := fold_folds
    have lt : s.rank q < s.rank v := by
      apply lt_of_le_of_ne (Folds.top_rank sh top old.1)
      intro e
      exact old.2 (sh.rank_inj (sh.gray_mem old.1) (sh.gray_mem (top_gray top)) e)
    have keep : s'.low q = s.low q := by
      rw [c.low]
      by_cases parent : q ∈ (rest.map Prod.fst).head?
      · rw [f.low_parent q parent]
        omega
      · exact f.low_ne q parent
    refine ⟨u, (c.mem_stack sh top u).mpr ⟨us, by omega⟩, ?_, ?_, way⟩
    · rw [c.rank, keep, eq]
    · rw [c.rank, keep]
      exact le
  owned x mem := by
    have hx := (c.mem_stack sh top x).mp mem
    obtain ⟨q, own, way, bound⟩ := h.owned x hx.1
    have ne : q ≠ v := by
      intro eq
      have := own.2.1
      rw [eq] at this
      omega
    apply Exists.intro q
    apply And.intro
    · rw [Owner, c.rank, c.rank]
      refine ⟨(c.gray_iff sh top q).mpr ⟨own.1, ne⟩, own.2.1, fun r gray le => ?_⟩
      rw [c.rank] at le ⊢
      exact own.2.2 r ((c.gray_iff sh top r).mp gray).1 le
    · apply And.intro way
      intro y ys ex
      have f : Folds s (s.fold v rest) v rest := fold_folds
      have := bound y ((c.mem_stack sh top y).mp ys).1 (c.examined sh top mem ex)
      have := f.low_le q
      rw [c.low, c.rank]
      omega

include c sh h still top all root in
theorem foundGrown (found : Found adj s) : Found adj s' := by
  have hv : v ∈ popped v s.stack :=
    (mem_members sh top v).mpr ⟨sh.gray_mem (top_gray top), le_rfl⟩
  have split := popped_append (sh.gray_mem (top_gray top))
  have out : ∀ x ∈ popped v s.stack, s.order x ≠ none ∧ x ∉ s'.stack := by
    intro x mem
    have hx := (mem_members sh top x).mp mem
    apply And.intro (sh.seen x hx.1)
    rw [c.mem_stack sh top]
    intro below
    omega
  have old : ∀ cs ∈ s.found, ∃ members, IsComponent adj members ∧
      cs = (members.map adj.id).insertionSort (· ≤ ·) ∧
      ∀ x ∈ members, s.order x ≠ none ∧ x ∉ s'.stack := by
    intro cs mem
    obtain ⟨members, comp, eq, apart⟩ := found.sound cs mem
    refine ⟨members, comp, eq, fun x hx => ⟨(apart x hx).1, ?_⟩⟩
    rw [c.mem_stack sh top]
    intro below
    exact (apart x hx).2 below.1
  have inside : ∀ x, s.order x ≠ none → x ∉ s'.stack → x ∈ s.stack → x ∈ popped v s.stack := by
    intro x _ apart on
    rw [c.mem_stack sh top] at apart
    exact (mem_members sh top x).mpr ⟨on, Nat.not_lt.mp fun lt => apart ⟨on, lt⟩⟩
  have test := nontrivial_iff sh h still top all root
  by_cases cyc : OnCycle adj.Arc v
  · have grown := c.found
    rw [if_pos (test.mpr cyc)] at grown
    have comp : IsComponent adj (popped v s.stack) := {
      nodup := (split ▸ sh.nodup).of_append_left
      nonempty := List.ne_nil_of_mem hv
      cyclic := fun x mem => cyc.mutual (members_mutual sh h top mem)
      whole := fun x mem => members_whole sh h still top all root mem }
    exact {
      sound := by
        rw [grown, c.order]
        intro cs mem
        rcases List.mem_append.mp mem with mem | mem
        · exact old cs mem
        · exact ⟨_, comp, List.mem_singleton.mp mem, out⟩
      complete := by
        rw [grown, c.order]
        intro x some apart cycX
        by_cases on : x ∈ s.stack
        · refine ⟨_, List.mem_append_right _ (List.mem_singleton_self _), ?_⟩
          rw [List.mem_insertionSort]
          exact List.mem_map_of_mem (inside x some apart on)
        · obtain ⟨cs, mem, held⟩ := found.complete x some on cycX
          exact ⟨cs, List.mem_append_left _ mem, held⟩
      disjoint := by
        rw [grown, List.pairwise_append]
        refine ⟨found.disjoint, List.pairwise_singleton _ _, fun cs mem new hn => ?_⟩
        rw [List.mem_singleton.mp hn]
        obtain ⟨members, _, rfl, apart⟩ := found.sound cs mem
        intro id hi hj
        rw [List.mem_insertionSort, List.mem_map] at hi hj
        obtain ⟨x, hx, rfl⟩ := hi
        obtain ⟨y, hy, eq⟩ := hj
        have ys := ((mem_members sh top y).mp hy).1
        have same : y = x := adj.id_injective (sh.numbered y (sh.seen y ys)).1
          (sh.numbered x (apart x hx).1).1 eq
        exact (apart x hx).2 (same ▸ ys) }
  · have grown := c.found
    rw [if_neg fun pass => cyc (test.mp pass)] at grown
    exact {
      sound := by
        rw [grown, c.order]
        exact old
      complete := by
        rw [grown, c.order]
        intro x some apart cycX
        apply found.complete x some _ cycX
        intro on
        exact cyc (cycX.mutual (members_mutual sh h top (inside x some apart on)).symm)
      disjoint := by
        rw [grown]
        exact found.disjoint }

end Closes

end Root

theorem Inv.leave (h : Inv adj s) (still : s.enter = none) (top : s.frames = (v, pos) :: rest)
    (all : (adj.outgoing v)[pos]? = none) : Inv adj (s.leave adj v rest) := by
  have gv := top_gray top
  have f : Folds s (s.fold v rest) v rest := fold_folds
  have low : (s.fold v rest).low v = s.low v := by
    apply f.low_ne
    intro parent
    have nodup := h.shape.nodup.sublist h.shape.framed
    rw [gray_frames top, List.nodup_cons] at nodup
    exact nodup.1 (List.mem_of_mem_head? parent)
  obtain ⟨o, number⟩ := Option.ne_none_iff_exists'.mp (h.shape.seen v (h.shape.gray_mem gv))
  rw [Tarjan.leave]
  rw [low, f.order, number]
  split
  · rename_i eq
    have root : s.low v = s.rank v := by
      rw [rank_eq number]
      exact Option.some.inj eq
    have c : Closes adj s ((s.fold v rest).close adj v) v rest := close_closes
    exact ⟨c.shape h.shape still top, c.walk h.shape h.walk still top all root,
      c.foundGrown h.shape h.walk still top all root h.found⟩
  · rename_i ne
    have lower : s.low v < s.rank v := by
      obtain ⟨_, _, _, le, _⟩ := h.walk.low v gv
      apply lt_of_le_of_ne le
      intro eq
      rw [rank_eq number] at eq
      exact ne (congrArg some eq)
    exact ⟨f.shape top h.shape still, f.walk top h.shape h.walk all lower, f.foundKept h.found⟩

end Leave

/-- One turn keeps the invariant, and ends the loop only with no frame open. -/
theorem Inv.turn (h : Inv adj s) :
    (∀ s', s.turn adj = some s' → Inv adj s') ∧
      (s.turn adj = none → s.frames = [] ∧ s.enter = none) := by
  obtain ⟨open_, still⟩ := h.opened
  rw [Tarjan.turn]
  cases top : s.opened.frames with
  | nil =>
    apply And.intro
    · intro s' some
      cases some
    · intro _
      rw [Tarjan.opened] at top
      cases enter : s.enter with
      | none =>
        rw [enter] at top
        exact ⟨top, rfl⟩
      | some w =>
        rw [enter] at top
        cases top
  | cons frame rest =>
    obtain ⟨v, pos⟩ := frame
    dsimp only
    cases at_ : (adj.outgoing v)[pos]? with
    | some inc =>
      apply And.intro
      · intro s' some
        cases some
        exact open_.examine still top at_
      · intro none
        cases none
    | none =>
      apply And.intro
      · intro s' some
        cases some
        exact open_.leave still top at_
      · intro none
        cases none

end Glia.Algo.Tarjan
