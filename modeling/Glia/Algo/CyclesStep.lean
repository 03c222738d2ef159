import Glia.Kit.Components
import Glia.Algo.Cycles

/-! What every turn of the component search keeps: the stack is the open components, each
below the frame that owns it. -/
namespace Glia.Algo

open Relation Glia.Kit

/-- Some kept edge leads from `u` to `w`. -/
def Adjacency.Arc (adj : Adjacency) (u w : Nat) : Prop := ∃ inc ∈ adj.outgoing u, inc.other = w

structure IsComponent (adj : Adjacency) (members : List Nat) : Prop where
  nodup : members.Nodup
  nonempty : members ≠ []
  cyclic : ∀ x ∈ members, OnCycle adj.Arc x
  whole : ∀ x ∈ members, ∀ y, y ∈ members ↔ Mutual adj.Arc x y

theorem Adjacency.Arc.lt {adj : Adjacency} {u w : Nat} (h : adj.Arc u w) :
    u < adj.len ∧ w < adj.len := by
  obtain ⟨inc, mem, rfl⟩ := h
  exact adj.outgoing_lt mem

namespace Tarjan

def rank (s : Tarjan) (v : Nat) : Nat := (s.order v).getD 0

def gray (s : Tarjan) : List Nat := s.frames.map Prod.fst

def Examined (adj : Adjacency) (s : Tarjan) (x w : Nat) : Prop :=
  adj.Arc x w ∧ ∀ pos, (x, pos) ∈ s.frames → ∃ inc ∈ (adj.outgoing x).take pos, inc.other = w

/-- `v` is the nearest open frame at or below `x`. -/
def Owner (s : Tarjan) (v x : Nat) : Prop :=
  v ∈ s.gray ∧ s.rank v ≤ s.rank x ∧ ∀ q ∈ s.gray, s.rank q ≤ s.rank x → s.rank q ≤ s.rank v

structure Shape (adj : Adjacency) (s : Tarjan) : Prop where
  numbered : ∀ v, s.order v ≠ none → v < adj.len ∧ s.rank v < s.next
  falling : s.stack.Pairwise fun a b => s.rank b < s.rank a
  seen : ∀ v ∈ s.stack, s.order v ≠ none
  onStack : ∀ v, s.onStack v = true ↔ v ∈ s.stack
  framed : s.gray.Sublist s.stack
  pending : ∀ w, s.enter = some w →
    w < adj.len ∧ s.order w = none ∧ ∀ t ∈ s.gray.head?, adj.Arc t w

/-- How the stack hangs together: closed vertices lead to closed ones, a frame reaches all above
it, and each vertex reaches the frame that owns it, whose lowlink bounds its edges. -/
structure Walk (adj : Adjacency) (s : Tarjan) : Prop where
  closed : ∀ v, s.order v ≠ none → v ∉ s.stack → ∀ w, adj.Arc v w →
    s.order w ≠ none ∧ w ∉ s.stack
  followed : ∀ x ∈ s.stack, ∀ w, Examined adj s x w → s.order w ≠ none ∨ s.enter = some w
  above : ∀ v ∈ s.gray, ∀ x ∈ s.stack, s.rank v ≤ s.rank x → ReflTransGen adj.Arc v x
  low : ∀ v ∈ s.gray, ∃ u ∈ s.stack, s.rank u = s.low v ∧ s.low v ≤ s.rank v ∧
    ReflTransGen adj.Arc v u
  owned : ∀ x ∈ s.stack, ∃ v, s.Owner v x ∧ ReflTransGen adj.Arc x v ∧
    ∀ w ∈ s.stack, Examined adj s x w → s.low v ≤ s.rank w

structure Found (adj : Adjacency) (s : Tarjan) : Prop where
  sound : ∀ c ∈ s.found, ∃ members, IsComponent adj members ∧
    c = (members.map adj.id).insertionSort (· ≤ ·) ∧
    ∀ x ∈ members, s.order x ≠ none ∧ x ∉ s.stack
  complete : ∀ v, s.order v ≠ none → v ∉ s.stack → OnCycle adj.Arc v →
    ∃ c ∈ s.found, adj.id v ∈ c
  disjoint : s.found.Pairwise List.Disjoint

structure Inv (adj : Adjacency) (s : Tarjan) : Prop where
  shape : Shape adj s
  walk : Walk adj s
  found : Found adj s

variable {adj : Adjacency} {s : Tarjan}

theorem rank_eq {v o : Nat} (h : s.order v = some o) : s.rank v = o := by
  rw [rank, h]
  rfl

namespace Shape

theorem rank_inj (h : Shape adj s) {u v : Nat} (hu : u ∈ s.stack) (hv : v ∈ s.stack)
    (eq : s.rank u = s.rank v) : u = v := by
  apply List.inj_on_of_nodup_map _ hu hv eq
  exact List.pairwise_map.mpr (h.falling.imp fun lt => by omega)

theorem gray_mem (h : Shape adj s) {v : Nat} (mem : v ∈ s.gray) : v ∈ s.stack :=
  h.framed.subset mem

theorem nodup (h : Shape adj s) : s.stack.Nodup :=
  h.falling.imp fun lt eq => by
    subst eq
    omega

end Shape

theorem owner_self {v : Nat} (mem : v ∈ s.gray) : s.Owner v v := ⟨mem, le_rfl, fun _ _ le => le⟩

theorem gray_frames {v pos : Nat} {rest : List (Nat × Nat)} (h : s.frames = (v, pos) :: rest) :
    s.gray = v :: rest.map Prod.fst := by
  rw [gray, h]
  rfl

/-! Opening the pending vertex. -/

section Open

variable {w : Nat}

theorem open_order (v : Nat) :
    (s.open' w).order v = if v = w then some s.next else s.order v := by
  rw [open']
  exact Function.update_apply s.order w (some s.next) v

theorem open_rank (v : Nat) : (s.open' w).rank v = if v = w then s.next else s.rank v := by
  rw [rank, open_order]
  split
  · rfl
  · rfl

theorem open_low (v : Nat) : (s.open' w).low v = if v = w then s.next else s.low v :=
  Function.update_apply s.low w s.next v

theorem open_gray : (s.open' w).gray = w :: s.gray := rfl

theorem open_stack : (s.open' w).stack = w :: s.stack := rfl

theorem Shape.fresh (h : Shape adj s) (pend : s.enter = some w) {v : Nat} (mem : v ∈ s.stack) :
    v ≠ w := by
  intro eq
  exact h.seen v mem (eq ▸ (h.pending w pend).2.1)

theorem open_rank_old (h : Shape adj s) (pend : s.enter = some w) {v : Nat} (mem : v ∈ s.stack) :
    (s.open' w).rank v = s.rank v ∧ s.rank v < s.next := by
  rw [open_rank, if_neg (h.fresh pend mem)]
  exact ⟨rfl, (h.numbered v (h.seen v mem)).2⟩

theorem Shape.open' (h : Shape adj s) (pend : s.enter = some w) : Shape adj (s.open' w) where
  numbered v some := by
    rw [open_order] at some
    rw [open_rank]
    change _ ∧ _ < s.next + 1
    split at some
    · rename_i eq
      rw [if_pos eq, eq]
      exact ⟨(h.pending w pend).1, by omega⟩
    · rename_i ne
      rw [if_neg ne]
      have := h.numbered v some
      omega
  falling := by
    rw [open_stack, List.pairwise_cons]
    apply And.intro
    · intro b mem
      rw [(open_rank_old h pend mem).1, open_rank, if_pos rfl]
      exact (open_rank_old h pend mem).2
    · apply h.falling.imp_of_mem
      intro a b ha hb lt
      rw [(open_rank_old h pend ha).1, (open_rank_old h pend hb).1]
      exact lt
  seen v mem := by
    rw [open_order]
    split
    · exact Option.some_ne_none _
    · rename_i ne
      exact h.seen v ((List.mem_cons.mp mem).resolve_left ne)
  onStack v := by
    rw [open_stack, List.mem_cons, ← h.onStack]
    change Function.update s.onStack w true v = true ↔ _
    rw [Function.update_apply]
    split
    · rename_i eq
      simp [eq]
    · rename_i ne
      simp [ne]
  framed := by
    rw [open_gray, open_stack]
    exact h.framed.cons_cons w
  pending := by
    intro v none
    cases none

theorem examined_open {x y : Nat}
    (mem : x ∈ (s.open' w).stack) (ex : Examined adj (s.open' w) x y) :
    x ∈ s.stack ∧ Examined adj s x y := by
  have ne : x ≠ w := by
    intro eq
    obtain ⟨inc, none, _⟩ := ex.2 0 (List.mem_cons.mpr (.inl (by rw [eq])))
    exact absurd none (List.not_mem_nil)
  apply And.intro ((List.mem_cons.mp mem).resolve_left ne)
  exact ⟨ex.1, fun pos at_ => ex.2 pos (List.mem_cons_of_mem _ at_)⟩

theorem Walk.open' (shape : Shape adj s) (h : Walk adj s) (pend : s.enter = some w) :
    Walk adj (s.open' w) := by
  have reach : ∀ v ∈ s.gray, ReflTransGen adj.Arc v w := by
    intro v mem
    cases top : s.gray with
    | nil =>
      rw [top] at mem
      cases mem
    | cons t below =>
      have tm : t ∈ s.gray := by
        rw [top]
        exact List.mem_cons_self
      have arc := (shape.pending w pend).2.2 t (by rw [top]; rfl)
      apply (h.above v mem t (shape.gray_mem tm) _).tail arc
      have sorted := shape.falling.sublist shape.framed
      rw [top, List.pairwise_cons] at sorted
      rw [top] at mem
      rcases List.mem_cons.mp mem with eq | mem
      · rw [eq]
      · exact (sorted.1 v mem).le
  exact {
    closed := by
      intro v some out x arc
      rw [open_order] at some
      rw [open_stack, List.mem_cons, not_or] at out
      rw [if_neg out.1] at some
      have old := h.closed v some out.2 x arc
      have ne : x ≠ w := by
        intro eq
        exact old.1 (eq ▸ (shape.pending w pend).2.1)
      rw [open_order, if_neg ne, open_stack, List.mem_cons, not_or]
      exact ⟨old.1, ne, old.2⟩
    followed := by
      intro x mem y ex
      have old := examined_open mem ex
      left
      rw [open_order]
      split
      · exact Option.some_ne_none _
      · rename_i ne
        rcases h.followed x old.1 y old.2 with some | enter
        · exact some
        · rw [pend] at enter
          exact absurd (Option.some.inj enter).symm ne
    above := by
      intro v gray x mem le
      rw [open_gray, List.mem_cons] at gray
      rw [open_stack, List.mem_cons] at mem
      rcases gray with rfl | gray
      · rcases mem with rfl | mem
        · exact .refl
        · have := open_rank_old shape pend mem
          rw [open_rank, if_pos rfl] at le
          omega
      · rcases mem with rfl | mem
        · exact reach v gray
        · apply h.above v gray x mem
          rw [← (open_rank_old shape pend mem).1,
            ← (open_rank_old shape pend (shape.gray_mem gray)).1]
          exact le
    low := by
      intro v gray
      rw [open_gray, List.mem_cons] at gray
      rcases gray with rfl | gray
      · apply Exists.intro v
        rw [open_rank, if_pos rfl, open_low, if_pos rfl]
        exact ⟨List.mem_cons_self, rfl, le_rfl, .refl⟩
      · obtain ⟨u, mem, eq, le, way⟩ := h.low v gray
        have vs := shape.gray_mem gray
        apply Exists.intro u
        rw [open_low, if_neg (shape.fresh pend vs), (open_rank_old shape pend mem).1,
          (open_rank_old shape pend vs).1]
        exact ⟨List.mem_cons_of_mem _ mem, eq, le, way⟩
    owned := by
      intro x mem
      rw [open_stack, List.mem_cons] at mem
      rcases mem with rfl | mem
      · apply Exists.intro x
        apply And.intro (owner_self List.mem_cons_self)
        apply And.intro .refl
        intro y _ ex
        exact absurd rfl (shape.fresh pend (examined_open List.mem_cons_self ex).1)
      · obtain ⟨v, own, way, bound⟩ := h.owned x mem
        have vs := shape.gray_mem own.1
        have rx := open_rank_old shape pend mem
        have rv := open_rank_old shape pend vs
        apply Exists.intro v
        apply And.intro
        · apply And.intro (List.mem_cons_of_mem _ own.1)
          rw [rx.1, rv.1]
          apply And.intro own.2.1
          intro q gray le
          rcases List.mem_cons.mp gray with rfl | gray
          · rw [open_rank, if_pos rfl] at le
            omega
          · rw [(open_rank_old shape pend (shape.gray_mem gray)).1] at le ⊢
            exact own.2.2 q gray le
        · apply And.intro way
          intro y ys ex
          rw [open_low, if_neg (shape.fresh pend vs)]
          have old := examined_open (List.mem_cons_of_mem _ mem) ex
          rw [open_stack, List.mem_cons] at ys
          rcases ys with rfl | ys
          · rw [open_rank, if_pos rfl]
            obtain ⟨u, us, eq, le, _⟩ := h.low v own.1
            omega
          · rw [(open_rank_old shape pend ys).1]
            exact bound y ys old.2 }

theorem Found.open' (shape : Shape adj s) (h : Found adj s) (pend : s.enter = some w) :
    Found adj (s.open' w) where
  sound c mem := by
    obtain ⟨members, comp, eq, out⟩ := h.sound c mem
    refine ⟨members, comp, eq, fun x hx => ?_⟩
    have old := out x hx
    have ne : x ≠ w := by
      intro e
      exact old.1 (e ▸ (shape.pending w pend).2.1)
    rw [open_order, if_neg ne, open_stack, List.mem_cons, not_or]
    exact ⟨old.1, ne, old.2⟩
  complete v some out cyc := by
    rw [open_stack, List.mem_cons, not_or] at out
    rw [open_order, if_neg out.1] at some
    exact h.complete v some out.2 cyc
  disjoint := h.disjoint

theorem Inv.opened (h : Inv adj s) : Inv adj s.opened ∧ s.opened.enter = none := by
  rw [Tarjan.opened]
  cases pend : s.enter with
  | none => exact ⟨h, pend⟩
  | some w =>
    exact ⟨⟨h.shape.open' pend, h.walk.open' h.shape pend, h.found.open' h.shape pend⟩, rfl⟩

end Open

/-! Examining one more edge of the top frame. -/

section Examine

variable {v pos : Nat} {rest : List (Nat × Nat)} {inc : Inc}

/-- What examining an edge may change: the top frame's position and lowlink, and the vertex to
enter. -/
structure Examines (s s' : Tarjan) (v pos : Nat) (rest : List (Nat × Nat)) (inc : Inc) :
    Prop where
  order : s'.order = s.order
  stack : s'.stack = s.stack
  onStack : s'.onStack = s.onStack
  next : s'.next = s.next
  found : s'.found = s.found
  frames : s'.frames = (v, pos + 1) :: rest
  low_ne : ∀ q, q ≠ v → s'.low q = s.low q
  low_le : s'.low v ≤ s.low v
  low_from : s'.low v = s.low v ∨ inc.other ∈ s.stack ∧ s'.low v = s.rank inc.other
  low_edge : inc.other ∈ s.stack → s'.low v ≤ s.rank inc.other
  enter : s'.enter = if s.order inc.other = none then some inc.other else none

theorem examine_examines (shape : Shape adj s) (still : s.enter = none) :
    Examines s (s.examine v pos rest inc) v pos rest inc := by
  rw [examine]
  dsimp only
  cases target : s.order inc.other with
  | none =>
    have out : inc.other ∉ s.stack := fun mem => shape.seen _ mem target
    exact ⟨rfl, rfl, rfl, rfl, rfl, rfl, fun _ _ => rfl, le_rfl, .inl rfl,
      fun mem => absurd mem out, by rw [if_pos target]⟩
  | some o =>
    have ro : s.rank inc.other = o := rank_eq target
    have seen : s.order inc.other ≠ none := by
      rw [target]
      exact Option.some_ne_none o
    dsimp only
    split
    · rename_i mem
      rw [shape.onStack] at mem
      have low : Function.update s.low v (min (s.low v) o) v = min (s.low v) o :=
        Function.update_self v _ s.low
      refine ⟨rfl, rfl, rfl, rfl, rfl, rfl, fun q ne => Function.update_of_ne ne _ _, ?_, ?_, ?_,
        by rw [if_neg seen]; exact still⟩
      · dsimp only
        rw [low]
        omega
      · dsimp only
        rw [low, ro]
        rcases Nat.le_total (s.low v) o with le | le
        · left
          omega
        · right
          exact ⟨mem, by omega⟩
      · intro _
        dsimp only
        rw [low, ro]
        omega
    · rename_i out
      rw [shape.onStack] at out
      exact ⟨rfl, rfl, rfl, rfl, rfl, rfl, fun _ _ => rfl, le_rfl, .inl rfl,
        fun mem => absurd mem out, by rw [if_neg seen]; exact still⟩

namespace Examines

variable {s' : Tarjan} (e : Examines s s' v pos rest inc) (top : s.frames = (v, pos) :: rest)

include e in
theorem rank (x : Nat) : s'.rank x = s.rank x := by
  rw [Tarjan.rank, e.order]
  rfl

include e top in
theorem gray : s'.gray = s.gray := by
  rw [Tarjan.gray, e.frames, Tarjan.gray, top]
  rfl

include e top in
theorem owner {q x : Nat} (own : s.Owner q x) : s'.Owner q x := by
  rw [Owner, e.gray top, e.rank, e.rank]
  apply And.intro own.1
  apply And.intro own.2.1
  intro r gray le
  rw [e.rank] at le ⊢
  exact own.2.2 r gray le

include e top in
theorem examined (shape : Shape adj s) (at_ : (adj.outgoing v)[pos]? = some inc) {x y : Nat}
    (ex : Examined adj s' x y) : Examined adj s x y ∨ x = v ∧ y = inc.other := by
  by_cases eq : x = v
  · subst eq
    obtain ⟨i, mem, rfl⟩ := ex.2 (pos + 1) (by rw [e.frames]; exact List.mem_cons_self)
    rw [List.take_add_one, at_] at mem
    rcases List.mem_append.mp mem with mem | mem
    · left
      apply And.intro ex.1
      intro pos' held
      have only : pos' = pos := by
        rw [top] at held
        rcases List.mem_cons.mp held with eq | held
        · exact (Prod.mk.inj eq).2
        · have nodup := shape.nodup.sublist shape.framed
          rw [gray_frames top, List.nodup_cons] at nodup
          exact absurd (List.mem_map_of_mem held) nodup.1
      subst only
      exact ⟨i, mem, rfl⟩
    · right
      rw [List.mem_singleton.mp mem]
      exact ⟨rfl, rfl⟩
  · left
    apply And.intro ex.1
    intro pos' held
    apply ex.2 pos'
    rw [top, List.mem_cons] at held
    rw [e.frames, List.mem_cons]
    right
    apply held.resolve_left
    intro eq'
    exact eq (Prod.mk.inj eq').1

include e top in
theorem shape (h : Shape adj s) (at_ : (adj.outgoing v)[pos]? = some inc) : Shape adj s' where
  numbered x some := by
    rw [e.order] at some
    rw [e.rank, e.next]
    exact h.numbered x some
  falling := by
    rw [e.stack]
    apply h.falling.imp
    intro a b lt
    rw [e.rank, e.rank]
    exact lt
  seen := by
    rw [e.stack, e.order]
    exact h.seen
  onStack := by
    rw [e.stack, e.onStack]
    exact h.onStack
  framed := by
    rw [e.gray top, e.stack]
    exact h.framed
  pending w enter := by
    rw [e.enter] at enter
    split at enter
    · rename_i fresh
      cases enter
      have arc : adj.Arc v inc.other := ⟨inc, List.mem_of_getElem? at_, rfl⟩
      rw [e.order, e.gray top, gray_frames top]
      refine ⟨arc.lt.2, fresh, fun t eq => ?_⟩
      cases eq
      exact arc
    · cases enter

include e top in
theorem walk (sh : Shape adj s) (h : Walk adj s) (still : s.enter = none)
    (at_ : (adj.outgoing v)[pos]? = some inc) : Walk adj s' where
  closed := by
    rw [e.order, e.stack]
    exact h.closed
  followed := by
    rw [e.order, e.stack, e.enter]
    intro x mem y ex
    rcases e.examined top sh at_ ex with ex | ⟨rfl, rfl⟩
    · left
      apply (h.followed x mem y ex).resolve_right
      rw [still]
      exact (Option.some_ne_none y).symm
    · split
      · exact .inr rfl
      · exact .inl ‹_›
  above := by
    rw [e.gray top, e.stack]
    intro q gray x mem le
    rw [e.rank, e.rank] at le
    exact h.above q gray x mem le
  low := by
    rw [e.gray top, e.stack]
    intro q gray
    obtain ⟨u, mem, eq, le, way⟩ := h.low q gray
    by_cases same : q = v
    · subst same
      rcases e.low_from with keep | ⟨on, new⟩
      · exact ⟨u, mem, by rw [e.rank, keep, eq], by rw [e.rank, keep]; exact le, way⟩
      · have := e.low_le
        refine ⟨inc.other, on, by rw [e.rank, new], by rw [e.rank]; omega, .single ?_⟩
        exact ⟨inc, List.mem_of_getElem? at_, rfl⟩
    · exact ⟨u, mem, by rw [e.rank, e.low_ne q same, eq],
        by rw [e.rank, e.low_ne q same]; exact le, way⟩
  owned := by
    rw [e.stack]
    intro x mem
    obtain ⟨q, own, way, bound⟩ := h.owned x mem
    apply Exists.intro q
    apply And.intro (e.owner top own)
    apply And.intro way
    intro y on ex
    have le : s'.low q ≤ s.low q := by
      by_cases same : q = v
      · rw [same]
        exact e.low_le
      · exact (e.low_ne q same).le
    rw [e.rank]
    rcases e.examined top sh at_ ex with ex | ⟨rfl, rfl⟩
    · exact le.trans (bound y on ex)
    · have gv : x ∈ s.gray := by
        rw [gray_frames top]
        exact List.mem_cons_self
      -- the frame examined owns itself
      have eq : q = x := by
        apply sh.rank_inj (sh.gray_mem own.1) mem
        have := own.2.1
        have := own.2.2 x gv le_rfl
        omega
      rw [eq]
      exact e.low_edge on

include e in
theorem foundKept (h : Found adj s) : Found adj s' where
  sound := by
    rw [e.found, e.order, e.stack]
    exact h.sound
  complete := by
    rw [e.found, e.order, e.stack]
    exact h.complete
  disjoint := by
    rw [e.found]
    exact h.disjoint

end Examines

theorem Inv.examine (h : Inv adj s) (still : s.enter = none) (top : s.frames = (v, pos) :: rest)
    (at_ : (adj.outgoing v)[pos]? = some inc) : Inv adj (s.examine v pos rest inc) :=
  have e : Examines s (s.examine v pos rest inc) v pos rest inc := examine_examines h.shape still
  ⟨e.shape top h.shape at_, e.walk top h.shape h.walk still at_, e.foundKept h.found⟩

end Examine

end Tarjan

end Glia.Algo
