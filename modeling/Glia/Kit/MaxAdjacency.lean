import Mathlib.Algebra.BigOperators.Group.List.Basic
import Mathlib.Algebra.Order.BigOperators.Group.List
import Mathlib.Data.List.Nodup
import Mathlib.Logic.Relation
import Mathlib.Tactic.Ring

/-! Orders that take the vertex most tightly joined to those before it, and the cut such an
order ends on: no cut parting its last two vertices is lighter. Orders list the latest
vertex first. -/
namespace Glia.Kit.MaxAdjacency

variable {V : Type*} (w : V → V → Nat)

/-- The weight between a list of vertices and a vertex. -/
def join (l : List V) (v : V) : Nat := (l.map fun y => w y v).sum

@[simp] theorem join_nil (v : V) : join w [] v = 0 := rfl

@[simp] theorem join_cons (x : V) (l : List V) (v : V) :
    join w (x :: l) v = w x v + join w l v := by
  simp [join]

theorem join_append (l r : List V) (v : V) : join w (l ++ r) v = join w l v + join w r v := by
  simp [join]

theorem sum_join_cons (x : V) (l r : List V) :
    (l.map (join w (x :: r))).sum = (l.map (w x)).sum + (l.map (join w r)).sum := by
  have each : join w (x :: r) = fun v => w x v + join w r v := funext (join_cons w x r)
  rw [each, List.sum_map_add]

theorem join_perm {l r : List V} (same : l.Perm r) (v : V) : join w l v = join w r v :=
  (same.map _).sum_eq

variable (S : V → Bool)

theorem join_sides (l : List V) (v : V) (b : Bool) :
    join w l v = join w (l.filter fun y => S y = b) v + join w (l.filter fun y => S y ≠ b) v := by
  induction l with
  | nil => rfl
  | cons x l ih =>
    by_cases same : S x = b
    · simp [same, ih]
      ring
    · simp [same, ih]
      ring

/-- The weight of the pairs of an order that a side parts. -/
def cross : List V → Nat
  | [] => 0
  | x :: l => cross l + join w (l.filter fun y => S y ≠ S x) x

/-- The weight between the vertices on a side and the others. -/
def cut (l : List V) : Nat := ((l.filter fun x => !S x).map (join w (l.filter fun x => S x))).sum

/-- Each vertex of the order is, among those of `U` still out, one most tightly joined to the
vertices before it. -/
def MaxAdj (U : V → Prop) : List V → Prop
  | [] => True
  | x :: l => MaxAdj U l ∧ U x ∧ x ∉ l ∧ ∀ u, U u → u ∉ l → join w l u ≤ join w l x

variable {w S} {U : V → Prop}

theorem MaxAdj.nodup {l : List V} (h : MaxAdj w U l) : l.Nodup := by
  induction l with
  | nil => exact List.nodup_nil
  | cons x l ih => exact List.nodup_cons.mpr ⟨h.2.2.1, ih h.1⟩

theorem MaxAdj.inside {l : List V} (h : MaxAdj w U l) : ∀ v ∈ l, U v := by
  induction l with
  | nil => simp
  | cons x l ih =>
    intro v mem
    rcases List.mem_cons.mp mem with rfl | mem
    · exact h.2.1
    · exact ih h.1 v mem

theorem join_filter_le (p : V → Bool) (l : List V) (v : V) : join w (l.filter p) v ≤ join w l v :=
  (List.filter_sublist.map _).sum_le_sum fun _ _ => Nat.zero_le _

theorem join_own_le_cross {x : V} {l : List V} (h : MaxAdj w U (x :: l)) {u : V} (out : U u)
    (fresh : u ∉ x :: l) (parted : S x ≠ S u) :
    join w ((x :: l).filter fun y => S y = S u) u ≤ cross w S (x :: l) := by
  -- Along the order; the vertex before `x` is on one side or the other.
  induction l generalizing x u with
  | nil => simp [parted]
  | cons y l ih =>
    obtain ⟨before, inside, unused, most⟩ := h
    have dropped : ((x :: y :: l).filter fun z => S z = S u) =
        (y :: l).filter fun z => S z = S u := by
      rw [List.filter_cons_of_neg]
      simpa using parted
    rw [dropped, cross]
    have fresh' : u ∉ y :: l := fun mem => fresh (List.mem_cons_of_mem _ mem)
    by_cases same : S y = S u
    · -- `y` is with `u`, so `x` is parted from `y`, and is joined at least as tightly as `u`.
      have parted' : S y ≠ S x := fun eq => parted (eq.symm.trans same)
      have own := ih before inside unused parted'
      calc join w ((y :: l).filter fun z => S z = S u) u
          ≤ join w (y :: l) u := join_filter_le _ _ _
        _ ≤ join w (y :: l) x := most u out fresh'
        _ = join w ((y :: l).filter fun z => S z = S x) x +
              join w ((y :: l).filter fun z => S z ≠ S x) x := join_sides w S _ _ _
        _ ≤ cross w S (y :: l) + join w ((y :: l).filter fun z => S z ≠ S x) x :=
              Nat.add_le_add_right own _
    · exact (ih before out fresh' same).trans (Nat.le_add_right _ _)

theorem join_last_le_cross {x y : V} {l : List V} (h : MaxAdj w U (x :: y :: l))
    (parted : S y ≠ S x) : join w (y :: l) x ≤ cross w S (x :: y :: l) := by
  obtain ⟨before, inside, unused, _⟩ := h
  have own := join_own_le_cross before inside unused parted
  rw [join_sides w S (y :: l) x (S x), cross]
  exact Nat.add_le_add_right own _

section Symmetric

variable (symm : ∀ a b, w a b = w b a)
include symm

theorem join_eq_sum (l : List V) (v : V) : join w l v = (l.map (w v)).sum := by
  unfold join
  congr 1
  exact List.map_congr_left fun y _ => symm y v

theorem cross_eq_cut (l : List V) : cross w S l = cut w S l := by
  induction l with
  | nil => rfl
  | cons x l ih =>
    rw [cross, ih]
    cases side : S x with
    | true =>
      have others : (l.filter fun y => S y ≠ true) = l.filter fun y => !S y :=
        List.filter_congr fun y _ => by cases S y <;> rfl
      simp only [cut, List.filter_cons, side, Bool.not_true, Bool.false_eq_true, if_false, if_true,
        others]
      rw [join_eq_sum symm, sum_join_cons, Nat.add_comm]
    | false =>
      have others : (l.filter fun y => S y ≠ false) = l.filter fun y => S y :=
        List.filter_congr fun y _ => by cases S y <;> rfl
      simp only [cut, List.filter_cons, side, Bool.not_false, Bool.false_eq_true, if_false, if_true,
        others, List.map_cons, List.sum_cons]
      rw [Nat.add_comm]

theorem linked_last {x : V} {l : List V} (h : MaxAdj w U (x :: l)) {u : V} (out : U u)
    (fresh : u ∉ x :: l) (some : 0 < join w (x :: l) u) :
    Relation.ReflTransGen (fun a b => U a ∧ U b ∧ 0 < w a b) x u := by
  induction l generalizing x u with
  | nil =>
    rw [join_cons, join_nil, Nat.add_zero] at some
    exact .single ⟨h.2.1, out, some⟩
  | cons y l ih =>
    obtain ⟨before, inside, unused, most⟩ := h
    by_cases direct : 0 < w x u
    · exact .single ⟨inside, out, direct⟩
    · -- `u` is joined before `x`, so `x` is too, and both are linked to `y`.
      have fresh' : u ∉ y :: l := fun mem => fresh (List.mem_cons_of_mem _ mem)
      have joined : 0 < join w (y :: l) u := by
        rw [join_cons] at some
        omega
      have back : ∀ a b, Relation.ReflTransGen (fun a b => U a ∧ U b ∧ 0 < w a b) a b →
          Relation.ReflTransGen (fun a b => U a ∧ U b ∧ 0 < w a b) b a := by
        intro a b path
        induction path with
        | refl => exact .refl
        | tail _ step ih => exact .head ⟨step.2.1, step.1, symm _ _ ▸ step.2.2⟩ ih
      have toX := ih before inside unused (joined.trans_le (most u out fresh'))
      exact (back _ _ toX).trans (ih before out fresh' joined)

end Symmetric

section Groups

variable (w) {A : Type*} (m : A → List V)

def between (a b : A) : Nat := ((m b).map (join w (m a))).sum

theorem sum_flatMap (f : V → Nat) (l : List A) :
    ((l.flatMap m).map f).sum = (l.map fun a => ((m a).map f).sum).sum := by
  induction l with
  | nil => rfl
  | cons a l ih => simp [ih]

theorem sum_map_zero (l : List V) : (l.map fun _ => 0).sum = 0 := by simp

theorem join_between (l : List A) (b : A) :
    join (between w m) l b = ((m b).map (join w (l.flatMap m))).sum := by
  induction l with
  | nil =>
    rw [join_nil, List.flatMap_nil]
    exact (sum_map_zero (m b)).symm
  | cons a l ih =>
    have each : join w ((a :: l).flatMap m) = fun v => join w (m a) v + join w (l.flatMap m) v :=
      funext fun v => by rw [List.flatMap_cons, join_append]
    rw [join_cons, ih, each, List.sum_map_add, between]

theorem between_comm (symm : ∀ a b, w a b = w b a) (a b : A) :
    between w m a b = between w m b a := by
  unfold between
  induction m b with
  | nil => exact (sum_map_zero (m a)).symm
  | cons y r ih =>
    rw [List.map_cons, List.sum_cons, ih, sum_join_cons, join_eq_sum symm]

theorem filter_flatMap_of {l : List A} {p : A → Bool} {q : V → Bool}
    (same : ∀ a ∈ l, ∀ x ∈ m a, q x = p a) : (l.flatMap m).filter q = (l.filter p).flatMap m := by
  induction l with
  | nil => rfl
  | cons a l ih =>
    have rest := ih fun a mem => same a (List.mem_cons_of_mem _ mem)
    have here := same a List.mem_cons_self
    rw [List.flatMap_cons, List.filter_append, rest]
    cases side : p a with
    | true =>
      rw [List.filter_cons_of_pos side, List.flatMap_cons]
      congr 1
      exact List.filter_eq_self.mpr fun x mem => (here x mem).trans side
    | false =>
      rw [List.filter_cons_of_neg (by simp [side])]
      have none : (m a).filter q = [] := List.filter_eq_nil_iff.mpr fun x mem => by
        simp [here x mem, side]
      rw [none, List.nil_append]

theorem cut_between {l : List A} {p : A → Bool} {q : V → Bool}
    (same : ∀ a ∈ l, ∀ x ∈ m a, q x = p a) : cut (between w m) p l = cut w q (l.flatMap m) := by
  have not_same : ∀ a ∈ l, ∀ x ∈ m a, (!q x) = !p a := fun a mem x hx => by rw [same a mem x hx]
  unfold cut
  rw [filter_flatMap_of m same, filter_flatMap_of m not_same, sum_flatMap]
  congr 1
  exact List.map_congr_left fun b _ => join_between w m _ b

theorem cut_perm {l r : List V} (same : l.Perm r) (q : V → Bool) : cut w q l = cut w q r := by
  unfold cut
  have each : join w (l.filter fun x => q x) = join w (r.filter fun x => q x) :=
    funext fun v => join_perm w (same.filter _) v
  rw [each]
  exact ((same.filter _).map _).sum_eq

end Groups

end Glia.Kit.MaxAdjacency
