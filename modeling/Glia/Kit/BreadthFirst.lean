import Glia.Kit.Layers
import Mathlib.Data.List.Nodup
import Mathlib.Order.Bounds.Defs

/-! Breadth-first search with a queue: what it has seen, with its distance, and what is left. -/
namespace Glia.Kit

variable {α : Type*} (R : α → α → Prop) (S : Set α)

def Dist (v : α) (k : ℕ) : Prop := IsLeast {n | ∃ s ∈ S, Hops R n s v} k

variable {R S}

theorem Dist.unique {v : α} {j k : ℕ} (h : Dist R S v j) (h' : Dist R S v k) : j = k :=
  IsLeast.unique h h'

theorem exists_dist {v : α} {n : ℕ} (way : ∃ s ∈ S, Hops R n s v) : ∃ k ≤ n, Dist R S v k := by
  classical
  have some' : ∃ n, ∃ s ∈ S, Hops R n s v := ⟨n, way⟩
  exact ⟨Nat.find some', Nat.find_min' some' way, Nat.find_spec some',
    fun m mem => Nat.find_min' some' mem⟩

theorem dist_zero {v : α} : Dist R S v 0 ↔ v ∈ S := by
  constructor
  · rintro ⟨⟨s, mem, eq⟩, _⟩
    exact eq ▸ mem
  · exact fun mem => ⟨⟨v, mem, rfl⟩, fun n _ => Nat.zero_le n⟩

theorem dist_succ {v : α} {k : ℕ} (h : Dist R S v (k + 1)) : ∃ u, Dist R S u k ∧ R u v := by
  obtain ⟨⟨s, mem, u, way, step⟩, least⟩ := h
  refine ⟨u, ⟨⟨s, mem, way⟩, fun n ⟨s', mem', way'⟩ => ?_⟩, step⟩
  have longer : n + 1 ∈ {n | ∃ s ∈ S, Hops R n s v} := ⟨s', mem', u, way', step⟩
  have := least longer
  omega

variable (R S) in
structure Search (bound : ℕ) (queue : List (α × ℕ)) (visited : Set α) (rows : List (α × ℕ)) :
    Prop where
  exact : ∀ e ∈ queue, Dist R S e.1 e.2
  seen : ∀ e ∈ queue, e.1 ∈ visited
  ordered : queue.Pairwise fun a b => a.2 ≤ b.2
  narrow : ∀ e ∈ queue, ∀ e' ∈ queue, e'.2 ≤ e.2 + 1
  seeds : S ⊆ visited
  closed : ∀ u ∈ visited, (∀ k, (u, k) ∉ queue) → ∀ k < bound, Dist R S u k →
    ∀ v, R u v → v ∈ visited
  told : ∀ e ∈ rows, e.1 ∈ visited ∧ e.1 ∉ S ∧ Dist R S e.1 e.2 ∧ e.2 ≤ bound
  whole : ∀ v ∈ visited, v ∉ S → ∃ k, (v, k) ∈ rows
  once : (rows.map Prod.fst).Nodup

namespace Search
variable {bound : ℕ} {queue : List (α × ℕ)} {visited : Set α} {rows : List (α × ℕ)}

theorem ahead (h : Search R S bound queue visited rows) {k : ℕ} (le : k ≤ bound) {v : α}
    (dist : Dist R S v k) (out : v ∉ visited) : ∃ e ∈ queue, e.2 < k := by
  induction k generalizing v with
  | zero => exact absurd (h.seeds (dist_zero.mp dist)) out
  | succ k ih =>
    obtain ⟨u, near, step⟩ := dist_succ dist
    by_cases seen : u ∈ visited
    · by_cases waits : ∃ j, (u, j) ∈ queue
      · obtain ⟨j, mem⟩ := waits
        have same := (h.exact _ mem).unique near
        exact ⟨_, mem, by dsimp only at same ⊢; omega⟩
      · rw [not_exists] at waits
        exact absurd (h.closed u seen waits k le near v step) out
    · obtain ⟨e, mem, lt⟩ := ih (Nat.le_of_succ_le le) near seen
      exact ⟨e, mem, by omega⟩

theorem skip {u : α} {d : ℕ} {rest : List (α × ℕ)}
    (h : Search R S bound ((u, d) :: rest) visited rows) (far : bound ≤ d) :
    Search R S bound rest visited rows where
  exact e mem := h.exact e (List.mem_cons_of_mem _ mem)
  seen e mem := h.seen e (List.mem_cons_of_mem _ mem)
  ordered := h.ordered.of_cons
  narrow e mem e' mem' := h.narrow e (List.mem_cons_of_mem _ mem) e' (List.mem_cons_of_mem _ mem')
  seeds := h.seeds
  closed w seen apart k lt dist v step := by
    by_cases same : w = u
    · subst same
      have eq := dist.unique (h.exact _ List.mem_cons_self)
      dsimp only at eq
      omega
    · apply h.closed w seen _ k lt dist v step
      intro j mem
      rcases List.mem_cons.mp mem with eq | later
      · exact same (congrArg Prod.fst eq)
      · exact apart j later
  told := h.told
  whole := h.whole
  once := h.once

/-- A node within the bound is taken off, and its unvisited neighbours put on. -/
theorem expand {u : α} {d : ℕ} {rest : List (α × ℕ)}
    (h : Search R S bound ((u, d) :: rest) visited rows) (near : d < bound) {fresh : List α}
    (apart : fresh.Nodup) (out : ∀ v ∈ fresh, v ∉ visited) (steps : ∀ v ∈ fresh, R u v)
    (all : ∀ v, R u v → v ∈ visited ∨ v ∈ fresh) :
    Search R S bound (rest ++ fresh.map fun v => (v, d + 1)) (visited ∪ {v | v ∈ fresh})
      (rows ++ fresh.map fun v => (v, d + 1)) := by
  have own : Dist R S u d := h.exact _ List.mem_cons_self
  have first : ∀ e ∈ rest, d ≤ e.2 := fun e mem => List.rel_of_pairwise_cons h.ordered mem
  have close : ∀ e ∈ rest, e.2 ≤ d + 1 := fun e mem =>
    h.narrow (u, d) List.mem_cons_self e (List.mem_cons_of_mem _ mem)
  have dists : ∀ v ∈ fresh, Dist R S v (d + 1) := by
    intro v mem
    obtain ⟨⟨s, memS, way⟩, _⟩ := own
    have reach : ∃ s ∈ S, Hops R (d + 1) s v := ⟨s, memS, u, way, steps v mem⟩
    obtain ⟨k, le, dist⟩ := exists_dist reach
    rcases Nat.eq_or_lt_of_le le with rfl | lt
    · exact dist
    · obtain ⟨e, memE, ltE⟩ := h.ahead (by omega) dist (out v mem)
      rcases List.mem_cons.mp memE with rfl | later
      · dsimp only at ltE
        omega
      · have := first e later
        omega
  have put : ∀ e ∈ fresh.map fun v => (v, d + 1), e.1 ∈ fresh ∧ e.2 = d + 1 := by
    intro e mem
    obtain ⟨v, memV, rfl⟩ := List.mem_map.mp mem
    exact ⟨memV, rfl⟩
  have distPut : ∀ e ∈ fresh.map fun v => (v, d + 1), Dist R S e.1 e.2 := by
    intro e mem
    rw [(put e mem).2]
    exact dists _ (put e mem).1
  constructor
  case exact =>
    intro e mem
    rcases List.mem_append.mp mem with old | new
    · exact h.exact e (List.mem_cons_of_mem _ old)
    · exact distPut e new
  case seen =>
    intro e mem
    rcases List.mem_append.mp mem with old | new
    · exact .inl (h.seen e (List.mem_cons_of_mem _ old))
    · exact .inr (put e new).1
  case ordered =>
    rw [List.pairwise_append]
    refine ⟨h.ordered.of_cons, ?_, fun e mem e' mem' => ?_⟩
    · rw [List.pairwise_map]
      exact List.pairwise_of_forall fun _ _ => le_rfl
    · rw [(put e' mem').2]
      exact close e mem
  case narrow =>
    intro e mem e' mem'
    rcases List.mem_append.mp mem with old | new <;> rcases List.mem_append.mp mem' with old' | new'
    · exact h.narrow e (List.mem_cons_of_mem _ old) e' (List.mem_cons_of_mem _ old')
    · have := first e old
      rw [(put e' new').2]
      omega
    · have := close e' old'
      rw [(put e new).2]
      omega
    · rw [(put e new).2, (put e' new').2]
      omega
  case seeds => exact fun s mem => .inl (h.seeds mem)
  case closed =>
    intro w seen gone k lt dist v step
    by_cases same : w = u
    · subst same
      exact all v step
    · rcases seen with old | new
      · left
        apply h.closed w old _ k lt dist v step
        intro j mem
        rcases List.mem_cons.mp mem with eq | later
        · exact same (congrArg Prod.fst eq)
        · exact gone j (List.mem_append_left _ later)
      · exact absurd (List.mem_append_right _ (List.mem_map_of_mem new)) (gone (d + 1))
  case told =>
    intro e mem
    rcases List.mem_append.mp mem with old | new
    · obtain ⟨seen, rest⟩ := h.told e old
      exact ⟨.inl seen, rest⟩
    · obtain ⟨isFresh, depth⟩ := put e new
      exact ⟨.inr isFresh, fun seed => out _ isFresh (h.seeds seed), distPut e new, by omega⟩
  case whole =>
    intro v seen notSeed
    rcases seen with old | new
    · obtain ⟨k, mem⟩ := h.whole v old notSeed
      exact ⟨k, List.mem_append_left _ mem⟩
    · exact ⟨d + 1, List.mem_append_right _ (List.mem_map_of_mem new)⟩
  case once =>
    rw [List.map_append, List.map_map, List.nodup_append]
    have same : fresh.map (Prod.fst ∘ fun v => (v, d + 1)) = fresh := List.map_id fresh
    rw [same]
    refine ⟨h.once, apart, fun a mem b mem' eq => ?_⟩
    obtain ⟨e, memE, rfl⟩ := List.mem_map.mp mem
    exact out b mem' (eq ▸ (h.told e memE).1)

theorem done (h : Search R S bound [] visited rows) (v : α) (k : ℕ) :
    (v, k) ∈ rows ↔ 1 ≤ k ∧ k ≤ bound ∧ Dist R S v k := by
  constructor
  · intro mem
    obtain ⟨_, notSeed, dist, le⟩ := h.told _ mem
    refine ⟨Nat.pos_of_ne_zero fun zero => ?_, le, dist⟩
    dsimp only at dist zero
    rw [zero] at dist
    exact notSeed (dist_zero.mp dist)
  · rintro ⟨pos, le, dist⟩
    have seen : v ∈ visited := by
      by_contra out
      obtain ⟨e, mem, _⟩ := h.ahead le dist out
      cases mem
    have notSeed : v ∉ S := by
      intro seed
      have := dist.unique (dist_zero.mpr seed)
      omega
    obtain ⟨j, mem⟩ := h.whole v seen notSeed
    have same := (h.told _ mem).2.2.1.unique dist
    dsimp only at same
    exact same ▸ mem

theorem start {l : List α} (seeds : ∀ v, v ∈ l ↔ v ∈ S) :
    Search R S bound (l.map fun v => (v, 0)) S [] where
  exact e mem := by
    obtain ⟨v, memV, rfl⟩ := List.mem_map.mp mem
    exact dist_zero.mpr ((seeds v).mp memV)
  seen e mem := by
    obtain ⟨v, memV, rfl⟩ := List.mem_map.mp mem
    exact (seeds v).mp memV
  ordered := by
    rw [List.pairwise_map]
    exact List.pairwise_of_forall fun _ _ => le_rfl
  narrow e _ e' mem' := by
    obtain ⟨v, _, rfl⟩ := List.mem_map.mp mem'
    exact Nat.zero_le _
  seeds := subset_rfl
  closed u seen gone := absurd (List.mem_map_of_mem ((seeds u).mpr seen)) (gone 0)
  told e mem := by cases mem
  whole v seen out := absurd seen out
  once := List.nodup_nil

end Search

theorem hops_image {β : Type*} {R' : β → β → Prop} {f : α → β} {P : α → Prop}
    (mirror : ∀ u v, R u v ↔ P u ∧ P v ∧ R' (f u) (f v))
    (ends : ∀ a b, R' a b → ∃ v, P v ∧ f v = b) {u : α} (own : P u) (k : ℕ) (y : β) :
    (∃ v, P v ∧ f v = y ∧ Hops R k u v) ↔ Hops R' k (f u) y := by
  induction k generalizing y with
  | zero =>
    constructor
    · rintro ⟨v, _, rfl, rfl⟩
      rfl
    · intro eq
      exact ⟨u, own, eq, rfl⟩
  | succ k ih =>
    constructor
    · rintro ⟨v, _, rfl, w, way, step⟩
      have mirrored := (mirror w v).mp step
      exact ⟨f w, (ih (f w)).mp ⟨w, mirrored.1, rfl, way⟩, mirrored.2.2⟩
    · rintro ⟨z, way, step⟩
      obtain ⟨w, ownW, rfl, inner⟩ := (ih z).mpr way
      obtain ⟨v, ownV, rfl⟩ := ends _ _ step
      exact ⟨v, ownV, rfl, w, inner, (mirror w v).mpr ⟨ownW, ownV, step⟩⟩

end Glia.Kit
