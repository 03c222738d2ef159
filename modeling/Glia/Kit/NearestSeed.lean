import Glia.Kit.BreadthFirst

/-! A breadth-first search from ranked seeds: each node is its finder's seed's, and that is the
first in rank of the nearest seeds. -/
namespace Glia.Kit

variable {α : Type*} {R : α → α → Prop} {S : Set α} {rank : α → ℕ}

variable (R S rank) in
structure FirstNearest (k : ℕ) (s v : α) : Prop where
  seed : s ∈ S
  near : Hops R k s v
  first : ∀ t ∈ S, Hops R k t v → rank s ≤ rank t

theorem FirstNearest.unique {k : ℕ} {s t v : α} (apart : Set.InjOn rank S)
    (h : FirstNearest R S rank k s v) (h' : FirstNearest R S rank k t v) : s = t :=
  apart h.seed h'.seed (le_antisymm (h.first t h'.seed h'.near) (h'.first s h.seed h.near))

variable (R S rank) in
/-- The search with the seed of every node it has visited: the queue holds, at each distance, the
nodes of earlier seeds first, and what is put on comes after what put it on. -/
structure Claims (bound : ℕ) (queue : List (α × ℕ)) (visited : Set α) (rows : List (α × ℕ))
    (owner : α → α) : Prop extends Search R S bound queue visited rows where
  own : ∀ v ∈ visited, ∀ k, Dist R S v k → FirstNearest R S rank k (owner v) v
  turns : queue.Pairwise fun a b => a.2 = b.2 → rank (owner a.1) ≤ rank (owner b.1)
  across : ∀ e ∈ queue, ∀ e' ∈ queue, e'.2 = e.2 + 1 → rank (owner e'.1) ≤ rank (owner e.1)

namespace Claims
variable {bound : ℕ} {queue : List (α × ℕ)} {visited : Set α} {rows : List (α × ℕ)}
  {owner : α → α}

theorem skip {u : α} {d : ℕ} {rest : List (α × ℕ)}
    (h : Claims R S rank bound ((u, d) :: rest) visited rows owner) (far : bound ≤ d) :
    Claims R S rank bound rest visited rows owner where
  toSearch := h.toSearch.skip far
  own := h.own
  turns := h.turns.of_cons
  across e mem e' mem' := h.across e (List.mem_cons_of_mem _ mem) e' (List.mem_cons_of_mem _ mem')

/-- Every way of the shortest length to a node not yet visited goes through the queue, and no
earlier seed's node is left there. -/
theorem first_of_head {u : α} {d : ℕ} {rest : List (α × ℕ)}
    (h : Claims R S rank bound ((u, d) :: rest) visited rows owner) (near : d < bound) {v : α}
    (out : v ∉ visited) (step : R u v) (dist : Dist R S v (d + 1)) :
    FirstNearest R S rank (d + 1) (owner u) v := by
  have own : Dist R S u d := h.exact _ List.mem_cons_self
  have mine := h.own u (h.seen _ List.mem_cons_self) d own
  refine ⟨mine.seed, ⟨u, mine.near, step⟩, fun t seed way => ?_⟩
  obtain ⟨w, walk, last⟩ := way
  have distW : Dist R S w d := by
    obtain ⟨k, le, distK⟩ := exists_dist ⟨t, seed, walk⟩
    obtain ⟨⟨s, memS, shorter⟩, _⟩ := id distK
    have longer : Hops R (k + 1) s v := ⟨w, shorter, last⟩
    have least := dist.2 ⟨s, memS, longer⟩
    have same : k = d := by omega
    exact same ▸ distK
  have seenW : w ∈ visited := by
    by_contra outW
    obtain ⟨e, mem, lt⟩ := h.ahead (by omega) distW outW
    have ordered := h.ordered
    rcases List.mem_cons.mp mem with rfl | later
    · exact absurd lt (Nat.lt_irrefl _)
    · have := List.rel_of_pairwise_cons ordered later
      dsimp only at this
      omega
  have ownW := (h.own w seenW d distW).first t seed walk
  have waits : ∃ j, (w, j) ∈ (u, d) :: rest := by
    by_contra gone
    rw [not_exists] at gone
    exact out (h.closed w seenW gone d near distW v last)
  obtain ⟨j, mem⟩ := waits
  have depth : j = d := (h.exact _ mem).unique distW
  subst depth
  rcases List.mem_cons.mp mem with same | later
  · rw [(Prod.mk.inj same).1] at ownW
    exact ownW
  · exact (List.rel_of_pairwise_cons h.turns later rfl).trans ownW

/-- A node is taken off and its unvisited neighbours put on, each its finder's seed's. -/
theorem expand {u : α} {d : ℕ} {rest : List (α × ℕ)}
    (h : Claims R S rank bound ((u, d) :: rest) visited rows owner) (near : d < bound)
    {fresh : List α} (apart : fresh.Nodup) (out : ∀ v ∈ fresh, v ∉ visited)
    (steps : ∀ v ∈ fresh, R u v) (all : ∀ v, R u v → v ∈ visited ∨ v ∈ fresh) {owner' : α → α}
    (kept : ∀ v ∈ visited, owner' v = owner v) (given : ∀ v ∈ fresh, owner' v = owner u) :
    Claims R S rank bound (rest ++ fresh.map fun v => (v, d + 1)) (visited ∪ {v | v ∈ fresh})
      (rows ++ fresh.map fun v => (v, d + 1)) owner' := by
  have search := h.toSearch.expand near apart out steps all
  have old : ∀ e ∈ rest, owner' e.1 = owner e.1 := fun e mem =>
    kept e.1 (h.seen e (List.mem_cons_of_mem _ mem))
  have put : ∀ e ∈ fresh.map fun v => (v, d + 1), owner' e.1 = owner u ∧ e.2 = d + 1 := by
    intro e mem
    obtain ⟨v, memV, rfl⟩ := List.mem_map.mp mem
    exact ⟨given v memV, rfl⟩
  have close : ∀ e ∈ rest, e.2 ≤ d + 1 := fun e mem =>
    h.narrow (u, d) List.mem_cons_self e (List.mem_cons_of_mem _ mem)
  have first : ∀ e ∈ rest, d ≤ e.2 := fun e mem => List.rel_of_pairwise_cons h.ordered mem
  refine ⟨search, fun v seen k dist => ?_, ?_, fun e mem e' mem' next => ?_⟩
  · rcases seen with before | new
    · rw [kept v before]
      exact h.own v before k dist
    · have depth : k = d + 1 := dist.unique
        (search.exact (v, d + 1) (List.mem_append_right _ (List.mem_map_of_mem new)))
      subst depth
      rw [given v new]
      exact h.first_of_head near (out v new) (steps v new) dist
  · rw [List.pairwise_append]
    refine ⟨h.turns.of_cons.imp_of_mem fun {a b} memA memB le same => ?_, ?_,
      fun e mem e' mem' same => ?_⟩
    · rw [old a memA, old b memB]
      exact le same
    · rw [List.pairwise_map]
      refine List.Pairwise.imp_of_mem (fun {a b} memA memB _ _ => ?_) apart
      dsimp only
      rw [given a memA, given b memB]
    · rw [old e mem, (put e' mem').1]
      exact h.across (u, d) List.mem_cons_self e (List.mem_cons_of_mem _ mem)
        (same.trans (put e' mem').2)
  · rcases List.mem_append.mp mem with before | new <;>
      rcases List.mem_append.mp mem' with before' | new'
    · rw [old e before, old e' before']
      exact h.across e (List.mem_cons_of_mem _ before) e' (List.mem_cons_of_mem _ before') next
    · rw [old e before, (put e' new').1]
      have depth : d = e.2 := by
        have := (put e' new').2
        omega
      exact List.rel_of_pairwise_cons h.turns before depth
    · have := close e' before'
      have := (put e new).2
      omega
    · have := (put e new).2
      have := (put e' new').2
      omega

theorem start {l : List α} (seeds : ∀ v, v ∈ l ↔ v ∈ S)
    (ranked : l.Pairwise fun a b => rank a ≤ rank b) (self : ∀ v ∈ S, owner v = v) :
    Claims R S rank bound (l.map fun v => (v, 0)) S [] owner where
  toSearch := Search.start seeds
  own v mem k dist := by
    have zero : k = 0 := dist.unique (dist_zero.mpr mem)
    subst zero
    rw [self v mem]
    exact ⟨mem, rfl, fun t _ same => le_of_eq (congrArg rank (Eq.symm same))⟩
  turns := by
    rw [List.pairwise_map]
    refine ranked.imp_of_mem fun {a b} memA memB le _ => ?_
    rw [self a ((seeds a).mp memA), self b ((seeds b).mp memB)]
    exact le
  across e mem e' mem' next := by
    obtain ⟨v, _, rfl⟩ := List.mem_map.mp mem'
    cases next

theorem done (h : Claims R S rank bound [] visited rows owner) {v : α} {k : ℕ}
    (mem : (v, k) ∈ rows) : FirstNearest R S rank k (owner v) v :=
  h.own v (h.told _ mem).1 k (h.told _ mem).2.2.1

end Claims

end Glia.Kit
