import Mathlib.Algebra.BigOperators.Ring.Finset
import Mathlib.Algebra.Order.BigOperators.Group.Finset

/-! A matrix summed over the blocks of a labelling of its indices. -/
namespace Glia.Kit

open Finset

section Blocks
variable {ι κ μ M : Type*} [DecidableEq κ] [DecidableEq μ] [AddCommMonoid M]

/-- The sum of the entries from the indices labelled `c` to those labelled `d`. -/
def block (s : Finset ι) (m : ι → κ) (A : ι → ι → M) (c d : κ) : M :=
  ∑ v ∈ s with m v = c, ∑ u ∈ s with m u = d, A v u

variable {s : Finset ι} {t : Finset κ} {m : ι → κ} {A B : ι → ι → M}

theorem block_congr (same : ∀ v ∈ s, ∀ u ∈ s, A v u = B v u) (c d : κ) :
    block s m A c d = block s m B c d := by
  apply sum_congr rfl
  intro v hv
  apply sum_congr rfl
  intro u hu
  exact same v (mem_filter.mp hv).1 u (mem_filter.mp hu).1

theorem sum_block (maps : ∀ u ∈ s, m u ∈ t) (c : κ) :
    ∑ d ∈ t, block s m A c d = ∑ v ∈ s with m v = c, ∑ u ∈ s, A v u := by
  unfold block
  rw [sum_comm]
  apply sum_congr rfl
  intro v _
  exact sum_fiberwise_of_maps_to maps (A v)

theorem sum_sum_block (maps : ∀ u ∈ s, m u ∈ t) :
    ∑ c ∈ t, ∑ d ∈ t, block s m A c d = ∑ v ∈ s, ∑ u ∈ s, A v u := by
  rw [sum_congr rfl fun c _ => sum_block maps c]
  exact sum_fiberwise_of_maps_to maps fun v => ∑ u ∈ s, A v u

theorem sum_sum_fiber (maps : ∀ u ∈ s, m u ∈ t) (p : κ → μ) (f : ι → M) (x : μ) :
    ∑ c ∈ t with p c = x, ∑ v ∈ s with m v = c, f v = ∑ v ∈ s with p (m v) = x, f v := by
  have inner : ∀ v ∈ s.filter fun v => p (m v) = x, m v ∈ t.filter fun c => p c = x := by
    intro v mem
    obtain ⟨inside, same⟩ := mem_filter.mp mem
    exact mem_filter.mpr ⟨maps v inside, same⟩
  rw [← sum_fiberwise_of_maps_to inner f]
  apply sum_congr rfl
  intro c mem
  have same := (mem_filter.mp mem).2
  rw [filter_filter]
  apply sum_congr _ fun _ _ => rfl
  ext v
  simp only [mem_filter]
  constructor
  · rintro ⟨inside, rfl⟩
    exact ⟨inside, same, rfl⟩
  · rintro ⟨inside, -, rfl⟩
    exact ⟨inside, rfl⟩

theorem block_block (maps : ∀ u ∈ s, m u ∈ t) (p : κ → μ) (x y : μ) :
    block t p (block s m A) x y = block s (fun v => p (m v)) A x y := by
  have inner : ∀ c ∈ t.filter fun c => p c = x, ∑ d ∈ t with p d = y, block s m A c d =
      ∑ v ∈ s with m v = c, ∑ u ∈ s with p (m u) = y, A v u := by
    intro c _
    unfold block
    rw [sum_comm]
    apply sum_congr rfl
    intro v _
    exact sum_sum_fiber maps p (A v) y
  rw [block, sum_congr rfl inner]
  exact sum_sum_fiber maps p (fun v => ∑ u ∈ s with p (m u) = y, A v u) x

theorem sum_diag_block (maps : ∀ u ∈ s, m u ∈ t) :
    ∑ c ∈ t, block s m A c c = ∑ v ∈ s, ∑ u ∈ s with m u = m v, A v u := by
  rw [← sum_fiberwise_of_maps_to maps fun v => ∑ u ∈ s with m u = m v, A v u]
  apply sum_congr rfl
  intro c _
  apply sum_congr rfl
  intro v mem
  rw [(mem_filter.mp mem).2]

theorem sum_pairs [LinearOrder ι] (s : Finset ι) (A : ι → ι → M) :
    ∑ v ∈ s, ∑ u ∈ s, A v u = ∑ v ∈ s, (A v v + ∑ u ∈ s with v < u, (A v u + A u v)) := by
  have split : ∀ v ∈ s, ∑ u ∈ s, A v u =
      A v v + (∑ u ∈ s with v < u, A v u + ∑ u ∈ s with u < v, A v u) := by
    intro v mem
    rw [← add_sum_erase s _ mem, ← sum_filter_add_sum_filter_not (s.erase v) fun u => v < u]
    congr 2
    · apply sum_congr _ fun _ _ => rfl
      ext u
      simp only [mem_filter, mem_erase]
      exact ⟨fun h => ⟨h.1.2, h.2⟩, fun h => ⟨⟨h.2.ne', h.1⟩, h.2⟩⟩
    · apply sum_congr _ fun _ _ => rfl
      ext u
      simp only [mem_filter, mem_erase, not_lt]
      exact ⟨fun h => ⟨h.1.2, lt_of_le_of_ne h.2 h.1.1⟩, fun h => ⟨⟨h.2.ne, h.1⟩, h.2.le⟩⟩
  have swap : ∑ v ∈ s, ∑ u ∈ s with u < v, A v u = ∑ v ∈ s, ∑ u ∈ s with v < u, A u v := by
    simp only [sum_filter]
    exact sum_comm
  rw [sum_congr rfl split, sum_add_distrib, sum_add_distrib, swap, ← sum_add_distrib,
    ← sum_add_distrib]
  apply sum_congr rfl
  intro v _
  rw [sum_add_distrib]

end Blocks

end Glia.Kit
