import Glia.Core
import Mathlib.Data.List.Basic
import Mathlib.Data.List.Pairwise
import Mathlib.Data.List.Sort
import Mathlib.Logic.Embedding.Basic

/-! Identity classes: disjoint sets of two or more ids. -/
namespace Glia.Algo

/-- The least member of an ascending list of ids. -/
def leader (s : List NodeId) : NodeId := s.headD 0

structure Classes where
  sets : List (List NodeId)
  ascending : ∀ s ∈ sets, s.Pairwise (· < ·)
  several : ∀ s ∈ sets, 2 ≤ s.length
  disjoint : sets.Pairwise List.Disjoint
  sorted : sets.Pairwise fun s t => leader s < leader t

theorem disjoint_symm {s t : List NodeId} (h : s.Disjoint t) : t.Disjoint s :=
  fun _ ht hs => h hs ht

instance : Std.Symm (List.Disjoint (α := NodeId)) := ⟨fun _ _ => disjoint_symm⟩

theorem leader_mem {s : List NodeId} (h : s ≠ []) : leader s ∈ s := by
  cases s with
  | nil => exact absurd rfl h
  | cons a s => simp [leader]

namespace Classes

def classOf (c : Classes) (id : NodeId) : Option (List NodeId) := c.sets.find? (id ∈ ·)

def rep (c : Classes) (id : NodeId) : NodeId := ((c.classOf id).map leader).getD id

def same (c : Classes) (a b : NodeId) : Bool := c.rep a == c.rep b

theorem ne_nil (c : Classes) {s : List NodeId} (h : s ∈ c.sets) : s ≠ [] := by
  have := c.several s h
  intro e
  simp [e] at this

theorem unique (c : Classes) {s t : List NodeId} {id : NodeId} (hs : s ∈ c.sets)
    (ht : t ∈ c.sets) (ids : id ∈ s) (idt : id ∈ t) : s = t := by
  by_contra ne
  exact c.disjoint.forall hs ht ne ids idt

theorem classOf_eq_some (c : Classes) (id : NodeId) (s : List NodeId) :
    c.classOf id = some s ↔ s ∈ c.sets ∧ id ∈ s := by
  constructor
  · intro h
    exact ⟨List.mem_of_find?_eq_some h, by simpa using List.find?_some h⟩
  · intro ⟨hs, ids⟩
    cases h : c.classOf id with
    | none => simpa [ids] using List.find?_eq_none.mp h s hs
    | some t =>
      have ht := List.mem_of_find?_eq_some h
      have idt : id ∈ t := by simpa using List.find?_some h
      rw [c.unique hs ht ids idt]

theorem classOf_isSome (c : Classes) (id : NodeId) :
    (c.classOf id).isSome ↔ ∃ s ∈ c.sets, id ∈ s := by
  simp [Option.isSome_iff_exists, classOf_eq_some]

theorem rep_of_mem (c : Classes) {s : List NodeId} {id : NodeId} (hs : s ∈ c.sets)
    (ids : id ∈ s) : c.rep id = leader s := by
  simp [rep, (c.classOf_eq_some id s).mpr ⟨hs, ids⟩]

theorem rep_of_none (c : Classes) {id : NodeId} (h : ∀ s ∈ c.sets, id ∉ s) : c.rep id = id := by
  have : c.classOf id = none := by simpa [classOf] using h
  simp [rep, this]

theorem rep_eq_iff (c : Classes) (a b : NodeId) :
    c.rep a = c.rep b ↔ a = b ∨ ∃ s ∈ c.sets, a ∈ s ∧ b ∈ s := by
  constructor
  · intro h
    by_cases ha : ∃ s ∈ c.sets, a ∈ s
    · obtain ⟨s, hs, as⟩ := ha
      rw [c.rep_of_mem hs as] at h
      have lead := leader_mem (c.ne_nil hs)
      by_cases hb : ∃ t ∈ c.sets, b ∈ t
      · obtain ⟨t, ht, bt⟩ := hb
        rw [c.rep_of_mem ht bt] at h
        rw [c.unique hs ht lead (h ▸ leader_mem (c.ne_nil ht))] at as
        exact .inr ⟨t, ht, as, bt⟩
      · rw [c.rep_of_none (by simpa using hb)] at h
        exact absurd ⟨s, hs, h ▸ lead⟩ hb
    · rw [c.rep_of_none (by simpa using ha)] at h
      by_cases hb : ∃ t ∈ c.sets, b ∈ t
      · obtain ⟨t, ht, bt⟩ := hb
        rw [c.rep_of_mem ht bt] at h
        exact absurd ⟨t, ht, h ▸ leader_mem (c.ne_nil ht)⟩ ha
      · rw [c.rep_of_none (by simpa using hb)] at h
        exact .inl h
  · rintro (rfl | ⟨s, hs, as, bs⟩)
    · rfl
    · rw [c.rep_of_mem hs as, c.rep_of_mem hs bs]

section Rename
variable (ρ : NodeId ↪ NodeId)

/-- A class's image, its members put back in ascending order. -/
def imageOf (s : List NodeId) : List NodeId := (s.map ρ).mergeSort (· ≤ ·)

theorem imageOf_perm (s : List NodeId) : (imageOf ρ s).Perm (s.map ρ) := List.mergeSort_perm _ _

theorem mem_imageOf (s : List NodeId) (id : NodeId) : ρ id ∈ imageOf ρ s ↔ id ∈ s := by
  rw [(imageOf_perm ρ s).mem_iff, List.mem_map_of_injective ρ.injective]

theorem imageOf_ascending {s : List NodeId} (h : s.Pairwise (· < ·)) :
    (imageOf ρ s).Pairwise (· < ·) := by
  have sorted : (imageOf ρ s).Pairwise (· ≤ ·) := List.pairwise_mergeSort' (· ≤ ·) _
  have apart : (imageOf ρ s).Nodup := by
    rw [(imageOf_perm ρ s).nodup_iff]
    exact List.Nodup.map ρ.injective (h.imp fun lt => Nat.ne_of_lt lt)
  exact (sorted.and apart).imp fun ⟨le, ne⟩ => lt_of_le_of_ne le ne

theorem imageOf_disjoint {s t : List NodeId} (h : s.Disjoint t) :
    (imageOf ρ s).Disjoint (imageOf ρ t) := by
  intro id hs ht
  rw [(imageOf_perm ρ s).mem_iff, List.mem_map] at hs
  obtain ⟨a, as, rfl⟩ := hs
  exact h as ((mem_imageOf ρ t a).mp ht)

def rename (c : Classes) : Classes where
  sets := (c.sets.map (imageOf ρ)).mergeSort fun s t => leader s ≤ leader t
  ascending := by
    intro s hs
    obtain ⟨t, ht, rfl⟩ := List.mem_map.mp ((List.mergeSort_perm _ _).mem_iff.mp hs)
    exact imageOf_ascending ρ (c.ascending t ht)
  several := by
    intro s hs
    obtain ⟨t, ht, rfl⟩ := List.mem_map.mp ((List.mergeSort_perm _ _).mem_iff.mp hs)
    rw [(imageOf_perm ρ t).length_eq, List.length_map]
    exact c.several t ht
  disjoint := by
    rw [(List.mergeSort_perm _ _).pairwise_iff disjoint_symm, List.pairwise_map]
    exact c.disjoint.imp (imageOf_disjoint ρ)
  sorted := by
    have disjoint : ((c.sets.map (imageOf ρ)).mergeSort fun s t => leader s ≤ leader t).Pairwise
        List.Disjoint := by
      rw [(List.mergeSort_perm _ _).pairwise_iff disjoint_symm, List.pairwise_map]
      exact c.disjoint.imp (imageOf_disjoint ρ)
    have filled : ∀ s ∈ (c.sets.map (imageOf ρ)).mergeSort fun s t => leader s ≤ leader t,
        s ≠ [] := by
      intro s hs
      obtain ⟨t, ht, rfl⟩ := List.mem_map.mp ((List.mergeSort_perm _ _).mem_iff.mp hs)
      rw [Ne, ← List.length_eq_zero_iff, (imageOf_perm ρ t).length_eq, List.length_map]
      exact fun e => c.ne_nil ht (List.length_eq_zero_iff.mp e)
    have ordered := @List.pairwise_mergeSort _ (fun s t => leader s ≤ leader t)
      (by simpa using fun _ _ _ => Nat.le_trans) (by simpa using fun _ _ => Nat.le_total _ _)
      (c.sets.map (imageOf ρ))
    apply (ordered.and disjoint).imp_of_mem
    intro s t hs ht ⟨le, apart⟩
    apply lt_of_le_of_ne (by simpa using le)
    intro e
    exact apart (leader_mem (filled s hs)) (e ▸ leader_mem (filled t ht))

theorem rename_sets_perm (c : Classes) : (c.rename ρ).sets.Perm (c.sets.map (imageOf ρ)) :=
  List.mergeSort_perm _ _

theorem mem_rename_sets (c : Classes) (t : List NodeId) :
    t ∈ (c.rename ρ).sets ↔ ∃ s ∈ c.sets, imageOf ρ s = t := by
  rw [(c.rename_sets_perm ρ).mem_iff, List.mem_map]

theorem rename_held (c : Classes) (id : NodeId) :
    ((c.rename ρ).classOf (ρ id)).isSome = (c.classOf id).isSome := by
  rw [Bool.eq_iff_iff, classOf_isSome, classOf_isSome]
  constructor
  · rintro ⟨t, ht, mem⟩
    obtain ⟨s, hs, rfl⟩ := (c.mem_rename_sets ρ t).mp ht
    exact ⟨s, hs, (mem_imageOf ρ s id).mp mem⟩
  · rintro ⟨s, hs, mem⟩
    exact ⟨imageOf ρ s, (c.mem_rename_sets ρ _).mpr ⟨s, hs, rfl⟩, (mem_imageOf ρ s id).mpr mem⟩

theorem rename_rep_eq (c : Classes) (a b : NodeId) :
    (c.rename ρ).rep (ρ a) = (c.rename ρ).rep (ρ b) ↔ c.rep a = c.rep b := by
  rw [rep_eq_iff, rep_eq_iff, ρ.injective.eq_iff]
  apply or_congr_right
  constructor
  · rintro ⟨t, ht, as, bs⟩
    obtain ⟨s, hs, rfl⟩ := (c.mem_rename_sets ρ t).mp ht
    exact ⟨s, hs, (mem_imageOf ρ s a).mp as, (mem_imageOf ρ s b).mp bs⟩
  · rintro ⟨s, hs, as, bs⟩
    exact ⟨imageOf ρ s, (c.mem_rename_sets ρ _).mpr ⟨s, hs, rfl⟩, (mem_imageOf ρ s a).mpr as,
      (mem_imageOf ρ s b).mpr bs⟩

theorem rename_same (c : Classes) (a b : NodeId) :
    (c.rename ρ).same (ρ a) (ρ b) = c.same a b := by
  rw [Bool.eq_iff_iff]
  simp only [same, beq_iff_eq, c.rename_rep_eq ρ]

theorem rep_eq_leader (c : Classes) {s : List NodeId} (hs : s ∈ c.sets) (id : NodeId) :
    c.rep id = leader s ↔ id ∈ s := by
  have lead := leader_mem (c.ne_nil hs)
  rw [← c.rep_of_mem hs lead, rep_eq_iff]
  constructor
  · rintro (rfl | ⟨t, ht, idt, lt⟩)
    · exact lead
    · rwa [c.unique hs ht lead lt]
  · exact fun mem => .inr ⟨s, hs, mem, lead⟩

end Rename

end Classes

end Glia.Algo
