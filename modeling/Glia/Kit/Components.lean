import Mathlib.Logic.Relation

/-! Strongly connected components of a relation. -/
namespace Glia.Kit

open Relation

variable {α : Type*} (R : α → α → Prop)

def Mutual (a b : α) : Prop := ReflTransGen R a b ∧ ReflTransGen R b a

/-- On a cycle: some way leaves `a` and comes back. -/
def OnCycle (a : α) : Prop := TransGen R a a

variable {R}

theorem Mutual.refl (a : α) : Mutual R a a := ⟨.refl, .refl⟩

theorem Mutual.symm {a b : α} (h : Mutual R a b) : Mutual R b a := ⟨h.2, h.1⟩

theorem Mutual.trans {a b c : α} (h : Mutual R a b) (h' : Mutual R b c) : Mutual R a c :=
  ⟨h.1.trans h'.1, h'.2.trans h.2⟩

theorem onCycle_of_ne {a b : α} (h : Mutual R a b) (ne : a ≠ b) : OnCycle R a := by
  rcases reflTransGen_iff_eq_or_transGen.mp h.1 with eq | way
  · exact absurd eq.symm ne
  · exact way.trans_left h.2

theorem OnCycle.mutual {a b : α} (h : OnCycle R a) (m : Mutual R a b) : OnCycle R b :=
  TransGen.trans_right m.2 (h.trans_left m.1)

theorem onCycle_of_edge {a b : α} (edge : R a b) (m : Mutual R a b) : OnCycle R a :=
  TransGen.head' edge m.2

theorem onCycle_iff (a : α) : OnCycle R a ↔ R a a ∨ ∃ b, b ≠ a ∧ Mutual R a b := by
  apply Iff.intro
  · intro h
    obtain ⟨b, edge, back⟩ := TransGen.head'_iff.mp h
    by_cases eq : b = a
    · exact .inl (eq ▸ edge)
    · exact .inr ⟨b, eq, .single edge, back⟩
  · intro h
    rcases h with edge | ⟨b, ne, m⟩
    · exact .single edge
    · exact onCycle_of_ne m ne.symm

theorem mem_of_reach {S : Set α} (closed : ∀ x ∈ S, ∀ y, R x y → y ∈ S) {a b : α}
    (way : ReflTransGen R a b) (mem : a ∈ S) : b ∈ S := by
  induction way with
  | refl => exact mem
  | tail _ edge ih => exact closed _ ih _ edge

theorem mem_iff_mutual {S D : Set α} {v : α} (apart : ∀ x ∈ S, x ∉ D)
    (closed : ∀ x ∈ D, ∀ y, R x y → y ∈ D) (leads : ∀ x ∈ S, ∀ y, R x y → y ∈ S ∨ y ∈ D)
    (one : ∀ x ∈ S, Mutual R v x) {x : α} (mem : x ∈ S) (y : α) :
    y ∈ S ↔ Mutual R x y := by
  apply Iff.intro
  · intro hy
    exact (one x mem).symm.trans (one y hy)
  · intro m
    have both : ∀ x ∈ S ∪ D, ∀ y, R x y → y ∈ S ∪ D := by
      intro x hx y edge
      rcases hx with hx | hx
      · exact leads x hx y edge
      · exact .inr (closed x hx y edge)
    rcases mem_of_reach both m.1 (.inl mem) with hy | hy
    · exact hy
    · exact absurd (mem_of_reach closed m.2 hy) (apart x mem)

end Glia.Kit

/-! A relation whose steps are changed at one point only, and when it stays free of cycles. -/
namespace Glia.Kit.Reroute

open Relation

variable {α : Type*} {R R' : α → α → Prop} {v : α}

def Acyclic (R : α → α → Prop) : Prop := ∀ a, ¬TransGen R a a

theorem acyclic_of_single {a b : α} (ne : a ≠ b) (only : ∀ x y, R x y → x = a ∧ y = b) :
    Acyclic R := by
  have ends : ∀ {x y : α}, TransGen R x y → x = a ∧ y = b := by
    intro x y path
    induction path with
    | single step => exact only _ _ step
    | tail _ step ih => exact ⟨ih.1, (only _ _ step).2⟩
  intro x cycle
  exact ne ((ends cycle).1.symm.trans (ends cycle).2)

theorem transGen_split (same : ∀ a b, R' a b → a ≠ v → b ≠ v → R a b) {a b : α}
    (path : TransGen R' a b) : TransGen R a b ∨ ReflTransGen R' a v ∧ ReflTransGen R' v b := by
  have first : ∀ {a b : α}, R' a b → TransGen R a b ∨ ReflTransGen R' a v ∧ ReflTransGen R' v b := by
    intro a b step
    by_cases starts : a = v
    · exact Or.inr ⟨starts ▸ .refl, starts ▸ .single step⟩
    · by_cases ends : b = v
      · exact Or.inr ⟨ends ▸ .single step, ends ▸ .refl⟩
      · exact Or.inl (.single (same a b step starts ends))
  induction path with
  | single step => exact first step
  | tail path step ih =>
    rcases ih with old | ⟨to_, from_⟩
    · rcases first step with more | ⟨to_, from_⟩
      · exact Or.inl (old.trans more)
      · exact Or.inr ⟨path.to_reflTransGen.trans to_, from_⟩
    · exact Or.inr ⟨to_, from_.tail step⟩

theorem acyclic_of_same (acyclic : Acyclic R) (out : ¬TransGen R' v v)
    (same : ∀ a b, R' a b → a ≠ v → b ≠ v → R a b) : Acyclic R' := by
  intro a cycle
  rcases transGen_split same cycle with old | ⟨to_, from_⟩
  · exact acyclic a old
  · -- the cycle turned to start at `v`
    rcases reflTransGen_iff_eq_or_transGen.mp from_ with eq | path
    · exact out (eq ▸ cycle)
    · exact out (path.trans_left to_)

end Glia.Kit.Reroute
