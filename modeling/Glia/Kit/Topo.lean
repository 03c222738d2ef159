import Mathlib.Data.Fintype.Card
import Mathlib.Data.Set.Finite.List
import Mathlib.Order.WellFounded
import Mathlib.Data.List.Nodup
import Mathlib.Logic.Relation

/-! Orders of a finite set in which every element stands after those it waits for, the
smallest free element taken first. -/
namespace Glia.Kit.Topo

open Relation

variable {α : Type*} (before : α → α → Prop)

def Due (taken : List α) (c : α) : Prop := c ∉ taken ∧ ∀ p, before p c → p ∈ taken

open Classical in
noncomputable def free (nodes taken : List α) : List α :=
  nodes.filter fun c => Due before taken c

/-- Take the first free element, at most `fuel` times. -/
noncomputable def takeFrom (nodes : List α) : ℕ → List α → List α
  | 0, taken => taken
  | fuel + 1, taken =>
    match free before nodes taken with
    | [] => taken
    | c :: _ => takeFrom nodes fuel (taken ++ [c])

variable {before}

theorem mem_free (nodes taken : List α) (c : α) :
    c ∈ free before nodes taken ↔ c ∈ nodes ∧ Due before taken c := by
  simp [free]

structure Good (before : α → α → Prop) (nodes taken : List α) : Prop where
  nodup : taken.Nodup
  sub : ∀ c ∈ taken, c ∈ nodes
  after : ∀ pre c post, taken = pre ++ c :: post → ∀ p, before p c → p ∈ pre

theorem Good.nil (nodes : List α) : Good before nodes [] where
  nodup := List.nodup_nil
  sub c mem := nomatch mem
  after pre c post eq := by
    cases pre <;> cases eq

theorem Good.take {nodes taken : List α} (h : Good before nodes taken) {c : α}
    (due : c ∈ free before nodes taken) : Good before nodes (taken ++ [c]) := by
  have hc := (mem_free nodes taken c).mp due
  exact {
    nodup := by
      rw [List.nodup_append]
      refine ⟨h.nodup, List.nodup_singleton c, fun a ha b hb eq => ?_⟩
      rw [List.mem_singleton.mp hb] at eq
      exact hc.2.1 (eq ▸ ha)
    sub := by
      intro x mem
      rcases List.mem_append.mp mem with mem | mem
      · exact h.sub x mem
      · rw [List.mem_singleton.mp mem]
        exact hc.1
    after := by
      intro pre x post eq p bef
      rcases List.eq_nil_or_concat post with rfl | ⟨post', y, rfl⟩
      · obtain ⟨eqPre, eqX⟩ := List.append_inj' eq rfl
        cases eqX
        rw [← eqPre]
        exact hc.2.2 p bef
      · rw [List.concat_eq_append, ← List.cons_append, ← List.append_assoc] at eq
        exact h.after pre x post' (List.append_inj' eq rfl).1 p bef }

theorem takeFrom_good (nodes : List α) (fuel : ℕ) {taken : List α}
    (h : Good before nodes taken) : Good before nodes (takeFrom before nodes fuel taken) := by
  induction fuel generalizing taken with
  | zero => exact h
  | succ fuel ih =>
    rw [takeFrom]
    split
    · exact h
    · rename_i c rest eq
      apply ih
      apply h.take
      rw [eq]
      exact List.mem_cons_self

section Complete

variable {nodes : List α} (acyclic : ∀ c, ¬ TransGen before c c)
variable (inside : ∀ p c, before p c → p ∈ nodes)

include acyclic inside

theorem free_ne_nil {taken : List α} {c : α} (mem : c ∈ nodes) (out : c ∉ taken) :
    free before nodes taken ≠ [] := by
  let r : {x // x ∈ nodes} → {x // x ∈ nodes} → Prop := fun a b => TransGen before a b
  have : Finite {x // x ∈ nodes} := (List.finite_toSet nodes).to_subtype
  have : IsTrans {x // x ∈ nodes} r := ⟨fun _ _ _ => TransGen.trans⟩
  have : Std.Irrefl r := ⟨fun a => acyclic a⟩
  obtain ⟨m, outM, least⟩ := (Finite.wellFounded_of_trans_of_irrefl r).has_min
    {x | x.1 ∉ taken} ⟨⟨c, mem⟩, out⟩
  have due : m.1 ∈ free before nodes taken := by
    rw [mem_free]
    refine ⟨m.2, outM, fun p bef => ?_⟩
    by_contra outP
    exact least ⟨p, inside p m bef⟩ outP (.single bef)
  exact List.ne_nil_of_mem due

theorem takeFrom_complete (fuel : ℕ) {taken : List α} (h : Good before nodes taken)
    (enough : nodes.length ≤ taken.length + fuel) :
    ∀ c ∈ nodes, c ∈ takeFrom before nodes fuel taken := by
  induction fuel generalizing taken with
  | zero =>
    intro c mem
    have sub := List.subperm_of_subset h.nodup h.sub
    exact (sub.perm_of_length_le (by omega)).mem_iff.mpr mem
  | succ fuel ih =>
    rw [takeFrom]
    split
    · rename_i none
      intro c mem
      by_contra out
      exact free_ne_nil acyclic inside mem out none
    · rename_i c rest eq
      apply ih
      · apply h.take
        rw [eq]
        exact List.mem_cons_self
      · rw [List.length_append, List.length_singleton]
        omega

end Complete

theorem Good.idxOf_lt [DecidableEq α] {nodes taken : List α} (h : Good before nodes taken)
    {p c : α} (bef : before p c) (mem : c ∈ taken) : taken.idxOf p < taken.idxOf c := by
  obtain ⟨pre, post, eq⟩ := List.append_of_mem mem
  have hp := h.after pre c post eq p bef
  have nodup := h.nodup
  rw [eq] at nodup
  have out : c ∉ pre := by
    intro hc
    exact (List.nodup_append.mp nodup).2.2 c hc c List.mem_cons_self rfl
  rw [eq, List.idxOf_append_of_mem hp, List.idxOf_append_of_notMem out, List.idxOf_cons_self]
  have := List.idxOf_lt_length_iff.mpr hp
  omega

end Glia.Kit.Topo
