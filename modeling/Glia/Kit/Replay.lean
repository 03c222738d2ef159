import Mathlib.Logic.Function.Basic
import Mathlib.Data.List.Induction
import Mathlib.Data.List.Nodup

/-! A keyed store that a log of whole replacements is played into. -/
namespace Glia.Kit.Replay
variable {K V : Type} [DecidableEq K]

def after (d : K → Option V) (log : List (K × V)) : K → Option V :=
  log.foldl (fun d p => Function.update d p.1 (some p.2)) d

/-- The last value the log puts under a key. -/
def lastTo (log : List (K × V)) (k : K) : Option V :=
  log.foldl (fun last p => if p.1 = k then some p.2 else last) none

@[simp] theorem after_nil (d : K → Option V) : after d [] = d := rfl

theorem after_append (d : K → Option V) (log log' : List (K × V)) :
    after d (log ++ log') = after (after d log) log' := List.foldl_append

theorem after_concat (d : K → Option V) (log : List (K × V)) (k : K) (v : V) :
    after d (log ++ [(k, v)]) = Function.update (after d log) k (some v) := by
  rw [after_append]
  rfl

theorem lastTo_concat (log : List (K × V)) (p : K × V) (k : K) :
    lastTo (log ++ [p]) k = if p.1 = k then some p.2 else lastTo log k := by
  rw [lastTo, lastTo, List.foldl_append]
  rfl

theorem after_apply (d : K → Option V) (log : List (K × V)) (k : K) :
    after d log k = (lastTo log k).or (d k) := by
  induction log using List.reverseRecOn with
  | nil => rfl
  | append_singleton log p ih =>
    rw [after_concat d log p.1 p.2, lastTo_concat, Function.update_apply]
    split
    · rename_i same
      rw [if_pos same.symm]
      rfl
    · rename_i apart
      rw [if_neg (Ne.symm apart), ih]

theorem lastTo_eq_none {log : List (K × V)} {k : K} : lastTo log k = none ↔ ∀ p ∈ log, p.1 ≠ k := by
  induction log using List.reverseRecOn with
  | nil => exact ⟨fun _ _ mem => (nomatch mem), fun _ => rfl⟩
  | append_singleton log p ih =>
    rw [lastTo_concat, List.forall_mem_append, List.forall_mem_singleton, ← ih]
    split
    · rename_i same
      exact ⟨fun none => (nomatch none), fun h => absurd same h.2⟩
    · rename_i apart
      exact ⟨fun none => ⟨none, apart⟩, And.left⟩

theorem lastTo_mem {log : List (K × V)} {k : K} {v : V} (last : lastTo log k = some v) :
    (k, v) ∈ log := by
  induction log using List.reverseRecOn with
  | nil => cases last
  | append_singleton log p ih =>
    rw [lastTo_concat] at last
    split at last
    · rename_i same
      cases last
      rw [← same]
      exact List.mem_append_right _ List.mem_cons_self
    · exact List.mem_append_left _ (ih last)

theorem after_apart (d : K → Option V) {log : List (K × V)} {k : K} (apart : ∀ p ∈ log, p.1 ≠ k) :
    after d log k = d k := by
  rw [after_apply, lastTo_eq_none.mpr apart]
  rfl

theorem after_take (d : K → Option V) (log : List (K × V)) {i j : Nat} (le : i ≤ j) (k : K) :
    after d (log.take j) k = (lastTo ((log.take j).drop i) k).or (after d (log.take i) k) := by
  have split : log.take j = log.take i ++ (log.take j).drop i := by
    have cut := (List.take_append_drop i (log.take j)).symm
    rw [List.take_take, Nat.min_eq_left le] at cut
    exact cut
  rw [← after_apply, ← after_append, ← split]

end Glia.Kit.Replay

/-! Keyed stores whose entries are removed, and moved over from another store. -/
namespace Glia.Kit.FileMoves
variable {K V : Type} [DecidableEq K]

def moveTo (src dst : K → Option V) (k : K) : Option ((K → Option V) × (K → Option V)) :=
  match src k with
  | none => none
  | some v => some (Function.update src k none, Function.update dst k (some v))

theorem moveTo_some {src dst : K → Option V} {k : K} {v : V} (there : src k = some v) :
    moveTo src dst k =
      some (Function.update src k none, Function.update dst k (some v)) := by
  rw [moveTo, there]

def removeAll (d : K → Option V) (ks : List K) : K → Option V :=
  ks.foldl (fun d k => Function.update d k none) d

theorem removeAll_apply (d : K → Option V) (ks : List K) (k : K) :
    removeAll d ks k = if k ∈ ks then none else d k := by
  induction ks generalizing d with
  | nil => rfl
  | cons j ks ih =>
    change removeAll (Function.update d j none) ks k = _
    rw [ih, Function.update_apply]
    by_cases later : k ∈ ks
    · rw [if_pos later, if_pos (List.mem_cons_of_mem j later)]
    · rw [if_neg later]
      by_cases same : k = j
      · rw [if_pos same, if_pos (List.mem_cons.mpr (Or.inl same))]
      · rw [if_neg same, if_neg (List.not_mem_cons_of_ne_of_not_mem same later)]

/-- Move every key over, counting nothing: the keys that are not there are passed over. -/
def moveAll (p : (K → Option V) × (K → Option V)) (ks : List K) :
    (K → Option V) × (K → Option V) :=
  ks.foldl (fun p k => (moveTo p.1 p.2 k).getD p) p

theorem moveAll_snd {src dst : K → Option V} {ks : List K} (once : ks.Nodup)
    (there : ∀ k ∈ ks, (src k).isSome) (k : K) :
    (moveAll (src, dst) ks).2 k = if k ∈ ks then src k else dst k := by
  induction ks generalizing src dst with
  | nil => rfl
  | cons j ks ih =>
    obtain ⟨fresh, once⟩ := List.nodup_cons.mp once
    obtain ⟨v, held⟩ := Option.isSome_iff_exists.mp (there j List.mem_cons_self)
    have step : moveAll (src, dst) (j :: ks) =
        moveAll (Function.update src j none, Function.update dst j (some v)) ks := by
      change moveAll ((moveTo src dst j).getD (src, dst)) ks = _
      rw [moveTo_some held]
      rfl
    have rest : ∀ i ∈ ks, (Function.update src j none i).isSome := by
      intro i mem
      have apart : i ≠ j := fun same => fresh (same ▸ mem)
      rw [Function.update_of_ne apart]
      exact there i (List.mem_cons_of_mem j mem)
    rw [step, ih once rest, Function.update_apply, Function.update_apply]
    by_cases same : k = j
    · rw [if_neg (fun mem => fresh (same ▸ mem)), if_pos same,
        if_pos (List.mem_cons.mpr (Or.inl same)), same, held]
    · by_cases later : k ∈ ks
      · rw [if_pos later, if_neg same, if_pos (List.mem_cons_of_mem j later)]
      · rw [if_neg later, if_neg same, if_neg (List.not_mem_cons_of_ne_of_not_mem same later)]

end Glia.Kit.FileMoves
