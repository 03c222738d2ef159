import Glia.Algo.Delta

/-! The moves a delta applies: a subset of the given pairs that renames no two ids into one. -/
namespace Glia.Algo

open Glia.Graph (IdMap)
open Glia.Kit (OrdMap)

section Accept
variable {old new : IdMap Texts} {pairs : List (NodeId × NodeId)}

structure Accepted.Sound (old new : IdMap Texts) (pairs : List (NodeId × NodeId))
    (s : Accepted) : Prop where
  listed : ∀ b a : NodeId, s.moves[b]? = some a → (b, a) ∈ pairs
  held : ∀ b a : NodeId, s.moves[b]? = some a →
    b ≠ a ∧ old.contains b = true ∧ new.contains a = true
  targets : ∀ a, a ∈ s.targets ↔ ∃ b : NodeId, s.moves[b]? = some a
  injective : ∀ b b' a : NodeId, s.moves[b]? = some a → s.moves[b']? = some a → b = b'

theorem Accepted.Sound.acceptPair {s : Accepted} (sound : s.Sound old new pairs)
    {p : NodeId × NodeId} (mem : p ∈ pairs) : (acceptPair old new s p).Sound old new pairs := by
  rw [Algo.acceptPair]
  split
  · rename_i fits
    obtain ⟨apart, held, reached, fresh, free⟩ := fits
    have unmoved : s.moves[p.1]? = none := by
      rw [Bool.not_eq_true', OrdMap.contains_eq_isSome] at fresh
      exact Option.isSome_eq_false_iff.mp fresh |> Option.isNone_iff_eq_none.mp
    have get : ∀ b : NodeId, (s.moves.insert p.1 p.2)[b]? =
        if p.1 = b then some p.2 else s.moves[b]? := by
      intro b
      rw [OrdMap.get_insert]
    refine ⟨?_, ?_, ?_, ?_⟩
    · intro b a moved
      simp only [get] at moved
      split at moved
      · rename_i same
        cases moved
        exact same ▸ mem
      · exact sound.listed b a moved
    · intro b a moved
      simp only [get] at moved
      split at moved
      · rename_i same
        cases moved
        exact ⟨same ▸ apart, same ▸ held, reached⟩
      · exact sound.held b a moved
    · intro a
      simp only [get, Finset.mem_insert, sound.targets]
      constructor
      · rintro (rfl | ⟨b, moved⟩)
        · exact ⟨p.1, if_pos rfl⟩
        · refine ⟨b, ?_⟩
          rw [if_neg, moved]
          rintro rfl
          rw [unmoved] at moved
          cases moved
      · rintro ⟨b, moved⟩
        split at moved
        · cases moved
          exact .inl rfl
        · exact .inr ⟨b, moved⟩
    · intro b b' a moved moved'
      simp only [get] at moved moved'
      split at moved <;> split at moved'
      · rename_i same same'
        exact same.symm.trans same'
      · cases moved
        exact absurd ((sound.targets _).mpr ⟨b', moved'⟩) free
      · cases moved'
        exact absurd ((sound.targets _).mpr ⟨b, moved⟩) free
      · exact sound.injective b b' a moved moved'
  · exact ⟨sound.listed, sound.held, sound.targets, sound.injective⟩

theorem acceptPairs_sound (ps : List (NodeId × NodeId)) (sub : ∀ p ∈ ps, p ∈ pairs)
    {s : Accepted} (sound : s.Sound old new pairs) :
    (ps.foldl (acceptPair old new) s).Sound old new pairs := by
  induction ps generalizing s with
  | nil => exact sound
  | cons p ps ih =>
    rw [List.foldl_cons]
    exact ih (fun q hq => sub q (List.mem_cons_of_mem p hq))
      (sound.acceptPair (sub p List.mem_cons_self))

theorem acceptPairs_congr {old' new' : IdMap Texts} (ps : List (NodeId × NodeId))
    (same : ∀ p ∈ ps, old.contains p.1 = old'.contains p.1 ∧
      new.contains p.2 = new'.contains p.2) (s : Accepted) :
    ps.foldl (acceptPair old new) s = ps.foldl (acceptPair old' new') s := by
  induction ps generalizing s with
  | nil => rfl
  | cons p ps ih =>
    have here := same p List.mem_cons_self
    rw [List.foldl_cons, List.foldl_cons, ih fun q hq => same q (List.mem_cons_of_mem p hq)]
    congr 1
    rw [acceptPair, acceptPair, here.1, here.2]

end Accept

section Settle
variable (taken : NodeId → Bool)

theorem dropClashes_get (moves : IdMap NodeId) (b a : NodeId) :
    (dropClashes taken moves)[b]? = some a ↔
      moves[b]? = some a ∧ (taken a = true → moves.contains a = true) := by
  rw [dropClashes, OrdMap.get_filter, Option.filter_eq_some_iff]
  apply and_congr_right
  intro _
  cases taken a <;> simp

theorem settleMoves_sub (fuel : Nat) (moves : IdMap NodeId) {b a : NodeId}
    (h : (settleMoves taken fuel moves)[b]? = some a) : moves[b]? = some a := by
  induction fuel generalizing moves with
  | zero => exact h
  | succ fuel ih =>
    rw [settleMoves] at h
    split at h
    · exact h
    · exact ((dropClashes_get taken moves b a).mp (ih _ h)).1

theorem settleMoves_settled (fuel : Nat) (moves : IdMap NodeId) (enough : moves.size ≤ fuel)
    {b a : NodeId} (h : (settleMoves taken fuel moves)[b]? = some a) (named : taken a = true) :
    (settleMoves taken fuel moves).contains a = true := by
  induction fuel generalizing moves with
  | zero =>
    have empty : moves = ∅ := Std.ExtTreeMap.eq_empty_iff_size_eq_zero.mpr (Nat.le_zero.mp enough)
    rw [settleMoves, empty] at h
    cases h
  | succ fuel ih =>
    rw [settleMoves] at h ⊢
    split at h
    · rename_i stable
      rw [if_pos stable]
      have kept : (dropClashes taken moves)[b]? = some a := by
        rw [dropClashes, Std.ExtTreeMap.size_filter_eq_size_iff] at stable
        have mem : b ∈ moves := Std.ExtTreeMap.mem_iff_isSome_getElem?.mpr (by simp [h])
        rw [dropClashes, OrdMap.get_filter, h, Option.filter_eq_some_iff]
        refine ⟨rfl, ?_⟩
        have there := stable b mem
        simpa [Std.ExtTreeMap.getElem_eq_get_getElem?, h] using there
      exact ((dropClashes_get taken moves b a).mp kept).2 named
    · rename_i shrinks
      rw [if_neg shrinks]
      apply ih _ _ h
      have le : (dropClashes taken moves).size ≤ moves.size :=
        Std.ExtTreeMap.size_filter_le_size
      omega

end Settle

section Applied
variable (pairs : List (NodeId × NodeId)) (before : DeltaSide) (old new : IdMap Texts)

structure Applied (moves : IdMap NodeId) : Prop where
  listed : ∀ b a : NodeId, moves[b]? = some a → (b, a) ∈ pairs
  held : ∀ b a : NodeId, moves[b]? = some a →
    b ≠ a ∧ old.contains b = true ∧ new.contains a = true
  injective : ∀ b b' a : NodeId, moves[b]? = some a → moves[b']? = some a → b = b'
  away : ∀ b a : NodeId, moves[b]? = some a →
    (old.contains a = true ∨ ∃ e ∈ before.edges, e.fromId = a ∨ e.toId = a) →
      ∃ c : NodeId, moves[a]? = some c

theorem acceptMoves_applied :
    Applied pairs before old new (acceptMoves pairs before old new).1 := by
  have sound : (pairs.foldl (acceptPair old new) {}).Sound old new pairs :=
    acceptPairs_sound pairs (fun p hp => hp) ⟨by simp, by simp, by simp, by simp⟩
  have sub : ∀ b a : NodeId, (acceptMoves pairs before old new).1[b]? = some a →
      (pairs.foldl (acceptPair old new) {}).moves[b]? = some a :=
    fun b a h => settleMoves_sub _ _ _ h
  refine ⟨fun b a h => sound.listed b a (sub b a h), fun b a h => sound.held b a (sub b a h),
    fun b b' a h h' => sound.injective b b' a (sub b a h) (sub b' a h'), ?_⟩
  intro b a moved names
  have target := (sound.targets a).mpr ⟨b, sub b a moved⟩
  have taken : named before old (pairs.foldl (acceptPair old new) {}).targets a = true := by
    simpa [named, target] using names
  have settled := settleMoves_settled _ _ _ (Nat.le_refl _) moved taken
  rw [OrdMap.contains_eq_isSome, Option.isSome_iff_exists] at settled
  exact settled

theorem acceptMoves_congr {before' : DeltaSide} {old' new' : IdMap Texts} {ids : NodeId → Prop}
    (inside : ∀ p ∈ pairs, ids p.1 ∧ ids p.2)
    (sameOld : ∀ id, ids id → old.contains id = old'.contains id)
    (sameNew : ∀ id, ids id → new.contains id = new'.contains id)
    (sameEdges : ∀ id, ids id → ((∃ e ∈ before.edges, e.fromId = id ∨ e.toId = id) ↔
      ∃ e ∈ before'.edges, e.fromId = id ∨ e.toId = id)) :
    acceptMoves pairs before old new = acceptMoves pairs before' old' new' := by
  have states := acceptPairs_congr pairs (fun p mem =>
    ⟨sameOld p.1 (inside p mem).1, sameNew p.2 (inside p mem).2⟩) {}
  have sound : (pairs.foldl (acceptPair old new) {}).Sound old new pairs :=
    acceptPairs_sound pairs (fun p hp => hp) ⟨by simp, by simp, by simp, by simp⟩
  have names : named before old (pairs.foldl (acceptPair old new) {}).targets =
      named before' old' (pairs.foldl (acceptPair old new) {}).targets := by
    funext a
    rw [named, named, Bool.eq_iff_iff, decide_eq_true_eq, decide_eq_true_eq]
    apply and_congr_right
    intro target
    obtain ⟨b, moved⟩ := (sound.targets a).mp target
    have here := (inside _ (sound.listed b a moved)).2
    simpa [sameOld a here] using or_congr_right (sameEdges a here)
  rw [acceptMoves, acceptMoves, names, states]

end Applied

end Glia.Algo
