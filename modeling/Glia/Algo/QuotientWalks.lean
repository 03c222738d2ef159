import Glia.Algo.Quotient

/-! The classes of pairs, and breadth-first depths over a contracted graph. -/
namespace Glia.Algo

open Relation (EqvGen)
open ClassTable (ends proper IsClass SameLinks)

theorem fromPairs_classes {pairs : List (NodeId × NodeId)}
    (few : (ends (proper pairs)).length ≤ indexLimit) {x : NodeId × List NodeId}
    (mem : x ∈ (ClassTable.fromPairs pairs).classes) : IsClass (EqvGen (Linked pairs)) x.1 x.2 :=
  (ClassTable.mem_classes few x.1 x.2).mp mem

theorem fromPairs_over {pairs : List (NodeId × NodeId)}
    (many : ¬ (ends (proper pairs)).length ≤ indexLimit) :
    ClassTable.fromPairs pairs = ClassTable.empty :=
  ClassTable.fromPairsCapped_over (Nat.lt_of_not_le many)

theorem fromPairs_sorted (pairs : List (NodeId × NodeId)) :
    (ClassTable.fromPairs pairs).classes.Pairwise fun x y => x.1 < y.1 := by
  by_cases few : (ends (proper pairs)).length ≤ indexLimit
  · unfold ClassTable.fromPairs
    rw [ClassTable.fromPairsCapped_eq few]
    exact ClassTable.classes_ascending (ClassTable.ends_ascending _)
  · rw [fromPairs_over few]
    exact List.Pairwise.nil

theorem forall_fromPairs {pairs : List (NodeId × NodeId)} {P : NodeId × List NodeId → Prop}
    (each : ∀ x, IsClass (EqvGen (Linked pairs)) x.1 x.2 → P x) :
    ∀ x ∈ (ClassTable.fromPairs pairs).classes, P x := by
  by_cases few : (ends (proper pairs)).length ≤ indexLimit
  · exact fun x mem => each x (fromPairs_classes few mem)
  · rw [fromPairs_over few]
    exact fun x mem => absurd mem List.not_mem_nil

def Classes.fromPairs (pairs : List (NodeId × NodeId)) : Classes where
  sets := (ClassTable.fromPairs pairs).classes.map Prod.snd
  ascending := by
    rw [List.forall_mem_map]
    exact forall_fromPairs fun _ h => h.ascending
  several := by
    rw [List.forall_mem_map]
    exact forall_fromPairs fun _ h => h.several
  disjoint := by
    rw [List.pairwise_map]
    have each := forall_fromPairs
      (P := fun x => IsClass (EqvGen (Linked pairs)) x.1 x.2) fun _ h => h
    apply (fromPairs_sorted pairs).imp_of_mem
    intro x y memX memY before a inX inY
    have hx := each x memX
    have hy := each y memY
    have link : EqvGen (Linked pairs) x.1 y.1 :=
      .trans _ _ _ ((hx.members a).mp inX) (.symm _ _ ((hy.members a).mp inY))
    have inside := (hy.members x.1).mpr (.symm _ _ link)
    have least := ClassTable.leader_le hy.ascending inside
    rw [hy.least] at least
    exact absurd before (Nat.not_lt_of_le least)
  sorted := by
    rw [List.pairwise_map]
    have each : ∀ x ∈ (ClassTable.fromPairs pairs).classes, leader x.2 = x.1 :=
      forall_fromPairs fun _ h => h.least
    apply (fromPairs_sorted pairs).imp_of_mem
    intro x y memX memY before
    rw [each x memX, each y memY]
    exact before

theorem exists_class {pairs : List (NodeId × NodeId)} {a : NodeId}
    (moved : ClassTable.repBy pairs a ≠ a) : ∃ s,
      IsClass (EqvGen (Linked pairs)) (ClassTable.repBy pairs a) s ∧ a ∈ s := by
  have link : EqvGen (Linked pairs) a (ClassTable.repBy pairs a) := ClassTable.repBy_linked a
  have inside := ClassTable.mem_ends_of_linked (EqvGen.symm _ _ link) moved
  obtain ⟨q, at'⟩ := List.mem_iff_getElem?.mp inside
  have lt := (List.getElem?_eq_some_iff.mp at').1
  have here : (ends (proper pairs)).getD q 0 = ClassTable.repBy pairs a := by
    rw [List.getD_eq_getElem?_getD, at', Option.getD_some]
  have top : (ClassTable.rootsOf pairs).root q = q := by
    have ascending := ClassTable.ends_ascending (proper pairs)
    apply ClassTable.ids_injective ascending
      (((ClassTable.rootsOf pairs).root_le q).trans_lt lt) lt
    rw [← ClassTable.repOf_at ascending lt, here]
    exact ClassTable.repBy_repBy a
  have isClass := ClassTable.members_isClass lt top
  rw [here] at isClass
  exact ⟨_, isClass, (isClass.members a).mpr (EqvGen.symm _ _ link)⟩

theorem rep_fromPairs (pairs : List (NodeId × NodeId)) (id : NodeId) :
    (Classes.fromPairs pairs).rep id = (ClassTable.fromPairs pairs).rep id := by
  by_cases few : (ends (proper pairs)).length ≤ indexLimit
  · rw [ClassTable.fromPairs, ClassTable.rep_eq_repBy few]
    by_cases held : ∃ s ∈ (Classes.fromPairs pairs).sets, id ∈ s
    · obtain ⟨s, memS, memId⟩ := held
      obtain ⟨⟨r, s⟩, memX, rfl⟩ := List.mem_map.mp memS
      have isClass := fromPairs_classes few memX
      rw [(Classes.fromPairs pairs).rep_of_mem memS memId, isClass.least]
      apply le_antisymm
      · have among := (isClass.members _).mpr
          (EqvGen.trans _ _ _ ((isClass.members id).mp memId) (ClassTable.repBy_linked id))
        exact isClass.least ▸ ClassTable.leader_le isClass.ascending among
      · have same := (ClassTable.repBy_eq_iff r id).mpr ((isClass.members id).mp memId)
        exact same ▸ ClassTable.repBy_le r
    · have alone : ∀ s ∈ (Classes.fromPairs pairs).sets, id ∉ s := fun s mem inS =>
        held ⟨s, mem, inS⟩
      rw [(Classes.fromPairs pairs).rep_of_none alone]
      by_contra moved
      obtain ⟨s, isClass, inS⟩ := exists_class (a := id) fun eq => moved eq.symm
      have listed := (ClassTable.mem_classes few _ _).mpr isClass
      exact alone s (List.mem_map_of_mem listed) inS
  · have none : (Classes.fromPairs pairs).sets = [] := by
      change (ClassTable.fromPairs pairs).classes.map Prod.snd = []
      rw [fromPairs_over few]
      rfl
    rw [(Classes.fromPairs pairs).rep_of_none (by simp [none]), fromPairs_over few]
    rfl

/-- The table of a list of pairs is that of the equivalence they generate: its classes of two ids
or more, each under its least id, whatever the order and the direction of the pairs. -/
structure ClassesExact (pairs : List (NodeId × NodeId)) : Prop where
  classes : ∀ r s, (r, s) ∈ (ClassTable.fromPairs pairs).classes ↔
    IsClass (EqvGen (Linked pairs)) r s
  sorted : (ClassTable.fromPairs pairs).classes.Pairwise fun x y => x.1 < y.1
  least : ∀ a, IsLeast {b | EqvGen (Linked pairs) a b} ((ClassTable.fromPairs pairs).rep a)
  order : ∀ pairs', SameLinks pairs pairs' →
    ClassTable.fromPairs pairs' = ClassTable.fromPairs pairs
  rep : ∀ a, (Classes.fromPairs pairs).rep a = (ClassTable.fromPairs pairs).rep a

structure QuotientExact (inner : GraphSource) (c : Classes) (keep : CategorySet) (walk : Walk)
    (maxDepth : Nat) (seeds : List NodeId) : Prop where
  nodes : (Quotient.new inner c).source.nodeIds = Kit.firsts id (inner.nodeIds.map c.rep)
  edges : (Quotient.new inner c).source.edges =
    (inner.edges.filter fun e => !intraClass c e).map (contract c)
  collapsed : (Quotient.new inner c).collapsed = (inner.edges.filter (intraClass c)).length
  depths : ∀ y k, (c.rep y, k) ∈ (bfs (Adjacency.build (Quotient.new inner c).source keep)
      (seeds.map c.rep) walk maxDepth).reached.map (fun r => (r.id, r.depth)) ↔
    1 ≤ k ∧ k ≤ maxDepth ∧ IsLeast {n | ∃ s ∈ seeds, Crossing inner c keep walk n s y} k
  once : ((bfs (Adjacency.build (Quotient.new inner c).source keep) (seeds.map c.rep) walk
    maxDepth).reached.map fun r => r.id).Nodup

/-- Within the index limit pairs give the classes of the equivalence they generate, and depths
over a contracted graph are those of walks that cross its classes for free. -/
theorem classes_and_quotient_exact (pairs : List (NodeId × NodeId))
    (few : (ends (proper pairs)).length ≤ indexLimit) (inner : GraphSource) (c : Classes)
    (keep : CategorySet) (fits : (Quotient.new inner c).source.Fits keep indexLimit) (walk : Walk)
    (maxDepth : Nat) (seeds : List NodeId) :
    ClassesExact pairs ∧ QuotientExact inner c keep walk maxDepth seeds := by
  refine ⟨⟨ClassTable.mem_classes few, fromPairs_sorted pairs, fun a => ?_, fun pairs' same => ?_,
    rep_fromPairs pairs⟩, ⟨new_nodes inner c, (new_edges inner c).1, (new_edges inner c).2,
    fun y k => ?_, ?_⟩⟩
  · rw [ClassTable.fromPairs, ClassTable.rep_eq_repBy few]
    refine ⟨ClassTable.repBy_linked a, fun b link => ?_⟩
    rw [(ClassTable.repBy_eq_iff a b).mpr link]
    exact ClassTable.repBy_le b
  · exact (ClassTable.fromPairsCapped_congr same _).symm
  · unfold Adjacency.build
    rw [(mem_bfs fits (seeds.map c.rep) walk maxDepth).1, dist_contract]
  · exact (mem_bfs fits (seeds.map c.rep) walk maxDepth).2

section Witness

def oneClass : Classes where
  sets := [[4, 7]]
  ascending := by decide
  several := by decide
  disjoint := List.pairwise_singleton _ _
  sorted := List.pairwise_singleton _ _

/-- `a → b → c → d`, and a loop at `d`. -/
def chain : GraphSource where
  nodeIds := [1, 7, 4, 9]
  edges := [⟨1, 7, 4, .strong, []⟩, ⟨7, 4, 4, .strong, []⟩, ⟨4, 9, 4, .strong, []⟩,
    ⟨9, 9, 4, .strong, []⟩]

theorem chain_crossed : ClassesExact [(7, 4), (4, 4)] ∧
    QuotientExact chain oneClass .all .forward usizeMax [1] :=
  classes_and_quotient_exact [(7, 4), (4, 4)] (by decide) chain oneClass .all (by decide) .forward
    usizeMax [1]

end Witness

/-- Past the limit there are no classes. -/
theorem past_limit_no_classes :
    ¬ ClassesExact ((List.range (indexLimit + 1)).map fun i => (0, i + 1)) := by
  intro h
  have many : ¬ (ends (proper ((List.range (indexLimit + 1)).map fun i =>
      ((0 : NodeId), i + 1)))).length ≤ indexLimit := by
    intro few
    have sub : (List.range (indexLimit + 1)).map (· + 1) ⊆
        ends (proper ((List.range (indexLimit + 1)).map fun i => ((0 : NodeId), i + 1))) := by
      intro a mem
      obtain ⟨i, memI, rfl⟩ := List.mem_map.mp mem
      have pair := List.mem_map_of_mem (f := fun i => ((0 : NodeId), i + 1)) memI
      exact ClassTable.mem_ends.mpr ⟨_, List.mem_filter.mpr ⟨pair, by simp⟩, .inr rfl⟩
    have once : ((List.range (indexLimit + 1)).map (· + 1)).Nodup :=
      List.nodup_range.map fun a b eq => Nat.succ.inj eq
    have count := (once.subperm sub).length_le
    rw [List.length_map, List.length_range] at count
    omega
  have link : EqvGen (Linked ((List.range (indexLimit + 1)).map fun i => (0, i + 1))) 1 0 := by
    apply EqvGen.symm
    apply EqvGen.rel
    exact List.mem_map_of_mem (f := fun i => ((0 : NodeId), i + 1)) (List.mem_range.mpr (by omega))
  have low := (h.least 1).2 link
  rw [fromPairs_over many] at low
  exact absurd low (by decide)

end Glia.Algo
