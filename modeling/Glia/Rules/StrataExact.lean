import Glia.Algo.CyclesExact
import Glia.Algo.ReachIds
import Glia.Kit.Grouping
import Glia.Rules.Kahn
import Mathlib.Data.List.Find

/-! Stratification against the reads between predicates: the strata are the components, in the
order of the reads that cross them. -/
open Relation

namespace Glia.Rules

open Glia.Kit Glia.Algo

def Reads (edges : List DepEdge) (b h : Nat) : Prop := ∃ e ∈ edges, e.body = b ∧ e.head = h

theorem predRange_lt {npreds : Nat} {edges : List DepEdge} {e : DepEdge} (mem : e ∈ edges) :
    e.body < predRange npreds edges ∧ e.head < predRange npreds edges := by
  have := (Kit.foldl_max_spec (edges.map fun e => max e.body e.head + 1) npreds).2.1 _
    (List.mem_map_of_mem mem)
  rw [predRange]
  omega

theorem predRange_perm {npreds : Nat} {edges edges' : List DepEdge} (perm : edges'.Perm edges) :
    predRange npreds edges' = predRange npreds edges := by
  rw [predRange, predRange]
  exact (perm.map _).foldl_eq npreds

theorem Reads.congr {edges edges' : List DepEdge} (perm : edges'.Perm edges) :
    Reads edges' = Reads edges := by
  funext b h
  apply propext
  rw [Reads, Reads]
  exact exists_congr fun e => and_congr_left fun _ => perm.mem_iff

section Index

theorem internAll_fresh {cap : Nat} {ids new : List NodeId} (nodup : (ids ++ new).Nodup)
    (room : (ids ++ new).length ≤ cap) : Adjacency.internAll cap ids new = some (ids ++ new) := by
  induction new generalizing ids with
  | nil =>
    rw [List.append_nil]
    rfl
  | cons id rest ih =>
    have fresh : id ∉ ids := by
      intro mem
      exact (List.nodup_append.mp nodup).2.2 id mem id List.mem_cons_self rfl
    rw [List.length_append, List.length_cons] at room
    rw [Adjacency.internAll, Adjacency.intern, if_neg fresh, if_neg (by omega), Option.bind_some]
    have all := @ih (ids ++ [id]) (by rw [← List.append_cons]; exact nodup) (by
      rw [List.length_append, List.length_append, List.length_singleton]
      omega)
    rw [← List.append_cons] at all
    exact all

theorem keepEdges_ids {cap : Nat} {ids : List NodeId} {kept : List Algo.Kept} {es : List Edge}
    (inside : ∀ e ∈ es, e.fromId ∈ ids ∧ e.toId ∈ ids) {out : List NodeId × List Algo.Kept}
    (h : Adjacency.keepEdges cap ids kept es = some out) : out.1 = ids := by
  induction es generalizing kept with
  | nil =>
    cases h
    rfl
  | cons e rest ih =>
    rw [Adjacency.keepEdges] at h
    split at h
    · cases h
    · have mem := inside e List.mem_cons_self
      rw [Adjacency.intern, if_pos mem.1, Option.bind_some, Adjacency.intern, if_pos mem.2,
        Option.bind_some] at h
      exact ih (fun e' mem' => inside e' (List.mem_cons_of_mem e mem')) h

variable {n : Nat} {edges : List DepEdge} (inside : ∀ e ∈ edges, e.body < n ∧ e.head < n)

theorem predGraph_kept : (predGraph n edges).keptEdges .all = (predGraph n edges).edges :=
  List.filter_eq_self.mpr fun _ _ => rfl

include inside in
theorem predGraph_fits (small : n ≤ indexLimit) (few : edges.length ≤ indexLimit) :
    (predGraph n edges).Fits .all indexLimit := by
  apply And.intro
  · have sub : (predGraph n edges).indexed .all ⊆ Finset.range n := by
      intro x mem
      rw [GraphSource.indexed, List.mem_toFinset, predGraph_kept, List.mem_append,
        List.mem_flatMap] at mem
      rw [Finset.mem_range]
      rcases mem with mem | ⟨e, mem, ends⟩
      · exact List.mem_range.mp mem
      · obtain ⟨d, hd, rfl⟩ := List.mem_map.mp mem
        have := inside d hd
        rcases List.mem_cons.mp ends with rfl | ends
        · exact this.1
        · rw [List.mem_singleton.mp ends]
          exact this.2
    have := Finset.card_le_card sub
    rw [Finset.card_range] at this
    omega
  · rw [predGraph_kept]
    exact (List.length_map _).trans_le few

include inside in
theorem predGraph_ids (small : n ≤ indexLimit) (few : edges.length ≤ indexLimit) :
    (Adjacency.build (predGraph n edges) .all).ids = List.range n := by
  have nodes : Adjacency.internAll indexLimit [] (predGraph n edges).nodeIds =
      some (List.range n) := by
    have all := @internAll_fresh indexLimit [] (List.range n)
      List.nodup_range (by rw [List.nil_append, List.length_range]; exact small)
    exact all
  have ends : ∀ e ∈ (predGraph n edges).keptEdges .all,
      e.fromId ∈ List.range n ∧ e.toId ∈ List.range n := by
    rw [predGraph_kept]
    intro e mem
    obtain ⟨d, hd, rfl⟩ := List.mem_map.mp mem
    have := inside d hd
    exact ⟨List.mem_range.mpr this.1, List.mem_range.mpr this.2⟩
  have fits := predGraph_fits inside small few
  rw [Adjacency.build, Adjacency.buildCapped]
  split
  · rename_i none
    rw [nodes] at none
    cases none
  · rename_i ids some
    obtain rfl := Option.some.inj (nodes.symm.trans some)
    split
    · rename_i none
      have roomy : (Finset.range n).card ≤ indexLimit := by
        rw [Finset.card_range]
        exact small
      obtain ⟨out, held, _⟩ := Adjacency.keepEdges_isSome roomy
        (fun e mem => by
          have := ends e mem
          rw [List.mem_range, List.mem_range] at this
          rw [Finset.mem_range, Finset.mem_range]
          exact this)
        List.nodup_range (fun x mem => Finset.mem_range.mpr (List.mem_range.mp mem))
        List.Forall₂.nil (by rw [List.length_nil, Nat.zero_add]; exact fits.2)
      rw [held] at none
      cases none
    · rename_i out held
      exact keepEdges_ids ends held

include inside in
theorem predGraph_arc (small : n ≤ indexLimit) (few : edges.length ≤ indexLimit) :
    (Adjacency.build (predGraph n edges) .all).Arc = Reads edges := by
  have ids : (Adjacency.buildCapped (predGraph n edges) .all indexLimit).ids = List.range n :=
    predGraph_ids inside small few
  have kept := kept_iff (predGraph_fits inside small few)
  rw [predGraph_kept, ids] at kept
  have range : ∀ {u x : Nat}, x < n → ((List.range n)[u]? = some x ↔ x = u) := by
    intro u x lt
    rw [List.getElem?_eq_some_iff]
    apply Iff.intro
    · intro ⟨_, eq⟩
      rw [List.getElem_range] at eq
      exact eq.symm
    · intro eq
      subst eq
      exact ⟨by rw [List.length_range]; exact lt, List.getElem_range _⟩
  funext u w
  apply propext
  apply Iff.intro
  · intro ⟨inc, mem, eq⟩
    obtain ⟨e, at_, _, src, dst⟩ := (kept _ _ _ _).mp ((Adjacency.mem_outgoing _ _ _).mp mem)
    obtain ⟨d, hd, rfl⟩ := List.mem_map.mp (List.mem_of_getElem? at_)
    have lt := inside d hd
    exact ⟨d, hd, (range lt.1).mp src, ((range lt.2).mp dst).trans eq⟩
  · intro ⟨d, hd, eqB, eqH⟩
    obtain ⟨j, at_⟩ := List.mem_iff_getElem?.mp hd
    have lt := inside d hd
    refine ⟨⟨j, w, d.dep.category⟩, (Adjacency.mem_outgoing _ _ _).mpr ((kept _ _ _ _).mpr ?_), rfl⟩
    refine ⟨⟨d.body, d.head, d.dep.category, .strong, []⟩, ?_, rfl, ?_, ?_⟩
    · exact (List.getElem?_map ..).trans (by rw [at_]; rfl)
    · exact (range lt.1).mpr eqB
    · exact (range lt.2).mpr eqH

end Index

structure Components (R : Nat → Nat → Prop) (comps : List (List Nat)) : Prop where
  ascending : ∀ c ∈ comps, c.Pairwise (· < ·)
  nonempty : ∀ c ∈ comps, c ≠ []
  cyclic : ∀ c ∈ comps, ∀ x ∈ c, OnCycle R x
  whole : ∀ c ∈ comps, ∀ x ∈ c, ∀ y, y ∈ c ↔ Mutual R x y
  complete : ∀ x, OnCycle R x → ∃ c ∈ comps, x ∈ c
  ordered : comps.Pairwise fun a b => a.headD 0 < b.headD 0

theorem headD_mem {c : List Nat} (ne : c ≠ []) (d : Nat) : c.headD d ∈ c := by
  cases c with
  | nil => exact absurd rfl ne
  | cons x rest => exact List.mem_cons_self

theorem headD_le {c : List Nat} (ascending : c.Pairwise (· < ·)) (d : Nat) {x : Nat}
    (mem : x ∈ c) : c.headD d ≤ x := by
  cases c with
  | nil => cases mem
  | cons y rest =>
    rcases List.mem_cons.mp mem with rfl | mem
    · exact le_rfl
    · exact ((List.pairwise_cons.mp ascending).1 x mem).le

theorem components {n : Nat} {edges : List DepEdge}
    (inside : ∀ e ∈ edges, e.body < n ∧ e.head < n) (small : n ≤ indexLimit)
    (few : edges.length ≤ indexLimit) :
    Components (Reads edges)
      (stronglyConnected (Adjacency.build (predGraph n edges) .all)) := by
  have ids := predGraph_ids inside small few
  have arc := predGraph_arc inside small few
  generalize Adjacency.build (predGraph n edges) .all = adj at ids arc ⊢
  have len : adj.len = n := by
    rw [Adjacency.len, ids, List.length_range]
  have self : ∀ x < n, adj.id x = x := by
    intro x lt
    rw [Adjacency.id, ids, List.getD_eq_getElem?_getD, List.getElem?_range lt, Option.getD_some]
  -- a component's ids are its vertices
  have sound : ∀ c ∈ stronglyConnected adj, ∃ members, IsComponent adj members ∧
      c.Perm members ∧ c.Pairwise (· < ·) := by
    intro c mem
    obtain ⟨members, comp, eq⟩ := stronglyConnected_sound adj mem
    have same : members.map adj.id = members := by
      refine (List.map_congr_left fun x hx => self x ?_).trans (List.map_id members)
      obtain ⟨w, edge, _⟩ := TransGen.head'_iff.mp (comp.cyclic x hx)
      exact len ▸ edge.lt.1
    rw [same] at eq
    have perm : c.Perm members := eq ▸ List.perm_insertionSort _ _
    have weak : c.Pairwise (· ≤ ·) := eq ▸ List.pairwise_insertionSort _ _
    exact ⟨members, comp, perm, weak.imp₂ (fun a b le ne => lt_of_le_of_ne le ne)
      (perm.nodup_iff.mpr comp.nodup)⟩
  exact {
    ascending := by
      intro c mem
      obtain ⟨_, _, _, strict⟩ := sound c mem
      exact strict
    nonempty := by
      intro c mem none
      obtain ⟨members, comp, perm, _⟩ := sound c mem
      rw [none] at perm
      exact comp.nonempty (List.nil_perm.mp perm)
    cyclic := by
      intro c mem x hx
      obtain ⟨members, comp, perm, _⟩ := sound c mem
      exact arc ▸ comp.cyclic x (perm.mem_iff.mp hx)
    whole := by
      intro c mem x hx y
      obtain ⟨members, comp, perm, _⟩ := sound c mem
      rw [perm.mem_iff, ← arc]
      exact comp.whole x (perm.mem_iff.mp hx) y
    complete := by
      intro x cyc
      rw [← arc] at cyc
      obtain ⟨c, mem, held⟩ := stronglyConnected_complete adj cyc
      obtain ⟨w, edge, _⟩ := TransGen.head'_iff.mp cyc
      exact ⟨c, mem, self x (len ▸ edge.lt.1) ▸ held⟩
    ordered := by
      apply ((stronglyConnected_ordered adj).and (stronglyConnected_disjoint adj)).imp_of_mem
      intro a b ha hb both
      apply lt_of_le_of_ne both.1
      have nonempty : ∀ c ∈ stronglyConnected adj, c ≠ [] := by
        intro c mem none
        obtain ⟨members, comp, perm, _⟩ := sound c mem
        rw [none] at perm
        exact comp.nonempty (List.nil_perm.mp perm)
      intro eq
      exact both.2 (headD_mem (nonempty a ha) 0) (eq ▸ headD_mem (nonempty b hb) 0) }

section Component

variable {R : Nat → Nat → Prop} {comps : List (List Nat)} (cs : Components R comps)

include cs

theorem Components.unique {comps' : List (List Nat)} (cs' : Components R comps') :
    comps = comps' := by
  have sub : ∀ {l l' : List (List Nat)}, Components R l → Components R l' → ∀ c ∈ l, c ∈ l' := by
    intro l l' h h' c mem
    have hx := headD_mem (h.nonempty c mem) 0
    obtain ⟨c', mem', held⟩ := h'.complete _ (h.cyclic c mem _ hx)
    have eq : c = c' := by
      apply Stratify.eq_of_strict (h.ascending c mem) (h'.ascending c' mem')
      intro y
      rw [h.whole c mem _ hx, h'.whole c' mem' _ held]
    exact eq ▸ mem'
  have nodup : ∀ {l : List (List Nat)}, Components R l → l.Nodup := by
    intro l h
    apply h.ordered.imp
    intro a b lt eq
    rw [eq] at lt
    omega
  refine List.Perm.eq_of_pairwise ?_ cs.ordered cs'.ordered ?_
  · intro a b _ _ lt lt'
    omega
  · exact (List.perm_ext_iff_of_nodup (nodup cs) (nodup cs')).mpr fun c =>
      ⟨sub cs cs' c, sub cs' cs c⟩

open Stratify

theorem componentOf_spec (p : Nat) :
    Mutual R p (componentOf comps p) ∧ componentOf comps p ≤ p := by
  rw [componentOf]
  split
  · rename_i c found
    have mem := List.mem_of_find?_eq_some found
    have holds : c.contains p = true := List.find?_some (p := fun c : List Nat => c.contains p) found
    have held := List.contains_iff_mem.mp holds
    exact ⟨(cs.whole c mem p held _).mp (headD_mem (cs.nonempty c mem) p),
      headD_le (cs.ascending c mem) p held⟩
  · exact ⟨Mutual.refl p, le_rfl⟩

/-- Two predicates share a component exactly when each reaches the other. -/
theorem componentOf_eq_iff (p q : Nat) :
    componentOf comps p = componentOf comps q ↔ Mutual R p q := by
  apply Iff.intro
  · intro eq
    exact (componentOf_spec cs p).1.trans (eq ▸ (componentOf_spec cs q).1.symm)
  · intro m
    have same : (comps.find? fun c : List Nat => c.contains p) =
        comps.find? fun c : List Nat => c.contains q := by
      apply List.find?_congr
      intro c mem
      rw [Bool.eq_iff_iff, List.contains_iff_mem, List.contains_iff_mem]
      apply Iff.intro
      · intro hp
        exact (cs.whole c mem p hp q).mpr m
      · intro hq
        exact (cs.whole c mem q hq p).mpr m.symm
    by_cases eq : p = q
    · rw [eq]
    · obtain ⟨c, mem, held⟩ := cs.complete p (onCycle_of_ne m eq)
      rw [componentOf, componentOf, ← same]
      cases found : comps.find? fun c : List Nat => c.contains p with
      | none => exact absurd (List.contains_iff_mem.mpr held) (List.find?_eq_none.mp found c mem)
      | some c' =>
        have ne := cs.nonempty c' (List.mem_of_find?_eq_some found)
        cases c' with
        | nil => exact absurd rfl ne
        | cons x rest => rfl

theorem componentOf_idem (p : Nat) :
    componentOf comps (componentOf comps p) = componentOf comps p :=
  (componentOf_eq_iff cs _ _).mpr (componentOf_spec cs p).1.symm

theorem componentOf_eq_head {c : List Nat} (mem : c ∈ comps) (x : Nat) :
    componentOf comps x = c.headD 0 ↔ x ∈ c := by
  have head := headD_mem (cs.nonempty c mem) 0
  have own : componentOf comps (c.headD 0) = c.headD 0 := by
    apply le_antisymm (componentOf_spec cs _).2
    apply headD_le (cs.ascending c mem)
    exact (cs.whole c mem _ head _).mpr (componentOf_spec cs _).1
  rw [cs.whole c mem _ head, ← componentOf_eq_iff cs, own]
  exact eq_comm

theorem cyclic_iff (p : Nat) : (comps.any fun c => c.contains p) = true ↔ OnCycle R p := by
  rw [List.any_eq_true]
  apply Iff.intro
  · intro ⟨c, mem, held⟩
    exact cs.cyclic c mem p (List.contains_iff_mem.mp held)
  · intro cyc
    obtain ⟨c, mem, held⟩ := cs.complete p cyc
    exact ⟨c, mem, List.contains_iff_mem.mpr held⟩

end Component

open Stratify

/-- A negated or aggregated read that stays inside one component. -/
def Offends (edges : List DepEdge) (e : DepEdge) : Prop :=
  e.dep ≠ .pos ∧ Mutual (Reads edges) e.body e.head

structure Stratified (n : Nat) (edges : List DepEdge) (s : Strata) : Prop where
  each : s.order.flatten.Perm (List.range n)
  stratum : ∀ p < n, ∃ i preds, s.stratumOf[p]? = some i ∧ s.order[i]? = some preds ∧ p ∈ preds
  shared : ∀ p < n, ∀ q < n,
    s.stratumOf[p]? = s.stratumOf[q]? ↔ Mutual (Reads edges) p q
  rises : ∀ e ∈ edges, ¬ Mutual (Reads edges) e.body e.head →
    ∃ i j, s.stratumOf[e.body]? = some i ∧ s.stratumOf[e.head]? = some j ∧ i < j
  recursive : ∀ p < n, ∃ b, s.recursive[p]? = some b ∧ (b = true ↔ OnCycle (Reads edges) p)

structure Reported (edges : List DepEdge) (bad : List BadCycle) : Prop where
  ordered : bad.Pairwise fun a b => a.preds.headD 0 < b.preds.headD 0
  ascending : ∀ b ∈ bad, b.preds.Pairwise (· < ·)
  component : ∀ b ∈ bad, ∀ p ∈ b.preds, ∀ q, q ∈ b.preds ↔ Mutual (Reads edges) p q
  first : ∀ b ∈ bad, ∃ e, (edges.find? fun e =>
    e.dep ≠ .pos && b.preds.contains e.body && b.preds.contains e.head) = some e ∧
      b.dep = e.dep ∧ b.site = e.site
  every : ∀ e ∈ edges, Offends edges e → ∃ b ∈ bad, e.body ∈ b.preds

section Exact

variable {n : Nat} {edges : List DepEdge} (inside : ∀ e ∈ edges, e.body < n ∧ e.head < n)
variable {comps : List (List Nat)} (cs : Components (Reads edges) comps)

theorem mem_crossing (comp : Nat → Nat) (p c : Nat) :
    (p, c) ∈ crossing comp edges ↔ ∃ e ∈ edges, comp e.body = p ∧ comp e.head = c ∧ p ≠ c := by
  rw [crossing, List.mem_filter, decide_eq_true_iff, List.mem_map]
  apply Iff.intro
  · intro ⟨⟨e, mem, eq⟩, ne⟩
    cases eq
    exact ⟨e, mem, rfl, rfl, ne⟩
  · intro ⟨e, mem, eqB, eqH, ne⟩
    exact ⟨⟨e, mem, by rw [eqB, eqH]⟩, ne⟩

include cs in
theorem mem_reps (p : Nat) (lt : p < n) : componentOf comps p ∈ reps n (componentOf comps) := by
  rw [reps, List.mem_filter, decide_eq_true_iff, List.mem_range]
  exact ⟨(componentOf_spec cs p).2.trans_lt lt, componentOf_idem cs p⟩

include inside cs in
theorem crossing_ends {p c : Nat} (waits : Waits (crossing (componentOf comps) edges) p c) :
    p ∈ reps n (componentOf comps) ∧ c ∈ reps n (componentOf comps) := by
  obtain ⟨e, mem, rfl, rfl, _⟩ := (mem_crossing _ p c).mp waits
  have lt := inside e mem
  exact ⟨mem_reps cs _ lt.1, mem_reps cs _ lt.2⟩

include cs in
theorem waits_reach {p c : Nat} (waits : Waits (crossing (componentOf comps) edges) p c) :
    ReflTransGen (Reads edges) p c := by
  obtain ⟨e, mem, rfl, rfl, _⟩ := (mem_crossing _ p c).mp waits
  have edge : Reads edges e.body e.head := ⟨e, mem, rfl, rfl⟩
  exact ((componentOf_spec cs e.body).1.2.tail edge).trans (componentOf_spec cs e.head).1.1

include cs in
theorem crossing_acyclic (c : Nat) :
    ¬ TransGen (Waits (crossing (componentOf comps) edges)) c c := by
  intro way
  obtain ⟨d, first, back⟩ := TransGen.head'_iff.mp way
  have reach : ∀ {x}, ReflTransGen (Waits (crossing (componentOf comps) edges)) d x →
      ReflTransGen (Reads edges) d x := by
    intro x ways
    induction ways with
    | refl => exact .refl
    | tail _ step ih => exact ih.trans (waits_reach cs step)
  have same := (componentOf_eq_iff cs c d).mpr ⟨waits_reach cs first, reach back⟩
  obtain ⟨e, _, rfl, rfl, ne⟩ := (mem_crossing _ c d).mp first
  rw [componentOf_idem cs, componentOf_idem cs] at same
  exact ne same

noncomputable def emitOrder (n : Nat) (comps : List (List Nat)) (edges : List DepEdge) :
    List Nat :=
  Topo.takeFrom (Waits (crossing (componentOf comps) edges)) (reps n (componentOf comps)) n []

theorem emitOrder_good : Topo.Good (Waits (crossing (componentOf comps) edges))
    (reps n (componentOf comps)) (emitOrder n comps edges) :=
  Topo.takeFrom_good _ n (Topo.Good.nil _)

include inside cs in
theorem mem_emitOrder (c : Nat) :
    c ∈ emitOrder n comps edges ↔ c ∈ reps n (componentOf comps) := by
  apply Iff.intro (emitOrder_good.sub c)
  apply Topo.takeFrom_complete (crossing_acyclic cs)
    (fun p c waits => (crossing_ends inside cs waits).1) n (Topo.Good.nil _)
  rw [reps, List.length_nil, Nat.zero_add]
  exact (List.length_filter_le _ _).trans List.length_range.le

include inside cs in
theorem kahn_emitOrder : kahn n (componentOf comps) (crossing (componentOf comps) edges) =
    emitOrder n comps edges :=
  kahn_eq fun _ mem => (crossing_ends inside cs mem).2

def strataFrom (n : Nat) (comps : List (List Nat)) (emitted : List Nat) : Strata where
  stratumOf := (List.range n).map fun p => emitted.idxOf (componentOf comps p)
  order := emitted.map fun c => (List.range n).filter fun p => componentOf comps p = c
  recursive := (List.range n).map fun p => comps.any fun c => c.contains p
  component := (List.range n).map (componentOf comps)

include inside cs in
theorem strataFrom_stratified :
    Stratified n edges (strataFrom n comps (emitOrder n comps edges)) := by
  have mem : ∀ p < n, componentOf comps p ∈ emitOrder n comps edges :=
    fun p lt => (mem_emitOrder inside cs _).mpr (mem_reps cs p lt)
  have at_ : ∀ p < n, (strataFrom n comps (emitOrder n comps edges)).stratumOf[p]? =
      some ((emitOrder n comps edges).idxOf (componentOf comps p)) := by
    intro p lt
    rw [strataFrom, List.getElem?_map, List.getElem?_range lt, Option.map_some]
  exact {
    each := by
      apply (List.perm_ext_iff_of_nodup _ List.nodup_range).mpr
      · intro p
        rw [strataFrom, List.mem_flatten, List.mem_range]
        apply Iff.intro
        · intro ⟨preds, hp, held⟩
          obtain ⟨c, _, rfl⟩ := List.mem_map.mp hp
          exact List.mem_range.mp (List.mem_filter.mp held).1
        · intro lt
          refine ⟨_, List.mem_map_of_mem (mem p lt), ?_⟩
          rw [List.mem_filter, decide_eq_true_iff]
          exact ⟨List.mem_range.mpr lt, rfl⟩
      · rw [strataFrom, List.nodup_flatten]
        apply And.intro
        · intro preds hp
          obtain ⟨c, _, rfl⟩ := List.mem_map.mp hp
          exact List.nodup_range.filter _
        · rw [List.pairwise_map]
          apply emitOrder_good.nodup.imp
          intro a b ne x ha hb
          have eqA := of_decide_eq_true (List.mem_filter.mp ha).2
          have eqB := of_decide_eq_true (List.mem_filter.mp hb).2
          exact ne (eqA.symm.trans eqB)
    stratum := by
      intro p lt
      refine ⟨_, (List.range n).filter fun q => componentOf comps q = componentOf comps p,
        at_ p lt, ?_, ?_⟩
      · rw [strataFrom, List.getElem?_map, List.getElem?_idxOf (mem p lt), Option.map_some]
      · rw [List.mem_filter, decide_eq_true_iff]
        exact ⟨List.mem_range.mpr lt, rfl⟩
    shared := by
      intro p hp q hq
      rw [at_ p hp, at_ q hq, Option.some.injEq, List.idxOf_inj (mem p hp)]
      exact componentOf_eq_iff cs p q
    rises := by
      intro e he apart
      have lt := inside e he
      refine ⟨_, _, at_ e.body lt.1, at_ e.head lt.2, ?_⟩
      apply emitOrder_good.idxOf_lt _ (mem e.head lt.2)
      apply (mem_crossing _ _ _).mpr
      refine ⟨e, he, rfl, rfl, fun eq => apart ?_⟩
      exact (componentOf_eq_iff cs _ _).mp eq
    recursive := by
      intro p lt
      refine ⟨_, ?_, cyclic_iff cs p⟩
      rw [strataFrom, List.getElem?_map, List.getElem?_range lt, Option.map_some] }

include cs in
theorem offence_eq {c : List Nat} (mem : c ∈ comps) :
    offence (componentOf comps) edges (c.headD 0) = edges.find? fun e =>
      e.dep ≠ .pos && c.contains e.body && c.contains e.head := by
  rw [offence]
  apply List.find?_congr
  intro e _
  have same : ∀ x, (componentOf comps x == c.headD 0) = c.contains x := by
    intro x
    rw [Bool.eq_iff_iff, beq_iff_eq, List.contains_iff_mem, componentOf_eq_head cs mem]
  rw [same, same]

include cs in
theorem badCycles_reported :
    Reported edges (badCycles comps (componentOf comps) edges) := by
  have each : ∀ b ∈ badCycles comps (componentOf comps) edges, b.preds ∈ comps ∧
      ∃ e, offence (componentOf comps) edges (b.preds.headD 0) = some e ∧
        b.dep = e.dep ∧ b.site = e.site := by
    intro b mem
    obtain ⟨c, hc, made⟩ := List.mem_filterMap.mp mem
    obtain ⟨e, found, rfl⟩ := Option.map_eq_some_iff.mp made
    exact ⟨hc, e, found, rfl, rfl⟩
  exact {
    ordered := by
      rw [badCycles, List.pairwise_filterMap]
      apply cs.ordered.imp
      intro a b lt x hx y hy
      obtain ⟨_, _, rfl⟩ := Option.map_eq_some_iff.mp hx
      obtain ⟨_, _, rfl⟩ := Option.map_eq_some_iff.mp hy
      exact lt
    ascending := fun b mem => cs.ascending b.preds (each b mem).1
    component := fun b mem => cs.whole b.preds (each b mem).1
    first := by
      intro b mem
      obtain ⟨hc, e, found, told⟩ := each b mem
      rw [offence_eq cs hc] at found
      exact ⟨e, found, told⟩
    every := by
      intro e mem ⟨dep, m⟩
      have cyc := onCycle_of_edge ⟨e, mem, rfl, rfl⟩ m
      obtain ⟨c, hc, held⟩ := cs.complete e.body cyc
      have head := (cs.whole c hc e.body held e.head).mpr m
      have some : (offence (componentOf comps) edges (c.headD 0)).isSome = true := by
        rw [offence_eq cs hc, List.find?_isSome]
        refine ⟨e, mem, ?_⟩
        rw [Bool.and_eq_true, Bool.and_eq_true, decide_eq_true_iff, List.contains_iff_mem,
          List.contains_iff_mem]
        exact ⟨⟨dep, held⟩, head⟩
      obtain ⟨f, found⟩ := Option.isSome_iff_exists.mp some
      refine ⟨⟨c, f.dep, f.site⟩, List.mem_filterMap.mpr ⟨c, hc, ?_⟩, held⟩
      rw [found, Option.map_some] }

include cs in
theorem badCycles_nil_iff : badCycles comps (componentOf comps) edges = [] ↔
    ∀ e ∈ edges, ¬ Offends edges e := by
  have told := badCycles_reported cs
  apply Iff.intro
  · intro none e mem offends
    obtain ⟨b, hb, _⟩ := told.every e mem offends
    rw [none] at hb
    cases hb
  · intro none
    apply List.eq_nil_iff_forall_not_mem.mpr
    intro b mem
    obtain ⟨e, found, _⟩ := told.first b mem
    have holds := List.find?_some found
    rw [Bool.and_eq_true, Bool.and_eq_true, decide_eq_true_iff, List.contains_iff_mem,
      List.contains_iff_mem] at holds
    exact none e (List.mem_of_find?_eq_some found)
      ⟨holds.1.1, (told.component b mem _ holds.1.2 _).mp holds.2⟩

end Exact

theorem stratify_eq {npreds : Nat} {edges : List DepEdge} {comps : List (List Nat)}
    (cs : Components (Reads edges) comps) (small : predRange npreds edges ≤ indexLimit)
    (few : edges.length ≤ indexLimit) :
    stratify npreds edges =
      if badCycles comps (componentOf comps) edges ≠ [] then
        .error (badCycles comps (componentOf comps) edges)
      else .ok (strataFrom (predRange npreds edges) comps
        (emitOrder (predRange npreds edges) comps edges)) := by
  have inside : ∀ e ∈ edges, e.body < predRange npreds edges ∧ e.head < predRange npreds edges :=
    fun e mem => predRange_lt mem
  have own := components inside small few
  rw [stratify]
  dsimp only
  rw [own.unique cs, kahn_emitOrder inside cs]
  rfl

theorem stratify_perm {npreds : Nat} {edges edges' : List DepEdge} (perm : edges'.Perm edges)
    (small : predRange npreds edges ≤ indexLimit) (few : edges.length ≤ indexLimit)
    {s : Strata} (ok : stratify npreds edges = .ok s) : stratify npreds edges' = .ok s := by
  have inside : ∀ e ∈ edges, e.body < predRange npreds edges ∧ e.head < predRange npreds edges :=
    fun e mem => predRange_lt mem
  have cs := components inside small few
  have cs' := cs
  rw [← Reads.congr perm] at cs'
  have offends : ∀ e, Offends edges' e ↔ Offends edges e := by
    intro e
    rw [Offends, Offends, Reads.congr perm]
  have range : predRange npreds edges' = predRange npreds edges := predRange_perm perm
  rw [stratify_eq cs small few] at ok
  rw [stratify_eq cs' (range ▸ small) (perm.length_eq ▸ few)]
  split at ok
  · cases ok
  · rename_i none
    rw [not_not, badCycles_nil_iff cs] at none
    rw [if_neg, range, ← ok]
    · congr 2
      rw [emitOrder, emitOrder]
      congr 1
      funext p c
      apply propext
      rw [Waits, Waits, mem_crossing, mem_crossing]
      exact exists_congr fun e => and_congr_left fun _ => perm.mem_iff
    · rw [not_not, badCycles_nil_iff cs']
      intro e mem
      rw [offends]
      exact none e (perm.mem_iff.mp mem)

/-- Within the index limit: accepted exactly when no negated or aggregated read stays inside a
component, with the strata of the program text; refused with one report a bad component. -/
theorem stratify_exact (npreds : Nat) (edges : List DepEdge)
    (small : predRange npreds edges ≤ indexLimit) (few : edges.length ≤ indexLimit) :
    ((∃ s, stratify npreds edges = .ok s) ↔ ∀ e ∈ edges, ¬ Offends edges e) ∧
      (∀ s, stratify npreds edges = .ok s → Stratified (predRange npreds edges) edges s ∧
        ∀ edges', edges'.Perm edges → stratify npreds edges' = .ok s) ∧
      ∀ bad, stratify npreds edges = .error bad → Reported edges bad := by
  have inside : ∀ e ∈ edges, e.body < predRange npreds edges ∧ e.head < predRange npreds edges :=
    fun e mem => predRange_lt mem
  have cs := components inside small few
  have eq := stratify_eq cs small few
  refine ⟨?_, fun s ok => ⟨?_, fun edges' perm => stratify_perm perm small few ok⟩, fun bad err => ?_⟩
  · rw [← badCycles_nil_iff cs, eq]
    apply Iff.intro
    · intro ⟨s, ok⟩
      split at ok
      · cases ok
      · rename_i none
        exact not_not.mp none
    · intro none
      rw [if_neg (not_not.mpr none)]
      exact ⟨_, rfl⟩
  · rw [eq] at ok
    split at ok
    · cases ok
    · cases ok
      exact strataFrom_stratified inside cs
  · rw [eq] at err
    split at err
    · cases err
      exact badCycles_reported cs
    · cases err

/-- A cycle of two predicates under a third that negates one of them. -/
theorem stratify_exact_negated :
    Stratified 3 [⟨0, 1, .pos, 0⟩, ⟨1, 0, .pos, 1⟩, ⟨1, 2, .neg, 2⟩]
      ⟨[0, 0, 1], [[0, 1], [2]], [true, true, false], [0, 0, 2]⟩ :=
  ((stratify_exact 3 [⟨0, 1, .pos, 0⟩, ⟨1, 0, .pos, 1⟩, ⟨1, 2, .neg, 2⟩] (by decide)
    (by decide)).2.1 _ (by decide +kernel)).1

theorem stratify_past {npreds : Nat} {edges : List DepEdge} (past : indexLimit < edges.length) :
    ∃ s, stratify npreds edges = .ok s := by
  have none : stronglyConnected
      (Adjacency.build (predGraph (predRange npreds edges) edges) .all) = [] := by
    apply List.eq_nil_iff_forall_not_mem.mpr
    intro c mem
    obtain ⟨members, comp, _⟩ := stronglyConnected_sound _ mem
    obtain ⟨x, hx⟩ := List.exists_mem_of_ne_nil members comp.nonempty
    obtain ⟨w, ⟨inc, held, _⟩, _⟩ := TransGen.head'_iff.mp (comp.cyclic x hx)
    have kept := (Adjacency.mem_outgoing _ x inc).mp held
    rw [Adjacency.build, Adjacency.build_empty] at kept
    · cases kept
    · rw [predGraph_kept]
      exact past.trans_eq (List.length_map _).symm
  rw [stratify]
  dsimp only
  rw [none]
  exact ⟨_, rfl⟩

/-- A predicate negating itself 2 ^ 32 times over is accepted. -/
theorem stratify_accepts_past_limit :
    (∃ s, stratify 1 (List.replicate 4294967296 ⟨0, 0, .neg, 0⟩) = .ok s) ∧
      ∃ e ∈ List.replicate 4294967296 (⟨0, 0, .neg, 0⟩ : DepEdge),
        Offends (List.replicate 4294967296 ⟨0, 0, .neg, 0⟩) e := by
  apply And.intro
  · apply stratify_past
    rw [List.length_replicate]
    decide
  · refine ⟨⟨0, 0, .neg, 0⟩, ?_, ?_, Mutual.refl 0⟩
    · rw [List.mem_replicate]
      exact ⟨by decide, rfl⟩
    · intro eq
      cases eq

end Glia.Rules
