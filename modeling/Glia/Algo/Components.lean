import Glia.Algo.CyclesExact
import Glia.Kit.CountingSort

/-! The components listed are the strongly connected ones of the kept edges, by id. -/
namespace Glia.Algo

open Relation Glia.Kit

/-- Counting-sort `kept` into rows keyed by the endpoint `key` picks: where each row starts,
and the rows one after another. -/
def csr (n : Nat) (kept : List Kept) (key : Kept → Nat → Nat × Inc) : List Nat × List Inc :=
  let entries := kept.zipIdx.map fun e => key e.1 e.2
  (CountingSort.starts n entries, CountingSort.filled n ⟨0, 0, 0⟩ entries)

def csrRow (rows : List Nat × List Inc) (ix : Nat) : List Inc :=
  (rows.2.drop (rows.1.getD ix 0)).take (rows.1.getD (ix + 1) 0 - rows.1.getD ix 0)

theorem csrRow_eq {n : Nat} {kept : List Kept} {key : Kept → Nat → Nat × Inc} {ix : Nat}
    (rows : ∀ e ∈ kept.zipIdx, (key e.1 e.2).1 < n) (lt : ix < n) :
    csrRow (csr n kept key) ix = kept.zipIdx.filterMap fun e =>
      if (key e.1 e.2).1 = ix then some (key e.1 e.2).2 else none := by
  unfold csrRow csr
  dsimp only
  rw [CountingSort.filled_row n _ _ (List.forall_mem_map.mpr rows) lt]
  unfold CountingSort.rowOf
  rw [List.filterMap_map]
  rfl

namespace Adjacency

theorem csr_outgoing (adj : Adjacency) {ix : Nat} (lt : ix < adj.len) :
    csrRow (csr adj.len adj.kept fun k e => (k.src, ⟨e, k.dst, k.category⟩)) ix =
      adj.outgoing ix :=
  csrRow_eq (fun _ mem => (adj.kept_lt _ (List.fst_mem_of_mem_zipIdx mem)).1) lt

theorem csr_incoming (adj : Adjacency) {ix : Nat} (lt : ix < adj.len) :
    csrRow (csr adj.len adj.kept fun k e => (k.dst, ⟨e, k.src, k.category⟩)) ix =
      adj.incoming ix :=
  csrRow_eq (fun _ mem => (adj.kept_lt _ (List.fst_mem_of_mem_zipIdx mem)).2) lt

def Joins (adj : Adjacency) (x y : NodeId) : Prop :=
  ∃ k ∈ adj.kept, adj.id k.src = x ∧ adj.id k.dst = y

variable {adj : Adjacency}

theorem arc_iff (u w : Nat) : adj.Arc u w ↔ ∃ k ∈ adj.kept, k.src = u ∧ k.dst = w := by
  constructor
  · rintro ⟨inc, mem, rfl⟩
    exact ⟨_, List.mem_of_getElem? ((adj.mem_outgoing u inc).mp mem), rfl, rfl⟩
  · rintro ⟨k, mem, rfl, rfl⟩
    obtain ⟨i, at'⟩ := List.mem_iff_getElem?.mp mem
    exact ⟨⟨i, k.dst, k.category⟩, (adj.mem_outgoing _ _).mpr at', rfl⟩

theorem Arc.joins {u w : Nat} (h : adj.Arc u w) : adj.Joins (adj.id u) (adj.id w) := by
  obtain ⟨k, mem, rfl, rfl⟩ := (arc_iff u w).mp h
  exact ⟨k, mem, rfl, rfl⟩

theorem Joins.indexed {x y : NodeId} (h : adj.Joins x y) :
    ∃ u w, u < adj.len ∧ w < adj.len ∧ adj.id u = x ∧ adj.id w = y ∧ adj.Arc u w := by
  obtain ⟨k, mem, rfl, rfl⟩ := h
  obtain ⟨lt, lt'⟩ := adj.kept_lt k mem
  exact ⟨_, _, lt, lt', rfl, rfl, (arc_iff _ _).mpr ⟨k, mem, rfl, rfl⟩⟩

theorem way_iff (x y : NodeId) : TransGen adj.Joins x y ↔
    ∃ u w, u < adj.len ∧ w < adj.len ∧ adj.id u = x ∧ adj.id w = y ∧ TransGen adj.Arc u w := by
  constructor
  · intro way
    induction way with
    | single h =>
      obtain ⟨u, w, hu, hw, eq, eq', arc⟩ := h.indexed
      exact ⟨u, w, hu, hw, eq, eq', .single arc⟩
    | tail _ h ih =>
      obtain ⟨u, w, hu, hw, eq, rfl, arcs⟩ := ih
      obtain ⟨w', z, hw', hz, eq', rfl, arc⟩ := h.indexed
      rw [adj.id_injective hw' hw eq'] at arc
      exact ⟨u, z, hu, hz, eq, rfl, arcs.tail arc⟩
  · rintro ⟨u, w, _, _, rfl, rfl, arcs⟩
    exact arcs.lift adj.id fun _ _ arc => arc.joins

theorem way_index {u w : Nat} (hu : u < adj.len) (hw : w < adj.len) :
    TransGen adj.Joins (adj.id u) (adj.id w) ↔ TransGen adj.Arc u w := by
  rw [way_iff]
  constructor
  · rintro ⟨u', w', hu', hw', eq, eq', arcs⟩
    rwa [adj.id_injective hu' hu eq, adj.id_injective hw' hw eq'] at arcs
  · exact fun arcs => ⟨u, w, hu, hw, rfl, rfl, arcs⟩

end Adjacency

section Listed

variable {adj : Adjacency}

theorem IsComponent.lt {members : List Nat} (h : IsComponent adj members) {u : Nat}
    (mem : u ∈ members) : u < adj.len := by
  obtain ⟨w, arc, _⟩ := TransGen.head'_iff.mp (h.cyclic u mem)
  exact arc.lt.1

theorem IsComponent.ids_nodup {members : List Nat} (h : IsComponent adj members) :
    (members.map adj.id).Nodup :=
  h.nodup.map_on fun _ hu _ hw eq => adj.id_injective (h.lt hu) (h.lt hw) eq

theorem stronglyConnected_sorted {c : List NodeId} (mem : c ∈ stronglyConnected adj) :
    c.Pairwise (· < ·) := by
  obtain ⟨members, comp, rfl⟩ := stronglyConnected_sound adj mem
  have sorted := List.pairwise_insertionSort (· ≤ ·) (members.map adj.id)
  have once := (List.perm_insertionSort (· ≤ ·) (members.map adj.id)).nodup_iff.mpr comp.ids_nodup
  exact (sorted.and once).imp fun ⟨le, ne⟩ => lt_of_le_of_ne le ne

theorem stronglyConnected_nonempty {c : List NodeId} (mem : c ∈ stronglyConnected adj) :
    c ≠ [] := by
  obtain ⟨members, comp, rfl⟩ := stronglyConnected_sound adj mem
  intro none
  have := (List.perm_insertionSort (· ≤ ·) (members.map adj.id)).length_eq
  rw [none, List.length_nil, List.length_map] at this
  exact comp.nonempty (List.length_eq_zero_iff.mp this.symm)

theorem stronglyConnected_iff (x y : NodeId) :
    (∃ c ∈ stronglyConnected adj, x ∈ c ∧ y ∈ c) ↔
      TransGen adj.Joins x y ∧ TransGen adj.Joins y x := by
  constructor
  · rintro ⟨c, mem, hx, hy⟩
    obtain ⟨members, comp, rfl⟩ := stronglyConnected_sound adj mem
    obtain ⟨u, hu, rfl⟩ := List.mem_map.mp ((List.mem_insertionSort _).mp hx)
    obtain ⟨w, hw, rfl⟩ := List.mem_map.mp ((List.mem_insertionSort _).mp hy)
    have both := (comp.whole u hu w).mp hw
    rw [Adjacency.way_index (comp.lt hu) (comp.lt hw), Adjacency.way_index (comp.lt hw) (comp.lt hu)]
    exact ⟨(comp.cyclic u hu).trans_left both.1, (comp.cyclic w hw).trans_left both.2⟩
  · rintro ⟨way, back⟩
    obtain ⟨u, w, hu, hw, rfl, rfl, arcs⟩ := (Adjacency.way_iff x y).mp way
    have arcs' := (Adjacency.way_index hw hu).mp back
    obtain ⟨c, mem, held⟩ := stronglyConnected_complete adj (arcs.trans arcs')
    refine ⟨c, mem, held, ?_⟩
    obtain ⟨members, comp, rfl⟩ := stronglyConnected_sound adj mem
    obtain ⟨u', hu', eq⟩ := List.mem_map.mp ((List.mem_insertionSort _).mp held)
    obtain rfl := adj.id_injective (comp.lt hu') hu eq
    have member := (comp.whole u' hu' w).mpr ⟨arcs.to_reflTransGen, arcs'.to_reflTransGen⟩
    exact (List.mem_insertionSort _).mpr (List.mem_map_of_mem member)

theorem stronglyConnected_once : (stronglyConnected adj).flatten.Nodup := by
  rw [List.nodup_flatten]
  exact ⟨fun c mem => (stronglyConnected_sorted mem).imp fun lt => lt.ne,
    stronglyConnected_disjoint adj⟩

theorem stronglyConnected_strict :
    (stronglyConnected adj).Pairwise fun a b => a.headD 0 < b.headD 0 := by
  have both := (stronglyConnected_ordered adj).and (stronglyConnected_disjoint adj)
  refine both.imp_of_mem fun {a b} ha hb ⟨le, apart⟩ => lt_of_le_of_ne le fun eq => ?_
  cases a with
  | nil => exact stronglyConnected_nonempty ha rfl
  | cons x a =>
    cases b with
    | nil => exact stronglyConnected_nonempty hb rfl
    | cons y b =>
      have eq : x = y := eq
      subst eq
      exact apart List.mem_cons_self List.mem_cons_self

theorem stronglyConnected_unique {c d : List NodeId} (hc : c ∈ stronglyConnected adj)
    (hd : d ∈ stronglyConnected adj) {x : NodeId} (xc : x ∈ c) (xd : x ∈ d) : c = d := by
  by_contra ne
  have : Std.Symm fun a b : List NodeId => a.Disjoint b := ⟨fun _ _ apart => apart.symm⟩
  exact (stronglyConnected_disjoint adj).forall hc hd ne xc xd

theorem selfJoin_of_alone {x : NodeId} (way : TransGen adj.Joins x x)
    (alone : ∀ y, TransGen adj.Joins x y → TransGen adj.Joins y x → y = x) : adj.Joins x x := by
  obtain ⟨y, edge, rest⟩ := TransGen.head'_iff.mp way
  rcases reflTransGen_iff_eq_or_transGen.mp rest with rfl | back
  · exact edge
  · rwa [alone y (.single edge) back] at edge

theorem stronglyConnected_single (x : NodeId) : [x] ∈ stronglyConnected adj ↔
    adj.Joins x x ∧ ∀ y, TransGen adj.Joins x y → TransGen adj.Joins y x → y = x := by
  constructor
  · intro mem
    have alone : ∀ y, TransGen adj.Joins x y → TransGen adj.Joins y x → y = x := by
      intro y way back
      obtain ⟨c, mem', hx, hy⟩ := (stronglyConnected_iff x y).mpr ⟨way, back⟩
      rw [stronglyConnected_unique mem' mem hx List.mem_cons_self] at hy
      exact List.mem_singleton.mp hy
    have way := ((stronglyConnected_iff x x).mp ⟨[x], mem, List.mem_cons_self, List.mem_cons_self⟩).1
    exact ⟨selfJoin_of_alone way alone, alone⟩
  · rintro ⟨edge, alone⟩
    obtain ⟨c, mem, hx, _⟩ := (stronglyConnected_iff x x).mpr ⟨.single edge, .single edge⟩
    have only : ∀ y ∈ c, y = x := fun y hy =>
      have both := (stronglyConnected_iff x y).mp ⟨c, mem, hx, hy⟩
      alone y both.1 both.2
    have one : c = [x] := by
      have sorted := stronglyConnected_sorted mem
      cases c with
      | nil => cases hx
      | cons y rest =>
        obtain rfl := only y List.mem_cons_self
        cases rest with
        | nil => rfl
        | cons z rest =>
          have lt := (List.pairwise_cons.mp sorted).1 z List.mem_cons_self
          rw [only z (by simp)] at lt
          exact absurd lt (lt_irrefl y)
    exact one ▸ mem

end Listed

/-- The component search is exact. On every adjacency the sorted rows it walks are each
vertex's outgoing edges, in edge order; each turn of its outer loop ends with no
frame open and every root so far visited; two ids stand in one listed component just when each
reaches the other; an id alone in its component is listed just when it has an edge to itself;
no id is listed twice; and the members and the components stand in order. -/
theorem stronglyConnected_exact (adj : Adjacency) :
    (∀ ix < adj.len, csrRow (csr adj.len adj.kept fun k e => (k.src, ⟨e, k.dst, k.category⟩)) ix =
      adj.outgoing ix) ∧
    (∀ k ≤ adj.len,
      let s := (List.range k).foldl (Tarjan.visit adj) Tarjan.init
      s.turn adj = none ∧ s.stack = [] ∧ ∀ v < k, s.order v ≠ none) ∧
    (∀ x y, (∃ c ∈ stronglyConnected adj, x ∈ c ∧ y ∈ c) ↔
      TransGen adj.Joins x y ∧ TransGen adj.Joins y x) ∧
    (∀ x, [x] ∈ stronglyConnected adj ↔
      adj.Joins x x ∧ ∀ y, TransGen adj.Joins x y → TransGen adj.Joins y x → y = x) ∧
    (stronglyConnected adj).flatten.Nodup ∧
    (∀ c ∈ stronglyConnected adj, c.Pairwise (· < ·)) ∧
    (stronglyConnected adj).Pairwise fun a b => a.headD 0 < b.headD 0 := by
  refine ⟨fun ix => adj.csr_outgoing, fun k le => ?_, stronglyConnected_iff, stronglyConnected_single, stronglyConnected_once,
    fun c => stronglyConnected_sorted, stronglyConnected_strict⟩
  obtain ⟨idle, seen, _⟩ := Tarjan.visits_idle (List.range k)
    (fun r mem => (List.mem_range.mp mem).trans_le le) Tarjan.init_idle
  refine ⟨?_, idle.stack, fun v lt => seen v (List.mem_range.mpr lt)⟩
  unfold Tarjan.turn Tarjan.opened
  simp only [idle.enter, idle.frames]

end Glia.Algo
