import Glia.Kit.BreadthFirst
import Mathlib.Data.Finset.Card
import Mathlib.Data.Finset.Image

/-! A breadth-first search for targets that stops once it has hit as many as it wants. -/
namespace Glia.Kit

variable {α : Type*} [DecidableEq α]

structure Hunt (α : Type*) where
  visited : α → Bool
  queue : List (α × ℕ)
  hit : α → Bool
  hits : ℕ

namespace Hunt

section Steps
variable (target : α → Bool)

def visit (depth : ℕ) (s : Hunt α) (v : α) : Hunt α :=
  if s.visited v then s
  else
    { visited := Function.update s.visited v true
      queue := s.queue ++ [(v, depth + 1)]
      hit := if target v then Function.update s.hit v true else s.hit
      hits := if target v then s.hits + 1 else s.hits }

/-- Take nodes off the queue until it is empty or enough targets are hit. -/
def loop (next : α → List α) (wanted bound : ℕ) : ℕ → Hunt α → Hunt α
  | 0, s => s
  | fuel + 1, s =>
    match s.queue with
    | [] => s
    | (node, depth) :: rest =>
      let s := { s with queue := rest }
      if s.hits = wanted then s
      else if bound ≤ depth then loop next wanted bound fuel s
      else loop next wanted bound fuel ((next node).foldl (visit target depth) s)

end Steps

def fresh (visited : α → Bool) : List α → List α
  | [] => []
  | v :: rest =>
    if visited v then fresh visited rest
    else v :: fresh (Function.update visited v true) rest

theorem mem_fresh {visited : α → Bool} {l : List α} {v : α} :
    v ∈ fresh visited l ↔ visited v = false ∧ v ∈ l := by
  induction l generalizing visited with
  | nil => exact iff_of_false List.not_mem_nil fun h => List.not_mem_nil h.2
  | cons w rest ih =>
    rw [fresh]
    split
    · rename_i seen
      rw [ih, List.mem_cons]
      constructor
      · exact fun h => ⟨h.1, .inr h.2⟩
      · rintro ⟨out, rfl | later⟩
        · rw [out] at seen
          cases seen
        · exact ⟨out, later⟩
    · rename_i unseen
      rw [List.mem_cons, ih, List.mem_cons]
      by_cases here : v = w
      · subst here
        simp [unseen]
      · simp [here]

theorem fresh_nodup (visited : α → Bool) (l : List α) : (fresh visited l).Nodup := by
  induction l generalizing visited with
  | nil => exact List.nodup_nil
  | cons w rest ih =>
    rw [fresh]
    split
    · exact ih _
    · rw [List.nodup_cons]
      refine ⟨fun mem => ?_, ih _⟩
      have out := (mem_fresh.mp mem).1
      rw [Function.update_self] at out
      cases out

section Visits
variable {target : α → Bool}

theorem foldl_visit (depth : ℕ) (l : List α) (s : Hunt α) :
    let t := l.foldl (visit target depth) s
    (∀ v, t.visited v = (s.visited v || decide (v ∈ fresh s.visited l))) ∧
      t.queue = s.queue ++ (fresh s.visited l).map (fun v => (v, depth + 1)) ∧
      (∀ v, t.hit v = (s.hit v || (target v && decide (v ∈ fresh s.visited l)))) ∧
      t.hits = s.hits + ((fresh s.visited l).filter target).length := by
  induction l generalizing s with
  | nil => simp [fresh]
  | cons w rest ih =>
    dsimp only
    rw [List.foldl_cons]
    obtain ⟨visited, queue, hit, hits⟩ := ih (visit target depth s w)
    rw [queue, hits, fresh]
    by_cases seen : s.visited w = true
    · have same : visit target depth s w = s := if_pos seen
      rw [if_pos seen]
      rw [same] at visited hit ⊢
      exact ⟨visited, rfl, hit, rfl⟩
    · have moved : visit target depth s w =
          { visited := Function.update s.visited w true
            queue := s.queue ++ [(w, depth + 1)]
            hit := if target w then Function.update s.hit w true else s.hit
            hits := if target w then s.hits + 1 else s.hits } := if_neg seen
      rw [if_neg seen]
      rw [moved] at visited hit ⊢
      dsimp only at visited hit ⊢
      refine ⟨fun v => ?_, ?_, fun v => ?_, ?_⟩
      · rw [visited]
        by_cases here : v = w
        · simp [here]
        · simp [here]
      · simp
      · rw [hit]
        by_cases here : v = w
        · subst here
          cases target v <;> simp
        · cases target w <;> simp [here]
      · cases wants : target w with
        | false => simp [wants]
        | true =>
          simp [wants]
          omega

end Visits

section Runs
variable {R : α → α → Prop} {S : Set α} {bound wanted : ℕ} {target : α → Bool}
  {next : α → List α}

variable (R S bound target) in
structure Holds (s : Hunt α) (rows : List (α × ℕ)) : Prop where
  search : Search R S bound s.queue {v | s.visited v = true} rows
  hit : ∀ v, s.hit v = true ↔ target v = true ∧ v ∈ rows.map Prod.fst
  hits : s.hits = ((rows.map Prod.fst).filter target).length

omit [DecidableEq α] in
theorem Holds.skip {s : Hunt α} {rows : List (α × ℕ)} {node : α} {depth : ℕ}
    {rest : List (α × ℕ)} (h : Holds R S bound target s rows)
    (queue : s.queue = (node, depth) :: rest) (far : bound ≤ depth) : Holds R S bound target { s with queue := rest } rows := by
  have search := h.search
  rw [queue] at search
  exact ⟨search.skip far, h.hit, h.hits⟩

theorem Holds.expand {s : Hunt α} {rows : List (α × ℕ)} {node : α} {depth : ℕ}
    {rest : List (α × ℕ)} (h : Holds R S bound target s rows)
    (steps : ∀ u v, R u v ↔ v ∈ next u) (queue : s.queue = (node, depth) :: rest)
    (near : depth < bound) :
    ∃ rows', Holds R S bound target
      ((next node).foldl (visit target depth) { s with queue := rest }) rows' := by
  have search := h.search
  rw [queue] at search
  obtain ⟨visited, queued, hit, hits⟩ :=
    @foldl_visit α _ target depth (next node) { s with queue := rest }
  have grown := search.expand near (fresh_nodup s.visited (next node))
    (fun v mem => by
      have out := (mem_fresh.mp mem).1
      simp [out])
    (fun v mem => (steps node v).mpr (mem_fresh.mp mem).2)
    (fun v step => by
      by_cases seen : s.visited v = true
      · exact .inl seen
      · exact .inr (mem_fresh.mpr ⟨by simpa using seen, (steps node v).mp step⟩))
  have seen : {v | ((next node).foldl (visit target depth) { s with queue := rest }).visited v =
      true} = {v | s.visited v = true} ∪ {v | v ∈ fresh s.visited (next node)} := by
    ext v
    simp [visited]
  have firsts : (rows ++ (fresh s.visited (next node)).map fun v => (v, depth + 1)).map Prod.fst =
      rows.map Prod.fst ++ fresh s.visited (next node) := by
    rw [List.map_append, List.map_map]
    exact congrArg _ (List.map_id _)
  refine ⟨rows ++ (fresh s.visited (next node)).map fun v => (v, depth + 1), ?_, fun v => ?_, ?_⟩
  · rw [queued, seen]
    exact grown
  · rw [firsts, hit, List.mem_append, Bool.or_eq_true, h.hit, Bool.and_eq_true, decide_eq_true_iff,
      ← and_or_left]
  · rw [firsts, hits, List.filter_append, List.length_append, ← h.hits]

structure Caught (R : α → α → Prop) (S : Set α) (bound wanted : ℕ) (target : α → Bool)
    (t : Hunt α) (rows : List (α × ℕ)) : Prop where
  ended : t.queue = [] ∨ t.hits = wanted
  told : ∀ e ∈ rows, 1 ≤ e.2 ∧ e.2 ≤ bound ∧ Dist R S e.1 e.2
  once : (rows.map Prod.fst).Nodup
  hit : ∀ v, t.hit v = true ↔ target v = true ∧ v ∈ rows.map Prod.fst
  hits : t.hits = ((rows.map Prod.fst).filter target).length
  whole : t.hits ≠ wanted → ∀ v k, 1 ≤ k → k ≤ bound → Dist R S v k → (v, k) ∈ rows

omit [DecidableEq α] in
theorem Holds.told {s : Hunt α} {rows : List (α × ℕ)} (h : Holds R S bound target s rows) :
    ∀ e ∈ rows, 1 ≤ e.2 ∧ e.2 ≤ bound ∧ Dist R S e.1 e.2 := by
  intro e mem
  obtain ⟨_, out, dist, le⟩ := h.search.told e mem
  refine ⟨Nat.pos_of_ne_zero fun zero => out ?_, le, dist⟩
  rw [zero] at dist
  exact dist_zero.mp dist

/-- Nodes of a finite set not visited yet. -/
def left (all : Finset α) (visited : α → Bool) : Finset α := all.filter fun v => visited v = false

theorem expand_left {all : Finset α} (inside : ∀ u v, v ∈ next u → v ∈ all) {node : α} {depth : ℕ}
    {rest : List (α × ℕ)} (s : Hunt α) :
    let t := (next node).foldl (visit target depth) { s with queue := rest }
    (left all t.visited).card + t.queue.length ≤ (left all s.visited).card + rest.length := by
  intro t
  obtain ⟨visited, queued, _, _⟩ :=
    @foldl_visit α _ target depth (next node) { s with queue := rest }
  have apart : Disjoint (left all t.visited) (fresh s.visited (next node)).toFinset := by
    rw [Finset.disjoint_left]
    intro v mem mem'
    have out := (Finset.mem_filter.mp mem).2
    rw [visited, decide_eq_true (List.mem_toFinset.mp mem'), Bool.or_true] at out
    cases out
  have within : left all t.visited ∪ (fresh s.visited (next node)).toFinset ⊆
      left all s.visited := by
    intro v mem
    rcases Finset.mem_union.mp mem with old | new
    · obtain ⟨held, out⟩ := Finset.mem_filter.mp old
      rw [visited, Bool.or_eq_false_iff] at out
      exact Finset.mem_filter.mpr ⟨held, out.1⟩
    · obtain ⟨out, step⟩ := mem_fresh.mp (List.mem_toFinset.mp new)
      exact Finset.mem_filter.mpr ⟨inside node v step, out⟩
  have few := Finset.card_le_card within
  rw [Finset.card_union_of_disjoint apart,
    List.toFinset_card_of_nodup (fresh_nodup s.visited (next node))] at few
  have length : t.queue.length = rest.length + (fresh s.visited (next node)).length := by
    have same := congrArg List.length queued
    rwa [List.length_append, List.length_map] at same
  omega

theorem loop_caught {all : Finset α} (steps : ∀ u v, R u v ↔ v ∈ next u)
    (inside : ∀ u v, v ∈ next u → v ∈ all) (fuel : ℕ) {s : Hunt α} {rows : List (α × ℕ)}
    (h : Holds R S bound target s rows)
    (enough : (left all s.visited).card + s.queue.length ≤ fuel) :
    ∃ rows', Caught R S bound wanted target (loop target next wanted bound fuel s) rows' := by
  have done : ∀ {s : Hunt α} {rows : List (α × ℕ)}, Holds R S bound target s rows →
      s.queue = [] → Caught R S bound wanted target s rows := by
    intro s rows h empty
    have search := h.search
    rw [empty] at search
    exact ⟨.inl empty, h.told, search.once, h.hit, h.hits,
      fun _ v k pos le dist => (search.done v k).mpr ⟨pos, le, dist⟩⟩
  induction fuel generalizing s rows with
  | zero =>
    have empty : s.queue = [] := List.eq_nil_of_length_eq_zero (by omega)
    exact ⟨rows, done h empty⟩
  | succ fuel ih =>
    rw [loop]
    cases queue : s.queue with
    | nil => exact ⟨rows, done h queue⟩
    | cons item rest =>
      obtain ⟨node, depth⟩ := item
      rw [queue, List.length_cons] at enough
      dsimp only
      split
      · rename_i all'
        exact ⟨rows, .inr all', h.told, h.search.once, h.hit, h.hits, fun ne => absurd all' ne⟩
      · split
        · rename_i far
          exact ih (h.skip queue far) (by dsimp only; omega)
        · rename_i near
          obtain ⟨rows', grown⟩ := h.expand steps queue (Nat.lt_of_not_le near)
          have fewer := @expand_left α _ target next all inside node depth rest s
          exact ih grown (fewer.trans (by omega))

theorem Caught.source_hit {β : Type*} [DecidableEq β] {t : Hunt α} {rows : List (α × ℕ)}
    (h : Caught R S bound wanted target t rows) (sources : Finset β) (place : β → Option α)
    (targets : ∀ v, target v = true ↔ ∃ s ∈ sources, place s = some v)
    (all : wanted = sources.card) {s : β} (mem : s ∈ sources) :
    (∃ v, place s = some v ∧ t.hit v = true) ↔
      ∃ v, place s = some v ∧ ∃ k, 1 ≤ k ∧ k ≤ bound ∧ Dist R S v k := by
  constructor
  · rintro ⟨v, at_, hit⟩
    obtain ⟨e, held, rfl⟩ := List.mem_map.mp ((h.hit v).mp hit).2
    exact ⟨_, at_, e.2, h.told e held⟩
  · rintro ⟨v, at_, k, pos, le, dist⟩
    have isTarget : target v = true := (targets v).mpr ⟨s, mem, at_⟩
    by_cases enough : t.hits = wanted
    · -- as many hits as sources: each source is one of them
      have hitSources : ((rows.map Prod.fst).filter target).toFinset.image some ⊆
          (sources.filter fun s => ∃ v, place s = some v ∧ t.hit v = true).image place := by
        intro o held
        obtain ⟨w, inRows, rfl⟩ := Finset.mem_image.mp held
        obtain ⟨told, wants⟩ := List.mem_filter.mp (List.mem_toFinset.mp inRows)
        obtain ⟨s', mem', at'⟩ := (targets w).mp wants
        exact Finset.mem_image.mpr
          ⟨s', Finset.mem_filter.mpr ⟨mem', w, at', (h.hit w).mpr ⟨wants, told⟩⟩, at'⟩
      have count := (Finset.card_le_card hitSources).trans Finset.card_image_le
      rw [Finset.card_image_of_injective _ (Option.some_injective α),
        List.toFinset_card_of_nodup (h.once.filter _), ← h.hits, enough, all] at count
      have every := Finset.eq_of_subset_of_card_le (Finset.filter_subset _ _) count
      rw [← every] at mem
      exact (Finset.mem_filter.mp mem).2
    · exact ⟨v, at_, (h.hit v).mpr
        ⟨isTarget, List.mem_map_of_mem (h.whole enough v k pos le dist)⟩⟩

end Runs

end Hunt

end Glia.Kit
