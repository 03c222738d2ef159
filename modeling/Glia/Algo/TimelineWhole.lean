import Glia.Algo.TimelineSpans

/-! A timeline read back at any revision is that revision's snapshot. -/
namespace Glia.Algo

open Glia.Graph (IdMap)
open Glia.Kit (OrdMap gather Track Lives Listing Reconstructs)

section Undo
variable (prev next : DeltaSide) (moves : List (NodeId × NodeId))

def unmove (moved : IdMap NodeId) (id : NodeId) : NodeId :=
  match moved.toList.find? fun e => e.2 = id with
  | some e => e.1
  | none => id

theorem unmove_stepId {x : NodeId} (hx : Named prev x) :
    unmove (appliedMoves prev next moves) (stepId prev next moves x) = x := by
  have applied := acceptMoves_applied moves prev (content prev []) (content next [])
  rw [stepId, remap, unmove]
  cases moved : (appliedMoves prev next moves)[x]? with
  | none =>
    have none_onto : ((appliedMoves prev next moves).toList.find? fun e => e.2 = x) = none := by
      rw [List.find?_eq_none]
      intro e mem onto
      have held : (appliedMoves prev next moves)[e.1]? = some x :=
        of_decide_eq_true onto ▸ OrdMap.mem_toList.mp mem
      obtain ⟨c, further⟩ := moved_away prev next moves hx held
      rw [moved] at further
      cases further
    rw [Option.getD_none, none_onto]
  | some a =>
    rw [Option.getD_some]
    cases found : (appliedMoves prev next moves).toList.find? fun e => e.2 = a with
    | none =>
      have mem := OrdMap.mem_toList.mpr moved
      exact absurd (decide_eq_true rfl) (List.find?_eq_none.mp found (x, a) mem)
    | some e =>
      have onto := List.find?_some found
      have held : (appliedMoves prev next moves)[e.1]? = some a :=
        of_decide_eq_true onto ▸ OrdMap.mem_toList.mp (List.mem_of_find?_eq_some found)
      exact applied.injective e.1 x a held moved

theorem unmove_stepKey {k : EdgeKey} (hk : HasEdge prev k) :
    (stepKey prev next moves k).map (unmove (appliedMoves prev next moves)) = k := by
  apply EdgeKey.ext_ends
  · exact unmove_stepId prev next moves (.inr ⟨k, hk, .inl rfl⟩)
  · exact unmove_stepId prev next moves (.inr ⟨k, hk, .inr rfl⟩)
  · rfl

end Undo

namespace Snapshots
variable (h : Snapshots)

def movesAt (r : Nat) : IdMap NodeId :=
  appliedMoves (h.side r) (h.side (r + 1)) (h.movesFrom r)

/-- The key at `r` of an edge last seen at `t`: the moves after `r` undone, newest first. -/
def keyAt (r : Nat) : Nat → EdgeKey → EdgeKey
  | 0, k => k
  | t + 1, k => if r ≤ t then keyAt r t (k.map (unmove (h.movesAt t))) else k

variable {h}

theorem keyAt_track {r t : Nat} {x y : EdgeKey} (track : Track h.edgeAt h.stepEdge r x t y) :
    h.keyAt r t y = x := by
  induction track with
  | here _ =>
    cases r with
    | zero => rfl
    | succ r => rw [keyAt, if_neg (Nat.not_succ_le_self r)]
  | @next t y before there ih =>
    rw [keyAt, if_pos before.le, stepEdge, movesAt, unmove_stepKey _ _ _ before.present_end]
    exact ih

end Snapshots

def covers (start : Nat) (until_ : Option Nat) (r : Nat) : Bool :=
  start ≤ r && match until_ with
    | some u => r < u
    | none => true

/-- The last revision a span with this end covers, of snapshots up to `n`. -/
def lastRev (n : Nat) : Option Nat → Nat
  | some u => u - 1
  | none => n

theorem EndsAt.lastRev {n t : Nat} {u : Option Nat} (h : EndsAt n t u) : lastRev n u = t := by
  cases u with
  | none => exact h.symm
  | some u =>
    obtain ⟨rfl, _⟩ := h
    rfl

theorem EndsAt.covers {n t : Nat} {u : Option Nat} (h : EndsAt n t u) (start : Nat) {r : Nat}
    (below : r ≤ n) : covers start u r = true ↔ start ≤ r ∧ r ≤ t := by
  cases u with
  | none =>
    have last : t = n := h
    simp [Algo.covers, last, below]
  | some u =>
    obtain ⟨rfl, _⟩ := h
    simp [Algo.covers]

theorem EndsAt.unique {n t : Nat} {u u' : Option Nat} (h : EndsAt n t u) (h' : EndsAt n t u') :
    u = u' := by
  cases u with
  | none =>
    cases u' with
    | none => rfl
    | some u' =>
      have last : t = n := h
      have := h'.2
      omega
  | some u =>
    cases u' with
    | none =>
      have last : t = n := h'
      have := h.2
      omega
    | some u' => rw [h.1, h'.1]

section Distinct
variable {κ β : Type} [LinearOrder κ]

theorem closeSpans_nodup (removed : List κ) (m : OrdMap κ β) :
    ((closeSpans removed m).2.map Prod.fst).Nodup := by
  have folded : ∀ step : OrdMap κ β × List (κ × β) → κ → OrdMap κ β × List (κ × β),
      (∀ s k, s.1[k]? = none → step s k = s) →
      (∀ s k v, s.1[k]? = some v → step s k = (s.1.erase k, s.2 ++ [(k, v)])) →
      ∀ (removed : List κ) (m : OrdMap κ β) (acc : List (κ × β)),
      (acc.map Prod.fst).Nodup → (∀ e ∈ acc, m[e.1]? = none) →
      ((removed.foldl step (m, acc)).2.map Prod.fst).Nodup := by
    intro step misses hits removed
    induction removed with
    | nil => exact fun _ _ nodup _ => nodup
    | cons r removed ih =>
      intro m acc nodup gone
      rw [List.foldl_cons]
      cases found : m[r]? with
      | none =>
        rw [misses (m, acc) r found]
        exact ih m acc nodup gone
      | some w =>
        rw [hits (m, acc) r w found]
        apply ih
        · rw [List.map_append, List.nodup_append]
          refine ⟨nodup, List.nodup_singleton r, fun a ha b hb eq => ?_⟩
          obtain ⟨e, mem, rfl⟩ := List.mem_map.mp ha
          have same : e.1 = r := eq.trans (List.mem_singleton.mp hb)
          rw [← same, gone e mem] at found
          cases found
        · intro e mem
          rw [Std.ExtTreeMap.getElem?_erase]
          split
          · rfl
          · rename_i apart
            rcases List.mem_append.mp mem with mem | mem
            · exact gone e mem
            · rw [List.mem_singleton.mp mem] at apart
              exact absurd (compare_eq_iff_eq.mpr rfl) apart
  refine folded _ (fun s k held => by rw [held]) (fun s k v held => by rw [held]) removed m []
    List.nodup_nil fun e mem => ?_
  cases mem

end Distinct

section Builder
variable {h : Snapshots}

/-- Closed spans end by the last revision folded, and no two of one key end together. -/
structure ClosedOnce {σ κ : Type} (key : σ → κ) (until_ : σ → Option Nat) (n : Nat)
    (closed : List σ) : Prop where
  ended : ∀ s ∈ closed, ∃ t, until_ s = some t ∧ t ≤ n
  once : (closed.map fun s => (key s, until_ s)).Nodup

theorem ClosedOnce.push {σ κ : Type} {key : σ → κ} {until_ : σ → Option Nat} {n : Nat}
    {closed more : List σ} (h : ClosedOnce key until_ n closed)
    (ends : ∀ s ∈ more, until_ s = some (n + 1)) (keys : (more.map key).Nodup) :
    ClosedOnce key until_ (n + 1) (closed ++ more) where
  ended s mem := by
    rcases List.mem_append.mp mem with mem | mem
    · obtain ⟨t, eq, le⟩ := h.ended s mem
      exact ⟨t, eq, by omega⟩
    · exact ⟨n + 1, ends s mem, le_rfl⟩
  once := by
    rw [List.map_append, List.nodup_append]
    refine ⟨h.once, ?_, fun a ha b hb eq => ?_⟩
    · apply List.Nodup.of_map Prod.fst
      rw [List.map_map]
      exact keys
    · obtain ⟨s, ms, rfl⟩ := List.mem_map.mp ha
      obtain ⟨s', ms', rfl⟩ := List.mem_map.mp hb
      obtain ⟨t, is, le⟩ := h.ended s ms
      have later := (Prod.mk.inj eq).2
      rw [is, ends s' ms', Option.some.injEq] at later
      omega

theorem ClosedOnce.finish {σ κ β : Type} [LinearOrder κ] {key : σ → κ} {until_ : σ → Option Nat}
    {n : Nat} {closed : List σ} (h : ClosedOnce key until_ n closed) (live : OrdMap κ β)
    (make : κ × β → σ) (keyed : ∀ e, key (make e) = e.1) (still : ∀ e, until_ (make e) = none) :
    ((closed ++ live.toList.map make).map fun s => (key s, until_ s)).Nodup := by
  rw [List.map_append, List.nodup_append]
  refine ⟨h.once, ?_, fun a ha b hb eq => ?_⟩
  · apply List.Nodup.of_map Prod.fst
    rw [List.map_map, List.map_map]
    have keys : (Prod.fst ∘ (fun s => (key s, until_ s))) ∘ make = Prod.fst := by
      funext e
      exact keyed e
    rw [keys]
    have distinct := Std.ExtTreeMap.distinct_keys_toList (t := live)
    rw [List.Nodup, List.pairwise_map]
    exact distinct.imp fun ne eq => ne (compare_eq_iff_eq.mpr eq)
  · obtain ⟨s, ms, rfl⟩ := List.mem_map.mp ha
    obtain ⟨s', ms', rfl⟩ := List.mem_map.mp hb
    obtain ⟨e, _, rfl⟩ := List.mem_map.mp ms'
    obtain ⟨t, is, _⟩ := h.ended s ms
    have open_ := (Prod.mk.inj eq).2
    rw [is, still] at open_
    cases open_

structure BuilderClosed (n : Nat) (b : TimelineBuilder) : Prop where
  rev : b.rev = n
  edges : ClosedOnce EdgeSpan.key EdgeSpan.untilRev n b.closedEdges
  nodes : ClosedOnce NodeSpan.id NodeSpan.untilRev n b.closedNodes

theorem BuilderClosed.push {n : Nat} {b : TimelineBuilder} (c : BuilderClosed n b)
    (fits : n + 1 ≤ maxRev) (prev next : DeltaSide) (moves : List (NodeId × NodeId)) :
    BuilderClosed (n + 1) (b.push prev next moves) := by
  have rev : nextRev b.rev = n + 1 := by rw [nextRev, c.rev, Nat.min_eq_left fits]
  refine ⟨rev, c.edges.push ?_ ?_, c.nodes.push ?_ ?_⟩
  · intro s mem
    obtain ⟨e, _, rfl⟩ := List.mem_map.mp mem
    exact congrArg some rev
  · rw [List.map_map]
    exact closeSpans_nodup _ _
  · intro s mem
    obtain ⟨e, _, rfl⟩ := List.mem_map.mp mem
    exact congrArg some rev
  · rw [List.map_map]
    exact closeSpans_nodup _ _

theorem pushAll_closed (rest : List TimelineBuilder.Push) {n : Nat} {b : TimelineBuilder}
    (c : BuilderClosed n b) (fits : n + rest.length ≤ maxRev) (prev : DeltaSide) :
    BuilderClosed (n + rest.length) (b.pushAll prev rest) := by
  induction rest generalizing n b prev with
  | nil => exact c
  | cons p rest ih =>
    rw [List.length_cons] at fits
    have all := ih (c.push (by omega) prev p.next p.moves) (by omega) p.next
    rw [List.length_cons, show n + (rest.length + 1) = n + 1 + rest.length by omega]
    exact all

theorem builder_closed (fits : h.pushes.length ≤ maxRev) :
    BuilderClosed h.pushes.length h.builder := by
  have first : BuilderClosed 0 (TimelineBuilder.new h.first) := {
    rev := rfl
    edges := ⟨fun s mem => (nomatch mem), List.nodup_nil⟩
    nodes := ⟨fun s mem => (nomatch mem), List.nodup_nil⟩ }
  have all := pushAll_closed h.pushes first (by omega) h.first
  rwa [Nat.zero_add] at all

end Builder

section Listings
variable {h : Snapshots} (fits : h.pushes.length ≤ maxRev)
include fits

theorem edges_distinct : (h.timeline.edges.map fun s => (s.key, s.untilRev)).Nodup := by
  have all := (builder_closed fits).edges.finish h.builder.openEdges (fun e => ⟨e.1, e.2, none⟩)
    (fun _ => rfl) fun _ => rfl
  exact (((List.perm_insertionSort _ _).map _).nodup_iff).mpr all

theorem nodes_distinct : (h.timeline.nodes.map fun s => (s.id, s.untilRev)).Nodup := by
  have all := (builder_closed fits).nodes.finish h.builder.openNodes
    (fun e => ⟨e.1, e.2.1, none, e.2.2⟩) (fun _ => rfl) fun _ => rfl
  exact (((List.perm_insertionSort _ _).map _).nodup_iff).mpr all

theorem edge_listing : Listing h.edgeAt h.stepEdge h.pushes.length h.timeline.edges
    EdgeSpan.fromRev (fun s => lastRev h.pushes.length s.untilRev) EdgeSpan.key
    (fun s r => h.keyAt r (lastRev h.pushes.length s.untilRev) s.key) where
  lives s mem := by
    obtain ⟨t, ends, lives⟩ := edgeSpan_lives fits mem
    rw [ends.lastRev]
    exact lives
  path s mem r lower upper := by
    obtain ⟨t, ends, lives⟩ := edgeSpan_lives fits mem
    rw [ends.lastRev] at upper ⊢
    obtain ⟨x, track⟩ := lives.at_rev lower upper
    rw [Snapshots.keyAt_track track]
    exact track
  covered r k below there := by
    obtain ⟨s, mem, t, ends, began, track⟩ := edge_covered fits below there
    refine ⟨s, mem, began, ?_⟩
    rw [ends.lastRev]
    exact track
  distinct := by
    have once := edges_distinct fits
    rw [List.Nodup, List.pairwise_map] at once ⊢
    apply once.imp_of_mem
    intro s s' ms ms' ne eq
    obtain ⟨t, ends, _⟩ := edgeSpan_lives fits ms
    obtain ⟨t', ends', _⟩ := edgeSpan_lives fits ms'
    have same := (Prod.mk.inj eq).2
    rw [ends.lastRev, ends'.lastRev] at same
    exact ne (Prod.ext (Prod.mk.inj eq).1 (ends.unique (same ▸ ends')))

theorem node_listing : Listing h.nodeAt h.stepNode h.pushes.length h.timeline.nodes
    NodeSpan.fromRev (fun s => lastRev h.pushes.length s.untilRev) NodeSpan.id
    (fun s r => priorAt s.priorIds s.id r) where
  lives s mem := by
    obtain ⟨t, ends, lives, _⟩ := nodeSpan_lives fits mem
    rw [ends.lastRev]
    exact lives
  path s mem r lower upper := by
    obtain ⟨t, ends, _, told⟩ := nodeSpan_lives fits mem
    rw [ends.lastRev] at upper ⊢
    exact told.path r lower upper
  covered r id below there := by
    obtain ⟨s, mem, t, ends, began, track⟩ := node_covered fits below there
    refine ⟨s, mem, began, ?_⟩
    rw [ends.lastRev]
    exact track
  distinct := by
    have once := nodes_distinct fits
    rw [List.Nodup, List.pairwise_map] at once ⊢
    apply once.imp_of_mem
    intro s s' ms ms' ne eq
    obtain ⟨t, ends, _⟩ := nodeSpan_lives fits ms
    obtain ⟨t', ends', _⟩ := nodeSpan_lives fits ms'
    have same := (Prod.mk.inj eq).2
    rw [ends.lastRev, ends'.lastRev] at same
    exact ne (Prod.ext (Prod.mk.inj eq).1 (ends.unique (same ▸ ends')))

end Listings

/-- For as many snapshots as a `u32` counts, the timeline's spans are proper intervals and read
back at each revision are that snapshot's nodes and edges, one span each. -/
theorem timeline_reconstructs (h : Snapshots) (fits : h.pushes.length ≤ maxRev) :
    (∀ s ∈ h.timeline.nodes, ∀ u, s.untilRev = some u → s.fromRev < u) ∧
      (∀ s ∈ h.timeline.edges, ∀ u, s.untilRev = some u → s.fromRev < u) ∧
      Reconstructs h.nodeAt h.stepNode h.pushes.length h.timeline.nodes
        (fun s => covers s.fromRev s.untilRev) (fun s r => priorAt s.priorIds s.id r) ∧
      Reconstructs h.edgeAt h.stepEdge h.pushes.length h.timeline.edges
        (fun s => covers s.fromRev s.untilRev)
        (fun s r => h.keyAt r (lastRev h.pushes.length s.untilRev) s.key) := by
  refine ⟨fun s mem u is => ?_, fun s mem u is => ?_, ?_, ?_⟩
  · obtain ⟨t, ends, lives, _⟩ := nodeSpan_lives fits mem
    rw [is] at ends
    have := lives.start_le
    have := ends.1
    omega
  · obtain ⟨t, ends, lives⟩ := edgeSpan_lives fits mem
    rw [is] at ends
    have := lives.start_le
    have := ends.1
    omega
  · apply (node_listing fits).reconstructs stepNode_injective
    intro s mem r below
    obtain ⟨t, ends, _⟩ := nodeSpan_lives fits mem
    rw [ends.lastRev]
    exact ends.covers s.fromRev below
  · apply (edge_listing fits).reconstructs stepEdge_injective
    intro s mem r below
    obtain ⟨t, ends, _⟩ := edgeSpan_lives fits mem
    rw [ends.lastRev]
    exact ends.covers s.fromRev below

/-- Two snapshots of one edge whose end moves: a span each for both nodes and for the edge. -/
theorem timeline_reconstructs_moved :
    let edge : NodeId → Edge := fun id => ⟨id, 3, 0, .strong, []⟩
    let h : Snapshots := ⟨⟨[⟨1, .strong, []⟩, ⟨3, .strong, []⟩], [edge 1]⟩,
      [⟨[(1, 2)], ⟨[⟨2, .strong, []⟩, ⟨3, .strong, []⟩], [edge 2]⟩⟩]⟩
    Reconstructs h.nodeAt h.stepNode 1 h.timeline.nodes
      (fun s => covers s.fromRev s.untilRev) fun s r => priorAt s.priorIds s.id r :=
  (timeline_reconstructs _ (by decide)).2.2.1

section Saturated

def TimelineBuilder.idle (rev : Nat) : TimelineBuilder := ⟨∅, ∅, [], [], rev, 0, 0⟩

theorem idle_push (rev : Nat) : (TimelineBuilder.idle rev).push {} {} [] =
    TimelineBuilder.idle (nextRev rev) := by
  have quiet : graphDelta {} {} {} = ⟨[], [], [], [], [], [], [], [], 0⟩ := by decide +kernel
  rw [TimelineBuilder.push, quiet]
  rfl

theorem idle_pushAll (k rev : Nat) (le : rev ≤ maxRev) (rest : List TimelineBuilder.Push) :
    (TimelineBuilder.idle rev).pushAll {} (List.replicate k ⟨[], {}⟩ ++ rest) =
      (TimelineBuilder.idle (min (rev + k) maxRev)).pushAll {} rest := by
  induction k generalizing rev with
  | zero =>
    rw [Nat.add_zero, Nat.min_eq_left le]
    rfl
  | succ k ih =>
    rw [List.replicate_succ, List.cons_append, TimelineBuilder.pushAll, idle_push]
    dsimp only
    rw [ih (nextRev rev) (Nat.min_le_right _ _)]
    have count : min (nextRev rev + k) maxRev = min (rev + (k + 1)) maxRev := by
      rw [nextRev]
      omega
    rw [count]

/-- A node that comes after as many empty snapshots as a `u32` counts, and goes at the next. -/
def saturated : Snapshots where
  first := {}
  pushes := List.replicate maxRev ⟨[], {}⟩ ++
    [⟨[], ⟨[⟨1, .strong, []⟩], []⟩⟩, ⟨[], {}⟩]

/-- Its span starts and ends at the revision the count saturates at. -/
theorem saturated_empty_span :
    ∃ s ∈ saturated.timeline.nodes, s.fromRev = maxRev ∧ s.untilRev = some maxRev := by
  have first : TimelineBuilder.new {} = TimelineBuilder.idle 0 := by
    have quiet : graphDelta {} {} {} = ⟨[], [], [], [], [], [], [], [], 0⟩ := by decide +kernel
    rw [TimelineBuilder.new, quiet]
    rfl
  have built : saturated.builder = (TimelineBuilder.idle maxRev).pushAll {}
      [⟨[], ⟨[⟨1, .strong, []⟩], []⟩⟩, ⟨[], {}⟩] := by
    rw [Snapshots.builder, saturated, first, idle_pushAll _ _ (Nat.zero_le _), Nat.zero_add,
      Nat.min_self]
  refine ⟨⟨1, maxRev, some maxRev, []⟩, mem_timeline_nodes.mpr (.inl ?_), rfl, rfl⟩
  rw [built]
  decide +kernel

end Saturated

end Glia.Algo
