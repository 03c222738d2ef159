import Glia.Algo.DeltaScoped

/-! What a delta says of its two sides, read off the sides' own nodes and edges. -/
namespace Glia.Algo

open Glia.Graph (Node IdMap)
open Glia.Kit (OrdMap gather getElem?_gather)

section Sides

namespace DeltaSide
variable (side : DeltaSide)

def Has (id : NodeId) : Prop := ∃ n ∈ side.nodes, n.id = id

def Names (id : NodeId) : Prop := side.Has id ∨ ∃ e ∈ side.edges, e.fromId = id ∨ e.toId = id

def HasEdge (k : EdgeKey) : Prop := ∃ e ∈ side.edges, EdgeKey.of e = k

/-- Some copy of the node shows this text under a content kind. -/
def Shows (kinds : List CellTypeId) (id : NodeId) (t : CellTypeId × String) : Prop :=
  ∃ n ∈ side.nodes, n.id = id ∧ ∃ c ∈ n.cells, c.kind = t.1 ∧ c.payload = .text t.2 ∧ t.1 ∈ kinds

def Strongest (k : EdgeKey) (c : Confidence) : Prop :=
  (∃ e ∈ side.edges, EdgeKey.of e = k ∧ e.confidence = c) ∧
    ∀ e ∈ side.edges, EdgeKey.of e = k → e.confidence.rank ≤ c.rank

def Stamped (cell : Option CellRead) (k : EdgeKey) (part : List UInt8) : Prop :=
  ∃ e ∈ side.edges, EdgeKey.of e = k ∧ partOf cell e = some part

end DeltaSide

theorem mem_textsOf (kinds : List CellTypeId) (n : Node) (t : CellTypeId × String) :
    t ∈ textsOf kinds n ↔ ∃ c ∈ n.cells, c.kind = t.1 ∧ c.payload = .text t.2 ∧ t.1 ∈ kinds := by
  unfold textsOf
  rw [List.mem_toFinset, List.mem_filterMap]
  refine exists_congr fun c => and_congr_right fun _ => ?_
  obtain ⟨kind, text⟩ := t
  cases c.payload with
  | text s =>
    dsimp only
    split
    · rename_i counts
      simp only [Option.some.injEq, Prod.mk.injEq, CellPayload.text.injEq]
      constructor
      · rintro ⟨rfl, rfl⟩
        exact ⟨rfl, rfl, counts⟩
      · rintro ⟨rfl, rfl, _⟩
        exact ⟨rfl, rfl⟩
    · rename_i out
      simp only [reduceCtorEq, false_iff, not_and]
      rintro rfl _
      exact out
  | json s => simp
  | bytes b => simp

theorem foldl_addTexts (kinds : List CellTypeId) (nodes : List Node) (seen : Texts) :
    ∃ v, nodes.foldl (fun o n => addTexts kinds n o) (some seen) = some v ∧
      ∀ t, t ∈ v ↔ t ∈ seen ∨ ∃ n ∈ nodes, t ∈ textsOf kinds n := by
  induction nodes generalizing seen with
  | nil => exact ⟨seen, rfl, by simp⟩
  | cons n rest ih =>
    obtain ⟨v, eq, mem⟩ := ih (seen ∪ textsOf kinds n)
    refine ⟨v, eq, fun t => ?_⟩
    rw [mem, Finset.mem_union, or_assoc]
    simp

/-- A side's content at an id: nothing off its nodes, the texts of every copy on them. -/
theorem content_get (side : DeltaSide) (kinds : List CellTypeId) (id : NodeId) :
    (¬ side.Has id ∧ (content side kinds)[id]? = none) ∨
      (side.Has id ∧ ∃ v, (content side kinds)[id]? = some v ∧
        ∀ t, t ∈ v ↔ side.Shows kinds id t) := by
  have shown : ∀ t, side.Shows kinds id t ↔
      ∃ n ∈ side.nodes.filter fun n => n.id = id, t ∈ textsOf kinds n := by
    intro t
    simp only [DeltaSide.Shows, List.mem_filter, decide_eq_true_eq, mem_textsOf, and_assoc]
  rw [content, getElem?_gather, Std.ExtTreeMap.getElem?_empty]
  cases found : side.nodes.filter fun n => n.id = id with
  | nil =>
    refine .inl ⟨?_, rfl⟩
    rintro ⟨n, mem, here⟩
    have : n ∈ side.nodes.filter fun n => n.id = id :=
      List.mem_filter.mpr ⟨mem, decide_eq_true here⟩
    rw [found] at this
    cases this
  | cons n rest =>
    have mem : n ∈ side.nodes.filter fun n => n.id = id := found ▸ List.mem_cons_self
    obtain ⟨v, eq, texts⟩ := foldl_addTexts kinds rest (textsOf kinds n)
    refine .inr ⟨⟨n, (List.mem_filter.mp mem).1, of_decide_eq_true (List.mem_filter.mp mem).2⟩,
      v, ?_, fun t => ?_⟩
    · rw [List.foldl_cons, ← eq]
      simp [addTexts]
    · rw [texts, shown, found]
      simp

theorem content_contains (side : DeltaSide) (kinds : List CellTypeId) (id : NodeId) :
    (content side kinds).contains id = true ↔ side.Has id := by
  rw [OrdMap.contains_eq_isSome]
  obtain ⟨out, eq⟩ | ⟨has, v, eq, _⟩ := content_get side kinds id
  · simp [eq, out]
  · simp [eq, has]

end Sides

section Count
variable {old new : IdMap Texts}

theorem acceptPair_counts (s : Accepted) (p : NodeId × NodeId) :
    (acceptPair old new s p).moves.size + (acceptPair old new s p).ignored =
      s.moves.size + s.ignored + 1 := by
  rw [acceptPair]
  split
  · rename_i fits
    have fresh : ¬ s.moves.contains p.1 = true := by
      have unmoved := fits.2.2.2.1
      rwa [Bool.not_eq_true', ← Bool.not_eq_true] at unmoved
    simp only [Std.ExtTreeMap.size_insert, if_neg fresh]
    omega
  · simp only
    omega

theorem acceptPairs_counts (pairs : List (NodeId × NodeId)) (s : Accepted) :
    (pairs.foldl (acceptPair old new) s).moves.size + (pairs.foldl (acceptPair old new) s).ignored =
      s.moves.size + s.ignored + pairs.length := by
  induction pairs generalizing s with
  | nil => rfl
  | cons p rest ih =>
    rw [List.foldl_cons, ih, acceptPair_counts, List.length_cons]
    omega

theorem settleMoves_size (taken : NodeId → Bool) (fuel : Nat) (moves : IdMap NodeId) :
    (settleMoves taken fuel moves).size ≤ moves.size := by
  induction fuel generalizing moves with
  | zero => exact le_rfl
  | succ fuel ih =>
    rw [settleMoves]
    split
    · exact le_rfl
    · exact (ih _).trans Std.ExtTreeMap.size_filter_le_size

theorem acceptMoves_counts (pairs : List (NodeId × NodeId)) (before : DeltaSide) :
    (acceptMoves pairs before old new).1.size + (acceptMoves pairs before old new).2 =
      pairs.length := by
  have counts := @acceptPairs_counts old new pairs {}
  have empty : ({} : Accepted).moves.size + ({} : Accepted).ignored = 0 := rfl
  have le := settleMoves_size (named before old (pairs.foldl (acceptPair old new) {}).targets)
    (pairs.foldl (acceptPair old new) {}).moves.size (pairs.foldl (acceptPair old new) {}).moves
  rw [empty] at counts
  simp only [acceptMoves]
  omega

end Count

section Exact

variable (before after : DeltaSide) (opts : DeltaOptions)

def GraphDelta.moveTo (d : GraphDelta) (id : NodeId) : NodeId :=
  ((d.movedNodes.find? fun p => p.1 == id).map Prod.snd).getD id

/-- The applied moves rename no two before-side ids into one, and every other pair is
counted. -/
structure GraphDelta.MovesExact (d : GraphDelta) : Prop where
  given : ∀ p ∈ d.movedNodes, p ∈ opts.moves ∧ p.1 ≠ p.2 ∧ before.Has p.1 ∧ after.Has p.2
  once : (d.movedNodes.map Prod.fst).Nodup
  injective : (d.movedNodes.map Prod.snd).Nodup
  apart : ∀ b b', before.Names b → before.Names b' → d.moveTo b = d.moveTo b' → b = b'
  counted : d.movedNodes.length + d.ignoredMoves = opts.moves.length

def GraphDelta.KeepsNode (d : GraphDelta) (b a : NodeId) : Prop :=
  before.Has b ∧ b ∉ d.removedNodes ∧ d.moveTo b = a

def GraphDelta.KeepsEdge (d : GraphDelta) (given k : EdgeKey) : Prop :=
  before.HasEdge given ∧ given ∉ d.removedEdges ∧ given.map d.moveTo = k

/-- Nodes: what survives and what is added is the after side; the three parts are apart; and
modified are the survivors whose texts differ. -/
structure GraphDelta.NodesExact (d : GraphDelta) : Prop where
  removed : ∀ b ∈ d.removedNodes, before.Has b
  whole : ∀ a, after.Has a ↔ a ∈ d.addedNodes ∨ ∃ b, d.KeepsNode before b a
  added : ∀ a ∈ d.addedNodes, a ∉ d.removedNodes ∧ ∀ b, ¬ d.KeepsNode before b a
  gone : ∀ a ∈ d.removedNodes, ∀ b, ¬ d.KeepsNode before b a
  modified : ∀ a, a ∈ d.modifiedNodes ↔ ∃ b, d.KeepsNode before b a ∧
    ∃ t, ¬ (before.Shows opts.contentCells b t ↔ after.Shows opts.contentCells a t)

/-- Edges: the same for their keys, the removed ones taken through the moves; reconfidenced
are the survivors whose strongest confidence differs, restamped those at one confidence whose
compared parts differ. -/
structure GraphDelta.EdgesExact (d : GraphDelta) : Prop where
  removed : ∀ k ∈ d.removedEdges, before.HasEdge k
  whole : ∀ k, after.HasEdge k ↔ k ∈ d.addedEdges ∨ ∃ given, d.KeepsEdge before given k
  added : ∀ k ∈ d.addedEdges, (∀ given ∈ d.removedEdges, given.map d.moveTo ≠ k) ∧
    ∀ given, ¬ d.KeepsEdge before given k
  gone : ∀ k ∈ d.removedEdges, ∀ given, ¬ d.KeepsEdge before given (k.map d.moveTo)
  reconfidenced : ∀ k c c', (k, c, c') ∈ d.reconfidencedEdges ↔ c ≠ c' ∧
    ∃ given, d.KeepsEdge before given k ∧ before.Strongest given c ∧ after.Strongest k c'
  restamped : ∀ k, k ∈ d.restampedEdges ↔ ∃ given, d.KeepsEdge before given k ∧
    (∃ c, before.Strongest given c ∧ after.Strongest k c) ∧
    ∃ part, ¬ (before.Stamped opts.edgeCell given part ↔ after.Stamped opts.edgeCell k part)

abbrev movesApplied : IdMap NodeId :=
  (acceptMoves opts.moves before (content before opts.contentCells)
    (content after opts.contentCells)).1

theorem moveTo_eq (id : NodeId) :
    (graphDelta before after opts).moveTo id = remap (movesApplied before after opts) id := by
  unfold GraphDelta.moveTo remap
  have listed : (graphDelta before after opts).movedNodes =
      (movesApplied before after opts).toList := rfl
  rw [listed]
  cases found : (movesApplied before after opts).toList.find? fun p => p.1 == id with
  | none =>
    have missing : (movesApplied before after opts)[id]? = none := by
      rw [Option.eq_none_iff_forall_ne_some]
      intro a moved
      have none' := List.find?_eq_none.mp found (id, a) (OrdMap.mem_toList.mpr moved)
      exact none' (beq_self_eq_true id)
    rw [missing]
    rfl
  | some p =>
    have here := List.find?_some found
    rw [beq_iff_eq] at here
    have moved : (movesApplied before after opts)[id]? = some p.2 :=
      OrdMap.mem_toList.mp (here ▸ List.mem_of_find?_eq_some found)
    rw [moved]
    rfl

theorem movesApplied_applied : Applied opts.moves before (content before opts.contentCells)
    (content after opts.contentCells) (movesApplied before after opts) :=
  acceptMoves_applied opts.moves before _ _

variable {before after opts}

theorem Applied.apart {moves : IdMap NodeId} {pairs : List (NodeId × NodeId)}
    {old new : IdMap Texts} (applied : Applied pairs before old new moves)
    (isOld : ∀ id, old.contains id = true ↔ before.Has id) {b b' : NodeId}
    (hb : before.Names b) (hb' : before.Names b') (same : remap moves b = remap moves b') :
    b = b' := by
  have away : ∀ {b b' : NodeId}, before.Names b' → moves[b]? = some b' →
      ∃ c : NodeId, moves[b']? = some c := by
    intro b b' names moved
    refine applied.away b b' moved ?_
    rw [isOld]
    exact names
  unfold remap at same
  cases moved : moves[b]? with
  | none =>
    cases moved' : moves[b']? with
    | none =>
      rw [moved, moved'] at same
      exact same
    | some a =>
      rw [moved, moved'] at same
      obtain rfl : b = a := same
      obtain ⟨c, there⟩ := away hb moved'
      rw [moved] at there
      cases there
  | some a =>
    cases moved' : moves[b']? with
    | none =>
      rw [moved, moved'] at same
      obtain rfl : a = b' := same
      obtain ⟨c, there⟩ := away hb' moved
      rw [moved'] at there
      cases there
    | some a' =>
      rw [moved, moved'] at same
      obtain rfl : a = a' := same
      exact applied.injective b b' a moved moved'

theorem remap_apart {b b' : NodeId} (hb : before.Names b) (hb' : before.Names b')
    (same : remap (movesApplied before after opts) b = remap (movesApplied before after opts) b') :
    b = b' :=
  (movesApplied_applied before after opts).apart (content_contains before opts.contentCells)
    hb hb' same

theorem moves_exact : (graphDelta before after opts).MovesExact before after opts := by
  have applied := movesApplied_applied before after opts
  have listed : (graphDelta before after opts).movedNodes =
      (movesApplied before after opts).toList := rfl
  have keys : (movesApplied before after opts).toList.Pairwise fun p q => ¬ p.1 = q.1 :=
    (movesApplied before after opts).distinct_keys_toList.imp fun h eq =>
      h (compare_eq_iff_eq.mpr eq)
  refine ⟨?_, ?_, ?_, ?_, ?_⟩
  · rintro ⟨b, a⟩ mem
    have moved := OrdMap.mem_toList.mp (listed ▸ mem)
    obtain ⟨ne, has, reached⟩ := applied.held b a moved
    rw [content_contains] at has reached
    exact ⟨applied.listed b a moved, ne, has, reached⟩
  · rw [listed, List.Nodup, List.pairwise_map]
    exact keys
  · rw [listed, List.Nodup, List.pairwise_map]
    refine keys.imp_of_mem ?_
    rintro ⟨b, a⟩ ⟨b', a'⟩ mem mem' ne (rfl : a = a')
    exact ne (applied.injective b b' a (OrdMap.mem_toList.mp mem) (OrdMap.mem_toList.mp mem'))
  · intro b b' hb hb' same
    rw [moveTo_eq, moveTo_eq] at same
    exact remap_apart hb hb' same
  · rw [listed, Std.ExtTreeMap.length_toList]
    exact acceptMoves_counts opts.moves before

theorem removedNodes_iff (b : NodeId) : b ∈ (graphDelta before after opts).removedNodes ↔
    before.Has b ∧ ¬ after.Has (remap (movesApplied before after opts) b) := by
  rw [← content_contains before opts.contentCells, ← content_contains after opts.contentCells]
  have listed : (graphDelta before after opts).removedNodes =
      (content before opts.contentCells).toList.filterMap fun e =>
        if (content after opts.contentCells).contains
          (remap (movesApplied before after opts) e.1) then none else some e.1 := rfl
  rw [listed, List.mem_filterMap]
  constructor
  · rintro ⟨⟨b', v⟩, mem, found⟩
    split at found
    · cases found
    · rename_i out
      cases found
      rw [OrdMap.contains_eq_isSome, OrdMap.mem_toList.mp mem]
      exact ⟨rfl, out⟩
  · rintro ⟨has, out⟩
    rw [OrdMap.contains_eq_isSome, Option.isSome_iff_exists] at has
    obtain ⟨v, at'⟩ := has
    exact ⟨(b, v), OrdMap.mem_toList.mpr at', if_neg out⟩

theorem keepsNode_iff (b a : NodeId) : (graphDelta before after opts).KeepsNode before b a ↔
    before.Has b ∧ remap (movesApplied before after opts) b = a ∧ after.Has a := by
  unfold GraphDelta.KeepsNode
  rw [removedNodes_iff, moveTo_eq]
  constructor
  · rintro ⟨has, stays, rfl⟩
    refine ⟨has, rfl, ?_⟩
    by_contra out
    exact stays ⟨has, out⟩
  · rintro ⟨has, rfl, there⟩
    exact ⟨has, fun gone => gone.2 there, rfl⟩

theorem wasIds_eq_some (b a : NodeId) : (wasIds (movesApplied before after opts)
      (content before opts.contentCells) (content after opts.contentCells))[a]? = some b ↔
    (graphDelta before after opts).KeepsNode before b a := by
  rw [keepsNode_iff, ← content_contains before opts.contentCells,
    ← content_contains after opts.contentCells]
  constructor
  · exact wasIds_spec
  · intro here
    have mem := mem_cameFrom.mpr here
    rw [wasIds_get]
    cases last : (cameFrom (movesApplied before after opts) (content before opts.contentCells)
        (content after opts.contentCells) a).getLast? with
    | none =>
      rw [List.getLast?_eq_none_iff.mp last] at mem
      cases mem
    | some b' =>
      obtain ⟨has', same', _⟩ := mem_cameFrom.mp (List.mem_of_getLast? last)
      rw [remap_apart (.inl ((content_contains _ _ _).mp has')) (.inl ((content_contains _ _ _).mp here.1))
        (same'.trans here.2.1.symm)]

theorem addedNodes_iff (a : NodeId) : a ∈ (graphDelta before after opts).addedNodes ↔
    after.Has a ∧ ∀ b, ¬ (graphDelta before after opts).KeepsNode before b a := by
  simp only [← wasIds_eq_some, ← content_contains after opts.contentCells]
  have listed : (graphDelta before after opts).addedNodes =
      (content after opts.contentCells).toList.filterMap fun e =>
        if (wasIds (movesApplied before after opts) (content before opts.contentCells)
          (content after opts.contentCells)).contains e.1 then none else some e.1 := rfl
  rw [listed, List.mem_filterMap, ← Option.eq_none_iff_forall_ne_some]
  constructor
  · rintro ⟨⟨a', v⟩, mem, found⟩
    split at found
    · cases found
    · rename_i out
      cases found
      rw [OrdMap.contains_eq_isSome, OrdMap.mem_toList.mp mem]
      refine ⟨rfl, ?_⟩
      rwa [OrdMap.contains_eq_isSome, Option.not_isSome_iff_eq_none] at out
  · rintro ⟨has, fresh⟩
    rw [OrdMap.contains_eq_isSome, Option.isSome_iff_exists] at has
    obtain ⟨v, at'⟩ := has
    refine ⟨(a, v), OrdMap.mem_toList.mpr at', if_neg ?_⟩
    rw [OrdMap.contains_eq_isSome, Option.not_isSome_iff_eq_none]
    exact fresh

theorem removed_absent {a : NodeId} (gone : a ∈ (graphDelta before after opts).removedNodes) :
    ¬ after.Has a := by
  intro has
  obtain ⟨_, out⟩ := (removedNodes_iff a).mp gone
  unfold remap at out
  cases moved : (movesApplied before after opts)[a]? with
  | none =>
    rw [moved] at out
    exact out has
  | some c =>
    rw [moved] at out
    have there := ((movesApplied_applied before after opts).held a c moved).2.2
    exact out ((content_contains _ _ _).mp there)

theorem modifiedNodes_iff (a : NodeId) : a ∈ (graphDelta before after opts).modifiedNodes ↔
    ∃ b, (graphDelta before after opts).KeepsNode before b a ∧
      ∃ t, ¬ (before.Shows opts.contentCells b t ↔ after.Shows opts.contentCells a t) := by
  have texts : ∀ {side : DeltaSide} {id : NodeId} {v : Texts},
      (content side opts.contentCells)[id]? = some v →
        ∀ t, t ∈ v ↔ side.Shows opts.contentCells id t := by
    intro side id v at'
    obtain ⟨_, eq⟩ | ⟨_, w, eq, mem⟩ := content_get side opts.contentCells id
    · rw [at'] at eq
      cases eq
    · rw [at'] at eq
      cases eq
      exact mem
  have listed : (graphDelta before after opts).modifiedNodes =
      (content after opts.contentCells).toList.filterMap fun e =>
        ((wasIds (movesApplied before after opts) (content before opts.contentCells)
          (content after opts.contentCells))[e.1]?).bind fun b =>
            if (content before opts.contentCells)[b]? = some e.2 then none else some e.1 := rfl
  rw [listed, List.mem_filterMap]
  constructor
  · rintro ⟨⟨a', v⟩, mem, found⟩
    obtain ⟨b, was, found⟩ := Option.bind_eq_some_iff.mp found
    split at found
    · cases found
    · rename_i differs
      obtain rfl : a' = a := Option.some.inj found
      have keeps := (wasIds_eq_some b a').mp was
      refine ⟨b, keeps, ?_⟩
      have has := (content_contains before opts.contentCells b).mpr keeps.1
      rw [OrdMap.contains_eq_isSome, Option.isSome_iff_exists] at has
      obtain ⟨w, at'⟩ := has
      by_contra same
      simp only [not_exists, not_not] at same
      apply differs
      rw [at']
      congr 1
      ext t
      rw [texts at' t, texts (OrdMap.mem_toList.mp mem) t]
      exact same t
  · rintro ⟨b, keeps, t, differs⟩
    have there := ((keepsNode_iff b a).mp keeps).2.2
    rw [← content_contains after opts.contentCells, OrdMap.contains_eq_isSome,
      Option.isSome_iff_exists] at there
    obtain ⟨v, at'⟩ := there
    refine ⟨(a, v), OrdMap.mem_toList.mpr at', ?_⟩
    rw [(wasIds_eq_some b a).mpr keeps, Option.bind_some, if_neg]
    intro same
    apply differs
    rw [← texts same t, ← texts at' t]

theorem nodes_exact : (graphDelta before after opts).NodesExact before after opts := by
  refine ⟨fun b gone => ((removedNodes_iff b).mp gone).1, ?_, ?_, ?_, modifiedNodes_iff⟩
  · intro a
    rw [addedNodes_iff]
    constructor
    · intro has
      by_cases kept : ∃ b, (graphDelta before after opts).KeepsNode before b a
      · exact .inr kept
      · exact .inl ⟨has, fun b keeps => kept ⟨b, keeps⟩⟩
    · rintro (⟨has, _⟩ | ⟨b, keeps⟩)
      · exact has
      · exact ((keepsNode_iff b a).mp keeps).2.2
  · intro a added
    obtain ⟨has, fresh⟩ := (addedNodes_iff a).mp added
    exact ⟨fun gone => removed_absent gone has, fresh⟩
  · intro a gone b keeps
    exact removed_absent gone ((keepsNode_iff b a).mp keeps).2.2

end Exact

section Edges

variable {side : DeltaSide} {f : NodeId → NodeId} {cell : Option CellRead}

def Apart (side : DeltaSide) (f : NodeId → NodeId) : Prop :=
  ∀ e ∈ side.edges, ∀ e' ∈ side.edges,
    (EdgeKey.of e).map f = (EdgeKey.of e').map f → EdgeKey.of e = EdgeKey.of e'

theorem foldEdges_read (apart : Apart side f) {k : EdgeKey} {v : Folded}
    (h : (foldEdges side.edges f cell)[k]? = some v) :
    side.HasEdge v.given ∧ v.given.map f = k ∧ side.Strongest v.given v.confidence ∧
      ∀ x, x ∈ v.cell ↔ side.Stamped cell v.given x := by
  obtain ⟨e₀, mem₀, given, named⟩ := foldEdges_given h
  have same : ∀ e ∈ side.edges, (EdgeKey.of e).map f = k ↔ EdgeKey.of e = v.given := by
    intro e mem
    constructor
    · intro eq
      exact (apart e mem e₀ mem₀ (eq.trans named.symm)).trans given
    · intro eq
      rw [eq, ← given, named]
  have copies : side.edges.filter (fun e => (EdgeKey.of e).map f = k) =
      side.edges.filter fun e => EdgeKey.of e = v.given :=
    List.filter_congr fun e mem => decide_eq_decide.mpr (same e mem)
  have folded : FoldedFrom cell (side.edges.filter fun e => EdgeKey.of e = v.given) v := by
    rw [foldEdges, getElem?_gather, copies, Std.ExtTreeMap.getElem?_empty] at h
    cases found : side.edges.filter fun e => EdgeKey.of e = v.given with
    | nil =>
      rw [found] at h
      cases h
    | cons e rest =>
      obtain ⟨w, eq, spec, _⟩ := foldl_foldEdge_cons cell e rest
      rw [found, eq] at h
      cases h
      exact spec
  have mem : ∀ e, e ∈ side.edges.filter (fun e => EdgeKey.of e = v.given) ↔
      e ∈ side.edges ∧ EdgeKey.of e = v.given := by
    intro e
    rw [List.mem_filter, decide_eq_true_eq]
  refine ⟨⟨e₀, mem₀, given⟩, by rw [← given, named], ⟨?_, ?_⟩, ?_⟩
  · obtain ⟨e, there, strong⟩ := folded.strongest
    exact ⟨e, ((mem e).mp there).1, ((mem e).mp there).2, strong⟩
  · exact fun e there here => folded.bound e ((mem e).mpr ⟨there, here⟩)
  · intro x
    rw [folded.cells]
    exact exists_congr fun e => by rw [mem, and_assoc]

theorem foldEdges_held (cell : Option CellRead) (apart : Apart side f) {k : EdgeKey}
    (has : side.HasEdge k) :
    ∃ v, (foldEdges side.edges f cell)[k.map f]? = some v ∧ v.given = k := by
  obtain ⟨e, mem, rfl⟩ := has
  have listed : ∃ v, (foldEdges side.edges f cell)[(EdgeKey.of e).map f]? = some v := by
    rw [foldEdges, getElem?_gather, Std.ExtTreeMap.getElem?_empty]
    have there : e ∈ side.edges.filter fun e' => (EdgeKey.of e').map f = (EdgeKey.of e).map f :=
      List.mem_filter.mpr ⟨mem, by simp⟩
    cases found : side.edges.filter fun e' => (EdgeKey.of e').map f = (EdgeKey.of e).map f with
    | nil =>
      rw [found] at there
      cases there
    | cons e' rest =>
      obtain ⟨v, eq, _⟩ := foldl_foldEdge_cons cell e' rest
      exact ⟨v, eq⟩
  obtain ⟨v, at'⟩ := listed
  obtain ⟨e', mem', given, named⟩ := foldEdges_given at'
  exact ⟨v, at', given.symm.trans (apart e' mem' e mem named)⟩

theorem foldEdges_contains_iff (cell : Option CellRead) (apart : Apart side f) (k : EdgeKey) :
    (foldEdges side.edges f cell).contains k = true ↔ ∃ given, side.HasEdge given ∧ given.map f = k := by
  rw [OrdMap.contains_eq_isSome, Option.isSome_iff_exists]
  constructor
  · rintro ⟨v, at'⟩
    obtain ⟨has, named, _⟩ := foldEdges_read apart at'
    exact ⟨v.given, has, named⟩
  · rintro ⟨given, has, rfl⟩
    obtain ⟨v, at', _⟩ := foldEdges_held cell apart has
    exact ⟨v, at'⟩

theorem apart_id (side : DeltaSide) : Apart side id := fun _ _ _ _ same => same

@[simp] theorem EdgeKey.map_id (k : EdgeKey) : k.map id = k := rfl

theorem contains_newEdges (cell : Option CellRead) (k : EdgeKey) :
    (foldEdges side.edges id cell).contains k = true ↔ side.HasEdge k := by
  rw [foldEdges_contains_iff cell (apart_id side)]
  constructor
  · rintro ⟨_, has, rfl⟩
    exact has
  · exact fun has => ⟨k, has, rfl⟩

theorem newEdges_read {k : EdgeKey} {v : Folded}
    (h : (foldEdges side.edges id cell)[k]? = some v) :
    side.Strongest k v.confidence ∧ ∀ x, x ∈ v.cell ↔ side.Stamped cell k x := by
  obtain ⟨_, named, strong, stamped⟩ := foldEdges_read (apart_id side) h
  rw [EdgeKey.map_id] at named
  exact named ▸ ⟨strong, stamped⟩

theorem DeltaSide.Strongest.unique {k : EdgeKey} {c c' : Confidence} (h : side.Strongest k c)
    (h' : side.Strongest k c') : c = c' := by
  obtain ⟨⟨e, mem, here, rfl⟩, bound⟩ := h
  obtain ⟨⟨e', mem', here', rfl⟩, bound'⟩ := h'
  exact rank_injective (le_antisymm (bound' e mem here) (bound e' mem' here'))

variable {before after : DeltaSide} {opts : DeltaOptions}

theorem remap_apart_edges : Apart before (remap (movesApplied before after opts)) := by
  intro e mem e' mem' same
  have source := congrArg EdgeKey.source same
  have target := congrArg EdgeKey.target same
  have category := congrArg EdgeKey.category same
  simp only [EdgeKey.source_map, EdgeKey.target_map, EdgeKey.category_map] at source target category
  refine EdgeKey.ext_ends ?_ ?_ category
  · exact remap_apart (.inr ⟨e, mem, .inl rfl⟩) (.inr ⟨e', mem', .inl rfl⟩) source
  · exact remap_apart (.inr ⟨e, mem, .inr rfl⟩) (.inr ⟨e', mem', .inr rfl⟩) target

theorem moveTo_remap : (graphDelta before after opts).moveTo =
    remap (movesApplied before after opts) :=
  funext fun id => moveTo_eq before after opts id

theorem removedEdges_iff (k : EdgeKey) : k ∈ (graphDelta before after opts).removedEdges ↔
    before.HasEdge k ∧ ¬ after.HasEdge (k.map (remap (movesApplied before after opts))) := by
  have listed : (graphDelta before after opts).removedEdges =
      ((foldEdges before.edges (remap (movesApplied before after opts)) opts.edgeCell).toList.filterMap
        fun e => if (foldEdges after.edges id opts.edgeCell).contains e.1 then none
          else some e.2.given).insertionSort (· ≤ ·) := rfl
  rw [listed, (List.perm_insertionSort _ _).mem_iff, List.mem_filterMap]
  constructor
  · rintro ⟨⟨k', v⟩, mem, found⟩
    obtain ⟨has, named, _⟩ := foldEdges_read remap_apart_edges (OrdMap.mem_toList.mp mem)
    split at found
    · cases found
    · rename_i out
      obtain rfl : v.given = k := Option.some.inj found
      rw [contains_newEdges opts.edgeCell] at out
      exact ⟨has, named ▸ out⟩
  · rintro ⟨has, out⟩
    obtain ⟨v, at', given⟩ := foldEdges_held opts.edgeCell remap_apart_edges has
    refine ⟨(_, v), OrdMap.mem_toList.mpr at', ?_⟩
    rw [if_neg, given]
    rwa [contains_newEdges opts.edgeCell]

theorem keepsEdge_iff (given k : EdgeKey) : (graphDelta before after opts).KeepsEdge before given k ↔
    before.HasEdge given ∧ given.map (remap (movesApplied before after opts)) = k ∧
      after.HasEdge k := by
  unfold GraphDelta.KeepsEdge
  rw [removedEdges_iff, moveTo_remap]
  constructor
  · rintro ⟨has, stays, rfl⟩
    refine ⟨has, rfl, ?_⟩
    by_contra out
    exact stays ⟨has, out⟩
  · rintro ⟨has, rfl, there⟩
    exact ⟨has, fun gone => gone.2 there, rfl⟩

theorem addedEdges_iff (k : EdgeKey) : k ∈ (graphDelta before after opts).addedEdges ↔
    after.HasEdge k ∧ ¬ ∃ given, before.HasEdge given ∧
      given.map (remap (movesApplied before after opts)) = k := by
  have listed : (graphDelta before after opts).addedEdges =
      (foldEdges after.edges id opts.edgeCell).toList.filterMap fun e =>
        if (foldEdges before.edges (remap (movesApplied before after opts)) opts.edgeCell).contains e.1
        then none else some e.1 := rfl
  rw [listed, List.mem_filterMap, ← foldEdges_contains_iff opts.edgeCell remap_apart_edges,
    ← contains_newEdges opts.edgeCell]
  constructor
  · rintro ⟨⟨k', v⟩, mem, found⟩
    split at found
    · cases found
    · rename_i out
      obtain rfl : k' = k := Option.some.inj found
      rw [OrdMap.contains_eq_isSome, OrdMap.mem_toList.mp mem]
      exact ⟨rfl, out⟩
  · rintro ⟨has, out⟩
    rw [OrdMap.contains_eq_isSome, Option.isSome_iff_exists] at has
    obtain ⟨v, at'⟩ := has
    exact ⟨(k, v), OrdMap.mem_toList.mpr at', if_neg out⟩

theorem keepsEdge_entries {given k : EdgeKey}
    (keeps : (graphDelta before after opts).KeepsEdge before given k) :
    ∃ v now, (foldEdges before.edges (remap (movesApplied before after opts)) opts.edgeCell)[k]? =
      some v ∧ v.given = given ∧ (foldEdges after.edges id opts.edgeCell)[k]? = some now := by
  obtain ⟨has, rfl, there⟩ := (keepsEdge_iff given k).mp keeps
  obtain ⟨v, at', same⟩ := foldEdges_held opts.edgeCell remap_apart_edges has
  obtain ⟨now, at'', _⟩ := foldEdges_held opts.edgeCell (apart_id after) there
  exact ⟨v, now, at', same, at''⟩

theorem entries_keepsEdge {k : EdgeKey} {v now : Folded}
    (old : (foldEdges before.edges (remap (movesApplied before after opts)) opts.edgeCell)[k]? =
      some v) (new : (foldEdges after.edges id opts.edgeCell)[k]? = some now) :
    (graphDelta before after opts).KeepsEdge before v.given k := by
  obtain ⟨has, named, _⟩ := foldEdges_read remap_apart_edges old
  refine (keepsEdge_iff v.given k).mpr ⟨has, named, ?_⟩
  rw [← contains_newEdges opts.edgeCell, OrdMap.contains_eq_isSome, new]
  rfl

theorem reconfidencedEdges_iff (k : EdgeKey) (c c' : Confidence) :
    (k, c, c') ∈ (graphDelta before after opts).reconfidencedEdges ↔ c ≠ c' ∧
      ∃ given, (graphDelta before after opts).KeepsEdge before given k ∧
        before.Strongest given c ∧ after.Strongest k c' := by
  have listed : (graphDelta before after opts).reconfidencedEdges =
      (foldEdges before.edges (remap (movesApplied before after opts)) opts.edgeCell).toList.filterMap
        fun e => ((foldEdges after.edges id opts.edgeCell)[e.1]?).bind fun now =>
          if now.confidence = e.2.confidence then none
          else some (e.1, e.2.confidence, now.confidence) := rfl
  rw [listed, List.mem_filterMap]
  constructor
  · rintro ⟨⟨k', v⟩, mem, found⟩
    have old := OrdMap.mem_toList.mp mem
    obtain ⟨now, new, found⟩ := Option.bind_eq_some_iff.mp found
    split at found
    · cases found
    · rename_i differs
      cases found
      obtain ⟨_, _, strong, _⟩ := foldEdges_read remap_apart_edges old
      exact ⟨fun same => differs same.symm, v.given, entries_keepsEdge old new, strong,
        (newEdges_read new).1⟩
  · rintro ⟨differs, given, keeps, strong, strong'⟩
    obtain ⟨v, now, old, rfl, new⟩ := keepsEdge_entries keeps
    obtain rfl := (foldEdges_read remap_apart_edges old).2.2.1.unique strong
    obtain rfl := (newEdges_read new).1.unique strong'
    refine ⟨(k, v), OrdMap.mem_toList.mpr old, ?_⟩
    rw [new, Option.bind_some, if_neg fun same => differs same.symm]

theorem restampedEdges_iff (k : EdgeKey) : k ∈ (graphDelta before after opts).restampedEdges ↔
    ∃ given, (graphDelta before after opts).KeepsEdge before given k ∧
      (∃ c, before.Strongest given c ∧ after.Strongest k c) ∧
      ∃ part, ¬ (before.Stamped opts.edgeCell given part ↔ after.Stamped opts.edgeCell k part) := by
  have listed : (graphDelta before after opts).restampedEdges =
      (foldEdges before.edges (remap (movesApplied before after opts)) opts.edgeCell).toList.filterMap
        fun e => ((foldEdges after.edges id opts.edgeCell)[e.1]?).bind fun now =>
          if now.confidence = e.2.confidence ∧ now.cell ≠ e.2.cell then some e.1 else none := rfl
  rw [listed, List.mem_filterMap]
  constructor
  · rintro ⟨⟨k', v⟩, mem, found⟩
    have old := OrdMap.mem_toList.mp mem
    obtain ⟨now, new, found⟩ := Option.bind_eq_some_iff.mp found
    split at found
    · rename_i both
      obtain rfl : k' = k := Option.some.inj found
      obtain ⟨_, _, strong, stamped⟩ := foldEdges_read remap_apart_edges old
      obtain ⟨strong', stamped'⟩ := newEdges_read new
      refine ⟨v.given, entries_keepsEdge old new, ⟨v.confidence, strong, both.1 ▸ strong'⟩, ?_⟩
      by_contra same
      simp only [not_exists, not_not] at same
      refine both.2 (Finset.ext fun x => ?_)
      rw [stamped, stamped', same]
    · cases found
  · rintro ⟨given, keeps, ⟨c, strong, strong'⟩, part, differs⟩
    obtain ⟨v, now, old, rfl, new⟩ := keepsEdge_entries keeps
    obtain ⟨_, _, isStrong, stamped⟩ := foldEdges_read remap_apart_edges old
    obtain ⟨isStrong', stamped'⟩ := newEdges_read new
    refine ⟨(k, v), OrdMap.mem_toList.mpr old, ?_⟩
    rw [new, Option.bind_some, if_pos]
    refine ⟨(isStrong'.unique strong').trans (strong.unique isStrong), fun same => differs ?_⟩
    rw [← stamped, ← stamped', same]

theorem edges_exact : (graphDelta before after opts).EdgesExact before after opts := by
  refine ⟨fun k gone => ((removedEdges_iff k).mp gone).1, ?_, ?_, ?_, reconfidencedEdges_iff,
    restampedEdges_iff⟩
  · intro k
    rw [addedEdges_iff]
    simp only [keepsEdge_iff]
    constructor
    · intro has
      by_cases kept : ∃ given, before.HasEdge given ∧
          given.map (remap (movesApplied before after opts)) = k
      · obtain ⟨given, held, named⟩ := kept
        exact .inr ⟨given, held, named, has⟩
      · exact .inl ⟨has, kept⟩
    · rintro (⟨has, _⟩ | ⟨_, _, _, has⟩)
      · exact has
      · exact has
  · intro k added
    obtain ⟨has, fresh⟩ := (addedEdges_iff k).mp added
    constructor
    · rintro given gone rfl
      rw [moveTo_remap] at fresh
      exact fresh ⟨given, ((removedEdges_iff given).mp gone).1, rfl⟩
    · intro given keeps
      obtain ⟨held, named, _⟩ := (keepsEdge_iff given k).mp keeps
      exact fresh ⟨given, held, named⟩
  · intro k gone given keeps
    have out := ((removedEdges_iff k).mp gone).2
    rw [moveTo_remap] at keeps
    exact out ((keepsEdge_iff _ _).mp keeps).2.2

end Edges

section Same

structure DeltaSide.SameAs (side side' : DeltaSide) : Prop where
  nodes : ∀ n, n ∈ side.nodes ↔ n ∈ side'.nodes
  edges : ∀ e, e ∈ side.edges ↔ e ∈ side'.edges

variable {side side' : DeltaSide}

theorem DeltaSide.SameAs.has (same : side.SameAs side') (id : NodeId) :
    side.Has id ↔ side'.Has id :=
  exists_congr fun n => and_congr_left fun _ => same.nodes n

theorem DeltaSide.SameAs.shows (same : side.SameAs side') (kinds : List CellTypeId) (id : NodeId)
    (t : CellTypeId × String) : side.Shows kinds id t ↔ side'.Shows kinds id t :=
  exists_congr fun n => and_congr_left fun _ => same.nodes n

theorem DeltaSide.SameAs.hasEdge (same : side.SameAs side') (k : EdgeKey) :
    side.HasEdge k ↔ side'.HasEdge k :=
  exists_congr fun e => and_congr_left fun _ => same.edges e

theorem DeltaSide.SameAs.strongest (same : side.SameAs side') {k : EdgeKey} {c : Confidence}
    (h : side.Strongest k c) : side'.Strongest k c := by
  obtain ⟨⟨e, mem, strong⟩, bound⟩ := h
  exact ⟨⟨e, (same.edges e).mp mem, strong⟩, fun e mem => bound e ((same.edges e).mpr mem)⟩

theorem DeltaSide.SameAs.stamped (same : side.SameAs side') (cell : Option CellRead) (k : EdgeKey)
    (part : List UInt8) : side.Stamped cell k part ↔ side'.Stamped cell k part :=
  exists_congr fun e => and_congr_left fun _ => same.edges e

theorem DeltaSide.SameAs.content (same : side.SameAs side') (kinds : List CellTypeId) :
    Algo.content side kinds = Algo.content side' kinds := by
  apply OrdMap.ext_get
  intro id
  obtain ⟨out, eq⟩ | ⟨has, v, eq, texts⟩ := content_get side kinds id
  · obtain ⟨_, eq'⟩ | ⟨has', _⟩ := content_get side' kinds id
    · rw [eq, eq']
    · exact absurd ((same.has id).mpr has') out
  · obtain ⟨out', _⟩ | ⟨_, v', eq', texts'⟩ := content_get side' kinds id
    · exact absurd ((same.has id).mp has) out'
    · rw [eq, eq']
      congr 1
      ext t
      rw [texts, texts', same.shows]

theorem DeltaSide.SameAs.apart (same : side.SameAs side') {f : NodeId → NodeId}
    (apart : Apart side f) : Apart side' f :=
  fun e mem e' mem' => apart e ((same.edges e).mpr mem) e' ((same.edges e').mpr mem')

theorem DeltaSide.SameAs.foldEdges (same : side.SameAs side') {f : NodeId → NodeId}
    (apart : Apart side f) (cell : Option CellRead) :
    Algo.foldEdges side.edges f cell = Algo.foldEdges side'.edges f cell := by
  apply OrdMap.ext_get
  intro k
  have keys : (∃ given, side.HasEdge given ∧ given.map f = k) ↔
      ∃ given, side'.HasEdge given ∧ given.map f = k :=
    exists_congr fun given => and_congr_left fun _ => same.hasEdge given
  rw [← foldEdges_contains_iff cell apart, ← foldEdges_contains_iff cell (same.apart apart),
    OrdMap.contains_eq_isSome, OrdMap.contains_eq_isSome] at keys
  cases at' : (Algo.foldEdges side.edges f cell)[k]? with
  | none =>
    cases at'' : (Algo.foldEdges side'.edges f cell)[k]? with
    | none => rfl
    | some v =>
      rw [at', at''] at keys
      cases keys.mpr rfl
  | some v =>
    cases at'' : (Algo.foldEdges side'.edges f cell)[k]? with
    | none =>
      rw [at', at''] at keys
      cases keys.mp rfl
    | some v' =>
      obtain ⟨⟨e, mem, given⟩, named, strong, stamped⟩ := foldEdges_read apart at'
      obtain ⟨⟨e', mem', given'⟩, named', strong', stamped'⟩ := foldEdges_read (same.apart apart) at''
      have one : v.given = v'.given := by
        rw [← given, ← given']
        refine apart e mem e' ((same.edges e').mpr mem') ?_
        rw [given, given', named, named']
      have confident : v.confidence = v'.confidence :=
        (same.strongest strong).unique (one ▸ strong')
      have cells : v.cell = v'.cell := by
        ext x
        rw [stamped, stamped', same.stamped, one]
      obtain ⟨c, g, cell⟩ := v
      obtain ⟨c', g', cell'⟩ := v'
      obtain rfl : c = c' := confident
      obtain rfl : g = g' := one
      obtain rfl : cell = cell' := cells
      rfl

theorem graphDelta_congr {before before' after after' : DeltaSide} (same : before.SameAs before')
    (same' : after.SameAs after') (opts : DeltaOptions) :
    graphDelta before after opts = graphDelta before' after' opts := by
  have moves : acceptMoves opts.moves before (content before opts.contentCells)
      (content after opts.contentCells) =
      acceptMoves opts.moves before' (content before opts.contentCells)
        (content after opts.contentCells) :=
    @acceptMoves_congr opts.moves before _ _ before' _ _ (fun _ => True)
      (fun _ _ => ⟨trivial, trivial⟩) (fun _ _ => rfl) (fun _ _ => rfl)
      fun id _ => exists_congr fun e => and_congr_left fun _ => same.edges e
  have oldEdges := same.foldEdges (@remap_apart_edges before after opts) opts.edgeCell
  have newEdges := same'.foldEdges (apart_id after) opts.edgeCell
  unfold movesApplied at oldEdges
  unfold graphDelta
  simp only [← same.content, ← same'.content, ← moves, ← newEdges]
  generalize acceptMoves opts.moves before (content before opts.contentCells)
    (content after opts.contentCells) = accepted at oldEdges ⊢
  obtain ⟨moves, ignored⟩ := accepted
  simp only at oldEdges ⊢
  rw [oldEdges]

end Same

/-- The delta is exact: its moves fold no two before-side ids into one and count every pair
given; its node and edge lists are the differences of the sides' nodes and edge keys; and it is
the same for sides that list the same nodes and edges in another order or number. -/
theorem graph_delta_exact (before after : DeltaSide) (opts : DeltaOptions) :
    (graphDelta before after opts).MovesExact before after opts ∧
    (graphDelta before after opts).NodesExact before after opts ∧
    (graphDelta before after opts).EdgesExact before after opts ∧
    ∀ before' after', before.SameAs before' → after.SameAs after' →
      graphDelta before' after' opts = graphDelta before after opts :=
  ⟨moves_exact, nodes_exact, edges_exact, fun _ _ same same' => (graphDelta_congr same same' opts).symm⟩

/-- A node that moved away and another in its place, with the same edge. -/
def replacedBefore : DeltaSide := ⟨[⟨1, .strong, []⟩, ⟨5, .strong, []⟩], [⟨1, 5, 1, .strong, []⟩]⟩

def replacedAfter : DeltaSide :=
  ⟨[⟨1, .strong, []⟩, ⟨2, .strong, []⟩, ⟨5, .strong, []⟩], [⟨1, 5, 1, .strong, []⟩]⟩

/-- A removed key is a before-side one, so it can be an added key too. -/
theorem removed_key_added : ∃ k, k ∈ (graphDelta replacedBefore replacedAfter
      { moves := [(1, 2)] }).addedEdges ∧
    k ∈ (graphDelta replacedBefore replacedAfter { moves := [(1, 2)] }).removedEdges := by
  refine ⟨EdgeKey.of ⟨1, 5, 1, .strong, []⟩, ?_⟩
  decide +kernel

end Glia.Algo
