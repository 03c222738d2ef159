import Glia.Algo.DeltaMoves
import Mathlib

/-! A delta of two sides cut down to some ids and edge keys, outside which the sides do not
differ, is the delta of the whole sides. -/
namespace Glia.Algo

open Glia.Graph (IdMap)
open Glia.Kit (OrdMap gather getElem?_gather)

section Fold
variable (cell : Option CellRead)

theorem rank_injective : Function.Injective Confidence.rank := by
  intro a b h
  cases a <;> cases b <;> simp_all [Confidence.rank]

structure FoldedFrom (edges : List Edge) (f : Folded) : Prop where
  strongest : ∃ e ∈ edges, e.confidence = f.confidence
  bound : ∀ e ∈ edges, e.confidence.rank ≤ f.confidence.rank
  cells : ∀ x, x ∈ f.cell ↔ ∃ e ∈ edges, partOf cell e = some x

theorem foldEdge_some (e : Edge) {done : List Edge} {f : Folded} (h : FoldedFrom cell done f) :
    ∃ f', foldEdge cell e (some f) = some f' ∧ FoldedFrom cell (done ++ [e]) f' ∧
      f'.given = f.given := by
  refine ⟨_, rfl, ⟨?_, ?_, ?_⟩, rfl⟩
  · simp only [Option.getD_some]
    split
    · exact ⟨e, by simp, rfl⟩
    · obtain ⟨a, mem, same⟩ := h.strongest
      exact ⟨a, by simp [mem], same⟩
  · intro a mem
    simp only [Option.getD_some]
    obtain mem | mem := List.mem_append.mp mem
    · have before := h.bound a mem
      split <;> omega
    · rw [List.mem_singleton.mp mem]
      split <;> omega
  · intro x
    simp only [Option.getD_some, Finset.mem_union, h.cells, Option.mem_toFinset,
      Option.mem_def, List.mem_append, List.mem_singleton]
    constructor
    · rintro (⟨a, mem, part⟩ | part)
      · exact ⟨a, .inl mem, part⟩
      · exact ⟨e, .inr rfl, part⟩
    · rintro ⟨a, mem | rfl, part⟩
      · exact .inl ⟨a, mem, part⟩
      · exact .inr part

theorem foldl_foldEdge_some (edges : List Edge) {done : List Edge} {f : Folded}
    (h : FoldedFrom cell done f) : ∃ f', edges.foldl (fun o e => foldEdge cell e o) (some f) =
      some f' ∧ FoldedFrom cell (done ++ edges) f' ∧ f'.given = f.given := by
  induction edges generalizing done f with
  | nil => exact ⟨f, rfl, by simpa using h, rfl⟩
  | cons e edges ih =>
    obtain ⟨f', step, folded, given⟩ := foldEdge_some cell e h
    obtain ⟨f'', rest, folded', given'⟩ := ih folded
    rw [List.append_assoc] at folded'
    exact ⟨f'', by rw [List.foldl_cons, step, rest], folded', given'.trans given⟩

theorem foldl_foldEdge_cons (e : Edge) (edges : List Edge) :
    ∃ f, (e :: edges).foldl (fun o e => foldEdge cell e o) none = some f ∧
      FoldedFrom cell (e :: edges) f ∧ f.given = EdgeKey.of e := by
  have first : FoldedFrom cell [e] ⟨e.confidence, EdgeKey.of e, (partOf cell e).toFinset⟩ := by
    refine ⟨⟨e, by simp, rfl⟩, ?_, ?_⟩
    · intro a mem
      rw [List.mem_singleton.mp mem]
    · intro x
      simp
  obtain ⟨f, folded, spec, given⟩ := foldl_foldEdge_some cell edges first
  refine ⟨f, ?_, spec, given⟩
  rw [List.foldl_cons, ← folded]
  simp [foldEdge]

/-- What is compared of a key's edges. -/
def Folded.weight (f : Folded) : Confidence × Finset (List UInt8) := (f.confidence, f.cell)

def copyView (e : Edge) : Confidence × Option (List UInt8) := (e.confidence, partOf cell e)

theorem FoldedFrom.weight_eq {edges edges' : List Edge} {f f' : Folded}
    (h : FoldedFrom cell edges f) (h' : FoldedFrom cell edges' f')
    (same : ∀ v, v ∈ edges.map (copyView cell) ↔ v ∈ edges'.map (copyView cell)) :
    f.weight = f'.weight := by
  have carry : ∀ {l l' : List Edge}, (∀ v, v ∈ l.map (copyView cell) →
      v ∈ l'.map (copyView cell)) → ∀ e ∈ l, ∃ e' ∈ l', copyView cell e' = copyView cell e :=
    fun sub e mem => List.mem_map.mp (sub _ (List.mem_map_of_mem mem))
  have there := @carry _ _ fun v => (same v).mp
  have back := @carry _ _ fun v => (same v).mpr
  apply Prod.ext
  · apply rank_injective
    apply Nat.le_antisymm
    · obtain ⟨e, mem, strong⟩ := h.strongest
      obtain ⟨e', mem', view⟩ := there e mem
      have bound := h'.bound e' mem'
      have strong' : e'.confidence = f.confidence := (congrArg Prod.fst view).trans strong
      rwa [strong'] at bound
    · obtain ⟨e, mem, strong⟩ := h'.strongest
      obtain ⟨e', mem', view⟩ := back e mem
      have bound := h.bound e' mem'
      have strong' : e'.confidence = f'.confidence := (congrArg Prod.fst view).trans strong
      rwa [strong'] at bound
  · apply Finset.ext
    intro x
    show x ∈ f.cell ↔ x ∈ f'.cell
    rw [h.cells, h'.cells]
    constructor
    · rintro ⟨e, mem, part⟩
      obtain ⟨e', mem', view⟩ := there e mem
      exact ⟨e', mem', (congrArg Prod.snd view).trans part⟩
    · rintro ⟨e, mem, part⟩
      obtain ⟨e', mem', view⟩ := back e mem
      exact ⟨e', mem', (congrArg Prod.snd view).trans part⟩

theorem foldl_weight_congr {edges edges' : List Edge}
    (same : ∀ v, v ∈ edges.map (copyView cell) ↔ v ∈ edges'.map (copyView cell)) :
    (edges.foldl (fun o e => foldEdge cell e o) none).map Folded.weight =
      (edges'.foldl (fun o e => foldEdge cell e o) none).map Folded.weight := by
  cases edges with
  | nil =>
    cases edges' with
    | nil => rfl
    | cons e edges' => exact absurd ((same (copyView cell e)).mpr (by simp)) (by simp)
  | cons e edges =>
    cases edges' with
    | nil => exact absurd ((same (copyView cell e)).mp (by simp)) (by simp)
    | cons e' edges' =>
      obtain ⟨f, folded, spec, -⟩ := foldl_foldEdge_cons cell e edges
      obtain ⟨f', folded', spec', -⟩ := foldl_foldEdge_cons cell e' edges'
      rw [folded, folded', Option.map_some, Option.map_some, spec.weight_eq cell spec' same]

end Fold

section Scoped

structure Cut (opts : DeltaOptions) (before after before' after' : DeltaSide)
    (ids : NodeId → Prop) (keys : EdgeKey → Bool) : Prop where
  old : ∀ id : NodeId, ids id → (content before' opts.contentCells)[id]? =
    (content before opts.contentCells)[id]?
  oldOut : ∀ id : NodeId, ¬ids id → (content before' opts.contentCells)[id]? = none
  new : ∀ id : NodeId, ids id → (content after' opts.contentCells)[id]? =
    (content after opts.contentCells)[id]?
  newOut : ∀ id : NodeId, ¬ids id → (content after' opts.contentCells)[id]? = none
  still : ∀ id : NodeId, ¬ids id → (content before opts.contentCells)[id]? =
    (content after opts.contentCells)[id]?
  moves : ∀ p ∈ opts.moves, ids p.1 ∧ ids p.2
  oldEdges : before'.edges = before.edges.filter fun e => keys (EdgeKey.of e)
  newEdges : after'.edges = after.edges.filter fun e => keys (EdgeKey.of e)
  ends : ∀ k : EdgeKey, ids k.source ∨ ids k.target → keys k = true
  stillEdges : ∀ k : EdgeKey, keys k = false →
    ∀ v, v ∈ (before.edges.filter fun e => EdgeKey.of e = k).map (copyView opts.edgeCell) ↔
      v ∈ (after.edges.filter fun e => EdgeKey.of e = k).map (copyView opts.edgeCell)

variable {opts : DeltaOptions} {before after before' after' : DeltaSide} {ids : NodeId → Prop}
  {keys : EdgeKey → Bool}

theorem Cut.moves_eq (cut : Cut opts before after before' after' ids keys) :
    acceptMoves opts.moves before' (content before' opts.contentCells)
        (content after' opts.contentCells) =
      acceptMoves opts.moves before (content before opts.contentCells)
        (content after opts.contentCells) := by
  apply acceptMoves_congr opts.moves _ _ _ cut.moves
  · intro id inside
    rw [OrdMap.contains_eq_isSome, OrdMap.contains_eq_isSome, cut.old id inside]
  · intro id inside
    rw [OrdMap.contains_eq_isSome, OrdMap.contains_eq_isSome, cut.new id inside]
  · intro id inside
    rw [cut.oldEdges]
    constructor
    · rintro ⟨e, mem, named⟩
      exact ⟨e, (List.mem_filter.mp mem).1, named⟩
    · rintro ⟨e, mem, named⟩
      refine ⟨e, List.mem_filter.mpr ⟨mem, cut.ends _ ?_⟩, named⟩
      obtain same | same := named
      · exact .inl (show ids e.fromId from same ▸ inside)
      · exact .inr (show ids e.toId from same ▸ inside)

def Inside (ids : NodeId → Prop) (moves : IdMap NodeId) : Prop :=
  ∀ b a : NodeId, moves[b]? = some a → ids b ∧ ids a

theorem remap_out {moves : IdMap NodeId} (inside : Inside ids moves) {id : NodeId}
    (out : ¬ids id) : remap moves id = id := by
  rw [remap]
  cases moved : moves[id]? with
  | none => rfl
  | some a => exact absurd (inside id a moved).1 out

theorem remap_in {moves : IdMap NodeId} (inside : Inside ids moves) {id : NodeId}
    (held : ids id) : ids (remap moves id) := by
  rw [remap]
  cases moved : moves[id]? with
  | none => exact held
  | some a => exact (inside id a moved).2

theorem remap_ids {moves : IdMap NodeId} (inside : Inside ids moves) (id : NodeId) :
    ids (remap moves id) ↔ ids id := by
  constructor
  · intro held
    by_contra out
    exact out (remap_out inside out ▸ held)
  · exact remap_in inside

theorem Cut.applied (cut : Cut opts before after before' after' ids keys) :
    Inside ids (acceptMoves opts.moves before (content before opts.contentCells)
      (content after opts.contentCells)).1 := by
  intro b a moved
  exact cut.moves _ ((acceptMoves_applied opts.moves before _ _).listed b a moved)

theorem Cut.keys_map (cut : Cut opts before after before' after' ids keys)
    {moves : IdMap NodeId} (inside : Inside ids moves) (k : EdgeKey) :
    keys (k.map (remap moves)) = keys k := by
  by_cases held : ids k.source ∨ ids k.target
  · rw [cut.ends k held]
    apply cut.ends
    rw [EdgeKey.source_map, EdgeKey.target_map]
    exact held.imp (remap_in inside) (remap_in inside)
  · rw [not_or] at held
    rw [EdgeKey.map, remap_out inside held.1, remap_out inside held.2]
    rfl

theorem Cut.map_out (cut : Cut opts before after before' after' ids keys)
    {moves : IdMap NodeId} (inside : Inside ids moves) {k : EdgeKey} (out : keys k = false) :
    k.map (remap moves) = k := by
  have held : ¬(ids k.source ∨ ids k.target) := by
    intro held
    rw [cut.ends k held] at out
    cases out
  rw [not_or] at held
  rw [EdgeKey.map, remap_out inside held.1, remap_out inside held.2]
  rfl

theorem foldEdges_kept {edges : List Edge} {f : NodeId → NodeId}
    (stable : ∀ e ∈ edges, keys ((EdgeKey.of e).map f) = keys (EdgeKey.of e))
    (cell : Option CellRead) (k : EdgeKey) :
    (foldEdges (edges.filter fun e => keys (EdgeKey.of e)) f cell)[k]? =
      if keys k then (foldEdges edges f cell)[k]? else none := by
  rw [foldEdges, foldEdges, getElem?_gather, getElem?_gather, List.filter_filter]
  by_cases kept : keys k = true
  · rw [if_pos kept]
    congr 1
    apply List.filter_congr
    intro e mem
    by_cases same : (EdgeKey.of e).map f = k
    · simp [same, ← stable e mem, kept]
    · simp [same]
  · rw [if_neg kept]
    have empty : (edges.filter fun e => decide ((EdgeKey.of e).map f = k) &&
        keys (EdgeKey.of e)) = [] := by
      rw [List.filter_eq_nil_iff]
      intro e mem
      by_cases same : (EdgeKey.of e).map f = k
      · rw [← stable e mem, same]
        simpa using kept
      · simp [same]
    rw [empty]
    simp

def CutEdges (keys : EdgeKey → Bool) (full cut : OrdMap EdgeKey Folded) : Prop :=
  ∀ k : EdgeKey, cut[k]? = if keys k then full[k]? else none

/-- Two edge maps alike but for their `given` keys, outside the kept keys. -/
def StillEdges (keys : EdgeKey → Bool) (old new : OrdMap EdgeKey Folded) : Prop :=
  ∀ k : EdgeKey, keys k = false → (old[k]?).map Folded.weight = (new[k]?).map Folded.weight

theorem filterMap_cut {γ : Type} {keys : EdgeKey → Bool} {full cut : OrdMap EdgeKey Folded}
    {f g : EdgeKey → Folded → Option γ} (cutAt : CutEdges keys full cut)
    (kept : ∀ k v, keys k = true → f k v = g k v)
    (out : ∀ k v, keys k = false → full[k]? = some v → f k v = none) :
    cut.toList.filterMap (fun e => g e.1 e.2) = full.toList.filterMap fun e => f e.1 e.2 := by
  apply OrdMap.filterMap_toList_congr
  intro k
  rw [cutAt k]
  cases keyed : keys k with
  | true =>
    rw [if_pos rfl]
    cases full[k]? with
    | none => rfl
    | some v => exact (kept k v keyed).symm
  | false =>
    cases held : full[k]? with
    | none => rfl
    | some v => exact (out k v keyed held).symm

section Edges
variable {old new old' new' : OrdMap EdgeKey Folded}

theorem StillEdges.found (still : StillEdges keys old new) {k : EdgeKey}
    (out : keys k = false) {v : Folded} (held : old[k]? = some v) :
    ∃ now, new[k]? = some now ∧ now.confidence = v.confidence ∧ now.cell = v.cell := by
  have same := still k out
  rw [held] at same
  obtain ⟨now, found, weight⟩ := Option.map_eq_some_iff.mp same.symm
  rw [Folded.weight, Folded.weight, Prod.mk.injEq] at weight
  exact ⟨now, found, weight.1, weight.2⟩

theorem contains_cut (cutNew : CutEdges keys new new') {k : EdgeKey} (kept : keys k = true) :
    new'.contains k = new.contains k := by
  rw [OrdMap.contains_eq_isSome, OrdMap.contains_eq_isSome, cutNew k, if_pos kept]

variable (cutOld : CutEdges keys old old') (cutNew : CutEdges keys new new')
include cutOld cutNew

variable (still : StillEdges keys old new)
include still

theorem removed_cut :
    (old'.toList.filterMap fun e => if new'.contains e.1 then none else some e.2.given) =
      old.toList.filterMap fun e => if new.contains e.1 then none else some e.2.given := by
  apply filterMap_cut cutOld
    (f := fun k v => if new.contains k then none else some v.given)
    (g := fun k v => if new'.contains k then none else some v.given)
  · intro k v kept
    rw [contains_cut cutNew kept]
  · intro k v out held
    obtain ⟨now, found, -⟩ := still.found out held
    rw [if_pos]
    rw [OrdMap.contains_eq_isSome, found]
    rfl

theorem reconfidenced_cut :
    (old'.toList.filterMap fun e => (new'[e.1]?).bind fun now =>
      if now.confidence = e.2.confidence then none
      else some (e.1, e.2.confidence, now.confidence)) =
    old.toList.filterMap fun e => (new[e.1]?).bind fun now =>
      if now.confidence = e.2.confidence then none
      else some (e.1, e.2.confidence, now.confidence) := by
  apply filterMap_cut cutOld
    (f := fun k v => (new[k]?).bind fun now =>
      if now.confidence = v.confidence then none else some (k, v.confidence, now.confidence))
    (g := fun k v => (new'[k]?).bind fun now =>
      if now.confidence = v.confidence then none else some (k, v.confidence, now.confidence))
  · intro k v kept
    rw [cutNew k, if_pos kept]
  · intro k v out held
    obtain ⟨now, found, confidence, -⟩ := still.found out held
    simp [found, confidence]

theorem restamped_cut :
    (old'.toList.filterMap fun e => (new'[e.1]?).bind fun now =>
      if now.confidence = e.2.confidence ∧ now.cell ≠ e.2.cell then some e.1 else none) =
    old.toList.filterMap fun e => (new[e.1]?).bind fun now =>
      if now.confidence = e.2.confidence ∧ now.cell ≠ e.2.cell then some e.1 else none := by
  apply filterMap_cut cutOld
    (f := fun k v => (new[k]?).bind fun now =>
      if now.confidence = v.confidence ∧ now.cell ≠ v.cell then some k else none)
    (g := fun k v => (new'[k]?).bind fun now =>
      if now.confidence = v.confidence ∧ now.cell ≠ v.cell then some k else none)
  · intro k v kept
    rw [cutNew k, if_pos kept]
  · intro k v out held
    obtain ⟨now, found, -, cells⟩ := still.found out held
    simp [found, cells]

theorem added_cut :
    (new'.toList.filterMap fun e => if old'.contains e.1 then none else some e.1) =
      new.toList.filterMap fun e => if old.contains e.1 then none else some e.1 := by
  have still' : StillEdges keys new old := fun k out => (still k out).symm
  apply filterMap_cut cutNew
    (f := fun k _ => if old.contains k then none else some k)
    (g := fun k _ => if old'.contains k then none else some k)
  · intro k v kept
    rw [contains_cut cutOld kept]
  · intro k v out held
    obtain ⟨then_, found, -⟩ := still'.found out held
    rw [if_pos]
    rw [OrdMap.contains_eq_isSome, found]
    rfl

end Edges

section Nodes
variable {old new old' new' : IdMap Texts} {moves : IdMap NodeId}

structure CutIds (ids : NodeId → Prop) (full cut : IdMap Texts) : Prop where
  kept : ∀ id : NodeId, ids id → cut[id]? = full[id]?
  out : ∀ id : NodeId, ¬ids id → cut[id]? = none

theorem CutIds.contains {full cut : IdMap Texts} (h : CutIds ids full cut) {id : NodeId}
    (kept : ids id) : cut.contains id = full.contains id := by
  rw [OrdMap.contains_eq_isSome, OrdMap.contains_eq_isSome, h.kept id kept]

/-- The before ids an after id has, in ascending order. -/
def cameFrom (moves : IdMap NodeId) (old new : IdMap Texts) (a : NodeId) : List NodeId :=
  old.toList.filterMap fun e => if remap moves e.1 = a ∧ new.contains a then some e.1 else none

theorem foldl_keep_last {α β : Type} (f : α → β) (l : List α) (o : Option β) :
    l.foldl (fun _ x => some (f x)) o = (l.map f).getLast?.or o := by
  induction l generalizing o with
  | nil => simp
  | cons x l ih =>
    rw [List.foldl_cons, ih, List.map_cons, List.getLast?_cons]
    cases (l.map f).getLast? <;> rfl

theorem map_filter_eq_filterMap {α β : Type} (p : α → Bool) (f : α → β) (l : List α) :
    (l.filter p).map f = l.filterMap fun x => if p x then some (f x) else none := by
  induction l with
  | nil => rfl
  | cons x l ih =>
    by_cases passed : p x = true <;> simp [passed, ih]

theorem wasIds_get (a : NodeId) :
    (wasIds moves old new)[a]? = (cameFrom moves old new a).getLast? := by
  rw [wasIds, getElem?_gather, foldl_keep_last, List.filter_filter, map_filter_eq_filterMap,
    cameFrom]
  have same : ∀ e : NodeId × Texts,
      (decide (remap moves e.1 = a) && new.contains (remap moves e.1)) = true ↔
        remap moves e.1 = a ∧ new.contains a = true := by
    intro e
    rw [Bool.and_eq_true, decide_eq_true_eq]
    apply and_congr_right
    intro here
    rw [here]
  simp only [same, Std.ExtTreeMap.getElem?_empty, Option.or_none]

theorem mem_cameFrom {a b : NodeId} : b ∈ cameFrom moves old new a ↔
    old.contains b = true ∧ remap moves b = a ∧ new.contains a = true := by
  rw [cameFrom, List.mem_filterMap]
  constructor
  · rintro ⟨⟨b', v⟩, mem, found⟩
    split at found
    · rename_i here
      cases found
      refine ⟨?_, here⟩
      rw [OrdMap.contains_eq_isSome, OrdMap.mem_toList.mp mem]
      rfl
    · cases found
  · rintro ⟨held, here⟩
    rw [OrdMap.contains_eq_isSome, Option.isSome_iff_exists] at held
    obtain ⟨v, held⟩ := held
    exact ⟨(b, v), OrdMap.mem_toList.mpr held, if_pos here⟩

theorem wasIds_spec {a b : NodeId} (h : (wasIds moves old new)[a]? = some b) :
    old.contains b = true ∧ remap moves b = a ∧ new.contains a = true := by
  rw [wasIds_get] at h
  exact mem_cameFrom.mp (List.mem_of_getLast? h)

variable (inside : Inside ids moves) (cutOld : CutIds ids old old') (cutNew : CutIds ids new new')
include inside cutOld cutNew

theorem wasIds_kept {a : NodeId} (kept : ids a) :
    (wasIds moves old' new')[a]? = (wasIds moves old new)[a]? := by
  rw [wasIds_get, wasIds_get, cameFrom, cameFrom]
  congr 1
  apply OrdMap.filterMap_toList_congr
    (f := fun b _ => if remap moves b = a ∧ new'.contains a then some b else none)
    (g := fun b _ => if remap moves b = a ∧ new.contains a then some b else none)
  intro b
  rw [cutNew.contains kept]
  by_cases held : ids b
  · rw [cutOld.kept b held]
  · rw [cutOld.out b held]
    have apart : ¬(remap moves b = a ∧ new.contains a = true) := by
      rintro ⟨same, -⟩
      rw [remap_out inside held] at same
      exact held (same ▸ kept)
    cases old[b]? with
    | none => rfl
    | some v => exact (if_neg apart).symm

variable (still : ∀ id : NodeId, ¬ids id → old[id]? = new[id]?)
include still

omit cutOld cutNew in
theorem wasIds_out {a : NodeId} (out : ¬ids a) {v : Texts} (held : new[a]? = some v) :
    (wasIds moves old new)[a]? = some a := by
  have same : ∀ b ∈ cameFrom moves old new a, b = a := by
    intro b mem
    obtain ⟨-, named, -⟩ := mem_cameFrom.mp mem
    have outside : ¬ids b := fun inner => out (named ▸ remap_in inside inner)
    rwa [remap_out inside outside] at named
  have mem : a ∈ cameFrom moves old new a := by
    refine mem_cameFrom.mpr ⟨?_, remap_out inside out, ?_⟩
    · rw [OrdMap.contains_eq_isSome, still a out, held]
      rfl
    · rw [OrdMap.contains_eq_isSome, held]
      rfl
  rw [wasIds_get]
  cases last : (cameFrom moves old new a).getLast? with
  | none =>
    rw [List.getLast?_eq_none_iff.mp last] at mem
    cases mem
  | some b => rw [same b (List.mem_of_getLast? last)]

theorem removedNodes_cut :
    (old'.toList.filterMap fun e => if new'.contains (remap moves e.1) then none
      else some e.1) =
    old.toList.filterMap fun e => if new.contains (remap moves e.1) then none else some e.1 := by
  apply OrdMap.filterMap_toList_congr
    (f := fun b _ => if new'.contains (remap moves b) then none else some b)
    (g := fun b _ => if new.contains (remap moves b) then none else some b)
  intro b
  by_cases held : ids b
  · rw [cutOld.kept b held, cutNew.contains (remap_in inside held)]
  · rw [cutOld.out b held, remap_out inside held]
    cases there : old[b]? with
    | none => rfl
    | some v =>
      have new_holds : new.contains b = true := by
        rw [OrdMap.contains_eq_isSome, ← still b held, there]
        rfl
      exact (if_pos new_holds).symm

theorem addedNodes_cut :
    (new'.toList.filterMap fun e => if (wasIds moves old' new').contains e.1 then none
      else some e.1) =
    new.toList.filterMap fun e => if (wasIds moves old new).contains e.1 then none
      else some e.1 := by
  apply OrdMap.filterMap_toList_congr
    (f := fun a _ => if (wasIds moves old' new').contains a then none else some a)
    (g := fun a _ => if (wasIds moves old new).contains a then none else some a)
  intro a
  by_cases held : ids a
  · rw [cutNew.kept a held, OrdMap.contains_eq_isSome, OrdMap.contains_eq_isSome,
      wasIds_kept inside cutOld cutNew held]
  · rw [cutNew.out a held]
    cases there : new[a]? with
    | none => rfl
    | some v =>
      have was : (wasIds moves old new).contains a = true := by
        rw [OrdMap.contains_eq_isSome, wasIds_out inside still held there]
        rfl
      exact (if_pos was).symm

theorem modifiedNodes_cut :
    (new'.toList.filterMap fun e => ((wasIds moves old' new')[e.1]?).bind fun b =>
      if old'[b]? = some e.2 then none else some e.1) =
    new.toList.filterMap fun e => ((wasIds moves old new)[e.1]?).bind fun b =>
      if old[b]? = some e.2 then none else some e.1 := by
  apply OrdMap.filterMap_toList_congr
    (f := fun a v => ((wasIds moves old' new')[a]?).bind fun b =>
      if old'[b]? = some v then none else some a)
    (g := fun a v => ((wasIds moves old new)[a]?).bind fun b =>
      if old[b]? = some v then none else some a)
  intro a
  by_cases held : ids a
  · rw [cutNew.kept a held, wasIds_kept inside cutOld cutNew held]
    cases was : (wasIds moves old new)[a]? with
    | none => rfl
    | some b =>
      have from_ : ids b := by
        rw [← remap_ids inside, (wasIds_spec was).2.1]
        exact held
      simp only [Option.bind_some, cutOld.kept b from_]
  · rw [cutNew.out a held]
    cases there : new[a]? with
    | none => rfl
    | some v =>
      simp [wasIds_out inside still held there, still a held, there]

end Nodes

theorem Cut.still_edges (cut : Cut opts before after before' after' ids keys)
    {moves : IdMap NodeId} (inside : Inside ids moves) :
    StillEdges keys (foldEdges before.edges (remap moves) opts.edgeCell)
      (foldEdges after.edges id opts.edgeCell) := by
  intro k out
  have unmoved : (before.edges.filter fun e => (EdgeKey.of e).map (remap moves) = k) =
      before.edges.filter fun e => EdgeKey.of e = k := by
    apply List.filter_congr
    intro e _
    rw [decide_eq_decide]
    constructor
    · intro same
      have outside : keys (EdgeKey.of e) = false := by
        rw [← cut.keys_map inside (EdgeKey.of e), same, out]
      rwa [cut.map_out inside outside] at same
    · intro same
      rw [same, cut.map_out inside out]
  rw [foldEdges, foldEdges, getElem?_gather, getElem?_gather, unmoved]
  simp only [Std.ExtTreeMap.getElem?_empty]
  exact foldl_weight_congr opts.edgeCell (cut.stillEdges k out)

theorem Cut.graphDelta_eq (cut : Cut opts before after before' after' ids keys) :
    graphDelta before' after' opts = graphDelta before after opts := by
  have inside := cut.applied
  have cutOld : CutIds ids (content before opts.contentCells)
      (content before' opts.contentCells) := ⟨cut.old, cut.oldOut⟩
  have cutNew : CutIds ids (content after opts.contentCells)
      (content after' opts.contentCells) := ⟨cut.new, cut.newOut⟩
  rw [graphDelta, graphDelta, cut.moves_eq]
  generalize acceptMoves opts.moves before (content before opts.contentCells)
    (content after opts.contentCells) = accepted at inside
  obtain ⟨moves, ignored⟩ := accepted
  have oldEdges : CutEdges keys (foldEdges before.edges (remap moves) opts.edgeCell)
      (foldEdges before'.edges (remap moves) opts.edgeCell) := by
    intro k
    rw [cut.oldEdges, foldEdges_kept fun e _ => cut.keys_map inside (EdgeKey.of e)]
  have newEdges : CutEdges keys (foldEdges after.edges id opts.edgeCell)
      (foldEdges after'.edges id opts.edgeCell) := by
    intro k
    rw [cut.newEdges, foldEdges_kept fun e _ => rfl]
  have still := cut.still_edges inside
  simp only [GraphDelta.mk.injEq]
  exact ⟨addedNodes_cut inside cutOld cutNew cut.still,
    removedNodes_cut inside cutOld cutNew cut.still,
    modifiedNodes_cut inside cutOld cutNew cut.still, trivial,
    added_cut oldEdges newEdges still,
    congrArg (List.insertionSort (· ≤ ·)) (removed_cut oldEdges newEdges still),
    reconfidenced_cut oldEdges newEdges still, restamped_cut oldEdges newEdges still, trivial⟩

section Rows

structure GraphDelta.Within (ids : NodeId → Prop) (keys : EdgeKey → Bool) (d : GraphDelta) :
    Prop where
  moved : ∀ p ∈ d.movedNodes, ids p.1 ∧ ids p.2
  added : ∀ k ∈ d.addedEdges, keys k = true
  removed : ∀ k ∈ d.removedEdges, keys k = true
  reconfidenced : ∀ r ∈ d.reconfidencedEdges, keys r.1 = true
  restamped : ∀ k ∈ d.restampedEdges, keys k = true

theorem foldEdges_given {edges : List Edge} {f : NodeId → NodeId} {cell : Option CellRead}
    {k : EdgeKey} {v : Folded} (h : (foldEdges edges f cell)[k]? = some v) :
    ∃ e ∈ edges, EdgeKey.of e = v.given ∧ (EdgeKey.of e).map f = k := by
  rw [foldEdges, getElem?_gather] at h
  cases found : edges.filter fun e => (EdgeKey.of e).map f = k with
  | nil =>
    rw [found] at h
    simp at h
  | cons e rest =>
    have mem : e ∈ edges.filter fun e => (EdgeKey.of e).map f = k := by
      rw [found]
      exact List.mem_cons_self
    rw [List.mem_filter, decide_eq_true_eq] at mem
    obtain ⟨v', folded, -, given⟩ := foldl_foldEdge_cons cell e rest
    rw [found, Std.ExtTreeMap.getElem?_empty, folded, Option.some.injEq] at h
    exact ⟨e, mem.1, by rw [← h, given], mem.2⟩

theorem Cut.within (cut : Cut opts before after before' after' ids keys) :
    (graphDelta before after opts).Within ids keys := by
  have inside := cut.applied
  rw [← cut.graphDelta_eq, graphDelta, cut.moves_eq]
  generalize acceptMoves opts.moves before (content before opts.contentCells)
    (content after opts.contentCells) = accepted at inside
  obtain ⟨moves, ignored⟩ := accepted
  have keyed : ∀ e, e ∈ before'.edges ∨ e ∈ after'.edges → keys (EdgeKey.of e) = true := by
    rintro e (mem | mem)
    · rw [cut.oldEdges] at mem
      exact (List.mem_filter.mp mem).2
    · rw [cut.newEdges] at mem
      exact (List.mem_filter.mp mem).2
  have oldKeys : ∀ e ∈ (foldEdges before'.edges (remap moves) opts.edgeCell).toList,
      keys e.1 = true ∧ keys e.2.given = true := by
    intro e mem
    obtain ⟨a, held, given, named⟩ := foldEdges_given (OrdMap.mem_toList.mp mem)
    rw [← named, cut.keys_map inside, ← given]
    exact ⟨keyed a (.inl held), keyed a (.inl held)⟩
  have newKeys : ∀ e ∈ (foldEdges after'.edges id opts.edgeCell).toList, keys e.1 = true := by
    intro e mem
    obtain ⟨a, held, -, named⟩ := foldEdges_given (OrdMap.mem_toList.mp mem)
    rw [← named]
    exact keyed a (.inr held)
  refine ⟨?_, ?_, ?_, ?_, ?_⟩
  · intro p mem
    exact inside p.1 p.2 (OrdMap.mem_toList.mp mem)
  · intro k mem
    obtain ⟨e, held, found⟩ := List.mem_filterMap.mp mem
    split at found
    · cases found
    · cases found
      exact newKeys e held
  · intro k mem
    rw [(List.perm_insertionSort _ _).mem_iff] at mem
    obtain ⟨e, held, found⟩ := List.mem_filterMap.mp mem
    split at found
    · cases found
    · cases found
      exact (oldKeys e held).2
  · intro r mem
    obtain ⟨e, held, found⟩ := List.mem_filterMap.mp mem
    obtain ⟨now, -, found⟩ := Option.bind_eq_some_iff.mp found
    split at found
    · cases found
    · cases found
      exact (oldKeys e held).1
  · intro k mem
    obtain ⟨e, held, found⟩ := List.mem_filterMap.mp mem
    obtain ⟨now, -, found⟩ := Option.bind_eq_some_iff.mp found
    split at found
    · cases found
      exact (oldKeys e held).1
    · cases found

end Rows

end Scoped

end Glia.Algo
