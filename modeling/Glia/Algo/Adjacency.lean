import Glia.Core
import Mathlib.Data.List.Nodup
import Mathlib.Data.List.Sort

/-! The CSR index over a graph source's edges of the kept categories. A row of the
index is the kept edges with that end, in edge order. -/
namespace Glia.Algo

structure GraphSource where
  nodeIds : List NodeId
  edges : List Edge
  deriving Repr

inductive CategorySet where
  | all
  | of (sorted : List EdgeCategoryId)
  deriving DecidableEq, Repr

namespace CategorySet

def contains : CategorySet → EdgeCategoryId → Bool
  | all, _ => true
  | of sorted, c => sorted.contains c

@[simp] theorem all_contains (c : EdgeCategoryId) : all.contains c = true := rfl

end CategorySet

def GraphSource.keptEdges (g : GraphSource) (keep : CategorySet) : List Edge :=
  g.edges.filter fun e => keep.contains e.category

structure Inc where
  edge : Nat
  other : Nat
  category : EdgeCategoryId
  deriving DecidableEq, Repr

structure Kept where
  src : Nat
  dst : Nat
  category : EdgeCategoryId
  deriving DecidableEq, Repr

structure Adjacency where
  ids : List NodeId
  kept : List Kept
  ids_nodup : ids.Nodup
  kept_lt : ∀ k ∈ kept, k.src < ids.length ∧ k.dst < ids.length

def indexLimit : Nat := 4294967295

namespace Adjacency

/-- The dense index of `id`, given a fresh one below `cap` when it has none. -/
def intern (cap : Nat) (ids : List NodeId) (id : NodeId) : Option (List NodeId × Nat) :=
  if id ∈ ids then some (ids, ids.idxOf id)
  else if cap ≤ ids.length then none
  else some (ids ++ [id], ids.length)

def internAll (cap : Nat) (ids : List NodeId) : List NodeId → Option (List NodeId)
  | [] => some ids
  | id :: rest => (intern cap ids id).bind fun r => internAll cap r.1 rest

def keepEdges (cap : Nat) (ids : List NodeId) (kept : List Kept) :
    List Edge → Option (List NodeId × List Kept)
  | [] => some (ids, kept)
  | e :: rest =>
    if cap ≤ kept.length then none
    else
      (intern cap ids e.fromId).bind fun a =>
        (intern cap a.1 e.toId).bind fun b =>
          keepEdges cap b.1 (kept ++ [⟨a.2, b.2, e.category⟩]) rest

theorem intern_isPrefix {cap : Nat} {ids : List NodeId} {id : NodeId} {r : List NodeId × Nat}
    (h : intern cap ids id = some r) : ids <+: r.1 := by
  unfold intern at h
  split at h
  · cases h
    exact List.prefix_rfl
  · split at h
    · cases h
    · cases h
      exact List.prefix_append _ _

theorem intern_nodup {cap : Nat} {ids : List NodeId} {id : NodeId} {r : List NodeId × Nat}
    (h : intern cap ids id = some r) (nodup : ids.Nodup) : r.1.Nodup := by
  unfold intern at h
  split at h
  · cases h
    exact nodup
  · split at h
    · cases h
    · cases h
      rename_i fresh _
      exact List.nodup_append.mpr ⟨nodup, by simp, by
        intro a ha b hb
        cases List.mem_singleton.mp hb
        exact fun eq => fresh (eq ▸ ha)⟩

theorem intern_getElem? {cap : Nat} {ids : List NodeId} {id : NodeId} {r : List NodeId × Nat}
    (h : intern cap ids id = some r) : r.1[r.2]? = some id := by
  unfold intern at h
  split at h
  · cases h
    rename_i mem
    exact List.getElem?_idxOf mem
  · split at h
    · cases h
    · cases h
      simp

theorem intern_lt {cap : Nat} {ids : List NodeId} {id : NodeId} {r : List NodeId × Nat}
    (h : intern cap ids id = some r) : r.2 < r.1.length :=
  (List.getElem?_eq_some_iff.mp (intern_getElem? h)).1

theorem internAll_nodup {cap : Nat} {ids out : List NodeId} {new : List NodeId}
    (h : internAll cap ids new = some out) (nodup : ids.Nodup) : out.Nodup := by
  induction new generalizing ids with
  | nil =>
    cases h
    exact nodup
  | cons id rest ih =>
    obtain ⟨r, hr, h⟩ := Option.bind_eq_some_iff.mp h
    exact ih h (intern_nodup hr nodup)

theorem keepEdges_nodup {cap : Nat} {ids : List NodeId} {kept : List Kept} {es : List Edge}
    {out : List NodeId × List Kept} (h : keepEdges cap ids kept es = some out)
    (nodup : ids.Nodup) : out.1.Nodup := by
  induction es generalizing ids kept with
  | nil =>
    cases h
    exact nodup
  | cons e rest ih =>
    unfold keepEdges at h
    split at h
    · cases h
    · obtain ⟨a, ha, h⟩ := Option.bind_eq_some_iff.mp h
      obtain ⟨b, hb, h⟩ := Option.bind_eq_some_iff.mp h
      exact ih h (intern_nodup hb (intern_nodup ha nodup))

theorem keepEdges_lt {cap : Nat} {ids : List NodeId} {kept : List Kept} {es : List Edge}
    {out : List NodeId × List Kept} (h : keepEdges cap ids kept es = some out)
    (lt : ∀ k ∈ kept, k.src < ids.length ∧ k.dst < ids.length) :
    ∀ k ∈ out.2, k.src < out.1.length ∧ k.dst < out.1.length := by
  induction es generalizing ids kept with
  | nil =>
    cases h
    exact lt
  | cons e rest ih =>
    unfold keepEdges at h
    split at h
    · cases h
    · obtain ⟨a, ha, h⟩ := Option.bind_eq_some_iff.mp h
      obtain ⟨b, hb, h⟩ := Option.bind_eq_some_iff.mp h
      have step₁ := (intern_isPrefix ha).length_le
      have step₂ := (intern_isPrefix hb).length_le
      refine ih h ?_
      intro k hk
      rcases List.mem_append.mp hk with hk | hk
      · have := lt k hk
        omega
      · cases List.mem_singleton.mp hk
        exact ⟨(intern_lt ha).trans_le step₂, intern_lt hb⟩

/-- The empty index of a source over the limit. -/
def empty : Adjacency where
  ids := []
  kept := []
  ids_nodup := List.nodup_nil
  kept_lt := by simp

/-- The index with its limit as a parameter: over `cap` nodes or kept edges it is
empty. -/
def buildCapped (g : GraphSource) (keep : CategorySet) (cap : Nat) : Adjacency :=
  match hn : internAll cap [] g.nodeIds with
  | none => empty
  | some ids =>
    match he : keepEdges cap ids [] (g.keptEdges keep) with
    | none => empty
    | some out =>
      { ids := out.1
        kept := out.2
        ids_nodup := keepEdges_nodup he (internAll_nodup hn List.nodup_nil)
        kept_lt := keepEdges_lt he (by simp) }

def build (g : GraphSource) (keep : CategorySet) : Adjacency := buildCapped g keep indexLimit

def len (adj : Adjacency) : Nat := adj.ids.length

def keptEdges (adj : Adjacency) : Nat := adj.kept.length

def id (adj : Adjacency) (ix : Nat) : NodeId := adj.ids.getD ix 0

/-- The dense index of `id`, when it is a node or a kept edge's endpoint. -/
def indexOf (adj : Adjacency) (id : NodeId) : Option Nat :=
  if id ∈ adj.ids then some (adj.ids.idxOf id) else none

/-- Kept edges leaving `ix`, in edge order. -/
def outgoing (adj : Adjacency) (ix : Nat) : List Inc :=
  adj.kept.zipIdx.filterMap fun p =>
    if p.1.src = ix then some ⟨p.2, p.1.dst, p.1.category⟩ else none

/-- Kept edges entering `ix`, in edge order. -/
def incoming (adj : Adjacency) (ix : Nat) : List Inc :=
  adj.kept.zipIdx.filterMap fun p =>
    if p.1.dst = ix then some ⟨p.2, p.1.src, p.1.category⟩ else none

theorem mem_outgoing (adj : Adjacency) (ix : Nat) (inc : Inc) :
    inc ∈ adj.outgoing ix ↔ adj.kept[inc.edge]? = some ⟨ix, inc.other, inc.category⟩ := by
  unfold outgoing
  simp only [List.mem_filterMap, Prod.exists, List.mem_zipIdx_iff_getElem?]
  constructor
  · rintro ⟨k, i, hk, h⟩
    split at h
    · rename_i src
      cases h
      subst src
      exact hk
    · cases h
  · intro h
    exact ⟨_, _, h, by simp⟩

theorem mem_incoming (adj : Adjacency) (ix : Nat) (inc : Inc) :
    inc ∈ adj.incoming ix ↔ adj.kept[inc.edge]? = some ⟨inc.other, ix, inc.category⟩ := by
  unfold incoming
  simp only [List.mem_filterMap, Prod.exists, List.mem_zipIdx_iff_getElem?]
  constructor
  · rintro ⟨k, i, hk, h⟩
    split at h
    · rename_i dst
      cases h
      subst dst
      exact hk
    · cases h
  · intro h
    exact ⟨_, _, h, by simp⟩

theorem outgoing_lt (adj : Adjacency) {ix : Nat} {inc : Inc} (h : inc ∈ adj.outgoing ix) :
    ix < adj.len ∧ inc.other < adj.len :=
  adj.kept_lt _ (List.mem_of_getElem? ((adj.mem_outgoing ix inc).mp h))

theorem incoming_lt (adj : Adjacency) {ix : Nat} {inc : Inc} (h : inc ∈ adj.incoming ix) :
    ix < adj.len ∧ inc.other < adj.len :=
  (adj.kept_lt _ (List.mem_of_getElem? ((adj.mem_incoming ix inc).mp h))).symm

theorem indexOf_eq_some (adj : Adjacency) (id : NodeId) (ix : Nat) :
    adj.indexOf id = some ix ↔ adj.ids[ix]? = some id := by
  unfold indexOf
  constructor
  · intro h
    split at h
    · cases h
      rename_i mem
      exact List.getElem?_idxOf mem
    · cases h
  · intro h
    obtain ⟨lt, eq⟩ := List.getElem?_eq_some_iff.mp h
    rw [if_pos (eq ▸ List.getElem_mem lt), ← eq, adj.ids_nodup.idxOf_getElem]

@[simp] theorem indexOf_id (adj : Adjacency) {ix : Nat} (h : ix < adj.len) :
    adj.indexOf (adj.id ix) = some ix := by
  rw [indexOf_eq_some]
  simp [id, List.getD_eq_getElem?_getD, List.getElem?_eq_getElem h]

theorem id_injective (adj : Adjacency) {u v : Nat} (hu : u < adj.len) (hv : v < adj.len)
    (eq : adj.id u = adj.id v) : u = v := by
  have := adj.indexOf_id hu
  rw [eq, adj.indexOf_id hv] at this
  exact (Option.some.inj this).symm

theorem id_of_indexOf (adj : Adjacency) {id : NodeId} {ix : Nat}
    (h : adj.indexOf id = some ix) : adj.id ix = id := by
  rw [indexOf_eq_some] at h
  simp [Adjacency.id, List.getD_eq_getElem?_getD, h]

theorem indexOf_lt (adj : Adjacency) {id : NodeId} {ix : Nat}
    (h : adj.indexOf id = some ix) : ix < adj.len := by
  rw [indexOf_eq_some] at h
  exact (List.getElem?_eq_some_iff.mp h).1

end Adjacency

end Glia.Algo
