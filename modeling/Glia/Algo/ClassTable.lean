import Glia.Algo.Classes
import Glia.Algo.Adjacency
import Glia.Algo.UnionFind
import Mathlib.Data.List.Dedup

/-! The classes a list of id pairs joins, built through a union-find over the sorted ids. -/
namespace Glia.Algo

/-- Every member ascending, each member's position among the classes, and the classes with
their representatives. -/
structure ClassTable where
  ids : List NodeId
  cls : List Nat
  classes : List (NodeId × List NodeId)
  deriving DecidableEq

namespace ClassTable

def empty : ClassTable := ⟨[], [], []⟩

def dense (ids : List NodeId) (id : NodeId) : Option Nat :=
  if id ∈ ids then some (ids.idxOf id) else none

def rep (t : ClassTable) (id : NodeId) : NodeId :=
  match dense t.ids id with
  | some i => ((t.classes[t.cls.getD i 0]?).map Prod.fst).getD 0
  | none => id

def ends (pairs : List (NodeId × NodeId)) : List NodeId :=
  ((pairs.flatMap fun p => [p.1, p.2]).insertionSort (· ≤ ·)).dedup

def joinPair (ids : List NodeId) (uf : UnionFind) (p : NodeId × NodeId) : UnionFind :=
  match dense ids p.1, dense ids p.2 with
  | some i, some j => (uf.union i j).2
  | _, _ => uf

def joinPairs (ids : List NodeId) (pairs : List (NodeId × NodeId)) : UnionFind :=
  pairs.foldl (joinPair ids) (UnionFind.new ids.length)

/-- The classes while the ids are put into them, least first. -/
structure Filling where
  uf : UnionFind
  classOfRoot : List Nat
  cls : List Nat
  classes : List (NodeId × List NodeId)

def Filling.put (s : Filling) (e : NodeId × Nat) : Filling :=
  let found := s.uf.find e.2
  let opens := found.1 = e.2
  let classOfRoot := if opens then s.classOfRoot.set e.2 s.classes.length else s.classOfRoot
  let classes := if opens then s.classes ++ [(e.1, [])] else s.classes
  let c := classOfRoot.getD found.1 0
  { uf := found.2
    classOfRoot := classOfRoot
    cls := s.cls ++ [c]
    classes := classes.modify c fun x => (x.1, x.2 ++ [e.1]) }

def proper (pairs : List (NodeId × NodeId)) : List (NodeId × NodeId) :=
  pairs.filter fun p => p.1 ≠ p.2

def fromPairsCapped (pairs : List (NodeId × NodeId)) (cap : Nat) : ClassTable :=
  let pairs := proper pairs
  if pairs = [] then empty
  else
    let ids := ends pairs
    if cap < ids.length then empty
    else
      let filled := ids.zipIdx.foldl Filling.put
        ⟨joinPairs ids pairs, List.replicate ids.length 0, [], []⟩
      ⟨ids, filled.cls, filled.classes⟩

def fromPairs (pairs : List (NodeId × NodeId)) : ClassTable := fromPairsCapped pairs indexLimit

section Shape
variable (ids : List NodeId) (root : Nat → Nat)

def roots (k : Nat) : List Nat := (List.range k).filter fun j => root j = j

/-- The ids of a root's class among the first indices. -/
def members (k r : Nat) : List NodeId :=
  ((List.range k).filter fun j => root j = r).map fun j => ids.getD j 0

def ofRoots (k : Nat) : ClassTable where
  ids := ids
  cls := (List.range k).map fun j => (roots root k).idxOf (root j)
  classes := (roots root k).map fun r => (ids.getD r 0, members ids root k r)

variable {ids root}

theorem mem_roots {k r : Nat} : r ∈ roots root k ↔ r < k ∧ root r = r := by
  simp [roots]

theorem roots_succ (k : Nat) :
    roots root (k + 1) = if root k = k then roots root k ++ [k] else roots root k := by
  unfold roots
  rw [List.range_succ, List.filter_append, List.filter_singleton]
  split <;> simp_all

theorem members_succ (k r : Nat) : members ids root (k + 1) r =
    if root k = r then members ids root k r ++ [ids.getD k 0] else members ids root k r := by
  unfold members
  rw [List.range_succ, List.filter_append, List.filter_singleton]
  split <;> simp_all

theorem roots_nodup (k : Nat) : (roots root k).Nodup := List.nodup_range.filter _

theorem modify_map_idxOf {α β : Type} [DecidableEq α] {l : List α} (once : l.Nodup) {a : α}
    (mem : a ∈ l) (f : α → β) (g : β → β) : (l.map f).modify (l.idxOf a) g =
      l.map fun x => if x = a then g (f x) else f x := by
  apply List.ext_getElem?
  intro i
  rw [List.getElem?_modify, List.getElem?_map, List.getElem?_map]
  cases at' : l[i]? with
  | none => simp
  | some x =>
    obtain ⟨lt, rfl⟩ := List.getElem?_eq_some_iff.mp at'
    by_cases same : l[i] = a
    · subst same
      simp [once.idxOf_getElem i lt]
    · have other : l.idxOf a ≠ i := by
        intro eq
        subst eq
        exact same (List.getElem_idxOf lt)
      simp [same, other]

end Shape

section Fill
variable {ids : List NodeId} {root : Nat → Nat}

theorem idxOf_roots_succ {k r : Nat} (mem : r ∈ roots root k) :
    (roots root (k + 1)).idxOf r = (roots root k).idxOf r := by
  rw [roots_succ]
  split
  · exact List.idxOf_append_of_mem mem
  · rfl

theorem root_mem_roots (below : ∀ j, root j ≤ j) (idem : ∀ j, root (root j) = root j) {j k : Nat}
    (lt : j < k) : root j ∈ roots root k := mem_roots.mpr ⟨(below j).trans_lt lt, idem j⟩

theorem members_fresh (below : ∀ j, root j ≤ j) (k : Nat) : members ids root k k = [] := by
  unfold members
  rw [List.map_eq_nil_iff, List.filter_eq_nil_iff]
  intro j mem
  have lower := (below j).trans_lt (List.mem_range.mp mem)
  simpa using lower.ne

/-- What the fill has built once the first `k` indices are in. -/
structure Filled (ids : List NodeId) (root : Nat → Nat) (k : Nat) (s : Filling) : Prop where
  len : s.uf.len = ids.length
  same : ∀ j, s.uf.root j = root j
  cls : s.cls = (ofRoots ids root k).cls
  classes : s.classes = (ofRoots ids root k).classes
  places : ∀ r ∈ roots root k, s.classOfRoot.getD r 0 = (roots root k).idxOf r
  room : s.classOfRoot.length = ids.length

theorem opened_places {k : Nat} (lt : k < ids.length) {s : Filling} (h : Filled ids root k s) :
    ∀ r ∈ roots root (k + 1),
      (if root k = k then s.classOfRoot.set k s.classes.length else s.classOfRoot).getD r 0 =
        (roots root (k + 1)).idxOf r := by
  intro r mem
  have count : s.classes.length = (roots root k).length := by
    rw [h.classes]
    exact List.length_map _
  by_cases opens : root k = k
  · rw [if_pos opens]
    rw [roots_succ, if_pos opens] at mem ⊢
    by_cases old : r ∈ roots root k
    · have lower : r < k := (mem_roots.mp old).1
      rw [List.idxOf_append_of_mem old, ← h.places r old, List.getD_eq_getElem?_getD,
        List.getElem?_set_ne lower.ne', List.getD_eq_getElem?_getD]
    · have new : r = k := by
        rcases List.mem_append.mp mem with mem | mem
        · exact absurd mem old
        · exact List.mem_singleton.mp mem
      subst new
      rw [List.idxOf_append_of_notMem old, List.idxOf_cons_self, Nat.add_zero, ← count,
        List.getD_eq_getElem?_getD, List.getElem?_set_self (by rw [h.room]; exact lt)]
      rfl
  · rw [if_neg opens]
    rw [roots_succ, if_neg opens] at mem ⊢
    exact h.places r mem

theorem opened_classes (below : ∀ j, root j ≤ j) (k : Nat) :
    (if root k = k then (ofRoots ids root k).classes ++ [(ids.getD k 0, [])]
      else (ofRoots ids root k).classes) =
      (roots root (k + 1)).map fun r => (ids.getD r 0, members ids root k r) := by
  rw [roots_succ]
  split
  · rw [List.map_append, List.map_singleton, members_fresh below]
    rfl
  · rfl

theorem put_filled (below : ∀ j, root j ≤ j) (idem : ∀ j, root (root j) = root j) {k : Nat}
    (lt : k < ids.length) {s : Filling} (h : Filled ids root k s) :
    Filled ids root (k + 1) (s.put (ids.getD k 0, k)) := by
  obtain ⟨found, len', roots'⟩ := s.uf.find_spec k
  rw [h.same] at found
  have own : root k ∈ roots root (k + 1) := root_mem_roots below idem (Nat.lt_succ_self k)
  have places := opened_places lt h
  unfold Filling.put
  simp only [found]
  refine ⟨len'.trans h.len, fun j => (roots' j).trans (h.same j), ?_, ?_, places, ?_⟩
  · dsimp only
    rw [h.cls, places _ own]
    unfold ofRoots
    dsimp only
    rw [List.range_succ, List.map_append, List.map_singleton]
    congr 1
    apply List.map_congr_left
    intro j mem
    exact (idxOf_roots_succ (root_mem_roots below idem (List.mem_range.mp mem))).symm
  · dsimp only
    rw [places _ own, h.classes, opened_classes below, modify_map_idxOf (roots_nodup _) own]
    apply List.map_congr_left
    intro r _
    rw [members_succ]
    by_cases here : root k = r
    · rw [if_pos here.symm, if_pos here]
    · rw [if_neg (Ne.symm here), if_neg here]
  · split
    · rw [List.length_set, h.room]
    · exact h.room

theorem filled_all (below : ∀ j, root j ≤ j) (idem : ∀ j, root (root j) = root j) {s : Filling}
    (h : Filled ids root 0 s) : Filled ids root ids.length (ids.zipIdx.foldl Filling.put s) := by
  have upTo : ∀ k ≤ ids.length, Filled ids root k ((ids.zipIdx.take k).foldl Filling.put s) := by
    intro k
    induction k with
    | zero => exact fun _ => h
    | succ k ih =>
      intro le
      have next : ids.zipIdx[k]? = some (ids.getD k 0, k) := by
        rw [List.getElem?_zipIdx, List.getElem?_eq_getElem le, List.getD_eq_getElem?_getD,
          List.getElem?_eq_getElem le]
        simp
      rw [List.take_add_one, next, Option.toList_some, List.foldl_append]
      exact put_filled below idem le (ih (Nat.le_of_succ_le le))
  have all := upTo ids.length le_rfl
  rwa [List.take_of_length_le (by rw [List.length_zipIdx])] at all

end Fill

end ClassTable

end Glia.Algo
