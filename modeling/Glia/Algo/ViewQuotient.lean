import Glia.Algo.WeightedGraph
import Glia.Kit.MergeRuns
import Mathlib.Data.Prod.Lex

/-! Laying out a weighted view from its pairs, and the quotient of a view. -/
namespace Glia.Algo

/-- Indices and neighbour offsets are `u32`. -/
def indexCap : Nat := 4294967295

abbrev WeightedPair := (Nat ×ₗ Nat) × Nat

namespace WeightedPair

abbrev lo (p : WeightedPair) : Nat := (ofLex p.1).1

abbrev hi (p : WeightedPair) : Nat := (ofLex p.1).2

def mk (a b w : Nat) : WeightedPair := (toLex (min a b, max a b), w)

structure Valid (n : Nat) (p : WeightedPair) : Prop where
  ordered : p.lo ≤ p.hi
  inside : p.hi < n
  positive : 0 < p.2

theorem mk_valid {n a b w : Nat} (left : a < n) (right : b < n) (pos : 0 < w) :
    (mk a b w).Valid n :=
  ⟨min_le_left a b |>.trans (le_max_left a b), max_lt left right, pos⟩

theorem mk_key_comm (a b w w' : Nat) : (mk a b w).1 = (mk b a w').1 := by
  unfold mk
  rw [min_comm, max_comm]

end WeightedPair

section Rows

/-- What a merged pair lists at `v`: its other end. -/
def entryAt (v : Nat) (p : WeightedPair) : Option (Nat × Nat) :=
  if p.lo = p.hi then none
  else if p.lo = v then some (p.hi, p.2)
  else if p.hi = v then some (p.lo, p.2)
  else none

/-- Both ends of a pair get the other at the end of their lists. -/
def layPair (rows : List WeightRow) (p : WeightedPair) : List WeightRow :=
  if p.lo = p.hi then rows
  else (rows.modify p.lo (· ++ [(p.hi, p.2)])).modify p.hi (· ++ [(p.lo, p.2)])

def layRows (n : Nat) (merged : List WeightedPair) : List WeightRow :=
  merged.foldl layPair (List.replicate n [])

theorem getD_modify {α : Type} (l : List α) (f : α → α) (i j : Nat) (d : α) :
    (l.modify i f).getD j d = if i = j ∧ j < l.length then f (l.getD j d) else l.getD j d := by
  rw [List.getD_eq_getElem?_getD, List.getElem?_modify, List.getD_eq_getElem?_getD]
  by_cases same : i = j
  · subst same
    by_cases inside : i < l.length
    · simp [inside]
    · simp [inside]
  · simp [same]

theorem layPair_length (rows : List WeightRow) (p : WeightedPair) :
    (layPair rows p).length = rows.length := by
  unfold layPair
  split
  · rfl
  · rw [List.length_modify, List.length_modify]

theorem foldl_layPair_length (merged : List WeightedPair) (rows : List WeightRow) :
    (merged.foldl layPair rows).length = rows.length := by
  induction merged generalizing rows with
  | nil => rfl
  | cons p merged ih => rw [List.foldl_cons, ih, layPair_length]

theorem layPair_getD (rows : List WeightRow) (p : WeightedPair) {v : Nat} (inside : v < rows.length) :
    (layPair rows p).getD v [] = rows.getD v [] ++ (entryAt v p).toList := by
  unfold layPair entryAt
  split
  · simp
  · rename_i apart
    rw [getD_modify, getD_modify, List.length_modify]
    by_cases low : p.lo = v
    · have high : ¬p.hi = v := fun high => apart (low.trans high.symm)
      simp [low, high, inside]
    · by_cases high : p.hi = v
      · simp [low, high, inside]
      · simp [low, high]

theorem foldl_layPair_getD (merged : List WeightedPair) (rows : List WeightRow) {v : Nat}
    (inside : v < rows.length) :
    (merged.foldl layPair rows).getD v [] = rows.getD v [] ++ merged.filterMap (entryAt v) := by
  induction merged generalizing rows with
  | nil => simp
  | cons p merged ih =>
    rw [List.foldl_cons, ih _ (by rw [layPair_length]; exact inside), layPair_getD rows p inside,
      List.filterMap_cons, List.append_assoc]
    cases entryAt v p with
    | none => rfl
    | some e => rfl

theorem layRows_length (n : Nat) (merged : List WeightedPair) :
    (layRows n merged).length = n := by
  rw [layRows, foldl_layPair_length, List.length_replicate]

theorem layRows_getD {n v : Nat} (merged : List WeightedPair) (inside : v < n) :
    (layRows n merged).getD v [] = merged.filterMap (entryAt v) := by
  rw [layRows, foldl_layPair_getD _ _ (by rw [List.length_replicate]; exact inside),
    List.getD_eq_getElem?_getD, List.getElem?_replicate, if_pos inside, Option.getD_some,
    List.nil_append]

theorem entryAt_some {v : Nat} {p : WeightedPair} {e : Nat × Nat} (h : entryAt v p = some e) :
    e.2 = p.2 ∧ p.lo ≠ p.hi ∧ (p.lo = v ∧ e.1 = p.hi ∨ p.hi = v ∧ e.1 = p.lo) := by
  unfold entryAt at h
  split at h
  · cases h
  · rename_i apart
    split at h
    · rename_i low
      cases h
      exact ⟨rfl, apart, .inl ⟨low, rfl⟩⟩
    · split at h
      · rename_i high
        cases h
        exact ⟨rfl, apart, .inr ⟨high, rfl⟩⟩
      · cases h

variable {n : Nat} {merged : List WeightedPair}

theorem layRow_sorted (valid : ∀ p ∈ merged, p.Valid n)
    (ascending : merged.Pairwise fun p q => p.1 < q.1) (v : Nat) :
    WeightRow.Sorted (merged.filterMap (entryAt v)) := by
  constructor
  · rw [List.pairwise_filterMap]
    apply ascending.imp_of_mem
    intro p q left right before e he f hf
    obtain ⟨-, -, ends⟩ := entryAt_some he
    obtain ⟨-, -, ends'⟩ := entryAt_some hf
    have first := (valid p left).ordered
    have second := (valid q right).ordered
    have order := Prod.Lex.lt_iff.mp before
    dsimp only [WeightedPair.lo, WeightedPair.hi] at *
    omega
  · intro e mem
    obtain ⟨p, inside, found⟩ := List.mem_filterMap.mp mem
    rw [(entryAt_some found).1]
    exact (valid p inside).positive

theorem weightOf_layRow (valid : ∀ p ∈ merged, p.Valid n) (v u : Nat) :
    WeightRow.weightOf (merged.filterMap (entryAt v)) u =
      if v = u then 0 else (merged.lookup (WeightedPair.mk v u 0).1).getD 0 := by
  induction merged with
  | nil => simp
  | cons p merged ih =>
    have first := (valid p List.mem_cons_self).ordered
    have rest := ih fun q mem => valid q (List.mem_cons_of_mem p mem)
    have keyed : (WeightedPair.mk v u 0).1 = p.1 ↔ min v u = p.lo ∧ max v u = p.hi := by
      unfold WeightedPair.mk
      rw [← ofLex_inj, ofLex_toLex, Prod.ext_iff]
    rw [List.filterMap_cons, List.lookup_cons]
    cases found : entryAt v p with
    | none =>
      dsimp only
      rw [rest]
      by_cases same : v = u
      · rw [if_pos same, if_pos same]
      · have other : (WeightedPair.mk v u 0).1 ≠ p.1 := by
          intro here
          obtain ⟨low, high⟩ := keyed.mp here
          unfold entryAt at found
          split at found
          · omega
          · split at found
            · cases found
            · split at found
              · cases found
              · omega
        rw [beq_eq_false_iff_ne.mpr other]
    | some e =>
      obtain ⟨weight, apart, ends⟩ := entryAt_some found
      dsimp only
      rw [WeightRow.weightOf_cons, rest]
      by_cases same : v = u
      · rw [if_pos same, if_pos same, if_neg (by omega)]
      · rw [if_neg same, if_neg same]
        by_cases here : u = e.1
        · have key : (WeightedPair.mk v u 0).1 = p.1 := keyed.mpr (by omega)
          rw [if_pos here, beq_iff_eq.mpr key, weight]
          rfl
        · have key : (WeightedPair.mk v u 0).1 ≠ p.1 := by
            intro same'
            have := keyed.mp same'
            omega
          rw [if_neg here, beq_eq_false_iff_ne.mpr key]

end Rows

section Assemble

/-- One item of weight `w` at `i`. -/
def addAt (l : List Nat) (e : Nat × Nat) : List Nat := l.modify e.1 fun x => satAdd x e.2

def satDouble (w : Nat) : Nat := min (w * 2) u64Max

/-- Pairs sorted by their ends, those of the same ends added up. -/
def mergePairs (pairs : List WeightedPair) : List WeightedPair :=
  Kit.mergeRuns satAdd (pairs.insertionSort fun p q => p.1 ≤ q.1)

theorem satAdd_pos {a b : Nat} (pos : 0 < a) : 0 < satAdd a b := by
  unfold satAdd u64Max
  omega

theorem sorted_by_key (pairs : List WeightedPair) :
    (pairs.insertionSort fun p q => p.1 ≤ q.1).Pairwise fun p q => p.1 ≤ q.1 := by
  have trans : IsTrans WeightedPair fun p q => p.1 ≤ q.1 := ⟨fun _ _ _ le le' => le.trans le'⟩
  have total : Std.Total fun p q : WeightedPair => p.1 ≤ q.1 := ⟨fun _ _ => le_total _ _⟩
  exact List.pairwise_insertionSort _ pairs

theorem mergePairs_ascending (pairs : List WeightedPair) :
    (mergePairs pairs).Pairwise fun p q => p.1 < q.1 :=
  Kit.mergeRuns_ascending (sorted_by_key pairs)

theorem mergePairs_valid {n : Nat} {pairs : List WeightedPair} (valid : ∀ p ∈ pairs, p.Valid n) :
    ∀ p ∈ mergePairs pairs, p.Valid n := by
  apply Kit.mergeRuns_forall
  · intro k a b left _
    exact ⟨left.ordered, left.inside, satAdd_pos left.positive⟩
  · intro p mem
    exact valid p ((List.mem_insertionSort _).mp mem)

/-- The diagonal with twice the weight of every pair from a node to itself. -/
def addLoops (selfW : List Nat) (merged : List WeightedPair) : List Nat :=
  merged.foldl (fun s p => if p.lo = p.hi then addAt s (p.lo, satDouble p.2) else s) selfW

theorem addAt_length (l : List Nat) (e : Nat × Nat) : (addAt l e).length = l.length :=
  List.length_modify _ _ _

theorem addLoops_length (merged : List WeightedPair) (selfW : List Nat) :
    (addLoops selfW merged).length = selfW.length := by
  unfold addLoops
  induction merged generalizing selfW with
  | nil => rfl
  | cons p merged ih =>
    rw [List.foldl_cons, ih]
    split
    · rw [addAt_length]
    · rfl

/-- A view with no node, for a graph past the index limit. -/
def overLimit : WeightedGraph where
  ids := []
  rows := []
  selfW := []
  ids_sorted := List.Pairwise.nil
  rows_length := rfl
  selfW_length := rfl
  sorted := fun _ mem => absurd mem List.not_mem_nil
  within := fun _ mem => absurd mem List.not_mem_nil
  loopless := fun _ => rfl
  symm := fun _ _ => rfl

def links (merged : List WeightedPair) : Nat := 2 * (merged.filter fun p => p.lo ≠ p.hi).length

structure PairsMerged (n : Nat) (merged : List WeightedPair) : Prop where
  valid : ∀ p ∈ merged, p.Valid n
  ascending : merged.Pairwise fun p q => p.1 < q.1

theorem mergePairs_merged {n : Nat} {pairs : List WeightedPair} (valid : ∀ p ∈ pairs, p.Valid n) :
    PairsMerged n (mergePairs pairs) :=
  ⟨mergePairs_valid valid, mergePairs_ascending pairs⟩

section Laid
variable {n : Nat} {merged : List WeightedPair}

theorem layRows_getD_eq (v : Nat) : (layRows n merged).getD v [] =
    if v < n then merged.filterMap (entryAt v) else [] := by
  by_cases inside : v < n
  · rw [if_pos inside, layRows_getD _ inside]
  · rw [if_neg inside, List.getD_eq_getElem?_getD,
      List.getElem?_eq_none (by rw [layRows_length]; omega), Option.getD_none]

theorem mem_layRows {row : WeightRow} (mem : row ∈ layRows n merged) :
    ∃ v, row = merged.filterMap (entryAt v) := by
  obtain ⟨v, at'⟩ := List.getElem?_of_mem mem
  have inside := (List.getElem?_eq_some_iff.mp at').1
  rw [layRows_length] at inside
  refine ⟨v, ?_⟩
  rw [← layRows_getD _ inside, List.getD_eq_getElem?_getD, at', Option.getD_some]

theorem weightOf_layRows (held : PairsMerged n merged) (v u : Nat) :
    WeightRow.weightOf ((layRows n merged).getD v []) u =
      if v < n ∧ u < n ∧ v ≠ u then (merged.lookup (WeightedPair.mk v u 0).1).getD 0 else 0 := by
  rw [layRows_getD_eq]
  by_cases inside : v < n
  · rw [if_pos inside, weightOf_layRow held.valid]
    by_cases same : v = u
    · simp [same]
    · by_cases inside' : u < n
      · simp [same, inside, inside']
      · have absent : merged.lookup (WeightedPair.mk v u 0).1 = none := by
          rw [List.lookup_eq_none_iff]
          intro p mem
          have bounded := (held.valid p mem).inside
          rw [bne_iff_ne]
          intro same'
          have high : max v u = WeightedPair.hi p := congrArg (fun k => (ofLex k).2) same'
          omega
        simp [inside', absent]
  · rw [if_neg inside]
    simp [inside]

end Laid

def layOut (ids : List NodeId) (merged : List WeightedPair) (selfW : List Nat)
    (idsSorted : ids.Pairwise (· < ·)) (held : PairsMerged ids.length merged)
    (diagonal : selfW.length = ids.length) : WeightedGraph where
  ids := ids
  rows := layRows ids.length merged
  selfW := addLoops selfW merged
  ids_sorted := idsSorted
  rows_length := layRows_length _ _
  selfW_length := by rw [addLoops_length, diagonal]
  sorted := by
    intro row mem
    obtain ⟨v, rfl⟩ := mem_layRows mem
    exact layRow_sorted held.valid held.ascending v
  within := by
    intro row mem e inside
    obtain ⟨v, rfl⟩ := mem_layRows mem
    obtain ⟨p, listed, found⟩ := List.mem_filterMap.mp inside
    have first := (held.valid p listed).ordered
    have second := (held.valid p listed).inside
    obtain ⟨-, -, ends⟩ := entryAt_some found
    omega
  loopless := by
    intro v
    rw [weightOf_layRows held]
    simp
  symm := by
    intro v u
    rw [weightOf_layRows held, weightOf_layRows held, WeightedPair.mk_key_comm v u 0 0]
    congr 1
    apply propext
    exact ⟨fun h => ⟨h.2.1, h.1, h.2.2.symm⟩, fun h => ⟨h.2.1, h.1, h.2.2.symm⟩⟩

/-- A list cut or filled up with zeros to `n` items. -/
def resize (l : List Nat) (n : Nat) : List Nat := l.take n ++ List.replicate (n - l.length) 0

theorem resize_length (l : List Nat) (n : Nat) : (resize l n).length = n := by
  rw [resize, List.length_append, List.length_take, List.length_replicate]
  omega

theorem resize_self (l : List Nat) : resize l l.length = l := by simp [resize]

/-- The view of `ids` joined by `pairs`, from a starting diagonal `selfW`; past `cap` nodes or
neighbour entries it is empty. -/
def assembleWith (ids : List NodeId) (pairs : List WeightedPair) (selfW : List Nat) (cap : Nat)
    (idsSorted : ids.Pairwise (· < ·)) (valid : ∀ p ∈ pairs, p.Valid ids.length) :
    WeightedGraph :=
  if cap < ids.length ∨ cap < links (mergePairs pairs) then overLimit
  else layOut ids (mergePairs pairs) (resize selfW ids.length) idsSorted (mergePairs_merged valid)
    (resize_length _ _)

end Assemble

section Quotient

/-- A community's diagonal and the pairs between communities, as far as they are read. -/
structure QuotientAcc where
  selfW : List Nat
  pairs : List WeightedPair

namespace WeightedGraph
variable (g : WeightedGraph) (label : Nat → Option Nat)

/-- One neighbour of `v` in community `c`: each unordered pair once, from its lower end. -/
def foldNeighbour (v c : Nat) (s : QuotientAcc) (e : Nat × Nat) : QuotientAcc :=
  if e.1 < v then s
  else
    match label e.1 with
    | some d =>
      if d = c then { s with selfW := addAt s.selfW (c, satDouble e.2) }
      else { s with pairs := s.pairs ++ [WeightedPair.mk c d e.2] }
    | none => s

def foldNode (s : QuotientAcc) (v : Nat) : QuotientAcc :=
  match label v with
  | none => s
  | some c =>
    (g.neighbours v).foldl (foldNeighbour label v c)
      { s with selfW := addAt s.selfW (c, g.selfWeight v) }

/-- The members' diagonals and inner pairs by community, and the pairs between communities. -/
def folded (k : Nat) : QuotientAcc :=
  (List.range g.len).foldl (g.foldNode label) ⟨List.replicate k 0, []⟩

def nodeSelf (v : Nat) : List (Nat × Nat) :=
  match label v with
  | none => []
  | some c => (c, g.selfWeight v) :: (g.neighbours v).filterMap fun e =>
      if e.1 < v then none
      else if label e.1 = some c then some (c, satDouble e.2) else none

/-- The pairs a node adds between its community and others. -/
def nodePairs (v : Nat) : List WeightedPair :=
  match label v with
  | none => []
  | some c => (g.neighbours v).filterMap fun e =>
      if e.1 < v then none
      else (label e.1).bind fun d => if d = c then none else some (WeightedPair.mk c d e.2)

theorem foldl_foldNeighbour (v c : Nat) (row : WeightRow) (s : QuotientAcc) :
    row.foldl (foldNeighbour label v c) s =
      ⟨(row.filterMap fun e => if e.1 < v then none
          else if label e.1 = some c then some (c, satDouble e.2) else none).foldl addAt s.selfW,
        s.pairs ++ row.filterMap fun e => if e.1 < v then none
          else (label e.1).bind fun d =>
            if d = c then none else some (WeightedPair.mk c d e.2)⟩ := by
  induction row generalizing s with
  | nil => simp
  | cons e row ih =>
    rw [List.foldl_cons, ih, foldNeighbour, List.filterMap_cons, List.filterMap_cons]
    by_cases below : e.1 < v
    · simp [below]
    · cases labelled : label e.1 with
      | none => simp [below]
      | some d =>
        by_cases same : d = c
        · simp [below, same]
        · simp [below, same]

theorem foldNode_eq (s : QuotientAcc) (v : Nat) :
    g.foldNode label s v =
      ⟨(g.nodeSelf label v).foldl addAt s.selfW, s.pairs ++ g.nodePairs label v⟩ := by
  rw [foldNode, nodeSelf, nodePairs]
  cases label v with
  | none => simp
  | some c =>
    dsimp only
    rw [foldl_foldNeighbour]
    rfl

theorem foldl_foldNode (l : List Nat) (s : QuotientAcc) :
    l.foldl (g.foldNode label) s =
      ⟨(l.flatMap (g.nodeSelf label)).foldl addAt s.selfW,
        s.pairs ++ l.flatMap (g.nodePairs label)⟩ := by
  induction l generalizing s with
  | nil => simp
  | cons v l ih =>
    rw [List.foldl_cons, ih, foldNode_eq, List.flatMap_cons, List.flatMap_cons,
      List.foldl_append, List.append_assoc]

theorem folded_eq (k : Nat) : g.folded label k =
    ⟨((List.range g.len).flatMap (g.nodeSelf label)).foldl addAt (List.replicate k 0),
      (List.range g.len).flatMap (g.nodePairs label)⟩ := by
  rw [folded, foldl_foldNode, List.nil_append]

theorem folded_valid {k : Nat} (small : ∀ v c, label v = some c → c < k) :
    ∀ p ∈ (g.folded label k).pairs, p.Valid k := by
  intro p mem
  rw [folded_eq] at mem
  obtain ⟨v, -, mem⟩ := List.mem_flatMap.mp mem
  rw [nodePairs] at mem
  split at mem
  · cases mem
  · rename_i c labelled
    obtain ⟨e, inside, found⟩ := List.mem_filterMap.mp mem
    split at found
    · cases found
    · obtain ⟨d, other, found⟩ := Option.bind_eq_some_iff.mp found
      split at found
      · cases found
      · cases found
        exact WeightedPair.mk_valid (small v c labelled) (small e.1 d other)
          ((g.neighbours_sorted v).positive e inside)

/-- The community a membership gives an index, when it is below `k`. -/
def labelOf (membership : List Nat) (k v : Nat) : Option Nat := (membership[v]?).filter (· < k)

theorem labelOf_lt {membership : List Nat} {k v c : Nat} (h : labelOf membership k v = some c) :
    c < k := by
  obtain ⟨-, small⟩ := Option.filter_eq_some_iff.mp h
  exact of_decide_eq_true small

def quotient (membership : List Nat) (k : Nat) : WeightedGraph :=
  if indexCap < k then overLimit
  else
    assembleWith (List.range k) (g.folded (labelOf membership k) k).pairs
      (g.folded (labelOf membership k) k).selfW indexCap List.pairwise_lt_range (by
        rw [List.length_range]
        exact g.folded_valid _ fun v c => labelOf_lt)

end WeightedGraph

end Quotient

end Glia.Algo
