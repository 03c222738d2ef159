import Glia.Kit.Ranking
import Mathlib

/-! Near-duplicate sets: the candidate pairs of banded signatures, and the exact similarity of two
sets given as ascending lists. -/
namespace Glia.Algo.MinHash

open Glia.Kit.Ranking (sortBy dedup chunkBy)

section Hash

/-- SplitMix64's output finaliser. -/
def mix64 (z : UInt64) : UInt64 :=
  let z := (z ^^^ (z >>> 30)) * 0xbf58476d1ce4e5b9
  let z := (z ^^^ (z >>> 27)) * 0x94d049bb133111eb
  z ^^^ (z >>> 31)

/-- A band's bucket key: its values chained. -/
def bandKey (rows : List UInt64) : UInt64 := rows.foldl (fun h v => mix64 (h ^^^ v)) 0

end Hash

section Candidates

/-- A band bucket with more members emits no pairs. -/
def maxBucket : Nat := 2000

/-- An index is a `u32`: only so many signatures are banded. -/
def indexCap : Nat := 2 ^ 32

abbrev Pair := Nat ×ₗ Nat

structure LshCandidates where
  pairs : List Pair
  oversizedBuckets : Nat
  misshapen : Nat
  deriving DecidableEq

/-- `checked_mul`, zero refused. -/
def widthOf (bands rows : Nat) : Option Nat :=
  if bands * rows < 2 ^ 64 ∧ 0 < bands * rows then some (bands * rows) else none

def bandOf (rows band : Nat) (sig : List UInt64) : List UInt64 := (sig.drop (band * rows)).take rows

def keyed (rows band : Nat) (shaped : List (List UInt64 × Nat)) : List (Nat ×ₗ Nat) :=
  sortBy compare (shaped.map fun s => toLex ((bandKey (bandOf rows band s.1)).toNat, s.2))

def buckets (keyed : List (Nat ×ₗ Nat)) : List (List (Nat ×ₗ Nat)) :=
  chunkBy (fun e => (ofLex e).1) keyed

def pairsOf : List (Nat ×ₗ Nat) → List Pair
  | [] => []
  | m :: ms => ms.map (fun n => toLex ((ofLex m).2, (ofLex n).2)) ++ pairsOf ms

/-- The pairs so far, how many were left at the last compaction, and the buckets passed over. -/
structure Banding where
  pairs : List Pair := []
  compacted : Nat := 0
  oversized : Nat := 0

def addBucket (s : Banding) (bucket : List (Nat ×ₗ Nat)) : Banding :=
  if maxBucket < bucket.length then { s with oversized := s.oversized + 1 }
  else { s with pairs := s.pairs ++ pairsOf bucket }

/-- Sorted and rid of repeats whenever the list has doubled. -/
def compact (s : Banding) : Banding :=
  if 2 * max s.compacted 65536 < s.pairs.length then
    let pairs := dedup (sortBy compare s.pairs)
    { s with pairs, compacted := pairs.length }
  else s

def band (shaped : List (List UInt64 × Nat)) (rows : Nat) (s : Banding) (n : Nat) : Banding :=
  compact ((buckets (keyed rows n shaped)).foldl addBucket s)

def indexed (sigs : List (List UInt64)) : List (List UInt64 × Nat) := (sigs.take indexCap).zipIdx

def shaped (sigs : List (List UInt64)) (bands rows : Nat) : List (List UInt64 × Nat) :=
  (indexed sigs).filter fun s => widthOf bands rows = some s.1.length

def lshCandidates (sigs : List (List UInt64)) (bands rows : Nat) : LshCandidates :=
  let shaped := shaped sigs bands rows
  let misshapen := (indexed sigs).length - shaped.length
  if shaped.length < 2 then ⟨[], 0, misshapen⟩
  else
    let s := (List.range bands).foldl (band shaped rows) {}
    ⟨dedup (sortBy compare s.pairs), s.oversized, misshapen⟩

end Candidates

section Jaccard

def u32Max : Nat := 2 ^ 32 - 1

/-- One more, unless the id is the one consumed last. -/
def bump (last : Option Nat) (x n : Nat) : Nat := if last ≠ some x then n + 1 else n

/-- The walk past both lists: the id consumed last and the sizes so far. -/
def jaccardWalk (last : Option Nat) (inter union : Nat) : List Nat → List Nat → Nat × Nat
  | x :: a, y :: b =>
    if x = y then jaccardWalk (some x) (bump last x inter) (bump last x union) a b
    else if x < y then jaccardWalk (some x) inter (bump last x union) a (y :: b)
    else jaccardWalk (some y) inter (bump last y union) (x :: a) b
  | [], y :: b => jaccardWalk (some y) inter (bump last y union) [] b
  | x :: a, [] => jaccardWalk (some x) inter (bump last x union) a []
  | [], [] => (inter, union)
termination_by a b => a.length + b.length

/-- The sizes of the intersection and the union of two sets. -/
def jaccardSorted (a b : List Nat) : Nat × Nat :=
  let counts := jaccardWalk none 0 0 a b
  (min counts.1 u32Max, min counts.2 u32Max)

end Jaccard

end Glia.Algo.MinHash

/-! The candidate pairs are those that share a small enough bucket, and the similarity counts are
those of the sets. -/
namespace Glia.Algo.MinHash

open Std (TransCmp LawfulEqCmp)
open Glia.Kit.Ranking

section Counts
variable {last : Option Nat} {x : Nat} {s : Finset Nat}

def fresh (last : Option Nat) (s : Finset Nat) : Finset Nat :=
  s.filter fun z => some z ≠ last

def AtMost (last : Option Nat) (x : Nat) : Prop := ∀ y, last = some y → y ≤ x

theorem fresh_skip (low : AtMost last x) (above : ∀ z ∈ s, x < z) :
    fresh last s = fresh (some x) s := by
  refine Finset.filter_congr fun z mem => iff_of_true (fun eq => ?_) (fun eq => ?_)
  · exact absurd (low z eq.symm) (not_le_of_gt (above z mem))
  · exact absurd (Option.some.inj eq) (ne_of_gt (above z mem))

theorem card_fresh_insert (low : AtMost last x) (above : ∀ z ∈ s, x ≤ z) :
    (fresh last (insert x s)).card =
      (if last ≠ some x then 1 else 0) + (fresh (some x) s).card := by
  have rest : fresh last (s.erase x) = fresh (some x) s := by
    rw [fresh_skip low fun z mem => lt_of_le_of_ne (above z (Finset.mem_of_mem_erase mem))
      (Finset.ne_of_mem_erase mem).symm]
    ext z
    simp only [fresh, Finset.mem_filter, Finset.mem_erase, ne_eq, Option.some.injEq]
    tauto
  have whole : insert x s = insert x (s.erase x) := by
    ext z
    simp only [Finset.mem_insert, Finset.mem_erase]
    tauto
  rw [whole, ← rest, fresh, Finset.filter_insert]
  by_cases seen : last = some x
  · rw [if_neg (not_not_intro seen.symm), if_neg (not_not_intro seen), Nat.zero_add]
    rfl
  · rw [if_pos fun eq => seen eq.symm, if_pos seen, Finset.card_insert_of_notMem, Nat.add_comm]
    · rfl
    · exact fun mem => Finset.notMem_erase x s (Finset.mem_filter.mp mem).1

/-- Every id left is at least those consumed. -/
def Ahead (last : Option Nat) (a b : List Nat) : Prop := ∀ z, z ∈ a ∨ z ∈ b → AtMost last z

theorem ahead_next {a b : List Nat} (left : ∀ z ∈ a, x ≤ z) (right : ∀ z ∈ b, x ≤ z) :
    Ahead (some x) a b := by
  intro z mem y eq
  cases eq
  exact mem.elim (left z) (right z)

theorem jaccardWalk_spec (a b : List Nat) (last : Option Nat) (inter union : Nat)
    (left : a.Pairwise (· ≤ ·)) (right : b.Pairwise (· ≤ ·)) (ahead : Ahead last a b) :
    jaccardWalk last inter union a b =
      (inter + (fresh last (a.toFinset ∩ b.toFinset)).card,
        union + (fresh last (a.toFinset ∪ b.toFinset)).card) := by
  have add (last : Option Nat) (x n m : Nat) :
      bump last x n + m = n + ((if last ≠ some x then 1 else 0) + m) := by
    unfold bump
    split <;> omega
  fun_induction jaccardWalk last inter union a b with
  | case1 last inter union a y b ih =>
    obtain ⟨aboveA, left⟩ := List.pairwise_cons.mp left
    obtain ⟨aboveB, right⟩ := List.pairwise_cons.mp right
    have low := ahead y (.inl List.mem_cons_self)
    have both : ∀ z ∈ a.toFinset ∪ b.toFinset, y ≤ z := fun z mem =>
      (Finset.mem_union.mp mem).elim (fun m => aboveA z (List.mem_toFinset.mp m))
        fun m => aboveB z (List.mem_toFinset.mp m)
    have shared : ∀ z ∈ a.toFinset ∩ b.toFinset, y ≤ z := fun z mem =>
      both z (Finset.mem_union_left _ (Finset.mem_inter.mp mem).1)
    rw [ih left right (ahead_next aboveA aboveB), List.toFinset_cons, List.toFinset_cons,
      ← Finset.insert_inter_distrib, Finset.insert_union, Finset.union_insert,
      Finset.insert_idem, card_fresh_insert low both, card_fresh_insert low shared, add, add]
  | case2 last inter union x a y b ne lt ih =>
    obtain ⟨aboveA, left⟩ := List.pairwise_cons.mp left
    have aboveB : ∀ z ∈ y :: b, x < z := fun z mem => by
      rcases List.mem_cons.mp mem with rfl | inside
      · exact lt
      · exact lt_of_lt_of_le lt ((List.pairwise_cons.mp right).1 z inside)
    have low := ahead x (.inl List.mem_cons_self)
    have out : x ∉ (y :: b).toFinset := fun mem =>
      lt_irrefl x (aboveB x (List.mem_toFinset.mp mem))
    have both : ∀ z ∈ a.toFinset ∪ (y :: b).toFinset, x ≤ z := fun z mem =>
      (Finset.mem_union.mp mem).elim (fun m => aboveA z (List.mem_toFinset.mp m))
        fun m => (aboveB z (List.mem_toFinset.mp m)).le
    have shared : ∀ z ∈ a.toFinset ∩ (y :: b).toFinset, x < z := fun z mem =>
      aboveB z (List.mem_toFinset.mp (Finset.mem_inter.mp mem).2)
    have cons : (x :: a).toFinset = insert x a.toFinset := List.toFinset_cons
    rw [ih left right (ahead_next aboveA fun z mem => (aboveB z mem).le), cons,
      Finset.insert_inter_of_notMem out, Finset.insert_union, card_fresh_insert low both, add,
      fresh_skip low shared]
  | case3 last inter union x a y b ne ge ih =>
    have lt : y < x := by omega
    obtain ⟨aboveB, right⟩ := List.pairwise_cons.mp right
    have aboveA : ∀ z ∈ x :: a, y < z := fun z mem => by
      rcases List.mem_cons.mp mem with rfl | inside
      · exact lt
      · exact lt_of_lt_of_le lt ((List.pairwise_cons.mp left).1 z inside)
    have low := ahead y (.inr List.mem_cons_self)
    have out : y ∉ (x :: a).toFinset := fun mem =>
      lt_irrefl y (aboveA y (List.mem_toFinset.mp mem))
    have both : ∀ z ∈ (x :: a).toFinset ∪ b.toFinset, y ≤ z := fun z mem =>
      (Finset.mem_union.mp mem).elim (fun m => (aboveA z (List.mem_toFinset.mp m)).le)
        fun m => aboveB z (List.mem_toFinset.mp m)
    have shared : ∀ z ∈ (x :: a).toFinset ∩ b.toFinset, y < z := fun z mem =>
      aboveA z (List.mem_toFinset.mp (Finset.mem_inter.mp mem).1)
    have cons : (y :: b).toFinset = insert y b.toFinset := List.toFinset_cons
    rw [ih left right (ahead_next (fun z mem => (aboveA z mem).le) aboveB), cons,
      Finset.inter_insert_of_notMem out, Finset.union_insert, card_fresh_insert low both, add,
      fresh_skip low shared]
  | case4 last inter union y b ih =>
    obtain ⟨aboveB, right⟩ := List.pairwise_cons.mp right
    have low := ahead y (.inr List.mem_cons_self)
    rw [ih left right (ahead_next nofun aboveB), List.toFinset_nil, Finset.empty_inter,
      Finset.empty_inter, Finset.empty_union, Finset.empty_union, List.toFinset_cons,
      card_fresh_insert low fun z mem => aboveB z (List.mem_toFinset.mp mem), add]
    rfl
  | case5 last inter union x a ih =>
    obtain ⟨aboveA, left⟩ := List.pairwise_cons.mp left
    have low := ahead x (.inl List.mem_cons_self)
    rw [ih left right (ahead_next aboveA nofun), List.toFinset_nil, Finset.inter_empty,
      Finset.inter_empty, Finset.union_empty, Finset.union_empty, List.toFinset_cons,
      card_fresh_insert low fun z mem => aboveA z (List.mem_toFinset.mp mem), add]
    rfl
  | case6 last inter union => rfl

theorem jaccardSorted_eq {a b : List Nat} (left : a.Pairwise (· ≤ ·)) (right : b.Pairwise (· ≤ ·)) :
    jaccardSorted a b = (min (a.toFinset ∩ b.toFinset).card u32Max,
      min (a.toFinset ∪ b.toFinset).card u32Max) := by
  have all : ∀ s : Finset Nat, fresh none s = s := fun s =>
    Finset.filter_true_of_mem fun _ _ => nofun
  rw [jaccardSorted, jaccardWalk_spec a b none 0 0 left right fun _ _ _ => nofun, all, all,
    Nat.zero_add, Nat.zero_add]

end Counts

section Buckets
variable {items : List (List UInt64 × Nat)} {rows n : Nat}

def keyIn (rows n : Nat) (sig : List UInt64) : Nat := (bandKey (bandOf rows n sig)).toNat

def bucketOf (items : List (List UInt64 × Nat)) (rows n k : Nat) : List Nat :=
  (items.filter fun s => keyIn rows n s.1 = k).map Prod.snd

theorem mem_bucketOf {k i : Nat} :
    i ∈ bucketOf items rows n k ↔ ∃ sig, (sig, i) ∈ items ∧ keyIn rows n sig = k := by
  unfold bucketOf
  simp

theorem keyed_sorted : (keyed rows n items).Pairwise (· ≤ ·) :=
  (sortBy_sorted _).imp fun h => compare_le_iff_le.mp h

theorem mem_keyed {k i : Nat} :
    toLex (k, i) ∈ keyed rows n items ↔ ∃ sig, (sig, i) ∈ items ∧ keyIn rows n sig = k := by
  rw [keyed, mem_sortBy, List.mem_map]
  constructor
  · rintro ⟨s, held, eq⟩
    cases eq
    exact ⟨s.1, held, rfl⟩
  · rintro ⟨sig, held, rfl⟩
    exact ⟨(sig, i), held, rfl⟩

theorem bucket_perm (k : Nat) :
    (((keyed rows n items).filter fun e => (ofLex e).1 = k).map fun e => (ofLex e).2).Perm
      (bucketOf items rows n k) := by
  have perm : (keyed rows n items).Perm
      (items.map fun s => toLex (keyIn rows n s.1, s.2)) := sortBy_perm _
  refine ((perm.filter _).map _).trans (.of_eq ?_)
  rw [List.filter_map, List.map_map]
  rfl

theorem mem_buckets {b : List (Nat ×ₗ Nat)} : b ∈ buckets (keyed rows n items) ↔
    ∃ e ∈ keyed rows n items, b = (keyed rows n items).filter fun m => (ofLex m).1 = (ofLex e).1 := by
  have sorted : (keyed rows n items).Pairwise fun a b => (ofLex a).1 ≤ (ofLex b).1 :=
    keyed_sorted.imp fun h => (Prod.Lex.le_iff.mp h).elim le_of_lt fun h => h.1.le
  rw [buckets, chunkBy_sorted sorted, List.mem_map]
  constructor
  · rintro ⟨k, mem, rfl⟩
    obtain ⟨e, held, rfl⟩ := List.mem_map.mp (mem_dedup.mp mem)
    exact ⟨e, held, rfl⟩
  · rintro ⟨e, held, rfl⟩
    exact ⟨_, mem_dedup.mpr (List.mem_map_of_mem held), rfl⟩

theorem mem_pairsOf {b : List (Nat ×ₗ Nat)}
    (ascending : b.Pairwise fun m n => (ofLex m).2 < (ofLex n).2) {i j : Nat} :
    toLex (i, j) ∈ pairsOf b ↔ i < j ∧ (∃ m ∈ b, (ofLex m).2 = i) ∧ ∃ m ∈ b, (ofLex m).2 = j := by
  induction b with
  | nil => simp [pairsOf]
  | cons m b ih =>
    obtain ⟨above, rest⟩ := List.pairwise_cons.mp ascending
    rw [pairsOf, List.mem_append, ih rest, List.mem_map]
    constructor
    · rintro (⟨m', mem, eq⟩ | ⟨lt, ⟨x, left, eq⟩, y, right, eq'⟩)
      · cases eq
        exact ⟨above m' mem, ⟨m, List.mem_cons_self, rfl⟩, m', List.mem_cons_of_mem m mem, rfl⟩
      · exact ⟨lt, ⟨x, List.mem_cons_of_mem m left, eq⟩, y, List.mem_cons_of_mem m right, eq'⟩
    · rintro ⟨lt, ⟨x, left, rfl⟩, y, right, rfl⟩
      rcases List.mem_cons.mp left with rfl | inside
      · rcases List.mem_cons.mp right with rfl | inside'
        · exact absurd lt (Nat.lt_irrefl _)
        · exact .inl ⟨y, inside', rfl⟩
      · rcases List.mem_cons.mp right with rfl | inside'
        · exact absurd lt (Nat.lt_asymm (above x inside))
        · exact .inr ⟨lt, ⟨x, inside, rfl⟩, y, inside', rfl⟩

def Together (items : List (List UInt64 × Nat)) (rows n i j : Nat) : Prop :=
  ∃ k, i ∈ bucketOf items rows n k ∧ j ∈ bucketOf items rows n k ∧
    (bucketOf items rows n k).length ≤ maxBucket

theorem mem_addBuckets (bs : List (List (Nat ×ₗ Nat))) (s : Banding) (p : Pair) :
    p ∈ (bs.foldl addBucket s).pairs ↔ p ∈ s.pairs ∨ ∃ b ∈ bs, b.length ≤ maxBucket ∧ p ∈ pairsOf b := by
  induction bs generalizing s with
  | nil => simp
  | cons b bs ih =>
    rw [List.foldl_cons, ih, addBucket]
    by_cases large : maxBucket < b.length
    · simp [if_pos large, Nat.not_le_of_lt large]
    · simp [if_neg large, Nat.le_of_not_lt large, or_assoc]

theorem mem_compact (s : Banding) (p : Pair) : p ∈ (compact s).pairs ↔ p ∈ s.pairs := by
  unfold compact
  split
  · exact mem_dedup.trans mem_sortBy
  · rfl

theorem mem_band (once : (items.map Prod.snd).Nodup) (s : Banding) {i j : Nat} :
    toLex (i, j) ∈ (band items rows s n).pairs ↔
      toLex (i, j) ∈ s.pairs ∨ i < j ∧ Together items rows n i j := by
  rw [band, mem_compact, mem_addBuckets]
  refine or_congr_right ?_
  have members (k i : Nat) : (∃ m ∈ (keyed rows n items).filter fun e => (ofLex e).1 = k,
      (ofLex m).2 = i) ↔ i ∈ bucketOf items rows n k := by
    rw [← (bucket_perm k).mem_iff, List.mem_map]
  have ascending (k : Nat) : ((keyed rows n items).filter fun e => (ofLex e).1 = k).Pairwise
      fun m n => (ofLex m).2 < (ofLex n).2 := by
    have distinct : (((keyed rows n items).filter fun e => (ofLex e).1 = k).map
        fun e => (ofLex e).2).Nodup :=
      (bucket_perm k).nodup_iff.mpr ((List.filter_sublist.map _).nodup once)
    rw [List.Nodup, List.pairwise_map] at distinct
    refine ((keyed_sorted.filter _).and distinct).imp_of_mem ?_
    intro a b left right both
    have keyA : (ofLex a).1 = k := of_decide_eq_true (List.mem_filter.mp left).2
    have keyB : (ofLex b).1 = k := of_decide_eq_true (List.mem_filter.mp right).2
    rcases Prod.Lex.le_iff.mp both.1 with lt | ⟨_, le⟩
    · exact absurd (keyA.trans keyB.symm) (ne_of_lt lt)
    · exact lt_of_le_of_ne le both.2
  constructor
  · rintro ⟨b, listed, small, mem⟩
    obtain ⟨e, held, rfl⟩ := mem_buckets.mp listed
    obtain ⟨lt, left, right⟩ := (mem_pairsOf (ascending _)).mp mem
    refine ⟨lt, _, (members _ _).mp left, (members _ _).mp right, ?_⟩
    rw [← (bucket_perm _).length_eq, List.length_map]
    exact small
  · rintro ⟨lt, k, left, right, small⟩
    obtain ⟨sig, held, rfl⟩ := mem_bucketOf.mp left
    refine ⟨_, mem_buckets.mpr ⟨_, mem_keyed.mpr ⟨sig, held, rfl⟩, rfl⟩, ?_,
      (mem_pairsOf (ascending _)).mpr ⟨lt, (members _ _).mpr left, (members _ _).mpr right⟩⟩
    rw [← (bucket_perm _).length_eq, List.length_map] at small
    exact small

theorem mem_bands (once : (items.map Prod.snd).Nodup) (ns : List Nat) (s : Banding) {i j : Nat} :
    toLex (i, j) ∈ (ns.foldl (band items rows) s).pairs ↔
      toLex (i, j) ∈ s.pairs ∨ i < j ∧ ∃ n ∈ ns, Together items rows n i j := by
  induction ns generalizing s with
  | nil => simp
  | cons n ns ih =>
    rw [List.foldl_cons, ih, mem_band once, or_assoc, ← and_or_left]
    simp

end Buckets

section Whole
variable (sigs : List (List UInt64)) (bands rows : Nat)

theorem shaped_once : ((shaped sigs bands rows).map Prod.snd).Nodup := by
  have all : ((indexed sigs).map Prod.snd).Nodup := by
    rw [indexed, List.zipIdx_map_snd]
    exact List.nodup_range' 1
  exact (List.filter_sublist.map _).nodup all

theorem two_shaped {n i j : Nat} (lt : i < j) (together : Together (shaped sigs bands rows) rows n i j) :
    2 ≤ (shaped sigs bands rows).length := by
  obtain ⟨k, left, right, _⟩ := together
  obtain ⟨sig, held, _⟩ := mem_bucketOf.mp left
  obtain ⟨sig', held', _⟩ := mem_bucketOf.mp right
  have apart : (sig, i) ≠ (sig', j) := fun eq => absurd (congrArg Prod.snd eq) (ne_of_lt lt)
  by_contra few
  match items : shaped sigs bands rows with
  | [] =>
    rw [items] at held
    cases held
  | [s] =>
    rw [items] at held held'
    exact apart ((List.mem_singleton.mp held).trans (List.mem_singleton.mp held').symm)
  | s :: s' :: rest =>
    rw [items] at few
    exact few (Nat.le_add_left 2 rest.length)

theorem lshCandidates_sorted : (lshCandidates sigs bands rows).pairs.Pairwise (· < ·) := by
  have lawful : LawfulEqCmp (compare : Pair → Pair → Ordering) :=
    ⟨fun h => compare_eq_iff_eq.mp h⟩
  unfold lshCandidates
  dsimp only
  split
  · exact List.Pairwise.nil
  · exact (dedup_sorted (sortBy_sorted _)).imp fun h => compare_lt_iff_lt.mp h

theorem mem_lshCandidates {i j : Nat} : toLex (i, j) ∈ (lshCandidates sigs bands rows).pairs ↔
    i < j ∧ ∃ n < bands, Together (shaped sigs bands rows) rows n i j := by
  unfold lshCandidates
  dsimp only
  split
  · rename_i few
    refine iff_of_false List.not_mem_nil ?_
    rintro ⟨lt, n, _, together⟩
    exact absurd (two_shaped sigs bands rows lt together) (Nat.not_le_of_lt few)
  · rw [mem_dedup, mem_sortBy, mem_bands (shaped_once sigs bands rows)]
    simp

/-- Similarity counts are those of the sets, up to the largest count, and the candidates are the
pairs that share a bucket within the cap. -/
theorem minHash_exact :
    (∀ a b : List Nat, a.Pairwise (· ≤ ·) → b.Pairwise (· ≤ ·) →
      jaccardSorted a b = (min (a.toFinset ∩ b.toFinset).card u32Max,
        min (a.toFinset ∪ b.toFinset).card u32Max)) ∧
    ∀ (sigs : List (List UInt64)) (bands rows : Nat),
      (lshCandidates sigs bands rows).pairs.Pairwise (· < ·) ∧
      ∀ i j, toLex (i, j) ∈ (lshCandidates sigs bands rows).pairs ↔
        i < j ∧ ∃ n < bands, Together (shaped sigs bands rows) rows n i j :=
  ⟨fun _ _ left right => jaccardSorted_eq left right,
    fun sigs bands rows => ⟨lshCandidates_sorted sigs bands rows,
      fun _ _ => mem_lshCandidates sigs bands rows⟩⟩

theorem minHash_exact_repeats : jaccardSorted [1, 1, 2] [1, 1, 3] =
    (min (([1, 1, 2] : List Nat).toFinset ∩ [1, 1, 3].toFinset).card u32Max,
      min (([1, 1, 2] : List Nat).toFinset ∪ [1, 1, 3].toFinset).card u32Max) :=
  minHash_exact.1 [1, 1, 2] [1, 1, 3] (by decide) (by decide)

/-- More ids than a count has room for. -/
theorem jaccardSorted_saturates :
    (List.range (2 ^ 32)).Pairwise (· ≤ ·) ∧ (List.range (2 ^ 32)).toFinset.card = 2 ^ 32 ∧
      jaccardSorted (List.range (2 ^ 32)) [] ≠
        (((List.range (2 ^ 32)).toFinset ∩ ([] : List Nat).toFinset).card,
          ((List.range (2 ^ 32)).toFinset ∪ ([] : List Nat).toFinset).card) := by
  have sorted (n : Nat) : (List.range n).Pairwise (· ≤ ·) :=
    (List.pairwise_lt_range).imp le_of_lt
  have size (n : Nat) : (List.range n).toFinset.card = n := by
    rw [List.toFinset_card_of_nodup List.nodup_range, List.length_range]
  refine ⟨sorted _, size _, fun eq => ?_⟩
  have most := congrArg Prod.snd eq
  rw [jaccardSorted_eq (sorted _) List.Pairwise.nil, List.toFinset_nil, Finset.union_empty,
    size] at most
  exact absurd most (by decide)

end Whole

end Glia.Algo.MinHash
