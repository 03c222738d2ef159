import Mathlib.Data.List.Basic
import Glia.Kit.Checked

/-! Work over a list cut into chunks and run by a pool in any order. -/
namespace Glia.Kit

structure Chunk where
  start : Nat
  stop : Nat
  deriving DecidableEq, Repr

/-- What a pool does at one call: its workers, and the jobs it runs of `n`, in order. A pool
that breaks its contract leaves some out, or runs some twice. -/
structure PoolCall where
  threads : Nat
  jobs : Nat → List Nat
  /-- A count of workers is far below a quarter of the word. -/
  real : threads * 4 < Attempt.wordLimit

section Cut

/-- `0..len` cut in order: one chunk with no pool, one worker or few items. -/
def chunkRanges (len floor : Nat) (pool : Option PoolCall) : List Chunk :=
  let threads := (pool.map fun p => max p.threads 1).getD 1
  if threads ≤ 1 ∨ len ≤ floor then [⟨0, len⟩]
  else
    let size := max ((len + (threads * 4 - 1)) / (threads * 4)) floor
    (List.range ((len + (size - 1)) / size)).map fun i =>
      ⟨i * size, min (i * size + size) len⟩

/-- Chunks in order from `a` to `b`, each starting where the one before stops. -/
inductive Tiles : Nat → List Chunk → Nat → Prop where
  | nil (a : Nat) : Tiles a [] a
  | cons {a b c : Nat} {rest : List Chunk} : a ≤ b → Tiles b rest c → Tiles a (⟨a, b⟩ :: rest) c

theorem Tiles.le {a c : Nat} {l : List Chunk} (h : Tiles a l c) : a ≤ c := by
  induction h with
  | nil => exact le_rfl
  | cons le _ ih => exact le.trans ih

theorem Tiles.snoc {a b c : Nat} {l : List Chunk} (h : Tiles a l b) (le : b ≤ c) :
    Tiles a (l ++ [⟨b, c⟩]) c := by
  induction h with
  | nil => exact .cons le (.nil c)
  | cons first _ ih => exact .cons first (ih le)

theorem tiles_steps {len size : Nat} (n : Nat) (within : ∀ i < n, i * size < len) :
    Tiles 0 ((List.range n).map fun i => ⟨i * size, min (i * size + size) len⟩)
      (min (n * size) len) := by
  induction n with
  | zero =>
    rw [Nat.zero_mul, Nat.zero_min]
    exact .nil 0
  | succ n ih =>
    have before := ih fun i lt => within i (Nat.lt_succ_of_lt lt)
    have here : min (n * size) len = n * size :=
      min_eq_left (within n (Nat.lt_succ_self n)).le
    rw [here] at before
    rw [List.range_succ, List.map_append, Nat.succ_mul]
    apply before.snoc
    have lt := within n (Nat.lt_succ_self n)
    omega

theorem chunkRanges_tiles (len floor : Nat) (pool : Option PoolCall) (pos : 0 < floor) :
    Tiles 0 (chunkRanges len floor pool) len := by
  unfold chunkRanges
  dsimp only
  split
  · exact .cons (Nat.zero_le len) (.nil len)
  · generalize (pool.map fun p => max p.threads 1).getD 1 * 4 = width
    generalize hs : max ((len + (width - 1)) / width) floor = size
    have large : 0 < size := hs ▸ pos.trans_le (le_max_right _ _)
    generalize hn : (len + (size - 1)) / size = n
    have within : ∀ i < n, i * size < len := by
      intro i lt
      have le : i + 1 ≤ (len + (size - 1)) / size := hn ▸ lt
      have bound := (Nat.le_div_iff_mul_le large).mp le
      rw [Nat.succ_mul] at bound
      omega
    have covered : len ≤ n * size := by
      have step := Nat.lt_div_mul_add (a := len + (size - 1)) large
      rw [hn] at step
      omega
    have tiles := tiles_steps n within
    rwa [min_eq_right covered] at tiles

theorem Tiles.flatMap_eq {α : Type} {F : Chunk → List α} {a c : Nat} {l : List Chunk}
    (h : Tiles a l c) (empty : F ⟨c, c⟩ = [])
    (join : ∀ a b, a ≤ b → b ≤ c → F ⟨a, b⟩ ++ F ⟨b, c⟩ = F ⟨a, c⟩) :
    l.flatMap F = F ⟨a, c⟩ := by
  induction h with
  | nil a => exact empty.symm
  | cons le rest ih =>
    rw [List.flatMap_cons, ih empty join]
    exact join _ _ le rest.le

end Cut

section Pool
variable {R : Type}

/-- One job's result, put in its own slot. -/
def fillSlot (ranges : List Chunk) (f : Chunk → R) (slots : List (Option R)) (i : Nat) :
    List (Option R) :=
  match ranges[i]? with
  | some range => slots.set i (some (f range))
  | none => slots

/-- `f` over the chunks, in chunk order; a slot left unfilled is computed at the end. -/
def parChunks (len floor : Nat) (pool : Option PoolCall) (f : Chunk → R) : List R :=
  let ranges := chunkRanges len floor pool
  match pool.filter fun _ => 1 < ranges.length with
  | none => ranges.map f
  | some p =>
    let slots := (p.jobs ranges.length).foldl (fillSlot ranges f)
      (ranges.map fun _ => none)
    (slots.zip ranges).map fun e => e.1.getD (f e.2)

/-- A slot holds nothing, or its own chunk's result. -/
def Filled (ranges : List Chunk) (f : Chunk → R) (slots : List (Option R)) : Prop :=
  List.Forall₂ (fun (range : Chunk) (slot : Option R) => slot = none ∨ slot = some (f range))
    ranges slots

theorem filled_start (ranges : List Chunk) (f : Chunk → R) :
    Filled ranges f (ranges.map fun _ => none) := by
  induction ranges with
  | nil => exact .nil
  | cons range ranges ih => exact .cons (.inl rfl) ih

theorem Filled.set {ranges : List Chunk} {f : Chunk → R} {slots : List (Option R)}
    (held : Filled ranges f slots) (i : Nat) : Filled ranges f (fillSlot ranges f slots i) := by
  induction held generalizing i with
  | nil =>
    rw [fillSlot, List.getElem?_nil]
    exact .nil
  | cons first rest ih =>
    cases i with
    | zero => exact .cons (.inr rfl) rest
    | succ i =>
      have step := ih i
      rw [fillSlot] at step ⊢
      rw [List.getElem?_cons_succ]
      split at step
      · exact .cons first step
      · exact .cons first step

theorem Filled.foldl {ranges : List Chunk} {f : Chunk → R} {slots : List (Option R)}
    (held : Filled ranges f slots) (jobs : List Nat) :
    Filled ranges f (jobs.foldl (fillSlot ranges f) slots) := by
  induction jobs generalizing slots with
  | nil => exact held
  | cons i jobs ih => exact ih (held.set i)

theorem Filled.read {ranges : List Chunk} {f : Chunk → R} {slots : List (Option R)}
    (held : Filled ranges f slots) :
    (slots.zip ranges).map (fun e => e.1.getD (f e.2)) = ranges.map f := by
  induction held with
  | nil => rfl
  | cons first rest ih =>
    rw [List.zip_cons_cons, List.map_cons, List.map_cons, ih]
    congr 1
    obtain rfl | rfl := first
    · rfl
    · rfl

theorem parChunks_eq (len floor : Nat) (pool : Option PoolCall) (f : Chunk → R) :
    parChunks len floor pool f = (chunkRanges len floor pool).map f := by
  unfold parChunks
  dsimp only
  split
  · rfl
  · exact ((filled_start _ f).foldl _).read

theorem parChunks_flatMap {α : Type} (len floor : Nat) (pos : 0 < floor) (pool : Option PoolCall)
    (f : Chunk → R) (part : R → List α) (empty : part (f ⟨len, len⟩) = [])
    (join : ∀ a b, a ≤ b → b ≤ len →
      part (f ⟨a, b⟩) ++ part (f ⟨b, len⟩) = part (f ⟨a, len⟩)) :
    (parChunks len floor pool f).flatMap part = part (f ⟨0, len⟩) := by
  rw [parChunks_eq, List.flatMap_map]
  exact (chunkRanges_tiles len floor pool pos).flatMap_eq empty join

end Pool

section Part
variable {α β : Type}

/-- The items of a chunk; past the end there are none. -/
def partOf (l : List α) (c : Chunk) : List α :=
  if c.start ≤ c.stop ∧ c.stop ≤ l.length then Wire.slice l c.start (c.stop - c.start) else []

theorem partOf_self (l : List α) (n : Nat) : partOf l ⟨n, n⟩ = [] := by
  unfold partOf
  split
  · simp [Wire.slice]
  · rfl

theorem partOf_whole (l : List α) : partOf l ⟨0, l.length⟩ = l := by
  unfold partOf
  rw [if_pos ⟨Nat.zero_le _, le_rfl⟩]
  simp [Wire.slice]

theorem partOf_length {l : List α} {a b : Nat} (le : a ≤ b) (inside : b ≤ l.length) :
    (partOf l ⟨a, b⟩).length = b - a := by
  unfold partOf
  rw [if_pos ⟨le, inside⟩, Wire.length_slice]
  dsimp only
  omega

theorem partOf_getElem? {l : List α} {a b i : Nat} (le : a ≤ b) (inside : b ≤ l.length)
    (below : i < b - a) : (partOf l ⟨a, b⟩)[i]? = l[a + i]? := by
  unfold partOf
  rw [if_pos ⟨le, inside⟩, Wire.slice, List.getElem?_take_of_lt below, List.getElem?_drop]

theorem partOf_append {l : List α} {a b : Nat} (le : a ≤ b) (inside : b ≤ l.length) :
    partOf l ⟨a, b⟩ ++ partOf l ⟨b, l.length⟩ = partOf l ⟨a, l.length⟩ := by
  unfold partOf
  rw [if_pos ⟨le, inside⟩, if_pos ⟨inside, le_rfl⟩, if_pos ⟨le.trans inside, le_rfl⟩]
  dsimp only [Wire.slice]
  have rest : (l.drop a).drop (b - a) = l.drop b := by
    rw [List.drop_drop, Nat.add_sub_cancel' le]
  rw [List.take_of_length_le (i := l.length - b) (by rw [List.length_drop]),
    List.take_of_length_le (i := l.length - a) (by rw [List.length_drop]), ← rest,
    List.take_append_drop]

/-- What each item of a chunk gives, by its index in the whole. -/
def eachOf (l : List α) (G : Nat → α → List β) (c : Chunk) : List β :=
  ((partOf l c).zipIdx c.start).flatMap fun e => G e.2 e.1

theorem eachOf_self (l : List α) (G : Nat → α → List β) (n : Nat) : eachOf l G ⟨n, n⟩ = [] := by
  rw [eachOf, partOf_self]
  rfl

theorem eachOf_append (l : List α) (G : Nat → α → List β) {a b : Nat} (le : a ≤ b)
    (inside : b ≤ l.length) :
    eachOf l G ⟨a, b⟩ ++ eachOf l G ⟨b, l.length⟩ = eachOf l G ⟨a, l.length⟩ := by
  unfold eachOf
  have start : a + (partOf l ⟨a, b⟩).length = b := by
    rw [partOf_length le inside, Nat.add_sub_cancel' le]
  rw [← partOf_append le inside, List.zipIdx_append, List.flatMap_append, start]

theorem flatMap_eachOf {R : Type} (l : List α) (G : Nat → α → List β) {floor : Nat}
    (pos : 0 < floor) (pool : Option PoolCall) (f : Chunk → R) (part : R → List β)
    (each : ∀ c, c.start ≤ c.stop → c.stop ≤ l.length → part (f c) = eachOf l G c) :
    (parChunks l.length floor pool f).flatMap part = eachOf l G ⟨0, l.length⟩ := by
  have whole := parChunks_flatMap l.length floor pos pool f part
    (by rw [each _ le_rfl le_rfl, eachOf_self]) (by
      intro a b le inside
      rw [each _ le inside, each _ inside le_rfl, each _ (le.trans inside) le_rfl,
        eachOf_append l G le inside])
  rw [whole, each _ (Nat.zero_le _) le_rfl]

theorem findSome?_eachOf {R : Type} (l : List α) (G : Nat → α → List β) {floor : Nat}
    (pos : 0 < floor) (pool : Option PoolCall) (f : Chunk → R) (part : R → Option β)
    (each : ∀ c, part (f c) = (eachOf l G c).head?) :
    (parChunks l.length floor pool f).findSome? part = (eachOf l G ⟨0, l.length⟩).head? := by
  have joined := flatMap_eachOf l G pos pool (eachOf l G) id fun _ _ _ => rfl
  rw [parChunks_eq, List.flatMap_map] at joined
  rw [← joined, List.head?_flatMap, parChunks_eq, List.findSome?_map]
  congr 1
  funext c
  exact each c

theorem eachOf_singleton (l : List α) (c : Chunk) :
    eachOf l (fun _ a => [a]) c = partOf l c := by
  have firsts := List.zipIdx_map_fst c.start (partOf l c)
  rwa [List.map_eq_flatMap] at firsts

theorem eachOf_local (l : List α) (G : Nat → α → List β) {c : Chunk} (le : c.start ≤ c.stop)
    (inside : c.stop ≤ l.length) {H : Nat → α → List β}
    (same : ∀ i a, i < c.stop - c.start → H i a = G (c.start + i) a) :
    ((partOf l c).zipIdx.flatMap fun e => H e.2 e.1) = eachOf l G c := by
  rw [eachOf, List.zipIdx_eq_map_add (i := c.start), List.flatMap_map]
  apply List.flatMap_congr
  intro e mem
  have below := (List.mem_zipIdx' mem).1
  rw [partOf_length le inside] at below
  exact same e.2 e.1 below

end Part

end Glia.Kit
