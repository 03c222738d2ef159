import Glia.Rules.Relation

/-! Sorted, duplicate-free batches of a relation's rows, with their provenance columns, the
searches over them and the geometric merge of stable runs. Rows are value handles here. -/
namespace Glia.Rules.Storage

abbrev Handles := List Nat

/-- A batch's provenance column: one for every row while they all share it, else one height
and one rule a row. -/
inductive Metas where
  | uniform (len : Nat) (prov : RowMeta)
  | per (heights rules : List Nat)
  deriving DecidableEq, Repr

namespace Metas

def empty : Metas := .uniform 0 loaded

def len : Metas → Nat
  | .uniform n _ => n
  | .per heights _ => heights.length

def get (m : Metas) (i : Nat) : RowMeta :=
  match m with
  | .uniform _ p => p
  | .per heights rules => ⟨heights.getD i 0, rules.getD i 0⟩

/-- Append one row's provenance; the first row that differs from a uniform one copies it
out. -/
def push (m : Metas) (p : RowMeta) : Metas :=
  match m with
  | .uniform n q =>
    if n = 0 ∨ q = p then .uniform (n + 1) p
    else .per (List.replicate n q.height ++ [p.height]) (List.replicate n q.rule ++ [p.rule])
  | .per heights rules => .per (heights ++ [p.height]) (rules ++ [p.rule])

def shared : Metas → Option RowMeta
  | .uniform _ p => some p
  | .per _ _ => none

end Metas

structure Low where
  pos : Nat
  level : Tier
  prov : RowMeta
  deriving DecidableEq, Repr

/-- One sorted, duplicate-free batch in its index's permuted column order. -/
structure Batch where
  rows : List Handles
  metas : Metas
  ordinals : Option (List Nat)
  lows : List Low
  deriving DecidableEq, Repr

def lowPos (i : Nat) : Nat := min i 4294967295

/-- The first position past the items that satisfy `p`, which stand first. -/
def partitionPoint {α : Type} (p : α → Bool) (l : List α) : Nat := (l.takeWhile p).length

namespace Batch

def empty : Batch := ⟨[], .empty, none, []⟩

def len (b : Batch) : Nat := b.metas.len

def row (b : Batch) (i : Nat) : Handles := b.rows.getD i []

/-- Row `i`'s provenance at its own level, lows ignored. -/
def prov (b : Batch) (i : Nat) : RowMeta := b.metas.get i

/-- Row `i`'s lows, ascending by level. -/
def lowsOf (b : Batch) (i : Nat) : List Low :=
  (b.lows.drop (partitionPoint (fun l => l.pos < lowPos i) b.lows)).takeWhile fun l =>
    l.pos = lowPos i

/-- Row `i`'s provenance resolved at a level: its last low from a level up to it, else its
own. -/
def provAt (b : Batch) (i : Nat) (at' : Tier) : RowMeta :=
  match (b.lowsOf i).reverse.find? fun l => l.level ≤ at' with
  | some l => l.prov
  | none => b.prov i

def lower (b : Batch) (i : Nat) (level : Tier) (prov : RowMeta) : Batch :=
  let place := partitionPoint (fun l : Low => toLex (l.pos, l.level) < toLex (lowPos i, level)) b.lows
  let low : Low := ⟨lowPos i, level, prov⟩
  let same := match b.lows[place]? with
    | some l => decide (l.pos = lowPos i ∧ l.level = level)
    | none => false
  { b with lows := if same then b.lows.set place low else b.lows.insertIdx place low }

def ordinal (b : Batch) (i : Nat) : Nat :=
  match b.ordinals with
  | some o => o.getD i noOrdinal
  | none => noOrdinal

section Search

variable (b : Batch) (key : Handles)

/-- Row `i`'s first columns sort below `key`. -/
def below (i : Nat) : Bool := (b.row i).take key.length < key

def hasPrefix (i : Nat) : Bool := (b.row i).take key.length = key

/-- The first position in `lo..hi` not below `key`, given every row before `lo` is below it
and none from `hi` on is. -/
def search (lo hi : Nat) : Nat :=
  if lo < hi then
    let mid := lo + (hi - lo) / 2
    if b.below key mid then search (mid + 1) hi else search lo mid
  else lo
termination_by hi - lo

/-- The first row whose columns are not below `key`. -/
def lowerBound : Nat := b.search key 0 b.len

/-- Doubling steps, the next of `2 ^ k`: the last row met below `key`, and the first not. -/
def gallopSteps (lo k : Nat) : Nat × Nat :=
  let probe := lo + 2 ^ k
  if b.len ≤ probe then (lo, b.len)
  else if !b.below key probe then (lo, probe)
  else gallopSteps probe (k + 1)
termination_by b.len - lo
decreasing_by
  have := Nat.two_pow_pos k
  omega

/-- `lowerBound` when every row before `start` is below `key`: doubling steps from it, then a
binary search inside the last. -/
def gallop (start : Nat) : Nat :=
  if b.len ≤ start ∨ !b.below key start then start
  else b.search key ((b.gallopSteps key start 0).1 + 1) (b.gallopSteps key start 0).2

end Search

def pushFrom (b src : Batch) (i : Nat) : Batch where
  rows := b.rows ++ [src.row i]
  metas := b.metas.push (src.prov i)
  ordinals := b.ordinals.map fun o => o ++ [src.ordinal i]
  lows := b.lows ++ (src.lowsOf i).map fun l => { l with pos := lowPos b.len }

/-- A batch of rows given in sorted order; ordinals kept when any row has one. -/
def collect (rows : List (Handles × RowMeta × Nat)) : Batch where
  rows := rows.map fun r => r.1
  metas := rows.foldl (fun m r => m.push r.2.1) .empty
  ordinals :=
    if rows.any fun r => r.2.2 ≠ noOrdinal then some (rows.map fun r => r.2.2) else none
  lows := []

def permute (perm : List Nat) (row : Handles) : Handles := perm.map fun c => row.getD c 0

/-- This identity-order batch with its columns permuted and re-sorted; ordinals stay on the
identity index. -/
def permuted (b : Batch) (perm : List Nat) : Batch :=
  let order := (List.range b.len).insertionSort fun i j =>
    permute perm (b.row i) ≤ permute perm (b.row j)
  { rows := order.map fun i => permute perm (b.row i)
    metas := match b.metas.shared with
      | some p => .uniform b.len p
      | none => order.foldl (fun m i => m.push (b.prov i)) (.per [] [])
    ordinals := none
    lows := (order.zipIdx.map fun e =>
      (b.lowsOf e.1).map fun l => { l with pos := lowPos e.2 }).flatten }

def mergeInto (a b : Batch) (i j : Nat) (out : Batch) : Batch :=
  if i < a.len ∨ j < b.len then
    if b.len ≤ j ∨ (i < a.len ∧ a.row i < b.row j) then mergeInto a b (i + 1) j (out.pushFrom a i)
    else mergeInto a b i (j + 1) (out.pushFrom b j)
  else out
termination_by a.len - i + (b.len - j)

/-- The empty batch a merge fills: uniform while both are, at one provenance, and with an
ordinal column when either has one. -/
def mergeStart (a b : Batch) : Batch where
  rows := []
  metas :=
    if a.metas.shared.isSome ∧ a.metas.shared = b.metas.shared then .empty else .per [] []
  ordinals := if a.ordinals.isSome ∨ b.ordinals.isSome then some [] else none
  lows := []

def merge (a b : Batch) : Batch :=
  if a.len = 0 then b
  else if b.len = 0 then a
  else mergeInto a b 0 0 (mergeStart a b)

end Batch

/-- Merge a run into the trailing runs, newest first, while the earlier one is no more than
twice it. -/
def mergeRuns : List Batch → Batch → List Batch
  | [], run => [run]
  | last :: older, run =>
    if last.len ≤ 2 * run.len then mergeRuns older (last.merge run) else run :: last :: older

def pushRun (stable : List Batch) (run : Batch) : List Batch :=
  if run.len = 0 then stable else (mergeRuns stable.reverse run).reverse

/-- One level's rows in one index: the stable runs, oldest first, and the last round's. -/
structure Part where
  stable : List Batch
  recent : Batch
  deriving DecidableEq, Repr

namespace Part

def empty : Part := ⟨[], .empty⟩

def batches (p : Part) : List Batch := p.stable ++ [p.recent]

/-- The last round's rows become the newest stable run. -/
def advance (p : Part) : Part := ⟨pushRun p.stable p.recent, .empty⟩

def sealRuns (p : Part) : Part :=
  match p.stable.reverse with
  | newest :: older =>
    { p with stable := [older.foldl (fun acc earlier => earlier.merge acc) newest] }
  | [] => p

def permuted (p : Part) (perm : List Nat) : Part :=
  ⟨p.stable.map fun b => b.permuted perm, p.recent.permuted perm⟩

end Part

end Glia.Rules.Storage
