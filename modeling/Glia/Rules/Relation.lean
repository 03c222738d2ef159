import Glia.Rules.Source

/-! Relation storage for levelled semi-naive evaluation. A row is kept once, at its home
level, with a height for each level that reaches it in fewer steps; the sorted runs and the
indexes that hold the rows are the storage layer's. -/
namespace Glia.Rules

def edbRule : Nat := 65535

structure RowMeta where
  height : Nat
  rule : Nat
  deriving DecidableEq, Repr

def loaded : RowMeta := ⟨0, edbRule⟩

inductive Which where
  | stable
  | recent
  | both
  deriving DecidableEq, Repr

/-- What a scan sees: the levels `low..=high`, the batches `which`, heights strictly
below `maxHeight`, each row's height at level `heightAt` (its own level's when `none`), and
with `lowered` the copies of the rows lowered at those levels. -/
structure View where
  low : Nat
  high : Nat
  which : Which
  maxHeight : Option Nat
  heightAt : Option Tier
  lowered : Bool
  deriving DecidableEq, Repr

/-- A stored row: its home level and provenance there, the lower one of each level above
that has one, its witness edge, and whether the last round added it. -/
structure Entry where
  row : Row
  home : Tier
  own : RowMeta
  lows : List (Tier × RowMeta)
  ordinal : Nat
  recent : Bool
  deriving DecidableEq, Repr

structure LoweredCopy where
  level : Tier
  home : Tier
  row : Row
  prov : RowMeta
  recent : Bool
  deriving DecidableEq, Repr

structure Relation where
  arity : Nat
  rows : List Entry
  copies : List LoweredCopy
  deriving DecidableEq, Repr

structure Seen where
  row : Row
  tier : Tier
  prov : RowMeta
  ordinal : Nat
  deriving DecidableEq, Repr

structure Inserted where
  added : Nat
  lowered : Nat
  deriving DecidableEq, Repr

structure Candidate where
  row : Row
  prov : RowMeta
  deriving DecidableEq, Repr

def Which.reads (which : Which) (recent : Bool) : Bool :=
  match which with
  | .stable => !recent
  | .recent => recent
  | .both => true

namespace View

def sees (v : View) (level : Tier) (recent : Bool) : Bool :=
  decide (v.low ≤ level.level ∧ level.level ≤ v.high) && v.which.reads recent

def admitsHeight (v : View) (height : Nat) : Bool :=
  match v.maxHeight with
  | none => true
  | some h => height < h

/-- `levels` and `which`, every row at its own level's height. -/
def rows (low high : Nat) (which : Which) : View := ⟨low, high, which, none, none, false⟩

end View

namespace Entry

/-- The row's provenance resolved at `level`: its last low from a level up to it. -/
def provAt (e : Entry) (level : Tier) : RowMeta :=
  match e.lows.reverse.find? fun l => l.1 ≤ level with
  | some l => l.2
  | none => e.own

def lower (e : Entry) (level : Tier) (prov : RowMeta) : Entry :=
  { e with
    lows := e.lows.filter (fun l => l.1 < level) ++ (level, prov) ::
      e.lows.filter fun l => level < l.1 }

def seen (e : Entry) (v : View) : Seen :=
  ⟨e.row, e.home, e.provAt (v.heightAt.getD e.home), e.ordinal⟩

end Entry

namespace Relation

def new (arity : Nat) : Relation := ⟨arity, [], []⟩

/-- The last round's rows become stable. -/
def advance (rel : Relation) : Relation :=
  { rel with
    rows := rel.rows.map fun e => { e with recent := false }
    copies := rel.copies.map fun c => { c with recent := false } }

def sealed (rel : Relation) : Relation := rel.advance

def find (rel : Relation) (row : Row) : Option Entry := rel.rows.find? fun e => e.row == row

def contains (rel : Relation) (row : Row) : Option (Tier × RowMeta × Nat) :=
  (rel.find row).map fun e => (e.home, e.provAt e.home, e.ordinal)

def len (rel : Relation) : Nat := rel.rows.length

def recentLen (rel : Relation) : Nat :=
  (rel.rows.filter Entry.recent).length + (rel.copies.filter LoweredCopy.recent).length

def scan (rel : Relation) (view : View) : List Seen :=
  let rows := (rel.rows.filter fun e : Entry => view.sees e.home e.recent).map fun e => e.seen view
  let copies := (rel.copies.filter fun c : LoweredCopy => view.sees c.level c.recent).map fun c =>
    (⟨c.row, c.home, c.prov, noOrdinal⟩ : Seen)
  (rows ++ if view.lowered then copies else []).filter fun s => view.admitsHeight s.prov.height

/-- The row's columns in the order `perm` begin with `key`. -/
def hasPrefix (perm : List Nat) (key : List Value) (row : Row) : Bool :=
  (perm.take key.length).map (fun c => row[c]?) == key.map some

/-- Every row under `view` whose columns in the order `perm` begin with `key`. -/
def seek (rel : Relation) (perm : List Nat) (view : View) (key : List Value) : List Seen :=
  (rel.scan view).filter fun s => hasPrefix perm key s.row

def existsPrefix (rel : Relation) (perm : List Nat) (key : List Value) : Bool :=
  rel.rows.any fun e => hasPrefix perm key e.row

def loadOrder (a b : EdbRow × Nat) : Prop :=
  toLex (a.1.row, toLex (a.1.level, toLex (a.2, a.1.ordinal))) ≤
    toLex (b.1.row, toLex (b.1.level, toLex (b.2, b.1.ordinal)))

instance : DecidableRel loadOrder := fun _ _ => inferInstanceAs (Decidable (toLex _ ≤ toLex _))

/-- Load EDB, aggregate or scc rows as stable rows with their heights: a row given twice
keeps its best level, then its lowest height; a row already held is dropped. -/
def load (rel : Relation) (arity : Nat) (rows : List (EdbRow × Nat)) : Relation :=
  if arity ≠ rel.arity then rel
  else
    let fresh := (firstOf (fun r => r.1.row) (rows.insertionSort loadOrder)).filter fun r =>
      (rel.find r.1.row).isNone
    { rel with
      rows := rel.rows ++ fresh.map fun r =>
        ⟨r.1.row, r.1.level, ⟨r.2, edbRule⟩, [], r.1.ordinal, false⟩ }

def Candidate.order (a b : Candidate) : Prop :=
  toLex (a.row, toLex (a.prov.height, a.prov.rule)) ≤
    toLex (b.row, toLex (b.prov.height, b.prov.rule))

instance : DecidableRel Candidate.order := fun _ _ =>
  inferInstanceAs (Decidable (toLex _ ≤ toLex _))

/-- Each candidate row once, at its lowest height, then lowest rule. -/
def distinct (cands : List Candidate) : List Candidate :=
  firstOf Candidate.row (cands.insertionSort Candidate.order)

def lowers (rel : Relation) (level : Tier) (c : Candidate) : Option Entry :=
  (rel.find c.row).filter fun e => e.home ≤ level ∧ c.prov.height < (e.provAt level).height

def loweredTo (level : Tier) (cands : List Candidate) (e : Entry) : Entry :=
  match cands.find? fun c => c.row == e.row with
  | none => e
  | some c =>
    if e.home ≤ level ∧ c.prov.height < (e.provAt level).height then e.lower level c.prov else e

/-- One round at `level`: rows present at no level are added as the level's recent rows,
a row of this level or below whose height here is higher is lowered here, any other
present row is dropped. -/
def insertRound (rel : Relation) (level : Tier) (cands : List Candidate) : Relation × Inserted :=
  let rel := rel.advance
  let cands := distinct cands
  let fresh := cands.filter fun c => (rel.find c.row).isNone
  let copies := cands.filterMap fun c =>
    (rel.lowers level c).map fun e => (⟨level, e.home, c.row, c.prov, true⟩ : LoweredCopy)
  (⟨rel.arity,
    rel.rows.map (loweredTo level cands) ++
      fresh.map fun c => ⟨c.row, level, c.prov, [], noOrdinal, true⟩,
    rel.copies ++ copies⟩,
    ⟨fresh.length, copies.length⟩)

end Relation

end Glia.Rules
