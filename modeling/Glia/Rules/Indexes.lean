import Glia.Kit.Dedup
import Glia.Rules.Batches

/-! A relation as its indexes: every index keeps its own copy of the rows, columns permuted,
in a partition for each level, and copies of the rows lowered at each level. -/
namespace Glia.Rules.Storage

/-- One index: its permutation, each level's rows and, by level and home level, the copies
of the rows lowered there. -/
structure Index where
  perm : List Nat
  parts : Tier → Part
  lowered : Tier → Tier → Part

structure Relation where
  arity : Nat
  identity : Index
  others : List Index
  len : Nat

structure EdbRows where
  arity : Nat
  handles : List Nat
  levels : List Tier
  ordinals : List Nat
  deriving DecidableEq, Repr

structure Loaded where
  row : Handles
  level : Tier
  height : Nat
  ordinal : Nat
  deriving DecidableEq, Repr

structure Candidate where
  row : Handles
  prov : RowMeta
  deriving DecidableEq, Repr

def rowCount (arity handles rows : Nat) : Nat :=
  if arity = 0 then rows else min rows (handles / arity)

def flatRow (arity : Nat) (handles : List Nat) (i : Nat) : Handles :=
  (handles.drop (i * arity)).take arity

def isPerm (perm : List Nat) (arity : Nat) : Bool :=
  decide (perm.length = arity ∧ perm.Nodup ∧ ∀ c ∈ perm, c < arity)

namespace Index

def empty (perm : List Nat) : Index := ⟨perm, fun _ => .empty, fun _ _ => .empty⟩

def advance (ix : Index) : Index :=
  { ix with
    parts := fun l => (ix.parts l).advance
    lowered := fun l home => (ix.lowered l home).advance }

/-- The stratum is done: one stable run a part. -/
def sealRuns (ix : Index) : Index :=
  { ix with
    parts := fun l => (ix.parts l).sealRuns
    lowered := fun l home => (ix.lowered l home).sealRuns }

def permuted (ix : Index) (perm : List Nat) : Index where
  perm := perm
  parts := fun l => (ix.parts l).permuted perm
  lowered := fun l home => (ix.lowered l home).permuted perm

def store (ix : Index) (level : Tier) (batch : Batch) (recent : Bool) : Index :=
  let part := ix.parts level
  { ix with
    parts := Function.update ix.parts level
      (if recent then { part with recent := batch }
      else { part with stable := pushRun part.stable batch }) }

/-- Every batch of every level, level by level, stable runs first. -/
def batches (ix : Index) : List Batch := Tier.all.flatMap fun l => (ix.parts l).batches

end Index

/-- Drop the items whose row is in the batch, one galloping pass over both. -/
def retainAbsent {α : Type} (b : Batch) (row : α → Handles) : Nat → List α → List α
  | _, [] => []
  | pos, a :: rest =>
    let p := b.gallop (row a) pos
    if p < b.len ∧ b.row p = row a then retainAbsent b row p rest
    else a :: retainAbsent b row p rest

/-- `retainAbsent` for a round: also the dropped candidates of a home level up to `level` whose
height there is higher than theirs. -/
def retainLowering (b : Batch) (home level : Tier) :
    Nat → List Candidate → List Candidate × List (Candidate × Tier)
  | _, [] => ([], [])
  | pos, c :: rest =>
    let p := b.gallop c.row pos
    let later := retainLowering b home level p rest
    if p < b.len ∧ b.row p = c.row then
      if home ≤ level ∧ c.prov.height < (b.provAt p level).height then
        (later.1, (c, home) :: later.2)
      else later
    else (c :: later.1, later.2)

def lowerIn (row : Handles) (level : Tier) (prov : RowMeta) : List Batch → List Batch
  | [] => []
  | b :: rest =>
    let p := b.lowerBound row
    if p < b.len ∧ b.row p = row then b.lower p level prov :: rest
    else b :: lowerIn row level prov rest

/-- Lower the row in a partition: its stable runs, then the last round's. -/
def Part.lower (part : Part) (row : Handles) (level : Tier) (prov : RowMeta) : Part :=
  match (lowerIn row level prov part.batches).reverse with
  | recent :: stable => ⟨stable.reverse, recent⟩
  | [] => part

def Index.lowerRow (ix : Index) (level : Tier) (c : Candidate × Tier) : Index :=
  { ix with
    parts := Function.update ix.parts c.2
      ((ix.parts c.2).lower (Batch.permute ix.perm c.1.row) level c.1.prov) }

def Index.keepCopies (ix : Index) (level home : Tier) (batch : Batch) : Index :=
  { ix with
    lowered := Function.update ix.lowered level
      (Function.update (ix.lowered level) home
        { ix.lowered level home with recent := batch }) }

namespace Relation

def new (arity : Nat) (perms : List (List Nat)) : Relation :=
  let identity := (List.range arity).map fun c => min c 255
  let step (others : List Index) (p : List Nat) : List Index :=
    if p = identity ∨ others.any (fun ix => ix.perm = p) ∨ !isPerm p arity then others
    else others ++ [.empty p]
  ⟨arity, .empty identity, perms.foldl step [], 0⟩

def indexes (rel : Relation) : List Index := rel.identity :: rel.others

def indexOf (rel : Relation) (perm : List Nat) : Option Nat :=
  let i := rel.indexes.findIdx fun ix => ix.perm = perm
  if i < rel.indexes.length then some i else none

def ensureIndex (rel : Relation) (perm : List Nat) : Relation × Option Nat :=
  match rel.indexOf perm with
  | some i => (rel, some i)
  | none =>
    if !isPerm perm rel.arity then (rel, none)
    else
      let others := rel.others ++ [rel.identity.permuted perm]
      ({ rel with others := others }, some others.length)

def store (rel : Relation) (level : Tier) (batch : Batch) (recent : Bool) : Relation :=
  { rel with
    identity := rel.identity.store level batch recent
    others := rel.others.map fun ix => ix.store level (batch.permuted ix.perm) recent
    len := rel.len + batch.len }

def dropPresent {α : Type} (rel : Relation) (row : α → Handles) (items : List α) : List α :=
  rel.identity.batches.foldl (fun items b => retainAbsent b row 0 items) items

def loadOrder (a b : Loaded) : Prop :=
  toLex (a.row, toLex (a.level, toLex (a.height, a.ordinal))) ≤
    toLex (b.row, toLex (b.level, toLex (b.height, b.ordinal)))

instance : DecidableRel loadOrder := fun _ _ => inferInstanceAs (Decidable (toLex _ ≤ toLex _))

def given (rows : EdbRows) (heights : Option (List Nat)) : List Loaded :=
  (List.range (rowCount rows.arity rows.handles.length rows.levels.length)).map fun i =>
    ⟨flatRow rows.arity rows.handles i, rows.levels.getD i .fact,
      (heights.bind fun h => h[i]?).getD 0, rows.ordinals.getD i noOrdinal⟩

/-- Load rows as stable runs, one per level they name: a row given twice keeps its best level,
then its lowest height; a row the relation already holds is dropped. -/
def load (rel : Relation) (rows : EdbRows) (heights : Option (List Nat)) : Relation × Nat :=
  if rows.arity ≠ rel.arity then (rel, 0)
  else
    let order := rel.dropPresent Loaded.row
      (Kit.dedupBy Loaded.row ((given rows heights).insertionSort loadOrder))
    Tier.all.foldl (fun acc level =>
      let picked := order.filter fun r => r.level = level
      let batch := Batch.collect (picked.map fun r => (r.row, ⟨r.height, edbRule⟩, r.ordinal))
      (acc.1.store level batch false, acc.2 + batch.len)) (rel, 0)

/-- Every part's last round becomes its newest stable run. -/
def advance (rel : Relation) : Relation :=
  { rel with identity := rel.identity.advance, others := rel.others.map Index.advance }

/-- The stratum is done: advance, then merge every part to one stable run. -/
def sealRuns (rel : Relation) : Relation :=
  { rel with
    identity := rel.identity.advance.sealRuns
    others := rel.others.map fun ix => ix.advance.sealRuns }

def roundOrder (a b : Candidate) : Prop :=
  toLex (a.row, toLex (a.prov.height, a.prov.rule)) ≤
    toLex (b.row, toLex (b.prov.height, b.prov.rule))

instance : DecidableRel roundOrder := fun _ _ => inferInstanceAs (Decidable (toLex _ ≤ toLex _))

def candidates (arity : Nat) (toAdd : List Nat) (metas : List RowMeta) : List Candidate :=
  (List.range (rowCount arity toAdd.length metas.length)).map fun i =>
    ⟨flatRow arity toAdd i, metas.getD i loaded⟩

def dropLowering (rel : Relation) (level : Tier) (cands : List Candidate) :
    List Candidate × List (Candidate × Tier) :=
  let walk (acc : List Candidate × List (Candidate × Tier)) (home : Tier) (b : Batch) :=
    let found := retainLowering b home level 0 acc.1
    (found.1, acc.2 ++ found.2)
  let all := Tier.all.foldl (fun acc home =>
    (rel.identity.parts home).batches.foldl (fun acc b => walk acc home b) acc) (cands, [])
  (all.1, all.2.insertionSort fun a b => a.1.row ≤ b.1.row)

/-- Lower each row at a level: a low on it in every index, and its copy as the last round's
of that level and its home. -/
def lowerRows (rel : Relation) (level : Tier) (lower : List (Candidate × Tier)) : Relation :=
  let lowerAll (ix : Index) : Index := lower.foldl (fun ix c => ix.lowerRow level c) ix
  let copied : Relation :=
    { rel with identity := lowerAll rel.identity, others := rel.others.map lowerAll }
  Tier.all.foldl (fun rel home =>
    let picked := lower.filter fun c => c.2 = home
    if picked.isEmpty then rel
    else
      let batch := Batch.collect (picked.map fun c => (c.1.row, c.1.prov, noOrdinal))
      { rel with
        identity := rel.identity.keepCopies level home batch
        others := rel.others.map fun ix => ix.keepCopies level home (batch.permuted ix.perm) })
    copied

/-- One round at a level: the rows present at no level are its last round's, a row of this
level or below whose height here is higher is lowered here, any other present row is
dropped. -/
def insertRound (rel : Relation) (level : Tier) (toAdd : List Nat) (metas : List RowMeta) :
    Relation × Inserted :=
  let rel := rel.advance
  let found := rel.dropLowering level
    (Kit.dedupBy Candidate.row ((candidates rel.arity toAdd metas).insertionSort roundOrder))
  let rel := if found.2.isEmpty then rel else rel.lowerRows level found.2
  let batch := Batch.collect (found.1.map fun c => (c.row, c.prov, noOrdinal))
  (rel.store level batch true, ⟨batch.len, found.2.length⟩)

end Relation

inductive Op where
  | load (rows : EdbRows) (heights : Option (List Nat))
  | insertRound (level : Tier) (toAdd : List Nat) (metas : List RowMeta)
  | advance
  | sealRuns
  | ensureIndex (perm : List Nat)
  deriving DecidableEq, Repr

def Relation.apply (rel : Relation) : Op → Relation
  | .load rows heights => (rel.load rows heights).1
  | .insertRound level toAdd metas => (rel.insertRound level toAdd metas).1
  | .advance => rel.advance
  | .sealRuns => rel.sealRuns
  | .ensureIndex perm => (rel.ensureIndex perm).1

def Relation.run (arity : Nat) (perms : List (List Nat)) (ops : List Op) : Relation :=
  ops.foldl Relation.apply (.new arity perms)

end Glia.Rules.Storage
