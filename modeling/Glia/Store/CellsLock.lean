import Glia.CodeDomain.ExternalInputs
import Mathlib.Data.List.Sort
import Glia.Kit.Runs
import Mathlib.Logic.Function.Basic

/-! The rows of the cells sidecar and how a write changes them. -/
namespace Glia.Store

open Glia.ExternalInputs (EntryKey entryKey)

structure CellRow where
  qname : String
  kind : Option String := none
  hint : Option String := none
  cell : String
  entry : Json

/-- `(qname, cell, source, id)`: what a row is upserted and sorted by. -/
abbrev RowKey := String ×ₗ String ×ₗ EntryKey

def rowKey (r : CellRow) : RowKey := toLex (r.qname, toLex (r.cell, entryKey r.entry))

namespace Sidecar

/-- Replace the row with this one's key, else add it. -/
def upsert (rows : List CellRow) (row : CellRow) : List CellRow :=
  (rows.filter fun r => rowKey r ≠ rowKey row) ++ [row]

def take (rows : List CellRow) (key : RowKey) : Option (CellRow × List CellRow) :=
  (rows.find? fun r => rowKey r == key).map fun row =>
    (row, rows.eraseP fun r => rowKey r == key)

def sorted (rows : List CellRow) : List CellRow :=
  rows.insertionSort fun a b => rowKey a ≤ rowKey b

end Sidecar

inductive Commit where
  | stored (row : CellRow)
  | removed (key : RowKey)

namespace Commit

def key : Commit → RowKey
  | stored row => rowKey row
  | removed key => key

/-- The file's rows after the save. -/
def apply : Commit → List CellRow → List CellRow
  | stored row, rows => Sidecar.sorted (Sidecar.upsert rows row)
  | removed key, rows => Sidecar.sorted (rows.eraseP fun r => rowKey r == key)

theorem mem_stored {rows : List CellRow} {row r : CellRow} :
    r ∈ (stored row).apply rows ↔ r ∈ rows ∧ rowKey r ≠ rowKey row ∨ r = row := by
  rw [apply, Sidecar.sorted, List.mem_insertionSort, Sidecar.upsert, List.mem_append,
    List.mem_filter, List.mem_singleton, decide_eq_true_iff]

theorem mem_apply {c : Commit} {rows : List CellRow} {r : CellRow} (mem : r ∈ rows)
    (apart : rowKey r ≠ c.key) : r ∈ c.apply rows := by
  cases c with
  | stored row => exact mem_stored.mpr (.inl ⟨mem, apart⟩)
  | removed key =>
    rw [apply, Sidecar.sorted, List.mem_insertionSort]
    apply (List.mem_eraseP_of_neg _).mpr mem
    rw [beq_iff_eq]
    exact apart

theorem stored_mem {later : List Commit} {row : CellRow} (rows : List CellRow)
    (apart : ∀ c ∈ later, c.key ≠ rowKey row) :
    row ∈ (stored row :: later).foldl (fun rows c => c.apply rows) rows := by
  have kept : ∀ rows, row ∈ rows → row ∈ later.foldl (fun rows c => c.apply rows) rows := by
    induction later with
    | nil => exact fun _ mem => mem
    | cons c later ih =>
      rw [List.forall_mem_cons] at apart
      intro rows mem
      exact ih apart.2 _ (mem_apply mem apart.1.symm)
  exact kept _ (mem_stored.mpr (.inr rfl))

end Commit

end Glia.Store

/-! The lock file of the sidecar's writers: any number of processes, step by step. -/
namespace Glia.Store

def lockTries : Nat := 20

/-- Nanoseconds after which a lock is a crashed writer's. -/
def lockStaleAfter : Nat := 30 * 10 ^ 9

structure LockFile (P : Type) where
  owner : Option P
  made : Nat
  deriving DecidableEq

/-- What one call does under the lock: a write makes its row from the rows it reads. -/
inductive Job where
  | write (row : List CellRow → Option CellRow)
  | remove (key : RowKey)
  | vectors

/-- What a call saves, given the rows it read; none when it saves nothing in the cells file. -/
def Job.commit : Job → List CellRow → Option Commit
  | write row, rows => (row rows).map .stored
  | remove key, rows => (Sidecar.take rows key).map fun _ => .removed key
  | vectors, _ => none

/-- How far a call is between taking the lock and dropping it. -/
inductive Stage where
  | entered
  | loaded (rows : List CellRow)
  | saved

inductive Phase (P : Type) where
  | idle
  | trying (job : Job) (attempt : Nat)
  | checking (job : Job) (attempt : Nat)
  | removing (job : Job) (attempt : Nat) (judged : LockFile P)
  | holding (job : Job) (since : Nat) (stage : Stage)
  | crashed

def Phase.isHolding {P : Type} : Phase P → Bool
  | holding .. => true
  | _ => false

structure World (P : Type) where
  now : Nat
  lock : Option (LockFile P)
  phase : P → Phase P
  cells : List CellRow
  commits : List Commit

inductive Act (P : Type) where
  | tick (d : Nat)
  | start (p : P) (job : Job)
  | create (p : P)
  | check (p : P)
  | remove (p : P)
  | load (p : P)
  | save (p : P)
  | drop (p : P)
  | crash (p : P)

namespace World
variable {P : Type} [DecidableEq P]

def set (w : World P) (p : P) (phase : Phase P) : World P :=
  { w with phase := Function.update w.phase p phase }

/-- The attempt after this one, or the call gives up. -/
def retry (job : Job) (attempt : Nat) : Phase P :=
  if attempt + 1 < lockTries then .trying job (attempt + 1) else .idle

def step (w : World P) : Act P → Option (World P)
  | .tick d => some { w with now := w.now + d }
  | .start p job =>
    match w.phase p with
    | .idle => some (w.set p (.trying job 0))
    | _ => none
  | .create p =>
    match w.phase p with
    | .trying job attempt =>
      match w.lock with
      | none => some { w.set p (.holding job w.now .entered) with lock := some ⟨some p, w.now⟩ }
      | some _ => some (w.set p (.checking job attempt))
    | _ => none
  | .check p =>
    match w.phase p with
    | .checking job attempt =>
      match w.lock with
      | some l =>
        if lockStaleAfter < w.now - l.made then some (w.set p (.removing job attempt l))
        else some (w.set p (retry job attempt))
      | none => some (w.set p (retry job attempt))
    | _ => none
  | .remove p =>
    match w.phase p with
    -- The path is removed, whatever file it names by now.
    | .removing job attempt _ => some { w.set p (retry job attempt) with lock := none }
    | _ => none
  | .load p =>
    match w.phase p with
    | .holding job since .entered => some (w.set p (.holding job since (.loaded w.cells)))
    | _ => none
  | .save p =>
    match w.phase p with
    | .holding job since (.loaded rows) =>
      match job.commit rows with
      | some c => some { w.set p (.holding job since .saved) with
          cells := c.apply rows, commits := w.commits ++ [c] }
      | none => some (w.set p (.holding job since .saved))
    | _ => none
  | .drop p =>
    match w.phase p with
    | .holding .. => some { w.set p .idle with lock := none }
    | _ => none
  | .crash p => some (w.set p .crashed)

/-- No process is in a call; a lock file may be left from before. -/
structure Initial (w : World P) : Prop where
  idle : ∀ p, w.phase p = .idle
  left : ∀ l, w.lock = some l → l.owner = none
  commits : w.commits = []

/-- Time does not pass while a live writer would hold the lock for too long. -/
def Timely (w : World P) : Act P → Prop
  | .tick d => ∀ p job since stage, w.phase p = .holding job since stage →
      w.now + d - since < lockStaleAfter
  | _ => True

/-- A stale lock's removal does not fall on another lock file, which a live writer holds. -/
def Rechecked (w : World P) : Act P → Prop
  | .remove p => ∀ job attempt judged, w.phase p = .removing job attempt judged →
      ∀ l, w.lock = some l → l ≠ judged → ∀ q, l.owner = some q → (w.phase q).isHolding = false
  | _ => True

/-- At most one process is between take and drop. -/
def Exclusive (w : World P) : Prop :=
  ∀ p q, (w.phase p).isHolding → (w.phase q).isHolding → p = q

/-- Every row saved is in the file, unless a later save was of its key. -/
def Kept (w : World P) : Prop :=
  ∀ before row later, w.commits = before ++ .stored row :: later →
    (∀ c ∈ later, c.key ≠ rowKey row) → row ∈ w.cells

end World

end Glia.Store
