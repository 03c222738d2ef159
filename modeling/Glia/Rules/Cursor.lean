import Glia.Rules.Indexes
import Glia.Rules.IndexesExact

/-! Reading an index: scans of a view, and a cursor whose lookups by key prefix gallop on from
the last one's positions. -/
namespace Glia.Rules.Storage

/-- What a scan or cursor sees: the levels `low..=high` (none when `high < low`), the batches
`which` picks in each, heights strictly below `maxHeight` at level `heightAt` (at a row's own
level when `none`), and with `lowered` the copies of the rows lowered at those levels. -/
structure View where
  low : Nat
  high : Nat
  which : Which
  maxHeight : Option Nat
  heightAt : Option Nat
  lowered : Bool
  deriving DecidableEq, Repr

structure Seen where
  row : Handles
  tier : Tier
  prov : RowMeta
  ordinal : Nat
  deriving DecidableEq, Repr

/-- Row `i`'s provenance resolved at any level number: its last low from a level up to it,
else its own. -/
def Batch.metaAt (b : Batch) (i : Nat) (level : Nat) : RowMeta :=
  match (b.lowsOf i).reverse.find? fun l => l.level.level ≤ level with
  | some l => l.prov
  | none => b.prov i

/-- Row `i` of a batch as a view shows it, if its height there is below the view's bound. -/
def Batch.visit (b : Batch) (tier : Tier) (maxHeight heightAt : Option Nat) (i : Nat) :
    Option Seen :=
  let prov := b.metaAt i (heightAt.getD tier.level)
  if maxHeight.all fun h => prov.height < h then some ⟨b.row i, tier, prov, b.ordinal i⟩ else none

/-- The batches of a partition that `which` picks: stable runs oldest first, then a non-empty
recent one. -/
def pick (part : Part) (tier : Tier) (which : Which) : List (Batch × Tier) :=
  (if which.reads false then part.stable.map fun b => (b, tier) else []) ++
    if which.reads true ∧ 0 < part.recent.len then [(part.recent, tier)] else []

def View.levels (view : View) : List Tier :=
  Tier.all.filter fun l => view.low ≤ l.level ∧ l.level ≤ view.high

namespace Relation

/-- The batches of an index that a view selects, with their levels; the lowered copies come
last, tagged with their home. -/
def selected (rel : Relation) (index : Nat) (view : View) : List (Batch × Tier) :=
  match rel.indexes[index]? with
  | none => []
  | some ix =>
    (view.levels.flatMap fun l => pick (ix.parts l) l view.which) ++
      if view.lowered then
        view.levels.flatMap fun l => Tier.all.flatMap fun h => pick (ix.lowered l h) h view.which
      else []

def scan (rel : Relation) (index : Nat) (view : View) : List Seen :=
  (rel.selected index view).flatMap fun e =>
    (List.range e.1.len).filterMap (e.1.visit e.2 view.maxHeight view.heightAt)

end Relation

/-- A run a cursor reads: the batch, its level and the lower bound of the last key. -/
structure Run where
  batch : Batch
  tier : Tier
  pos : Nat
  deriving DecidableEq, Repr

/-- Lookups by key prefix over one index under one view. -/
structure Cursor where
  arity : Nat
  runs : List Run
  maxHeight : Option Nat
  heightAt : Option Nat
  last : Handles
  started : Bool
  deriving DecidableEq, Repr

def Relation.cursor (rel : Relation) (index : Nat) (view : View) : Cursor where
  arity := rel.arity
  runs := (rel.selected index view).map fun e => ⟨e.1, e.2, 0⟩
  maxHeight := view.maxHeight
  heightAt := view.heightAt
  last := []
  started := false

/-- The rows from `i` on that start with `key`, up to the first that does not. -/
def Batch.visitFrom (b : Batch) (tier : Tier) (maxHeight heightAt : Option Nat) (key : Handles)
    (i : Nat) : List Seen :=
  if i < b.len ∧ b.hasPrefix key i then
    (b.visit tier maxHeight heightAt i).toList ++ b.visitFrom tier maxHeight heightAt key (i + 1)
  else []
termination_by b.len - i

/-- Move a run to a key: a key not below the last one gallops on, any other binary searches. -/
def Run.move (run : Run) (forward : Bool) (key : Handles) : Run :=
  { run with
    pos := if forward then run.batch.gallop key run.pos else run.batch.lowerBound key }

namespace Cursor

/-- Every row whose permuted prefix is `key`; none when `key` is longer than a row. -/
def seek (c : Cursor) (key : Handles) : Cursor × List Seen :=
  if c.arity < key.length then (c, [])
  else
    let forward := c.started && c.last ≤ key
    let runs := c.runs.map fun run => run.move forward key
    ({ c with runs := runs, last := key, started := true },
      runs.flatMap fun run => run.batch.visitFrom run.tier c.maxHeight c.heightAt key run.pos)

def seekAll : Cursor → List Handles → List (List Seen)
  | _, [] => []
  | c, key :: rest => (c.seek key).2 :: seekAll (c.seek key).1 rest

end Cursor

end Glia.Rules.Storage

/-! Galloping lookups agree with a filter of the scan: each run stands at the lower bound of
the last key, and the rows a prefix starts are consecutive from its lower bound. -/
namespace Glia.Rules.Storage

open Batch

variable {arity : Nat} {b : Batch} {key last : Handles}

section Prefix

theorem take_le (n : Nat) (x : Handles) : x.take n ≤ x := by
  induction n generalizing x with
  | zero =>
    cases x with
    | nil => exact le_rfl
    | cons a x => exact le_of_lt List.Lex.nil
  | succ n ih =>
    cases x with
    | nil => exact le_rfl
    | cons a x =>
      rw [List.take_succ_cons]
      rcases (ih x).eq_or_lt with eq | lt
      · rw [eq]
      · exact le_of_lt (List.Lex.cons lt)

theorem below_later (le : last ≤ key) {i : Nat} (under : b.below last i = true) :
    b.below key i = true := by
  rw [below_iff] at under ⊢
  have row : b.row i < last := by
    apply lt_of_take_lt last.length
    rw [List.take_length]
    exact under
  exact (take_le _ _).trans_lt (row.trans_le le)

theorem hasPrefix_iff (b : Batch) (key : Handles) (i : Nat) :
    b.hasPrefix key i = true ↔ key <+: b.row i := by
  rw [hasPrefix, decide_eq_true_iff, List.prefix_iff_eq_take]
  exact eq_comm

theorem Batch.Ordered.gallop_later (h : Ordered arity b) {pos : Nat} (bound : IsBound b last pos)
    (le : last ≤ key) : IsBound b key (b.gallop key pos) :=
  h.gallop_bound bound.le fun i lt => below_later le (bound.before i lt)

theorem Batch.IsBound.not_prefix {pos : Nat} (bound : IsBound b key pos) {i : Nat} (lt : i < pos) :
    b.hasPrefix key i = false := by
  have under := (below_iff b key i).mp (bound.before i lt)
  rw [hasPrefix, decide_eq_false_iff_not]
  exact under.ne

theorem Batch.Ordered.no_later_prefix (h : Ordered arity b) {i j : Nat} (le : i ≤ j) (lt : j < b.len)
    (beyond : b.below key i = false) (other : b.hasPrefix key i = false) :
    b.hasPrefix key j = false := by
  rw [hasPrefix, decide_eq_false_iff_not] at other ⊢
  have above : key < (b.row i).take key.length := by
    have notLt : ¬ (b.row i).take key.length < key := by
      rw [← below_iff, beyond]
      exact Bool.false_ne_true
    exact lt_of_le_of_ne (not_lt.mp notLt) fun eq => other eq.symm
  exact (above.trans_le (take_le_take key.length (h.row_le le lt))).ne'

variable (tier : Tier) (maxHeight heightAt : Option Nat)

theorem visit_row {tier : Tier} {maxHeight heightAt : Option Nat} {i : Nat} {s : Seen}
    (eq : b.visit tier maxHeight heightAt i = some s) : s.row = b.row i := by
  unfold visit at eq
  dsimp only at eq
  split at eq
  · cases eq
    rfl
  · cases eq

theorem Batch.Ordered.visitFrom_eq (h : Ordered arity b) {i : Nat}
    (beyond : ∀ j, i ≤ j → j < b.len → b.below key j = false) :
    b.visitFrom tier maxHeight heightAt key i =
      ((List.range' i (b.len - i)).filter fun j => b.hasPrefix key j).filterMap
        (b.visit tier maxHeight heightAt) := by
  fun_induction visitFrom b tier maxHeight heightAt key i with
  | case1 i here ih =>
    obtain ⟨lt, starts⟩ := here
    have count : b.len - i = b.len - (i + 1) + 1 := by omega
    rw [ih fun j le => beyond j (by omega), count, List.range'_succ, List.filter_cons_of_pos starts,
      List.filterMap_cons]
    cases b.visit tier maxHeight heightAt i <;> rfl
  | case2 i stop =>
    have none : (List.range' i (b.len - i)).filter (fun j => b.hasPrefix key j) = [] := by
      rw [List.filter_eq_nil_iff]
      intro j mem
      rw [List.mem_range'_1] at mem
      have lt : i < b.len := by omega
      have other : b.hasPrefix key i = false := by
        by_contra starts
        exact stop ⟨lt, by simpa using starts⟩
      rw [h.no_later_prefix mem.1 (by omega) (beyond i le_rfl lt) other]
      exact Bool.false_ne_true
    rw [none]
    rfl

theorem Batch.Ordered.visitFrom_bound (h : Ordered arity b) {pos : Nat} (bound : IsBound b key pos) :
    b.visitFrom tier maxHeight heightAt key pos =
      ((List.range b.len).filterMap (b.visit tier maxHeight heightAt)).filter
        fun s => key <+: s.row := by
  have split : List.range b.len = List.range pos ++ List.range' pos (b.len - pos) := by
    have parts := @List.range'_append_1 0 pos (b.len - pos)
    rw [Nat.zero_add, Nat.add_sub_cancel' bound.le] at parts
    rw [List.range_eq_range', List.range_eq_range', parts]
  have skipped : (List.range pos).filter (fun j => b.hasPrefix key j) = [] := by
    rw [List.filter_eq_nil_iff]
    intro j mem
    rw [bound.not_prefix (List.mem_range.mp mem)]
    exact Bool.false_ne_true
  have kept : (List.range b.len).filter (fun j => b.hasPrefix key j) =
      (List.range' pos (b.len - pos)).filter fun j => b.hasPrefix key j := by
    rw [split, List.filter_append, skipped, List.nil_append]
  rw [h.visitFrom_eq tier maxHeight heightAt bound.after, ← kept, List.filter_filterMap,
    List.filterMap_filter]
  apply List.filterMap_congr
  intro j _
  have starts := hasPrefix_iff b key j
  cases eq : b.visit tier maxHeight heightAt j with
  | none => cases b.hasPrefix key j <;> rfl
  | some s =>
    rw [← visit_row eq] at starts
    by_cases here : key <+: s.row
    · rw [if_pos (starts.mpr here), Option.filter_some, if_pos (by simpa using here)]
    · rw [if_neg (fun there => here (starts.mp there)), Option.filter_some,
        if_neg (by simpa using here)]

end Prefix

section Seek

structure CursorOk (arity : Nat) (batches : List (Batch × Tier)) (c : Cursor) : Prop where
  arity_eq : c.arity = arity
  runs : c.runs.map (fun run => (run.batch, run.tier)) = batches
  ordered : ∀ run ∈ c.runs, Ordered arity run.batch
  bound : c.started = true → ∀ run ∈ c.runs, IsBound run.batch c.last run.pos

variable {batches : List (Batch × Tier)} {c : Cursor}

def matching (batches : List (Batch × Tier)) (maxHeight heightAt : Option Nat) (key : Handles) :
    List Seen :=
  (batches.flatMap fun e =>
    (List.range e.1.len).filterMap (e.1.visit e.2 maxHeight heightAt)).filter
      fun s => key <+: s.row

theorem Run.move_bound {run : Run} (ordered : Ordered arity run.batch) {forward : Bool}
    (bound : forward = true → IsBound run.batch last run.pos) (le : forward = true → last ≤ key) :
    IsBound run.batch key (run.move forward key).pos := by
  cases forward with
  | true => exact ordered.gallop_later (bound rfl) (le rfl)
  | false => exact ordered.lowerBound_bound key

/-- One seek visits the filter of the scan and leaves each run at its key's bound. -/
theorem CursorOk.seek (h : CursorOk arity batches c) (key : Handles) :
    CursorOk arity batches (c.seek key).1 ∧ (c.seek key).1.maxHeight = c.maxHeight ∧
      (c.seek key).1.heightAt = c.heightAt ∧
      (c.seek key).2 = matching batches c.maxHeight c.heightAt key := by
  unfold Cursor.seek
  split
  · rename_i long
    refine ⟨h, rfl, rfl, ?_⟩
    -- no row is as long as the key
    symm
    rw [matching, List.filter_eq_nil_iff]
    intro s mem starts
    obtain ⟨e, there, visited⟩ := List.mem_flatMap.mp mem
    obtain ⟨i, inside, seen⟩ := List.mem_filterMap.mp visited
    rw [← h.runs] at there
    obtain ⟨run, among, rfl⟩ := List.mem_map.mp there
    have ordered := h.ordered run among
    have wide := ordered.wide _ (ordered.row_mem (List.mem_range.mp inside))
    have short := (of_decide_eq_true starts).length_le
    rw [visit_row seen, wide, ← h.arity_eq] at short
    omega
  · have moved : ∀ run ∈ c.runs,
        IsBound run.batch key (run.move (c.started && c.last ≤ key) key).pos := by
      intro run mem
      apply Run.move_bound (h.ordered run mem)
      · intro forward
        rw [Bool.and_eq_true] at forward
        exact h.bound forward.1 run mem
      · intro forward
        rw [Bool.and_eq_true, decide_eq_true_iff] at forward
        exact forward.2
    refine ⟨⟨h.arity_eq, ?_, ?_, ?_⟩, rfl, rfl, ?_⟩
    · rw [← h.runs, List.map_map]
      rfl
    · intro run mem
      obtain ⟨old, there, rfl⟩ := List.mem_map.mp mem
      exact h.ordered old there
    · intro _ run mem
      obtain ⟨old, there, rfl⟩ := List.mem_map.mp mem
      exact moved old there
    · dsimp only
      rw [matching, ← h.runs, List.flatMap_map, List.flatMap_map, List.filter_flatMap]
      apply List.flatMap_congr
      intro run mem
      exact (h.ordered run mem).visitFrom_bound run.tier c.maxHeight c.heightAt (moved run mem)

theorem CursorOk.seekAll (h : CursorOk arity batches c) (keys : List Handles) :
    c.seekAll keys = keys.map (matching batches c.maxHeight c.heightAt) := by
  induction keys generalizing c with
  | nil => rfl
  | cons key rest ih =>
    obtain ⟨next, height, level, seen⟩ := h.seek key
    rw [Cursor.seekAll, List.map_cons, seen, ih next, height, level]

end Seek

section Selected

variable {rel : Relation}

theorem Coherent.selected (h : Coherent rel) (index : Nat) (view : View) :
    ∀ e ∈ rel.selected index view, Ordered rel.arity e.1 := by
  have picked : ∀ {part : Part} {tier : Tier} {which : Which}, PartOk rel.arity part →
      ∀ e ∈ pick part tier which, Ordered rel.arity e.1 := by
    intro part tier which ok e mem
    rcases List.mem_append.mp mem with stable | recent
    · split at stable
      · obtain ⟨b, there, rfl⟩ := List.mem_map.mp stable
        exact ok.stable b there
      · cases stable
    · split at recent
      · rw [List.mem_singleton.mp recent]
        exact ok.recent
      · cases recent
  unfold Relation.selected
  split
  · simp
  · rename_i ix at'
    have mem : ix ∈ rel.indexes := List.mem_of_getElem? at'
    have ok : IndexOk rel.arity ix := by
      rcases List.mem_cons.mp mem with rfl | other
      · exact h.identity
      · rw [← (isPerm_iff.mp (h.perms ix other)).1]
        exact h.others ix other
    intro e there
    rcases List.mem_append.mp there with own | copies
    · obtain ⟨l, _, here⟩ := List.mem_flatMap.mp own
      exact picked (ok.parts l) e here
    · split at copies
      · obtain ⟨l, _, here⟩ := List.mem_flatMap.mp copies
        obtain ⟨home, _, here⟩ := List.mem_flatMap.mp here
        exact picked (ok.lowered l home) e here
      · cases copies

theorem Coherent.cursor (h : Coherent rel) (index : Nat) (view : View) :
    CursorOk rel.arity (rel.selected index view) (rel.cursor index view) := by
  refine ⟨rfl, ?_, ?_, by rintro ⟨⟩⟩
  · rw [Relation.cursor, List.map_map]
    exact List.map_id _
  · intro run mem
    obtain ⟨e, there, rfl⟩ := List.mem_map.mp mem
    exact h.selected index view e there

/-- However a relation was filled, each of any sequence of seeks of one cursor visits the rows
the scan visits that start with its key, in the scan's order; every row has the relation's
arity, so a longer key visits none. -/
theorem seek_filters_scan (arity : Nat) (perms : List (List Nat)) (ops : List Op) (index : Nat)
    (view : View) (keys : List Handles) :
    let rel := Relation.run arity perms ops
    ((rel.cursor index view).seekAll keys =
      keys.map fun key => (rel.scan index view).filter fun s => key <+: s.row) ∧
    ∀ s ∈ rel.scan index view, s.row.length = arity := by
  have sound := run_sound arity perms ops
  refine ⟨(sound.toCoherent.cursor index view).seekAll keys, fun s mem => ?_⟩
  obtain ⟨e, there, visited⟩ := List.mem_flatMap.mp mem
  obtain ⟨i, inside, seen⟩ := List.mem_filterMap.mp visited
  have ordered := sound.toCoherent.selected index view e there
  rw [visit_row seen, ← sound.arity_eq]
  exact ordered.wide _ (ordered.row_mem (List.mem_range.mp inside))

end Selected

end Glia.Rules.Storage
