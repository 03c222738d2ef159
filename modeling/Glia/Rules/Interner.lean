import Glia.Rules.Ir
import Glia.Rules.SlotIndex

/-! The value interner: each distinct value stored once, compared by its handle. -/
namespace Glia.Rules

structure ValueTable where
  data : List Value := []
  index : SlotIndex := {}

namespace ValueTable
variable (digest : Value → UInt64) (t : ValueTable)

def get (h : Nat) : Option Value := t.data[h]?

def findAt (d : UInt64) (v : Value) : Option (Option Nat) :=
  t.index.find d fun h => t.get h = some v

def find (v : Value) : Option (Option Nat) := t.findAt (digest v) v

def intern (v : Value) : Option (Nat × ValueTable) := do
  let d := digest v
  match ← t.findAt d v with
  | some h => pure (h, t)
  | none =>
    let h := t.data.length % 2 ^ 32
    let data := t.data ++ [v]
    let index ← t.index.insert d h fun e => data[e]?.map digest
    pure (h, { data, index })

end ValueTable

inductive TableCall where
  | intern (v : Value)
  | find (v : Value)
  deriving DecidableEq

section Calls
variable (digest : Value → UInt64)

/-- One call, with what it returns; none when a probe does not end. -/
def ValueTable.call (t : ValueTable) : TableCall → Option (Option Nat × ValueTable)
  | .intern v => (t.intern digest v).map fun (h, t) => (some h, t)
  | .find v => (t.find digest v).map fun h => (h, t)

def ValueTable.run (t : ValueTable) : List TableCall → Option (List (Option Nat) × ValueTable)
  | [] => some ([], t)
  | c :: calls => do
    let (out, t) ← t.call digest c
    let (outs, t) ← t.run calls
    pure (out :: outs, t)

def sight (seen : List Value) : TableCall → List Value
  | .intern v => if v ∈ seen then seen else seen ++ [v]
  | .find _ => seen

def sighted (calls : List TableCall) : List Value := calls.foldl sight []

/-- What a call returns after `seen`: a value's handle is its place. -/
def answer (seen : List Value) : TableCall → Option Nat
  | .intern v => some ((sight seen (.intern v)).idxOf v)
  | .find v => if v ∈ seen then some (seen.idxOf v) else none

def answers (seen : List Value) : List TableCall → List (Option Nat)
  | [] => []
  | c :: calls => answer seen c :: answers (sight seen c) calls

end Calls

section Sight
variable {seen : List Value} {v : Value}

theorem prefix_sight (seen : List Value) (c : TableCall) : seen <+: sight seen c := by
  cases c with
  | find => exact List.prefix_rfl
  | intern v =>
    rw [sight]
    split_ifs
    · exact List.prefix_rfl
    · exact List.prefix_append _ _

theorem prefix_foldl_sight (calls : List TableCall) (seen : List Value) :
    seen <+: calls.foldl sight seen := by
  induction calls generalizing seen with
  | nil => exact List.prefix_rfl
  | cons c calls ih => exact (prefix_sight seen c).trans (ih _)

theorem mem_sight (c : TableCall) : v ∈ sight seen c ↔ v ∈ seen ∨ c = .intern v := by
  cases c with
  | find w => simp [sight]
  | intern w =>
    rw [sight]
    split_ifs with known
    · refine ⟨.inl, ?_⟩
      rintro (old | new)
      · exact old
      · cases new
        exact known
    · simp [eq_comm]

theorem mem_foldl_sight (calls : List TableCall) :
    v ∈ calls.foldl sight seen ↔ v ∈ seen ∨ .intern v ∈ calls := by
  induction calls generalizing seen with
  | nil => simp
  | cons c calls ih => rw [List.foldl_cons, ih, mem_sight, List.mem_cons, or_assoc, eq_comm]

theorem idxOf_later {later : List Value} (grows : seen <+: later) (mem : v ∈ seen) :
    later.idxOf v = seen.idxOf v := by
  have ⟨rest, whole⟩ := grows
  rw [← whole, List.idxOf_append_of_mem mem]

theorem getElem?_answers (calls : List TableCall) (seen : List Value) (i : Nat) :
    (answers seen calls)[i]? = (calls[i]?).map (answer ((calls.take i).foldl sight seen)) := by
  induction calls generalizing seen i with
  | nil => simp [answers]
  | cons c calls ih =>
    cases i with
    | zero => simp [answers]
    | succ i => simp [answers, ih]

end Sight

/-- The table after `seen` was interned: its index holds every handle under its value's
digest. -/
structure Interned (digest : Value → UInt64) (seen : List Value) (t : ValueTable) : Prop where
  data : t.data = seen
  once : seen.Nodup
  index : t.index.Indexes (fun e => seen[e]?.map digest) (List.range seen.length)

namespace Interned
variable {digest : Value → UInt64} {seen : List Value} {t : ValueTable} {v : Value}

theorem nil (digest : Value → UInt64) : Interned digest [] {} :=
  { data := rfl
    once := .nil
    index := .nil }

theorem get_eq (h : Interned digest seen t) (e : Nat) : t.get e = seen[e]? := by
  rw [ValueTable.get, h.data]

theorem findAt_known (h : Interned digest seen t) (known : v ∈ seen) :
    t.findAt (digest v) v = some (some (seen.idxOf v)) := by
  have inside : seen.idxOf v < seen.length := List.idxOf_lt_length_of_mem known
  have here : seen[seen.idxOf v]? = some v := List.getElem?_idxOf known
  refine h.index.find_eq_some (List.mem_range.mpr inside) (by rw [here]; rfl) ?_ ?_
  · simpa [h.get_eq] using here
  · intro e mem taken
    rw [decide_eq_true_eq, h.get_eq] at taken
    exact (List.getElem?_inj (List.mem_range.mp mem) h.once).mp (taken.trans here.symm)

theorem findAt_new (h : Interned digest seen t) (new : v ∉ seen) :
    t.findAt (digest v) v = some none :=
  h.index.find_eq_none fun e _ => by
    rw [decide_eq_false_iff_not, h.get_eq]
    exact fun here => new (List.mem_of_getElem? here)

theorem intern_known (h : Interned digest seen t) (known : v ∈ seen) :
    t.intern digest v = some (seen.idxOf v, t) := by
  simp [ValueTable.intern, h.findAt_known known]

theorem intern_new (h : Interned digest seen t) (new : v ∉ seen)
    (inRange : seen.length < emptySlot) :
    ∃ t', t.intern digest v = some (seen.length, t') ∧ Interned digest (seen ++ [v]) t' := by
  have handle : seen.length % 2 ^ 32 = seen.length := by
    unfold emptySlot at inRange
    omega
  have same : ∀ e ∈ List.range seen.length,
      seen[e]?.map digest = (seen ++ [v])[e]?.map digest := fun e mem => by
    rw [List.getElem?_append_left (List.mem_range.mp mem)]
  have ⟨x, inserted, index⟩ := (h.index.congr same).insert_indexes (e := seen.length)
    (d := digest v) (by omega) (by simp)
  refine ⟨{ data := seen ++ [v], index := x }, ?_, rfl, ?_, ?_⟩
  · simp only [ValueTable.intern, h.findAt_new new, Option.bind_eq_bind, Option.bind_some, h.data,
      handle, inserted]
    rfl
  · exact List.nodup_append_comm.mp (by simpa [new] using h.once)
  · rw [List.length_append, List.length_singleton, List.range_succ]
    exact index

theorem call_eq (h : Interned digest seen t) (c : TableCall)
    (inRange : (sight seen c).length ≤ emptySlot) :
    ∃ t', t.call digest c = some (answer seen c, t') ∧ Interned digest (sight seen c) t' := by
  cases c with
  | find v =>
    refine ⟨t, ?_, h⟩
    by_cases known : v ∈ seen
    · simp [ValueTable.call, ValueTable.find, h.findAt_known known, answer, known]
    · simp [ValueTable.call, ValueTable.find, h.findAt_new known, answer, known]
  | intern v =>
    by_cases known : v ∈ seen
    · refine ⟨t, ?_, by simpa [sight, known] using h⟩
      simp [ValueTable.call, h.intern_known known, answer, sight, known]
    · rw [sight, if_neg known, List.length_append, List.length_singleton] at inRange
      have ⟨t', interned, h'⟩ := h.intern_new known (by omega)
      refine ⟨t', ?_, by simpa [sight, known] using h'⟩
      have place : (seen ++ [v]).idxOf v = seen.length := by
        rw [List.idxOf_append_of_notMem known]
        simp
      simp [ValueTable.call, interned, answer, sight, known, place]

theorem run_eq (h : Interned digest seen t) (calls : List TableCall)
    (inRange : (calls.foldl sight seen).length ≤ emptySlot) :
    ∃ t', t.run digest calls = some (answers seen calls, t') ∧
      Interned digest (calls.foldl sight seen) t' := by
  induction calls generalizing seen t with
  | nil => exact ⟨t, rfl, h⟩
  | cons c calls ih =>
    have ⟨t', called, h'⟩ := h.call_eq c
      ((prefix_foldl_sight calls (sight seen c)).length_le.trans inRange)
    have ⟨t'', ran, h''⟩ := ih h' inRange
    exact ⟨t'', by simp [ValueTable.run, called, ran, answers], h''⟩

end Interned

section Places
variable {calls : List TableCall} {i : Nat} {v : Value}

theorem sighted_take (calls : List TableCall) (i : Nat) :
    sighted (calls.take i) <+: sighted calls := by
  have split : sighted calls = (calls.drop i).foldl sight (sighted (calls.take i)) := by
    rw [sighted, sighted, ← List.foldl_append, List.take_append_drop]
  exact split ▸ prefix_foldl_sight _ _

theorem mem_sighted : v ∈ sighted calls ↔ .intern v ∈ calls := by
  simp [sighted, mem_foldl_sight]

theorem answers_intern (here : calls[i]? = some (.intern v)) :
    (answers [] calls)[i]? = some (some ((sighted calls).idxOf v)) := by
  have next : sight (sighted (calls.take i)) (.intern v) = sighted (calls.take (i + 1)) := by
    rw [List.take_add_one, here, Option.toList_some, sighted, sighted, List.foldl_append]
    rfl
  have mem : v ∈ sighted (calls.take (i + 1)) := next ▸ (mem_sight _).mpr (.inr rfl)
  rw [getElem?_answers, here, Option.map_some]
  exact congrArg (fun n => some (some n))
    ((congrArg (List.idxOf v) next).trans (idxOf_later (sighted_take calls _) mem).symm)

theorem answers_find (here : calls[i]? = some (.find v)) :
    (answers [] calls)[i]? =
      some (if .intern v ∈ calls.take i then some ((sighted calls).idxOf v) else none) := by
  rw [getElem?_answers, here, Option.map_some]
  by_cases known : v ∈ sighted (calls.take i)
  · have place := idxOf_later (sighted_take calls i) known
    rw [if_pos (mem_sighted.mp known), place]
    exact congrArg some (if_pos known)
  · rw [if_neg fun mem => known (mem_sighted.mpr mem)]
    exact congrArg some (if_neg known)

end Places

/-- Interning is injective whatever the digest: within the handle range every call of a run
ends, a value's handle is its place in first-sight order, two values share one exactly when
they are equal, and the index holds every handle once beside an empty slot. -/
theorem intern_exact (digest : Value → UInt64) (calls : List TableCall)
    (inRange : (sighted calls).length ≤ emptySlot) :
    ∃ outs t, ValueTable.run digest {} calls = some (outs, t) ∧ t.data = sighted calls ∧
      (∀ (i : Nat) v, calls[i]? = some (TableCall.intern v) → ∃ h, outs[i]? = some (some h) ∧
        t.get h = some v ∧ h = (sighted calls).idxOf v) ∧
      (∀ (i j : Nat) v w, calls[i]? = some (TableCall.intern v) →
        calls[j]? = some (TableCall.intern w) →
        (outs[i]? = outs[j]? ↔ v = w)) ∧
      (∀ (i : Nat) v, calls[i]? = some (TableCall.find v) → outs[i]? =
        some (if TableCall.intern v ∈ calls.take i then some ((sighted calls).idxOf v)
          else none)) ∧
      (t.index.slots = [] ∨ emptySlot ∈ t.index.slots) ∧
      (t.index.slots.filter (· ≠ emptySlot)).Perm (List.range (sighted calls).length) := by
  have ⟨t, ran, table⟩ := (Interned.nil digest).run_eq calls inRange
  have known {i : Nat} {v : Value} (here : calls[i]? = some (.intern v)) : v ∈ sighted calls :=
    mem_sighted.mpr (List.mem_of_getElem? here)
  refine ⟨_, t, ran, table.data, fun i v here => ?_, fun i j v w vHere wHere => ?_,
    fun i v here => answers_find here, table.index.empty_mem, table.index.entries⟩
  · refine ⟨_, answers_intern here, ?_, rfl⟩
    exact (table.get_eq _).trans (List.getElem?_idxOf (known here))
  · rw [answers_intern vHere, answers_intern wHere, Option.some.injEq, Option.some.injEq]
    exact List.idxOf_inj (known vHere)

/-- Every value digested alike. -/
theorem intern_exact_collisions : (sighted [.intern (.str "3"), .find (.int 3),
      .intern (.int 3), .intern (.str "3")]).length ≤ emptySlot ∧
    ∃ outs t, ValueTable.run (fun _ => 0) {} [.intern (.str "3"), .find (.int 3),
      .intern (.int 3), .intern (.str "3")] = some (outs, t) ∧
      outs[1]? = some none := by
  have small : (sighted [.intern (.str "3"), .find (.int 3), .intern (.int 3),
      .intern (.str "3")]).length ≤ emptySlot := by decide
  have ⟨outs, t, ran, _, _, _, found, _⟩ := intern_exact (fun _ => 0) _ small
  exact ⟨small, outs, t, ran, (found 1 (.int 3) rfl).trans (by decide)⟩

end Glia.Rules
