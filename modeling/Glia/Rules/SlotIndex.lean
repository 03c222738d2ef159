import Mathlib.Data.List.Perm.Basic
import Mathlib.Data.List.Nodup
import Mathlib.Data.Nat.Bitwise
import Mathlib.Data.Nat.Find

/-! An open-addressing index of handles whose keys live with its caller. -/
namespace Glia.Rules

def emptySlot : Nat := 2 ^ 32 - 1

/-- A power-of-two slot table, probed linearly from the slot a digest picks, at most three
quarters full. -/
structure SlotIndex where
  slots : List Nat := []
  len : Nat := 0

namespace SlotIndex

section Probe
variable (slots : List Nat) (mask : Nat)

/-- The probe of `find`: none when a slot is read past the table or `fuel` rounds do not end
it, `some none` at an empty slot. -/
def findFrom (accepts : Nat → Bool) : Nat → Nat → Option (Option Nat)
  | 0, _ => none
  | fuel + 1, i => do
    let e ← slots[i]?
    if e = emptySlot then some none
    else if accepts e then some (some e)
    else findFrom accepts fuel ((i + 1) &&& mask)

def placeFrom : Nat → Nat → Option Nat
  | 0, _ => none
  | fuel + 1, i => do
    let e ← slots[i]?
    if e = emptySlot then some i else placeFrom fuel ((i + 1) &&& mask)

end Probe

/-- The entry under digest `d` that `accepts` takes. -/
def find (x : SlotIndex) (d : UInt64) (accepts : Nat → Bool) : Option (Option Nat) :=
  if x.slots.length = 0 then some none
  else
    let mask := x.slots.length - 1
    findFrom x.slots mask accepts x.slots.length (d.toNat &&& mask)

def place (slots : List Nat) (d : UInt64) (e : Nat) : Option (List Nat) :=
  let mask := slots.length - 1
  (placeFrom slots mask slots.length (d.toNat &&& mask)).map fun i => slots.set i e

/-- The slots twice as many, every held entry placed again under its digest. -/
def grow (slots : List Nat) (digestOf : Nat → Option UInt64) : Option (List Nat) :=
  (slots.filter (· ≠ emptySlot)).foldlM (fun slots held => do place slots (← digestOf held) held)
    (List.replicate (max (slots.length * 2) 16) emptySlot)

/-- Add entry `e` under digest `d`; `digestOf` is asked for each held entry when the slots
grow. -/
def insert (x : SlotIndex) (d : UInt64) (e : Nat) (digestOf : Nat → Option UInt64) :
    Option SlotIndex := do
  let slots ← (if (x.len + 1) * 4 > x.slots.length * 3 then grow x.slots digestOf
    else some x.slots)
  let slots ← place slots d e
  pure { slots, len := x.len + 1 }

section Cycle

/-- The slot reached after `k` steps of a probe. -/
def probed (n : Nat) (d : UInt64) (k : Nat) : Nat := (d.toNat + k) % n

variable {n : Nat} {d : UInt64}

theorem mask_eq {b : Nat} (i : Nat) : i &&& (2 ^ b - 1) = i % 2 ^ b :=
  Nat.and_two_pow_sub_one_eq_mod i b

theorem probed_zero (pow : ∃ b, n = 2 ^ b) : d.toNat &&& (n - 1) = probed n d 0 := by
  have ⟨b, size⟩ := pow
  rw [size, mask_eq, probed, Nat.add_zero]

theorem probed_succ (pow : ∃ b, n = 2 ^ b) (k : Nat) :
    (probed n d k + 1) &&& (n - 1) = probed n d (k + 1) := by
  have ⟨b, size⟩ := pow
  rw [size, mask_eq, probed, probed, Nat.mod_add_mod, Nat.add_assoc]

theorem probed_lt (pos : 0 < n) (k : Nat) : probed n d k < n := Nat.mod_lt _ pos

theorem exists_probed (pos : 0 < n) {i : Nat} (inside : i < n) : ∃ k, k < n ∧ probed n d k = i := by
  have start : d.toNat % n < n := Nat.mod_lt _ pos
  refine ⟨(i + (n - d.toNat % n)) % n, Nat.mod_lt _ pos, ?_⟩
  have turn : d.toNat + (i + (n - d.toNat % n)) = i + n * (d.toNat / n + 1) := by
    have split := Nat.div_add_mod d.toNat n
    rw [Nat.mul_add, Nat.mul_one]
    omega
  rw [probed, Nat.add_mod_mod, turn, Nat.add_mul_mod_self_left, Nat.mod_eq_of_lt inside]

end Cycle

section First
variable {slots : List Nat} {d : UInt64} {k e : Nat}

structure FirstAt (slots : List Nat) (d : UInt64) (stop : Nat → Prop) (k e : Nat) : Prop where
  here : slots[probed slots.length d k]? = some e
  stops : stop e
  before : ∀ i < k, ∃ x, slots[probed slots.length d i]? = some x ∧ ¬stop x

theorem exists_firstAt (stop : Nat → Prop) {m : Nat}
    (here : slots[probed slots.length d m]? = some e) (stops : stop e) : ∃ k x, k ≤ m ∧ FirstAt slots d stop k x := by
  classical
  have some' : ∃ k x, slots[probed slots.length d k]? = some x ∧ stop x := ⟨m, e, here, stops⟩
  have ⟨x, at', stopsHere⟩ := Nat.find_spec some'
  refine ⟨Nat.find some', x, Nat.find_min' some' ⟨e, here, stops⟩, at', stopsHere, ?_⟩
  intro i earlier
  have pos : 0 < slots.length := by
    have := (List.getElem?_eq_some_iff.mp here).1
    omega
  have inside : probed slots.length d i < slots.length := probed_lt pos i
  refine ⟨_, List.getElem?_eq_getElem inside, fun stopped => ?_⟩
  exact Nat.find_min some' earlier ⟨_, List.getElem?_eq_getElem inside, stopped⟩

theorem findFrom_first {accepts : Nat → Bool} (pow : ∃ b, slots.length = 2 ^ b)
    (first : FirstAt slots d (fun e => e = emptySlot ∨ accepts e = true) k e) {fuel j : Nat}
    (reached : j ≤ k) (enough : k < j + fuel) :
    findFrom slots (slots.length - 1) accepts fuel (probed slots.length d j) =
      some (if e = emptySlot then none else some e) := by
  induction fuel generalizing j with
  | zero => omega
  | succ fuel ih =>
    unfold findFrom
    by_cases last : j = k
    · rw [last, first.here, Option.bind_eq_bind, Option.bind_some]
      by_cases empty : e = emptySlot
      · simp [empty]
      · simp [empty, first.stops.resolve_left empty]
    · have ⟨x, here, goes⟩ := first.before j (by omega)
      rw [not_or] at goes
      rw [here, Option.bind_eq_bind, Option.bind_some, if_neg goes.1, if_neg goes.2,
        probed_succ pow]
      exact ih (by omega) (by omega)

theorem placeFrom_first (pow : ∃ b, slots.length = 2 ^ b)
    (first : FirstAt slots d (· = emptySlot) k e) {fuel j : Nat} (reached : j ≤ k)
    (enough : k < j + fuel) :
    placeFrom slots (slots.length - 1) fuel (probed slots.length d j) =
      some (probed slots.length d k) := by
  induction fuel generalizing j with
  | zero => omega
  | succ fuel ih =>
    unfold placeFrom
    by_cases last : j = k
    · rw [last, first.here, Option.bind_eq_bind, Option.bind_some, if_pos first.stops]
    · have ⟨x, here, goes⟩ := first.before j (by omega)
      rw [here, Option.bind_eq_bind, Option.bind_some, if_neg goes, probed_succ pow]
      exact ih (by omega) (by omega)

end First

structure Holds (digestOf : Nat → Option UInt64) (held slots : List Nat) : Prop where
  pow : ∃ b, slots.length = 2 ^ b
  entries : (slots.filter (· ≠ emptySlot)).Perm held
  path : ∀ e ∈ held, ∃ d k, digestOf e = some d ∧ k < slots.length ∧
    slots[probed slots.length d k]? = some e ∧
    ∀ j < k, slots[probed slots.length d j]? ≠ some emptySlot

namespace Holds
variable {digestOf digestOf' : Nat → Option UInt64} {held held' slots : List Nat} {d : UInt64}
  {e : Nat}

theorem pos (h : Holds digestOf held slots) : 0 < slots.length := by
  have ⟨b, size⟩ := h.pow
  rw [size]
  exact Nat.two_pow_pos b

theorem perm (h : Holds digestOf held slots) (same : held.Perm held') :
    Holds digestOf held' slots :=
  { pow := h.pow
    entries := h.entries.trans same
    path := fun e mem => h.path e (same.mem_iff.mpr mem) }

theorem congr (h : Holds digestOf held slots) (same : ∀ e ∈ held, digestOf e = digestOf' e) :
    Holds digestOf' held slots :=
  { pow := h.pow
    entries := h.entries
    path := fun e mem => same e mem ▸ h.path e mem }

theorem mem_iff (h : Holds digestOf held slots) : e ∈ held ↔ e ∈ slots ∧ e ≠ emptySlot := by
  rw [← h.entries.mem_iff]
  simp

theorem empty_mem (h : Holds digestOf held slots) (room : held.length < slots.length) :
    emptySlot ∈ slots := by
  by_contra full
  have all : slots.filter (· ≠ emptySlot) = slots :=
    List.filter_eq_self.mpr fun e mem => by
      simpa using fun same : e = emptySlot => full (same ▸ mem)
  have count := h.entries.length_eq
  rw [all] at count
  omega

theorem exists_empty (h : Holds digestOf held slots) (room : held.length < slots.length)
    (d : UInt64) : ∃ k, k < slots.length ∧ slots[probed slots.length d k]? = some emptySlot := by
  have ⟨i, inside, here⟩ := List.mem_iff_getElem.mp (h.empty_mem room)
  have ⟨k, turn, meets⟩ := exists_probed (d := d) h.pos inside
  exact ⟨k, turn, by rw [meets, List.getElem?_eq_getElem inside, here]⟩

theorem findFrom_eq (h : Holds digestOf held slots) {accepts : Nat → Bool} {k : Nat}
    (first : FirstAt slots d (fun e => e = emptySlot ∨ accepts e = true) k e)
    (turn : k < slots.length) :
    findFrom slots (slots.length - 1) accepts slots.length (d.toNat &&& (slots.length - 1)) =
      some (if e = emptySlot then none else some e) := by
  rw [probed_zero h.pow]
  exact findFrom_first h.pow first (Nat.zero_le _) (by omega)

theorem find_held (h : Holds digestOf held slots) {accepts : Nat → Bool} (mem : e ∈ held)
    (digest : digestOf e = some d) (taken : accepts e = true)
    (only : ∀ e' ∈ held, accepts e' = true → e' = e) :
    findFrom slots (slots.length - 1) accepts slots.length (d.toNat &&& (slots.length - 1)) =
      some (some e) := by
  have ⟨d', m, itsDigest, turn, here, path⟩ := h.path e mem
  obtain rfl : d' = d := Option.some.inj (itsDigest.symm.trans digest)
  have ⟨k, x, soon, first⟩ :=
    exists_firstAt (fun e => e = emptySlot ∨ accepts e = true) here (.inr taken)
  have entry : x ≠ emptySlot := fun empty => by
    by_cases last : k = m
    · subst last
      have same : x = e := Option.some.inj (first.here.symm.trans here)
      exact (h.mem_iff.mp mem).2 (same ▸ empty)
    · exact path k (by omega) (empty ▸ first.here)
  have same : x = e :=
    only x (h.mem_iff.mpr ⟨List.mem_of_getElem? first.here, entry⟩) (first.stops.resolve_left entry)
  rw [h.findFrom_eq first (by omega), if_neg entry, same]

theorem find_absent (h : Holds digestOf held slots) {accepts : Nat → Bool}
    (room : held.length < slots.length) (none' : ∀ e ∈ held, accepts e = false) :
    findFrom slots (slots.length - 1) accepts slots.length (d.toNat &&& (slots.length - 1)) =
      some none := by
  have ⟨m, turn, here⟩ := h.exists_empty room d
  have ⟨k, x, soon, first⟩ :=
    exists_firstAt (fun e => e = emptySlot ∨ accepts e = true) here (.inl rfl)
  have empty : x = emptySlot := by
    by_contra entry
    have refused := none' x (h.mem_iff.mpr ⟨List.mem_of_getElem? first.here, entry⟩)
    simp [first.stops.resolve_left entry] at refused
  rw [h.findFrom_eq first (by omega), if_pos empty]

theorem filter_set {i : Nat} (empty : slots[i]? = some emptySlot) (entry : e ≠ emptySlot) :
    ((slots.set i e).filter (· ≠ emptySlot)).Perm (slots.filter (· ≠ emptySlot) ++ [e]) := by
  have ⟨inside, here⟩ := List.getElem?_eq_some_iff.mp empty
  have split : slots = slots.take i ++ emptySlot :: slots.drop (i + 1) := by
    rw [← here, ← List.drop_eq_getElem_cons inside, List.take_append_drop]
  have old : slots.filter (· ≠ emptySlot) =
      (slots.take i).filter (· ≠ emptySlot) ++ (slots.drop (i + 1)).filter (· ≠ emptySlot) := by
    rw [congrArg (List.filter (· ≠ emptySlot)) split, List.filter_append]
    simp
  rw [old, List.set_eq_take_append_cons_drop, if_pos inside, List.filter_append,
    List.filter_cons_of_pos (by simpa using entry), List.append_assoc]
  exact (List.perm_append_singleton _ _).symm.append_left _

theorem getElem?_set_entry {i j : Nat} (entry : e ≠ emptySlot)
    (taken : slots[j]? ≠ some emptySlot) : (slots.set i e)[j]? ≠ some emptySlot := by
  rw [List.getElem?_set]
  split_ifs with same inside
  · simpa using entry
  · simp
  · exact taken

theorem place_holds (h : Holds digestOf held slots) (room : held.length < slots.length)
    (entry : e ≠ emptySlot) (digest : digestOf e = some d) :
    ∃ slots', place slots d e = some slots' ∧ slots'.length = slots.length ∧
      Holds digestOf (held ++ [e]) slots' := by
  have ⟨m, turn, here⟩ := h.exists_empty room d
  have ⟨k, x, soon, first⟩ := exists_firstAt (· = emptySlot) here rfl
  have empty : slots[probed slots.length d k]? = some emptySlot := first.stops ▸ first.here
  have placed : place slots d e = some (slots.set (probed slots.length d k) e) := by
    rw [place, probed_zero h.pow, placeFrom_first h.pow first (Nat.zero_le _) (by omega),
      Option.map_some]
  refine ⟨_, placed, List.length_set, by simpa using h.pow,
    (filter_set empty entry).trans (h.entries.append_right _), fun e' mem => ?_⟩
  rw [List.length_set]
  rcases List.mem_append.mp mem with old | new
  · have ⟨d', k', itsDigest, turn', itsPlace, path⟩ := h.path e' old
    refine ⟨d', k', itsDigest, turn', ?_, fun j before => getElem?_set_entry entry (path j before)⟩
    have apart : probed slots.length d k ≠ probed slots.length d' k' := fun same => by
      rw [← same, empty] at itsPlace
      exact (h.mem_iff.mp old).2 (Option.some.inj itsPlace).symm
    rw [List.getElem?_set_ne apart, itsPlace]
  · obtain rfl : e' = e := by simpa using new
    refine ⟨d, k, digest, by omega, ?_, fun j before => getElem?_set_entry entry ?_⟩
    · exact List.getElem?_set_self (probed_lt h.pos k)
    · have ⟨x, taken, goes⟩ := first.before j before
      simpa [taken] using goes

theorem replicate (digestOf : Nat → Option UInt64) (b : Nat) : Holds digestOf [] (List.replicate (2 ^ b) emptySlot) :=
  { pow := ⟨b, List.length_replicate⟩
    entries := by simp
    path := by simp }

theorem foldlM_place (h : Holds digestOf held slots) (es : List Nat)
    (room : held.length + es.length ≤ slots.length)
    (known : ∀ e ∈ es, e ≠ emptySlot ∧ ∃ d, digestOf e = some d) :
    ∃ slots', es.foldlM (fun slots held => do place slots (← digestOf held) held) slots =
        some slots' ∧ slots'.length = slots.length ∧ Holds digestOf (held ++ es) slots' := by
  induction es generalizing held slots with
  | nil => exact ⟨slots, rfl, rfl, by simpa using h⟩
  | cons e es ih =>
    rw [List.length_cons] at room
    have ⟨entry, d, digest⟩ := known e List.mem_cons_self
    have ⟨next, placed, size, holds⟩ := h.place_holds (by omega) entry digest
    have ⟨last, rest, size', all⟩ := ih holds (by simp only [List.length_append]; simp; omega)
      fun e mem => known e (List.mem_cons_of_mem _ mem)
    refine ⟨last, ?_, by rw [size', size], by simpa using all⟩
    rw [List.foldlM_cons, digest]
    simpa [placed] using rest

theorem grow_holds (h : Holds digestOf held slots) (few : held.length ≤ slots.length)
    (big : ∃ b, max (slots.length * 2) 16 = 2 ^ b) :
    ∃ slots', grow slots digestOf = some slots' ∧
      slots'.length = max (slots.length * 2) 16 ∧ Holds digestOf held slots' := by
  have ⟨b, size⟩ := big
  have known : ∀ e ∈ slots.filter (· ≠ emptySlot), e ≠ emptySlot ∧ ∃ d, digestOf e = some d :=
    fun e mem => by
      have ⟨d, _, digest, _⟩ := h.path e (h.entries.mem_iff.mp mem)
      exact ⟨by simpa using (List.mem_filter.mp mem).2, d, digest⟩
  have count := h.entries.length_eq
  have ⟨slots', grown, size', holds⟩ := (Holds.replicate digestOf b).foldlM_place
    (slots.filter (· ≠ emptySlot)) (by simp only [List.length_nil, List.length_replicate]; omega)
    known
  refine ⟨slots', ?_, by rw [size', List.length_replicate, size], ?_⟩
  · rw [grow, size]
    exact grown
  · exact holds.perm (by simpa using h.entries)

end Holds

/-- What an index built by `insert` is: empty, or its slots hold `held`, at most three
quarters of them. -/
structure Indexes (digestOf : Nat → Option UInt64) (held : List Nat) (x : SlotIndex) : Prop where
  len : x.len = held.length
  load : x.len * 4 ≤ x.slots.length * 3
  holds : x.slots = [] ∧ held = [] ∨ Holds digestOf held x.slots

namespace Indexes
variable {digestOf digestOf' : Nat → Option UInt64} {held : List Nat} {x : SlotIndex} {d : UInt64}
  {e : Nat}

theorem nil : Indexes digestOf [] {} :=
  { len := rfl
    load := by simp
    holds := .inl ⟨rfl, rfl⟩ }

theorem congr (h : Indexes digestOf held x) (same : ∀ e ∈ held, digestOf e = digestOf' e) :
    Indexes digestOf' held x :=
  { len := h.len
    load := h.load
    holds := h.holds.imp_right fun holds => holds.congr same }

theorem room (h : Indexes digestOf held x) (holds : Holds digestOf held x.slots) :
    held.length < x.slots.length := by
  have pos := holds.pos
  have load := h.load
  rw [h.len] at load
  omega

theorem empty_mem (h : Indexes digestOf held x) : x.slots = [] ∨ emptySlot ∈ x.slots :=
  h.holds.imp And.left fun holds => holds.empty_mem (h.room holds)

theorem entries (h : Indexes digestOf held x) : (x.slots.filter (· ≠ emptySlot)).Perm held := by
  rcases h.holds with ⟨noSlots, noEntries⟩ | holds
  · simp [noSlots, noEntries]
  · exact holds.entries

theorem find_eq_some (h : Indexes digestOf held x) {accepts : Nat → Bool} (mem : e ∈ held)
    (digest : digestOf e = some d) (taken : accepts e = true)
    (only : ∀ e' ∈ held, accepts e' = true → e' = e) : x.find d accepts = some (some e) := by
  rcases h.holds with ⟨_, noEntries⟩ | holds
  · simp [noEntries] at mem
  · rw [find, if_neg (by have := holds.pos; omega)]
    exact holds.find_held mem digest taken only

theorem find_eq_none (h : Indexes digestOf held x) {accepts : Nat → Bool}
    (none' : ∀ e ∈ held, accepts e = false) : x.find d accepts = some none := by
  rcases h.holds with ⟨noSlots, _⟩ | holds
  · simp [find, noSlots]
  · rw [find, if_neg (by have := holds.pos; omega)]
    exact holds.find_absent (h.room holds) none'

theorem grown (h : Indexes digestOf held x) :
    ∃ slots, (if (x.len + 1) * 4 > x.slots.length * 3 then grow x.slots digestOf
        else some x.slots) = some slots ∧ (x.len + 1) * 4 ≤ slots.length * 3 ∧
      Holds digestOf held slots := by
  have load := h.load
  rcases h.holds with ⟨noSlots, noEntries⟩ | holds
  · have none' : x.len = 0 := by rw [h.len, noEntries, List.length_nil]
    refine ⟨List.replicate (2 ^ 4) emptySlot, by simp [none', noSlots, grow], by simp [none'], ?_⟩
    exact noEntries ▸ Holds.replicate digestOf 4
  · by_cases full : (x.len + 1) * 4 > x.slots.length * 3
    · have ⟨b, size⟩ := holds.pow
      have big : ∃ c, max (x.slots.length * 2) 16 = 2 ^ c := by
        rcases Nat.lt_or_ge b 3 with small | large
        · exact ⟨4, by have := Nat.pow_le_pow_right (n := 2) (by omega) small.le; omega⟩
        · have := Nat.pow_le_pow_right (n := 2) (by omega) large
          exact ⟨b + 1, by rw [Nat.pow_succ, size]; omega⟩
      have ⟨slots, grown, size', all⟩ := holds.grow_holds (h.room holds).le big
      exact ⟨slots, by rw [if_pos full, grown], by omega, all⟩
    · exact ⟨x.slots, if_neg full, by omega, holds⟩

theorem insert_indexes (h : Indexes digestOf held x) (entry : e ≠ emptySlot)
    (digest : digestOf e = some d) :
    ∃ x', x.insert d e digestOf = some x' ∧ Indexes digestOf (held ++ [e]) x' := by
  have ⟨slots, grown, load, holds⟩ := h.grown
  have few : held.length < slots.length := by
    have := h.len
    omega
  have ⟨slots', placed, size, all⟩ := holds.place_holds few entry digest
  refine ⟨{ slots := slots', len := x.len + 1 }, ?_, ?_, by rw [size]; exact load, .inr all⟩
  · unfold insert
    rw [grown]
    simp [placed]
  · simp [h.len]

end Indexes

end SlotIndex

end Glia.Rules
