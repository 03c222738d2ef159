import Mathlib.Data.List.Nodup
import Mathlib.Data.Set.Card
import Mathlib.Logic.Relation

/-! Layered reachability: what a relation reaches from a set of seeds in one or more
steps, a layer at a time. -/
namespace Glia.Kit

variable {α : Type*} (R : α → α → Prop)

def Hops : ℕ → α → α → Prop
  | 0, a, b => a = b
  | n + 1, a, b => ∃ c, Hops n a c ∧ R c b

@[simp] theorem hops_zero (a b : α) : Hops R 0 a b ↔ a = b := Iff.rfl

@[simp] theorem hops_succ (n : ℕ) (a b : α) :
    Hops R (n + 1) a b ↔ ∃ c, Hops R n a c ∧ R c b := Iff.rfl

theorem hops_one (a b : α) : Hops R 1 a b ↔ R a b := by
  constructor
  · rintro ⟨c, rfl, step⟩
    exact step
  · intro step
    exact ⟨a, rfl, step⟩

theorem hops_succ_left (n : ℕ) (a b : α) :
    Hops R (n + 1) a b ↔ ∃ c, R a c ∧ Hops R n c b := by
  induction n generalizing b with
  | zero => simp
  | succ n ih =>
    rw [hops_succ]
    constructor
    · rintro ⟨d, walk, last⟩
      obtain ⟨c, first, walk⟩ := (ih d).mp walk
      exact ⟨c, first, d, walk, last⟩
    · rintro ⟨c, first, d, walk, last⟩
      exact ⟨d, (ih d).mpr ⟨c, first, walk⟩, last⟩

theorem hops_swap (n : ℕ) (a b : α) : Hops (Function.swap R) n a b ↔ Hops R n b a := by
  induction n generalizing b with
  | zero => exact eq_comm
  | succ n ih =>
    rw [hops_succ, hops_succ_left]
    constructor
    · rintro ⟨c, walk, last⟩
      exact ⟨c, last, (ih c).mp walk⟩
    · rintro ⟨c, first, walk⟩
      exact ⟨c, (ih c).mpr walk, first⟩

theorem transGen_iff_hops (a b : α) :
    Relation.TransGen R a b ↔ ∃ n, 1 ≤ n ∧ Hops R n a b := by
  constructor
  · intro walk
    induction walk with
    | single step => exact ⟨1, le_rfl, (hops_one R _ _).mpr step⟩
    | tail _ step ih =>
      obtain ⟨n, pos, walk⟩ := ih
      exact ⟨n + 1, by omega, _, walk, step⟩
  · rintro ⟨n, pos, walk⟩
    induction n generalizing b with
    | zero => omega
    | succ n ih =>
      obtain ⟨c, walk, step⟩ := walk
      rcases Nat.eq_zero_or_pos n with rfl | pos
      · cases walk
        exact .single step
      · exact .tail (ih c pos walk) step

variable {R} in
theorem Hops.mono {R' : α → α → Prop} (sub : ∀ a b, R a b → R' a b) {n : ℕ} {a b : α}
    (walk : Hops R n a b) : Hops R' n a b := by
  induction n generalizing b with
  | zero => exact walk
  | succ n ih =>
    obtain ⟨c, walk, step⟩ := walk
    exact ⟨c, ih walk, sub c b step⟩

variable {R} in
theorem Hops.reflTransGen {n : ℕ} {a b : α} (walk : Hops R n a b) :
    Relation.ReflTransGen R a b := by
  induction n generalizing b with
  | zero =>
    cases walk
    exact .refl
  | succ n ih =>
    obtain ⟨c, walk, step⟩ := walk
    exact (ih walk).tail step

variable {R} in
theorem Hops.between {P : α → Prop} {n : ℕ} {a b : α} (walk : Hops R n a b)
    (holds : ∀ c, Relation.ReflTransGen R a c → Relation.ReflTransGen R c b → P c) :
    Hops (fun u v => P u ∧ P v ∧ R u v) n a b := by
  induction n generalizing b with
  | zero => exact walk
  | succ n ih =>
    obtain ⟨c, walk, step⟩ := walk
    have inner := ih walk fun d before after => holds d before (after.tail step)
    exact ⟨c, inner, holds c walk.reflTransGen (.single step),
      holds b (walk.reflTransGen.tail step) .refl, step⟩

variable (S : Set α)

def Within : ℕ → Set α
  | 0 => ∅
  | n + 1 => {b | ∃ a, (a ∈ S ∨ a ∈ Within n) ∧ R a b}

/-- The nodes first expanded at depth `n`. -/
def Front : ℕ → Set α
  | 0 => S
  | n + 1 => Within R S (n + 1) \ Within R S n

@[simp] theorem within_zero : Within R S 0 = ∅ := rfl

@[simp] theorem front_zero : Front R S 0 = S := rfl

theorem mem_within_succ (n : ℕ) (b : α) :
    b ∈ Within R S (n + 1) ↔ ∃ a, (a ∈ S ∨ a ∈ Within R S n) ∧ R a b := Iff.rfl

theorem mem_front_succ (n : ℕ) (b : α) :
    b ∈ Front R S (n + 1) ↔ b ∈ Within R S (n + 1) ∧ b ∉ Within R S n := Iff.rfl

theorem mem_within_iff (n : ℕ) (b : α) :
    b ∈ Within R S n ↔ ∃ k, 1 ≤ k ∧ k ≤ n ∧ ∃ a ∈ S, Hops R k a b := by
  induction n generalizing b with
  | zero =>
    constructor
    · intro h
      cases h
    · rintro ⟨k, pos, le, _⟩
      omega
  | succ n ih =>
    rw [mem_within_succ]
    constructor
    · rintro ⟨a, seed | mem, step⟩
      · exact ⟨1, le_rfl, by omega, a, seed, (hops_one R a b).mpr step⟩
      · obtain ⟨k, pos, le, s, seed, walk⟩ := (ih a).mp mem
        exact ⟨k + 1, by omega, by omega, s, seed, a, walk, step⟩
    · rintro ⟨k, pos, le, s, seed, walk⟩
      obtain ⟨j, rfl⟩ := Nat.exists_eq_add_of_le' pos
      obtain ⟨a, walk, step⟩ := walk
      refine ⟨a, ?_, step⟩
      rcases Nat.eq_zero_or_pos j with rfl | pos
      · cases walk
        exact .inl seed
      · exact .inr ((ih a).mpr ⟨j, pos, by omega, s, seed, walk⟩)

theorem within_mono {m n : ℕ} (le : m ≤ n) : Within R S m ⊆ Within R S n := by
  intro b mem
  obtain ⟨k, pos, le', rest⟩ := (mem_within_iff R S m b).mp mem
  exact (mem_within_iff R S n b).mpr ⟨k, pos, le'.trans le, rest⟩

theorem mem_within_succ_front (n : ℕ) (b : α) :
    b ∈ Within R S (n + 1) ↔ b ∈ Within R S n ∨ ∃ a ∈ Front R S n, R a b := by
  constructor
  · rintro ⟨a, mem, step⟩
    cases n with
    | zero =>
      rcases mem with seed | mem
      · exact .inr ⟨a, seed, step⟩
      · cases mem
    | succ n =>
      rcases mem with seed | mem
      · exact .inl ⟨a, .inl seed, step⟩
      · by_cases earlier : a ∈ Within R S n
        · exact .inl ⟨a, .inr earlier, step⟩
        · exact .inr ⟨a, ⟨mem, earlier⟩, step⟩
  · rintro (mem | ⟨a, mem, step⟩)
    · exact within_mono R S (Nat.le_succ n) mem
    · cases n with
      | zero => exact ⟨a, .inl mem, step⟩
      | succ n => exact ⟨a, .inr mem.1, step⟩

theorem front_unique {m n : ℕ} {b : α} (hm : b ∈ Front R S (m + 1))
    (hn : b ∈ Front R S (n + 1)) : m = n := by
  rcases Nat.lt_trichotomy m n with lt | eq | lt
  · exact absurd (within_mono R S lt hm.1) hn.2
  · exact eq
  · exact absurd (within_mono R S lt hn.1) hm.2

theorem exists_front {n : ℕ} {b : α} (mem : b ∈ Within R S n) :
    ∃ m, m + 1 ≤ n ∧ b ∈ Front R S (m + 1) := by
  induction n with
  | zero => cases mem
  | succ n ih =>
    by_cases earlier : b ∈ Within R S n
    · obtain ⟨m, le, front⟩ := ih earlier
      exact ⟨m, by omega, front⟩
    · exact ⟨n, le_rfl, mem, earlier⟩

/-- Past an empty front nothing more is reached. -/
theorem within_eq_of_front_empty {n : ℕ} (empty : Front R S n = ∅) {m : ℕ} (le : n ≤ m) :
    Within R S m = Within R S n := by
  induction m, le using Nat.le_induction with
  | base => rfl
  | succ m le ih =>
    apply Set.Subset.antisymm
    · rintro b mem
      rw [mem_within_succ_front] at mem
      rcases mem with mem | ⟨a, mem, step⟩
      · exact ih ▸ mem
      · cases m with
        | zero =>
          obtain rfl : n = 0 := by omega
          rw [empty] at mem
          cases mem
        | succ m =>
          rcases Nat.lt_or_ge m n with lt | ge
          · obtain rfl : n = m + 1 := by omega
            rw [empty] at mem
            cases mem
          · have same : Within R S m = Within R S n := by
              apply Set.Subset.antisymm
              · exact fun x hx => ih ▸ within_mono R S (Nat.le_succ m) hx
              · exact within_mono R S ge
            exact absurd (same ▸ ih ▸ mem.1) mem.2
    · exact within_mono R S (by omega)

theorem front_nonempty_pred {n : ℕ} (h : (Front R S (n + 1)).Nonempty) :
    (Front R S n).Nonempty := by
  by_contra empty
  rw [Set.not_nonempty_iff_eq_empty] at empty
  obtain ⟨b, mem, fresh⟩ := h
  exact fresh (within_eq_of_front_empty R S empty (Nat.le_succ n) ▸ mem)

theorem card_of_front {U : Set α} (fin : U.Finite) (sub : ∀ n, Within R S n ⊆ U) {n : ℕ}
    (h : (Front R S n).Nonempty) : n ≤ (Within R S n).ncard := by
  induction n with
  | zero => exact Nat.zero_le _
  | succ n ih =>
    have before := ih (front_nonempty_pred R S h)
    obtain ⟨b, mem, fresh⟩ := h
    have grows : Within R S n ⊂ Within R S (n + 1) :=
      ⟨within_mono R S (Nat.le_succ n), fun back => fresh (back mem)⟩
    have := Set.ncard_lt_ncard grows (fin.subset (sub _))
    omega

theorem front_empty_of_card {U : Set α} (fin : U.Finite) (sub : ∀ n, Within R S n ⊆ U) {n : ℕ}
    (lt : U.ncard < n) : Front R S n = ∅ := by
  by_contra nonempty
  have := card_of_front R S fin sub (Set.nonempty_iff_ne_empty.mpr nonempty)
  have := Set.ncard_le_ncard (sub n) fin
  omega

theorem mem_within_of_card {U : Set α} (fin : U.Finite) (sub : ∀ n, Within R S n ⊆ U)
    {m n : ℕ} (le : U.ncard ≤ n) {b : α} (mem : b ∈ Within R S m) : b ∈ Within R S n := by
  have empty := front_empty_of_card R S fin sub (Nat.lt_succ_of_le le)
  have mem' : b ∈ Within R S (n + 1) := by
    rcases Nat.le_total m (n + 1) with h | h
    · exact within_mono R S h mem
    · exact within_eq_of_front_empty R S empty h ▸ mem
  by_contra fresh
  have : b ∈ Front R S (n + 1) := ⟨mem', fresh⟩
  rw [empty] at this
  cases this

end Glia.Kit

/-! Lists of arcs that follow one another, and the steps they are. -/
namespace Glia.Kit

section Leads

variable {ε ν : Type*} (src dst : ε → ν)

/-- The arcs lead from `a` to `b`, each starting where the one before ends. -/
def Leads : List ε → ν → ν → Prop
  | [], a, b => a = b
  | e :: rest, a, b => src e = a ∧ Leads rest (dst e) b

variable {src dst} {xs ys : List ε} {a b c : ν}

@[simp] theorem leads_nil : Leads src dst [] a b ↔ a = b := Iff.rfl

@[simp] theorem leads_cons {e : ε} :
    Leads src dst (e :: xs) a b ↔ src e = a ∧ Leads src dst xs (dst e) b := Iff.rfl

theorem leads_append :
    Leads src dst (xs ++ ys) a c ↔ ∃ b, Leads src dst xs a b ∧ Leads src dst ys b c := by
  induction xs generalizing a with
  | nil => simp
  | cons e rest ih => simp only [List.cons_append, leads_cons, ih, exists_and_left, and_assoc]

theorem leads_concat {e : ε} :
    Leads src dst (xs ++ [e]) a b ↔ Leads src dst xs a (src e) ∧ dst e = b := by
  rw [leads_append]
  simp only [leads_cons, leads_nil]
  constructor
  · intro h
    obtain ⟨m, before, rfl, last⟩ := h
    exact ⟨before, last⟩
  · exact fun h => ⟨src e, h.1, rfl, h.2⟩

theorem Leads.hops {R : ν → ν → Prop} (arcs : ∀ e ∈ xs, R (src e) (dst e))
    (leads : Leads src dst xs a b) : Hops R xs.length a b := by
  induction xs using List.reverseRecOn generalizing b with
  | nil => exact leads
  | append_singleton xs e ih =>
    obtain ⟨before, rfl⟩ := leads_concat.mp leads
    rw [List.length_append, List.length_singleton]
    exact ⟨src e, ih (fun x mem => arcs x (List.mem_append_left _ mem)) before,
      arcs e (List.mem_append_right _ List.mem_cons_self)⟩

theorem Leads.through {R : ν → ν → Prop} (arcs : ∀ e ∈ xs, R (src e) (dst e))
    (leads : Leads src dst xs a b) {e : ε} (mem : e ∈ xs) :
    Relation.ReflTransGen R a (src e) ∧ Relation.ReflTransGen R (dst e) b := by
  obtain ⟨before, after, rfl⟩ := List.append_of_mem mem
  obtain ⟨c, first, rest⟩ := leads_append.mp leads
  obtain ⟨rfl, last⟩ := leads_cons.mp rest
  constructor
  · exact (first.hops fun x inside => arcs x (List.mem_append_left _ inside)).reflTransGen
  · exact (last.hops fun x inside =>
      arcs x (List.mem_append_right _ (List.mem_cons_of_mem _ inside))).reflTransGen

theorem exists_leads {P : ε → Prop} {n : ℕ}
    (walk : Hops (fun u v => ∃ e, P e ∧ src e = u ∧ dst e = v) n a b) :
    ∃ xs : List ε, xs.length = n ∧ (∀ e ∈ xs, P e) ∧ Leads src dst xs a b := by
  induction n generalizing b with
  | zero => exact ⟨[], rfl, by simp, walk⟩
  | succ n ih =>
    obtain ⟨c, before, e, holds, rfl, rfl⟩ := walk
    obtain ⟨xs, len, all, leads⟩ := ih before
    refine ⟨xs ++ [e], by simp [len], ?_, leads_concat.mpr ⟨leads, rfl⟩⟩
    intro x mem
    cases List.mem_append.mp mem with
    | inl old => exact all x old
    | inr last => exact List.mem_singleton.mp last ▸ holds

theorem hops_iff_leads {P : ε → Prop} {n : ℕ} :
    Hops (fun u v => ∃ e, P e ∧ src e = u ∧ dst e = v) n a b ↔
      ∃ xs : List ε, xs.length = n ∧ (∀ e ∈ xs, P e) ∧ Leads src dst xs a b := by
  refine ⟨exists_leads, fun h => ?_⟩
  obtain ⟨xs, rfl, all, leads⟩ := h
  exact leads.hops fun e mem => ⟨e, all e mem, rfl, rfl⟩

end Leads

end Glia.Kit
