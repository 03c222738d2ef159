import Glia.Rules.Indexes
import Glia.Rules.PartsExact

/-! What one operation does to one index: the galloping pass that drops present rows keeps the
absent ones, and lowering a row touches no batch's rows, provenances or ordinals. -/
namespace Glia.Rules.Storage

open Batch

section Retain

variable {α : Type} {row : α → Handles} {arity : Nat} {b : Batch}

theorem retainAbsent_eq (h : Ordered arity b) {items : List α}
    (ascending : items.Pairwise fun x y => row x ≤ row y)
    (wide : ∀ a ∈ items, (row a).length = arity) {pos : Nat} (le : pos ≤ b.len)
    (before : ∀ a ∈ items, ∀ i < pos, b.below (row a) i = true) :
    retainAbsent b row pos items = items.filter fun a => row a ∉ b.rows := by
  induction items generalizing pos with
  | nil => rfl
  | cons a rest ih =>
    rw [List.pairwise_cons] at ascending
    have wideA := wide a List.mem_cons_self
    have bound := h.gallop_bound le (before a List.mem_cons_self)
    -- the rows before the bound are below every later item too
    have later : retainAbsent b row (b.gallop (row a) pos) rest =
        rest.filter fun a => row a ∉ b.rows := by
      apply ih ascending.2 (fun c mem => wide c (List.mem_cons_of_mem _ mem)) bound.le
      intro c mem i lt
      have wideC := wide c (List.mem_cons_of_mem _ mem)
      have under := bound.before i lt
      rw [below_iff] at under ⊢
      rw [wideC, ← wideA]
      exact under.trans_le (ascending.1 c mem)
    have found := h.found_iff wideA bound
    unfold retainAbsent
    rw [List.filter_cons]
    by_cases here : row a ∈ b.rows
    · rw [if_pos (found.mpr here), if_neg (by simpa using here)]
      exact later
    · rw [if_neg (fun there => here (found.mp there)), if_pos (by simpa using here), later]

theorem retainAbsent_start (h : Ordered arity b) {items : List α}
    (ascending : items.Pairwise fun x y => row x ≤ row y)
    (wide : ∀ a ∈ items, (row a).length = arity) :
    retainAbsent b row 0 items = items.filter fun a => row a ∉ b.rows :=
  retainAbsent_eq h ascending wide (Nat.zero_le _) fun _ _ i lt => absurd lt (Nat.not_lt_zero i)

theorem foldl_retainAbsent {batches : List Batch} (h : ∀ b ∈ batches, Ordered arity b)
    {items : List α} (ascending : items.Pairwise fun x y => row x ≤ row y)
    (wide : ∀ a ∈ items, (row a).length = arity) :
    batches.foldl (fun items b => retainAbsent b row 0 items) items =
      items.filter fun a => ∀ b ∈ batches, row a ∉ b.rows := by
  induction batches generalizing items with
  | nil => simp
  | cons b rest ih =>
    rw [List.foldl_cons, retainAbsent_start (h b List.mem_cons_self) ascending wide,
      ih (fun c mem => h c (List.mem_cons_of_mem _ mem)) (ascending.filter _)
        (fun a mem => wide a (List.mem_of_mem_filter mem)), List.filter_filter]
    apply List.filter_congr
    intro a _
    simp [Bool.and_comm]

theorem retainAbsent_subset {items : List α} {pos : Nat} {a : α}
    (mem : a ∈ retainAbsent b row pos items) : a ∈ items := by
  induction items generalizing pos with
  | nil => exact mem
  | cons c rest ih =>
    unfold retainAbsent at mem
    dsimp only at mem
    split at mem
    · exact List.mem_cons_of_mem _ (ih mem)
    · rcases List.mem_cons.mp mem with rfl | mem
      · exact List.mem_cons_self
      · exact List.mem_cons_of_mem _ (ih mem)

end Retain

theorem retainLowering_fst (b : Batch) (home level : Tier) (cands : List Candidate) (pos : Nat) :
    (retainLowering b home level pos cands).1 = retainAbsent b Candidate.row pos cands := by
  induction cands generalizing pos with
  | nil => rfl
  | cons c rest ih =>
    unfold retainLowering retainAbsent
    dsimp only
    split
    · split
      · exact ih _
      · exact ih _
    · exact congrArg (c :: ·) (ih _)

theorem retainLowering_snd (b : Batch) (home level : Tier) (cands : List Candidate) (pos : Nat) :
    ∀ c ∈ (retainLowering b home level pos cands).2, c.1 ∈ cands := by
  induction cands generalizing pos with
  | nil => simp [retainLowering]
  | cons c rest ih =>
    unfold retainLowering
    dsimp only
    intro d mem
    split at mem
    · split at mem
      · rcases List.mem_cons.mp mem with rfl | mem
        · exact List.mem_cons_self
        · exact List.mem_cons_of_mem _ (ih _ d mem)
      · exact List.mem_cons_of_mem _ (ih _ d mem)
    · exact List.mem_cons_of_mem _ (ih _ d mem)

section DropLowering

/-- One batch of a round's pass: the candidates kept, and the rows to lower so far. -/
def walkLowering (level home : Tier) (acc : List Candidate × List (Candidate × Tier)) (b : Batch) :
    List Candidate × List (Candidate × Tier) :=
  ((retainLowering b home level 0 acc.1).1, acc.2 ++ (retainLowering b home level 0 acc.1).2)

theorem dropLowering_eq (rel : Relation) (level : Tier) (cands : List Candidate) :
    rel.dropLowering level cands =
      let walked := Tier.all.foldl (fun acc home =>
        (rel.identity.parts home).batches.foldl (walkLowering level home) acc) (cands, [])
      (walked.1, walked.2.insertionSort fun a b => a.1.row ≤ b.1.row) := rfl

variable (level : Tier) (rel : Relation)

theorem foldl_walkLowering_fst (home : Tier) (batches : List Batch)
    (acc : List Candidate × List (Candidate × Tier)) :
    (batches.foldl (walkLowering level home) acc).1 =
      batches.foldl (fun items b => retainAbsent b Candidate.row 0 items) acc.1 := by
  induction batches generalizing acc with
  | nil => rfl
  | cons b rest ih =>
    rw [List.foldl_cons, List.foldl_cons, ih, walkLowering, retainLowering_fst]

theorem dropLowering_fst (cands : List Candidate) :
    (rel.dropLowering level cands).1 = rel.dropPresent Candidate.row cands := by
  have levels : ∀ (tiers : List Tier) (acc : List Candidate × List (Candidate × Tier)),
      (tiers.foldl (fun acc home =>
        (rel.identity.parts home).batches.foldl (walkLowering level home) acc) acc).1 =
      (tiers.flatMap fun l => (rel.identity.parts l).batches).foldl
        (fun items b => retainAbsent b Candidate.row 0 items) acc.1 := by
    intro tiers
    induction tiers with
    | nil => exact fun _ => rfl
    | cons home rest ih =>
      intro acc
      rw [List.foldl_cons, List.flatMap_cons, List.foldl_append, ih, foldl_walkLowering_fst]
  exact levels Tier.all (cands, [])

theorem foldl_walkLowering_mem {cands : List Candidate} (home : Tier) (batches : List Batch)
    {acc : List Candidate × List (Candidate × Tier)} (kept : ∀ c ∈ acc.1, c ∈ cands)
    (lowered : ∀ c ∈ acc.2, c.1 ∈ cands) :
    (∀ c ∈ (batches.foldl (walkLowering level home) acc).1, c ∈ cands) ∧
      ∀ c ∈ (batches.foldl (walkLowering level home) acc).2, c.1 ∈ cands := by
  induction batches generalizing acc with
  | nil => exact ⟨kept, lowered⟩
  | cons b rest ih =>
    rw [List.foldl_cons]
    apply ih
    · intro c mem
      rw [walkLowering, retainLowering_fst] at mem
      exact kept c (retainAbsent_subset mem)
    · intro c mem
      rcases List.mem_append.mp mem with mem | mem
      · exact lowered c mem
      · exact kept c.1 (retainLowering_snd b home level acc.1 0 c mem)

theorem dropLowering_snd (cands : List Candidate) :
    ((rel.dropLowering level cands).2.Pairwise fun x y => x.1.row ≤ y.1.row) ∧
      ∀ c ∈ (rel.dropLowering level cands).2, c.1 ∈ cands := by
  have trans : IsTrans (Candidate × Tier) fun a b => a.1.row ≤ b.1.row :=
    ⟨fun _ _ _ h h' => le_trans h h'⟩
  have total : Std.Total fun a b : Candidate × Tier => a.1.row ≤ b.1.row :=
    ⟨fun _ _ => le_total _ _⟩
  rw [dropLowering_eq]
  refine ⟨List.pairwise_insertionSort (fun a b : Candidate × Tier => a.1.row ≤ b.1.row) _, ?_⟩
  intro c mem
  rw [List.mem_insertionSort] at mem
  have levels : ∀ (tiers : List Tier) (acc : List Candidate × List (Candidate × Tier)),
      (∀ c ∈ acc.1, c ∈ cands) → (∀ c ∈ acc.2, c.1 ∈ cands) →
      ∀ c ∈ (tiers.foldl (fun acc home =>
        (rel.identity.parts home).batches.foldl (walkLowering level home) acc) acc).2,
        c.1 ∈ cands := by
    intro tiers
    induction tiers with
    | nil => exact fun _ _ lowered => lowered
    | cons home rest ih =>
      intro acc kept lowered
      rw [List.foldl_cons]
      have next := foldl_walkLowering_mem level home (rel.identity.parts home).batches kept lowered
      exact ih _ next.1 next.2
  exact levels Tier.all (cands, []) (fun _ mem => mem) (by simp) c mem

end DropLowering

section Bare

def Batch.bare (b : Batch) : Batch := { b with lows := [] }

def Part.bare (p : Part) : Part := ⟨p.stable.map Batch.bare, p.recent.bare⟩

variable {n : Nat}

@[simp] theorem bare_items (b : Batch) : b.bare.items = b.items := rfl

@[simp] theorem bare_len (b : Batch) : b.bare.len = b.len := rfl

@[simp] theorem bare_lower (b : Batch) (i : Nat) (level : Tier) (prov : RowMeta) :
    (b.lower i level prov).bare = b.bare := rfl

theorem ordered_bare {b : Batch} : Ordered n b.bare ↔ Ordered n b :=
  ⟨fun h => ⟨⟨h.metas, h.rows, h.ordinals, h.wide⟩, h.ascending⟩,
    fun h => ⟨⟨h.metas, h.rows, h.ordinals, h.wide⟩, h.ascending⟩⟩

@[simp] theorem Part.bare_batches (p : Part) : p.bare.batches = p.batches.map Batch.bare := by
  simp [Part.bare, Part.batches]

@[simp] theorem Part.bare_items (p : Part) : p.bare.items = p.items := by
  simp [Part.items, List.flatMap_map]

theorem partOk_bare {p : Part} : PartOk n p.bare ↔ PartOk n p := by
  constructor
  · intro h
    refine ⟨fun b mem => ?_, fun b mem => ?_, ?_⟩
    · apply ordered_bare.mp
      apply h.batches
      rw [Part.bare_batches]
      exact List.mem_map_of_mem mem
    · exact h.some b.bare (List.mem_map_of_mem mem)
    · exact (List.isChain_map _).mp h.shrink
  · intro h
    refine ⟨fun b mem => ?_, fun b mem => ?_, ?_⟩
    · rw [Part.bare_batches] at mem
      obtain ⟨c, there, rfl⟩ := List.mem_map.mp mem
      exact ordered_bare.mpr (h.batches c there)
    · obtain ⟨c, there, rfl⟩ := List.mem_map.mp mem
      exact h.some c there
    · exact (List.isChain_map _).mpr h.shrink

theorem aligned_bare {perm : List Nat} {p p' : Part} :
    Aligned perm p.bare p'.bare ↔ Aligned perm p p' := by
  have lists : ∀ l l' : List Batch, List.Forall₂ (AlignedBatch perm) (l.map Batch.bare)
      (l'.map Batch.bare) ↔ List.Forall₂ (AlignedBatch perm) l l' := by
    intro l l'
    rw [List.forall₂_map_left_iff, List.forall₂_map_right_iff]
    rfl
  exact ⟨fun h => ⟨(lists _ _).mp h.stable, h.recent⟩,
    fun h => ⟨(lists _ _).mpr h.stable, h.recent⟩⟩

theorem lowerIn_bare (row : Handles) (level : Tier) (prov : RowMeta) (l : List Batch) :
    (lowerIn row level prov l).map Batch.bare = l.map Batch.bare := by
  induction l with
  | nil => rfl
  | cons b rest ih =>
    unfold lowerIn
    dsimp only
    split
    · rfl
    · exact congrArg (b.bare :: ·) ih

theorem Part.bare_lower (p : Part) (row : Handles) (level : Tier) (prov : RowMeta) :
    (p.lower row level prov).bare = p.bare := by
  have same := lowerIn_bare row level prov p.batches
  unfold Part.lower
  split
  · rename_i recent stable eq
    have back : lowerIn row level prov p.batches = stable.reverse ++ [recent] := by
      rw [← List.reverse_reverse (lowerIn row level prov p.batches), eq, List.reverse_cons]
    rw [back, Part.batches, List.map_append, List.map_append] at same
    obtain ⟨runs, last⟩ := List.append_inj' same rfl
    have recentSame : recent.bare = p.recent.bare := List.head_eq_of_cons_eq last
    rw [Part.bare, Part.bare, runs, recentSame]
  · rfl

end Bare

end Glia.Rules.Storage
