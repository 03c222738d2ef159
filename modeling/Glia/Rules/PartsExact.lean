import Glia.Rules.BatchesExact
import Mathlib.Data.List.Chain
import Mathlib.Data.List.Forall2

/-! A partition's runs: pushing one keeps every row, keeps each run more than twice the
next, and does the same merges in every index. -/
namespace Glia.Rules.Storage

open Batch

structure PartOk (arity : Nat) (p : Part) : Prop where
  batches : ∀ b ∈ p.batches, Ordered arity b
  some : ∀ b ∈ p.stable, 0 < b.len
  shrink : p.stable.IsChain fun earlier later => 2 * later.len < earlier.len

/-- A partition's rows with their provenance and ordinal, batch by batch. -/
def Part.items (p : Part) : List (Handles × RowMeta × Nat) := p.batches.flatMap Batch.items

/-- A batch of another index holds the same rows, permuted. -/
def AlignedBatch (perm : List Nat) (b b' : Batch) : Prop :=
  b'.items.Perm (b.items.map (permuteItem perm))

/-- Two indexes' partitions hold the same rows in the same runs. -/
structure Aligned (perm : List Nat) (p p' : Part) : Prop where
  stable : List.Forall₂ (AlignedBatch perm) p.stable p'.stable
  recent : AlignedBatch perm p.recent p'.recent

variable {arity : Nat} {perm : List Nat}

section Push

/-- Runs newest first, in order and each less than half the next. -/
structure RunsOk (arity : Nat) (l : List Batch) : Prop where
  ordered : ∀ b ∈ l, Ordered arity b
  some : ∀ b ∈ l, 0 < b.len
  grow : l.IsChain fun later earlier => 2 * later.len < earlier.len

theorem RunsOk.tail {b : Batch} {l : List Batch} (h : RunsOk arity (b :: l)) : RunsOk arity l :=
  ⟨fun c mem => h.ordered c (List.mem_cons_of_mem _ mem),
    fun c mem => h.some c (List.mem_cons_of_mem _ mem), h.grow.tail⟩

theorem mergeRuns_spec {l : List Batch} (h : RunsOk arity l) {run : Batch}
    (ordered : Ordered arity run) (some : 0 < run.len) :
    RunsOk arity (mergeRuns l run) ∧
      ((mergeRuns l run).flatMap Batch.items).Perm (run.items ++ l.flatMap Batch.items) := by
  induction l generalizing run with
  | nil =>
    refine ⟨⟨by simpa [mergeRuns] using ordered, by simpa [mergeRuns] using some, ?_⟩, ?_⟩
    · exact List.isChain_singleton run
    · simp [mergeRuns]
  | cons last older ih =>
    have lastOk := h.ordered last List.mem_cons_self
    unfold mergeRuns
    split
    · have merged := lastOk.merge ordered
      have len := lastOk.merge_len ordered
      obtain ⟨runs, perm⟩ := ih h.tail merged (by omega)
      refine ⟨runs, perm.trans ?_⟩
      rw [List.flatMap_cons, ← List.append_assoc]
      exact ((lastOk.merge_perm ordered).trans List.perm_append_comm).append_right _
    · rename_i more
      refine ⟨⟨?_, ?_, ?_⟩, ?_⟩
      · intro b mem
        rcases List.mem_cons.mp mem with rfl | mem
        · exact ordered
        · exact h.ordered b mem
      · intro b mem
        rcases List.mem_cons.mp mem with rfl | mem
        · exact some
        · exact h.some b mem
      · exact List.isChain_cons_cons.mpr ⟨not_le.mp more, h.grow⟩
      · rw [List.flatMap_cons]

theorem pushRun_spec {stable : List Batch} (ordered : ∀ b ∈ stable, Ordered arity b)
    (some : ∀ b ∈ stable, 0 < b.len)
    (shrink : stable.IsChain fun earlier later => 2 * later.len < earlier.len) {run : Batch}
    (runOk : Ordered arity run) :
    (∀ b ∈ pushRun stable run, Ordered arity b) ∧ (∀ b ∈ pushRun stable run, 0 < b.len) ∧
      ((pushRun stable run).IsChain fun earlier later => 2 * later.len < earlier.len) ∧
      ((pushRun stable run).flatMap Batch.items).Perm (stable.flatMap Batch.items ++ run.items) := by
  unfold pushRun
  split
  · rename_i none
    rw [runOk.items_nil none, List.append_nil]
    exact ⟨ordered, some, shrink, .refl _⟩
  · rename_i positive
    have runs : RunsOk arity stable.reverse :=
      ⟨fun b mem => ordered b (List.mem_reverse.mp mem),
        fun b mem => some b (List.mem_reverse.mp mem), List.isChain_reverse.mpr shrink⟩
    obtain ⟨merged, perm⟩ := mergeRuns_spec runs runOk (Nat.pos_of_ne_zero positive)
    refine ⟨fun b mem => merged.ordered b (List.mem_reverse.mp mem),
      fun b mem => merged.some b (List.mem_reverse.mp mem),
      List.isChain_reverse.mpr merged.grow, ?_⟩
    refine (((List.reverse_perm _).flatMap_right _).trans perm).trans ?_
    exact List.perm_append_comm.trans (((List.reverse_perm stable).flatMap_right _).append_right _)

end Push

section Align

theorem AlignedBatch.len {a a' : Batch} {n n' : Nat} (ha : a.Whole n) (ha' : a'.Whole n')
    (h : AlignedBatch perm a a') : a'.len = a.len := by
  have := List.Perm.length_eq h
  rw [List.length_map, ha.items_length, ha'.items_length] at this
  exact this

theorem AlignedBatch.merge {a a' b b' : Batch} {n n' : Nat} (ha : Ordered n a) (ha' : Ordered n' a')
    (hb : Ordered n b) (hb' : Ordered n' b') (h : AlignedBatch perm a a')
    (h' : AlignedBatch perm b b') : AlignedBatch perm (a.merge b) (a'.merge b') := by
  refine (ha'.merge_perm hb').trans ((List.Perm.append h h').trans ?_)
  rw [← List.map_append]
  exact ((ha.merge_perm hb).map _).symm

theorem mergeRuns_aligned {l l' : List Batch} {n n' : Nat} (h : RunsOk n l) (h' : RunsOk n' l')
    (aligned : List.Forall₂ (AlignedBatch perm) l l') {run run' : Batch} (runOk : Ordered n run)
    (runOk' : Ordered n' run') (runs : AlignedBatch perm run run') :
    List.Forall₂ (AlignedBatch perm) (mergeRuns l run) (mergeRuns l' run') := by
  induction aligned generalizing run run' with
  | nil => exact .cons runs .nil
  | @cons last last' older older' first rest ih =>
    have lastOk := h.ordered last List.mem_cons_self
    have lastOk' := h'.ordered last' List.mem_cons_self
    unfold mergeRuns
    rw [first.len lastOk.toWhole lastOk'.toWhole, runs.len runOk.toWhole runOk'.toWhole]
    split
    · exact ih h.tail h'.tail (lastOk.merge runOk) (lastOk'.merge runOk')
        (first.merge lastOk lastOk' runOk runOk' runs)
    · exact .cons runs (.cons first rest)

theorem runsOk_reverse {l : List Batch} {n : Nat} (ordered : ∀ b ∈ l, Ordered n b)
    (some : ∀ b ∈ l, 0 < b.len)
    (shrink : l.IsChain fun earlier later => 2 * later.len < earlier.len) :
    RunsOk n l.reverse :=
  ⟨fun b mem => ordered b (List.mem_reverse.mp mem), fun b mem => some b (List.mem_reverse.mp mem),
    List.isChain_reverse.mpr shrink⟩

end Align

section Part

variable {p p' : Part} {n n' : Nat}

theorem PartOk.stable (h : PartOk n p) : ∀ b ∈ p.stable, Ordered n b :=
  fun b mem => h.batches b (List.mem_append_left _ mem)

theorem PartOk.recent (h : PartOk n p) : Ordered n p.recent :=
  h.batches _ (List.mem_append_right _ (List.mem_singleton.mpr rfl))

theorem PartOk.runs (h : PartOk n p) : RunsOk n p.stable.reverse :=
  runsOk_reverse h.stable h.some h.shrink

theorem partOk_of {stable : List Batch} {recent : Batch} (ordered : ∀ b ∈ stable, Ordered n b)
    (some : ∀ b ∈ stable, 0 < b.len)
    (shrink : stable.IsChain fun earlier later => 2 * later.len < earlier.len)
    (last : Ordered n recent) : PartOk n ⟨stable, recent⟩ := by
  refine ⟨fun b mem => ?_, some, shrink⟩
  rcases List.mem_append.mp mem with mem | mem
  · exact ordered b mem
  · rw [List.mem_singleton.mp mem]
    exact last

theorem partOk_empty (n : Nat) : PartOk n Part.empty :=
  partOk_of (by simp) (by simp) List.IsChain.nil (ordered_empty n)

theorem Part.items_eq (p : Part) : p.items = p.stable.flatMap Batch.items ++ p.recent.items := by
  simp [Part.items, Part.batches]

theorem empty_items : Batch.empty.items = [] := rfl

theorem PartOk.push (h : PartOk n p) {run : Batch} (runOk : Ordered n run) {recent : Batch}
    (last : Ordered n recent) : PartOk n ⟨pushRun p.stable run, recent⟩ ∧
      (Part.items ⟨pushRun p.stable run, recent⟩).Perm
        (p.stable.flatMap Batch.items ++ run.items ++ recent.items) := by
  obtain ⟨ordered, some, shrink, perm⟩ := pushRun_spec h.stable h.some h.shrink runOk
  refine ⟨partOk_of ordered some shrink last, ?_⟩
  rw [Part.items_eq]
  exact perm.append_right _

theorem pushRun_aligned (h : PartOk n p) (h' : PartOk n' p')
    (aligned : List.Forall₂ (AlignedBatch perm) p.stable p'.stable) {run run' : Batch}
    (runOk : Ordered n run) (runOk' : Ordered n' run') (runs : AlignedBatch perm run run') :
    List.Forall₂ (AlignedBatch perm) (pushRun p.stable run) (pushRun p'.stable run') := by
  unfold pushRun
  rw [runs.len runOk.toWhole runOk'.toWhole]
  split
  · exact aligned
  · refine List.rel_reverse ?_
    exact mergeRuns_aligned h.runs h'.runs (List.rel_reverse aligned) runOk runOk' runs

theorem PartOk.advance (h : PartOk n p) : PartOk n p.advance ∧ p.advance.items.Perm p.items := by
  obtain ⟨ok, perm⟩ := h.push h.recent (ordered_empty n)
  refine ⟨ok, perm.trans ?_⟩
  rw [Part.items_eq, empty_items, List.append_nil]

theorem aligned_empty : AlignedBatch perm Batch.empty Batch.empty := List.Perm.refl _

theorem Aligned.advance (h : PartOk n p) (h' : PartOk n' p') (aligned : Aligned perm p p') :
    Aligned perm p.advance p'.advance :=
  ⟨pushRun_aligned h h' aligned.stable h.recent h'.recent aligned.recent, aligned_empty⟩

theorem foldl_merge {older : List Batch} {newest : Batch} (ordered : ∀ b ∈ older, Ordered n b)
    (last : Ordered n newest) :
    Ordered n (older.foldl (fun acc earlier => earlier.merge acc) newest) ∧
      (older.foldl (fun acc earlier => earlier.merge acc) newest).items.Perm
        (newest.items ++ older.flatMap Batch.items) := by
  induction older generalizing newest with
  | nil => exact ⟨last, by simp⟩
  | cons b older ih =>
    have bOk := ordered b List.mem_cons_self
    obtain ⟨ok, perm⟩ := ih (fun c mem => ordered c (List.mem_cons_of_mem _ mem)) (bOk.merge last)
    refine ⟨ok, perm.trans ?_⟩
    rw [List.flatMap_cons, ← List.append_assoc]
    exact ((bOk.merge_perm last).trans List.perm_append_comm).append_right _

theorem foldl_merge_aligned {older older' : List Batch} {newest newest' : Batch}
    (aligned : List.Forall₂ (AlignedBatch perm) older older')
    (ordered : ∀ b ∈ older, Ordered n b) (ordered' : ∀ b ∈ older', Ordered n' b)
    (last : Ordered n newest) (last' : Ordered n' newest')
    (newests : AlignedBatch perm newest newest') :
    AlignedBatch perm (older.foldl (fun acc earlier => earlier.merge acc) newest)
      (older'.foldl (fun acc earlier => earlier.merge acc) newest') := by
  induction aligned generalizing newest newest' with
  | nil => exact newests
  | @cons b b' older older' first rest ih =>
    have bOk := ordered b List.mem_cons_self
    have bOk' := ordered' b' List.mem_cons_self
    exact ih (fun c mem => ordered c (List.mem_cons_of_mem _ mem))
      (fun c mem => ordered' c (List.mem_cons_of_mem _ mem)) (bOk.merge last) (bOk'.merge last')
      (first.merge bOk bOk' last last' newests)

theorem PartOk.sealRuns (h : PartOk n p) :
    PartOk n p.sealRuns ∧ p.sealRuns.items.Perm p.items := by
  unfold Part.sealRuns
  have reversed : p.stable = p.stable.reverse.reverse := (List.reverse_reverse _).symm
  split
  · rename_i newest older eq
    have mem : ∀ b, b ∈ newest :: older → b ∈ p.stable := by
      intro b there
      rw [← eq] at there
      exact List.mem_reverse.mp there
    obtain ⟨ok, perm⟩ := foldl_merge
      (fun b there => h.stable b (mem b (List.mem_cons_of_mem _ there)))
      (h.stable newest (mem newest List.mem_cons_self))
    have whole : (older.foldl (fun acc earlier => earlier.merge acc) newest).items.Perm
        (p.stable.flatMap Batch.items) := by
      refine perm.trans ?_
      have flat : (newest :: older).flatMap Batch.items =
          newest.items ++ older.flatMap Batch.items := List.flatMap_cons
      rw [← flat, ← eq]
      exact (List.reverse_perm _).flatMap_right _
    have positive : 0 < (older.foldl (fun acc earlier => earlier.merge acc) newest).len := by
      rw [← ok.items_length, perm.length_eq, List.length_append,
        (h.stable newest (mem newest List.mem_cons_self)).items_length]
      have := h.some newest (mem newest List.mem_cons_self)
      omega
    refine ⟨partOk_of (by simpa using ok) (by simpa using positive)
      (List.isChain_singleton _) h.recent, ?_⟩
    rw [Part.items_eq, Part.items_eq]
    exact (by simpa using whole : ([older.foldl (fun acc earlier => earlier.merge acc)
      newest].flatMap Batch.items).Perm _).append_right _
  · exact ⟨h, .refl _⟩

theorem Aligned.sealRuns (h : PartOk n p) (h' : PartOk n' p') (aligned : Aligned perm p p') :
    Aligned perm p.sealRuns p'.sealRuns := by
  have reversed := List.rel_reverse aligned.stable
  have ordered : ∀ b ∈ p.stable.reverse, Ordered n b :=
    fun b mem => h.stable b (List.mem_reverse.mp mem)
  have ordered' : ∀ b ∈ p'.stable.reverse, Ordered n' b :=
    fun b mem => h'.stable b (List.mem_reverse.mp mem)
  unfold Part.sealRuns
  cases eq : p.stable.reverse with
  | nil =>
    rw [eq] at reversed
    cases eq' : p'.stable.reverse with
    | nil => exact aligned
    | cons newest' older' =>
      rw [eq'] at reversed
      cases reversed
  | cons newest older =>
    rw [eq] at reversed ordered
    cases eq' : p'.stable.reverse with
    | nil =>
      rw [eq'] at reversed
      cases reversed
    | cons newest' older' =>
      rw [eq'] at reversed ordered'
      cases reversed with
      | cons first rest =>
        refine ⟨.cons ?_ .nil, aligned.recent⟩
        exact foldl_merge_aligned rest
          (fun b mem => ordered b (List.mem_cons_of_mem _ mem))
          (fun b mem => ordered' b (List.mem_cons_of_mem _ mem))
          (ordered newest List.mem_cons_self) (ordered' newest' List.mem_cons_self) first

theorem PartOk.permuted (h : PartOk n p) (perm : List Nat) :
    PartOk perm.length (p.permuted perm) ∧ Aligned perm p (p.permuted perm) := by
  constructor
  · refine partOk_of ?_ ?_ ?_ (permuted_ordered _ _)
    · intro b mem
      obtain ⟨b', _, rfl⟩ := List.mem_map.mp mem
      exact permuted_ordered b' perm
    · intro b mem
      obtain ⟨b', there, rfl⟩ := List.mem_map.mp mem
      rw [permuted_len]
      exact h.some b' there
    · refine (List.isChain_map _).mpr (h.shrink.imp fun earlier later lt => ?_)
      rw [permuted_len, permuted_len]
      exact lt
  · refine ⟨?_, permuted_perm h.recent.toWhole perm⟩
    rw [Part.permuted, List.forall₂_map_right_iff]
    exact List.forall₂_same.mpr fun b mem => permuted_perm (h.stable b mem).toWhole perm

end Part

end Glia.Rules.Storage
