import Glia.Algo.CutMerge
import Mathlib.Data.List.Pairwise
import Mathlib.Data.List.Perm.Basic

/-! The Stoer-Wagner cut is a least cut: every side parts two merged super-vertices at some
phase, and that phase's cut is no heavier. -/
namespace Glia.Algo

open Kit.MaxAdjacency

namespace WeightedGraph

variable (g : WeightedGraph)

def crossing (S : Nat → Bool) : Nat := cut g.pairWeight S (List.range g.len)

def Proper (S : Nat → Bool) : Prop := (∃ v < g.len, S v = true) ∧ ∃ v < g.len, S v = false

def Linked (a b : Nat) : Prop := Relation.ReflTransGen (fun x y => 0 < g.pairWeight x y) a b

/-- Some two nodes are joined by no run of pairs. -/
def Disconnected : Prop := ∃ a < g.len, ∃ b < g.len, ¬ g.Linked a b

theorem Linked.symm {g : WeightedGraph} {a b : Nat} (h : g.Linked a b) : g.Linked b a := by
  induction h with
  | refl => exact .refl
  | tail _ step ih =>
    rw [pairWeight_comm] at step
    exact .head step ih

/-- A row weighs at least what it holds for any of its neighbours, each counted once. -/
theorem sum_weightOf_le {l : List Nat} (once : l.Nodup) {row : WeightRow} (h : row.Sorted) :
    (l.map row.weightOf).sum ≤ (row.map Prod.snd).sum := by
  induction row with
  | nil => exact (sum_map_zero l).le
  | cons e row ih =>
    have none := h.weightOf_lt (Nat.le_refl e.1)
    have apart : ∀ v, WeightRow.weightOf (e :: row) v =
        (if v = e.1 then e.2 else 0) + WeightRow.weightOf row v := by
      intro v
      rw [WeightRow.weightOf_cons]
      by_cases same : v = e.1
      · rw [if_pos same, if_pos same, same, none]
        rfl
      · rw [if_neg same, if_neg same, Nat.zero_add]
    have single : (l.map fun v => if v = e.1 then e.2 else 0).sum ≤ e.2 := by
      clear ih
      induction l with
      | nil => simp
      | cons v l ih =>
        rw [List.map_cons, List.sum_cons]
        by_cases same : v = e.1
        · have others : (l.map fun v => if v = e.1 then e.2 else 0).sum = 0 := by
            rw [List.sum_eq_zero]
            intro x mem
            obtain ⟨u, there, eq⟩ := List.mem_map.mp mem
            have ne : u ≠ e.1 := fun eq => (List.nodup_cons.mp once).1 (same.trans eq.symm ▸ there)
            rw [← eq, if_neg ne]
          rw [if_pos same, others]
          exact le_rfl
        · rw [if_neg same, Nat.zero_add]
          exact ih (List.nodup_cons.mp once).2
    rw [List.map_congr_left fun v _ => apart v, List.sum_map_add, List.map_cons, List.sum_cons]
    exact Nat.add_le_add single (ih h.tail)

theorem sum_join_le_total :
    ((List.range g.len).map (join g.pairWeight (List.range g.len))).sum ≤ g.exactTotal := by
  apply List.sum_le_sum
  intro v _
  rw [join_eq_sum g.pairWeight_comm]
  exact (sum_weightOf_le List.nodup_range (g.neighbours_sorted v)).trans (Nat.le_add_left _ _)

end WeightedGraph

section Contract

variable {g : WeightedGraph} {c : SuperGraph}

structure Contracted (g : WeightedGraph) (c : SuperGraph) : Prop where
  once : c.alive.Nodup
  parts : (c.alive.flatMap c.members).Perm (List.range g.len)
  labelled : ∀ a ∈ c.alive, a ∈ c.members a
  rows : RowsHold c.alive (between g.pairWeight c.members) c.adj

theorem Contracted.mem_lt (h : Contracted g c) {a v : Nat} (alive : a ∈ c.alive)
    (mem : v ∈ c.members a) : v < g.len :=
  List.mem_range.mp (h.parts.mem_iff.mp (List.mem_flatMap.mpr ⟨a, alive, mem⟩))

theorem Contracted.label_unique (h : Contracted g c) {a b v : Nat} (ha : a ∈ c.alive)
    (hb : b ∈ c.alive) (va : v ∈ c.members a) (vb : v ∈ c.members b) : a = b := by
  by_contra ne
  have once : (c.alive.flatMap c.members).Nodup := h.parts.nodup_iff.mpr List.nodup_range
  have apart := (List.nodup_flatMap.mp once).2
  have : Std.Symm (Function.onFun List.Disjoint c.members) := ⟨fun _ _ d _ hx hy => d hy hx⟩
  have disjoint : List.Disjoint (c.members a) (c.members b) := apart.forall ha hb ne
  exact disjoint va vb

theorem Contracted.members_nodup (h : Contracted g c) {a : Nat} (ha : a ∈ c.alive) :
    (c.members a).Nodup :=
  (List.nodup_flatMap.mp (h.parts.nodup_iff.mpr List.nodup_range)).1 a ha

theorem Contracted.symm (a b : Nat) :
    between g.pairWeight c.members a b = between g.pairWeight c.members b a :=
  between_comm g.pairWeight c.members g.pairWeight_comm a b

theorem sum_le_of_subset {l r : List Nat} (once : l.Nodup) (sub : ∀ a ∈ l, a ∈ r) (f : Nat → Nat) :
    (l.map f).sum ≤ (r.map f).sum := by
  obtain ⟨l', perm, sublist⟩ := List.subperm_of_subset once sub
  rw [← (perm.map f).sum_eq]
  exact (sublist.map f).sum_le_sum fun _ _ => Nat.zero_le _

theorem Contracted.fits (h : Contracted g c) (total : g.exactTotal ≤ u64Max) :
    JoinsFit c.alive (between g.pairWeight c.members) := by
  intro l once inside v alive
  have whole : join g.pairWeight (c.alive.flatMap c.members) =
      join g.pairWeight (List.range g.len) :=
    funext fun y => join_perm g.pairWeight h.parts y
  calc join (between g.pairWeight c.members) l v
      ≤ join (between g.pairWeight c.members) c.alive v := sum_le_of_subset once inside _
    _ = ((c.members v).map (join g.pairWeight (List.range g.len))).sum := by
        rw [join_between, whole]
    _ ≤ ((List.range g.len).map (join g.pairWeight (List.range g.len))).sum :=
        sum_le_of_subset (h.members_nodup alive)
          (fun y mem => List.mem_range.mpr (h.mem_lt alive mem)) _
    _ ≤ g.exactTotal := g.sum_join_le_total
    _ ≤ u64Max := total

theorem merge_members_keep (a b : Nat) : ((c.merge a b).members (min a b)).Perm
    (c.members (min a b) ++ c.members (max a b)) := by
  unfold SuperGraph.merge
  dsimp only
  rw [Function.update_self]
  split
  · exact List.perm_append_comm
  · exact .refl _

theorem merge_members_other {a b v : Nat} (notKeep : v ≠ min a b) (notGone : v ≠ max a b) :
    (c.merge a b).members v = c.members v := by
  unfold SuperGraph.merge
  dsimp only
  rw [Function.update_of_ne notKeep, Function.update_of_ne notGone]

theorem merged_weights (g : WeightedGraph) (c : SuperGraph) (a b : Nat) :
    Merged (min a b) (max a b) (between g.pairWeight c.members)
      (between g.pairWeight (c.merge a b).members) := by
  have toKeep : ∀ x, x ≠ min a b → x ≠ max a b →
      between g.pairWeight (c.merge a b).members x (min a b) =
        between g.pairWeight c.members x (min a b) +
          between g.pairWeight c.members x (max a b) := by
    intro x notKeep notGone
    unfold between
    rw [merge_members_other notKeep notGone, ((merge_members_keep a b).map _).sum_eq,
      List.map_append, List.sum_append]
  refine ⟨fun x y xKeep xGone yKeep yGone => ?_, toKeep, fun y yKeep yGone => ?_⟩
  · unfold between
    rw [merge_members_other xKeep xGone, merge_members_other yKeep yGone]
  · rw [Contracted.symm, toKeep y yKeep yGone, Contracted.symm y, Contracted.symm y]

theorem mem_merge_alive {a b v : Nat} : v ∈ (c.merge a b).alive ↔ v ∈ c.alive ∧ v ≠ max a b := by
  simp [SuperGraph.merge]

theorem merge_alive (once : c.alive.Nodup) {a b : Nat} (ha : a ∈ c.alive) (hb : b ∈ c.alive) :
    c.alive.Perm (max a b :: (c.merge a b).alive) := by
  have goneIn : max a b ∈ c.alive := by
    rcases max_choice a b with eq | eq <;> rw [eq] <;> assumption
  have fresh : max a b ∉ (c.merge a b).alive := fun mem => (mem_merge_alive.mp mem).2 rfl
  have left : (max a b :: (c.merge a b).alive).Nodup :=
    List.nodup_cons.mpr ⟨fresh, once.filter _⟩
  apply (List.perm_ext_iff_of_nodup once left).mpr
  intro v
  rw [List.mem_cons, mem_merge_alive]
  constructor
  · exact fun mem => (eq_or_ne v (max a b)).imp id fun ne => ⟨mem, ne⟩
  · rintro (rfl | ⟨mem, _⟩)
    · exact goneIn
    · exact mem

theorem mem_merge_members {a b v x : Nat} (notGone : v ≠ max a b)
    (mem : x ∈ (c.merge a b).members v) :
    (v = min a b ∧ (x ∈ c.members a ∨ x ∈ c.members b)) ∨ (v ≠ min a b ∧ x ∈ c.members v) := by
  by_cases isKeep : v = min a b
  · rw [isKeep, (merge_members_keep a b).mem_iff, List.mem_append] at mem
    refine .inl ⟨isKeep, ?_⟩
    rcases le_total a b with le | le
    · rwa [min_eq_left le, max_eq_right le] at mem
    · rw [min_eq_right le, max_eq_left le] at mem
      exact mem.symm
  · rw [merge_members_other isKeep notGone] at mem
    exact .inr ⟨isKeep, mem⟩

/-- Two super-vertices merged still part the nodes. -/
theorem Contracted.merge (h : Contracted g c) (total : g.exactTotal ≤ u64Max) {a b : Nat}
    (ha : a ∈ c.alive) (hb : b ∈ c.alive) (ne : a ≠ b) : Contracted g (c.merge a b) := by
  have keepIn : min a b ∈ c.alive := by
    rcases min_choice a b with eq | eq <;> rw [eq] <;> assumption
  have goneIn : max a b ∈ c.alive := by
    rcases max_choice a b with eq | eq <;> rw [eq] <;> assumption
  have apart : min a b ≠ max a b := by omega
  have left : ∀ v, v ∈ (c.merge a b).alive ↔ v ∈ c.alive ∧ v ≠ max a b :=
    fun v => mem_merge_alive
  have once : (c.merge a b).alive.Nodup := h.once.filter _
  have keepLeft : min a b ∈ (c.merge a b).alive := (left _).mpr ⟨keepIn, apart⟩
  refine ⟨once, ?_, ?_, ?_⟩
  · -- The label kept, and the labels neither merged.
    have split' : (c.merge a b).alive.Perm (min a b :: (c.merge a b).alive.erase (min a b)) :=
      List.perm_cons_erase keepLeft
    have whole := merge_alive h.once ha hb
    have others : ((c.merge a b).alive.erase (min a b)).flatMap (c.merge a b).members =
        ((c.merge a b).alive.erase (min a b)).flatMap c.members := by
      apply List.flatMap_congr
      intro v mem
      rw [once.mem_erase_iff] at mem
      exact merge_members_other mem.1 ((left v).mp mem.2).2
    have now : ((c.merge a b).alive.flatMap (c.merge a b).members).Perm
        (c.members (min a b) ++ c.members (max a b) ++
          ((c.merge a b).alive.erase (min a b)).flatMap c.members) := by
      refine (split'.flatMap_right _).trans ?_
      rw [List.flatMap_cons, others]
      exact (merge_members_keep a b).append_right _
    have before : (c.alive.flatMap c.members).Perm
        (c.members (max a b) ++ (c.members (min a b) ++
          ((c.merge a b).alive.erase (min a b)).flatMap c.members)) := by
      refine ((whole.trans (split'.cons _)).flatMap_right _).trans ?_
      rw [List.flatMap_cons, List.flatMap_cons]
    refine now.trans (List.Perm.trans ?_ (before.symm.trans h.parts))
    rw [← List.append_assoc]
    exact List.perm_append_comm.append_right _
  · intro v mem
    obtain ⟨inside, notGone⟩ := (left v).mp mem
    by_cases isKeep : v = min a b
    · rw [isKeep, (merge_members_keep a b).mem_iff]
      exact List.mem_append_left _ (h.labelled _ keepIn)
    · rw [merge_members_other isKeep notGone]
      exact h.labelled v inside
  · exact h.rows.merge (h.fits total) Contracted.symm apart keepIn goneIn
      (merged_weights g c a b)

def Respects (c : SuperGraph) (S : Nat → Bool) : Prop :=
  ∀ a ∈ c.alive, ∀ x ∈ c.members a, S x = S a

theorem Contracted.crossing_eq (h : Contracted g c) {S : Nat → Bool} (whole : Respects c S) :
    g.crossing S = cut (between g.pairWeight c.members) S c.alive := by
  rw [cut_between _ c.members whole, cut_perm _ h.parts]
  rfl

theorem Respects.merge {S : Nat → Bool} (whole : Respects c S) {a b : Nat} (ha : a ∈ c.alive)
    (hb : b ∈ c.alive) (same : S a = S b) : Respects (c.merge a b) S := by
  intro v mem x there
  obtain ⟨inside, notGone⟩ := List.mem_filter.mp mem
  have notGone : v ≠ max a b := of_decide_eq_true notGone
  by_cases isKeep : v = min a b
  · rw [isKeep, (merge_members_keep a b).mem_iff, List.mem_append] at there
    have sides : S (min a b) = S (max a b) := by
      rcases le_total a b with le | le
      · rw [min_eq_left le, max_eq_right le, same]
      · rw [min_eq_right le, max_eq_left le, same]
    rcases there with kept | moved
    · rw [isKeep]
      exact whole _ (isKeep ▸ inside) x kept
    · have goneIn : max a b ∈ c.alive := by
        rcases max_choice a b with eq | eq <;> rw [eq] <;> assumption
      rw [isKeep, sides]
      exact whole _ goneIn x moved
  · rw [merge_members_other isKeep notGone] at there
    exact whole v inside x there

end Contract

section OnePhase

variable {g : WeightedGraph} {r : CutRun}

theorem open_growing (w : Nat → Nat → Nat) :
    Growing r.graph.alive w [] r.open ∧ Waiting r.graph.alive [] r.open := by
  have key : ∀ v ∈ r.graph.alive, r.open.key v = 0 := fun v mem => if_pos mem
  have added : ∀ v ∈ r.graph.alive, r.open.added v = false := fun v mem => if_pos mem
  constructor
  · exact {
      maximal := trivial
      count := rfl
      added := fun v mem => by simp [added v mem]
      key := fun v mem _ => key v mem
      labels := fun e mem => nomatch mem
      scanned := fun i lt => absurd lt (Nat.not_lt_zero i)
      last := fun x l eq => nomatch eq
      prev := fun x y l eq => nomatch eq }
  · intro v mem _ some
    rw [key v mem] at some
    exact absurd some (Nat.lt_irrefl 0)

theorem phase_order (h : Contracted g r.graph) (total : g.exactTotal ≤ u64Max)
    (two : 1 < r.graph.alive.length) :
    ∃ rest, MaxAdj (between g.pairWeight r.graph.members) (· ∈ r.graph.alive)
        (r.grown.last :: r.grown.prev :: rest) ∧
      (r.grown.last :: r.grown.prev :: rest).Perm r.graph.alive ∧
      r.grown.cut = join (between g.pairWeight r.graph.members) (r.grown.prev :: rest)
        r.grown.last := by
  obtain ⟨growing, waiting⟩ := open_growing (r := r) (between g.pairWeight r.graph.members)
  obtain ⟨order, grown, full⟩ := grow_spec h.rows (h.fits total) h.once growing waiting
  match order, grown, full with
  | [], _, full =>
    rw [← full] at two
    exact absurd two (by simp)
  | [_], _, full =>
    rw [← full] at two
    exact absurd two (by simp)
  | x :: y :: rest, grown, full =>
    obtain ⟨last, cutEq⟩ := grown.last x (y :: rest) rfl
    have prev := grown.prev x y rest rfl
    have last' : r.grown.last = x := last
    have prev' : r.grown.prev = y := prev
    have sub := List.subperm_of_subset grown.maximal.nodup grown.maximal.inside
    rw [last', prev']
    exact ⟨rest, grown.maximal, sub.perm_of_length_le full.ge, cutEq⟩

def sideOf (c : SuperGraph) (a : Nat) (v : Nat) : Bool := decide (v ∈ c.members a)

theorem Contracted.respects_sideOf {c : SuperGraph} (h : Contracted g c) {a : Nat}
    (ha : a ∈ c.alive) : Respects c (sideOf c a) := by
  intro b hb x mem
  have same : x ∈ c.members a ↔ b ∈ c.members a := by
    constructor
    · intro there
      rw [h.label_unique ha hb there mem]
      exact h.labelled b hb
    · intro there
      rw [h.label_unique ha hb there (h.labelled b hb)]
      exact mem
  exact decide_eq_decide.mpr same

/-- A phase's cut weighs the pairs that cross its last super-vertex. -/
theorem phase_weight (h : Contracted g r.graph) (total : g.exactTotal ≤ u64Max)
    (two : 1 < r.graph.alive.length) :
    r.grown.cut = g.crossing (sideOf r.graph r.grown.last) := by
  obtain ⟨rest, maximal, perm, weight⟩ := phase_order h total two
  have lastIn : r.grown.last ∈ r.graph.alive := perm.mem_iff.mp List.mem_cons_self
  have lastSide : sideOf r.graph r.grown.last r.grown.last = true :=
    decide_eq_true (h.labelled _ lastIn)
  have others : ∀ v ∈ r.grown.prev :: rest, sideOf r.graph r.grown.last v = false := by
    intro v mem
    apply decide_eq_false
    intro there
    have inside := perm.mem_iff.mp (List.mem_cons_of_mem _ mem)
    have eq := h.label_unique lastIn inside there (h.labelled v inside)
    exact (List.nodup_cons.mp maximal.nodup).1 (eq ▸ mem)
  have on : (r.grown.last :: r.grown.prev :: rest).filter
      (fun v => sideOf r.graph r.grown.last v) = [r.grown.last] := by
    rw [List.filter_cons_of_pos lastSide, List.filter_eq_nil_iff.mpr fun v mem => by
      simp [others v mem]]
  have off : (r.grown.last :: r.grown.prev :: rest).filter
      (fun v => !sideOf r.graph r.grown.last v) = r.grown.prev :: rest := by
    rw [List.filter_cons_of_neg (by simp [lastSide]), List.filter_eq_self.mpr fun v mem => by
      simp [others v mem]]
  rw [h.crossing_eq (h.respects_sideOf lastIn), ← cut_perm _ perm, cut, on, off, weight,
    join_eq_sum Contracted.symm]
  congr 1

theorem phase_least (h : Contracted g r.graph) (total : g.exactTotal ≤ u64Max)
    (two : 1 < r.graph.alive.length) {S : Nat → Bool} (whole : Respects r.graph S)
    (parted : S r.grown.prev ≠ S r.grown.last) : r.grown.cut ≤ g.crossing S := by
  obtain ⟨rest, maximal, perm, weight⟩ := phase_order h total two
  have le := join_last_le_cross maximal parted
  rw [cross_eq_cut Contracted.symm, cut_perm _ perm, ← h.crossing_eq whole] at le
  exact weight.le.trans le

theorem linked_across {c : SuperGraph}
    (within : ∀ a ∈ c.alive, ∀ x ∈ c.members a, ∀ y ∈ c.members a, g.Linked x y) {a b : Nat}
    (ha : a ∈ c.alive)
    (path : Relation.ReflTransGen (fun a b => a ∈ c.alive ∧ b ∈ c.alive ∧
      0 < between g.pairWeight c.members a b) a b) :
    ∀ x ∈ c.members a, ∀ y ∈ c.members b, g.Linked x y := by
  induction path with
  | refl => exact within a ha
  | @tail b d _ step ih =>
    obtain ⟨hb, hd, some⟩ := step
    intro x mem y there
    obtain ⟨v, vIn, pos⟩ : ∃ v ∈ c.members d, 0 < join g.pairWeight (c.members b) v := by
      by_contra none
      have zero : between g.pairWeight c.members b d = 0 := by
        apply List.sum_eq_zero
        intro k mem
        obtain ⟨v, vIn, eq⟩ := List.mem_map.mp mem
        rw [← eq]
        exact Nat.eq_zero_of_not_pos fun pos => none ⟨v, vIn, pos⟩
      omega
    obtain ⟨u, uIn, joined⟩ : ∃ u ∈ c.members b, 0 < g.pairWeight u v := by
      by_contra none
      have zero : join g.pairWeight (c.members b) v = 0 := by
        apply List.sum_eq_zero
        intro k mem
        obtain ⟨u, uIn, eq⟩ := List.mem_map.mp mem
        rw [← eq]
        exact Nat.eq_zero_of_not_pos fun pos => none ⟨u, uIn, pos⟩
      omega
    exact (Relation.ReflTransGen.tail (ih x mem u uIn) joined).trans (within d hd v vIn y there)

theorem phase_linked (h : Contracted g r.graph) (total : g.exactTotal ≤ u64Max)
    (two : 1 < r.graph.alive.length) (some : 0 < r.grown.cut)
    (within : ∀ a ∈ r.graph.alive, ∀ x ∈ r.graph.members a, ∀ y ∈ r.graph.members a,
      g.Linked x y) :
    ∀ x ∈ r.graph.members r.grown.prev, ∀ y ∈ r.graph.members r.grown.last, g.Linked x y := by
  obtain ⟨rest, maximal, perm, weight⟩ := phase_order h total two
  obtain ⟨before, inside, unused, _⟩ := maximal
  rw [weight] at some
  have path := linked_last Contracted.symm before inside unused some
  exact linked_across within (perm.mem_iff.mp (by simp)) path

end OnePhase

section Run

variable {g : WeightedGraph} {r : CutRun}

structure PhaseOk (g : WeightedGraph) (p : PhaseCut) : Prop where
  weight : p.weight = g.crossing fun v => decide (v ∈ p.side)
  proper : g.Proper fun v => decide (v ∈ p.side)
  sorted : p.side.Pairwise (· < ·)
  inside : ∀ v ∈ p.side, v < g.len

def Earliest (phases : List PhaseCut) (i : Nat) : Prop :=
  ∃ p, phases[i]? = some p ∧ (∀ q ∈ phases, p.weight ≤ q.weight) ∧
    ∀ j < i, ∀ q, phases[j]? = some q → p.weight < q.weight

structure CutSound (g : WeightedGraph) (r : CutRun) : Prop where
  contracted : Contracted g r.graph
  count : r.phases.length + r.graph.alive.length = g.len
  cuts : ∀ p ∈ r.phases, PhaseOk g p
  covered : ∀ S, (∃ p ∈ r.phases, p.weight ≤ g.crossing S) ∨ Respects r.graph S
  best : r.phases = [] ∨ Earliest r.phases r.best
  within : (∀ p ∈ r.phases, 0 < p.weight) →
    ∀ a ∈ r.graph.alive, ∀ x ∈ r.graph.members a, ∀ y ∈ r.graph.members a, g.Linked x y
  linked : ∀ (i : Nat) (p : PhaseCut), r.phases[i]? = some p →
    (∀ j < i, ∀ q : PhaseCut, r.phases[j]? = some q → 0 < q.weight) →
    ∀ x ∈ p.side, ∀ y ∈ p.side, g.Linked x y

theorem singletons_sound (g : WeightedGraph) : CutSound g g.singletons where
  contracted := by
    have flat : (List.range g.len).flatMap (fun v => [v]) = List.range g.len := by
      rw [List.flatMap_singleton']
    have single : ∀ a b,
        between g.pairWeight g.singletons.graph.members a b = g.pairWeight a b := by
      intro a b
      simp [between, WeightedGraph.singletons]
    refine ⟨List.nodup_range, ?_, fun a _ => List.mem_singleton.mpr rfl, ?_, ?_⟩
    · exact List.Perm.of_eq flat
    · exact fun a _ => g.neighbours_sorted a
    · intro a _ b
      rw [single]
      by_cases other : b ∈ g.singletons.graph.alive ∧ b ≠ a
      · rw [if_pos other]
        rfl
      · rw [if_neg other]
        by_contra some
        have pos : 0 < g.pairWeight a b := Nat.pos_of_ne_zero some
        refine other ⟨List.mem_range.mpr (g.pairWeight_lt pos), fun same => ?_⟩
        rw [same, g.pairWeight_self] at pos
        exact Nat.lt_irrefl 0 pos
  count := by
    show 0 + (List.range g.len).length = g.len
    rw [List.length_range, Nat.zero_add]
  cuts := fun p mem => nomatch mem
  covered := fun S => .inr fun a _ x mem => by rw [List.mem_singleton.mp mem]
  best := .inl rfl
  within := by
    intro _ a _ x hx y hy
    rw [List.mem_singleton.mp hx, List.mem_singleton.mp hy]
    exact .refl
  linked := fun i p at' => by cases at'

theorem earliest_append {phases : List PhaseCut} {i : Nat} (h : phases = [] ∨ Earliest phases i)
    (new : PhaseCut) : Earliest (phases ++ [new]) (match phases[i]? with
      | none => phases.length
      | some p => if new.weight < p.weight then phases.length else i) := by
  have atEnd : (phases ++ [new])[phases.length]? = some new := List.getElem?_concat_length
  rcases h with rfl | ⟨p, at', least, earlier⟩
  · exact ⟨new, rfl, by simp, fun j lt => absurd lt (Nat.not_lt_zero j)⟩
  · rw [at']
    dsimp only
    have inside : i < phases.length := (List.getElem?_eq_some_iff.mp at').1
    have old : ∀ j < phases.length, (phases ++ [new])[j]? = phases[j]? :=
      fun j lt => List.getElem?_append_left lt
    split
    · rename_i lighter
      refine ⟨new, atEnd, fun q mem => ?_, fun j lt q there => ?_⟩
      · rcases List.mem_append.mp mem with mem | mem
        · exact lighter.le.trans (least q mem)
        · rw [List.mem_singleton.mp mem]
      · rw [old j lt] at there
        exact lighter.trans_le (least q (List.mem_of_getElem? there))
    · rename_i notLighter
      refine ⟨p, (old i inside).trans at', fun q mem => ?_, fun j lt q there => ?_⟩
      · rcases List.mem_append.mp mem with mem | mem
        · exact least q mem
        · rw [List.mem_singleton.mp mem]
          exact not_lt.mp notLighter
      · rw [old j (lt.trans inside)] at there
        exact earlier j lt q there

theorem phase_ok (h : Contracted g r.graph) (total : g.exactTotal ≤ u64Max)
    (two : 1 < r.graph.alive.length) :
    PhaseOk g ⟨r.grown.cut, (r.graph.members r.grown.last).insertionSort (· ≤ ·)⟩ := by
  obtain ⟨rest, maximal, perm, _⟩ := phase_order h total two
  have lastIn : r.grown.last ∈ r.graph.alive := perm.mem_iff.mp (by simp)
  have prevIn : r.grown.prev ∈ r.graph.alive := perm.mem_iff.mp (by simp)
  have ne : r.grown.prev ≠ r.grown.last := by
    intro eq
    exact (List.nodup_cons.mp maximal.nodup).1 (eq ▸ List.mem_cons_self)
  have same : (fun v => decide (v ∈ (r.graph.members r.grown.last).insertionSort (· ≤ ·))) =
      sideOf r.graph r.grown.last := by
    funext v
    exact decide_eq_decide.mpr (List.mem_insertionSort _)
  have prevOut : r.grown.prev ∉ r.graph.members r.grown.last := fun mem =>
    ne (h.label_unique prevIn lastIn (h.labelled _ prevIn) mem)
  refine ⟨?_, ?_, ?_, ?_⟩
  · dsimp only
    rw [same]
    exact phase_weight h total two
  · dsimp only
    rw [same]
    exact ⟨⟨_, h.mem_lt lastIn (h.labelled _ lastIn), decide_eq_true (h.labelled _ lastIn)⟩,
      ⟨_, h.mem_lt prevIn (h.labelled _ prevIn), decide_eq_false prevOut⟩⟩
  · have ascending := List.pairwise_insertionSort (· ≤ ·) (r.graph.members r.grown.last)
    have once : ((r.graph.members r.grown.last).insertionSort (· ≤ ·)).Nodup :=
      (List.perm_insertionSort (· ≤ ·) _).nodup_iff.mpr (h.members_nodup lastIn)
    exact (ascending.and once).imp fun {a b} both => lt_of_le_of_ne both.1 both.2
  · exact fun v mem => h.mem_lt lastIn ((List.mem_insertionSort _).mp mem)

theorem CutSound.phase (h : CutSound g r) (total : g.exactTotal ≤ u64Max)
    (two : 1 < r.graph.alive.length) : CutSound g r.phase := by
  obtain ⟨rest, maximal, perm, _⟩ := phase_order h.contracted total two
  have lastIn : r.grown.last ∈ r.graph.alive := perm.mem_iff.mp (by simp)
  have prevIn : r.grown.prev ∈ r.graph.alive := perm.mem_iff.mp (by simp)
  have ne : r.grown.prev ≠ r.grown.last := by
    intro eq
    exact (List.nodup_cons.mp maximal.nodup).1 (eq ▸ List.mem_cons_self)
  have ok := phase_ok h.contracted total two
  have listed : r.phase.phases = r.phases ++
    [⟨r.grown.cut, (r.graph.members r.grown.last).insertionSort (· ≤ ·)⟩] := rfl
  have graph : r.phase.graph = r.graph.merge r.grown.prev r.grown.last := rfl
  constructor
  · exact h.contracted.merge total prevIn lastIn ne
  · have fewer := (merge_alive h.contracted.once prevIn lastIn).length_eq
    have before := h.count
    rw [listed, graph, List.length_append, List.length_singleton]
    rw [List.length_cons] at fewer
    omega
  · intro p mem
    rw [listed] at mem
    rcases List.mem_append.mp mem with mem | mem
    · exact h.cuts p mem
    · rw [List.mem_singleton.mp mem]
      exact ok
  · intro S
    rw [listed]
    rcases h.covered S with ⟨p, mem, le⟩ | whole
    · exact .inl ⟨p, List.mem_append_left _ mem, le⟩
    · by_cases same : S r.grown.prev = S r.grown.last
      · exact .inr (whole.merge prevIn lastIn same)
      · exact .inl ⟨_, List.mem_append_right _ (List.mem_singleton.mpr rfl),
          phase_least h.contracted total two whole same⟩
  · exact .inr (earliest_append h.best _)
  · intro positive a mem x hx y hy
    rw [listed] at positive
    have within := h.within fun p mem => positive p (List.mem_append_left _ mem)
    have some : 0 < r.grown.cut :=
      positive _ (List.mem_append_right _ (List.mem_singleton.mpr rfl))
    have across := phase_linked h.contracted total two some within
    rw [graph] at mem hx hy
    obtain ⟨inside, notGone⟩ := mem_merge_alive.mp mem
    rcases mem_merge_members notGone hx with ⟨isKeep, hx⟩ | ⟨notKeep, hx⟩
    · rcases mem_merge_members notGone hy with ⟨_, hy⟩ | ⟨notKeep, _⟩
      · rcases hx with hx | hx <;> rcases hy with hy | hy
        · exact within _ prevIn x hx y hy
        · exact across x hx y hy
        · exact (across y hy x hx).symm
        · exact within _ lastIn x hx y hy
      · exact absurd isKeep notKeep
    · rcases mem_merge_members notGone hy with ⟨isKeep, _⟩ | ⟨_, hy⟩
      · exact absurd isKeep notKeep
      · exact within a inside x hx y hy
  · intro i p at' earlier x hx y hy
    rw [listed] at at' earlier
    by_cases old : i < r.phases.length
    · rw [List.getElem?_append_left old] at at'
      refine h.linked i p at' (fun j lt q there => earlier j lt q ?_) x hx y hy
      rw [List.getElem?_append_left (lt.trans old)]
      exact there
    · have last : i = r.phases.length := by
        have := (List.getElem?_eq_some_iff.mp at').1
        rw [List.length_append, List.length_singleton] at this
        omega
      rw [last, List.getElem?_concat_length, Option.some.injEq] at at'
      rw [← at'] at hx hy
      refine h.within (fun q mem => ?_) _ lastIn x ((List.mem_insertionSort _).mp hx) y
        ((List.mem_insertionSort _).mp hy)
      obtain ⟨j, lt, eq⟩ := List.getElem_of_mem mem
      refine earlier j (last ▸ lt) q ?_
      rw [List.getElem?_append_left lt, List.getElem?_eq_getElem lt, eq]

theorem sweep_sound (total : g.exactTotal ≤ u64Max) (fuel : Nat) (h : CutSound g r)
    (some : 0 < r.graph.alive.length) (enough : r.graph.alive.length ≤ fuel + 1) :
    ∃ r', sweep fuel r = .some r' ∧ CutSound g r' ∧ r'.graph.alive.length = 1 := by
  induction fuel generalizing r with
  | zero =>
    rw [sweep, if_neg (by omega)]
    exact ⟨r, rfl, h, by omega⟩
  | succ fuel ih =>
    rw [sweep]
    by_cases two : 1 < r.graph.alive.length
    · rw [if_pos two]
      obtain ⟨rest, maximal, perm, _⟩ := phase_order h.contracted total two
      have fewer := (merge_alive h.contracted.once (perm.mem_iff.mp (by simp) :
        r.grown.prev ∈ r.graph.alive) (perm.mem_iff.mp (by simp) :
        r.grown.last ∈ r.graph.alive)).length_eq
      rw [List.length_cons] at fewer
      have graph : r.phase.graph = r.graph.merge r.grown.prev r.grown.last := rfl
      exact ih (h.phase total two) (by rw [graph]; omega) (by rw [graph]; omega)
    · rw [if_neg two]
      exact ⟨r, rfl, h, by omega⟩

end Run

section Exact

variable (g : WeightedGraph)

theorem closed_of_crossing {S : Nat → Bool} (none : g.crossing S = 0) {a b : Nat}
    (lt : a < g.len) (mem : S a = true) (path : g.Linked a b) : b < g.len ∧ S b = true := by
  induction path with
  | refl => exact ⟨lt, mem⟩
  | @tail x y _ step ih =>
    have yLt := g.pairWeight_lt step
    refine ⟨yLt, ?_⟩
    by_contra off
    have isOff : S y = false := by simpa using off
    have xOn : x ∈ (List.range g.len).filter fun v => S v :=
      List.mem_filter.mpr ⟨List.mem_range.mpr ih.1, ih.2⟩
    have yOff : y ∈ (List.range g.len).filter fun v => !S v :=
      List.mem_filter.mpr ⟨List.mem_range.mpr yLt, by simp [isOff]⟩
    have joined : 0 < join g.pairWeight ((List.range g.len).filter fun v => S v) y :=
      step.trans_le (List.single_le_sum (fun _ _ => Nat.zero_le _) _ (List.mem_map_of_mem xOn))
    have crossed : 0 < g.crossing S :=
      joined.trans_le (List.single_le_sum (fun _ _ => Nat.zero_le _) _ (List.mem_map_of_mem yOff))
    omega

theorem exists_uncrossed (apart : g.Disconnected) : ∃ S, g.Proper S ∧ g.crossing S = 0 := by
  classical
  obtain ⟨a, aLt, b, bLt, not⟩ := apart
  refine ⟨fun v => decide (g.Linked a v), ⟨⟨a, aLt, decide_eq_true .refl⟩,
    ⟨b, bLt, decide_eq_false not⟩⟩, ?_⟩
  apply List.sum_eq_zero
  intro k mem
  obtain ⟨y, yOff, rfl⟩ := List.mem_map.mp mem
  apply List.sum_eq_zero
  intro k mem
  obtain ⟨x, xOn, rfl⟩ := List.mem_map.mp mem
  have linked : g.Linked a x := of_decide_eq_true (List.mem_filter.mp xOn).2
  have notLinked : ¬ g.Linked a y := by
    have := (List.mem_filter.mp yOff).2
    simpa using this
  by_contra some
  exact notLinked (linked.tail (Nat.pos_of_ne_zero some))

theorem not_proper_of_respects {r : CutRun} (h : CutSound g r) (one : r.graph.alive.length = 1)
    {S : Nat → Bool} (whole : Respects r.graph S) : ¬ g.Proper S := by
  rintro ⟨⟨x, xLt, on⟩, ⟨y, yLt, off⟩⟩
  obtain ⟨a, alive⟩ := List.length_eq_one_iff.mp one
  have all : ∀ v < g.len, S v = S a := by
    intro v lt
    obtain ⟨b, inside, mem⟩ := List.mem_flatMap.mp
      (h.contracted.parts.mem_iff.mpr (List.mem_range.mpr lt))
    have same : b = a := by
      rw [alive] at inside
      exact List.mem_singleton.mp inside
    rw [whole b inside v mem, same]
  rw [all x xLt] at on
  rw [all y yLt, on] at off
  cases off

/-- The cut Stoer-Wagner returns: its phases are cuts of the view, it is a least cut and the
earliest of them, and of a disconnected view it is one connected component. -/
theorem stoerWagner_exact (two : 2 ≤ g.len) (total : g.exactTotal ≤ u64Max) :
    ∃ cut, stoerWagner g = some cut ∧ cut.phases.length = g.len - 1 ∧
      (∀ p ∈ cut.phases, PhaseOk g p) ∧
      (∃ S, g.Proper S ∧ g.crossing S = cut.weight) ∧
      (∀ S, g.Proper S → cut.weight ≤ g.crossing S) ∧
      (∃ i p, Earliest cut.phases i ∧ cut.phases[i]? = some p ∧ cut.weight = p.weight ∧
        cut.side = (List.range g.len).map fun v => decide (v ∈ p.side)) ∧
      (g.Disconnected → cut.weight = 0 ∧
        ∃ a < g.len, ∀ v < g.len, cut.side[v]? = some true ↔ g.Linked a v) := by
  have length : g.singletons.graph.alive.length = g.len := List.length_range
  obtain ⟨r, run, sound, one⟩ := sweep_sound total g.len (singletons_sound g)
    (by omega) (by omega)
  have count := sound.count
  have best := sound.best.resolve_left fun empty => by
    rw [empty, one] at count
    simp only [List.length_nil] at count
    omega
  obtain ⟨p, at', least, earlier⟩ := best
  have mem := List.mem_of_getElem? at'
  have ok := sound.cuts p mem
  have result : stoerWagner g =
      some ⟨p.weight, (List.range g.len).map fun v => p.side.contains v, r.phases⟩ := by
    rw [stoerWagner, if_neg (by omega), run]
    show (r.phases[r.best]?).bind _ = _
    rw [at']
    rfl
  have minimal : ∀ S, g.Proper S → p.weight ≤ g.crossing S := by
    intro S proper
    rcases sound.covered S with ⟨q, there, le⟩ | whole
    · exact (least q there).trans le
    · exact absurd proper (not_proper_of_respects g sound one whole)
  refine ⟨_, result, ?_, sound.cuts, ⟨_, ok.proper, ok.weight.symm⟩, minimal,
    ⟨r.best, p, ⟨p, at', least, earlier⟩, at', rfl, ?_⟩, fun apart => ?_⟩
  · dsimp only
    omega
  · exact List.map_congr_left fun v _ => by rw [List.contains_eq_mem]
  · obtain ⟨S, proper, none⟩ := exists_uncrossed g apart
    have zero : p.weight = 0 := by
      have := minimal S proper
      omega
    have uncrossed : g.crossing (fun v => decide (v ∈ p.side)) = 0 := by
      rw [← ok.weight, zero]
    obtain ⟨a, aLt, on⟩ := ok.proper.1
    have aIn : a ∈ p.side := of_decide_eq_true on
    refine ⟨zero, a, aLt, fun v lt => ?_⟩
    have side : ((List.range g.len).map fun v => p.side.contains v)[v]? =
        some (p.side.contains v) := by
      rw [List.getElem?_map, List.getElem?_range lt]
      rfl
    dsimp only
    rw [side, Option.some.injEq, List.contains_iff_mem]
    constructor
    · intro vIn
      refine sound.linked r.best p at' (fun j before q there => ?_) a aIn v vIn
      have := earlier j before q there
      omega
    · intro path
      exact of_decide_eq_true (closed_of_crossing g uncrossed aLt on path).2

end Exact

/-- Three nodes, the first two joined by a pair of weight 2. -/
def onePair : WeightedGraph where
  ids := [0, 1, 2]
  rows := [[(1, 2)], [(0, 2)], []]
  selfW := [0, 0, 0]
  ids_sorted := by decide
  rows_length := rfl
  selfW_length := rfl
  sorted := by
    intro row mem
    simp only [List.mem_cons, List.not_mem_nil, or_false] at mem
    rcases mem with rfl | rfl | rfl <;> exact ⟨by decide, by decide⟩
  within := by decide
  loopless := by
    intro v
    match v with
    | 0 => rfl
    | 1 => rfl
    | 2 => rfl
    | _ + 3 => rfl
  symm := by
    intro v u
    match v, u with
    | 0, 0 | 0, 1 | 0, 2 | 0, _ + 3 => rfl
    | 1, 0 | 1, 1 | 1, 2 | 1, _ + 3 => rfl
    | 2, 0 | 2, 1 | 2, 2 | 2, _ + 3 => rfl
    | _ + 3, 0 | _ + 3, 1 | _ + 3, 2 | _ + 3, _ + 3 => rfl

/-- The cut of the three nodes leaves the third out. -/
theorem onePair_cut : ∃ cut, stoerWagner onePair = some cut ∧ cut.phases.length = 2 := by
  obtain ⟨cut, run, phases, _⟩ := stoerWagner_exact onePair (by decide) (by decide)
  exact ⟨cut, run, phases⟩

end Glia.Algo
