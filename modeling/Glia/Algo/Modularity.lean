import Glia.Algo.ViewQuotientExact
import Mathlib.Data.Rat.Defs
import Mathlib.Algebra.Order.Field.Rat

/-! Newman-Girvan modularity, and that a quotient keeps it. -/
namespace Glia.Algo

open Finset
open Glia.Kit (totalAt block)

structure Resolution where
  num : Nat
  den : Nat
  deriving DecidableEq

def Resolution.ratio (res : Resolution) : Nat × Nat := (res.num, max res.den 1)

def u128Max : Nat := 340282366920938463463374607431768211455

def communityStrengths (g : WeightedGraph) (membership : List Nat) : List (Nat × Nat) :=
  Kit.mergeRuns (· + ·) ((membership.zip ((List.range g.len).map g.strength)).insertionSort
    fun a b => a.1 ≤ b.1)

/-- `A_ij` over the ordered pairs inside one community. -/
def insideWeight (g : WeightedGraph) (membership : List Nat) : Nat :=
  ((List.range g.len).map fun v => g.selfWeight v + ((g.neighbours v).map fun e =>
    if memberOf membership e.1 = memberOf membership v then e.2 else 0).sum).sum

def squares (g : WeightedGraph) (membership : List Nat) : Nat :=
  (communityStrengths g membership).foldl
    (fun s e => min (s + min (e.2 * e.2) u128Max) u128Max) 0

/-- Modularity before it is a float: `none` is `NaN`. -/
def exactModularity (g : WeightedGraph) (membership : List Nat) (res : Resolution) : Option ℚ :=
  if membership.length ≠ g.len then none
  else if g.totalWeight = 0 then some 0
  else
    let t : ℚ := g.totalWeight
    some (insideWeight g membership / t -
      (res.ratio.1 / res.ratio.2 : ℚ) * (squares g membership / (t * t)))

section Squares
variable (g : WeightedGraph) (membership : List Nat)

def strengthOf (x : Nat) : Nat :=
  ∑ v ∈ range g.len with memberOf membership v = x, g.strength v

theorem totalAt_zip (all : membership.length = g.len) (x : Nat) :
    totalAt x (membership.zip ((List.range g.len).map g.strength)) =
      strengthOf g membership x := by
  have zipped : membership.zip ((List.range g.len).map g.strength) =
      (List.range g.len).map fun v => (memberOf membership v, g.strength v) := by
    apply List.ext_getElem
    · simp [all]
    · intro v left right
      have inside : v < membership.length := by
        rw [List.length_zip] at left
        omega
      simp [memberOf, List.getD_eq_getElem?_getD, List.getElem?_eq_getElem inside]
  rw [zipped, totalAt, List.map_map, strengthOf, sum_filter]
  rfl

theorem communityStrengths_sorted : ((membership.zip ((List.range g.len).map
    g.strength)).insertionSort fun a b => a.1 ≤ b.1).Pairwise fun a b => a.1 ≤ b.1 := by
  have trans : IsTrans (Nat × Nat) fun a b => a.1 ≤ b.1 := ⟨fun _ _ _ le le' => le.trans le'⟩
  have total : Std.Total fun a b : Nat × Nat => a.1 ≤ b.1 := ⟨fun _ _ => le_total _ _⟩
  exact List.pairwise_insertionSort _ _

theorem lookup_communityStrengths (all : membership.length = g.len) (x : Nat) :
    ((communityStrengths g membership).lookup x).getD 0 = strengthOf g membership x := by
  rw [communityStrengths, Kit.lookup_mergeRuns (fun _ _ _ => rfl) x
    (communityStrengths_sorted g membership) le_rfl,
    Kit.totalAt_perm (List.perm_insertionSort _ _), totalAt_zip g membership all]

theorem foldl_saturated (l : List (Nat × Nat)) (s : Nat) (fits : s ≤ u128Max) :
    l.foldl (fun s e => min (s + min (e.2 * e.2) u128Max) u128Max) s =
      min (s + (l.map fun e => e.2 * e.2).sum) u128Max := by
  induction l generalizing s with
  | nil => simp [fits]
  | cons e l ih =>
    rw [List.foldl_cons, ih _ (min_le_right _ _), List.map_cons, List.sum_cons]
    omega

theorem squares_eq (all : membership.length = g.len) {S : Finset Nat}
    (labels : ∀ x ∈ membership, x ∈ S) : squares g membership =
      min (∑ x ∈ S, strengthOf g membership x * strengthOf g membership x) u128Max := by
  have strict : (communityStrengths g membership).Pairwise fun a b => a.1 < b.1 :=
    Kit.mergeRuns_ascending (communityStrengths_sorted g membership)
  have once : ((communityStrengths g membership).map Prod.fst).Nodup :=
    List.pairwise_map.mpr (strict.imp fun lt => lt.ne)
  have read : ∀ e ∈ communityStrengths g membership, e.2 = strengthOf g membership e.1 := by
    intro e mem
    rw [← lookup_communityStrengths g membership all, Kit.lookup_of_mem once mem,
      Option.getD_some]
  have inside : ∀ e ∈ communityStrengths g membership, e.1 ∈ S := by
    apply Kit.mergeRuns_forall
    · exact fun _ _ _ left _ => left
    · intro e mem
      rw [List.mem_insertionSort] at mem
      exact labels e.1 (List.of_mem_zip mem).1
  have summed : ((communityStrengths g membership).map fun e => e.2 * e.2).sum =
      ∑ x ∈ S, strengthOf g membership x * strengthOf g membership x := by
    have keyed : ((communityStrengths g membership).map fun e => e.2 * e.2) =
        ((communityStrengths g membership).map Prod.fst).map
          fun x => strengthOf g membership x * strengthOf g membership x := by
      rw [List.map_map]
      apply List.map_congr_left
      intro e mem
      rw [read e mem]
      rfl
    rw [keyed, ← List.sum_toFinset _ once]
    apply sum_subset
    · intro x mem
      obtain ⟨e, listed, rfl⟩ := List.mem_map.mp (List.mem_toFinset.mp mem)
      exact inside e listed
    · intro x _ absent
      have none : (communityStrengths g membership).lookup x = none := by
        rw [List.lookup_eq_none_iff]
        intro e mem
        rw [bne_iff_ne]
        rintro rfl
        exact absent (List.mem_toFinset.mpr (List.mem_map_of_mem mem))
      rw [← lookup_communityStrengths g membership all, none]
      rfl
  rw [squares, foldl_saturated _ _ (Nat.zero_le _), Nat.zero_add, summed]

theorem strengthOf_le (fits : g.Unsaturated) (x : Nat) :
    strengthOf g membership x ≤ g.exactTotal := by
  rw [WeightedGraph.exactTotal_eq]
  have each : ∀ v ∈ range g.len, g.strength v = ∑ u ∈ range g.len, g.entry v u :=
    fun v mem => WeightedGraph.strength_eq fits (mem_range.mp mem)
  rw [← sum_congr rfl each]
  exact sum_le_sum_of_subset (filter_subset _ _)

theorem squares_exact (fits : g.Unsaturated) (all : membership.length = g.len) {S : Finset Nat}
    (labels : ∀ x ∈ membership, x ∈ S) : squares g membership =
      ∑ x ∈ S, strengthOf g membership x * strengthOf g membership x := by
  have maps : ∀ v ∈ range g.len, memberOf membership v ∈ S := by
    intro v mem
    have inside : v < membership.length := all ▸ mem_range.mp mem
    apply labels
    rw [memberOf, List.getD_eq_getElem?_getD, List.getElem?_eq_getElem inside]
    exact List.getElem_mem inside
  have each : ∀ v ∈ range g.len, g.strength v = ∑ u ∈ range g.len, g.entry v u :=
    fun v mem => WeightedGraph.strength_eq fits (mem_range.mp mem)
  have whole : ∑ x ∈ S, strengthOf g membership x = g.exactTotal := by
    rw [WeightedGraph.exactTotal_eq, ← sum_congr rfl each]
    exact sum_fiberwise_of_maps_to maps g.strength
  rw [squares_eq g membership all labels]
  apply min_eq_left
  calc ∑ x ∈ S, strengthOf g membership x * strengthOf g membership x
      ≤ ∑ x ∈ S, strengthOf g membership x * g.exactTotal :=
        sum_le_sum fun x _ => Nat.mul_le_mul_left _ (strengthOf_le g membership fits x)
    _ = g.exactTotal * g.exactTotal := by rw [← sum_mul, whole]
    _ ≤ u64Max * u64Max := Nat.mul_le_mul fits fits
    _ ≤ u128Max := by decide

theorem insideWeight_eq : insideWeight g membership = ∑ v ∈ range g.len,
    ∑ u ∈ range g.len with memberOf membership u = memberOf membership v, g.entry v u := by
  rw [insideWeight, sum_range_map]
  apply sum_congr rfl
  intro v mem
  have row := (g.neighbours_sorted v).sum_eq (fun e mem => g.neighbours_lt mem)
    (fun u w => if memberOf membership u = memberOf membership v then w else 0) (by simp)
  have each : ∀ u ∈ range g.len,
      (if memberOf membership u = memberOf membership v then g.entry v u else 0) =
        (if u = v then g.selfWeight v else 0) +
          if memberOf membership u = memberOf membership v then g.pairWeight v u else 0 := by
    intro u _
    by_cases same : u = v
    · subst same
      simp [WeightedGraph.entry, g.pairWeight_self]
    · rw [if_neg same, Nat.zero_add, WeightedGraph.entry, if_neg (Ne.symm same)]
  rw [row, sum_filter, sum_congr rfl each, sum_add_distrib, sum_ite_eq' (range g.len) v,
    if_pos mem]
  rfl

end Squares

section Kept
variable {g : WeightedGraph} {membership outer : List Nat} {k : Nat}
  (covers : Covers g membership k) (fits : g.Unsaturated) (dense : g.entries ≤ indexCap)
  (small : k ≤ indexCap) (outside : outer.length = k)
include covers fits dense small outside

theorem quotient_insideWeight : insideWeight (g.quotient membership k) outer =
    insideWeight g (composed membership outer) := by
  have maps : ∀ c ∈ range k, memberOf outer c ∈ outer.toFinset := by
    intro c mem
    have inside : c < outer.length := outside ▸ mem_range.mp mem
    rw [memberOf, List.getD_eq_getElem?_getD, List.getElem?_eq_getElem inside]
    exact List.mem_toFinset.mpr (List.getElem_mem inside)
  have whole : ∀ v ∈ range g.len, memberOf outer (memberOf membership v) ∈ outer.toFinset :=
    fun v mem => maps _ (covers.maps v mem)
  have blocks : ∀ x ∈ outer.toFinset,
      block (range k) (memberOf outer) (g.quotient membership k).entry x x =
        block (range g.len) (fun v => memberOf outer (memberOf membership v)) g.entry x x := by
    intro x _
    rw [← Kit.block_block covers.maps]
    apply Kit.block_congr
    intro c left d right
    exact quotient_entry covers fits dense small (mem_range.mp left) (mem_range.mp right)
  rw [insideWeight_eq, insideWeight_eq, quotient_len dense small, ← Kit.sum_diag_block maps,
    sum_congr rfl blocks, Kit.sum_diag_block whole]
  apply sum_congr rfl
  intro v left
  have same : ∀ u ∈ range g.len, (memberOf outer (memberOf membership u) =
      memberOf outer (memberOf membership v) ↔ memberOf (composed membership outer) u =
        memberOf (composed membership outer) v) := by
    intro u right
    rw [covers.memberOf_composed (mem_range.mp left), covers.memberOf_composed (mem_range.mp right)]
  rw [filter_congr same]

omit outside in
theorem quotient_strengthOf (x : Nat) : strengthOf (g.quotient membership k) outer x =
    strengthOf g (composed membership outer) x := by
  rw [strengthOf, quotient_len dense small]
  have each : ∀ c ∈ (range k).filter fun c => memberOf outer c = x,
      (g.quotient membership k).strength c =
        ∑ v ∈ range g.len with memberOf membership v = c, g.strength v :=
    fun c mem => quotient_strength covers fits dense small (mem_range.mp (mem_filter.mp mem).1)
  rw [sum_congr rfl each, Kit.sum_sum_fiber covers.maps, strengthOf]
  apply sum_congr _ fun _ _ => rfl
  apply filter_congr
  intro v mem
  rw [covers.memberOf_composed (mem_range.mp mem)]

theorem quotient_squares : squares (g.quotient membership k) outer =
    squares g (composed membership outer) := by
  have labels : ∀ x ∈ composed membership outer, x ∈ outer.toFinset := by
    intro x mem
    obtain ⟨c, inside, rfl⟩ := List.mem_map.mp mem
    have there : c < outer.length := outside ▸ covers.small c inside
    rw [memberOf, List.getD_eq_getElem?_getD, List.getElem?_eq_getElem there]
    exact List.mem_toFinset.mpr (List.getElem_mem there)
  have all : (composed membership outer).length = g.len := (List.length_map _).trans covers.all
  rw [squares_eq _ outer (outside.trans (quotient_len dense small).symm)
      fun x mem => List.mem_toFinset.mpr mem, squares_eq g _ all labels]
  congr 1
  apply sum_congr rfl
  intro x _
  rw [quotient_strengthOf covers fits dense small]

theorem quotient_modularity (res : Resolution) :
    exactModularity (g.quotient membership k) outer res =
      exactModularity g (composed membership outer) res := by
  have all : (composed membership outer).length = g.len := (List.length_map _).trans covers.all
  have len : (g.quotient membership k).len = k := quotient_len dense small
  unfold exactModularity
  rw [if_neg (not_not.mpr (outside.trans len.symm)), if_neg (not_not.mpr all),
    quotient_total covers fits dense small, quotient_insideWeight covers fits dense small outside,
    quotient_squares covers fits dense small outside]

end Kept

section Result

/-- The quotient is a homomorphism for strengths, weights and modularity. -/
theorem quotient_homomorphism (g : WeightedGraph) (fits : g.Unsaturated)
    (dense : g.entries ≤ indexCap) (membership : List Nat) (k : Nat) (small : k ≤ indexCap)
    (covers : Covers g membership k) :
    (g.quotient membership k).len = k ∧
      (∀ c < k, (g.quotient membership k).strength c =
        ∑ v ∈ range g.len with memberOf membership v = c, g.strength v) ∧
      (g.quotient membership k).totalWeight = g.totalWeight ∧
      (∀ c < k, ∀ d < k, c ≠ d → (g.quotient membership k).pairWeight c d =
        ∑ v ∈ range g.len with memberOf membership v = c,
          ∑ u ∈ range g.len with memberOf membership u = d, g.pairWeight v u) ∧
      (∀ outer : List Nat, outer.length = k → ∀ res,
        exactModularity (g.quotient membership k) outer res =
          exactModularity g (composed membership outer) res) ∧
      ∀ (outer : List Nat) (k' : Nat), outer.length = k → (∀ c ∈ outer, c < k') →
        (g.quotient membership k).quotient outer k' =
          g.quotient (composed membership outer) k' := by
  refine ⟨quotient_len dense small, fun c left => quotient_strength covers fits dense small left,
    quotient_total covers fits dense small, fun c left d right apart =>
      quotient_pairWeight covers fits dense small left right apart, fun outer outside res =>
        quotient_modularity covers fits dense small outside res, ?_⟩
  intro outer k' outside bounded
  exact quotient_quotient covers fits dense small outside bounded

/-- Three nodes in a row, the first with a loop. -/
def loopPath : WeightedGraph :=
  assembleWith (List.range 3)
    [WeightedPair.mk 1 0 2, WeightedPair.mk 0 0 5, WeightedPair.mk 1 2 3, WeightedPair.mk 0 1 1]
    [] indexCap List.pairwise_lt_range (by
      intro p mem
      simp only [List.mem_cons, List.not_mem_nil, or_false] at mem
      rcases mem with rfl | rfl | rfl | rfl <;> exact WeightedPair.mk_valid (by decide) (by decide)
        (by decide))

theorem loopPath_covers {k : Nat} (large : 2 ≤ k) : Covers loopPath [0, 0, 1] k := by
  refine ⟨by decide, ?_⟩
  intro c mem
  have bound : c < 2 := by
    simp only [List.mem_cons, List.not_mem_nil, or_false] at mem
    omega
  exact bound.trans_le large

theorem quotient_homomorphism_loopPath :
    (loopPath.quotient [0, 0, 1] 2).totalWeight = loopPath.totalWeight ∧
      (loopPath.quotient [0, 0, 1] 2).strength 0 =
        ∑ v ∈ range loopPath.len with memberOf [0, 0, 1] v = 0, loopPath.strength v := by
  have whole := quotient_homomorphism loopPath (by unfold WeightedGraph.Unsaturated; decide)
    (by decide) [0, 0, 1] 2 (by decide) (loopPath_covers le_rfl)
  exact ⟨whole.2.2.1, whole.2.1 0 (by decide)⟩

/-- Past the index limit the quotient is empty. -/
theorem past_index_limit : Covers loopPath [0, 0, 1] 4294967296 ∧
    loopPath.Unsaturated ∧ loopPath.totalWeight = 22 ∧
    (loopPath.quotient [0, 0, 1] 4294967296).totalWeight = 0 := by
  refine ⟨loopPath_covers (by decide), by unfold WeightedGraph.Unsaturated; decide, by decide, ?_⟩
  rw [WeightedGraph.quotient, if_pos (by decide)]
  rfl

end Result

end Glia.Algo
