import Glia.Algo.PprExact
import Mathlib.Algebra.BigOperators.Field
import Mathlib.Algebra.BigOperators.Ring.Finset
import Mathlib.Algebra.Order.Field.Rat
import Mathlib.Algebra.Order.BigOperators.Group.List
import Mathlib.Data.Finset.Range
import Mathlib.Tactic.FieldSimp
import Mathlib.Tactic.Linarith
import Mathlib.Tactic.NormNum

/-! Over exact rationals: what a round does to the total of the scores, and when they stay a
distribution. -/
namespace Glia.Algo.Ppr

open Glia.Kit (OrdMap)
open Glia.Kit.CountingSort (rowOf rowOf_append)

section Rational

/-- Exact arithmetic in place of floats. -/
def rational : Scalar ℚ where
  zero := 0
  one := 1
  ofCount n := n
  add := (· + ·)
  sub := (· - ·)
  mul := (· * ·)
  div := (· / ·)
  abs x := |x|
  lt x y := decide (x < y)
  le x y := decide (x ≤ y)
  eq x y := decide (x = y)
  sameBits x y := decide (x = y)
  clampDamping d := max (1 / 100) (min d (99 / 100))
  sumStart := 0

theorem rational_sum (l : List ℚ) : rational.sum l = l.sum := by
  rw [List.sum_eq_foldl]
  rfl

theorem damping_pos (d : ℚ) : 0 < rational.clampDamping d :=
  lt_of_lt_of_le (by norm_num) (le_max_left _ _)

theorem damping_lt_one (d : ℚ) : rational.clampDamping d < 1 :=
  max_lt (by norm_num) (lt_of_le_of_lt (min_le_right _ _) (by norm_num))

end Rational

section Rows
variable {α : Type}

theorem sum_range_map (n : Nat) (f : Nat → ℚ) :
    ((List.range n).map f).sum = ∑ i ∈ Finset.range n, f i := by
  rw [← List.sum_toFinset f List.nodup_range]
  refine Finset.sum_congr (Finset.ext fun i => ?_) fun _ _ => rfl
  rw [List.mem_toFinset, List.mem_range, Finset.mem_range]

theorem sum_rows (n : Nat) (es : List (Nat × α)) (rows : ∀ e ∈ es, e.1 < n) (g : Nat → α → ℚ) :
    (es.map fun e => g e.1 e.2).sum = ∑ i ∈ Finset.range n, ((rowOf es i).map (g i)).sum := by
  induction es with
  | nil => simp [rowOf]
  | cons e es ih =>
    have inside : e.1 ∈ Finset.range n := Finset.mem_range.mpr (rows e List.mem_cons_self)
    have split (i : Nat) : ((rowOf (e :: es) i).map (g i)).sum =
        (if e.1 = i then g e.1 e.2 else 0) + ((rowOf es i).map (g i)).sum := by
      unfold rowOf
      rw [List.filterMap_cons]
      by_cases here : e.1 = i
      · simp [here]
      · simp [here]
    rw [List.map_cons, List.sum_cons, ih fun e' mem => rows e' (List.mem_cons_of_mem e mem),
      Finset.sum_congr rfl fun i _ => split i, Finset.sum_add_distrib, Finset.sum_ite_eq,
      if_pos inside]

end Rows

section Sources
variable (config : ActivationConfig ℚ) (nodeIds : List NodeId) (edges : List Edge)

def bySource (events : List (Nat × Nat × ℚ)) : List (Nat × ℚ) := events.map Prod.snd

/-- What every edge read leaves: a node's outgoing weight is what it sends. -/
structure Sent (n : Nat) (s : Incidences ℚ) : Prop where
  length : s.outW.length = n
  inside : ∀ e ∈ s.events, e.1 < n ∧ e.2.1 < n
  positive : ∀ e ∈ s.events, 0 < e.2.2
  out : ∀ j < n, s.outW.getD j 0 = (rowOf (bySource s.events) j).sum

theorem Sent.add {n : Nat} {s : Incidences ℚ} (sent : Sent n s) {t j : Nat} {w : ℚ} (ltT : t < n)
    (ltJ : j < n) (pos : 0 < w) :
    Sent n ⟨s.events ++ [(t, j, w)], addWeight rational s.outW j w⟩ where
  length := (List.length_modify ..).trans sent.length
  inside e mem := by
    rcases List.mem_append.mp mem with held | new
    · exact sent.inside e held
    · rw [List.mem_singleton.mp new]
      exact ⟨ltT, ltJ⟩
  positive e mem := by
    rcases List.mem_append.mp mem with held | new
    · exact sent.positive e held
    · rw [List.mem_singleton.mp new]
      exact pos
  out i lt := by
    have before := sent.out i lt
    have within : i < s.outW.length := by rw [sent.length]; exact lt
    have old : s.outW.getD i 0 = s.outW[i] := by simp [List.getD, within]
    rw [old] at before
    rw [bySource, List.map_append, rowOf_append, List.sum_append]
    rw [← bySource, ← before]
    unfold addWeight
    by_cases here : j = i
    · subst here
      simp [List.getD, within, rowOf, rational]
    · simp [List.getD, within, rowOf, here]

theorem addEdge_sent {s : Incidences ℚ} (sent : Sent nodeIds.length s) (e : Edge) :
    Sent nodeIds.length (addEdge rational config (idToIdx nodeIds) s e) := by
  unfold addEdge
  dsimp only
  split
  · exact sent
  · rename_i above
    have pos : 0 < config.weight rational e.category := by
      refine lt_of_not_ge fun le => above ?_
      exact decide_eq_true le
    cases here : (idToIdx nodeIds)[e.fromId]? with
    | none => exact sent
    | some fi =>
      cases there : (idToIdx nodeIds)[e.toId]? with
      | none => exact sent
      | some ti =>
        have ltF := idToIdx_lt here
        have ltT := idToIdx_lt there
        dsimp only
        cases config.direction with
        | forward => exact sent.add ltT ltF pos
        | backward => exact sent.add ltF ltT pos
        | undirected =>
          have twice := (sent.add ltT ltF pos).add ltF ltT pos
          rw [List.append_assoc] at twice
          exact twice

theorem incidences_sent : Sent nodeIds.length (incidencesOf rational config nodeIds edges) := by
  unfold incidencesOf
  have start : Sent nodeIds.length
      ({ outW := List.replicate nodeIds.length rational.zero } : Incidences ℚ) := by
    refine ⟨List.length_replicate, nofun, nofun, fun j lt => ?_⟩
    simp [bySource, rowOf, lt, rational]
  generalize ({ outW := List.replicate nodeIds.length rational.zero } : Incidences ℚ) = s at start ⊢
  induction edges generalizing s with
  | nil => exact start
  | cons e edges ih => exact ih _ (addEdge_sent config nodeIds start e)

end Sources

section Totals
variable (config : ActivationConfig ℚ) (nodeIds : List NodeId) (edges : List Edge)

theorem sum_getD (l : List ℚ) : ∑ i ∈ Finset.range l.length, l.getD i 0 = l.sum := by
  rw [← sum_range_map]
  refine congrArg List.sum (List.ext_getElem (by simp) fun i _ lt => ?_)
  simp [List.getD, lt]

/-- What one node sends in all is its score, or nothing where it sends nowhere. -/
theorem sent_total {n : Nat} {s : Incidences ℚ} (sent : Sent n s) (scores : List ℚ) {j : Nat}
    (lt : j < n) : ((rowOf (bySource s.events) j).map fun w =>
        propagates rational scores s.outW (j, w)).sum =
      if s.outW.getD j 0 = 0 then 0 else scores.getD j 0 := by
  have out := sent.out j lt
  have pos : ∀ w ∈ rowOf (bySource s.events) j, 0 < w := by
    intro w mem
    obtain ⟨e, held, eq⟩ := List.mem_filterMap.mp mem
    obtain ⟨event, listed, rfl⟩ := List.mem_map.mp held
    split at eq
    · cases eq
      exact sent.positive event listed
    · cases eq
  have low : 0 ≤ s.outW.getD j 0 := by
    rw [out]
    exact List.sum_nonneg fun w mem => (pos w mem).le
  by_cases nowhere : s.outW.getD j 0 = 0
  · rw [if_pos nowhere]
    refine List.sum_eq_zero fun x mem => ?_
    obtain ⟨w, _, rfl⟩ := List.mem_map.mp mem
    have still : ¬(0 : ℚ) < s.outW.getD j 0 := by rw [nowhere]; exact lt_irrefl 0
    exact if_neg fun lt => still (of_decide_eq_true lt)
  · have some' : 0 < s.outW.getD j 0 := lt_of_le_of_ne low (Ne.symm nowhere)
    have each (w : ℚ) : propagates rational scores s.outW (j, w) =
        scores.getD j 0 / s.outW.getD j 0 * w := by
      have value : propagates rational scores s.outW (j, w) =
          scores.getD j 0 * w / s.outW.getD j 0 := if_pos (decide_eq_true some')
      rw [value]
      ring
    rw [if_neg nowhere, List.map_congr_left fun w _ => each w, List.sum_map_mul_left,
      List.map_id', ← out, div_mul_cancel₀ _ nowhere]

/-- What the nodes that send nowhere hold. -/
def danglingTotal (ix : PprIndex ℚ) (scores : List ℚ) : ℚ :=
  (ix.dangling.map fun j => scores.getD j 0).sum

theorem build_dangling (scores : List ℚ) :
    danglingTotal (PprIndex.build rational nodeIds edges config) scores =
      ∑ j ∈ Finset.range nodeIds.length,
        if (incidencesOf rational config nodeIds edges).outW.getD j 0 = 0 then scores.getD j 0
        else 0 := by
  rw [← sum_range_map]
  unfold danglingTotal
  rw [show (PprIndex.build rational nodeIds edges config).dangling =
    (List.range nodeIds.length).filter fun j => decide
      ((incidencesOf rational config nodeIds edges).outW.getD j 0 = 0) from rfl]
  induction List.range nodeIds.length with
  | nil => rfl
  | cons j l ih =>
    rw [List.filter_cons]
    split
    · rename_i holds
      rw [List.map_cons, List.map_cons, List.sum_cons, List.sum_cons, ih,
        if_pos (of_decide_eq_true holds)]
    · rename_i not
      rw [List.map_cons, List.sum_cons, ih, if_neg (of_decide_eq_false (by simpa using not)),
        zero_add]

/-- Everything held is sent on, save by the nodes that send nowhere. -/
theorem propagated_total {scores : List ℚ} (length : scores.length = nodeIds.length) :
    ∑ i ∈ Finset.range nodeIds.length,
        (((PprIndex.build rational nodeIds edges config).row i).map
          (propagates rational scores (incidencesOf rational config nodeIds edges).outW)).sum =
      scores.sum - danglingTotal (PprIndex.build rational nodeIds edges config) scores := by
  have sent := incidences_sent config nodeIds edges
  have alike := read_alike rational config nodeIds edges
  generalize read : incidencesOf rational config nodeIds edges = s at sent
  have rows : ∀ i ∈ Finset.range nodeIds.length,
      (PprIndex.build rational nodeIds edges config).row i = rowOf s.events i := by
    intro i mem
    rw [build_row rational config nodeIds edges (Finset.mem_range.mp mem), alike.rows, read,
      List.getD_eq_getElem?_getD, List.getElem?_map,
      List.getElem?_range (Finset.mem_range.mp mem)]
    rfl
  have targets := sum_rows nodeIds.length s.events (fun e mem => (sent.inside e mem).1)
    fun _ inc => propagates rational scores s.outW inc
  have sources := sum_rows nodeIds.length (bySource s.events) (fun e mem => by
    obtain ⟨event, listed, rfl⟩ := List.mem_map.mp mem
    exact (sent.inside event listed).2) fun j w => propagates rational scores s.outW (j, w)
  rw [bySource, List.map_map, ← bySource] at sources
  calc ∑ i ∈ Finset.range nodeIds.length,
        (((PprIndex.build rational nodeIds edges config).row i).map
          (propagates rational scores s.outW)).sum
      = ∑ i ∈ Finset.range nodeIds.length,
          ((rowOf s.events i).map (propagates rational scores s.outW)).sum :=
        Finset.sum_congr rfl fun i mem => by rw [rows i mem]
    _ = ∑ j ∈ Finset.range nodeIds.length, ((rowOf (bySource s.events) j).map fun w =>
          propagates rational scores s.outW (j, w)).sum := targets.symm.trans sources
    _ = ∑ j ∈ Finset.range nodeIds.length,
          if s.outW.getD j 0 = 0 then 0 else scores.getD j 0 :=
        Finset.sum_congr rfl fun j mem => sent_total sent scores (Finset.mem_range.mp mem)
    _ = scores.sum - danglingTotal (PprIndex.build rational nodeIds edges config) scores := by
        rw [build_dangling, read, ← sum_getD scores, length, ← Finset.sum_sub_distrib]
        refine Finset.sum_congr rfl fun j _ => ?_
        split <;> ring

def exactRound (p scores : List ℚ) : List ℚ :=
  (PprIndex.build rational nodeIds edges config).round rational
    (rational.clampDamping config.damping) p scores (List.replicate nodeIds.length 0)

theorem exactRound_map (p scores : List ℚ) :
    exactRound config nodeIds edges p scores = (List.range nodeIds.length).map fun i =>
      (1 - rational.clampDamping config.damping) * p.getD i 0 +
        rational.clampDamping config.damping *
          ((((PprIndex.build rational nodeIds edges config).row i).map
              (propagates rational scores (incidencesOf rational config nodeIds edges).outW)).sum +
            danglingTotal (PprIndex.build rational nodeIds edges config) scores * p.getD i 0) := by
  refine (round_map rational (PprIndex.build rational nodeIds edges config)
    List.length_replicate _ _ _).trans (List.map_congr_left fun i _ => ?_)
  rw [rational_sum, rational_sum]
  rfl

theorem exactRound_length (p scores : List ℚ) :
    (exactRound config nodeIds edges p scores).length = nodeIds.length := by
  rw [exactRound_map, List.length_map, List.length_range]

theorem exactRound_total {p scores : List ℚ} (lengthP : p.length = nodeIds.length)
    (length : scores.length = nodeIds.length) :
    (exactRound config nodeIds edges p scores).sum =
      (1 - rational.clampDamping config.damping) * p.sum +
        rational.clampDamping config.damping *
          (scores.sum - danglingTotal (PprIndex.build rational nodeIds edges config) scores +
            danglingTotal (PprIndex.build rational nodeIds edges config) scores * p.sum) := by
  have sumP : ∑ i ∈ Finset.range nodeIds.length, p.getD i 0 = p.sum := lengthP ▸ sum_getD p
  rw [exactRound_map, sum_range_map, Finset.sum_add_distrib, ← Finset.mul_sum, ← Finset.mul_sum,
    Finset.sum_add_distrib, ← Finset.mul_sum, sumP, propagated_total config nodeIds edges length]

theorem getD_nonneg {l : List ℚ} (nonneg : ∀ x ∈ l, 0 ≤ x) (i : Nat) : 0 ≤ l.getD i 0 := by
  rw [List.getD_eq_getElem?_getD]
  cases held : l[i]? with
  | none => exact le_rfl
  | some x => exact nonneg x (List.mem_of_getElem? held)

theorem danglingTotal_nonneg (ix : PprIndex ℚ) {scores : List ℚ} (nonneg : ∀ x ∈ scores, 0 ≤ x) :
    0 ≤ danglingTotal ix scores := by
  refine List.sum_nonneg fun x mem => ?_
  obtain ⟨j, _, rfl⟩ := List.mem_map.mp mem
  exact getD_nonneg nonneg j

theorem exactRound_nonneg {p scores : List ℚ} (nonnegP : ∀ x ∈ p, 0 ≤ x)
    (nonneg : ∀ x ∈ scores, 0 ≤ x) : ∀ x ∈ exactRound config nodeIds edges p scores, 0 ≤ x := by
  intro x mem
  rw [exactRound_map] at mem
  obtain ⟨i, lt, rfl⟩ := List.mem_map.mp mem
  have d0 := (damping_pos config.damping).le
  have d1 := sub_nonneg.mpr (damping_lt_one config.damping).le
  have low := getD_nonneg nonnegP i
  have sent := incidences_sent config nodeIds edges
  have sends : 0 ≤ (((PprIndex.build rational nodeIds edges config).row i).map
      (propagates rational scores (incidencesOf rational config nodeIds edges).outW)).sum := by
    refine List.sum_nonneg fun y brought => ?_
    obtain ⟨⟨j, w⟩, held, rfl⟩ := List.mem_map.mp brought
    have pos : 0 < w := by
      rw [build_row rational config nodeIds edges (List.mem_range.mp lt),
        (read_alike rational config nodeIds edges).rows, List.getD_eq_getElem?_getD,
        List.getElem?_map, List.getElem?_range (List.mem_range.mp lt)] at held
      obtain ⟨e, listed, eq⟩ := List.mem_filterMap.mp held
      split at eq
      · have positive := sent.positive e listed
        rw [Option.some.inj eq] at positive
        exact positive
      · cases eq
    unfold propagates
    dsimp only
    split
    · rename_i out
      exact div_nonneg (mul_nonneg (getD_nonneg nonneg j) pos.le) (of_decide_eq_true out).le
    · exact le_rfl
  exact add_nonneg (mul_nonneg d1 low) (mul_nonneg d0 (add_nonneg sends
    (mul_nonneg (danglingTotal_nonneg _ nonneg) low)))

end Totals

section Seeds
variable (nodeIds : List NodeId) (seeds : List NodeId)

def seedSlots : List Nat := seeds.filterMap fun s => (idToIdx nodeIds)[s]?

theorem seedSlots_length :
    (seeds.filter fun s => (idToIdx nodeIds).contains s).length = (seedSlots nodeIds seeds).length := by
  unfold seedSlots
  induction seeds with
  | nil => rfl
  | cons s seeds ih =>
    rw [List.filter_cons, List.filterMap_cons, OrdMap.contains_eq_isSome]
    cases (idToIdx nodeIds)[s]? with
    | none => exact ih
    | some i => exact congrArg (· + 1) ih

theorem personalise_map : personalise rational nodeIds.length (idToIdx nodeIds) seeds =
    (List.range nodeIds.length).map fun i =>
      if i ∈ seedSlots nodeIds seeds then 1 / ((seedSlots nodeIds seeds).length : ℚ) else 0 := by
  generalize weight : (1 : ℚ) / ((seedSlots nodeIds seeds).length : ℚ) = w
  have run : ∀ step : List ℚ → NodeId → List ℚ,
      (∀ p s, (idToIdx nodeIds)[s]? = none → step p s = p) →
      (∀ p s idx, (idToIdx nodeIds)[s]? = some idx → step p s = p.set idx w) →
      ∀ (l : List NodeId) (P : Nat → Prop) [DecidablePred P],
        l.foldl step ((List.range nodeIds.length).map fun i => if P i then w else 0) =
          (List.range nodeIds.length).map fun i =>
            if P i ∨ i ∈ seedSlots nodeIds l then w else 0 := by
    intro step misses hits l
    induction l with
    | nil => simp [seedSlots]
    | cons s l ih =>
      intro P _
      rw [List.foldl_cons, seedSlots, List.filterMap_cons]
      cases held : (idToIdx nodeIds)[s]? with
      | none =>
        rw [misses _ s held]
        exact ih P
      | some idx =>
        have wrote : ((List.range nodeIds.length).map fun i => if P i then w else 0).set idx w =
            (List.range nodeIds.length).map fun i => if P i ∨ i = idx then w else 0 := by
          refine List.ext_getElem (by simp) fun i _ _ => ?_
          rw [List.getElem_set]
          by_cases here : idx = i
          · simp [here]
          · simp [here, Ne.symm here]
        rw [hits _ s idx held, wrote, ih fun i => P i ∨ i = idx]
        simp only [or_assoc, List.mem_cons, seedSlots]
  have start : List.replicate nodeIds.length (0 : ℚ) =
      (List.range nodeIds.length).map fun _ => if False then w else 0 := by
    refine List.ext_getElem (by simp) fun i _ _ => ?_
    simp
  have none : ∀ step : List ℚ → NodeId → List ℚ,
      (∀ p s, (idToIdx nodeIds)[s]? = none → step p s = p) →
      (∀ p s idx, (idToIdx nodeIds)[s]? = some idx → step p s = p.set idx w) →
      seeds.foldl step (List.replicate nodeIds.length 0) =
        (List.range nodeIds.length).map fun i => if i ∈ seedSlots nodeIds seeds then w else 0 := by
    intro step misses hits
    rw [start, run step misses hits seeds fun _ => False]
    simp only [false_or]
  unfold personalise
  rw [seedSlots_length]
  refine none _ (fun p s held => ?_) fun p s idx held => ?_
  · rw [held]
  · rw [held, ← weight]
    rfl

theorem seedSlots_lt {i : Nat} (mem : i ∈ seedSlots nodeIds seeds) : i < nodeIds.length := by
  obtain ⟨s, _, held⟩ := List.mem_filterMap.mp mem
  exact idToIdx_lt held

theorem personalise_total : (personalise rational nodeIds.length (idToIdx nodeIds) seeds).sum =
    ((seedSlots nodeIds seeds).toFinset.card : ℚ) / (seedSlots nodeIds seeds).length := by
  rw [personalise_map, sum_range_map, ← Finset.sum_filter, Finset.sum_const, nsmul_eq_mul,
    mul_one_div]
  refine congrArg (fun s : Finset Nat => (s.card : ℚ) / _) (Finset.ext fun i => ?_)
  rw [Finset.mem_filter, Finset.mem_range, List.mem_toFinset]
  exact and_iff_right_of_imp (seedSlots_lt nodeIds seeds)

theorem personalise_nonneg :
    ∀ x ∈ personalise rational nodeIds.length (idToIdx nodeIds) seeds, 0 ≤ x := by
  intro x mem
  rw [personalise_map] at mem
  obtain ⟨i, _, rfl⟩ := List.mem_map.mp mem
  split
  · exact div_nonneg zero_le_one (Nat.cast_nonneg _)
  · exact le_rfl

def knownSeeds : List NodeId := seeds.filter fun s => s ∈ nodeIds

theorem idToIdx_isSome (id : NodeId) : ((idToIdx nodeIds)[id]?).isSome ↔ id ∈ nodeIds := by
  constructor
  · intro known
    obtain ⟨i, held⟩ := Option.isSome_iff_exists.mp known
    exact List.mem_of_getElem? (idToIdx_get held)
  · have keeps : ∀ (l : List (NodeId × Nat)) (m : OrdMap NodeId Nat),
        m[id]?.isSome ∨ id ∈ l.map Prod.fst →
        (l.foldl (fun m p => m.insert p.1 p.2) m)[id]?.isSome := by
      intro l
      induction l with
      | nil => exact fun m known => known.resolve_right List.not_mem_nil
      | cons p l ih =>
        intro m known
        refine ih _ ?_
        rw [Std.ExtTreeMap.getElem?_insert]
        split
        · exact .inl rfl
        · rename_i apart
          refine known.imp_right fun mem => (List.mem_cons.mp mem).resolve_left fun same => ?_
          exact apart (compare_eq_iff_eq.mpr same.symm)
    intro mem
    refine keeps nodeIds.zipIdx ∅ (.inr ?_)
    rw [List.zipIdx_map_fst]
    exact mem

theorem seedSlots_map : seedSlots nodeIds seeds =
    (knownSeeds nodeIds seeds).map fun s => ((idToIdx nodeIds)[s]?).getD 0 := by
  unfold seedSlots knownSeeds
  induction seeds with
  | nil => rfl
  | cons s seeds ih =>
    have known := idToIdx_isSome nodeIds s
    rw [List.filterMap_cons, List.filter_cons]
    cases held : (idToIdx nodeIds)[s]? with
    | none =>
      rw [held] at known
      rw [if_neg fun h => nomatch known.mpr (of_decide_eq_true h)]
      exact ih
    | some i =>
      rw [held] at known
      rw [if_pos (decide_eq_true (known.mp rfl)), List.map_cons, held]
      exact congrArg (i :: ·) ih

theorem seedSlots_nodup : (seedSlots nodeIds seeds).Nodup ↔ (knownSeeds nodeIds seeds).Nodup := by
  rw [seedSlots_map]
  refine ⟨List.Nodup.of_map _, fun once => once.map_on fun s left t right same => ?_⟩
  have slot : ∀ {s : NodeId}, s ∈ knownSeeds nodeIds seeds →
      nodeIds[((idToIdx nodeIds)[s]?).getD 0]? = some s := by
    intro s mem
    have known := (idToIdx_isSome nodeIds s).mpr (of_decide_eq_true (List.mem_filter.mp mem).2)
    obtain ⟨i, held⟩ := Option.isSome_iff_exists.mp known
    rw [held]
    exact idToIdx_get held
  exact Option.some.inj ((slot left).symm.trans ((congrArg (nodeIds[·]?) same).trans (slot right)))

end Seeds

section Runs
variable (config : ActivationConfig ℚ) (nodeIds : List NodeId) (edges : List Edge)
  (seeds : List NodeId)

def scoresAfter : Nat → List ℚ
  | 0 => personalise rational nodeIds.length (idToIdx nodeIds) seeds
  | k + 1 => exactRound config nodeIds edges
      (personalise rational nodeIds.length (idToIdx nodeIds) seeds) (scoresAfter k)

theorem scoresAfter_length (k : Nat) :
    (scoresAfter config nodeIds edges seeds k).length = nodeIds.length := by
  cases k with
  | zero => exact personalise_length rational _ _ _
  | succ k => exact exactRound_length config nodeIds edges _ _

theorem scoresAfter_nonneg (k : Nat) : ∀ x ∈ scoresAfter config nodeIds edges seeds k, 0 ≤ x := by
  induction k with
  | zero => exact personalise_nonneg nodeIds seeds
  | succ k ih =>
    exact exactRound_nonneg config nodeIds edges (personalise_nonneg nodeIds seeds) ih

theorem rounds_after (left k : Nat) {buffer : List ℚ} (length : buffer.length = nodeIds.length) :
    ∃ done, k ≤ done ∧ done ≤ k + left ∧ (0 < left → k < done) ∧
      (PprIndex.build rational nodeIds edges config).rounds rational
        (rational.clampDamping config.damping)
        (personalise rational nodeIds.length (idToIdx nodeIds) seeds) left
        (scoresAfter config nodeIds edges seeds k) buffer k =
      (scoresAfter config nodeIds edges seeds done, done) := by
  induction left generalizing k buffer with
  | zero => exact ⟨k, le_rfl, le_rfl, nofun, rfl⟩
  | succ left ih =>
    have next : (PprIndex.build rational nodeIds edges config).round rational
        (rational.clampDamping config.damping)
        (personalise rational nodeIds.length (idToIdx nodeIds) seeds)
        (scoresAfter config nodeIds edges seeds k) buffer =
        scoresAfter config nodeIds edges seeds (k + 1) :=
      (round_eq rational config nodeIds edges length _ _ _).trans
        (round_eq rational config nodeIds edges List.length_replicate _ _ _).symm
    rw [PprIndex.rounds, next]
    split
    · exact ⟨k + 1, by omega, by omega, fun _ => by omega, rfl⟩
    · obtain ⟨done, low, high, _, eq⟩ := ih (k + 1) (scoresAfter_length config nodeIds edges seeds k)
      exact ⟨done, by omega, by omega, fun _ => by omega, eq⟩

def Distribution (scores : List ℚ) : Prop := (∀ x ∈ scores, 0 ≤ x) ∧ scores.sum = 1

theorem scoresAfter_total_le (short : (personalise rational nodeIds.length (idToIdx nodeIds) seeds).sum ≤ 1)
    (k : Nat) : (scoresAfter config nodeIds edges seeds k).sum ≤
      (personalise rational nodeIds.length (idToIdx nodeIds) seeds).sum := by
  induction k with
  | zero => exact le_rfl
  | succ k ih =>
    have d0 := (damping_pos config.damping).le
    have total := exactRound_total config nodeIds edges
      (personalise_length rational _ (idToIdx nodeIds) seeds)
      (scoresAfter_length config nodeIds edges seeds k)
    have held := danglingTotal_nonneg (PprIndex.build rational nodeIds edges config)
      (scoresAfter_nonneg config nodeIds edges seeds k)
    rw [scoresAfter, total]
    nlinarith [mul_nonneg d0 (mul_nonneg held (sub_nonneg.mpr short)),
      mul_nonneg d0 (sub_nonneg.mpr ih)]

theorem scoresAfter_total_one
    (whole : (personalise rational nodeIds.length (idToIdx nodeIds) seeds).sum = 1) (k : Nat) :
    (scoresAfter config nodeIds edges seeds k).sum = 1 := by
  induction k with
  | zero => exact whole
  | succ k ih =>
    rw [scoresAfter, exactRound_total config nodeIds edges (personalise_length rational _ _ _)
      (scoresAfter_length config nodeIds edges seeds k), ih, whole]
    ring

section Listed
variable {nodeIds seeds}

theorem seedSlots_pos (known : knownSeeds nodeIds seeds ≠ []) :
    (0 : ℚ) < (seedSlots nodeIds seeds).length := by
  refine Nat.cast_pos.mpr (Nat.pos_of_ne_zero ?_)
  rw [seedSlots_map, List.length_map]
  exact fun none => known (List.length_eq_zero_iff.mp none)

theorem personalise_whole (known : knownSeeds nodeIds seeds ≠ [])
    (once : (knownSeeds nodeIds seeds).Nodup) :
    (personalise rational nodeIds.length (idToIdx nodeIds) seeds).sum = 1 := by
  rw [personalise_total, List.toFinset_card_of_nodup ((seedSlots_nodup nodeIds seeds).mpr once),
    div_self (seedSlots_pos known).ne']

theorem personalise_short (known : knownSeeds nodeIds seeds ≠ [])
    (twice : ¬(knownSeeds nodeIds seeds).Nodup) :
    (personalise rational nodeIds.length (idToIdx nodeIds) seeds).sum < 1 := by
  rw [personalise_total, div_lt_one₀ (seedSlots_pos known)]
  refine Nat.cast_lt.mpr (lt_of_le_of_ne (List.toFinset_card_le _) fun same => twice ?_)
  exact (seedSlots_nodup nodeIds seeds).mp
    (Multiset.coe_nodup.mp (Multiset.toFinset_card_eq_card_iff_nodup.mp same))

end Listed

/-- The scores stay a distribution from the first round on exactly where no seed that is a node
is listed twice; where one is, their total is short of one. -/
theorem vector_distribution_iff (known : knownSeeds nodeIds seeds ≠ []) :
    let result := (PprIndex.build rational nodeIds edges config).vector rational seeds
    result.1 = scoresAfter config nodeIds edges seeds result.2 ∧
      ((∀ k, 1 ≤ k → k ≤ result.2 → Distribution (scoresAfter config nodeIds edges seeds k)) ↔
        config.maxIterations = 0 ∨ (knownSeeds nodeIds seeds).Nodup) ∧
      (¬(knownSeeds nodeIds seeds).Nodup → ∀ k,
        (∀ x ∈ scoresAfter config nodeIds edges seeds k, 0 ≤ x) ∧
          (scoresAfter config nodeIds edges seeds k).sum < 1) := by
  have run : (PprIndex.build rational nodeIds edges config).vector rational seeds =
      (PprIndex.build rational nodeIds edges config).iterate rational
        (personalise rational nodeIds.length (idToIdx nodeIds) seeds) := by
    have nodes : nodeIds ≠ [] := by
      rintro rfl
      exact known (List.filter_eq_nil_iff.mpr fun s _ h => by simp at h)
    have listed : seeds ≠ [] := by
      rintro rfl
      exact known rfl
    have slots : (seedSlots nodeIds seeds).length ≠ 0 :=
      Nat.cast_ne_zero.mp (seedSlots_pos known).ne'
    unfold PprIndex.vector
    refine (if_neg ?_).trans (if_neg fun none => slots ?_)
    · exact fun either => either.elim (fun none => nodes (List.length_eq_zero_iff.mp none)) listed
    · exact (seedSlots_length nodeIds seeds).symm.trans none
  obtain ⟨done, _, high, some', eq⟩ := rounds_after config nodeIds edges seeds config.maxIterations 0
    (List.length_replicate : (List.replicate nodeIds.length (0 : ℚ)).length = nodeIds.length)
  have result : (PprIndex.build rational nodeIds edges config).vector rational seeds =
      (scoresAfter config nodeIds edges seeds done, done) := run.trans eq
  have short (twice : ¬(knownSeeds nodeIds seeds).Nodup) (k : Nat) :
      (scoresAfter config nodeIds edges seeds k).sum < 1 :=
    (scoresAfter_total_le config nodeIds edges seeds (personalise_short known twice).le k).trans_lt
      (personalise_short known twice)
  dsimp only
  rw [result]
  refine ⟨rfl, ⟨fun holds => ?_, ?_⟩,
    fun twice k => ⟨scoresAfter_nonneg config nodeIds edges seeds k, short twice k⟩⟩
  · by_cases rounds : config.maxIterations = 0
    · exact .inl rounds
    · refine .inr (by_contra fun twice => ?_)
      have first := (holds 1 le_rfl (some' (Nat.pos_of_ne_zero rounds))).2
      exact (short twice 1).ne first
  · rintro (none | once) k low within
    · rw [none] at high
      exact absurd (low.trans (within.trans high)) (by decide)
    · exact ⟨scoresAfter_nonneg config nodeIds edges seeds k,
        scoresAfter_total_one config nodeIds edges seeds (personalise_whole known once) k⟩

theorem vector_distribution_iff_two :
    let config : ActivationConfig ℚ := { damping := 1 / 2, epsilon := 0 }
    let edge : Edge := ⟨1, 2, 4, .strong, []⟩
    let result := (PprIndex.build rational [1, 2] [edge] config).vector rational [1]
    result.1 = scoresAfter config [1, 2] [edge] [1] result.2 ∧
      ((∀ k, 1 ≤ k → k ≤ result.2 → Distribution (scoresAfter config [1, 2] [edge] [1] k)) ↔
        config.maxIterations = 0 ∨ (knownSeeds [1, 2] [1]).Nodup) ∧
      (¬(knownSeeds [1, 2] [1]).Nodup → ∀ k,
        (∀ x ∈ scoresAfter config [1, 2] [edge] [1] k, 0 ≤ x) ∧
          (scoresAfter config [1, 2] [edge] [1] k).sum < 1) :=
  vector_distribution_iff _ _ _ _ (by decide)

/-- One node, its seed listed twice: a round's total is short of one. -/
theorem scoresAfter_twice :
    let config : ActivationConfig ℚ := { damping := 1 / 2, maxIterations := 1, epsilon := 0 }
    ([1] : List NodeId).Nodup ∧ knownSeeds [1] [1, 1] ≠ [] ∧
      (PprIndex.build rational [1] [] config).vector rational [1, 1] = ([3 / 8], 1) ∧
      ¬Distribution [3 / 8] := by
  refine ⟨by decide, by decide, by decide +kernel, fun h => ?_⟩
  have total : (3 / 8 : ℚ) + 0 = 1 := h.2
  norm_num at total

end Runs

end Glia.Algo.Ppr
