import Glia.Kit.Grouping
import Glia.Rules.Aggregate
import Mathlib.Algebra.BigOperators.Group.Finset.Basic
import Mathlib.Data.Finset.Max
import Mathlib.Order.Bounds.Basic

/-! What an aggregate makes of its bindings, read off the set of them: a group's rows do
not tell the order the bindings came in, how often, or the numbering of the values. Only a
sum's running total does. -/
namespace Glia.Rules

section First

variable {α : Type} {key : α → Row}

theorem firstOf_sublist (l : List α) : (firstOf key l).Sublist l := by
  induction l with
  | nil => exact List.Sublist.refl _
  | cons a rest ih => exact (List.filter_sublist.trans ih).cons_cons a

theorem firstOf_keys_nodup (l : List α) : ((firstOf key l).map key).Nodup := by
  induction l with
  | nil => exact List.nodup_nil
  | cons a rest ih =>
    rw [firstOf, List.map_cons, List.nodup_cons]
    constructor
    · rw [List.mem_map]
      rintro ⟨b, mem, same⟩
      exact of_decide_eq_true (List.mem_filter.mp mem).2 same
    · exact ih.sublist (List.filter_sublist.map key)

theorem exists_firstOf {l : List α} {a : α} (mem : a ∈ l) : ∃ b ∈ firstOf key l, key b = key a := by
  induction l with
  | nil => cases mem
  | cons c rest ih =>
    by_cases same : key a = key c
    · exact ⟨c, List.mem_cons_self, same.symm⟩
    · rcases List.mem_cons.mp mem with rfl | mem
      · exact absurd rfl same
      · obtain ⟨b, there, eq⟩ := ih mem
        refine ⟨b, List.mem_cons_of_mem _ (List.mem_filter.mpr ⟨there, ?_⟩), eq⟩
        exact decide_eq_true (eq ▸ same)

theorem firstOf_least {r : α → α → Prop} {l : List α} (sorted : l.Pairwise r) {b : α}
    (kept : b ∈ firstOf key l) {a : α} (mem : a ∈ l) (same : key a = key b) : a = b ∨ r b a := by
  induction l with
  | nil => cases mem
  | cons c rest ih =>
    rw [List.pairwise_cons] at sorted
    rcases List.mem_cons.mp kept with rfl | kept
    · rcases List.mem_cons.mp mem with rfl | mem
      · exact .inl rfl
      · exact .inr (sorted.1 a mem)
    · obtain ⟨there, ne⟩ := List.mem_filter.mp kept
      rcases List.mem_cons.mp mem with rfl | mem
      · exact absurd same.symm (of_decide_eq_true ne)
      · exact ih sorted.2 there mem

end First

section Rendered

variable (src : FactSource)

def renderedKey : Value → Nat ×ₗ Int ×ₗ String ×ₗ Nat
  | .int x => toLex (0, toLex (x, toLex ("", 0)))
  | .str s => toLex (1, toLex (0, toLex (s, 0)))
  | .node n => toLex (2, toLex (0, toLex (src.renderNode n, n)))

theorem renderedKey_injective : Function.Injective (renderedKey src) := by
  intro a b same
  cases a <;> cases b <;> simp_all [renderedKey]

theorem compareRendered_lt (a b : Value) :
    compareRendered src a b = .lt ↔ renderedKey src a < renderedKey src b := by
  by_cases same : a = b
  · subst same
    simp [compareRendered]
  · rw [compareRendered, if_neg same]
    cases a <;> cases b <;>
      simp [compareValues, renderedKey, Prod.Lex.toLex_lt_toLex, compare_lt_iff_lt,
        Ordering.then_eq_lt]

theorem compareRendered_gt (a b : Value) :
    compareRendered src a b = .gt ↔ renderedKey src b < renderedKey src a := by
  by_cases same : a = b
  · subst same
    simp [compareRendered]
  · rw [compareRendered, if_neg same]
    cases a <;> cases b <;>
      simp [compareValues, renderedKey, Prod.Lex.toLex_lt_toLex, compare_gt_iff_gt,
        Ordering.then_eq_gt]
    rw [@eq_comm _ (src.renderNode _) (src.renderNode _)]

/-- The value a scan ends on is one of those scanned, and none beats it. -/
theorem bestValue_spec {wins : Ordering} {r : Value → Value → Prop} (refl : ∀ a, r a a)
    (trans : ∀ {a b c}, r a b → r b c → r a c)
    (win : ∀ v b, compareRendered src v b = wins → r v b)
    (lose : ∀ v b, compareRendered src v b ≠ wins → r b v) (best : Value) (rest : List Value) :
    bestValue src wins best rest ∈ best :: rest ∧
      ∀ v ∈ best :: rest, r (bestValue src wins best rest) v := by
  induction rest generalizing best with
  | nil => simp [bestValue, refl]
  | cons v rest ih =>
    rw [bestValue]
    by_cases beats : v ≠ best ∧ compareRendered src v best = wins
    · rw [if_pos beats]
      obtain ⟨mem, most⟩ := ih v
      refine ⟨List.mem_cons_of_mem _ mem, fun w hw => ?_⟩
      rcases List.mem_cons.mp hw with rfl | hw
      · exact trans (most v List.mem_cons_self) (win v w beats.2)
      · exact most w hw
    · rw [if_neg beats]
      obtain ⟨mem, most⟩ := ih best
      have below : r best v := by
        by_cases same : v = best
        · exact same ▸ refl v
        · exact lose v best fun eq => beats ⟨same, eq⟩
      constructor
      · rcases List.mem_cons.mp mem with eq | mem
        · rw [eq]
          exact List.mem_cons_self
        · exact List.mem_cons_of_mem _ (List.mem_cons_of_mem _ mem)
      · intro w hw
        rcases List.mem_cons.mp hw with rfl | hw
        · exact most w List.mem_cons_self
        · rcases List.mem_cons.mp hw with rfl | hw
          · exact trans (most best List.mem_cons_self) below
          · exact most w (List.mem_cons_of_mem _ hw)

theorem bestValue_min (best : Value) (rest : List Value) :
    bestValue src .lt best rest ∈ best :: rest ∧
      ∀ v ∈ best :: rest, renderedKey src (bestValue src .lt best rest) ≤ renderedKey src v := by
  refine bestValue_spec src (r := fun a b => renderedKey src a ≤ renderedKey src b)
    (fun _ => le_rfl) le_trans ?_ ?_ best rest
  · exact fun v b eq => ((compareRendered_lt src v b).mp eq).le
  · exact fun v b ne => not_lt.mp fun lt => ne ((compareRendered_lt src v b).mpr lt)

theorem bestValue_max (best : Value) (rest : List Value) :
    bestValue src .gt best rest ∈ best :: rest ∧
      ∀ v ∈ best :: rest, renderedKey src v ≤ renderedKey src (bestValue src .gt best rest) := by
  refine bestValue_spec src (r := fun a b => renderedKey src b ≤ renderedKey src a)
    (fun _ => le_rfl) (fun h h' => h'.trans h) ?_ ?_ best rest
  · exact fun v b eq => ((compareRendered_gt src v b).mp eq).le
  · exact fun v b ne => not_lt.mp fun lt => ne ((compareRendered_gt src v b).mpr lt)

end Rendered

section Spec

variable (src : FactSource) (handle : Value → Nat) (spec : AggSpec) (bindings : List Projected)

def groupBindings (key : Row) : List Projected :=
  bindings.filter fun b => b.row.take spec.group = key

def Kept (b : Projected) : Prop :=
  b ∈ bindings ∧ ∀ b' ∈ bindings, b'.row = b.row →
    toLex (b.level, b.height) ≤ toLex (b'.level, b'.height)

def groupTuples (key : Row) (cols : List Nat) : Finset Row :=
  ((groupBindings spec bindings key).map (tupleOf cols)).toFinset

/-- A binding's integer at a column. -/
def intAt (col : Nat) (b : Projected) : Option Int :=
  match b.row[col]? with
  | some (.int x) => some x
  | _ => none

/-- The distinct integers of a group's column. -/
def groupInts (key : Row) (col : Nat) : Finset Int :=
  ((groupBindings spec bindings key).filterMap (intAt col)).toFinset

def InRange (x : Int) : Prop := intMin ≤ x ∧ x ≤ intMax

instance : DecidablePred InRange := fun _ => inferInstanceAs (Decidable (_ ∧ _))

def OpResult (key : Row) : AggOp × List Nat → Value → Prop
  | (.count, cols), v => v = .int (groupTuples spec bindings key cols).card
  | (.sum, [col]), v => v = .int (∑ x ∈ groupInts spec bindings key col, x)
  | (.min, [col]), v => (∃ b ∈ groupBindings spec bindings key, b.row[col]? = some v) ∧
    ∀ b ∈ groupBindings spec bindings key, ∀ w, b.row[col]? = some w → compareRendered src v w ≠ .gt
  | (.max, [col]), v => (∃ b ∈ groupBindings spec bindings key, b.row[col]? = some v) ∧
    ∀ b ∈ groupBindings spec bindings key, ∀ w, b.row[col]? = some w → compareRendered src v w ≠ .lt
  | _, _ => False

/-- One group's row: its ops' values in head order, the weakest level of its kept bindings and
one above their greatest height, short of the greatest there is. -/
structure GroupRow (key : Row) (r : EdbRow × Nat) : Prop where
  row : ∃ results, List.Forall₂ (OpResult src spec bindings key) spec.ops results ∧
    r.1.row = spec.outOrder.filterMap fun c =>
      match c with
      | .group i => key[i]?
      | .agg j => results[j]?
  level : IsGreatest {t | ∃ b ∈ groupBindings spec bindings key, Kept bindings b ∧ b.level = t}
    r.1.level
  height : ∃ h, IsGreatest {h | ∃ b ∈ groupBindings spec bindings key, Kept bindings b ∧
    b.height = h} h ∧
    r.2 = min (h + 1) heightMax
  ordinal : r.1.ordinal = noOrdinal

def AggregateRows (out : List (EdbRow × Nat)) : Prop :=
  ∃ keys : List Row, keys.Nodup ∧
    (∀ key, key ∈ keys ↔ ∃ b ∈ bindings, b.row.take spec.group = key) ∧
    List.Forall₂ (GroupRow src spec bindings) keys out

/-- Some group's sum has no value: it meets a value that is no integer, or is out of range. -/
def BadSum : Prop :=
  ∃ key col, (.sum, [col]) ∈ spec.ops ∧ (∃ b ∈ bindings, b.row.take spec.group = key) ∧
    ((∃ b ∈ groupBindings spec bindings key, intAt col b = none) ∨
      ¬ InRange (∑ x ∈ groupInts spec bindings key col, x))

def Aggregates (outcome : Except RulesError (List (EdbRow × Nat))) : Prop :=
  (BadSum spec bindings → ∃ e, outcome = .error e) ∧
    (¬ BadSum spec bindings → ∃ out, outcome = .ok out ∧ AggregateRows src spec bindings out)

structure Projection (width : Nat) : Prop where
  wide : ∀ b ∈ bindings, b.row.length = width
  apart : ∀ b ∈ bindings, ∀ v ∈ b.row, ∀ b' ∈ bindings, ∀ v' ∈ b'.row, handle v = handle v' → v = v'

/-- A group's running totals in handle order, and its counts, are all in range. -/
def OpFits (key : Row) : AggOp × List Nat → Prop
  | (.count, cols) => ((groupTuples spec bindings key cols).card : Int) ≤ intMax
  | (.sum, [col]) => ∀ x ∈ groupInts spec bindings key col,
    InRange (∑ y ∈ (groupInts spec bindings key col).filter fun y =>
      handle (.int y) ≤ handle (.int x), y)
  | _ => True

/-- No running total leaves the range, unless some sum has no value at all. -/
def TotalsFit : Prop :=
  BadSum spec bindings ∨ ∀ key, (∃ b ∈ bindings, b.row.take spec.group = key) →
    ∀ op ∈ spec.ops, OpFits handle spec bindings key op

end Spec

section Dedup

variable {handle : Value → Nat} {bindings : List Projected}

instance : IsTrans Projected (Projected.order handle) := ⟨fun _ _ _ h h' => le_trans h h'⟩

instance : Std.Total (Projected.order handle) := ⟨fun _ _ => le_total _ _⟩

theorem mem_deduplicated {b : Projected} (mem : b ∈ deduplicated handle bindings) :
    Kept bindings b := by
  have sorted : (bindings.insertionSort (Projected.order handle)).Pairwise
      (Projected.order handle) := List.pairwise_insertionSort _ _
  have listed := (firstOf_sublist _).subset mem
  rw [List.mem_insertionSort] at listed
  refine ⟨listed, fun b' mem' same => ?_⟩
  rcases firstOf_least sorted mem ((List.mem_insertionSort _).mpr mem') same with rfl | below
  · exact le_rfl
  · rcases Prod.Lex.toLex_le_toLex.mp below with lt | ⟨_, le⟩
    · simp only [same, lt_self_iff_false] at lt
    · exact le

theorem exists_deduplicated {b : Projected} (mem : b ∈ bindings) :
    ∃ b' ∈ deduplicated handle bindings, b'.row = b.row :=
  exists_firstOf ((List.mem_insertionSort (Projected.order handle)).mpr mem)

theorem Kept.agree {b b' : Projected} (h : Kept bindings b) (h' : Kept bindings b')
    (same : b.row = b'.row) : b.level = b'.level ∧ b.height = b'.height := by
  have eq := le_antisymm (h.2 b' h'.1 same.symm) (h'.2 b h.1 same)
  exact Prod.mk.inj (toLex.injective eq)

end Dedup

section Members

structure MembersOf (group members : List Projected) : Prop where
  sub : ∀ b ∈ members, b ∈ group
  all : ∀ b ∈ group, ∃ b' ∈ members, b'.row = b.row

variable {group members : List Projected}

theorem MembersOf.toFinset_eq (h : MembersOf group members) {γ : Type} [DecidableEq γ]
    {f : Projected → Option γ} (rows : ∀ b b', b.row = b'.row → f b = f b') :
    (members.filterMap f).toFinset = (group.filterMap f).toFinset := by
  ext c
  simp only [List.mem_toFinset, List.mem_filterMap]
  constructor
  · rintro ⟨b, mem, eq⟩
    exact ⟨b, h.sub b mem, eq⟩
  · rintro ⟨b, mem, eq⟩
    obtain ⟨b', there, same⟩ := h.all b mem
    exact ⟨b', there, (rows b' b same).trans eq⟩

theorem tupleOf_congr (cols : List Nat) {b b' : Projected} (same : b.row = b'.row) :
    tupleOf cols b = tupleOf cols b' := by
  unfold tupleOf
  rw [same]

theorem intAt_congr (col : Nat) {b b' : Projected} (same : b.row = b'.row) :
    intAt col b = intAt col b' := by
  unfold intAt
  rw [same]

theorem distinctTuples_card (h : MembersOf group members) (handle : Value → Nat) (cols : List Nat) :
    (distinctTuples handle cols members).length =
      (group.map (tupleOf cols)).toFinset.card := by
  have once : ((distinctTuples handle cols members).map (tupleOf cols)).Nodup :=
    firstOf_keys_nodup _
  have same : ((distinctTuples handle cols members).map (tupleOf cols)).toFinset =
      (group.map (tupleOf cols)).toFinset := by
    ext t
    simp only [List.mem_toFinset, List.mem_map]
    constructor
    · rintro ⟨b, mem, eq⟩
      have listed := (firstOf_sublist _).subset mem
      rw [List.mem_insertionSort] at listed
      exact ⟨b, h.sub b listed, eq⟩
    · rintro ⟨b, mem, rfl⟩
      obtain ⟨b', there, row⟩ := h.all b mem
      have sorted := (List.mem_insertionSort (fun a b : Projected =>
        (tupleOf cols a).map handle ≤ (tupleOf cols b).map handle)).mpr there
      have kept : ∃ c ∈ distinctTuples handle cols members, tupleOf cols c = tupleOf cols b' :=
        exists_firstOf sorted
      obtain ⟨c, kept, eq⟩ := kept
      exact ⟨c, kept, eq.trans (tupleOf_congr cols row)⟩
  rw [← same, List.toFinset_card_of_nodup once, List.length_map]

end Members

section Sum

/-- A running total over a list ends in range at every step. -/
theorem sumTuples_eq (pred : String) (col : Nat) (total s : Int) (ds : List Projected) :
    sumTuples pred col total ds = .ok s ↔ (∀ b ∈ ds, intAt col b ≠ none) ∧
      s = total + (ds.filterMap (intAt col)).sum ∧
      ∀ p, p ≠ [] → p <+: ds.filterMap (intAt col) → InRange (total + p.sum) := by
  induction ds generalizing total with
  | nil =>
    simp only [sumTuples, Except.ok.injEq, List.not_mem_nil, false_implies, implies_true,
      List.filterMap_nil, List.sum_nil, add_zero, List.prefix_nil, true_and]
    constructor
    · rintro rfl
      exact ⟨rfl, fun p ne eq => absurd eq ne⟩
    · rintro ⟨rfl, _⟩
      rfl
  | cons b rest ih =>
    unfold sumTuples
    split
    · rename_i x at'
      have int : intAt col b = some x := by simp [intAt, at']
      rw [List.filterMap_cons, int]
      simp only [List.sum_cons, List.forall_mem_cons, int, ne_eq, reduceCtorEq, not_false_eq_true,
        true_and]
      split
      · rename_i fits
        rw [ih]
        refine and_congr_right fun _ => and_congr ?_ ?_
        · rw [add_assoc]
        · constructor
          · intro later p ne isPrefix
            cases p with
            | nil => exact absurd rfl ne
            | cons y p =>
              obtain ⟨rfl, within⟩ := List.cons_prefix_cons.mp isPrefix
              rw [List.sum_cons, ← add_assoc]
              by_cases empty : p = []
              · rw [empty, List.sum_nil, add_zero]
                exact fits
              · exact later p empty within
          · intro all p ne isPrefix
            have := all (x :: p) (by simp) (List.cons_prefix_cons.mpr ⟨rfl, isPrefix⟩)
            rwa [List.sum_cons, ← add_assoc] at this
      · rename_i out
        simp only [reduceCtorEq, false_iff, not_and]
        intro _ _ all
        have := all [x] (by simp) (List.cons_prefix_cons.mpr ⟨rfl, List.nil_prefix⟩)
        rw [List.sum_singleton] at this
        exact out this
    · rename_i notInt
      simp only [reduceCtorEq, false_iff, not_and]
      intro ints
      exfalso
      have int := ints b List.mem_cons_self
      unfold intAt at int
      split at int
      · rename_i x at'
        exact notInt x at'
      · exact int rfl

theorem prefixSums_iff {h : Int → Nat} {xs : List Int} (up : xs.Pairwise fun a b => h a < h b)
    (Q : Int → Prop) : (∀ p, p ≠ [] → p <+: xs → Q p.sum) ↔
      ∀ x ∈ xs, Q (∑ y ∈ xs.toFinset.filter fun y => h y ≤ h x, y) := by
  have upTo : ∀ (l r : List Int) (x : Int), xs = l ++ x :: r →
      ∑ y ∈ xs.toFinset.filter (fun y => h y ≤ h x), y = (l ++ [x]).sum := by
    rintro l r x rfl
    obtain ⟨upL, upR, across⟩ := List.pairwise_append.mp up
    have same : (l ++ x :: r).toFinset.filter (fun y => h y ≤ h x) = (l ++ [x]).toFinset := by
      ext y
      simp only [Finset.mem_filter, List.mem_toFinset, List.mem_append, List.mem_cons,
        List.not_mem_nil, or_false]
      constructor
      · rintro ⟨left | rfl | right, le⟩
        · exact .inl left
        · exact .inr rfl
        · have := (List.pairwise_cons.mp upR).1 y right
          omega
      · rintro (left | rfl)
        · exact ⟨.inl left, (across y left x List.mem_cons_self).le⟩
        · exact ⟨.inr (.inl rfl), le_rfl⟩
    have once : (l ++ [x]).Nodup := by
      have sub : (l ++ [x]).Sublist (l ++ x :: r) :=
        List.Sublist.append_left (List.Sublist.cons_cons x (List.nil_sublist r)) l
      exact (up.sublist sub).imp fun {a b} lt eq => absurd (congrArg h eq) lt.ne
    have total := List.sum_toFinset id once
    rw [List.map_id] at total
    rw [same]
    exact total
  constructor
  · intro all x mem
    obtain ⟨l, r, rfl⟩ := List.append_of_mem mem
    rw [upTo l r x rfl]
    exact all _ (by simp) ⟨r, by simp⟩
  · rintro all p ne ⟨r, rfl⟩
    obtain ⟨l, x, rfl⟩ := (List.eq_nil_or_concat p).resolve_left ne
    have here := all x (by simp)
    rw [upTo l r x (by simp)] at here
    rwa [List.concat_eq_append]

theorem tupleOf_single (col : Nat) (b : Projected) : tupleOf [col] b = (b.row[col]?).toList := by
  unfold tupleOf
  cases at' : b.row[col]? <;> simp [at']

theorem intAt_of_tuple {col : Nat} {a b : Projected} (same : tupleOf [col] a = tupleOf [col] b) :
    intAt col a = intAt col b := by
  rw [tupleOf_single, tupleOf_single] at same
  have at' : a.row[col]? = b.row[col]? := by
    cases ha : a.row[col]? <;> cases hb : b.row[col]? <;> simp_all
  unfold intAt
  rw [at']

theorem intAt_eq_some {col : Nat} {b : Projected} {x : Int} :
    intAt col b = some x ↔ b.row[col]? = some (.int x) := by
  unfold intAt
  split
  · rename_i y at'
    rw [at']
    simp
  · rename_i notInt
    constructor
    · intro eq
      cases eq
    · exact fun at' => absurd at' (notInt x)

variable {group members : List Projected} (handle : Value → Nat) (col : Nat)

theorem distinct_ints (h : MembersOf group members) :
    ((distinctTuples handle [col] members).filterMap (intAt col)).toFinset =
      (group.filterMap (intAt col)).toFinset := by
  rw [← h.toFinset_eq fun b b' same => intAt_congr col same]
  ext x
  simp only [List.mem_toFinset, List.mem_filterMap]
  constructor
  · rintro ⟨b, mem, eq⟩
    have listed := (firstOf_sublist _).subset mem
    rw [List.mem_insertionSort] at listed
    exact ⟨b, listed, eq⟩
  · rintro ⟨b, mem, eq⟩
    have sorted := (List.mem_insertionSort (fun a b : Projected =>
      (tupleOf [col] a).map handle ≤ (tupleOf [col] b).map handle)).mpr mem
    have kept : ∃ c ∈ distinctTuples handle [col] members, tupleOf [col] c = tupleOf [col] b :=
      exists_firstOf sorted
    obtain ⟨c, kept, same⟩ := kept
    exact ⟨c, kept, (intAt_of_tuple same).trans eq⟩

theorem distinct_ascending (h : MembersOf group members)
    (apart : ∀ b ∈ group, ∀ v ∈ b.row, ∀ b' ∈ group, ∀ v' ∈ b'.row, handle v = handle v' → v = v') :
    ((distinctTuples handle [col] members).filterMap (intAt col)).Pairwise
      fun x y => handle (.int x) < handle (.int y) := by
  have : IsTrans Projected fun a b => (tupleOf [col] a).map handle ≤ (tupleOf [col] b).map handle :=
    ⟨fun _ _ _ h h' => le_trans h h'⟩
  have : Std.Total fun a b : Projected =>
      (tupleOf [col] a).map handle ≤ (tupleOf [col] b).map handle := ⟨fun _ _ => le_total _ _⟩
  have sorted : (distinctTuples handle [col] members).Pairwise fun a b =>
      (tupleOf [col] a).map handle ≤ (tupleOf [col] b).map handle :=
    (List.pairwise_insertionSort _ members).sublist (firstOf_sublist _)
  have once : (distinctTuples handle [col] members).Pairwise fun a b =>
      tupleOf [col] a ≠ tupleOf [col] b := List.pairwise_map.mp (firstOf_keys_nodup _)
  have held : ∀ b ∈ distinctTuples handle [col] members, b ∈ group := by
    intro b mem
    have listed := (firstOf_sublist _).subset mem
    rw [List.mem_insertionSort] at listed
    exact h.sub b listed
  rw [List.pairwise_filterMap]
  refine (sorted.and once).imp_of_mem ?_
  rintro a b memA memB ⟨le, ne⟩ x isX y isY
  have atX := intAt_eq_some.mp isX
  have atY := intAt_eq_some.mp isY
  rw [tupleOf_single, tupleOf_single, atX, atY] at le ne
  have le' : handle (.int x) ≤ handle (.int y) := by
    by_contra lt
    have below : ([handle (.int y)] : List Nat) < [handle (.int x)] :=
      List.Lex.rel (not_le.mp lt)
    exact absurd le (not_le.mpr below)
  refine lt_of_le_of_ne le' fun same => ne ?_
  rw [apart a (held a memA) _ (List.mem_of_getElem? atX) b (held b memB) _
    (List.mem_of_getElem? atY) same]

theorem sum_eq_ok (h : MembersOf group members)
    (apart : ∀ b ∈ group, ∀ v ∈ b.row, ∀ b' ∈ group, ∀ v' ∈ b'.row, handle v = handle v' → v = v')
    (pred : String) (s : Int) :
    sumTuples pred col 0 (distinctTuples handle [col] members) = .ok s ↔
      (∀ b ∈ group, intAt col b ≠ none) ∧
      s = ∑ x ∈ (group.filterMap (intAt col)).toFinset, x ∧
      ∀ x ∈ (group.filterMap (intAt col)).toFinset, InRange
        (∑ y ∈ (group.filterMap (intAt col)).toFinset.filter fun y =>
          handle (.int y) ≤ handle (.int x), y) := by
  have up := distinct_ascending handle col h apart
  have once : ((distinctTuples handle [col] members).filterMap (intAt col)).Nodup :=
    up.imp fun {a b} lt eq => absurd (congrArg (fun x => handle (.int x)) eq) lt.ne
  have total := List.sum_toFinset id once
  rw [List.map_id] at total
  have ints : (∀ b ∈ distinctTuples handle [col] members, intAt col b ≠ none) ↔
      ∀ b ∈ group, intAt col b ≠ none := by
    constructor
    · intro all b mem
      obtain ⟨b', there, same⟩ := h.all b mem
      have sorted := (List.mem_insertionSort (fun a b : Projected =>
        (tupleOf [col] a).map handle ≤ (tupleOf [col] b).map handle)).mpr there
      have kept : ∃ c ∈ distinctTuples handle [col] members, tupleOf [col] c = tupleOf [col] b' :=
        exists_firstOf sorted
      obtain ⟨c, kept, eq⟩ := kept
      rw [← intAt_congr col same, ← intAt_of_tuple eq]
      exact all c kept
    · intro all b mem
      have listed := (firstOf_sublist _).subset mem
      rw [List.mem_insertionSort] at listed
      exact all b (h.sub b listed)
  rw [sumTuples_eq, ints, ← total, distinct_ints handle col h]
  simp only [zero_add]
  refine and_congr_right fun _ => and_congr_right fun _ => ?_
  have steps := prefixSums_iff (h := fun x => handle (.int x)) up InRange
  simp only [distinct_ints handle col h] at steps
  rw [steps]
  exact forall_congr' fun x => by
    rw [← distinct_ints handle col h, List.mem_toFinset]

end Sum

section Ops

variable {src : FactSource} {handle : Value → Nat} {spec : AggSpec} {bindings : List Projected}
  {width : Nat} {pred : String} {key : Row}

/-- An op a check lets through: a count, or one column of the row. -/
def OpChecked (width : Nat) (op : AggOp × List Nat) : Prop :=
  op.1 = .count ∨ ∃ col < width, op.2 = [col]

theorem opChecked_of_checkSpec (checked : checkSpec spec width pred = none) :
    ∀ op ∈ spec.ops, OpChecked width op := by
  unfold checkSpec at checked
  simp only at checked
  split at checked
  · cases checked
  split at checked
  · cases checked
  split at checked
  · cases checked
  rename_i none_found
  rw [List.findSome?_eq_none_iff] at none_found
  intro op mem
  have here := none_found op mem
  by_cases isCount : op.1 = .count
  · exact .inl isCount
  · rw [if_neg (fun h => isCount h.1)] at here
    split at here
    · cases here
    rename_i single
    have one : op.2.length = 1 := by
      by_contra ne
      exact single ⟨isCount, ne⟩
    obtain ⟨col, eq⟩ := List.length_eq_one_iff.mp one
    refine .inr ⟨col, ?_, eq⟩
    by_contra wide
    simp [eq, not_lt.mp wide] at here

def OpOk (handle : Value → Nat) (spec : AggSpec) (bindings : List Projected) (key : Row)
    (op : AggOp × List Nat) : Prop :=
  (op.1 = .sum → ∀ col, op.2 = [col] → ∀ b ∈ groupBindings spec bindings key, intAt col b ≠ none) ∧
    OpFits handle spec bindings key op

variable (src pred) in
/-- Each op yields its value over a group, or fails. -/
theorem applyOp_spec {members : List Projected}
    (of : MembersOf (groupBindings spec bindings key) members)
    (rows : Projection handle bindings width) (some : ∃ b, b ∈ groupBindings spec bindings key)
    {op : AggOp × List Nat} (checked : OpChecked width op) :
    (OpOk handle spec bindings key op →
      ∃ v, applyOp handle src pred members op.1 op.2 = .ok v ∧
        OpResult src spec bindings key op v) ∧
    ∀ v, applyOp handle src pred members op.1 op.2 = .ok v → OpOk handle spec bindings key op := by
  have inGroup : ∀ b ∈ groupBindings spec bindings key, b ∈ bindings :=
    fun b mem => (List.mem_filter.mp mem).1
  have apart' : ∀ b ∈ groupBindings spec bindings key, ∀ v ∈ b.row,
      ∀ b' ∈ groupBindings spec bindings key, ∀ v' ∈ b'.row, handle v = handle v' → v = v' :=
    fun b mem v hv b' mem' => rows.apart b (inGroup b mem) v hv b' (inGroup b' mem')
  obtain ⟨op, cols⟩ := op
  by_cases isCount : op = .count
  · subst isCount
    have card := distinctTuples_card of handle cols
    have found : applyOp handle src pred members .count cols =
        if ((distinctTuples handle cols members).length : Int) ≤ intMax then
          .ok (.int (distinctTuples handle cols members).length)
        else .error (.type pred ("count overflows i64 in `" ++ pred ++ "`")) := by
      unfold applyOp
      rfl
    rw [found, card]
    constructor
    · rintro ⟨_, fits⟩
      exact ⟨_, if_pos fits, rfl⟩
    · intro v eq
      refine ⟨(by rintro ⟨⟩), ?_⟩
      by_contra wider
      have failed := eq.symm.trans (if_neg wider)
      cases failed
  · obtain ⟨col, below, rfl⟩ := checked.resolve_left isCount
    have listed : ∀ v, v ∈ members.filterMap (fun b => b.row[col]?) ↔
        ∃ b ∈ groupBindings spec bindings key, b.row[col]? = Option.some v := by
      intro v
      have same := of.toFinset_eq (f := fun b => b.row[col]?) fun b b' eq => congrArg (·[col]?) eq
      rw [← List.mem_toFinset, same, List.mem_toFinset, List.mem_filterMap]
    have filled : members.filterMap (fun b => b.row[col]?) ≠ [] := by
      obtain ⟨b, mem⟩ := some
      have inside : col < b.row.length := by
        rw [rows.wide b (inGroup b mem)]
        exact below
      exact List.ne_nil_of_mem ((listed _).mpr ⟨b, mem, List.getElem?_eq_getElem inside⟩)
    obtain ⟨best, rest, values⟩ := List.exists_cons_of_ne_nil filled
    rw [values] at listed
    cases op with
    | count => exact absurd rfl isCount
    | sum =>
      have found : applyOp handle src pred members .sum [col] =
          (sumTuples pred col 0 (distinctTuples handle [col] members)).map Value.int := by
        unfold applyOp
        rfl
      have exact := sum_eq_ok handle col of apart' pred
      rw [found]
      constructor
      · rintro ⟨ints, fits⟩
        have summed := (exact _).mpr ⟨ints rfl col rfl, rfl, fits⟩
        exact ⟨_, by rw [summed]; rfl, rfl⟩
      · intro v eq
        cases summed : sumTuples pred col 0 (distinctTuples handle [col] members) with
        | error e =>
          rw [summed] at eq
          cases eq
        | ok s =>
          obtain ⟨ints, _, fits⟩ := (exact s).mp summed
          refine ⟨fun _ col' eq => ?_, fits⟩
          cases eq
          exact ints
    | min =>
      have found : applyOp handle src pred members .min [col] =
          .ok (bestValue src .lt best rest) := by
        simp only [applyOp, values]
        rfl
      obtain ⟨mem, least⟩ := bestValue_min src best rest
      rw [found]
      refine ⟨fun _ => ⟨_, rfl, (listed _).mp mem, fun b memB w at' => ?_⟩,
        fun _ _ => ⟨(by rintro ⟨⟩), trivial⟩⟩
      rw [ne_eq, compareRendered_gt, not_lt]
      exact least w ((listed w).mpr ⟨b, memB, at'⟩)
    | max =>
      have found : applyOp handle src pred members .max [col] =
          .ok (bestValue src .gt best rest) := by
        simp only [applyOp, values]
        rfl
      obtain ⟨mem, greatest⟩ := bestValue_max src best rest
      rw [found]
      refine ⟨fun _ => ⟨_, rfl, (listed _).mp mem, fun b memB w at' => ?_⟩,
        fun _ _ => ⟨(by rintro ⟨⟩), trivial⟩⟩
      rw [ne_eq, compareRendered_lt, not_lt]
      exact greatest w ((listed w).mpr ⟨b, memB, at'⟩)

variable (src pred) in
theorem applyOps_spec {members : List Projected}
    (of : MembersOf (groupBindings spec bindings key) members)
    (rows : Projection handle bindings width) (some : ∃ b, b ∈ groupBindings spec bindings key)
    {ops : List (AggOp × List Nat)}
    (checked : ∀ op ∈ ops, OpChecked width op) :
    ((∀ op ∈ ops, OpOk handle spec bindings key op) →
      ∃ vs, applyOps handle src pred members ops = .ok vs ∧
        List.Forall₂ (OpResult src spec bindings key) ops vs) ∧
    ∀ vs, applyOps handle src pred members ops = .ok vs →
      ∀ op ∈ ops, OpOk handle spec bindings key op := by
  induction ops with
  | nil => exact ⟨fun _ => ⟨[], rfl, .nil⟩, fun _ _ op mem => nomatch mem⟩
  | cons op rest ih =>
    obtain ⟨yields, needs⟩ := applyOp_spec src pred of rows some
      (checked op List.mem_cons_self)
    obtain ⟨yieldAll, needAll⟩ := ih fun op mem => checked op (List.mem_cons_of_mem _ mem)
    rw [applyOps]
    constructor
    · intro ok
      obtain ⟨v, eq, result⟩ := yields (ok op List.mem_cons_self)
      obtain ⟨vs, eqs, results⟩ := yieldAll fun op mem => ok op (List.mem_cons_of_mem _ mem)
      rw [eq]
      exact ⟨v :: vs, by rw [eqs]; rfl, .cons result results⟩
    · intro vs eq op' mem
      cases first : applyOp handle src pred members op.1 op.2 with
      | error e =>
        rw [first] at eq
        cases eq
      | ok v =>
        rw [first] at eq
        rcases List.mem_cons.mp mem with rfl | mem
        · exact needs v first
        · cases others : applyOps handle src pred members rest with
          | error e =>
            rw [others] at eq
            cases eq
          | ok vs => exact needAll vs others op' mem

theorem OpResult.unique {op : AggOp × List Nat} {v v' : Value}
    (h : OpResult src spec bindings key op v) (h' : OpResult src spec bindings key op v') :
    v = v' := by
  obtain ⟨op, cols⟩ := op
  cases op with
  | count => exact Eq.trans h (Eq.symm h')
  | sum =>
    match cols, h, h' with
    | [col], h, h' => exact Eq.trans h (Eq.symm h')
  | min =>
    match cols, h, h' with
    | [col], ⟨⟨b, mem, at'⟩, least⟩, ⟨⟨b', mem', at''⟩, least'⟩ =>
      have le := least b' mem' v' at''
      have ge := least' b mem v at'
      rw [ne_eq, compareRendered_gt, not_lt] at le ge
      exact renderedKey_injective src (le_antisymm le ge)
  | max =>
    match cols, h, h' with
    | [col], ⟨⟨b, mem, at'⟩, greatest⟩, ⟨⟨b', mem', at''⟩, greatest'⟩ =>
      have le := greatest b' mem' v' at''
      have ge := greatest' b mem v at'
      rw [ne_eq, compareRendered_lt, not_lt] at le ge
      exact renderedKey_injective src (le_antisymm ge le)

theorem GroupRow.unique {r r' : EdbRow × Nat} (h : GroupRow src spec bindings key r)
    (h' : GroupRow src spec bindings key r') : r = r' := by
  obtain ⟨results, each, row⟩ := h.row
  obtain ⟨results', each', row'⟩ := h'.row
  have same : results = results' := by
    have right : Relator.RightUnique (OpResult src spec bindings key) :=
      fun _ _ _ h h' => h.unique h'
    exact List.right_unique_forall₂' right each each'
  obtain ⟨height, most, eq⟩ := h.height
  obtain ⟨height', most', eq'⟩ := h'.height
  obtain ⟨⟨row₁, level₁, ordinal₁⟩, height₁⟩ := r
  obtain ⟨⟨row₂, level₂, ordinal₂⟩, height₂⟩ := r'
  have rows : row₁ = row₂ := by
    rw [show row₁ = _ from row, show row₂ = _ from row', same]
  have levels : level₁ = level₂ := h.level.unique h'.level
  have ordinals : ordinal₁ = ordinal₂ := Eq.trans h.ordinal (Eq.symm h'.ordinal)
  have heights : height₁ = height₂ := by
    rw [show height₁ = _ from eq, show height₂ = _ from eq', most.unique most']
  rw [rows, levels, ordinals, heights]

theorem membersOf_deduplicated : MembersOf (groupBindings spec bindings key)
    ((deduplicated handle bindings).filter fun b => b.row.take spec.group = key) := by
  constructor
  · intro b mem
    obtain ⟨kept, same⟩ := List.mem_filter.mp mem
    exact List.mem_filter.mpr ⟨(mem_deduplicated kept).1, same⟩
  · intro b mem
    obtain ⟨listed, same⟩ := List.mem_filter.mp mem
    obtain ⟨b', kept, eq⟩ := @exists_deduplicated handle bindings b listed
    refine ⟨b', List.mem_filter.mpr ⟨kept, ?_⟩, eq⟩
    rw [eq]
    exact same

theorem greatest_kept {α : Type} [LinearOrder α] {f : Projected → α} {least : α}
    (bot : ∀ x, least ≤ x) (some : ∃ b, b ∈ groupBindings spec bindings key)
    (agree : ∀ b b', Kept bindings b → Kept bindings b' → b.row = b'.row → f b = f b') :
    IsGreatest {x | ∃ b ∈ groupBindings spec bindings key, Kept bindings b ∧ f b = x}
      ((((deduplicated handle bindings).filter fun b => b.row.take spec.group = key).map f).foldl
        max least) := by
  have of : MembersOf (groupBindings spec bindings key) _ :=
    @membersOf_deduplicated handle spec bindings key
  obtain ⟨_, each, reached⟩ := Kit.foldl_max_spec
    (((deduplicated handle bindings).filter fun b => b.row.take spec.group = key).map f) least
  constructor
  · have inside : ∀ b ∈ (deduplicated handle bindings).filter
        (fun b => b.row.take spec.group = key),
        b ∈ groupBindings spec bindings key ∧ Kept bindings b :=
      fun b mem => ⟨of.sub b mem, mem_deduplicated (List.mem_filter.mp mem).1⟩
    rcases reached with eq | mem
    · obtain ⟨b, mem⟩ := some
      obtain ⟨b', there, _⟩ := of.all b mem
      have low := each (f b') (List.mem_map_of_mem there)
      rw [eq] at low ⊢
      exact ⟨b', (inside b' there).1, (inside b' there).2, le_antisymm low (bot _)⟩
    · obtain ⟨b, there, eq⟩ := List.mem_map.mp mem
      exact ⟨b, (inside b there).1, (inside b there).2, eq⟩
  · rintro x ⟨b, mem, kept, rfl⟩
    obtain ⟨b', there, same⟩ := of.all b mem
    rw [agree b b' kept (mem_deduplicated (List.mem_filter.mp there).1) same.symm]
    exact each _ (List.mem_map_of_mem there)

theorem groupRow_spec (some : ∃ b, b ∈ groupBindings spec bindings key) {results : List Value}
    (each : List.Forall₂ (OpResult src spec bindings key) spec.ops results) :
    GroupRow src spec bindings key (groupRow spec key results
      ((deduplicated handle bindings).filter fun b => b.row.take spec.group = key)) where
  row := ⟨results, each, rfl⟩
  level := greatest_kept Tier.fact_le some fun _ _ h h' same => (h.agree h' same).1
  height := ⟨_, greatest_kept Nat.zero_le some fun _ _ h h' same => (h.agree h' same).2, rfl⟩
  ordinal := rfl

variable (src pred) in
theorem groupRows_spec (rows : Projection handle bindings width)
    (checked : ∀ op ∈ spec.ops, OpChecked width op) {keys : List Row}
    (some : ∀ key ∈ keys, ∃ b, b ∈ groupBindings spec bindings key) :
    ((∀ key ∈ keys, ∀ op ∈ spec.ops, OpOk handle spec bindings key op) →
      ∃ out, groupRows handle src pred spec (deduplicated handle bindings) keys = .ok out ∧
        List.Forall₂ (GroupRow src spec bindings) keys out) ∧
    ∀ out, groupRows handle src pred spec (deduplicated handle bindings) keys = .ok out →
      ∀ key ∈ keys, ∀ op ∈ spec.ops, OpOk handle spec bindings key op := by
  induction keys with
  | nil => exact ⟨fun _ => ⟨[], rfl, .nil⟩, fun _ _ key mem => nomatch mem⟩
  | cons key rest ih =>
    have here := some key List.mem_cons_self
    obtain ⟨yields, needs⟩ := applyOps_spec src pred
      (@membersOf_deduplicated handle spec bindings key) rows here checked
    obtain ⟨yieldAll, needAll⟩ := ih fun key mem => some key (List.mem_cons_of_mem _ mem)
    rw [groupRows]
    constructor
    · intro ok
      obtain ⟨results, eq, each⟩ := yields (ok key List.mem_cons_self)
      obtain ⟨out, eqs, each'⟩ := yieldAll fun key mem => ok key (List.mem_cons_of_mem _ mem)
      rw [eq]
      exact ⟨_ :: out, by rw [eqs]; rfl, .cons (groupRow_spec here each) each'⟩
    · intro out eq key' mem
      cases first : applyOps handle src pred
          ((deduplicated handle bindings).filter fun b => b.row.take spec.group = key) spec.ops with
      | error e =>
        rw [first] at eq
        cases eq
      | ok results =>
        rw [first] at eq
        rcases List.mem_cons.mp mem with rfl | mem
        · exact needs results first
        · cases others : groupRows handle src pred spec (deduplicated handle bindings) rest with
          | error e =>
            rw [others] at eq
            cases eq
          | ok out => exact needAll out others key' mem

theorem groupKeys_spec : (firstOf id ((deduplicated handle bindings).map fun b =>
      b.row.take spec.group)).Nodup ∧
    ∀ key, key ∈ firstOf id ((deduplicated handle bindings).map fun b => b.row.take spec.group) ↔
      ∃ b ∈ bindings, b.row.take spec.group = key := by
  constructor
  · have once := @firstOf_keys_nodup Row id ((deduplicated handle bindings).map fun b =>
      b.row.take spec.group)
    rwa [List.map_id] at once
  · intro key
    constructor
    · intro mem
      obtain ⟨b, kept, eq⟩ := List.mem_map.mp ((firstOf_sublist _).subset mem)
      exact ⟨b, (mem_deduplicated kept).1, eq⟩
    · rintro ⟨b, mem, rfl⟩
      obtain ⟨b', kept, same⟩ := @exists_deduplicated handle bindings b mem
      have listed := List.mem_map_of_mem (f := fun b : Projected => b.row.take spec.group) kept
      obtain ⟨key, there, eq⟩ := @exists_firstOf Row id _ _ listed
      rw [id, id, same] at eq
      rw [← eq]
      exact there

theorem mem_groupBindings {b : Projected} :
    b ∈ groupBindings spec bindings key ↔ b ∈ bindings ∧ b.row.take spec.group = key := by
  rw [groupBindings, List.mem_filter, decide_eq_true_iff]

theorem inRange_total {S : Finset Int} (some : S.Nonempty)
    (fits : ∀ x ∈ S, InRange (∑ y ∈ S.filter fun y => handle (.int y) ≤ handle (.int x), y)) :
    InRange (∑ y ∈ S, y) := by
  obtain ⟨x, mem, most⟩ := S.exists_max_image (fun y => handle (.int y)) some
  have whole : S.filter (fun y => handle (.int y) ≤ handle (.int x)) = S :=
    Finset.filter_true_of_mem most
  rw [← whole]
  exact fits x mem

end Ops

section Outcome

variable {src : FactSource} {handle : Value → Nat} {spec : AggSpec}
  {bindings bindings' : List Projected} {width : Nat} {pred : String}

/-- Two outcomes agree: the same rows in some order, or both an error. -/
def SameOutcome : Except RulesError (List (EdbRow × Nat)) →
    Except RulesError (List (EdbRow × Nat)) → Prop
  | .ok out, .ok out' => out.Perm out'
  | .error _, .error _ => True
  | _, _ => False

theorem AggregateRows.perm {out out' : List (EdbRow × Nat)}
    (h : AggregateRows src spec bindings out) (h' : AggregateRows src spec bindings out') :
    out.Perm out' := by
  obtain ⟨keys, once, listed, rows⟩ := h
  obtain ⟨keys', once', listed', rows'⟩ := h'
  have same : keys.Perm keys' := by
    apply (List.perm_ext_iff_of_nodup once once').mpr
    intro key
    rw [listed, listed']
  have right : Relator.RightUnique (GroupRow src spec bindings) := fun _ _ _ h h' => h.unique h'
  exact List.rel_perm_imp right rows rows' same

section Members

-- Two lists of the same bindings, in whatever order and however often each.
variable (same : ∀ b, b ∈ bindings ↔ b ∈ bindings')
include same

theorem mem_groupBindings_congr (key : Row) (b : Projected) :
    b ∈ groupBindings spec bindings key ↔ b ∈ groupBindings spec bindings' key := by
  rw [mem_groupBindings, mem_groupBindings, same]

theorem groupTuples_congr (key : Row) (cols : List Nat) :
    groupTuples spec bindings key cols = groupTuples spec bindings' key cols := by
  ext t
  simp only [groupTuples, List.mem_toFinset, List.mem_map, mem_groupBindings_congr same key]

theorem groupInts_congr (key : Row) (col : Nat) :
    groupInts spec bindings key col = groupInts spec bindings' key col := by
  ext x
  simp only [groupInts, List.mem_toFinset, List.mem_filterMap, mem_groupBindings_congr same key]

theorem kept_congr (b : Projected) : Kept bindings b ↔ Kept bindings' b := by
  simp only [Kept, same]

theorem OpResult.congr {key : Row} {op : AggOp × List Nat} {v : Value}
    (h : OpResult src spec bindings key op v) : OpResult src spec bindings' key op v := by
  obtain ⟨op, cols⟩ := op
  cases op with
  | count =>
    rw [OpResult, groupTuples_congr same] at h
    exact h
  | sum =>
    match cols, h with
    | [col], h =>
      rw [OpResult, groupInts_congr same] at h
      exact h
  | min =>
    match cols, h with
    | [col], h =>
      simp only [OpResult, mem_groupBindings_congr same key] at h
      exact h
  | max =>
    match cols, h with
    | [col], h =>
      simp only [OpResult, mem_groupBindings_congr same key] at h
      exact h

theorem GroupRow.congr {key : Row} {r : EdbRow × Nat} (h : GroupRow src spec bindings key r) :
    GroupRow src spec bindings' key r where
  row := by
    obtain ⟨results, each, row⟩ := h.row
    exact ⟨results, each.imp fun _ _ result => result.congr same, row⟩
  level := by
    have level := h.level
    simp only [mem_groupBindings_congr same key, kept_congr same] at level
    exact level
  height := by
    have height := h.height
    simp only [mem_groupBindings_congr same key, kept_congr same] at height
    exact height
  ordinal := h.ordinal

theorem AggregateRows.congr {out : List (EdbRow × Nat)} (h : AggregateRows src spec bindings out) :
    AggregateRows src spec bindings' out := by
  obtain ⟨keys, once, listed, rows⟩ := h
  simp only [same] at listed
  exact ⟨keys, once, listed, rows.imp fun _ _ row => row.congr same⟩

theorem badSum_congr : BadSum spec bindings ↔ BadSum spec bindings' := by
  simp only [BadSum, same, mem_groupBindings_congr same, groupInts_congr same]

end Members

theorem not_badSum (fits : ∀ key, (∃ b ∈ bindings, b.row.take spec.group = key) →
      ∀ op ∈ spec.ops, OpOk handle spec bindings key op) : ¬ BadSum spec bindings := by
  rintro ⟨key, col, op, ⟨b, mem, eq⟩, bad⟩
  obtain ⟨ints, totals⟩ := fits key ⟨b, mem, eq⟩ _ op
  have ints := ints rfl col rfl
  rcases bad with ⟨b, mem, notInt⟩ | outside
  · exact ints b mem notInt
  · apply outside
    apply @inRange_total handle _ _ totals
    cases at' : intAt col b with
    | none => exact absurd at' (ints b (mem_groupBindings.mpr ⟨mem, eq⟩))
    | some x =>
      have there : b ∈ groupBindings spec bindings key := mem_groupBindings.mpr ⟨mem, eq⟩
      exact ⟨x, List.mem_toFinset.mpr (List.mem_filterMap.mpr ⟨b, there, at'⟩)⟩

theorem aggregates_iff (checked : checkSpec spec width pred = none)
    (rows : Projection handle bindings width) :
    Aggregates src spec bindings (aggregate handle src bindings width spec pred) ↔
      TotalsFit handle spec bindings := by
  obtain ⟨once, listed⟩ := @groupKeys_spec handle spec bindings
  have some : ∀ key ∈ firstOf id ((deduplicated handle bindings).map fun b =>
      b.row.take spec.group), ∃ b, b ∈ groupBindings spec bindings key := by
    intro key mem
    obtain ⟨b, there, eq⟩ := (listed key).mp mem
    exact ⟨b, mem_groupBindings.mpr ⟨there, eq⟩⟩
  obtain ⟨yields, needs⟩ := groupRows_spec src pred rows (opChecked_of_checkSpec checked) some
  have run : aggregate handle src bindings width spec pred =
      groupRows handle src pred spec (deduplicated handle bindings)
        (firstOf id ((deduplicated handle bindings).map fun b => b.row.take spec.group)) := by
    rw [aggregate, checked]
  have failed : BadSum spec bindings →
      ∃ e, aggregate handle src bindings width spec pred = .error e := by
    intro bad
    cases eq : aggregate handle src bindings width spec pred with
    | error e => exact ⟨e, rfl⟩
    | ok out =>
      rw [run] at eq
      refine absurd bad (@not_badSum handle spec bindings fun key some => ?_)
      exact needs out eq key ((listed key).mpr some)
  constructor
  · intro ⟨_, right⟩
    by_cases bad : BadSum spec bindings
    · exact .inl bad
    · obtain ⟨out, eq, _⟩ := right bad
      rw [run] at eq
      exact .inr fun key some op mem => (needs out eq key ((listed key).mpr some) op mem).2
  · intro fits
    refine ⟨failed, fun good => ?_⟩
    have ok := fits.resolve_left good
    have each : ∀ key ∈ firstOf id ((deduplicated handle bindings).map fun b =>
        b.row.take spec.group), ∀ op ∈ spec.ops, OpOk handle spec bindings key op := by
      intro key mem op there
      refine ⟨fun isSum col cols b inGroup notInt => good ?_, ok key ((listed key).mp mem) op there⟩
      have eq : op = (.sum, [col]) := Prod.ext isSum cols
      exact ⟨key, col, eq ▸ there, (listed key).mp mem, .inl ⟨b, inGroup, notInt⟩⟩
    obtain ⟨out, eq, each⟩ := yields each
    exact ⟨out, run.trans eq, _, once, listed, each⟩

/-- What an aggregate makes of its bindings is its rows, or an error when a sum has no value,
exactly when the totals fit; then neither the bindings' order and number nor the handles tell. -/
theorem aggregate_exact (src : FactSource) (handle : Value → Nat) (bindings : List Projected)
    (width : Nat) (spec : AggSpec) (pred : String) (checked : checkSpec spec width pred = none)
    (rows : Projection handle bindings width) :
    (Aggregates src spec bindings (aggregate handle src bindings width spec pred) ↔
      TotalsFit handle spec bindings) ∧
    ∀ handle' bindings', (∀ b, b ∈ bindings ↔ b ∈ bindings') →
      Projection handle' bindings' width → TotalsFit handle spec bindings →
      TotalsFit handle' spec bindings' →
      SameOutcome (aggregate handle src bindings width spec pred)
        (aggregate handle' src bindings' width spec pred) := by
  refine ⟨aggregates_iff checked rows, fun handle' bindings' same rows' fits fits' => ?_⟩
  obtain ⟨bad, good⟩ := (@aggregates_iff src handle spec bindings width pred checked rows).mpr fits
  obtain ⟨bad', good'⟩ :=
    (@aggregates_iff src handle' spec bindings' width pred checked rows').mpr fits'
  by_cases fails : BadSum spec bindings
  · obtain ⟨e, eq⟩ := bad fails
    obtain ⟨e', eq'⟩ := bad' ((badSum_congr same).mp fails)
    rw [eq, eq']
    trivial
  · obtain ⟨out, eq, is⟩ := good fails
    obtain ⟨out', eq', is'⟩ := good' fun fails' => fails ((badSum_congr same).mpr fails')
    rw [eq, eq']
    exact (is.congr same).perm is'

def noFacts : FactSource where
  nodeIds := []
  edges := []
  tables := ⟨⟨[], [], []⟩, []⟩
  nodeKind := fun _ => none
  nodeCells := fun _ => []
  renderNode := toString

def sumSpec : AggSpec := ⟨0, [(.sum, [0])], [.agg 0]⟩

/-- The greatest integer, one and minus one, whose sum is the greatest integer. -/
def nearLimit : List Projected :=
  [⟨[.int intMax], .fact, 0⟩, ⟨[.int 1], .fact, 0⟩, ⟨[.int (-1)], .fact, 0⟩]

def internedIn (order : List Value) (v : Value) : Nat := order.idxOf v

theorem nearLimit_projection (order : List Value)
    (all : order = [.int (-1), .int intMax, .int 1] ∨ order = [.int intMax, .int 1, .int (-1)]) :
    Projection (internedIn order) nearLimit 1 := by
  rcases all with rfl | rfl <;> exact ⟨by decide, by decide⟩

/-- With minus one interned first every running total fits. -/
theorem nearLimit_aggregates : Aggregates noFacts sumSpec nearLimit
    (aggregate (internedIn [.int (-1), .int intMax, .int 1]) noFacts nearLimit 1 sumSpec
      "s/1") := by
  apply (aggregate_exact noFacts _ nearLimit 1 sumSpec "s/1" (by decide)
    (nearLimit_projection _ (.inl rfl))).1.mpr
  right
  rintro key ⟨b, _, rfl⟩ op mem
  rw [List.mem_singleton.mp mem]
  show ∀ x ∈ groupInts sumSpec nearLimit [] 0, InRange (∑ y ∈ (groupInts sumSpec nearLimit []
    0).filter fun y => internedIn [.int (-1), .int intMax, .int 1] (.int y) ≤
      internedIn [.int (-1), .int intMax, .int 1] (.int x), y)
  decide

/-- With the greatest integer and one before it the sum is an error, though it fits. -/
theorem sum_order_tells : ¬ Aggregates noFacts sumSpec nearLimit
    (aggregate (internedIn [.int intMax, .int 1, .int (-1)]) noFacts nearLimit 1 sumSpec
      "s/1") := by
  intro h
  have good : ¬ BadSum sumSpec nearLimit := by
    rintro ⟨key, col, op, ⟨b, _, rfl⟩, bad⟩
    obtain rfl : col = 0 := by
      simpa [sumSpec] using op
    have fits : ¬ ((∃ b ∈ groupBindings sumSpec nearLimit [], intAt 0 b = none) ∨
        ¬ InRange (∑ x ∈ groupInts sumSpec nearLimit [] 0, x)) := by
      decide
    exact fits bad
  obtain ⟨out, eq, _⟩ := h.2 good
  have failed : (aggregate (internedIn [.int intMax, .int 1, .int (-1)]) noFacts nearLimit 1
      sumSpec "s/1").isOk = false := by
    decide
  rw [eq] at failed
  cases failed

end Outcome

end Glia.Rules
