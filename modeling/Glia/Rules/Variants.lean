import Glia.Rules.PlanFrames
import Glia.Rules.Stands

/-! What the variants of a rule give: the heads of its clauses, whichever of its literals are
folded into a composite and whichever one reads the delta. -/
namespace Glia.Rules

open Kit

structure Fold where
  members : List Nat
  last : Nat
  hoist : Hoist
  bind : Nat

/-- What a literal reads in the variant of a delta. -/
def srcOf : Option Nat → Nat → Src
  | none, _ => .all
  | some d, j => assign j d

namespace Setting

section Laid

variable (S : Setting) (s : EvalState) (rule : CRule)

def Laid : Option Fold → Variant → Prop
  | none, v => ∃ order, order.Perm (List.range rule.body.length) ∧
      S.Ready rule (fun _ => false) order ∧
      v.steps = S.steps rule (srcOf v.delta) (fun _ => false) order
  | some f, v => ∃ later, (f.members ++ later).Perm (List.range rule.body.length) ∧
      S.Ready rule (fun _ => false) f.members ∧
      S.Ready rule (boundAtEnd rule.body (fun _ => false) f.members) later ∧
      S.Behind s rule f.members (later ++ []) f.hoist f.bind ∧
      v.steps = f.hoist.step f.bind (srcOf v.delta f.last) ::
        S.steps rule (srcOf v.delta)
          (boundAtEnd rule.body (fun _ => false) f.members) later

end Laid

section Fill

noncomputable def fill (terms : List CTerm) (τ : Assignment) : Env :=
  open Classical in fun v => if Mentions terms v then some (τ v) else none

variable {terms : List CTerm} {τ : Assignment}

theorem fill_fills (terms : List CTerm) (τ : Assignment) : Fills τ (fill terms τ) terms :=
  fun _ mem => if_pos mem

theorem fill_grows (terms : List CTerm) (τ : Assignment) : Grows emptyEnv terms (fill terms τ) where
  binds v mem := by simp [fill, mem]
  keeps v set := by cases set
  rest v no := by simp [fill, no, emptyEnv]

def total (σ : Env) : Assignment := fun v => (σ v).getD (.int 0)

theorem total_eq {σ : Env} {v : Nat} (set : (σ v).isSome = true) : σ v = some (total σ v) := by
  obtain ⟨x, eq⟩ := Option.isSome_iff_exists.mp set
  simp [total, eq]

end Fill

section Body

variable {S : Setting} {s : EvalState} {vis : Vis} {rule : CRule}
variable {heights : Nat → Nat} {b : Tier} {σ : Env} {τ : Assignment} {fs : Nat → Ground}
variable {order members later : List Nat} {srcs : Nat → Src} {h : Hoist} {bind : Nat}

theorem head_mentioned (fit : S.Fit rule) {v : Nat}
    (reads : rule.HeadReads v) :
    Mentions (orderTerms rule.body (List.range rule.body.length)) v := by
  have ready := order_ready fit.safe (fun _ => false) (firstRelation_none S.preds rule) fun _ => none
  simp only [start_empty] at ready
  have bound := fit.safe.head_bound ready.2 reads
  rw [boundAtEnd_iff ready.1] at bound
  have perm := sipsOrder_perm S.catalog S.preds rule (fun _ => false) none fun _ => none
  exact ((perm.flatMap_right _).mem_iff).mp (bound.resolve_left (by simp))

theorem head_live {v : Nat} (reads : rule.HeadReads v) (order : List Nat) :
    liveAfter rule (order ++ []) v = true :=
  liveAfter_append.mpr (.inr ((headVars_apply rule v).mpr reads))

theorem orderTerms_perm {body : List CLit} {order' : List Nat} (perm : order.Perm order') (v : Nat) :
    Mentions (orderTerms body order) v ↔ Mentions (orderTerms body order') v :=
  (perm.flatMap_right _).mem_iff

/-- What holds under one visibility holds over complete input. -/
theorem allHold_complete (sane : S.Sane s)
    (sets : S.SetsKept s rule.body) (calm : vis.explain = false)
    (fills : Fills τ σ (orderTerms rule.body order))
    (holds : S.AllHold s b vis srcs rule σ order) :
    S.AllHold s (min b vis.level) (Vis.complete true) (fun _ => .all) rule σ order := by
  intro i mem lit here
  have local' : Fills τ σ lit.terms := fun v there => fills v (mentions_order mem here there)
  obtain ⟨t, low, n, lit'⟩ := holds i mem lit here
  by_cases side : ∀ p terms, lit ≠ .pos p terms
  · exact ⟨t, ((lit_side sane sets here local' side t n).mp lit').1 ▸ Tier.fact_le _, n,
      (lit_side sane sets here local' side t n).mpr ((lit_side sane sets here local' side t n).mp lit')⟩
  · push Not at side
    obtain ⟨p, terms, eq⟩ := side
    subst eq
    obtain ⟨low', f, fits, recent, fact⟩ := lit_shown sane calm local' lit'
    have sees : ((Vis.complete true).view .all).sees t recent = true := by cases t <;> rfl
    obtain ⟨n', again⟩ := lit_of_fact sane rfl local' sets here fits fact sees
    exact ⟨t, le_min low low', n', again⟩

theorem AllHold.mono {b' : Tier}
    (le : b ≤ b') (holds : S.AllHold s b vis srcs rule σ order) :
    S.AllHold s b' vis srcs rule σ order := by
  intro i mem lit here
  obtain ⟨t, low, n, lit'⟩ := holds i mem lit here
  exact ⟨t, low.trans le, n, lit'⟩

section Sound

variable (sane : S.Sane s) (sets : S.SetsKept s rule.body)
variable (fit : S.Fit rule)
include sane sets fit

theorem laid_sound {fold : Option Fold} {v : Variant} (calm : vis.explain = false)
    (counts : vis.count = true)
    (laid : S.Laid s rule fold v)
    (ok : S.Ok s heights vis v.steps)
    (leads : S.LeadsBelow s heights vis v.steps b σ) :
    ∃ τ fs, S.Satisfies (S.shown s) rule τ fs ∧
      (∀ i ∈ positives rule.body, (S.shown s).At (min b vis.level) (fs i)) ∧
      ∀ x, rule.HeadReads x → σ x = some (τ x) := by
  -- Everything mentioned is bound at the end, and holds over complete input.
  have finish (σa : Env) (order : List Nat) (perm : order.Perm (List.range rule.body.length))
      (grows : Grows emptyEnv (orderTerms rule.body order) σa)
      (holds : S.AllHold s (min b vis.level) (Vis.complete true) (fun _ => .all) rule σa order)
      (live : ∀ x, rule.HeadReads x → σa x = σ x) :
      ∃ τ fs, S.Satisfies (S.shown s) rule τ fs ∧
        (∀ i ∈ positives rule.body, (S.shown s).At (min b vis.level) (fs i)) ∧
        ∀ x, rule.HeadReads x → σ x = some (τ x) := by
    have fills : Fills (total σa) σa (orderTerms rule.body order) := fun x mem =>
      total_eq (grows.binds x mem)
    obtain ⟨fs, sat, held⟩ := satisfies_of_holds sane rfl sets
      (fun i lt => perm.mem_iff.mpr (List.mem_range.mpr lt)) fills holds
    refine ⟨total σa, fs, sat, fun i mem => ?_, fun x reads => ?_⟩
    · obtain ⟨t, low, _, fact⟩ := held i mem
      exact ⟨t, low, fact⟩
    · rw [← live x reads]
      exact fills x ((orderTerms_perm perm x).mpr (head_mentioned fit reads))
  cases fold with
  | none =>
    obtain ⟨order, perm, ready, steps⟩ := laid
    rw [steps] at ok leads
    have known (i : Nat) (mem : i ∈ order) := List.mem_range.mp (perm.mem_iff.mp mem)
    obtain ⟨grows, holds⟩ := (order_below sane fit ready known ok).mp leads
    refine finish σ order perm grows ?_ fun _ _ => rfl
    exact allHold_complete sane sets calm (fun x mem => total_eq (grows.binds x mem)) holds
  | some f =>
    obtain ⟨later, perm, readyM, ready, behind, steps⟩ := laid
    rw [steps] at ok leads
    have known (i : Nat) (mem : i ∈ later) : i < rule.body.length :=
      List.mem_range.mp (perm.mem_iff.mp (List.mem_append_right _ mem))
    obtain ⟨y, t, low, admits, row, grows, holds⟩ :=
      (behind_below sane fit counts ready known (behind.starts readyM) ok).mp leads
    rw [admits_iff] at admits
    have okSeed := ok
    simp only [RunsOk, Hoist.step, StepOk, counts] at okSeed
    obtain ⟨σa, whole, first, same, live⟩ := behind.joins
      ((behind.stands.rows heights okSeed.1 t y).mp ⟨t, le_rfl, row⟩) grows
    refine finish σa (f.members ++ later) perm whole ?_ fun x reads =>
      live x ((headVars_apply rule x).mpr reads)
    rw [allHold_append]
    refine ⟨first.mono (le_min low (sees_level calm admits)), (allHold_congr same).mpr ?_⟩
    exact allHold_complete sane sets calm (fun x mem => total_eq (grows.binds x mem)) holds

/-- A variant that folds nothing leads to the head of each clause whose premises it sees. -/
theorem plain_gives {v : Variant} (free : vis.maxHeight = none)
    (laid : S.Laid s rule none v)
    (ok : S.Ok s heights vis v.steps)
    (sat : S.Satisfies (S.shown s) rule τ fs)
    (seen : ∀ i ∈ positives rule.body, ∃ t ≤ b, ∃ recent,
      S.FactIn s (fs i) t recent ∧
        (vis.view (srcOf v.delta i)).sees t recent = true) :
    ∃ σ, S.LeadsBelow s heights vis v.steps b σ ∧
      ∀ x, rule.HeadReads x → σ x = some (τ x) := by
  obtain ⟨order, perm, ready, steps⟩ := laid
  rw [steps] at ok ⊢
  have known (i : Nat) (mem : i ∈ order) := List.mem_range.mp (perm.mem_iff.mp mem)
  have fills := fill_fills (orderTerms rule.body order) τ
  refine ⟨_, (order_below sane fit ready known ok).mpr ⟨fill_grows _ τ,
    holds_of_satisfies sane free sets fills sat fun i _ pos => seen i pos⟩, fun x reads => ?_⟩
  exact fills x ((orderTerms_perm perm x).mpr (head_mentioned fit reads))

omit fit in
theorem fold_binds (behind : S.Behind s rule members later h bind)
    (sat : S.Satisfies (S.shown s) rule τ fs)
    (held : ∀ i ∈ members, i ∈ positives rule.body → (S.shown s).At b (fs i)) :
    ∃ y, S.Binds s rule members bind b y ∧ τ bind = .node y := by
  have fills := fill_fills (orderTerms rule.body members) τ
  have hold : S.MembersHold s rule b members (fill (orderTerms rule.body members) τ) := by
    refine ⟨fill_grows _ τ, holds_of_satisfies sane rfl sets fills sat fun i mem pos => ?_⟩
    obtain ⟨t, low, recent, fact⟩ := held i mem pos
    refine ⟨t, low, recent, fact, ?_⟩
    cases t <;> rfl
  obtain ⟨y, value⟩ := behind.stands.node b _ hold
  refine ⟨y, ⟨_, hold, value⟩, ?_⟩
  rwa [fills bind behind.mentioned, Option.some.injEq] at value

/-- A variant behind a composite leads to the head of each clause whose premises it sees, the
composite's row among them. -/
theorem behind_gives {f : Fold} {v : Variant} (free : vis.maxHeight = none) (counts : vis.count = true)
    (laid : S.Laid s rule (some f) v)
    (ok : S.Ok s heights vis v.steps)
    (sat : S.Satisfies (S.shown s) rule τ fs) {y : NodeId} {t : Tier}
    (row : f.hoist.Row (S.ctx s) heights y t) (value : τ f.bind = .node y)
    (low : t ≤ b) (admits : vis.admits (srcOf v.delta f.last) t = true)
    (seen : ∀ i ∈ positives rule.body, i ∉ f.members → ∃ t ≤ b, ∃ recent,
      S.FactIn s (fs i) t recent ∧
        (vis.view (srcOf v.delta i)).sees t recent = true) :
    ∃ σ, S.LeadsBelow s heights vis v.steps b σ ∧
      ∀ x, rule.HeadReads x → σ x = some (τ x) := by
  obtain ⟨later, perm, readyM, ready, behind, steps⟩ := laid
  rw [steps] at ok ⊢
  have known (i : Nat) (mem : i ∈ later) : i < rule.body.length :=
    List.mem_range.mp (perm.mem_iff.mp (List.mem_append_right _ mem))
  have once : (f.members ++ later).Nodup := perm.nodup_iff.mpr List.nodup_range
  have whole : Grows emptyEnv (orderTerms rule.body f.members ++ orderTerms rule.body later)
      (fill (orderTerms rule.body f.members ++ orderTerms rule.body later) τ) := fill_grows _ τ
  have fills := fill_fills (orderTerms rule.body f.members ++ orderTerms rule.body later) τ
  have value' : fill (orderTerms rule.body f.members ++ orderTerms rule.body later) τ f.bind =
      some (.node y) := by
    rw [fills f.bind (mentions_append.mpr (.inl behind.mentioned)), value]
  obtain ⟨_, σ, grows, live⟩ := grows_split whole value' behind.only
  have fillsLater : Fills τ σ (orderTerms rule.body later) := fun x mem => by
    rw [live x (behind.only x mem), fills x (mentions_append.mpr (.inr mem))]
  refine ⟨σ, (behind_below sane fit counts ready known (behind.starts readyM) ok).mpr
    ⟨y, t, low, admits, row, grows, holds_of_satisfies sane free sets fillsLater sat
      fun i mem pos => seen i pos fun inMembers => ?_⟩, fun x reads => ?_⟩
  · exact List.disjoint_of_nodup_append once inMembers mem
  · have mem := (orderTerms_perm perm x).mpr (head_mentioned fit reads)
    rw [orderTerms_append] at mem
    rw [live x (behind.live x (head_live reads later)), fills x mem]

end Sound

end Body

section Plan

variable {S : Setting} {s : EvalState} {own : List PredId} {rule : CRule}

def foldHoists : Option Fold → List Hoist
  | none => []
  | some f => f.hoist :: hoists f.hoist.seed

variable (S s own rule) in
structure Planned (fold : Option Fold) (variants : List Variant) : Prop where
  laid : ∀ v ∈ variants, v.head = headParts rule ∧ S.Laid s rule fold v
  base : ∃ v ∈ variants, v.delta = none
  deltas : ∀ d, (rule.body[d]?).any (deltaCapable S.preds S.catalog) = true →
    (∀ f, fold = some f → d ∉ f.members) → ∃ v ∈ variants, v.delta = some d
  last : ∀ f, fold = some f → (∃ v ∈ variants, v.delta = some f.last) ∧ f.last ∈ f.members ∧
    ∃ p terms b, rule.body[f.last]? = some (.pos p terms) ∧ kindOf S.preds p = some (.builtin b)
  foreign : ∀ f, fold = some f → ∀ i ∈ f.members, Foreign rule own i

theorem membersBound_eq {members : List Nat}
    (ready : S.Ready rule (fun _ => false) members) :
    membersBound rule members = boundAtEnd rule.body (fun _ => false) members := by
  funext v
  apply Bool.eq_iff_iff.mpr
  rw [membersBound_iff, boundAtEnd_iff ready]
  have live := @liveAfter_iff rule members v
  constructor
  · rintro ⟨i, mem, lit, here, mentions⟩
    exact .inr (mentions_order mem here mentions)
  · intro set
    obtain ⟨t, mem, there⟩ := List.mem_flatMap.mp (set.resolve_left (by simp))
    cases here : rule.body[t]? with
    | none => simp [here] at there
    | some lit =>
      rw [here] at there
      exact ⟨t, mem, lit, here, there⟩

/-- Only which literals are still read matters to a composite. -/
theorem Behind.congr {members rest rest' : List Nat} {h : Hoist} {bind : Nat}
    (behind : S.Behind s rule members rest h bind) (perm : rest'.Perm rest) :
    S.Behind s rule members rest' h bind := by
  refine ⟨behind.stands, behind.mentioned, fun v live mem => behind.live v ?_ mem⟩
  rw [liveAfter_iff] at live ⊢
  refine live.imp_left fun found => ?_
  obtain ⟨i, inRest, lit, here⟩ := found
  exact ⟨i, perm.mem_iff.mp inRest, lit, here⟩

theorem plain_laid (fit : S.Fit rule) (size : PredId → Option Nat) (slots d : Nat) :
    S.Laid s rule none (plainVariant S.preds S.catalog own rule size slots d) := by
  unfold plainVariant
  simp only
  generalize eq : (if (rule.body[d]?).any (isRelation S.preds) = true then some d else none) = first
  have relation : FirstRelation S.preds rule first := by
    intro f there
    subst eq
    split at there
    · cases there
      assumption
    · cases there
  have ready := order_ready fit.safe (fun _ => false) relation size
  simp only [start_empty] at ready
  refine ⟨_, sipsOrder_perm S.catalog S.preds rule (fun _ => false) first size, ready.1, ?_⟩
  rw [planBody, planFrom_steps, List.nil_append]
  rfl

theorem hoist_laid (fit : S.Fit rule) (size : PredId → Option Nat) (slots d : Nat)
    {order : List Nat} (perm : order.Perm (List.range rule.body.length)) {k i : Nat}
    (ready : S.Ready rule (fun _ => false) order) {h : Hoist} {bind : Nat}
    (behind : S.Behind s rule (order.take (k + 1)) (order.drop (k + 1) ++ []) h bind) :
    S.Laid s rule (some ⟨order.take (k + 1), i, h, bind⟩)
      (hoistVariant S.preds S.catalog own rule size slots (order.take (k + 1)) [h.step bind .all] i
        d) := by
  have split := List.take_append_drop (k + 1) order
  have parts := ready
  rw [← split, orderReady_append] at parts
  unfold hoistVariant
  simp only
  generalize eq : (if d ≠ i ∧ (rule.body[d]?).any (isRelation S.preds) = true then some d
    else none) = first
  have relation : FirstRelation S.preds rule first := by
    intro f there
    subst eq
    split at there
    · rename_i cond
      cases there
      exact cond.2
    · cases there
  have start : (fun v => decide (v < rule.nvars) && membersBound rule (order.take (k + 1)) v :
      Bound) = membersBound rule (order.take (k + 1)) := by
    funext v
    cases set : membersBound rule (order.take (k + 1)) v with
    | false => simp
    | true =>
      obtain ⟨j, _, lit, here, mem⟩ := (membersBound_iff _ v).mp set
      simp [fit.safe.body_lt lit (List.mem_of_getElem? here) v mem]
  have full := order_ready fit.safe (membersBound rule (order.take (k + 1))) relation size
  simp only [start] at full
  have kept := filter_ready (fun j => !(order.take (k + 1)).contains j) (by
    intro j _ skip lit here
    simp only [Bool.not_eq_false', List.contains_iff_mem] at skip
    obtain ⟨b, can⟩ := ready.lit (List.mem_of_mem_take skip) here
    exact can.bound_of_mentions fun v mem => (membersBound_iff _ v).mpr ⟨j, skip, lit, here, mem⟩)
    full.1
  have sips := sipsOrder_perm S.catalog S.preds rule (membersBound rule (order.take (k + 1))) first size
  have once : order.Nodup := perm.nodup_iff.mpr List.nodup_range
  have rest : ((sipsOrder rule S.preds S.catalog (membersBound rule (order.take (k + 1))) first
      size).filter fun j => !(order.take (k + 1)).contains j).Perm (order.drop (k + 1)) := by
    apply (List.perm_ext_iff_of_nodup ((sips.nodup_iff.mpr List.nodup_range).filter _)
      (once.sublist (List.drop_sublist _ _))).mpr
    intro j
    rw [List.mem_filter, sips.mem_iff, ← perm.mem_iff]
    simp only [Bool.not_eq_true', ← Bool.not_eq_true, List.contains_iff_mem]
    rw [← split] at once
    constructor
    · rintro ⟨mem, no⟩
      rw [← split] at mem
      exact (List.mem_append.mp mem).resolve_left no
    · intro mem
      exact ⟨List.mem_of_mem_drop mem, fun inTake => List.disjoint_of_nodup_append once inTake mem⟩
  refine ⟨_, ?_, parts.1, ?_, behind.congr (rest.append_right []), ?_⟩
  · rw [← split] at perm
    exact (rest.append_left _).trans perm
  · rw [← membersBound_eq parts.1]
    exact kept.1
  · rw [planBody, planFrom_steps, List.nil_append, ← membersBound_eq parts.1]
    rfl

abbrev basePlan (S : Setting) (own : List PredId) (rule : CRule) (size : PredId → Option Nat)
    (slots : Nat) : PlanState :=
  planBody S.preds S.catalog own rule (sipsOrder rule S.preds S.catalog (fun _ => false) none size)
    (fun _ => false) (fun _ => .all) true slots

theorem basePlan_built (sane : S.Sane s) (fit : S.Fit rule)
    (idb : ∀ p ∈ own, kindOf S.preds p = some .idb) (size : PredId → Option Nat) (slots : Nat) :
    S.Ready rule (fun _ => false) (sipsOrder rule S.preds S.catalog (fun _ => false) none size) ∧
      S.Built s rule own (sipsOrder rule S.preds S.catalog (fun _ => false) none size) []
        (basePlan S own rule size slots) := by
  have perm := sipsOrder_perm S.catalog S.preds rule (fun _ => false) none size
  have ready := order_ready fit.safe (fun _ => false) (firstRelation_none S.preds rule) size
  simp only [start_empty] at ready
  have first : S.Built s rule own []
      (sipsOrder rule S.preds S.catalog (fun _ => false) none size)
      ⟨fun _ => false, [], none, true, slots⟩ :=
    ⟨rfl, fun _ i mem => absurd mem List.not_mem_nil, .inl ⟨rfl, rfl⟩⟩
  exact ⟨ready.1, built_planFrom sane fit ready.1
    (fun i mem => List.mem_range.mp (perm.mem_iff.mp mem)) idb first⟩

/-- The composites of a base plan have slots of their own, and their seeds read nothing of the
stratum. -/
theorem basePlan_seeded (negs : ∀ p terms, CLit.neg p terms ∈ rule.body → p ∉ own)
    (size : PredId → Option Nat) (slots : Nat) :
    Seeded own slots (basePlan S own rule size slots) :=
  have start : Seeded own slots ⟨fun _ => false, [], none, true, slots⟩ :=
    ⟨slotted_nil own slots slots, le_rfl, fun _ _ mem => absurd mem List.not_mem_nil⟩
  start.planFrom negs _ _ _ _

theorem laid_hoists {fold : Option Fold} {v : Variant} (laid : S.Laid s rule fold v) :
    hoists v.steps = foldHoists fold := by
  cases fold with
  | none =>
    obtain ⟨order, _, _, steps⟩ := laid
    rw [steps]
    exact orderSteps_hoists _ _ _
  | some f =>
    obtain ⟨later, _, _, _, _, steps⟩ := laid
    rw [steps, hoists, orderSteps_hoists, List.append_nil]
    rfl

theorem rulePlan_planned (sane : S.Sane s) (fit : S.Fit rule)
    (idb : ∀ p ∈ own, kindOf S.preds p = some .idb)
    (negs : ∀ p terms, CLit.neg p terms ∈ rule.body → p ∉ own) (size : PredId → Option Nat)
    (slots : Nat) :
    ∃ fold, S.Planned s own rule fold (rulePlan S.preds S.catalog own rule size slots).1.variants ∧
      Slotted own slots (rulePlan S.preds S.catalog own rule size slots).2 (foldHoists fold) ∧
      slots ≤ (rulePlan S.preds S.catalog own rule size slots).2 := by
  obtain ⟨⟨ready, built⟩, perm⟩ := And.intro (basePlan_built sane fit idb size slots)
    (sipsOrder_perm S.catalog S.preds rule (fun _ => false) none size)
  have seeded := basePlan_seeded (S := S) negs size slots
  unfold basePlan at built seeded
  unfold rulePlan
  dsimp only
  generalize sipsOrder rule S.preds S.catalog (fun _ => false) none size = order at perm ready built seeded
  generalize planBody S.preds S.catalog own rule order (fun _ => false) (fun _ => .all) true slots = base
    at built seeded
  have capable_iff (d : Nat) (here : (rule.body[d]?).any (deltaCapable S.preds S.catalog) = true) :
      d ∈ capable S.preds S.catalog rule := by
    refine List.mem_filter.mpr ⟨List.mem_range.mpr ?_, here⟩
    by_contra past
    rw [List.getElem?_eq_none (by omega)] at here
    cases here
  rcases built.shape with ⟨none', steps⟩ | ⟨k, h, bind, folded, lt, steps, behind, foreign, i, p, terms,
    b, at', here, kind⟩
  · refine ⟨none, ?_⟩
    simp only [none']
    refine ⟨?_, slotted_nil _ _ _, seeded.floor⟩
    refine ⟨fun v mem => ?_, ⟨_, List.mem_cons_self, rfl⟩, fun d here _ => ?_, fun f eq => ?_,
      fun f eq => ?_⟩
    · rcases List.mem_cons.mp mem with eq | mem
      · subst eq
        exact ⟨rfl, order, perm, ready, steps⟩
      · obtain ⟨d, _, eq⟩ := List.mem_map.mp mem
        subst eq
        exact ⟨rfl, plain_laid fit size base.slots d⟩
    · exact ⟨_, List.mem_cons_of_mem _ (List.mem_map_of_mem (capable_iff d here)), rfl⟩
    · cases eq
    · cases eq
  · have isLast : order.getD k 0 = i := by
      rw [List.getD_eq_getElem?_getD, at']
      rfl
    have composite : base.steps.take 1 = [h.step bind .all] := by rw [steps]; rfl
    refine ⟨some ⟨order.take (k + 1), i, h, bind⟩, ?_⟩
    simp only [folded, isLast, composite]
    have kept := seeded.slotted
    rw [steps, hoists, orderSteps_hoists, List.append_nil] at kept
    refine ⟨?_, kept, seeded.floor⟩
    have parts : S.Ready rule (fun _ => false) order := ready
    rw [← List.take_append_drop (k + 1) order, orderReady_append] at parts
    have listed (d : Nat) : d ∈ ((capable S.preds S.catalog rule).filter fun d =>
        !(order.take (k + 1)).contains d) ++ [i] → ∃ v ∈ (((capable S.preds S.catalog rule).filter fun d =>
          !(order.take (k + 1)).contains d) ++ [i]).insertionSort (· ≤ ·) |>.map
            (hoistVariant S.preds S.catalog own rule size base.slots (order.take (k + 1))
              [h.step bind .all] i), v.delta = some d := fun mem =>
      ⟨_, List.mem_map_of_mem ((List.mem_insertionSort _).mpr mem), rfl⟩
    refine ⟨fun v mem => ?_, ⟨_, List.mem_cons_self, rfl⟩, fun d here apart => ?_, fun f eq => ?_,
      fun f eq => ?_⟩
    · rcases List.mem_cons.mp mem with eq | mem
      · subst eq
        refine ⟨rfl, order.drop (k + 1), ?_, parts.1, parts.2, behind, steps⟩
        rwa [List.take_append_drop]
      · obtain ⟨d, _, eq⟩ := List.mem_map.mp mem
        subst eq
        exact ⟨rfl, hoist_laid fit size base.slots d perm ready behind⟩
    · obtain ⟨v, mem, delta⟩ := listed d (List.mem_append_left _ (List.mem_filter.mpr
        ⟨capable_iff d here, by simpa using apart _ rfl⟩))
      exact ⟨v, List.mem_cons_of_mem _ mem, delta⟩
    · cases eq
      obtain ⟨v, mem, delta⟩ := listed i (List.mem_append_right _ (List.mem_singleton.mpr rfl))
      refine ⟨⟨v, List.mem_cons_of_mem _ mem, delta⟩, ?_, p, terms, b, here, kind⟩
      exact List.mem_iff_getElem?.mpr ⟨k, by rw [List.getElem?_take_of_lt (Nat.lt_succ_self k), at']⟩
    · cases eq
      exact foreign

end Plan

end Setting

end Glia.Rules
