import Glia.Graph.Queue
import Mathlib.Data.List.Infix
import Mathlib.Data.List.Nodup

/-! Which producer a queue resolver pairs with which consumer, whatever order its graphs and their
nodes come in. -/
namespace Glia.Graph

open Glia.Kit (OrdMap gather getElem?_gather getElem?_gather_push)

section Only
variable {β : Type}

def Only (P : β → Prop) (x : β) : Prop := P x ∧ ∀ y, P y → y = x

theorem Only.congr {P Q : β → Prop} (h : ∀ x, P x ↔ Q x) (x : β) : Only P x ↔ Only Q x := by
  simp only [Only, h]

variable [DecidableEq β]

theorem foldl_agree_some (xs : List β) (held : Option β) (x : β) :
    xs.foldl (fun o y => agree y o) (some held) = some (some x) ↔
      held = some x ∧ ∀ y ∈ xs, y = x := by
  induction xs generalizing held with
  | nil => simp
  | cons y xs ih =>
    rw [List.foldl_cons, agree, ih, List.forall_mem_cons]
    by_cases same : held = some y
    · subst same
      simp only [if_true, Option.some.injEq]
      tauto
    · rw [if_neg same]
      constructor
      · rintro ⟨nothing, -⟩
        cases nothing
      · rintro ⟨rfl, rfl, -⟩
        exact absurd rfl same

theorem foldl_agree (xs : List β) (x : β) :
    (xs.foldl (fun o y => agree y o) none).join = some x ↔ Only (· ∈ xs) x := by
  cases xs with
  | nil => simp [Only]
  | cons y xs =>
    have joined : (∀ o : Option (Option β), o.join = some x ↔ o = some (some x)) := by
      intro o
      cases o <;> simp
    rw [List.foldl_cons, agree, joined, foldl_agree_some, Option.some.injEq, Only]
    constructor
    · rintro ⟨rfl, all⟩
      exact ⟨List.mem_cons_self, List.forall_mem_cons.mpr ⟨rfl, all⟩⟩
    · rintro ⟨-, all⟩
      exact List.forall_mem_cons.mp all

theorem gather_agree {κ : Type} [LinearOrder κ] (items : List (κ × β)) (k : κ) (x : β) :
    ((gather Prod.fst (fun e seen => agree e.2 seen) ∅ items : OrdMap κ (Option β))[k]?).join =
      some x ↔ Only (fun y => (k, y) ∈ items) x := by
  have start : (∅ : OrdMap κ (Option β))[k]? = none := Std.ExtTreeMap.getElem?_empty
  rw [getElem?_gather, start]
  have values := foldl_agree ((items.filter fun e => e.1 = k).map Prod.snd) x
  rw [List.foldl_map] at values
  rw [values]
  apply Only.congr
  intro y
  simp only [List.mem_map, List.mem_filter, decide_eq_true_eq, Prod.exists]
  constructor
  · rintro ⟨k', y', ⟨mem, rfl⟩, rfl⟩
    exact mem
  · intro mem
    exact ⟨k, y, ⟨mem, rfl⟩, rfl⟩

end Only

section Bound

inductive Says (g : RepoGraph) (json : String) : String → Prop
  | name {t : String} (h : strField json "topic" = some t) : Says g json t
  | resource {ref r t : String} (unnamed : strField json "topic" = none)
      (h : strField json "topic_ref" = some ref)
      (cut : Text.splitOnce "." ref = some (pubsubTopicResource, r))
      (one : Only (fun name => (infraQname (canonicalKind pubsubTopicResource) r, name) ∈
        declaredTopics g) t) : Says g json t

def Binds (g : RepoGraph) (sub t : String) : Prop :=
  ∃ c ∈ pubsubCells g, strField c.2.2 "pubsub" = some "subscription" ∧ c.2.1 = sub ∧ Says g c.2.2 t

/-- The topic every declaration of the subscription that resolves agrees on. -/
def Bound (graphs : List RepoGraph) (sub t : String) : Prop :=
  Only (fun t => ∃ g ∈ graphs, Binds g sub t) t

variable (graphs : List RepoGraph)

theorem topicNames_iff {i : Nat} {g : RepoGraph} (held : graphs[i]? = some g) (q t : String) :
    ((topicNames graphs)[toLex (i, q)]?).join = some t ↔
      Only (fun name => (q, name) ∈ declaredTopics g) t := by
  rw [topicNames, gather_agree]
  apply Only.congr
  intro name
  simp only [List.mem_flatMap, List.mem_map, Prod.exists, Prod.mk.injEq, EmbeddingLike.apply_eq_iff_eq]
  constructor
  · rintro ⟨g', i', mem, q', name', listed, ⟨rfl, rfl⟩, rfl⟩
    have same : graphs[i']? = some g' := List.mem_zipIdx_iff_getElem?.mp mem
    rw [held, Option.some.injEq] at same
    subst same
    exact listed
  · intro listed
    exact ⟨g, i, List.mem_zipIdx_iff_getElem?.mpr held, q, name, listed, ⟨rfl, rfl⟩, rfl⟩

theorem resolveBound_iff {i : Nat} {g : RepoGraph} (held : graphs[i]? = some g) (json t : String) :
    (boundTo i json).bind (resolveBound (topicNames graphs)) = some t ↔ Says g json t := by
  unfold boundTo
  cases named : strField json "topic" with
  | some topic =>
    simp only [Option.bind_some, resolveBound, Option.some.injEq]
    constructor
    · rintro rfl
      exact .name named
    · rintro (h | ⟨unnamed, -, -, -⟩)
      · exact Option.some.inj (named.symm.trans h)
      · rw [named] at unnamed
        cases unnamed
  | none =>
    constructor
    · intro found
      simp only [Option.bind_eq_some_iff, Option.ite_none_right_eq_some, Option.some.injEq]
        at found
      obtain ⟨b, ⟨ref, reffed, r, cut, kind, rfl⟩, resolved⟩ := found
      obtain ⟨ty, r⟩ := r
      subst kind
      exact .resource named reffed cut ((topicNames_iff graphs held _ t).mp resolved)
    · rintro (h | ⟨-, reffed, cut, one⟩)
      · rw [named] at h
        cases h
      · simp only [reffed, cut, Option.bind_some, if_true, resolveBound]
        exact (topicNames_iff graphs held _ t).mpr one

theorem pubsubBindings_iff (sub t : String) :
    (pubsubBindings graphs)[sub]? = some t ↔ Bound graphs sub t := by
  have joined : ∀ o : Option (Option String), o.bind (fun topic => topic) = o.join := by
    intro o
    cases o <;> rfl
  rw [pubsubBindings, Std.ExtTreeMap.getElem?_filterMap', joined, gather_agree]
  apply Only.congr
  intro t
  simp only [List.mem_filterMap, List.mem_flatMap, declaredSubs, Option.map_eq_some_iff,
    Option.ite_none_right_eq_some, Prod.exists, Prod.mk.injEq, Binds]
  constructor
  · rintro ⟨sub', b, ⟨g, i, mem, n, name, json, cell, ⟨sort, b', read, rfl, rfl⟩⟩, t', resolved,
      rfl, rfl⟩
    have held : graphs[i]? = some g := List.mem_zipIdx_iff_getElem?.mp mem
    have told := (resolveBound_iff graphs held json t').mp (by rw [read]; exact resolved)
    exact ⟨g, List.mem_of_getElem? held, n, name, json, cell, sort, rfl, told⟩
  · rintro ⟨g, mem, n, name, json, cell, sort, rfl, told⟩
    obtain ⟨i, held⟩ := List.mem_iff_getElem?.mp mem
    obtain ⟨b, read, resolved⟩ :=
      Option.bind_eq_some_iff.mp ((resolveBound_iff graphs held json t).mpr told)
    exact ⟨name, b, ⟨g, i, List.mem_zipIdx_iff_getElem?.mpr held, n, name, json, cell,
      sort, b, read, rfl, rfl⟩, t, resolved, rfl, rfl⟩

instance (sub t : String) : Decidable (Bound graphs sub t) :=
  decidable_of_iff _ (pubsubBindings_iff graphs sub t)

end Bound

section Covers

inductive Covers (syn : Segmented) : List (List Char) → List (List Char) → Prop
  | nil : Covers syn [] []
  | restAny {ps ts : List (List Char)} (lead : List (List Char)) (h : Covers syn ps ts) :
      Covers syn (syn.restAny :: ps) (lead ++ ts)
  | restSome {p t : List Char} {ts : List (List Char)} (other : p ≠ syn.restAny)
      (h : some p = syn.restSome) : Covers syn [p] (t :: ts)
  | token {p t : List Char} {ps ts : List (List Char)} (other : p ≠ syn.restAny)
      (single : some p ≠ syn.restSome) (same : p = syn.one ∨ p = t) (h : Covers syn ps ts) :
      Covers syn (p :: ps) (t :: ts)

/-- A pattern's first token decides how it covers a topic. -/
theorem Covers.cons_iff (syn : Segmented) (p : List Char) (ps ts : List (List Char)) :
    Covers syn (p :: ps) ts ↔
      if p = syn.restAny then ∃ rest, rest <:+ ts ∧ Covers syn ps rest
      else if some p = syn.restSome then ps = [] ∧ ts ≠ []
      else ∃ t rest, ts = t :: rest ∧ (p = syn.one ∨ p = t) ∧ Covers syn ps rest := by
  constructor
  · intro h
    cases h with
    | restAny lead h =>
      rw [if_pos rfl]
      exact ⟨_, List.suffix_append lead _, h⟩
    | restSome other some_ =>
      rw [if_neg other, if_pos some_]
      exact ⟨rfl, List.cons_ne_nil _ _⟩
    | token other single same h =>
      rw [if_neg other, if_neg single]
      exact ⟨_, _, rfl, same, h⟩
  · intro h
    split_ifs at h with any_ some_
    · obtain ⟨rest, ⟨lead, rfl⟩, h⟩ := h
      subst any_
      exact .restAny lead h
    · obtain ⟨rfl, full⟩ := h
      obtain ⟨t, ts, rfl⟩ := List.exists_cons_of_ne_nil full
      exact .restSome any_ some_
    · obtain ⟨t, rest, rfl, same, h⟩ := h
      exact .token any_ some_ same h

theorem segWalk_iff (syn : Segmented) (ts ps : List (List Char)) :
    segWalk syn ts ps = true ↔ Covers syn ps ts := by
  induction ps generalizing ts with
  | nil =>
    rw [segWalk, List.isEmpty_iff]
    constructor
    · rintro rfl
      exact .nil
    · rintro ⟨⟩
      rfl
  | cons p ps ih =>
    rw [Covers.cons_iff, segWalk.eq_def]
    dsimp only
    by_cases any_ : p = syn.restAny
    · simp only [if_pos any_, List.any_eq_true, List.mem_tails, ih]
    rw [if_neg any_, if_neg any_]
    cases ts with
    | nil => split_ifs <;> simp
    | cons t ts =>
      dsimp only
      by_cases some_ : some p = syn.restSome
      · simp [some_]
      rw [if_neg some_, if_neg some_]
      by_cases same : p = syn.one ∨ p = t
      · rw [if_neg (by tauto), ih]
        constructor
        · intro h
          exact ⟨t, ts, rfl, same, h⟩
        · rintro ⟨_, _, ⟨⟩, -, h⟩
          exact h
      · rw [if_pos (by tauto)]
        constructor
        · intro h
          cases h
        · rintro ⟨_, _, ⟨⟩, same', -⟩
          exact absurd same' same

def Pattern.Covers : Pattern → String → String → Prop
  | segments syn, pattern, topic =>
    Graph.Covers syn (pattern.toList.splitOn syn.sep) (topic.toList.splitOn syn.sep)
  | lead text true, _, topic => topic.toList = text
  | lead text false, _, topic => text <+: topic.toList

theorem Pattern.matches_iff (p : Pattern) (pattern topic : String) :
    p.matches pattern topic = true ↔ p.Covers pattern topic := by
  match p with
  | segments syn => exact segWalk_iff syn _ _
  | lead text true => exact decide_eq_true_iff
  | lead text false => exact List.isPrefixOf_iff_prefix

instance (p : Pattern) (pattern topic : String) : Decidable (p.Covers pattern topic) :=
  decidable_of_iff _ (p.matches_iff pattern topic)

end Covers

section Pairs

inductive QueueRule where
  | exact
  | binding
  | pattern
  deriving DecidableEq

def QueueRule.name : QueueRule → String
  | exact => "exact"
  | binding => "binding"
  | pattern => "pattern"

inductive Pairs (graphs : List RepoGraph) (p c : QueueSide) : QueueRule → Prop
  | exact (plain : p.placeholder = false)
      (families : familiesCompatible p.families c.families = true) (same : c.topic = p.topic) :
      Pairs graphs p c .exact
  | binding (plain : p.placeholder = false)
      (families : familiesCompatible p.families c.families = true) (other : p.topic ≠ c.topic)
      (admits : familiesCompatible c.families [QueueFramework.pubSub.family] = true)
      (bound : Bound graphs c.topic p.topic) : Pairs graphs p c .binding
  | pattern {fam : String} {pat : Pattern} (apart : p.placeholder = true ∨ c.topic ≠ p.topic)
      (named : fam ∈ c.families) (compiled : compilePattern c.topic fam = .pattern pat)
      (covers : pat.Covers c.topic p.topic)
      (family : familiesCompatible p.families [fam] = true) : Pairs graphs p c .pattern

def QueueRule.confidence (p c : QueueSide) : QueueRule → Confidence
  | exact => p.confidence.weakest c.confidence
  | binding => (p.confidence.weakest c.confidence).weakest .medium
  | pattern => .weak

def flowOf (p c : QueueSide) (rule : QueueRule) : QueueFlow :=
  ⟨p.id, c.id, rule.confidence p c, ruleName rule.name (p.model || c.model)⟩

variable (graphs : List RepoGraph)

/-- What the exact index gives a producer of one consumer. -/
def exactOf (p c : QueueSide) : Option QueueRule :=
  if p.placeholder || !familiesCompatible p.families c.families then none
  else if c.topic = p.topic then some .exact
  else if (pubsubBindings graphs)[c.topic]? = some p.topic ∧
      familiesCompatible c.families [QueueFramework.pubSub.family] then some .binding
  else none

def patternOf (p c : QueueSide) : Option QueueRule :=
  if (p.placeholder || c.topic != p.topic) &&
      (armsOf c).any fun a => a.2.matches c.topic p.topic && familiesCompatible p.families [a.1]
    then some .pattern else none

theorem exactIndex_get (topic : String) :
    ((buildQueueIndex graphs (pubsubBindings graphs)).exact[topic]?).getD [] =
      (graphs.flatMap consumersOf).flatMap fun c =>
        ((indexedAs (pubsubBindings graphs) c).filter fun e => e.1 = topic).map Prod.snd := by
  rw [buildQueueIndex, getElem?_gather_push, List.filter_flatMap, List.map_flatMap]

theorem exactFlows_eq (p : QueueSide) :
    exactFlows (buildQueueIndex graphs (pubsubBindings graphs)) p =
      (graphs.flatMap consumersOf).filterMap fun c => (exactOf graphs p c).map (flowOf p c) := by
  rw [exactFlows, exactIndex_get]
  cases plain : p.placeholder with
  | true => simp [plain, exactOf]
  | false =>
    rw [if_neg Bool.false_ne_true, List.filterMap_flatMap, List.filterMap_eq_flatMap_toList]
    apply List.flatMap_congr
    intro c _
    rw [exactOf, indexedAs, List.filter_append, List.map_append, List.filterMap_append]
    generalize listed : ((pubsubBindings graphs)[c.topic]?).filter (fun bound => bound ≠ c.topic &&
      familiesCompatible c.families [QueueFramework.pubSub.family]) = via
    have via_iff : c.topic ≠ p.topic → (((pubsubBindings graphs)[c.topic]? = some p.topic ∧
        familiesCompatible c.families [QueueFramework.pubSub.family]) ↔ via = some p.topic) := by
      intro apart
      simp [← listed, Option.filter_eq_some_iff, Ne.symm apart]
    cases compat : familiesCompatible p.families c.families with
    | false =>
      cases via <;> simp [List.filter_cons, apply_ite, compat]
    | true =>
      by_cases same : c.topic = p.topic
      · -- A subscription bound to its own name is not indexed twice.
        have once : via ≠ some p.topic := by simp [← listed, Option.filter_eq_some_iff, same]
        cases via with
        | none => simp [plain, same, compat, flowOf, QueueRule.confidence, QueueRule.name]
        | some b =>
          have apart : b ≠ p.topic := fun e => once (by rw [e])
          simp [plain, same, apart, compat, flowOf, QueueRule.confidence, QueueRule.name]
      · simp only [plain, same, via_iff same, if_false, Bool.not_true, Bool.or_self]
        cases via with
        | none => simp [same]
        | some b =>
          by_cases hit : b = p.topic <;>
            simp [same, hit, compat, flowOf, QueueRule.confidence, QueueRule.name]

theorem patternFlows_eq (p : QueueSide) :
    patternFlows (buildQueueIndex graphs (pubsubBindings graphs)) p =
      (graphs.flatMap consumersOf).filterMap fun c => (patternOf p c).map (flowOf p c) := by
  rw [patternFlows, buildQueueIndex, ← List.filterMap_eq_filter, List.filterMap_filterMap,
    List.filterMap_filterMap]
  apply List.filterMap_congr
  intro c _
  by_cases none_ : armsOf c = []
  · simp [none_, patternOf]
  · rw [if_neg none_, Option.bind_some, patternOf, Option.guard]
    cases open_ : p.placeholder || c.topic != p.topic with
    | false => simp
    | true =>
      simp only [if_true, Option.bind_some, List.any_filter, Bool.true_and]
      split_ifs <;> rfl

theorem exactOf_iff (p c : QueueSide) (rule : QueueRule) :
    exactOf graphs p c = some rule ↔ rule ≠ .pattern ∧ Pairs graphs p c rule := by
  rw [exactOf]
  constructor
  · intro found
    split_ifs at found with closed same bound
    all_goals simp only [Bool.or_eq_true, Bool.not_eq_true', not_or, Bool.not_eq_true,
      Bool.not_eq_false] at closed
    · cases found
      exact ⟨QueueRule.noConfusion, .exact closed.1 closed.2 same⟩
    · cases found
      exact ⟨QueueRule.noConfusion, .binding closed.1 closed.2 (Ne.symm same) bound.2
        ((pubsubBindings_iff graphs _ _).mp bound.1)⟩
  · rintro ⟨other, pairs⟩
    cases pairs with
    | exact plain families same => simp [plain, families, same]
    | binding plain families apart admits bound =>
      simp [plain, families, apart.symm, admits, (pubsubBindings_iff graphs _ _).mpr bound]
    | pattern => exact absurd rfl other

theorem mem_armsOf (c : QueueSide) (fam : String) (pat : Pattern) :
    (fam, pat) ∈ armsOf c ↔ fam ∈ c.families ∧ compilePattern c.topic fam = .pattern pat := by
  rw [armsOf, List.mem_filterMap]
  constructor
  · rintro ⟨fam', mem, arm⟩
    cases compiled : compilePattern c.topic fam' <;> rw [compiled] at arm <;> cases arm
    exact ⟨mem, compiled⟩
  · rintro ⟨mem, compiled⟩
    exact ⟨fam, mem, by rw [compiled]⟩

theorem patternOf_iff (p c : QueueSide) (rule : QueueRule) :
    patternOf p c = some rule ↔ rule = .pattern ∧ Pairs graphs p c rule := by
  rw [patternOf]
  simp only [Option.ite_none_right_eq_some, Bool.and_eq_true, List.any_eq_true, Prod.exists,
    Option.some.injEq, Bool.or_eq_true, bne_iff_ne, Pattern.matches_iff, mem_armsOf]
  constructor
  · rintro ⟨⟨apart, fam, pat, ⟨named, compiled⟩, covers, family⟩, rfl⟩
    exact ⟨rfl, .pattern apart named compiled covers family⟩
  · rintro ⟨rfl, ⟨⟩ | ⟨⟩ | ⟨apart, named, compiled, covers, family⟩⟩
    exact ⟨⟨apart, _, _, ⟨named, compiled⟩, covers, family⟩, rfl⟩

theorem queueFlows_eq (m : MergedGraph) :
    queueFlows m = (m.graphs.flatMap producersOf).flatMap fun p =>
      ((m.graphs.flatMap consumersOf).filterMap fun c =>
        (exactOf m.graphs p c).map (flowOf p c)) ++
      (m.graphs.flatMap consumersOf).filterMap fun c => (patternOf p c).map (flowOf p c) := by
  simp only [queueFlows, exactFlows_eq, patternFlows_eq]

theorem pairs_iff_found (p c : QueueSide) (rule : QueueRule) :
    Pairs graphs p c rule ↔ exactOf graphs p c = some rule ∨ patternOf p c = some rule := by
  rw [exactOf_iff, patternOf_iff graphs]
  tauto

instance (p c : QueueSide) (rule : QueueRule) : Decidable (Pairs graphs p c rule) :=
  decidable_of_iff' _ (pairs_iff_found graphs p c rule)

theorem mem_queueFlows (m : MergedGraph) (f : QueueFlow) :
    f ∈ queueFlows m ↔ ∃ p ∈ m.graphs.flatMap producersOf, ∃ c ∈ m.graphs.flatMap consumersOf,
      ∃ rule, Pairs m.graphs p c rule ∧ f = flowOf p c rule := by
  simp only [queueFlows_eq, List.mem_flatMap (f := fun p => _ ++ _), List.mem_append,
    List.mem_filterMap, Option.map_eq_some_iff, pairs_iff_found]
  constructor
  · rintro ⟨p, hp, ⟨c, hc, rule, found, rfl⟩ | ⟨c, hc, rule, found, rfl⟩⟩
    · exact ⟨p, hp, c, hc, rule, .inl found, rfl⟩
    · exact ⟨p, hp, c, hc, rule, .inr found, rfl⟩
  · rintro ⟨p, hp, c, hc, rule, found | found, rfl⟩
    · exact ⟨p, hp, .inl ⟨c, hc, rule, found, rfl⟩⟩
    · exact ⟨p, hp, .inr ⟨c, hc, rule, found, rfl⟩⟩

end Pairs

section Once

def QueueFlow.ends (f : QueueFlow) : NodeId × NodeId := (f.producer, f.consumer)

theorem ends_nodup {consumers : List QueueSide} (distinct : (consumers.map QueueSide.id).Nodup)
    (p : QueueSide) (rule : QueueSide → Option QueueRule) :
    ((consumers.filterMap fun c => (rule c).map (flowOf p c)).map QueueFlow.ends).Nodup := by
  rw [List.Nodup, List.pairwise_map, List.pairwise_filterMap]
  apply (List.pairwise_map.mp distinct).imp
  intro c c' apart f from_ f' from_' same
  obtain ⟨r, -, rfl⟩ := Option.map_eq_some_iff.mp from_
  obtain ⟨r', -, rfl⟩ := Option.map_eq_some_iff.mp from_'
  exact apart (congrArg Prod.snd same)

theorem producer_of_mem {consumers : List QueueSide} {p : QueueSide}
    {rule rule' : QueueSide → Option QueueRule} {f : QueueFlow}
    (mem : f ∈ (consumers.filterMap fun c => (rule c).map (flowOf p c)) ++
      consumers.filterMap fun c => (rule' c).map (flowOf p c)) : f.producer = p.id := by
  simp only [List.mem_append, List.mem_filterMap, Option.map_eq_some_iff] at mem
  obtain ⟨c, -, r, -, rfl⟩ | ⟨c, -, r, -, rfl⟩ := mem
  · rfl
  · rfl

/-- An id held once on either side, and no pair of two rules, leave one flow for a pair. -/
theorem queueFlows_once (m : MergedGraph)
    (producers : ((m.graphs.flatMap producersOf).map QueueSide.id).Nodup)
    (consumers : ((m.graphs.flatMap consumersOf).map QueueSide.id).Nodup)
    (single : ∀ p ∈ m.graphs.flatMap producersOf, ∀ c ∈ m.graphs.flatMap consumersOf,
      Pairs m.graphs p c .binding → ¬Pairs m.graphs p c .pattern) :
    ((queueFlows m).map QueueFlow.ends).Nodup := by
  rw [queueFlows_eq, List.map_flatMap, List.Nodup, List.pairwise_flatMap]
  constructor
  · intro p hp
    rw [List.map_append]
    apply List.Nodup.append (ends_nodup consumers p _) (ends_nodup consumers p _)
    intro ends left right
    simp only [List.mem_map, List.mem_filterMap, Option.map_eq_some_iff] at left right
    obtain ⟨_, ⟨c, hc, rule, exact_, rfl⟩, rfl⟩ := left
    obtain ⟨_, ⟨c', hc', rule', pattern_, rfl⟩, same⟩ := right
    obtain rfl : c' = c := List.inj_on_of_nodup_map consumers hc' hc (congrArg Prod.snd same)
    obtain ⟨other, pairs⟩ := (exactOf_iff m.graphs p c' rule).mp exact_
    obtain ⟨rfl, pairs'⟩ := (patternOf_iff m.graphs p c' rule').mp pattern_
    cases pairs with
    | exact plain families topic =>
      cases pairs' with
      | pattern apart => simp [plain, topic] at apart
    | binding plain families apart admits bound =>
      exact single p hp c' hc (.binding plain families apart admits bound) pairs'
    | pattern => exact other rfl
  · apply (List.pairwise_map.mp producers).imp
    intro p p' apart x left y right same
    obtain ⟨f, mem, rfl⟩ := List.mem_map.mp left
    obtain ⟨f', mem', rfl⟩ := List.mem_map.mp right
    rw [← producer_of_mem mem, ← producer_of_mem mem'] at apart
    exact apart (congrArg Prod.fst same)

end Once

section Order

structure SameListing (g g' : RepoGraph) : Prop where
  nav : g'.nav = g.nav
  nodes : g.nodes.Perm g'.nodes

def Shuffled (graphs graphs' : List RepoGraph) : Prop :=
  ∃ mid, graphs.Perm mid ∧ List.Forall₂ SameListing mid graphs'

theorem Shuffled.mem_iff {graphs graphs' : List RepoGraph} (h : Shuffled graphs graphs')
    {P : RepoGraph → Prop} (steady : ∀ g g', SameListing g g' → (P g ↔ P g')) :
    (∃ g ∈ graphs, P g) ↔ ∃ g ∈ graphs', P g := by
  obtain ⟨mid, perm, same⟩ := h
  simp only [perm.mem_iff]
  clear perm
  induction same with
  | nil => simp
  | cons head _ ih => simp only [List.exists_mem_cons_iff, ih, steady _ _ head]

theorem SameListing.flatMap_iff {g g' : RepoGraph} (h : SameListing g g') {β : Type}
    (read : CodeNav → Node → List β) (x : β) :
    x ∈ g.nodes.flatMap (read g.nav) ↔ x ∈ g'.nodes.flatMap (read g'.nav) := by
  rw [h.nav]
  exact (h.nodes.flatMap_right _).mem_iff

theorem SameListing.cells_iff {g g' : RepoGraph} (h : SameListing g g')
    (c : NodeId × String × String) : c ∈ pubsubCells g ↔ c ∈ pubsubCells g' :=
  h.flatMap_iff (fun nav n => if nav.kindById[n.id]? = some NodeKind.infraResource then
      n.cells.filterMap fun c => (jsonOf CellType.code c).bind fun j =>
        (strField j "name").map fun name => (n.id, name, j)
    else []) c

theorem SameListing.topics_iff {g g' : RepoGraph} (h : SameListing g g') (t : String × String) :
    t ∈ declaredTopics g ↔ t ∈ declaredTopics g' := by
  simp only [declaredTopics, List.mem_filterMap, h.cells_iff, h.nav]

theorem SameListing.says_iff {g g' : RepoGraph} (h : SameListing g g') (json t : String) :
    Says g json t ↔ Says g' json t := by
  have one := fun q => Only.congr (fun name => h.topics_iff (q, name)) t
  constructor
  · rintro (named | ⟨unnamed, reffed, cut, only⟩)
    · exact .name named
    · exact .resource unnamed reffed cut ((one _).mp only)
  · rintro (named | ⟨unnamed, reffed, cut, only⟩)
    · exact .name named
    · exact .resource unnamed reffed cut ((one _).mpr only)

theorem SameListing.binds_iff {g g' : RepoGraph} (h : SameListing g g') (sub t : String) :
    Binds g sub t ↔ Binds g' sub t := by
  simp only [Binds, h.cells_iff, h.says_iff]

theorem SameListing.sides_iff {g g' : RepoGraph} (h : SameListing g g') (kind : Nat)
    (lead : String) (p : QueueSide) :
    p ∈ g.nodes.filterMap (queueSide kind lead g) ↔
      p ∈ g'.nodes.filterMap (queueSide kind lead g') := by
  simp only [List.mem_filterMap, queueSide, h.nav, h.nodes.mem_iff]

variable {graphs graphs' : List RepoGraph} (h : Shuffled graphs graphs')
include h

theorem Shuffled.bound_iff (sub t : String) : Bound graphs sub t ↔ Bound graphs' sub t :=
  Only.congr (fun t => h.mem_iff fun _ _ same => same.binds_iff sub t) t

theorem Shuffled.producers_iff (p : QueueSide) :
    p ∈ graphs.flatMap producersOf ↔ p ∈ graphs'.flatMap producersOf := by
  rw [List.mem_flatMap, List.mem_flatMap]
  exact h.mem_iff fun _ _ same => same.sides_iff _ _ p

theorem Shuffled.consumers_iff (c : QueueSide) :
    c ∈ graphs.flatMap consumersOf ↔ c ∈ graphs'.flatMap consumersOf := by
  rw [List.mem_flatMap, List.mem_flatMap]
  exact h.mem_iff fun _ _ same => same.sides_iff _ _ c

theorem Shuffled.pairs_iff (p c : QueueSide) (rule : QueueRule) :
    Pairs graphs p c rule ↔ Pairs graphs' p c rule := by
  have bound := h.bound_iff c.topic p.topic
  constructor
  · rintro (⟨plain, families, same⟩ | ⟨plain, families, other, admits, told⟩ | ⟨apart, named,
      compiled, covers, family⟩)
    · exact .exact plain families same
    · exact .binding plain families other admits (bound.mp told)
    · exact .pattern apart named compiled covers family
  · rintro (⟨plain, families, same⟩ | ⟨plain, families, other, admits, told⟩ | ⟨apart, named,
      compiled, covers, family⟩)
    · exact .exact plain families same
    · exact .binding plain families other admits (bound.mpr told)
    · exact .pattern apart named compiled covers family

end Order

/-- The resolver adds exactly the pairs of the three rules, the same ones whatever the order, and
one for each pair of ids that both sides hold once and one rule alone pairs. -/
theorem resolveQueues_pairs (m m' : MergedGraph) (shuffled : Shuffled m.graphs m'.graphs) :
    (resolveQueues m).crossEdges = m.crossEdges ++ (queueFlows m).map QueueFlow.edge ∧
    (∀ f, f ∈ queueFlows m ↔ ∃ p ∈ m.graphs.flatMap producersOf,
      ∃ c ∈ m.graphs.flatMap consumersOf, ∃ rule, Pairs m.graphs p c rule ∧ f = flowOf p c rule) ∧
    (∀ f, f ∈ queueFlows m ↔ f ∈ queueFlows m') ∧
    (((m.graphs.flatMap producersOf).map QueueSide.id).Nodup →
      ((m.graphs.flatMap consumersOf).map QueueSide.id).Nodup →
      (∀ p ∈ m.graphs.flatMap producersOf, ∀ c ∈ m.graphs.flatMap consumersOf,
        Pairs m.graphs p c .binding → ¬Pairs m.graphs p c .pattern) →
      ((queueFlows m).map QueueFlow.ends).Nodup) := by
  refine ⟨rfl, mem_queueFlows m, fun f => ?_, queueFlows_once m⟩
  simp only [mem_queueFlows, shuffled.producers_iff, shuffled.consumers_iff, shuffled.pairs_iff]


section Fixture

def familyCell (family : String) : Cell where
  kind := CellType.code
  payload := .json ("\x7b\"family\":\"" ++ family ++ "\"\x7d")

def queueGraph (nodes : List (Nat × String × List Cell)) : RepoGraph where
  repo := 0
  nodes := nodes.zipIdx.map fun e => ⟨e.2, .strong, e.1.2.2⟩
  nav :=
    { qnameById := .ofList (nodes.zipIdx.map fun e => (e.2, e.1.2.1)) compare
      kindById := .ofList (nodes.zipIdx.map fun e => (e.2, e.1.1)) compare }

def ordersGraph : RepoGraph :=
  queueGraph [(NodeKind.queueProducer, "queue_producer:orders @api", []),
    (NodeKind.queueConsumer, "queue_consumer:orders @worker", [])]

def subjectGraph : RepoGraph :=
  queueGraph [(NodeKind.queueProducer, "queue_producer:shop.*",
      [familyCell "nats", familyCell "pubsub"]),
    (NodeKind.queueConsumer, "queue_consumer:shop-sub", [familyCell "pubsub"]),
    (NodeKind.infraResource, "infra:google_pubsub_subscription:shop", [⟨CellType.code, .json
      "\x7b\"pubsub\":\"subscription\",\"name\":\"shop-sub\",\"topic\":\"shop.*\"\x7d"⟩])]

def dialectGraph : RepoGraph :=
  queueGraph [(NodeKind.queueProducer, "queue_producer:orders.paid", [familyCell "kafka"]),
    (NodeKind.queueConsumer, "queue_consumer:orders.>", [familyCell "nats", familyCell "kafka"])]

end Fixture

/-- Two graphs that hold both ends pair them four times, a folded subject keeps no bound
subscription, and a pattern pairs in the dialect that reads it only. -/
theorem queueFlows_apart :
    (queueFlows ⟨[ordersGraph, ordersGraph], []⟩).map QueueFlow.ends =
      [(0, 1), (0, 1), (0, 1), (0, 1)] ∧
    (∃ p ∈ producersOf subjectGraph, ∃ c ∈ consumersOf subjectGraph,
      familiesCompatible p.families c.families ∧ Bound [subjectGraph] c.topic p.topic) ∧
    queueFlows ⟨[subjectGraph], []⟩ = [] ∧
    (∃ p ∈ producersOf dialectGraph, ∃ c ∈ consumersOf dialectGraph,
      familiesCompatible p.families c.families ∧
        ∃ a ∈ armsOf c, a.2.Covers c.topic p.topic) ∧
    queueFlows ⟨[dialectGraph], []⟩ = [] := by
  decide +kernel

/-- The graphs given the other way round make the same flow, once. -/
theorem resolveQueues_pairs_swapped :
    (⟨0, 1, .strong, "exact"⟩ ∈ queueFlows ⟨[ordersGraph, subjectGraph], []⟩ ↔
      ⟨0, 1, .strong, "exact"⟩ ∈ queueFlows ⟨[subjectGraph, ordersGraph], []⟩) ∧
    ((queueFlows ⟨[ordersGraph], []⟩).map QueueFlow.ends).Nodup :=
  have same (g : RepoGraph) : SameListing g g := ⟨rfl, .refl _⟩
  ⟨(resolveQueues_pairs ⟨[ordersGraph, subjectGraph], []⟩ ⟨[subjectGraph, ordersGraph], []⟩
      ⟨[subjectGraph, ordersGraph], .swap _ _ _, .cons (same _) (.cons (same _) .nil)⟩).2.2.1 _,
    (resolveQueues_pairs ⟨[ordersGraph], []⟩ ⟨[ordersGraph], []⟩
      ⟨[ordersGraph], .refl _, .cons (same _) .nil⟩).2.2.2 (by decide +kernel) (by decide +kernel)
      (by decide +kernel)⟩

end Glia.Graph
