import Glia.Rules.Budgeted
import Glia.Rules.PlanReady

/-! A row budget never truncates an answer: an evaluation ends in the budget error, or as
it does under every larger cap. -/
namespace Glia.Rules

/-- `r` passed its budget of `low`, or `r'` ends the same: `lift` takes a result to the
larger cap. -/
def Uncut {α : Type} (low : Nat) (lift : α → α) (kept : α → Prop) (r r' : Except RulesError α) :
    Prop :=
  match r with
  | .ok a => kept a ∧ r' = .ok (lift a)
  | .error e => (∃ predicate rows, e = .budget predicate rows low) ∨ r' = .error e

section Results

variable {α β : Type} {low : Nat} {lift : α → α} {kept kept' : α → Prop}

theorem Uncut.map {r r' : Except RulesError α} {g : β → β} {keptMap : β → Prop} {f : α → β}
    (h : Uncut low lift kept r r') (commutes : ∀ a, f (lift a) = g (f a))
    (keeps : ∀ a, kept a → keptMap (f a)) : Uncut low g keptMap (r.map f) (r'.map f) := by
  cases r with
  | error e =>
    refine h.imp_right fun eq => ?_
    rw [eq]
    rfl
  | ok a =>
    refine ⟨keeps a h.1, ?_⟩
    rw [h.2, ← commutes]
    rfl

theorem Uncut.weaken {r r' : Except RulesError α} (h : Uncut low lift kept r r')
    (keeps : ∀ a, kept a → kept' a) : Uncut low lift kept' r r' := by
  cases r with
  | error e => exact h
  | ok a => exact ⟨keeps a h.1, h.2⟩

end Results

def EvalState.raise (s : EvalState) (cap : Nat) : EvalState := { s with exec := s.exec.raise cap }

structure EvalState.Whole (low : Nat) (s : EvalState) : Prop where
  cap : s.exec.budget.cap = low
  untripped : s.exec.budget.tripped = none
  within : s.exec.budget.used ≤ s.exec.budget.cap

def EvalState.Kept (s t : EvalState) : Prop := s.exec.budget.Kept t.exec.budget

theorem EvalState.Kept.whole {s t : EvalState} {low : Nat} (h : s.Kept t) (whole : s.Whole low) :
    t.Whole low :=
  ⟨h.cap.trans whole.cap, h.untripped, h.within whole.within⟩

section Eval

variable (src : FactSource) (handle : Value → Nat) (declared : Declared) (an : Analysis)
variable (tiers : List Tier)

theorem budgetError_cap (p : PredId) {b : Budget} {low : Nat} (cap : b.cap = low) :
    ∃ predicate rows, budgetError an p b = .budget predicate rows low :=
  ⟨_, _, by rw [← cap]; rfl⟩

theorem candidates_length (rule : Nat) (head : List KeyPart) (out : List Binding) :
    (candidates src rule head out).length ≤ out.length :=
  List.length_filterMap_le _ _

theorem runVariant_uncut (rule : CRule) (index : Nat) (v : Variant) (level : Tier)
    (first : Bool) {s : EvalState} {low cap : Nat} (whole : s.Whole low) (le : low ≤ cap) :
    Uncut low (fun r => (r.1.raise cap, r.2))
      (fun r => s.Kept r.1 ∧ s.exec.budget.used + r.2.length ≤ r.1.exec.budget.used)
      (runVariant src declared an tiers s rule index v (.eval level first))
      (runVariant src declared an tiers (s.raise cap) rule index v (.eval level first)) := by
  have run := counted_runBody (ctxOf src declared tiers s) v.steps (.eval level first) rfl
    { s.exec with out := [] } whole.untripped
  have ctx : ctxOf src declared tiers (s.raise cap) = ctxOf src declared tiers s := rfl
  have state : ({ (s.raise cap).exec with out := [] } : ExecState) =
      ExecState.raise { s.exec with out := [] } cap := rfl
  unfold runVariant
  rw [ctx, state]
  cases eq : runBody (ctxOf src declared tiers s) v.steps (.eval level first)
      { s.exec with out := [] } with
  | fail e =>
    simp only [eq] at run ⊢
    exact .inr (by rw [run cap (whole.cap ▸ le)])
  | stop t =>
    simp only [eq] at run ⊢
    rw [if_pos (Option.isSome_iff_ne_none.mpr run.1)]
    exact .inl (budgetError_cap an rule.head (run.2.trans whole.cap))
  | ok t a =>
    simp only [eq] at run ⊢
    obtain ⟨kept, paid, above⟩ := run
    rw [above cap (whole.cap ▸ le)]
    simp only [raise_budget, kept.untripped, Option.isSome_none, Bool.false_eq_true, if_false]
    refine ⟨⟨kept, ?_⟩, by rw [← kept.untripped]; rfl⟩
    have := candidates_length src index v.head t.out
    simp only [List.length_nil] at paid ⊢
    omega

theorem runVariants_uncut (own : List PredId) (level : Tier) (first : Bool)
    (vs : List (Nat × Variant)) {s : EvalState} {low cap : Nat}
    (whole : s.Whole low) (le : low ≤ cap) :
    Uncut low (fun r => (r.1.raise cap, r.2))
      (fun r => s.Kept r.1 ∧ s.exec.budget.used + r.2.1.length ≤ r.1.exec.budget.used)
      (runVariants src declared an tiers own level first vs s)
      (runVariants src declared an tiers own level first vs (s.raise cap)) := by
  induction vs generalizing s with
  | nil => exact ⟨⟨.refl whole.untripped, le_rfl⟩, rfl⟩
  | cons v rest ih =>
    simp only [runVariants]
    cases an.rules[v.1]? with
    | none => exact ih whole
    | some rule =>
      simp only
      by_cases skip : (!mine own rule.head || !runs an s own rule v.2.delta level first) = true
      · have skips : (!mine own rule.head || !runs an (s.raise cap) own rule v.2.delta level
            first) = true := skip
        rw [if_pos skip, if_pos skips]
        exact ih whole
      · have runs' : ¬(!mine own rule.head || !runs an (s.raise cap) own rule v.2.delta level
            first) = true := skip
        rw [if_neg skip, if_neg runs']
        have one := runVariant_uncut src declared an tiers rule v.1 v.2 level first whole le
        cases eq : runVariant src declared an tiers s rule v.1 v.2 (.eval level first) with
        | error e =>
          simp only [eq] at one ⊢
          exact one.imp_right fun eq' => by rw [eq']
        | ok r =>
          obtain ⟨t, cands⟩ := r
          simp only [eq] at one ⊢
          obtain ⟨⟨kept, paid⟩, eq'⟩ := one
          rw [eq']
          refine (ih (EvalState.Kept.whole kept whole)).map ?_ fun r after => ?_
          · exact fun _ => rfl
          refine ⟨Budget.Kept.trans kept after.1, ?_⟩
          have first' : s.exec.budget.used + cands.length ≤ t.exec.budget.used := paid
          have then' : t.exec.budget.used + r.2.1.length ≤ r.1.exec.budget.used := after.2
          simp only [List.length_append, List.length_map]
          omega

def batchInserted (s : EvalState) (level : Tier) (batch : List (PredId × Candidate)) (p : PredId) :
    Inserted :=
  ((s.rels[p]?).map fun rel =>
    (rel.insertRound level ((batch.filter fun c => c.1 = p).map Prod.snd)).2).getD ⟨0, 0⟩

def insertPred (s : EvalState) (level : Tier) (batch : List (PredId × Candidate)) (p : PredId) :
    EvalState :=
  let got := batchInserted s level batch p
  { s with
    rels := s.rels.modify p fun rel =>
      (rel.insertRound level ((batch.filter fun c => c.1 = p).map Prod.snd)).1
    atLevel := addAtLevel s.atLevel p level (got.added + got.lowered)
    exec := { s.exec with budget := s.exec.budget.charge got.added } }

theorem insertBatch_cons (level : Tier) (batch : List (PredId × Candidate)) (p : PredId)
    (rest : List PredId) (s : EvalState) :
    insertBatch an level batch (p :: rest) s =
      let got := batchInserted s level batch p
      let t := insertPred s level batch p
      if t.exec.budget.tripped.isSome then .error (budgetError an p t.exec.budget)
      else (insertBatch an level batch rest t).map fun r => (r.1, got.added + got.lowered + r.2) :=
  rfl

theorem insertBatch_uncut (level : Tier) (batch : List (PredId × Candidate)) (ps : List PredId)
    {s : EvalState} {low cap : Nat} (whole : s.Whole low) (le : low ≤ cap) :
    Uncut low (fun r => (r.1.raise cap, r.2)) (fun r => s.Kept r.1)
      (insertBatch an level batch ps s) (insertBatch an level batch ps (s.raise cap)) := by
  induction ps generalizing s with
  | nil => exact ⟨.refl whole.untripped, rfl⟩
  | cons p rest ih =>
    rw [insertBatch_cons, insertBatch_cons]
    simp only
    by_cases still : (insertPred s level batch p).exec.budget.tripped = none
    · have kept : s.Kept (insertPred s level batch p) := charge_kept whole.untripped still
      have above : insertPred (s.raise cap) level batch p = (insertPred s level batch p).raise cap := by
        have := charge_raise whole.untripped still (whole.cap ▸ le)
        simp only [insertPred, EvalState.raise, ExecState.raise] at this ⊢
        rw [← this]
        rfl
      rw [above]
      have tripped : ((insertPred s level batch p).raise cap).exec.budget.tripped = none := still
      simp only [tripped, still, Option.isSome_none, Bool.false_eq_true, if_false]
      exact (ih (kept.whole whole)).map (fun _ => rfl) fun r after => kept.trans after
    · rw [if_pos (Option.isSome_iff_ne_none.mpr still)]
      exact .inl (budgetError_cap an p whole.cap)

theorem nextBatch_length {adds waiting batch rest : List (PredId × Candidate)}
    (h : nextBatch adds waiting = some (batch, rest)) :
    rest.length < adds.length + waiting.length := by
  unfold nextBatch at h
  simp only at h
  cases eq : ((adds ++ waiting).map fun c => c.2.prov.height).min? with
  | none => simp only [eq, reduceCtorEq] at h
  | some low =>
    simp only [eq, Option.some.injEq, Prod.mk.injEq] at h
    rw [← h.2, ← List.length_append]
    obtain ⟨c, mem, height⟩ := List.mem_map.mp (List.min?_mem eq)
    refine List.length_filter_lt_length_iff_exists.mpr ⟨c, mem, ?_⟩
    simp [height]

theorem levelRounds_uncut (st : Stratum) (plan : StratumPlan) (level : Tier) {fuel fuel' : Nat}
    (more : fuel ≤ fuel') {first : Bool} {waiting : List (PredId × Candidate)} {s : EvalState}
    {low cap : Nat} (whole : s.Whole low) (le : low ≤ cap)
    (enough : 2 * (s.exec.budget.cap + 1 - s.exec.budget.used) + waiting.length < fuel) :
    Uncut low (fun t => t.raise cap) (fun t => s.Kept t)
      (levelRounds src declared an tiers st plan level fuel first waiting s)
      (levelRounds src declared an tiers st plan level fuel' first waiting (s.raise cap)) := by
  induction fuel generalizing fuel' first waiting s with
  | zero => omega
  | succ fuel ih =>
    obtain ⟨fuel', rfl⟩ : ∃ n, fuel' = n + 1 := ⟨fuel' - 1, by omega⟩
    unfold levelRounds
    have ran := runVariants_uncut src declared an tiers st.preds level first (variantsOf plan)
      whole le
    cases eq : runVariants src declared an tiers st.preds level first (variantsOf plan) s with
    | error e =>
      simp only [eq] at ran ⊢
      exact ran.imp_right fun eq' => by rw [eq']
    | ok r =>
      obtain ⟨t, adds, any⟩ := r
      simp only [eq] at ran ⊢
      obtain ⟨⟨kept, paid⟩, eq'⟩ := ran
      rw [eq']
      simp only
      cases next : (if st.recursive then nextBatch adds waiting
          else if any then some (adds, []) else none) with
      | none => exact ⟨kept, rfl⟩
      | some b =>
        obtain ⟨batch, held⟩ := b
        simp only
        have inserted := insertBatch_uncut an level batch st.preds
          (EvalState.Kept.whole kept whole) le
        cases eq'' : insertBatch an level batch st.preds t with
        | error e =>
          simp only [eq''] at inserted ⊢
          exact inserted.imp_right fun eq' => by rw [eq']
        | ok r =>
          obtain ⟨u, fresh⟩ := r
          simp only [eq''] at inserted ⊢
          obtain ⟨kept', landed⟩ := inserted
          rw [landed]
          simp only
          by_cases done : (!st.recursive || (fresh == 0 && held.isEmpty)) = true
          · rw [if_pos done, if_pos done]
            exact ⟨kept.trans kept', rfl⟩
          · rw [if_neg done, if_neg done]
            have recursive : st.recursive = true := by
              cases r : st.recursive with
              | true => rfl
              | false => simp [r] at done
            rw [if_pos recursive] at next
            have fewer := nextBatch_length next
            have both := Budget.Kept.trans kept kept'
            have whole' : u.Whole low := EvalState.Kept.whole both whole
            refine (ih (by omega) whole' ?_).weaken fun v after =>
              Budget.Kept.trans both after
            have spent : s.exec.budget.used + adds.length ≤ t.exec.budget.used := paid
            have grows : t.exec.budget.used ≤ u.exec.budget.used := kept'.grows
            have within := whole'.within
            have cap : u.exec.budget.cap = s.exec.budget.cap := both.cap
            omega

theorem ruleStratum_uncut (st : Stratum) (plan : StratumPlan) (levels : List Tier) {s : EvalState}
    {low cap : Nat} (whole : s.Whole low) (le : low ≤ cap) :
    Uncut low (fun t => t.raise cap) (fun t => s.Kept t)
      (ruleStratum src declared an tiers st plan levels s)
      (ruleStratum src declared an tiers st plan levels (s.raise cap)) := by
  induction levels generalizing s with
  | nil => exact ⟨.refl whole.untripped, rfl⟩
  | cons level rest ih =>
    unfold ruleStratum
    have fuel : roundFuel s ≤ roundFuel (s.raise cap) := by
      have := whole.cap
      simp only [roundFuel, EvalState.raise, raise_budget]
      omega
    have enough : 2 * (s.exec.budget.cap + 1 - s.exec.budget.used) +
        ([] : List (PredId × Candidate)).length < roundFuel s := by
      simp only [roundFuel, List.length_nil]
      omega
    have rounds := @levelRounds_uncut src declared an tiers st plan level _ _ fuel true [] _ _ _
      whole le enough
    cases eq : levelRounds src declared an tiers st plan level (roundFuel s) true [] s with
    | error e =>
      simp only [eq] at rounds ⊢
      exact rounds.imp_right fun eq' => by rw [eq']
    | ok t =>
      simp only [eq] at rounds ⊢
      rw [rounds.2]
      exact (ih (rounds.1.whole whole)).weaken fun u after =>
        Budget.Kept.trans rounds.1 after

def aggregateLoaded (p : PredId) (rows : List (EdbRow × Nat)) (s : EvalState) : EvalState :=
  let before := ((s.rels[p]?).map Relation.len).getD 0
  let rels := s.rels.modify p fun rel => rel.load ((an.preds[p]?.map PredInfo.arity).getD 0) rows
  { s with
    rels := rels
    atLevel := fun q l =>
      if q = p then s.atLevel q l + (rows.filter fun r => r.1.level = l).length
      else s.atLevel q l
    exec := { s.exec with
      budget := s.exec.budget.charge (((rels[p]?).map Relation.len).getD 0 - before) } }

theorem loadAggregate_eq (p : PredId) (rows : List (EdbRow × Nat)) (s : EvalState) :
    loadAggregate an p rows s =
      let t := aggregateLoaded an p rows s
      if t.exec.budget.tripped.isSome then .error (budgetError an p t.exec.budget) else .ok t :=
  rfl

theorem loadAggregate_uncut (p : PredId) (rows : List (EdbRow × Nat)) {s : EvalState}
    {low cap : Nat} (whole : s.Whole low) (le : low ≤ cap) :
    Uncut low (fun t => t.raise cap) (fun t => s.Kept t) (loadAggregate an p rows s)
      (loadAggregate an p rows (s.raise cap)) := by
  rw [loadAggregate_eq, loadAggregate_eq]
  simp only
  by_cases still : (aggregateLoaded an p rows s).exec.budget.tripped = none
  · have above : aggregateLoaded an p rows (s.raise cap) = (aggregateLoaded an p rows s).raise cap := by
      have := charge_raise whole.untripped still (whole.cap ▸ le)
      simp only [aggregateLoaded, EvalState.raise, ExecState.raise] at this ⊢
      rw [← this]
    have tripped : ((aggregateLoaded an p rows s).raise cap).exec.budget.tripped = none := still
    rw [above]
    simp only [still, tripped, Option.isSome_none, Bool.false_eq_true, if_false]
    exact ⟨charge_kept whole.untripped still, rfl⟩
  · rw [if_pos (Option.isSome_iff_ne_none.mpr still)]
    exact .inl (budgetError_cap an p whole.cap)

theorem aggregateStratum_uncut (plan : StratumPlan) {s : EvalState} {low cap : Nat}
    (whole : s.Whole low) (le : low ≤ cap) :
    Uncut low (fun t => t.raise cap) (fun t => s.Kept t)
      (aggregateStratum src handle declared an tiers plan s)
      (aggregateStratum src handle declared an tiers plan (s.raise cap)) := by
  have state : ({ (s.raise cap).exec with out := [] } : ExecState) =
      ExecState.raise { s.exec with out := [] } cap := rfl
  unfold aggregateStratum
  split
  · split
    · rename_i rp spec _ _ _ _ rule v _ _
      have run := counted_runBody (ctxOf src declared tiers s) v.steps .fold rfl
        { s.exec with out := [] } whole.untripped
      rw [show ctxOf src declared tiers (s.raise cap) = ctxOf src declared tiers s from rfl, state]
      cases eq : runBody (ctxOf src declared tiers s) v.steps .fold { s.exec with out := [] } with
      | fail e =>
        simp only [eq] at run ⊢
        exact .inr (by rw [run cap (whole.cap ▸ le)])
      | stop t =>
        simp only [eq] at run ⊢
        rw [if_pos (Option.isSome_iff_ne_none.mpr run.1)]
        exact .inl (budgetError_cap an rule.head (run.2.trans whole.cap))
      | ok t a =>
        simp only [eq] at run ⊢
        obtain ⟨kept, _, above⟩ := run
        rw [above cap (whole.cap ▸ le)]
        have untripped' : (t.raise cap).budget.tripped = none := kept.untripped
        simp only [kept.untripped, untripped', Option.isSome_none, Bool.false_eq_true, if_false,
          raise_out]
        cases aggregate handle src (projections src v.head t.out) v.head.length spec
            ((an.preds[rule.head]?.map PredInfo.signature).getD "") with
        | error e => exact .inr rfl
        | ok rows =>
          exact (loadAggregate_uncut an rule.head rows (s := { s with exec := { t with out := [] } })
            ⟨kept.cap.trans whole.cap, kept.untripped, kept.within whole.within⟩ le).weaken fun u after => kept.trans after
    · exact ⟨.refl whole.untripped, rfl⟩
  · exact ⟨.refl whole.untripped, rfl⟩

theorem materialiseScc_raise (s : EvalState) (cap : Nat) (sets : List CatSet) :
    sets.foldl (materialiseScc src tiers) (s.raise cap) =
      (sets.foldl (materialiseScc src tiers) s).raise cap := by
  induction sets generalizing s with
  | nil => rfl
  | cons set rest ih =>
    rw [List.foldl_cons, List.foldl_cons, ← ih]
    congr 1
    unfold materialiseScc
    by_cases there : (s.scc.any fun e => e.1 == set) = true
    · rw [if_pos there, if_pos (show ((s.raise cap).scc.any fun e => e.1 == set) = true from there)]
    · rw [if_neg there, if_neg (show ¬((s.raise cap).scc.any fun e => e.1 == set) = true from there)]
      rfl

theorem materialiseScc_budget (s : EvalState) (sets : List CatSet) :
    (sets.foldl (materialiseScc src tiers) s).exec.budget = s.exec.budget := by
  induction sets generalizing s with
  | nil => rfl
  | cons set rest ih =>
    rw [List.foldl_cons, ih]
    unfold materialiseScc
    split <;> rfl

variable (planner : Nat → (PredId → Option Nat) → StratumPlan)

theorem evalStratum_uncut (k : Nat) (st : Stratum) {s : EvalState} {low cap : Nat} (whole : s.Whole low) (le : low ≤ cap) :
    Uncut low (fun r => (r.1.raise cap, r.2)) (fun r => s.Kept r.1)
      (evalStratum src handle declared an tiers planner k st s)
      (evalStratum src handle declared an tiers planner k st (s.raise cap)) := by
  unfold evalStratum
  simp only [materialiseScc_raise]
  rw [show sizeOf an (s.raise cap) k = sizeOf an s k from rfl]
  generalize planner k (sizeOf an s k) = plan
  generalize eq : (plan.rules.flatMap fun rp => rp.variants.flatMap fun v =>
    sccSets declared v.steps).foldl (materialiseScc src tiers) s = t
  have budget : t.exec.budget = s.exec.budget := by rw [← eq, materialiseScc_budget]
  have whole' : t.Whole low := ⟨budget ▸ whole.cap, budget ▸ whole.untripped, budget ▸ whole.within⟩
  split
  · exact (aggregateStratum_uncut src handle declared an tiers plan
      (s := { t with exec := { t.exec with multi := fun _ => none } }) ⟨whole'.1, whole'.2, whole'.3⟩ le).map
      (fun _ => rfl) fun u after => by
        have : t.exec.budget.Kept u.exec.budget := after
        rwa [budget] at this
  · exact (ruleStratum_uncut src declared an tiers st plan Tier.all
      (s := { t with exec := { t.exec with multi := fun _ => none } }) ⟨whole'.1, whole'.2, whole'.3⟩ le).map
      (fun _ => rfl) fun u after => by
        have : t.exec.budget.Kept u.exec.budget := after
        rwa [budget] at this

theorem evalStrata_uncut (sts : List Stratum) {k : Nat} {s : EvalState} {low cap : Nat}
    (whole : s.Whole low) (le : low ≤ cap) :
    Uncut low (fun r => (r.1.raise cap, r.2)) (fun r => s.Kept r.1)
      (evalStrata src handle declared an tiers planner k sts s)
      (evalStrata src handle declared an tiers planner k sts (s.raise cap)) := by
  induction sts generalizing k s with
  | nil => exact ⟨.refl whole.untripped, rfl⟩
  | cons st rest ih =>
    unfold evalStrata
    have one := evalStratum_uncut src handle declared an tiers planner k st whole le
    cases eq : evalStratum src handle declared an tiers planner k st s with
    | error e =>
      simp only [eq] at one ⊢
      exact one.imp_right fun eq' => by rw [eq']
    | ok r =>
      obtain ⟨t, plan⟩ := r
      simp only [eq] at one ⊢
      obtain ⟨kept, eq'⟩ := one
      rw [eq']
      exact (ih (EvalState.Kept.whole kept whole)).map (fun _ => rfl)
        fun r after => Budget.Kept.trans kept after

theorem loadAll_emptyState (cap cap' : Nat) :
    loadAll src declared an (emptyState an cap') =
      (loadAll src declared an (emptyState an cap)).raise cap' ∧
    (loadAll src declared an (emptyState an cap)).exec = (emptyState an cap).exec := by
  have fold : ∀ (ps : List (PredInfo × Nat)) (s : EvalState),
      ps.foldl (loadPred src (restriction an declared.catalog)) (s.raise cap') =
        (ps.foldl (loadPred src (restriction an declared.catalog)) s).raise cap' ∧
      (ps.foldl (loadPred src (restriction an declared.catalog)) s).exec = s.exec := by
    intro ps
    induction ps with
    | nil => exact fun s => ⟨rfl, rfl⟩
    | cons p rest ih =>
      intro s
      have one : loadPred src (restriction an declared.catalog) (s.raise cap') p =
          (loadPred src (restriction an declared.catalog) s p).raise cap' ∧
          (loadPred src (restriction an declared.catalog) s p).exec = s.exec := by
        unfold loadPred
        cases p.1.kind <;> exact ⟨rfl, rfl⟩
      rw [List.foldl_cons, List.foldl_cons, one.1, (ih _).1, (ih _).2, one.2]
      exact ⟨rfl, rfl⟩
  exact fold an.preds.zipIdx (emptyState an cap)

end Eval

theorem evaluatePlanned_uncut (src : FactSource) (handle : Value → Nat) (an : Analysis)
    (planner : Nat → (PredId → Option Nat) → StratumPlan) {cap cap' : Nat} (le : cap ≤ cap') :
    (∃ predicate rows,
      evaluatePlanned src handle an planner cap = .error (.budget predicate rows cap)) ∨
      evaluatePlanned src handle an planner cap' = evaluatePlanned src handle an planner cap := by
  unfold evaluatePlanned
  split
  · exact .inr rfl
  · have loads := loadAll_emptyState src (declare src) an cap cap'
    have start : (loadAll src (declare src) an (emptyState an cap)).Whole cap := by
      refine ⟨?_, ?_, ?_⟩ <;> rw [loads.2]
      · rfl
      · rfl
      · exact Nat.zero_le _
    have strata := evalStrata_uncut src handle (declare src) an
      (if readsEdges an (declare src).catalog then edgeTiers src else []) planner an.strata
      (k := 0) start le
    simp only
    rw [loads.1]
    cases eq : evalStrata src handle (declare src) an
        (if readsEdges an (declare src).catalog then edgeTiers src else []) planner 0 an.strata
        (loadAll src (declare src) an (emptyState an cap)) with
    | error e =>
      simp only [eq] at strata ⊢
      refine strata.imp (fun ⟨p, n, eq'⟩ => ⟨p, n, by rw [eq']; rfl⟩) fun eq' => by rw [eq']
    | ok r =>
      simp only [eq] at strata ⊢
      refine .inr ?_
      rw [strata.2]
      rfl

theorem runBody_stop_tripped (ctx : Ctx) (steps : List Step) (mode : Mode)
    (count : (Vis.ofMode mode).count = true) {s t : ExecState}
    (h : runBody ctx steps mode s = .stop t) : t.budget.tripped ≠ none := by
  by_cases untripped : s.budget.tripped = none
  · have run := counted_runBody ctx steps mode count s untripped
    rw [h] at run
    exact run.1
  · unfold runBody start at h
    simp only [count, Bool.true_and, Option.isSome_iff_ne_none.mpr untripped, if_true] at h
    cases h
    exact untripped

/-- A source of two calls in a row. -/
def callSource : FactSource where
  nodeIds := [0, 1, 2]
  edges := [⟨0, 1, 1, .strong, []⟩, ⟨1, 2, 1, .strong, []⟩]
  tables := callTables
  nodeKind := fun _ => none
  nodeCells := fun _ => []
  renderNode := toString

end Glia.Rules
