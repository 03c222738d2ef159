import Glia.Rules.BodyRun
import Glia.Rules.Variants

/-! A run of a planned rule: the rows its variant with no delta derives are the heads of the
rule's clauses, whatever the plan hoists. -/
namespace Glia.Rules

open Kit

theorem parts_read {S : Setting} {ps : List KeyPart} {σ : Env} {τ : Assignment}
    (same : ∀ v, KeyPart.var v ∈ ps → σ v = some (τ v)) :
    parts S.src.tables σ ps = some (S.headRow ps τ) := by
  induction ps with
  | nil => rfl
  | cons p rest ih =>
    have later := ih fun v mem => same v (List.mem_cons_of_mem _ mem)
    have here : resolvePart S.src.tables σ p = resolvePart S.src.tables (fun v => some (τ v)) p := by
      cases p with
      | const c => rfl
      | var v => exact same v List.mem_cons_self
    unfold parts
    rw [later, here]
    cases p with
    | const c => rfl
    | var v => rfl

theorem headParts_reads {rule : CRule} {v : Nat} (mem : KeyPart.var v ∈ headParts rule) :
    rule.HeadReads v := by
  obtain ⟨t, inHead, eq⟩ := List.mem_filterMap.mp mem
  cases t with
  | var w =>
    cases eq
    exact .inl inHead
  | const c => cases eq
  | wild => cases eq

theorem parts_head {S : Setting} {rule : CRule} {σ : Env} {τ : Assignment}
    (head : ∀ x, rule.HeadReads x → σ x = some (τ x)) :
    parts S.src.tables σ (headParts rule) = some (S.headRow (headParts rule) τ) :=
  parts_read fun v mem => head v (headParts_reads mem)

namespace Setting

section Gives

/-- The literal stands alone, or where its composite does. -/
def Lone (fold : Option Fold) (i : Nat) : Prop := ∀ f, fold = some f → i ∈ f.members → i = f.last

variable {level t : Tier} {first recent : Bool}

theorem sees_all (low : t ≤ level) :
    ((Vis.ofMode (.eval level first)).view .all).sees t recent = true := by
  cases first <;> cases level <;> cases t <;> first | rfl | exact absurd low (by decide)

variable {S : Setting} {s : EvalState} {own : List PredId} {rule : CRule} {fold : Option Fold}
variable {variants : List Variant} {τ : Assignment} {fs : Nat → Ground} {heights : Nat → Nat}

variable (S s rule) in
def Gives (vis : Vis) (b : Tier) (v : Variant) (τ : Assignment) : Prop :=
  ∀ heights, S.Ok s heights vis v.steps → ∃ σ, S.LeadsBelow s heights vis v.steps b σ ∧
    ∀ x, rule.HeadReads x → σ x = some (τ x)

variable (S s rule) in
/-- The facts a plan reads for a clause, with a composite's at the place of its `reaches`. -/
structure Units (fold : Option Fold) (τ : Assignment) (fs : Nat → Ground) (tier : Nat → Tier)
    (batch : Nat → Bool) : Prop where
  alone : ∀ i ∈ positives rule.body, (∀ f, fold = some f → i ∉ f.members) →
    S.FactIn s (fs i) (tier i) (batch i)
  last : ∀ f, fold = some f → batch f.last = false ∧ ∃ y, τ f.bind = .node y ∧
    IsLeast {b | S.Binds s rule f.members f.bind b y} (tier f.last)

theorem binds_isUpperSet (members : List Nat) (bind : Nat) (y : NodeId) :
    IsUpperSet {b | S.Binds s rule members bind b y} := by
  rintro b b' le ⟨σ, ⟨grows, holds⟩, value⟩
  exact ⟨σ, ⟨grows, holds.mono le⟩, value⟩

variable (sane : S.Sane s) (sets : S.SetsKept s rule.body) (fit : S.Fit rule)
variable (sat : S.Satisfies (S.shown s) rule τ fs)

include sane sets sat in
/-- What a clause reads stands at its premises' level. -/
theorem exists_units (planned : S.Planned s own rule fold variants)
    (held : ∀ i ∈ positives rule.body, (S.shown s).At level (fs i)) :
    ∃ tier batch, S.Units s rule fold τ fs tier batch ∧
      ∀ i ∈ positives rule.body, Lone fold i → tier i ≤ level := by
  have pick (i : Nat) : ∃ t recent, i ∈ positives rule.body → t ≤ level ∧ S.FactIn s (fs i) t recent := by
    by_cases mem : i ∈ positives rule.body
    · obtain ⟨t, low, recent, fact⟩ := held i mem
      exact ⟨t, recent, fun _ => ⟨low, fact⟩⟩
    · exact ⟨.fact, false, fun there => absurd there mem⟩
  choose tier batch spec using pick
  cases eq : fold with
  | none =>
    refine ⟨tier, batch, ⟨fun i mem _ => (spec i mem).2, fun f none' => by cases none'⟩, ?_⟩
    exact fun i mem _ => (spec i mem).1
  | some f =>
    subst eq
    obtain ⟨v, mem, _⟩ := planned.base
    obtain ⟨_, _, _, _, behind, _⟩ := (planned.laid v mem).2
    obtain ⟨y, binds, value⟩ := fold_binds sane sets behind sat fun i _ pos => held i pos
    obtain ⟨t, low, least⟩ := (isLeast_below (binds_isUpperSet f.members f.bind y) level).mpr binds
    have inFold := (planned.last f rfl).2.1
    refine ⟨Function.update tier f.last t, Function.update batch f.last false,
      ⟨fun i pos apart => ?_, fun g same => ?_⟩, fun i pos lone => ?_⟩
    · have ne : i ≠ f.last := fun eq => apart f rfl (eq ▸ inFold)
      rw [Function.update_of_ne ne, Function.update_of_ne ne]
      exact (spec i pos).2
    · cases same
      simp only [Function.update_self, true_and]
      exact ⟨y, value, least⟩
    · by_cases eq : i = f.last
      · rw [eq, Function.update_self]
        exact low
      · rw [Function.update_of_ne eq]
        exact (spec i pos).1

include sane sets fit sat in
theorem variant_gives {vis : Vis} {v : Variant} {b : Tier} (free : vis.maxHeight = none)
    (counts : vis.count = true) (planned : S.Planned s own rule fold variants) (mem : v ∈ variants)
    {tier : Nat → Tier} {batch : Nat → Bool} (units : S.Units s rule fold τ fs tier batch)
    (seen : ∀ i ∈ positives rule.body, Lone fold i →
      tier i ≤ b ∧ (vis.view (srcOf v.delta i)).sees (tier i) (batch i) = true) :
    S.Gives s rule vis b v τ := by
  intro heights ok
  have laid := (planned.laid v mem).2
  cases eq : fold with
  | none =>
    subst eq
    refine plain_gives sane sets fit free laid ok sat fun i pos => ?_
    have alone (f : Fold) (none' : none = some f) : i ∉ f.members := by cases none'
    obtain ⟨low, sees⟩ := seen i pos fun f none' => by cases none'
    exact ⟨tier i, low, batch i, units.alone i pos alone, sees⟩
  | some f =>
    subst eq
    obtain ⟨stable, y, value, least⟩ := units.last f rfl
    obtain ⟨_, inFold, p, terms, c, here, _⟩ := planned.last f rfl
    obtain ⟨low, sees⟩ := seen f.last (mem_positives.mpr ⟨p, terms, here⟩)
      fun g same _ => by cases same; rfl
    have parts := laid
    obtain ⟨_, _, _, _, behind, steps⟩ := parts
    have okSeed := ok
    rw [steps] at okSeed
    simp only [RunsOk, Hoist.step, StepOk, counts] at okSeed
    rw [stable, ← admits_iff] at sees
    refine behind_gives sane sets fit free counts laid ok sat (behind.row_of_least okSeed.1 least)
      value low sees fun i pos apart => ?_
    have alone (g : Fold) (same : some f = some g) : i ∉ g.members := by
      cases same
      exact apart
    obtain ⟨low, sees⟩ := seen i pos fun g same inG => absurd inG (alone g same)
    exact ⟨tier i, low, batch i, units.alone i pos alone, sees⟩

include sane sets fit sat in
theorem base_gives {vis : Vis} {b : Tier} (free : vis.maxHeight = none) (counts : vis.count = true)
    (all : ∀ t recent, t ≤ b → (vis.view .all).sees t recent = true)
    (planned : S.Planned s own rule fold variants) {v : Variant} (mem : v ∈ variants)
    (base : v.delta = none) (held : ∀ i ∈ positives rule.body, (S.shown s).At b (fs i)) :
    S.Gives s rule vis b v τ := by
  obtain ⟨tier, batch, units, low⟩ := exists_units sane sets sat planned held
  refine variant_gives sane sets fit sat free counts planned mem units fun i pos lone => ?_
  rw [base]
  exact ⟨low i pos lone, all _ _ (low i pos lone)⟩

end Gives

section Run

variable {S : Setting} {s s' : EvalState} {hs : List Hoist} {rule : CRule} {level : Tier} {first : Bool}

variable (S) in
def LeadsRow (s : EvalState) (heights : Nat → Nat) (vis : Vis) (v : Variant) (row : Row) : Prop :=
  ∃ σ, S.LeadsBelow s heights vis v.steps ⊤ σ ∧ parts S.src.tables σ v.head = some row

theorem runBody_leads (coherent : Coherent (S.ctx s) hs (fun _ => none) s.exec) (nested : Nested hs)
    {v : Variant} (sub : ∀ h ∈ hoists v.steps, h ∈ hs) {mode : Mode}
    (count : (Vis.ofMode mode).count = true) (empty : bindBound mode.bound = emptyEnv) {e : ExecState}
    (run : runBody (S.ctx s) v.steps mode { s.exec with out := [] } = .ok e ()) :
    Coherent (S.ctx s) hs (fun _ => none) e ∧ ∃ heights, S.Ok s heights (Vis.ofMode mode) v.steps ∧
      ∀ b, b ∈ e.out ↔
        Runs (S.ctx s) heights (Vis.ofMode mode) 0 (Binding.start emptyEnv) v.steps b := by
  have start : Coherent (S.ctx s) hs (fun _ => none) { s.exec with out := [] } :=
    ⟨coherent.untripped, coherent.closure, coherent.memo, coherent.multi, coherent.seeds,
      coherent.all⟩
  obtain ⟨emits, tells⟩ := @runBody_emits (S.ctx s) hs (fun _ => none) rfl nested v.steps
    mode (.inr count) sub
  obtain ⟨coherent', _, new, out, mem⟩ := emits _ _ _ start run
  have ok := tells _ _ _ start run (keptHeights e.multi) (agrees_kept e.multi)
  have bindings := mem (keptHeights e.multi) (agrees_kept e.multi)
  rw [empty] at ok bindings
  refine ⟨coherent', keptHeights e.multi, ok, fun b => ?_⟩
  rw [out, List.nil_append, bindings]

theorem runVariant_leads (coherent : Coherent (S.ctx s) hs (fun _ => none) s.exec)
    (nested : Nested hs) {v : Variant} (sub : ∀ h ∈ hoists v.steps, h ∈ hs) {index : Nat}
    {cands : List Candidate}
    (run : runVariant S.src S.declared S.an (edgeTiers S.src) s rule index v (.eval level first) =
      .ok (s', cands)) :
    (∃ e, s' = { s with exec := e } ∧ Coherent (S.ctx s) hs (fun _ => none) e) ∧
      ∃ heights, S.Ok s heights (Vis.ofMode (.eval level first)) v.steps ∧
        ∀ row, (∃ c ∈ cands, c.row = row) ↔
          S.LeadsRow s heights (Vis.ofMode (.eval level first)) v row := by
  unfold runVariant at run
  cases eq : runBody (S.ctx s) v.steps (.eval level first) { s.exec with out := [] } with
  | fail e =>
    rw [show ctxOf S.src S.declared (edgeTiers S.src) s = S.ctx s from rfl, eq] at run
    cases run
  | stop e =>
    rw [show ctxOf S.src S.declared (edgeTiers S.src) s = S.ctx s from rfl, eq] at run
    have tripped := runBody_stop_tripped (S.ctx s) v.steps (.eval level first) rfl eq
    simp [Option.isSome_iff_ne_none, tripped] at run
  | ok e a =>
    rw [show ctxOf S.src S.declared (edgeTiers S.src) s = S.ctx s from rfl, eq] at run
    obtain ⟨after, heights, ok, bindings⟩ := runBody_leads coherent nested sub rfl rfl eq
    simp only [after.untripped, Option.isSome_none, Bool.false_eq_true, if_false, Except.ok.injEq,
      Prod.mk.injEq] at run
    obtain ⟨rfl, rfl⟩ := run
    refine ⟨⟨_, rfl, ⟨after.untripped, after.closure, after.memo, after.multi, after.seeds,
      after.all⟩⟩, heights, ok, fun row => ?_⟩
    unfold candidates
    constructor
    · rintro ⟨c, mem, rfl⟩
      obtain ⟨b, inOut, made⟩ := List.mem_filterMap.mp mem
      obtain ⟨row, eq, rfl⟩ := Option.map_eq_some_iff.mp made
      exact ⟨b.vars, ⟨b.level, le_top, b.height, b, (bindings b).mp inOut, rfl, rfl, rfl⟩, eq⟩
    · rintro ⟨σ, ⟨l, _, n, b, runs, rfl, _, _⟩, eq⟩
      exact ⟨_, List.mem_filterMap.mpr ⟨b, (bindings b).mpr runs, by rw [eq]; rfl⟩, rfl⟩

end Run

theorem fit_of_analyse {S : Setting} {program : Program} (ok : analyse program S.catalog = .ok S.an)
    {rule : CRule} (mem : rule ∈ S.an.rules) : S.Fit rule := by
  have cat : S.catalog = Catalog.declare S.src.tables S.src.attributes
      (S.src.builtins.map DomainBuiltin.decl) := declare_catalog S.src
  refine ⟨analyseWith_safeRule ok mem, fun lit inBody => ?_⟩
  rw [cat] at ok ⊢
  exact analyse_shaped ok mem inBody

theorem Planned.run_leads {S : Setting} {s s' : EvalState} {own : List PredId} {rule : CRule}
    {fold : Option Fold} {variants : List Variant} (planned : S.Planned s own rule fold variants)
    {lo hi : Nat} (slotted : Slotted own lo hi (foldHoists fold)) {v : Variant} (mem : v ∈ variants)
    (coherent : Coherent (S.ctx s) (hoists v.steps) (fun _ => none) s.exec) {index : Nat}
    {level : Tier} {first : Bool} {cands : List Candidate}
    (run : runVariant S.src S.declared S.an (edgeTiers S.src) s rule index v (.eval level first) =
      .ok (s', cands)) :
    ∃ heights, S.Ok s heights (Vis.ofMode (.eval level first)) v.steps ∧
      ∀ row, (∃ c ∈ cands, c.row = row) ↔
        S.LeadsRow s heights (Vis.ofMode (.eval level first)) v row := by
  have nested : Nested (hoists v.steps) := laid_hoists (planned.laid v mem).2 ▸ slotted.nested
  exact (runVariant_leads coherent nested (fun h mem => mem) run).2

/-- A run of a planned rule derives the heads of its clauses whose premises the state holds at
the level and nothing else; a variant that reads a delta derives no other row. -/
theorem planned_rule_exact (S : Setting) (program : Program)
    (ok : analyse program S.catalog = .ok S.an) (rule : CRule) (mem : rule ∈ S.an.rules)
    (own : List PredId) (idb : ∀ p ∈ own, kindOf S.preds p = some .idb)
    (negs : ∀ p terms, CLit.neg p terms ∈ rule.body → p ∉ own) (size : PredId → Option Nat)
    (slots : Nat) (s : EvalState) (sane : S.Sane s) (sets : S.SetsKept s rule.body) (v : Variant)
    (inPlan : v ∈ (rulePlan S.preds S.catalog own rule size slots).1.variants)
    (coherent : Coherent (S.ctx s) (hoists v.steps) (fun _ => none) s.exec) (level : Tier)
    (first : Bool) (s' : EvalState) (cands : List Candidate)
    (run : runVariant S.src S.declared S.an (edgeTiers S.src) s rule rule.index v
      (.eval level first) = .ok (s', cands)) :
    (∀ c ∈ cands, ∃ τ fs, S.Satisfies (S.shown s) rule τ fs ∧
      c.row = S.headRow (headParts rule) τ ∧
      ∀ i ∈ positives rule.body, (S.shown s).At level (fs i)) ∧
    (v.delta = none → ∀ τ fs, S.Satisfies (S.shown s) rule τ fs →
      (∀ i ∈ positives rule.body, (S.shown s).At level (fs i)) →
        ∃ c ∈ cands, c.row = S.headRow (headParts rule) τ) := by
  have fit : S.Fit rule := fit_of_analyse ok mem
  obtain ⟨fold, planned, slotted, _⟩ := rulePlan_planned sane fit idb negs size slots
  obtain ⟨head, laid⟩ := planned.laid v inPlan
  obtain ⟨heights, ran, rows⟩ := planned.run_leads slotted inPlan coherent run
  constructor
  · intro c inCands
    obtain ⟨σ, leads, row⟩ := (rows c.row).mp ⟨c, inCands, rfl⟩
    obtain ⟨τ, fs, sat, held, reads⟩ := laid_sound sane sets fit rfl rfl laid ran leads
    refine ⟨τ, fs, sat, ?_, fun i pos => ?_⟩
    · rw [head, parts_head reads, Option.some.injEq] at row
      exact row.symm
    · obtain ⟨t, low, shown⟩ := held i pos
      exact ⟨t, low.trans (min_le_right _ _), shown⟩
  · intro base τ fs sat held
    obtain ⟨σ, ⟨l, _, n, leads⟩, reads⟩ := base_gives sane sets fit sat
      (show (Vis.ofMode (.eval level first)).maxHeight = none from rfl) rfl (fun t recent low => sees_all low)
      planned inPlan base held heights ran
    exact (rows _).mpr ⟨σ, ⟨l, le_top, n, leads⟩, by rw [head]; exact parts_head reads⟩

def farSetting : Setting := ⟨callSource, stringRows, farAnalysis⟩

theorem sane_of_rows {S : Setting} {s : EvalState} (lent : Lent (S.ctx s) S.preds S.rowsOf)
    (scc : s.scc = []) (once : ∀ rel ∈ s.rels, (rel.rows.map Entry.row).Nodup ∧ rel.copies = [])
    (counted : ∀ p < s.rels.length, ∀ rel ∈ s.rels[p]?, ∀ e ∈ rel.rows, s.atLevel p e.home ≠ 0) :
    S.Sane s where
  lent := lent
  tidy p rel held := by
    obtain ⟨rows, none'⟩ := once rel (List.mem_of_getElem? held)
    refine ⟨rows, fun c mem => ?_⟩
    rw [none'] at mem
    cases mem
  scc e mem := by
    rw [scc] at mem
    cases mem
  counted p rel held := counted p (List.getElem?_eq_some_iff.mp held).1 rel held

theorem farSetting_sane : farSetting.Sane farState :=
  sane_of_rows farCtx_lent (by decide +kernel) (by decide +kernel) (by decide +kernel)

theorem farRule_sets : farSetting.SetsKept farState farRule.body := by
  have kinds : ∀ lit ∈ farRule.body, ∀ p terms, lit = .pos p terms ∨ lit = .neg p terms →
      p = 1 ∨ p = 2 := by
    intro lit mem p terms is
    simp only [farRule, List.mem_cons, List.not_mem_nil, or_false] at mem
    rcases mem with rfl | rfl <;> rcases is with is | is <;> cases is
    · exact .inl rfl
    · exact .inr rfl
  intro i p terms here b set kind noReach
  have known : p = 1 ∨ p = 2 := by
    rcases here with here | here
    · exact kinds _ (List.mem_of_getElem? here) p terms (.inl rfl)
    · exact kinds _ (List.mem_of_getElem? here) p terms (.inr rfl)
  rcases known with rfl | rfl
  · cases kind
  · cases kind
    exact absurd noReach (by decide +kernel)

abbrev farVariants : List Variant :=
  (rulePlan farAnalysis.preds farSetting.catalog [0] farRule (fun _ => none) 0).1.variants

/-- The plan hoists the closure, and a run of it derives the heads of the calls' rule. -/
theorem farRule_derives : ∃ v ∈ farVariants, v.delta = none ∧ hoists v.steps ≠ [] ∧ ∃ s' cands,
    runVariant callSource (declare callSource) farAnalysis (edgeTiers callSource) farState farRule 0 v
      (.eval .derived true) = .ok (s', cands) ∧
    ∀ row, (∃ c ∈ cands, c.row = row) ↔
      ∃ τ fs, farSetting.Satisfies (farSetting.shown farState) farRule τ fs ∧
        row = farSetting.headRow (headParts farRule) τ ∧
        ∀ i ∈ positives farRule.body, (farSetting.shown farState).At .derived (fs i) := by
  cases plan : farVariants.head? with
  | none =>
    have some' : farVariants.head?.isSome = true := by decide +kernel
    rw [plan] at some'
    cases some'
  | some v =>
    have facts : farVariants.head?.map (fun v => (v.delta, (hoists v.steps).isEmpty,
        (runVariant callSource (declare callSource) farAnalysis (edgeTiers callSource) farState farRule 0 v
          (.eval .derived true)).isOk)) = some (none, false, true) := by decide +kernel
    rw [plan, Option.map_some, Option.some.injEq, Prod.mk.injEq, Prod.mk.injEq] at facts
    obtain ⟨base, hoisted, fine⟩ := facts
    have inPlan : v ∈ farVariants := List.mem_of_mem_head? plan
    cases run : runVariant callSource (declare callSource) farAnalysis (edgeTiers callSource) farState
        farRule 0 v (.eval .derived true) with
    | error e =>
      rw [run] at fine
      cases fine
    | ok r =>
      obtain ⟨s', cands⟩ := r
      obtain ⟨sound, complete⟩ := planned_rule_exact farSetting farProgram (by decide +kernel) farRule
        List.mem_cons_self [0] (by decide +kernel) (by simp [farRule]) (fun _ => none) 0 farState
        farSetting_sane farRule_sets v inPlan (coherent_fresh _ _ rfl rfl rfl rfl) .derived true s' cands run
      refine ⟨v, inPlan, base, fun no => ?_, s', cands, run, fun row => ⟨?_, ?_⟩⟩
      · rw [no] at hoisted
        cases hoisted
      · rintro ⟨c, mem, rfl⟩
        exact sound c mem
      · rintro ⟨τ, fs, sat, rfl, held⟩
        exact complete base τ fs sat held

end Setting

end Glia.Rules
