import Glia.Rules.BodyJoin

/-! The join of a hoisted plan: where the planner folds the literals so far into a composite,
the bindings found so far become its seeds and one binding of the reached end stands for
them. -/
namespace Glia.Rules

/-- The bindings the literals joined so far lead to, under each visibility. -/
abbrev Found := Vis → Env → Tier → Nat → Prop

section Found

variable (ctx : Ctx) (catalog : Catalog) (preds : List PredInfo)
variable (rowsOf : Nat → Row → Tier → Prop) (heights : Nat → Nat)

/-- Before the first literal: nothing bound. -/
def Found.start : Found := fun _ σ level height => σ = emptyEnv ∧ level = .fact ∧ height = 0

def Found.join (found : Found) (lit : CLit) (src : Src) : Found := fun vis σ' level height =>
  ∃ σ l h t n, found vis σ l h ∧ Grows σ lit.terms σ' ∧
    LitHolds ctx catalog preds rowsOf vis src σ' lit t n ∧ level = l.weakest t ∧ height = max h n

/-- The composite of a hoisted reach over the bindings found so far, read over complete
input: each reached node once, at its best level and at the composite's height. -/
def Found.hoist (found : Found) (slot : Nat) (cats : CatSet) (depth : Option Nat) (seedVar : Nat)
    (backward : Bool) (bind : Nat) (src : Src) : Found := fun vis σ level height =>
  ∃ y, σ = Function.update emptyEnv bind (some (.node y)) ∧ height = heights slot ∧
    vis.admits src level = true ∧ MultiRow ctx cats depth seedVar backward
      (fun b => found (Vis.complete vis.count) b.vars b.level b.height) y level

def litJoin (rule : CRule) (src : Nat → Src) (hoist : Bool) (i : Nat) (rest : List Nat)
    (s : PlanState) (found : Found) : Found :=
  match rule.body[i]? with
  | none => found
  | some lit =>
    let multi :=
      if hoist && s.complete then
        hoistStep preds catalog rule.nvars lit s.bound (liveAfter rule rest) s.steps s.slots
      else none
    match multi with
    | some (.reachMulti slot cats depth _ seedVar backward bind src) =>
      found.hoist ctx heights slot cats depth seedVar backward bind src
    | _ => found.join ctx catalog preds rowsOf lit (src i)

def planJoin (own : List PredId) (rule : CRule) (src : Nat → Src) (hoist : Bool) :
    Nat → List Nat → PlanState → Found → Found
  | _, [], _, found => found
  | k, i :: rest, s, found =>
    planJoin own rule src hoist (k + 1) rest (planLit preds catalog own rule src hoist k i rest s)
      (litJoin ctx catalog preds rowsOf heights rule src hoist i rest s found)

variable {ctx catalog preds rowsOf heights} {vis : Vis}

theorem runsOk_append (k : Nat) (b : Binding) (steps more : List Step)
    (ok : RunsOk ctx heights vis k b (steps ++ more)) :
    RunsOk ctx heights vis k b steps ∧ ∀ b', Runs ctx heights vis k b steps b' →
      RunsOk ctx heights vis (k + steps.length) b' more := by
  induction steps generalizing k b with
  | nil =>
    refine ⟨by simp [RunsOk], ?_⟩
    rintro _ rfl
    exact ok
  | cons step rest ih =>
    simp only [List.cons_append, RunsOk] at ok ⊢
    refine ⟨⟨ok.1, fun a isAlt => (ih _ _ (ok.2 a isAlt)).1⟩, ?_⟩
    rintro b' ⟨a, isAlt, runs⟩
    have := (ih _ _ (ok.2 a isAlt)).2 b' runs
    rwa [List.length_cons, ← Nat.add_assoc, Nat.add_right_comm]

theorem leads_snoc (k : Nat) (b : Binding) (steps : List Step) (step : Step) (σ' : Env)
    (level : Tier) (height : Nat) :
    Leads ctx heights vis k b (steps ++ [step]) σ' level height ↔
      ∃ mid t n, Runs ctx heights vis k b steps mid ∧
        Takes ctx heights vis mid.vars step σ' t n ∧ level = mid.level.weakest t ∧
        height = max mid.height n := by
  unfold Leads Takes
  simp only [runs_append, Runs]
  constructor
  · rintro ⟨_, ⟨mid, runs, a, isAlt, rfl⟩, rfl, rfl, rfl⟩
    exact ⟨mid, _, _, runs, ⟨a, isAlt, rfl, rfl, rfl⟩, rfl, rfl⟩
  · rintro ⟨mid, _, _, runs, ⟨a, isAlt, rfl, rfl, rfl⟩, rfl, rfl⟩
    exact ⟨_, ⟨mid, runs, a, isAlt, rfl⟩, rfl, rfl, rfl⟩

theorem multiRow_congr {cats : CatSet} {depth : Option Nat} {seedVar : Nat} {backward : Bool}
    {P Q : Binding → Prop}
    (same : ∀ σ level, (∃ b, P b ∧ b.vars = σ ∧ b.level = level) ↔
      ∃ b, Q b ∧ b.vars = σ ∧ b.level = level) (y : NodeId) (t : Tier) :
    MultiRow ctx cats depth seedVar backward P y t ↔
      MultiRow ctx cats depth seedVar backward Q y t := by
  have joins : ∀ level, SeedJoins ctx cats depth seedVar backward P level y ↔
      SeedJoins ctx cats depth seedVar backward Q level y := by
    intro level
    constructor
    · rintro ⟨b, s, there, bound, le, reach⟩
      obtain ⟨b', there', vars, lvl⟩ := (same _ _).mp ⟨b, there, rfl, rfl⟩
      exact ⟨b', s, there', vars ▸ bound, lvl ▸ le, reach⟩
    · rintro ⟨b, s, there, bound, le, reach⟩
      obtain ⟨b', there', vars, lvl⟩ := (same _ _).mpr ⟨b, there, rfl, rfl⟩
      exact ⟨b', s, there', vars ▸ bound, lvl ▸ le, reach⟩
  unfold MultiRow
  simp only [joins]

theorem reachConst_of_shaped {lit : CLit} (shaped : Shaped catalog preds lit) :
    ReachConst catalog preds lit := by
  cases lit with
  | pos p terms =>
    exact fun b kind isReach =>
      ((shaped p terms (.inl rfl)).2 b kind (closureSet_reaches isReach terms)).2
  | neg p terms => trivial
  | cmp op l r => trivial

theorem hoistStep_bind {nvars : Nat} {lit : CLit} {bound live : Bound} {steps seed : List Step}
    {slot slot' seedVar bind : Nat} {cats : CatSet} {hops : Option Nat} {backward : Bool}
    {src : Src} (h : hoistStep preds catalog nvars lit bound live steps slot =
      some (.reachMulti slot' cats hops seed seedVar backward bind src)) :
    Mentions lit.terms bind := by
  unfold hoistStep at h
  split at h
  · rename_i p terms
    split at h
    · split at h
      · cases h
      · split at h
        · rename_i x y hx hy
          split at h
          · cases h
          · cases h
            show CTerm.var _ ∈ terms
            split
            · exact List.mem_of_getElem? hx
            · exact List.mem_of_getElem? hy
        · cases h
    · cases h
  · cases h
  · cases h

structure FoundInv (ctx : Ctx) (heights : Nat → Nat) (rule : CRule) (rest : List Nat)
    (s : PlanState) (found : Found) : Prop where
  leads : ∀ vis, vis.count = true →
    RunsOk ctx heights vis 0 (Binding.start emptyEnv) s.steps → ∀ σ level height,
    Leads ctx heights vis 0 (Binding.start emptyEnv) s.steps σ level height ↔
      found vis σ level height
  agree : ∀ vis σ level height, found vis σ level height → ∀ v, liveAfter rule rest v = true →
    (s.bound v = true ↔ (σ v).isSome = true)

theorem foundInv_start (rule : CRule) (order : List Nat) (slots : Nat) :
    FoundInv ctx heights rule order ⟨fun _ => false, [], none, true, slots⟩ Found.start where
  leads vis _ _ σ level height := by
    rw [leads_nil]
    rfl
  agree := by
    rintro vis _ _ _ ⟨rfl, rfl, rfl⟩ v _
    simp [emptyEnv]

theorem litStep_some {bound : Bound} {lit : CLit} {src : Src}
    (ready : LitReady catalog preds bound lit) :
    ∃ step, litStep preds catalog lit bound src = some step := by
  cases lit with
  | pos p terms =>
    unfold litStep
    simp only
    split <;> exact ⟨_, rfl⟩
  | neg p terms =>
    unfold litStep
    simp only
    split
    · split <;> exact ⟨_, rfl⟩
    · exact ⟨_, rfl⟩
  | cmp op l r =>
    rcases comparison_cases ready with ⟨_, _, _, _, _, _, step⟩ | ⟨_, _, _, _, _, _, _, step⟩ |
      ⟨_, _, _, _, _, _, _, step⟩ <;> exact ⟨_, step⟩

section Plan

variable {own : List PredId} {rule : CRule} {src : Nat → Src} {rest : List Nat} {i : Nat}
variable {lit : CLit} {s : PlanState} {found : Found}

theorem foundInv_join (lent : Lent ctx preds rowsOf) (hi : rule.body[i]? = some lit)
    (shaped : Shaped catalog preds lit) (ready : LitReady catalog preds s.bound lit)
    (inv : FoundInv ctx heights rule (i :: rest) s found) (folded : Option Nat) (complete : Bool) :
    FoundInv ctx heights rule rest
      { s with
        bound := boundAfter lit s.bound
        steps := s.steps ++ (litStep preds catalog lit s.bound (src i)).toList
        folded := folded
        complete := complete }
      (found.join ctx catalog preds rowsOf lit (src i)) := by
  have agree : ∀ vis σ level height, found vis σ level height → ∀ v, Mentions lit.terms v →
      (s.bound v = true ↔ (σ v).isSome = true) := fun vis σ level height there v mem =>
    inv.agree vis σ level height there v ((liveAfter_cons hi rest v).mpr (.inl mem))
  constructor
  · intro vis count ok σ level height
    dsimp only at ok ⊢
    obtain ⟨step, hstep⟩ : ∃ step, litStep preds catalog lit s.bound (src i) = some step :=
      litStep_some ready
    rw [hstep, Option.toList_some] at ok ⊢
    obtain ⟨ok, after⟩ := runsOk_append 0 _ s.steps [step] ok
    have leads := inv.leads vis count ok
    have reached : ∀ mid, Runs ctx heights vis 0 (Binding.start emptyEnv) s.steps mid →
        found vis mid.vars mid.level mid.height := fun mid runs =>
      (leads _ _ _).mp ⟨mid, runs, rfl, rfl, rfl⟩
    have takes : ∀ mid, Runs ctx heights vis 0 (Binding.start emptyEnv) s.steps mid →
        ∀ σ' t n, Takes ctx heights vis mid.vars step σ' t n ↔ Grows mid.vars lit.terms σ' ∧
          LitHolds ctx catalog preds rowsOf vis (src i) σ' lit t n := by
      intro mid runs
      obtain ⟨step', eq, takes⟩ := @litStep_takes ctx catalog preds rowsOf heights vis mid.vars
        s.bound lit (src i) lent shaped ready (agree vis _ _ _ (reached mid runs))
      rw [hstep, Option.some.injEq] at eq
      subst eq
      have stepOk := after mid runs
      simp only [RunsOk] at stepOk
      exact takes stepOk.1
    rw [leads_snoc]
    constructor
    · rintro ⟨mid, t, n, runs, took, rfl, rfl⟩
      obtain ⟨grows, holds⟩ := (takes mid runs _ _ _).mp took
      exact ⟨_, _, _, t, n, reached mid runs, grows, holds, rfl, rfl⟩
    · rintro ⟨σ₀, l, h, t, n, there, grows, holds, rfl, rfl⟩
      obtain ⟨mid, runs, rfl, rfl, rfl⟩ := (leads _ _ _).mpr there
      exact ⟨mid, t, n, runs, (takes mid runs _ _ _).mpr ⟨grows, holds⟩, rfl, rfl⟩
  · rintro vis σ' _ _ ⟨σ, l, h, t, n, there, grows, _, rfl, rfl⟩ v live
    show boundAfter lit s.bound v = true ↔ _
    rw [boundAfter_eq ready, bindLiteral_iff ready]
    by_cases mem : Mentions lit.terms v
    · simp [mem, grows.binds v mem]
    · rw [grows.rest v mem]
      simp only [mem, or_false]
      exact inv.agree vis σ l h there v ((liveAfter_cons hi rest v).mpr (.inr live))

/-- Planning one literal as the composite of what was planned so far hoists what was found
so far. -/
theorem foundInv_hoist (safe : SafeRule catalog preds rule) (hi : rule.body[i]? = some lit)
    (shaped : Shaped catalog preds lit) (ready : LitReady catalog preds s.bound lit)
    (inv : FoundInv ctx heights rule (i :: rest) s found) {slot seedVar bind : Nat} {cats : CatSet}
    {hops : Option Nat} {seed : List Step} {backward : Bool} {src' : Src}
    (h : hoistStep preds catalog rule.nvars lit s.bound (liveAfter rule rest) s.steps s.slots =
      some (.reachMulti slot cats hops seed seedVar backward bind src'))
    (folded : Option Nat) (slots : Nat) :
    FoundInv ctx heights rule rest
      { bound := markAll s.bound lit.terms
        steps := [.reachMulti slot cats hops seed seedVar backward bind src']
        folded := folded
        complete := s.complete
        slots := slots }
      (found.hoist ctx heights slot cats hops seedVar backward bind src') := by
  have mentioned := hoistStep_bind h
  obtain ⟨p, terms, b, cats', hops', seedVar', backward', bind', rfl, kind, isReach, eq, seeded,
    mem, ends, dead⟩ := hoistStep_eq_some h
  cases eq
  have dead' : ∀ v, liveAfter rule rest v = true → s.bound v = false := fun v hv =>
    boundLive_eq_false dead (liveAfter_lt safe rest hv) hv
  constructor
  · intro vis count ok σ level height
    dsimp only at ok ⊢
    simp only [RunsOk, StepOk] at ok
    have leads := inv.leads (Vis.complete vis.count) count ok.1
    have seeds : ∀ y t, MultiRow ctx cats hops seedVar backward
          (fun b => Runs ctx heights (Vis.complete vis.count) 0 (Binding.start emptyEnv) s.steps b)
          y t ↔
        MultiRow ctx cats hops seedVar backward
          (fun b => found (Vis.complete vis.count) b.vars b.level b.height) y t := by
      refine multiRow_congr fun σ level => ⟨?_, ?_⟩
      · rintro ⟨b, runs, rfl, rfl⟩
        exact ⟨b, (leads _ _ _).mp ⟨b, runs, rfl, rfl, rfl⟩, rfl, rfl⟩
      · rintro ⟨b, there, rfl, rfl⟩
        obtain ⟨b', runs, vars, lvl, _⟩ := (leads _ _ _).mpr there
        exact ⟨b', runs, vars, lvl⟩
    unfold Leads Found.hoist
    simp only [Runs, IsAlt, seeds]
    constructor
    · rintro ⟨_, ⟨a, ⟨y, eq, admitted, row⟩, rfl⟩, rfl, rfl, rfl⟩
      refine ⟨y, ?_, ?_, ?_, ?_⟩
      · rw [eq]
        rfl
      · rw [eq]
        exact Nat.zero_max _
      · rw [Binding.take, show (Binding.start emptyEnv).level.weakest a.tier = a.tier from
          Tier.fact_weakest _]
        exact admitted
      · rw [Binding.take, show (Binding.start emptyEnv).level.weakest a.tier = a.tier from
          Tier.fact_weakest _]
        exact row
    · rintro ⟨y, rfl, rfl, admitted, row⟩
      refine ⟨_, ⟨⟨[.node y], level, ⟨heights s.slots, edbRule⟩, noOrdinal⟩,
        ⟨y, rfl, admitted, row⟩, rfl⟩, rfl, Tier.fact_weakest _, Nat.zero_max _⟩
  · rintro vis σ' _ _ ⟨y, rfl, rfl, _⟩ v live
    show markAll s.bound terms v = true ↔ _
    rw [markAll_apply, dead' v live]
    by_cases eq : v = bind
    · subst eq
      have mentioned : Mentions terms v := mentioned
      simp [mentioned]
    · rw [Function.update_of_ne eq]
      have no : ¬ Mentions terms v := by
        intro hm
        rcases reach_mentions kind isReach (reachConst_of_shaped shaped) ready ends hm with rfl | h | h
        · rw [dead' _ live] at seeded
          cases seeded
        · exact eq h
        · rw [dead' v live] at h
          cases h
      simp [no, emptyEnv]

theorem planLit_found (safe : SafeRule catalog preds rule) (lent : Lent ctx preds rowsOf)
    (hoist : Bool) (k : Nat) (hi : rule.body[i]? = some lit) (shaped : Shaped catalog preds lit)
    (ready : LitReady catalog preds s.bound lit)
    (inv : FoundInv ctx heights rule (i :: rest) s found) :
    FoundInv ctx heights rule rest (planLit preds catalog own rule src hoist k i rest s)
      (litJoin ctx catalog preds rowsOf heights rule src hoist i rest s found) := by
  unfold planLit litJoin
  simp only [hi]
  split
  · rename_i step multi
    split at multi
    · rename_i may
      obtain ⟨_, _, _, _, _, _, _, _, _, _, _, rfl, _⟩ := hoistStep_eq_some multi
      simp only [may, if_true, multi]
      exact foundInv_hoist safe hi shaped ready inv multi _ _
    · cases multi
  · rename_i multi
    simp only [multi]
    exact foundInv_join lent hi shaped ready inv _ _

theorem planFrom_found (safe : SafeRule catalog preds rule) (lent : Lent ctx preds rowsOf)
    (hoist : Bool) {k : Nat} (ready : OrderReady catalog preds rule.body s.bound rest)
    (shaped : ∀ lit ∈ rule.body, Shaped catalog preds lit)
    (known : ∀ i ∈ rest, i < rule.body.length)
    (inv : FoundInv ctx heights rule rest s found) :
    FoundInv ctx heights rule [] (planFrom preds catalog own rule src hoist k rest s)
      (planJoin ctx catalog preds rowsOf heights own rule src hoist k rest s found) := by
  induction rest generalizing k s found with
  | nil => exact inv
  | cons i rest ih =>
    obtain ⟨lit, hi⟩ : ∃ lit, rule.body[i]? = some lit :=
      ⟨_, List.getElem?_eq_getElem (known i List.mem_cons_self)⟩
    have can := ready.1 lit hi
    refine ih ?_ (fun j hj => known j (List.mem_cons_of_mem _ hj))
      (planLit_found safe lent hoist k hi (shaped lit (List.mem_of_getElem? hi)) can inv)
    rw [planLit_bound own src hi can]
    exact ready.2

end Plan

end Found

end Glia.Rules
