import Glia.Rules.JoinSteps
import Glia.Rules.PlanReady

/-! A planned body is its join: the steps of an order that binds variables before they are
read lead to the substitutions under which every literal holds, whatever the order; a
hoisted composite stands for the literals it folds. -/
namespace Glia.Rules

def orderTerms (body : List CLit) (order : List Nat) : List CTerm :=
  order.flatMap fun i =>
    match body[i]? with
    | some lit => lit.terms
    | none => []

section Grow

theorem mentions_append {a b : List CTerm} {v : Nat} :
    Mentions (a ++ b) v ↔ Mentions a v ∨ Mentions b v := List.mem_append

theorem grows_append {a b : List CTerm} {σ σ' : Env} :
    Grows σ (a ++ b) σ' ↔ ∃ mid, Grows σ a mid ∧ Grows mid b σ' := by
  classical
  constructor
  · intro grows
    have left : ∀ v, Mentions a v → (σ' v).isSome = true :=
      fun v mem => grows.binds v (mentions_append.mpr (.inl mem))
    refine ⟨fun v => if Mentions a v then σ' v else σ v, ⟨fun v mem => ?_, fun v set => ?_,
      fun v no => if_neg no⟩, ⟨fun v mem => ?_, fun v set => ?_, fun v no => ?_⟩⟩
    · simp only [if_pos mem, left v mem]
    · by_cases mem : Mentions a v
      · rw [if_pos mem]
        exact grows.keeps v set
      · rw [if_neg mem]
    · exact grows.binds v (mentions_append.mpr (.inr mem))
    · by_cases mem : Mentions a v
      · rw [if_pos mem]
      · rw [if_neg mem] at set ⊢
        exact grows.keeps v set
    · split
      · rfl
      · rename_i no'
        exact grows.rest v fun mem => (mentions_append.mp mem).elim no' no
  · rintro ⟨mid, first, second⟩
    refine ⟨fun v mem => ?_, fun v set => ?_, fun v no => ?_⟩
    · rcases mentions_append.mp mem with mem | mem
      · have set := first.binds v mem
        rwa [second.keeps v set]
      · exact second.binds v mem
    · rw [second.keeps v (by rw [first.keeps v set]; exact set), first.keeps v set]
    · rw [second.rest v fun mem => no (mentions_append.mpr (.inr mem)),
        first.rest v fun mem => no (mentions_append.mpr (.inl mem))]

theorem Grows.same {a b : List CTerm} {σ mid σ' : Env} (first : Grows σ a mid)
    (second : Grows mid b σ') {v : Nat} (mem : Mentions a v) : σ' v = mid v :=
  second.keeps v (first.binds v mem)

end Grow

section Holds

variable {ctx : Ctx} {catalog : Catalog} {preds : List PredInfo}
variable {rowsOf : Nat → Row → Tier → Prop} {vis : Vis} {src : Src}

theorem termIs_congr {tables : DomainTables} {σ σ' : Env} {t : CTerm} {v : Value}
    (same : ∀ x, t = .var x → σ' x = σ x) : TermIs tables σ' t v ↔ TermIs tables σ t v := by
  cases t with
  | const c => exact Iff.rfl
  | wild => exact Iff.rfl
  | var x =>
    show σ' x = some v ↔ σ x = some v
    rw [same x rfl]

theorem rowIs_congr {tables : DomainTables} {σ σ' : Env} {terms : List CTerm} {row : Row}
    (same : ∀ v, Mentions terms v → σ' v = σ v) :
    RowIs tables σ' terms row ↔ RowIs tables σ terms row := by
  rw [rowIs_iff, rowIs_iff]
  refine and_congr_right fun _ => forall_congr' fun c => forall_congr' fun t =>
    forall_congr' fun v => imp_congr_right fun ht => imp_congr_right fun _ => termIs_congr ?_
  rintro x rfl
  exact same x (List.mem_of_getElem? ht)

theorem atomTerms_mentions {p : PredId} {terms : List CTerm} {v : Nat}
    (h : Mentions (atomTerms ctx catalog preds p terms) v) : Mentions terms v := by
  unfold atomTerms at h
  split at h
  · split at h
    · exact List.mem_of_mem_take h
    · exact h
  · exact h

theorem litHolds_congr {σ σ' : Env} {lit : CLit} (same : ∀ v, Mentions lit.terms v → σ' v = σ v)
    (t : Tier) (height : Nat) :
    LitHolds ctx catalog preds rowsOf vis src σ' lit t height ↔
      LitHolds ctx catalog preds rowsOf vis src σ lit t height := by
  cases lit with
  | pos p terms =>
    exact exists_congr fun row => and_congr_right fun _ =>
      rowIs_congr fun v mem => same v (atomTerms_mentions mem)
  | neg p terms =>
    refine and_congr_right fun _ => and_congr_right fun _ => forall_congr' fun row =>
      forall_congr' fun _ => forall_congr' fun _ => imp_congr_right fun _ => not_congr ?_
    exact rowIs_congr fun v mem => same v (atomTerms_mentions mem)
  | cmp op l r =>
    refine and_congr_right fun _ => and_congr_right fun _ => exists_congr fun a =>
      exists_congr fun b => and_congr_right fun _ => and_congr_right fun _ => ?_
    refine and_congr (termIs_congr ?_) (and_congr_left' (termIs_congr ?_))
    · rintro x rfl
      exact same x (by simp [Mentions, CLit.terms])
    · rintro x rfl
      exact same x (by simp [Mentions, CLit.terms])

theorem bindLiteral_iff {bound : Bound} {lit : CLit} (ready : LitReady catalog preds bound lit)
    (v : Nat) : bindLiteral bound lit v = true ↔ bound v = true ∨ Mentions lit.terms v := by
  constructor
  · intro h
    cases lit with
    | pos p terms => exact (markAll_apply bound terms v).mp h
    | neg p terms => exact .inl h
    | cmp op l r =>
      have side : ∀ t ∈ [l, r], markTerm bound t v = true → bound v = true ∨ Mentions [l, r] v :=
        fun t mem h => ((markTerm_apply bound t v).mp h).imp_right fun eq => by
          subst eq
          exact mem
      cases op with
      | eq =>
        cases hl : isBound bound l <;> cases hr : isBound bound r <;>
          simp only [bindLiteral, hl, hr] at h
        · exact .inl h
        · exact side l (by simp) h
        · exact side r (by simp) h
        · exact .inl h
      | _ => exact .inl h
  · rintro (h | h)
    · exact le_bindLiteral bound lit v h
    · exact ready.bound.mentions h

end Holds

section Order

variable (ctx : Ctx) (catalog : Catalog) (preds : List PredInfo)
variable (rowsOf : Nat → Row → Tier → Prop)

def orderSteps (body : List CLit) (src : Nat → Src) : Bound → List Nat → List Step
  | _, [] => []
  | bound, i :: rest =>
    match body[i]? with
    | none => orderSteps body src bound rest
    | some lit => (litStep preds catalog lit bound (src i)).toList ++
        orderSteps body src (boundAfter lit bound) rest

/-- Every literal of `order` holds under `σ`, each by a row of its part's tier and height. -/
def OrderHolds (vis : Vis) (src : Nat → Src) (body : List CLit) (σ : Env) (order : List Nat)
    (parts : List (Tier × Nat)) : Prop :=
  List.Forall₂ (fun i part => ∀ lit, body[i]? = some lit →
    LitHolds ctx catalog preds rowsOf vis (src i) σ lit part.1 part.2) order parts

/-- `σ'` is `σ` extended to the variables of `order`, every literal holds under it, the level
is the weakest tier of their rows and the height the highest. -/
def Joined (vis : Vis) (src : Nat → Src) (body : List CLit) (order : List Nat)
    (σ : Env) (level : Tier) (height : Nat) (σ' : Env) (level' : Tier) (height' : Nat) : Prop :=
  Grows σ (orderTerms body order) σ' ∧
    ∃ parts, OrderHolds ctx catalog preds rowsOf vis src body σ' order parts ∧
      level' = parts.foldl (fun l part => l.weakest part.1) level ∧
      height' = parts.foldl (fun h part => max h part.2) height

variable {ctx catalog preds rowsOf} {body : List CLit} {vis : Vis} {src : Nat → Src}
variable {heights : Nat → Nat}

theorem orderTerms_cons {i : Nat} {lit : CLit} (hi : body[i]? = some lit) (rest : List Nat) :
    orderTerms body (i :: rest) = lit.terms ++ orderTerms body rest := by
  simp [orderTerms, hi]

theorem joined_cons {i : Nat} {lit : CLit} (hi : body[i]? = some lit) (rest : List Nat) {σ σ' : Env}
    {level level' : Tier} {height height' : Nat} :
    Joined ctx catalog preds rowsOf vis src body (i :: rest) σ level height σ' level' height' ↔
      ∃ mid t n, Grows σ lit.terms mid ∧
        LitHolds ctx catalog preds rowsOf vis (src i) mid lit t n ∧
        Joined ctx catalog preds rowsOf vis src body rest mid (level.weakest t) (max height n) σ'
          level' height' := by
  unfold Joined OrderHolds
  rw [orderTerms_cons hi, grows_append]
  constructor
  · rintro ⟨⟨mid, first, second⟩, _, holds, rfl, rfl⟩
    cases holds with
    | cons head tail =>
      rename_i part parts
      refine ⟨mid, part.1, part.2, first, ?_, second, parts, tail, rfl, rfl⟩
      exact (litHolds_congr (fun v mem => first.same second mem) _ _).mp (head lit hi)
  · rintro ⟨mid, t, n, first, holds, second, parts, tail, rfl, rfl⟩
    refine ⟨⟨mid, first, second⟩, (t, n) :: parts, .cons (fun l hl => ?_) tail, rfl, rfl⟩
    rw [hi, Option.some.injEq] at hl
    subst hl
    exact (litHolds_congr (fun v mem => first.same second mem) _ _).mpr holds

def Leads (ctx : Ctx) (heights : Nat → Nat) (vis : Vis) (k : Nat) (b : Binding)
    (steps : List Step) (σ : Env) (level : Tier) (height : Nat) : Prop :=
  ∃ b', Runs ctx heights vis k b steps b' ∧ b'.vars = σ ∧ b'.level = level ∧ b'.height = height

theorem leads_nil (k : Nat) (b : Binding) (σ : Env) (level : Tier) (height : Nat) :
    Leads ctx heights vis k b [] σ level height ↔
      σ = b.vars ∧ level = b.level ∧ height = b.height := by
  unfold Leads
  simp only [Runs]
  constructor
  · rintro ⟨_, rfl, rfl, rfl, rfl⟩
    exact ⟨rfl, rfl, rfl⟩
  · rintro ⟨rfl, rfl, rfl⟩
    exact ⟨b, rfl, rfl, rfl, rfl⟩

theorem leads_cons (k : Nat) (b : Binding) (step : Step) (rest : List Step) (σ : Env)
    (level : Tier) (height : Nat) :
    Leads ctx heights vis k b (step :: rest) σ level height ↔
      ∃ a, IsAlt ctx heights vis b.vars step a ∧
        Leads ctx heights vis (k + 1) (b.take vis k step a) rest σ level height := by
  unfold Leads
  simp only [Runs]
  constructor
  · rintro ⟨b', ⟨a, isAlt, runs⟩, told⟩
    exact ⟨a, isAlt, b', runs, told⟩
  · rintro ⟨a, isAlt, b', runs, told⟩
    exact ⟨b', ⟨a, isAlt, runs⟩, told⟩

theorem leads_order (lent : Lent ctx preds rowsOf) {order : List Nat} {bound : Bound}
    (ready : OrderReady catalog preds body bound order)
    (shaped : ∀ i ∈ order, ∀ lit, body[i]? = some lit → Shaped catalog preds lit)
    (known : ∀ i ∈ order, i < body.length) {k : Nat} {b : Binding}
    (agree : ∀ v, Mentions (orderTerms body order) v →
      (bound v = true ↔ (b.vars v).isSome = true))
    (ok : RunsOk ctx heights vis k b (orderSteps catalog preds body src bound order)) (σ : Env)
    (level : Tier) (height : Nat) :
    Leads ctx heights vis k b (orderSteps catalog preds body src bound order) σ level height ↔
      Joined ctx catalog preds rowsOf vis src body order b.vars b.level b.height σ level
        height := by
  induction order generalizing bound k b with
  | nil =>
    simp only [orderSteps, leads_nil, Joined, OrderHolds, orderTerms, List.flatMap_nil,
      List.forall₂_nil_left_iff, exists_eq_left, List.foldl_nil]
    rw [grows_bound fun v mem => absurd mem (by simp [Mentions])]
  | cons i rest ih =>
    obtain ⟨lit, hi⟩ : ∃ lit, body[i]? = some lit :=
      ⟨_, List.getElem?_eq_getElem (known i List.mem_cons_self)⟩
    have can := ready.1 lit hi
    rw [orderTerms_cons hi] at agree
    obtain ⟨step, hstep, takes⟩ := @litStep_takes ctx catalog preds rowsOf heights vis b.vars bound
      lit (src i) lent (shaped i List.mem_cons_self lit hi) can
      fun v mem => agree v (mentions_append.mpr (.inl mem))
    have steps : orderSteps catalog preds body src bound (i :: rest) =
        step :: orderSteps catalog preds body src (bindLiteral bound lit) rest := by
      simp [orderSteps, hi, hstep, boundAfter_eq can]
    rw [steps] at ok ⊢
    simp only [RunsOk] at ok
    have next : ∀ a, IsAlt ctx heights vis b.vars step a →
        (Leads ctx heights vis (k + 1) (b.take vis k step a)
            (orderSteps catalog preds body src (bindLiteral bound lit) rest) σ level height ↔
          Joined ctx catalog preds rowsOf vis src body rest (takeRow step b.vars a.row)
            (b.level.weakest a.tier) (max b.height a.prov.height) σ level height) := by
      intro a isAlt
      have grows := ((takes ok.1 _ _ _).mp ⟨a, isAlt, rfl, rfl, rfl⟩).1
      refine ih (b := b.take vis k step a) ?_
        (fun j hj => shaped j (List.mem_cons_of_mem _ hj))
        (fun j hj => known j (List.mem_cons_of_mem _ hj)) (fun v mem => ?_) (ok.2 a isAlt)
      · have := ready.2
        unfold bindAt at this
        rwa [hi] at this
      · rw [bindLiteral_iff can]
        show _ ↔ (takeRow step b.vars a.row v).isSome = true
        by_cases here : Mentions lit.terms v
        · simp [here, grows.binds v here]
        · rw [grows.rest v here]
          simp only [here, or_false]
          exact agree v (mentions_append.mpr (.inr mem))
    rw [leads_cons, joined_cons hi]
    constructor
    · rintro ⟨a, isAlt, leads⟩
      obtain ⟨grows, holds⟩ := (takes ok.1 _ _ _).mp ⟨a, isAlt, rfl, rfl, rfl⟩
      exact ⟨_, _, _, grows, holds, (next a isAlt).mp leads⟩
    · rintro ⟨mid, t, n, grows, holds, joined⟩
      obtain ⟨a, isAlt, rfl, rfl, rfl⟩ := (takes ok.1 _ _ _).mpr ⟨grows, holds⟩
      exact ⟨a, isAlt, (next a isAlt).mpr joined⟩

theorem planFrom_steps (own : List PredId) (rule : CRule) (k : Nat) (order : List Nat)
    (s : PlanState) :
    (planFrom preds catalog own rule src false k order s).steps =
      s.steps ++ orderSteps catalog preds rule.body src s.bound order := by
  induction order generalizing k s with
  | nil => simp [planFrom, orderSteps]
  | cons i rest ih =>
    rw [planFrom, ih]
    cases hi : rule.body[i]? with
    | none => simp [planLit, orderSteps, hi]
    | some lit => simp [planLit, orderSteps, hi]

theorem joined_perm {order order' : List Nat} (perm : order.Perm order') {σ σ' : Env}
    {level level' : Tier} {height height' : Nat}
    (h : Joined ctx catalog preds rowsOf vis src body order σ level height σ' level' height') :
    Joined ctx catalog preds rowsOf vis src body order' σ level height σ' level' height' := by
  obtain ⟨grows, parts, holds, rfl, rfl⟩ := h
  have mentions : ∀ v, Mentions (orderTerms body order') v ↔ Mentions (orderTerms body order) v :=
    fun v => (perm.flatMap_right _).symm.mem_iff
  refine ⟨⟨fun v mem => grows.binds v ((mentions v).mp mem), grows.keeps,
    fun v no => grows.rest v fun mem => no ((mentions v).mpr mem)⟩, ?_⟩
  obtain ⟨parts', perm', holds'⟩ := List.perm_comp_forall₂ perm.symm holds
  refine ⟨parts', perm', ?_, ?_⟩
  · exact holds'.symm.foldl_eq' (fun x _ y _ z => max_right_comm z x.1 y.1) level
  · exact holds'.symm.foldl_eq' (fun x _ y _ z => max_right_comm z x.2 y.2) height

end Order

end Glia.Rules
