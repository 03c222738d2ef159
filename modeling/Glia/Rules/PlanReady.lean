import Glia.Rules.StepReady
import Mathlib.Data.List.Induction

/-! The plans of a safe rule are executable: in every variant, hoisted or not, each part
a step reads is bound by an earlier step when it is read. -/
namespace Glia.Rules

section Given

variable (catalog : Catalog)

/-- Every argument a builtin needs bound is a part, not a wildcard. -/
def CallGiven (b : Nat) (args : List (Option KeyPart)) : Prop :=
  ∀ (c : Nat) (req : BindReq), (catalog.builtins[b]?.bind fun d => d.bind[c]?) = some req →
    req = .must ∨ req = .const → ∀ a, args[c]? = some a → a.isSome = true

mutual

/-- A call the step makes, in a hoisted seed too, is given every argument it needs. -/
def StepGiven : Step → Prop
  | .call b _ args _ _ _ => CallGiven catalog b args
  | .negCall b _ args => CallGiven catalog b args
  | .reachMulti _ _ _ seed _ _ _ _ => StepsGiven seed
  | .scan _ _ _ _ _ => True
  | .lookup _ _ _ _ _ _ => True
  | .neg _ _ _ => True
  | .cmp _ _ _ => True
  | .assign _ _ => True
  | .reach _ _ _ _ _ _ _ => True
  | .negReach _ _ _ _ => True

def StepsGiven : List Step → Prop
  | [] => True
  | step :: rest => StepGiven step ∧ StepsGiven rest

end

variable {catalog}

theorem stepsGiven_iff {steps : List Step} :
    StepsGiven catalog steps ↔ ∀ step ∈ steps, StepGiven catalog step := by
  induction steps with
  | nil => simp [StepsGiven]
  | cons step rest ih => simp [StepsGiven, ih]

theorem stepGiven_setSrc {step : Step} (given : StepGiven catalog step) (src : Src) :
    StepGiven catalog (setSrc src step) := by
  cases step <;> exact given

/-- A needed argument that is given resolves to a value. -/
theorem CallGiven.value {tables : DomainTables} {env : Env} {b : Nat}
    {args : List (Option KeyPart)} (given : CallGiven catalog b args) {c : Nat} {req : BindReq}
    (need : (catalog.builtins[b]?.bind fun d => d.bind[c]?) = some req)
    (must : req = .must ∨ req = .const) {vs : List (Option Value)}
    (resolved : opts tables env args = some vs) {v : Option Value} (at' : vs[c]? = some v) :
    v.isSome = true := by
  have ends : ∀ (args : List (Option KeyPart)) (vs : List (Option Value)) (c : Nat)
      (v : Option Value), opts tables env args = some vs → vs[c]? = some v →
      ∃ a, args[c]? = some a ∧ opt tables env a = some v := by
    intro args
    induction args with
    | nil =>
      intro vs c v resolved at'
      cases resolved
      cases at'
    | cons a rest ih =>
      intro vs c v resolved at'
      unfold opts at resolved
      split at resolved
      · rename_i first later one more
        cases resolved
        cases c with
        | zero =>
          cases at'
          exact ⟨a, rfl, one⟩
        | succ c => exact ih later c v more at'
      · cases resolved
  obtain ⟨a, held, eq⟩ := ends args vs c v resolved at'
  obtain ⟨p, rfl⟩ := Option.isSome_iff_exists.mp (given c req need must a held)
  obtain ⟨w, _, rfl⟩ := Option.map_eq_some_iff.mp eq
  rfl

variable {preds : List PredInfo}

theorem predReq_builtin {p : PredId} {b : Nat} (kind : kindOf preds p = some (.builtin b))
    (c : Nat) : predReq catalog preds p c = catalog.builtins[b]?.bind fun d => d.bind[c]? := by
  obtain ⟨i, hi, kind⟩ := Option.map_eq_some_iff.mp kind
  unfold predReq PredInfo.bindReq
  simp only [hi, Option.bind_some, kind]

theorem callGiven_of_runnable {p : PredId} {b : Nat} {terms : List CTerm} {bound : Bound}
    (kind : kindOf preds p = some (.builtin b))
    (runs : runnable catalog preds bound p terms = true) :
    CallGiven catalog b (terms.map fun t => boundPart bound (some t)) := by
  intro c req need must a held
  rw [List.getElem?_map] at held
  obtain ⟨t, ht, rfl⟩ := Option.map_eq_some_iff.mp held
  have is : isBound bound t = true := by
    refine (runnable_iff bound p terms).mp runs c t ht ?_
    rw [predReq_builtin kind, need]
    exact must.imp (congrArg some) (congrArg some)
  obtain ⟨part, hpart⟩ := part_of_bound is
  simp [boundPart, is, hpart]

/-- The step of a literal that can run gives its call every argument it needs. -/
theorem litStep_given {lit : CLit} {bound : Bound} {src : Src}
    (ready : LitReady catalog preds bound lit) :
    ∀ step ∈ litStep preds catalog lit bound src, StepGiven catalog step := by
  intro step mem
  cases lit with
  | pos p terms =>
    unfold litStep at mem
    simp only at mem
    split at mem
    · rename_i b kind
      cases mem
      unfold callStep
      simp only
      split
      · trivial
      · exact callGiven_of_runnable kind ready
    · cases mem
      unfold relationStep
      simp only
      split <;> trivial
  | neg p terms =>
    unfold litStep at mem
    simp only at mem
    split at mem
    · rename_i b kind
      split at mem
      · cases mem
        trivial
      · cases mem
        exact callGiven_of_runnable kind ready.1
    · cases mem
      trivial
  | cmp op l r =>
    rcases comparison_cases ready with ⟨_, _, _, _, _, _, eq⟩ | ⟨_, _, _, _, _, _, _, eq⟩ |
        ⟨_, _, _, _, _, _, _, eq⟩
    all_goals
      rw [show litStep preds catalog (.cmp op l r) bound src = _ from eq] at mem
      cases mem
      trivial

end Given

section Plans

variable (tables : DomainTables) {catalog : Catalog} {preds : List PredInfo}
variable (own : List PredId) {rule : CRule}

theorem headVars_apply (rule : CRule) (v : Nat) : headVars rule v = true ↔ rule.HeadReads v := by
  have fold : ∀ (vs : List Nat) (b : Bound),
      vs.foldl (fun b w => Function.update b w true) b v = true ↔ b v = true ∨ v ∈ vs := by
    intro vs
    induction vs with
    | nil => simp
    | cons w rest ih =>
      intro b
      rw [List.foldl_cons, ih, List.mem_cons]
      by_cases eq : v = w
      · simp [eq]
      · rw [Function.update_of_ne eq]
        simp [eq]
  unfold headVars CRule.HeadReads
  rw [fold, markAll_apply, List.mem_flatMap]
  simp

theorem liveAfter_cons {i : Nat} {lit : CLit} (h : rule.body[i]? = some lit) (rest : List Nat)
    (v : Nat) :
    liveAfter rule (i :: rest) v = true ↔
      Mentions lit.terms v ∨ liveAfter rule rest v = true := by
  unfold liveAfter
  rw [List.foldr_cons]
  simp only [h, markLit, markAll_apply]
  exact or_comm

theorem liveAfter_cons_none {i : Nat} (h : rule.body[i]? = none) (rest : List Nat) :
    liveAfter rule (i :: rest) = liveAfter rule rest := by
  unfold liveAfter
  rw [List.foldr_cons]
  simp only [h]

theorem membersBound_append (done : List Nat) {i : Nat} {lit : CLit}
    (h : rule.body[i]? = some lit) (v : Nat) :
    membersBound rule (done ++ [i]) v = true ↔
      membersBound rule done v = true ∨ Mentions lit.terms v := by
  unfold membersBound
  rw [List.foldl_append, List.foldl_cons, List.foldl_nil]
  simp only [h, markLit, markAll_apply]

theorem liveAfter_lt (safe : SafeRule catalog preds rule) (rest : List Nat) {v : Nat}
    (h : liveAfter rule rest v = true) : v < rule.nvars := by
  induction rest with
  | nil => exact safe.head_lt v ((headVars_apply rule v).mp h)
  | cons i rest ih =>
    cases hi : rule.body[i]? with
    | none =>
      rw [liveAfter_cons_none hi] at h
      exact ih h
    | some lit =>
      rcases (liveAfter_cons hi rest v).mp h with mem | h
      · exact safe.body_lt lit (List.mem_of_getElem? hi) v mem
      · exact ih h

def only (v : Nat) : Bound := fun w => w == v

variable (catalog) in
/-- A composite hoisted after `members`: its seed binds the seed variable, and of all its
members mention only the variable it binds is read later. -/
structure Composite (rule : CRule) (members rest : List Nat) (bind : Nat) (step : Step) :
    Prop where
  leads : ∀ src start, LeadsTo tables [setSrc src step] start (only bind)
  given : StepGiven catalog step
  live : ∀ v, liveAfter rule rest v = true → membersBound rule members v = true → v = bind

variable (catalog) in
/-- What planning the literals `done` has built, with `rest` still to plan: the steps lead
from `start` to bindings that cover `real`, and what is read later is really bound where
the planner marks it. -/
structure PlanInv (rule : CRule) (start : Bound) (done rest : List Nat) (s : PlanState)
    (real : Bound) : Prop where
  leads : LeadsTo tables s.steps start real
  given : ∀ step ∈ s.steps, StepGiven catalog step
  live : ∀ v, liveAfter rule rest v = true → s.bound v = true → real v = true
  marked : (membersBound rule done).Le s.bound
  folded : ∀ k, s.folded = some k → ∃ step bind, s.steps.take 1 = [step] ∧ k < done.length ∧
    Composite tables catalog rule (done.take (k + 1)) (done.drop (k + 1) ++ rest) bind step

variable {tables}

theorem hoistStep_eq_some {lit : CLit} {bound live : Bound} {steps : List Step} {slot : Nat}
    {step : Step} (h : hoistStep preds catalog rule.nvars lit bound live steps slot = some step) :
    ∃ p terms b cats hops seedVar backward bind,
      lit = .pos p terms ∧ kindOf preds p = some (.builtin b) ∧ isReaches catalog b = true ∧
        step = .reachMulti slot cats hops steps seedVar backward bind .all ∧
        bound seedVar = true ∧ Mentions terms seedVar ∧
        (∀ c, c < 2 → terms[c]? = some (.var seedVar) ∨ terms[c]? = some (.var bind)) ∧
        boundLive rule.nvars bound live = false := by
  unfold hoistStep at h
  split at h
  · rename_i p terms
    split at h
    · rename_i b kind
      split at h
      · cases h
      · rename_i run
        simp only [Bool.or_eq_true, Bool.not_eq_true', not_or, Bool.not_eq_false] at run
        split at h
        · rename_i x y hx hy
          split at h
          · cases h
          · rename_i differ
            simp only [Bool.or_eq_true, beq_iff_eq, not_or, Bool.not_eq_true] at differ
            simp only [Option.some.injEq] at h
            refine ⟨p, terms, b, _, _, _, _, _, rfl, kind, run.1, h.symm, ?_, ?_, ?_, differ.2⟩
            · cases hb : bound x
              · have := differ.1
                rw [hb] at this
                simpa using Ne.symm this
              · simpa using hb
            · cases bound x
              · exact List.mem_of_getElem? hy
              · exact List.mem_of_getElem? hx
            · intro c lt
              obtain rfl | rfl : c = 0 ∨ c = 1 := by omega
              · cases bound x
                · exact .inr hx
                · exact .inl hx
              · cases bound x
                · exact .inl hy
                · exact .inr hy
        · cases h
    · cases h
  · cases h
  · cases h

theorem boundLive_eq_false {nvars : Nat} {bound live : Bound}
    (h : boundLive nvars bound live = false) {v : Nat} (lt : v < nvars) (hl : live v = true) :
    bound v = false := by
  unfold boundLive at h
  rw [List.any_eq_false] at h
  have := h v (List.mem_range.mpr lt)
  simpa [hl] using this

theorem reach_mentions {p : PredId} {terms : List CTerm} {b : Nat} {bound : Bound} {x y : Nat}
    (kind : kindOf preds p = some (.builtin b)) (isReach : isReaches catalog b = true)
    (reach : ReachConst catalog preds (.pos p terms))
    (ready : LitReady catalog preds bound (.pos p terms))
    (ends : ∀ c, c < 2 → terms[c]? = some (.var x) ∨ terms[c]? = some (.var y)) {v : Nat}
    (mem : Mentions terms v) : v = x ∨ v = y ∨ bound v = true := by
  obtain ⟨c, hc⟩ := List.mem_iff_getElem?.mp mem
  by_cases near : c < 2
  · rcases ends c near with h | h
    · rw [hc] at h
      cases h
      exact .inl rfl
    · rw [hc] at h
      cases h
      exact .inr (.inl rfl)
  · have lt := (List.getElem?_eq_some_iff.mp hc).1
    have req := reach b kind isReach c (by omega) lt
    exact .inr (.inr ((runnable_iff bound p terms).mp ready c _ hc (.inr req)))

theorem multi_leads {slot : Nat} {cats : CatSet} {hops : Option Nat} {seed : List Step}
    {seedVar bind : Nat} {backward : Bool} {real : Bound}
    (leads : LeadsTo tables seed (fun _ => false) real) (bound : real seedVar = true)
    (src : Src) (start : Bound) :
    LeadsTo tables [.reachMulti slot cats hops seed seedVar backward bind src] start
      (only bind) := by
  refine LeadsTo.single (fun env _ => ?_) fun v hv => ?_
  · simp only [StepNeverDrops]
    exact leads _ emptyEnv (fun v hv => by cases hv) fun env covers => covers seedVar bound
  · have eq : v = bind := by simpa [only] using hv
    simp [stepBound, eachBind, eq]

/-- Planning one literal that can run keeps the invariant. -/
theorem planLit_inv (safe : SafeRule catalog preds rule) (src : Nat → Src) {hoist : Bool}
    {start : Bound} {done rest : List Nat} {i : Nat} {lit : CLit} {s : PlanState} {real : Bound}
    (hi : rule.body[i]? = some lit) (fromEmpty : hoist = true → start = fun _ => false)
    (ready : LitReady catalog preds s.bound lit) (reach : ReachConst catalog preds lit)
    (inv : PlanInv tables catalog rule start done (i :: rest) s real) :
    ∃ real', PlanInv tables catalog rule start (done ++ [i]) rest
      (planLit preds catalog own rule src hoist done.length i rest s) real' := by
  have agree : ∀ v, Mentions lit.terms v → s.bound v = true → real v = true :=
    fun v mem => inv.live v ((liveAfter_cons hi rest v).mpr (.inl mem))
  unfold planLit
  simp only [hi]
  split
  · rename_i step multi
    split at multi
    · rename_i may
      simp only [Bool.and_eq_true] at may
      obtain ⟨p, terms, b, cats, hops, seedVar, backward, bind, rfl, kind, isReach, rfl, seeded,
        mem, ends, dead⟩ := hoistStep_eq_some multi
      have dead' : ∀ v, liveAfter rule rest v = true → s.bound v = false := fun v hv =>
        boundLive_eq_false dead (liveAfter_lt safe rest hv) hv
      have seed := inv.leads
      rw [fromEmpty may.1] at seed
      -- After the call only the variable it binds is both marked and read.
      have last : ∀ v, liveAfter rule rest v = true → Mentions terms v → v = bind := by
        intro v hv hm
        rcases reach_mentions kind isReach reach ready ends hm with rfl | h | h
        · rw [dead' _ hv] at seeded
          cases seeded
        · exact h
        · rw [dead' v hv] at h
          cases h
      have given : StepsGiven catalog s.steps := stepsGiven_iff.mpr inv.given
      refine ⟨only bind, multi_leads seed (agree seedVar mem seeded) .all start, ?_, ?_, ?_, ?_⟩
      · intro step held
        cases List.mem_singleton.mp held
        exact given
      · intro v hv hb
        rcases (markAll_apply s.bound terms v).mp hb with hb | hm
        · rw [dead' v hv] at hb
          cases hb
        · simp [only, last v hv hm]
      · intro v hv
        rcases (membersBound_append done hi v).mp hv with hv | hv
        · exact (markAll_apply s.bound terms v).mpr (.inl (inv.marked v hv))
        · exact (markAll_apply s.bound terms v).mpr (.inr hv)
      · intro k hk
        cases hk
        have whole : (done ++ [i]).take (done.length + 1) = done ++ [i] :=
          List.take_of_length_le (by simp)
        have none : (done ++ [i]).drop (done.length + 1) = [] := List.drop_of_length_le (by simp)
        rw [whole, none, List.nil_append]
        refine ⟨_, bind, rfl, by simp, ?_, given, ?_⟩
        · exact fun src start => multi_leads seed (agree seedVar mem seeded) src start
        · intro v hv hm
          rcases (membersBound_append done hi v).mp hm with hm | hm
          · have := inv.marked v hm
            rw [dead' v hv] at this
            cases this
          · exact last v hv hm
    · cases multi
  · refine ⟨newBound lit s.bound real, inv.leads.append (litStep_leads agree ready reach), ?_, ?_,
      ?_, ?_⟩
    · intro step held
      rcases List.mem_append.mp held with held | held
      · exact inv.given step held
      · exact litStep_given ready step (Option.mem_toList.mp held)
    · intro v hv hb
      simp only [newBound, Bool.or_eq_true, Bool.and_eq_true, Bool.not_eq_true']
      cases bound : s.bound v
      · exact .inr ⟨rfl, hb⟩
      · exact .inl (inv.live v ((liveAfter_cons hi rest v).mpr (.inr hv)) bound)
    · intro v hv
      show boundAfter lit s.bound v = true
      rw [boundAfter_eq ready]
      rcases (membersBound_append done hi v).mp hv with hv | hv
      · exact le_bindLiteral s.bound lit v (inv.marked v hv)
      · exact ready.bound.mentions hv
    · intro k hk
      obtain ⟨step, bind, first, lt, composite⟩ := inv.folded k hk
      refine ⟨step, bind, ?_, by simp; omega, ?_⟩
      · cases hs : s.steps with
        | nil => simp [hs] at first
        | cons a as =>
          rw [hs] at first
          simpa using first
      · rw [List.take_append_of_le_length (by omega), List.drop_append_of_le_length (by omega),
          List.append_assoc]
        exact composite

theorem planLit_bound (src : Nat → Src) {hoist : Bool} {k i : Nat} {rest : List Nat} {lit : CLit}
    {s : PlanState} (hi : rule.body[i]? = some lit) (ready : LitReady catalog preds s.bound lit) :
    (planLit preds catalog own rule src hoist k i rest s).bound = bindAt rule.body s.bound i := by
  unfold planLit bindAt
  simp only [hi]
  split
  · rename_i multi
    split at multi
    · obtain ⟨p, terms, _, _, _, _, _, _, rfl, _⟩ := hoistStep_eq_some multi
      rfl
    · cases multi
  · exact boundAfter_eq ready

theorem planFrom_inv (safe : SafeRule catalog preds rule) (src : Nat → Src) {hoist : Bool}
    {start : Bound} {done rest : List Nat} {s : PlanState} {real : Bound}
    (fromEmpty : hoist = true → start = fun _ => false)
    (ready : OrderReady catalog preds rule.body s.bound rest)
    (reach : ∀ lit ∈ rule.body, ReachConst catalog preds lit)
    (known : ∀ i ∈ rest, i < rule.body.length)
    (inv : PlanInv tables catalog rule start done rest s real) :
    ∃ real', PlanInv tables catalog rule start (done ++ rest) []
      (planFrom preds catalog own rule src hoist done.length rest s) real' := by
  induction rest generalizing done s real with
  | nil => exact ⟨real, by simpa [planFrom] using inv⟩
  | cons i rest ih =>
    obtain ⟨lit, hi⟩ : ∃ lit, rule.body[i]? = some lit :=
      ⟨_, List.getElem?_eq_getElem (known i List.mem_cons_self)⟩
    have mem := List.mem_of_getElem? hi
    have can := ready.1 lit hi
    obtain ⟨real', next⟩ := planLit_inv own safe src hi fromEmpty can
      (reach lit mem) inv
    have := ih (by rw [planLit_bound own src hi can]; exact ready.2) (fun j hj => known j (List.mem_cons_of_mem _ hj)) next
    simpa [planFrom] using this

/-- The steps from `env` never drop a binding for an unbound part, end with every part of the
head row bound, and give each builtin call every argument it needs. -/
structure Executable (tables : DomainTables) (catalog : Catalog) (env : Env) (steps : List Step)
    (head : List KeyPart) : Prop where
  drops : NeverDrops tables (fun env => (parts tables env head).isSome = true) env steps
  given : ∀ step ∈ steps, StepGiven catalog step

theorem planInv_start {order : List Nat} {bound real : Bound} (slots : Nat)
    (live : ∀ v, liveAfter rule order v = true → bound v = true → real v = true) :
    PlanInv tables catalog rule real [] order ⟨bound, [], none, true, slots⟩ real where
  leads := LeadsTo.nil (Bound.Le.refl real)
  given := by simp
  live := live
  marked := fun v hv => by simp [membersBound] at hv
  folded := fun k hk => by cases hk

theorem planFrom_bound (src : Nat → Src) {hoist : Bool} {k : Nat} {rest : List Nat}
    {s : PlanState} (ready : OrderReady catalog preds rule.body s.bound rest)
    (known : ∀ i ∈ rest, i < rule.body.length) :
    (planFrom preds catalog own rule src hoist k rest s).bound =
      boundAtEnd rule.body s.bound rest := by
  induction rest generalizing k s with
  | nil => rfl
  | cons i rest ih =>
    obtain ⟨lit, hi⟩ : ∃ lit, rule.body[i]? = some lit :=
      ⟨_, List.getElem?_eq_getElem (known i List.mem_cons_self)⟩
    have can := ready.1 lit hi
    rw [planFrom, ih (by rw [planLit_bound own src hi can]; exact ready.2)
      fun j hj => known j (List.mem_cons_of_mem _ hj), planLit_bound own src hi can]
    rfl

/-- A part of a row the rule emits: a constant or a variable of the head. -/
def HeadPart (rule : CRule) (p : KeyPart) : Prop := ∀ v, p = .var v → rule.HeadReads v

theorem headParts_headPart (rule : CRule) : ∀ p ∈ headParts rule, HeadPart rule p := by
  intro p hp v hv
  obtain ⟨t, mem, ht⟩ := List.mem_filterMap.mp hp
  subst hv
  cases t with
  | var w => cases ht; exact .inl mem
  | wild => cases ht
  | const c => cases ht

theorem planBody_executable (safe : SafeRule catalog preds rule)
    (reach : ∀ lit ∈ rule.body, ReachConst catalog preds lit) (src : Nat → Src) {hoist : Bool}
    {order : List Nat} {bound real : Bound} (slots : Nat)
    (fromEmpty : hoist = true → real = fun _ => false)
    (known : ∀ i ∈ order, i < rule.body.length)
    (ready : OrderReady catalog preds rule.body bound order)
    (all : ∀ lit ∈ rule.body, LitBound catalog preds (boundAtEnd rule.body bound order) lit)
    (live : ∀ v, liveAfter rule order v = true → bound v = true → real v = true)
    {head : List KeyPart} (parts' : ∀ p ∈ head, HeadPart rule p) {env : Env}
    (covers : Covers real env) :
    Executable tables catalog env (planBody preds catalog own rule order bound src hoist slots).steps
      head := by
  obtain ⟨real', inv⟩ := planFrom_inv own safe src fromEmpty ready reach known
    (@planInv_start tables catalog _ _ _ _ slots live)
  refine ⟨inv.leads _ env covers fun env' covers' => parts_isSome covers' fun p hp => ?_, inv.given⟩
  cases p with
  | const c => trivial
  | var v =>
    have reads := parts' _ hp v rfl
    refine inv.live v ((headVars_apply rule v).mpr reads) ?_
    rw [planFrom_bound own src ready known]
    exact safe.head_bound all reads

theorem sipsOrder_lt (bound : Bound) (first : Option Nat) (size : PredId → Option Nat) :
    ∀ i ∈ sipsOrder rule preds catalog bound first size, i < rule.body.length := by
  intro i hi
  exact List.mem_range.mp ((sipsOrder_perm catalog preds rule bound first size).mem_iff.mp hi)

theorem sipsOrder_masked (bound : Bound) (first : Option Nat) (size : PredId → Option Nat) :
    sipsOrder rule preds catalog (fun v => decide (v < rule.nvars) && bound v) first size =
      sipsOrder rule preds catalog bound first size := by
  unfold sipsOrder
  simp only [← Bool.and_assoc, Bool.and_self]

def FirstRelation (preds : List PredInfo) (rule : CRule) (first : Option Nat) : Prop :=
  ∀ f, first = some f → (rule.body[f]?).any (isRelation preds) = true

theorem isRelation_pos {lit : CLit} (h : isRelation preds lit = true) :
    ∃ p terms, lit = .pos p terms ∧ ∀ c, predReq catalog preds p c = none := by
  cases lit with
  | pos p terms =>
    refine ⟨p, terms, rfl, fun c => ?_⟩
    unfold isRelation kindOf at h
    unfold predReq PredInfo.bindReq
    cases hp : preds[p]? with
    | none => rfl
    | some i => cases hk : i.kind <;> simp_all
  | neg p terms => cases h
  | cmp op l r => cases h

/-- Whatever is bound before and whichever relation literal runs first, every literal of a
safe rule can run when the order reaches it, and has run at the end. -/
theorem order_ready (safe : SafeRule catalog preds rule) (bound : Bound) {first : Option Nat}
    (relation : FirstRelation preds rule first) (size : PredId → Option Nat) :
    let start : Bound := fun v => decide (v < rule.nvars) && bound v
    OrderReady catalog preds rule.body start (sipsOrder rule preds catalog bound first size) ∧
      ∀ lit ∈ rule.body,
        LitBound catalog preds
          (boundAtEnd rule.body start (sipsOrder rule preds catalog bound first size)) lit := by
  have forced : ∀ f, first = some f → ∃ p terms, rule.body[f]? = some (.pos p terms) ∧
      ∀ c, predReq catalog preds p c = none := by
    intro f hf
    have h := relation f hf
    cases hb : rule.body[f]? with
    | none => simp [hb] at h
    | some lit =>
      rw [hb, Option.any_some] at h
      obtain ⟨p, terms, rfl, req⟩ := @isRelation_pos catalog _ _ h
      exact ⟨p, terms, rfl, req⟩
  refine sipsOrder_ready size safe bound first ?_ fun f hf => ?_
  · intro f p terms hf hb
    obtain ⟨q, ts, hq, req⟩ := forced f hf
    rw [hq] at hb
    cases hb
    rw [runnable_iff]
    intro c t _ h
    simp [req c] at h
  · obtain ⟨p, terms, hb, _⟩ := forced f hf
    exact ⟨p, terms, hb⟩

section Variants

theorem liveAfter_iff (order : List Nat) (v : Nat) :
    liveAfter rule order v = true ↔
      (∃ i ∈ order, ∃ lit, rule.body[i]? = some lit ∧ Mentions lit.terms v) ∨
        rule.HeadReads v := by
  induction order with
  | nil => simp [liveAfter, headVars_apply]
  | cons i rest ih =>
    cases hi : rule.body[i]? with
    | none => simp [liveAfter_cons_none hi, ih, hi]
    | some lit =>
      rw [liveAfter_cons hi, ih]
      simp [hi, or_assoc]

theorem membersBound_iff (members : List Nat) (v : Nat) :
    membersBound rule members v = true ↔
      ∃ i ∈ members, ∃ lit, rule.body[i]? = some lit ∧ Mentions lit.terms v := by
  induction members using List.reverseRecOn with
  | nil => simp [membersBound]
  | append_singleton done i ih =>
    cases hi : rule.body[i]? with
    | none =>
      have : membersBound rule (done ++ [i]) = membersBound rule done := by
        unfold membersBound
        rw [List.foldl_append, List.foldl_cons, List.foldl_nil]
        simp only [hi]
      simp [this, ih, or_and_right, exists_or, hi]
    | some lit =>
      rw [membersBound_append done hi, ih]
      simp [or_and_right, exists_or, hi]

theorem start_empty (n : Nat) : (fun v => decide (v < n) && false : Bound) = fun _ => false := by
  funext v
  simp

theorem unbound_executable (safe : SafeRule catalog preds rule)
    (reach : ∀ lit ∈ rule.body, ReachConst catalog preds lit) (src : Nat → Src) (hoist : Bool)
    {first : Option Nat} (relation : FirstRelation preds rule first) (size : PredId → Option Nat)
    (slots : Nat) {head : List KeyPart} (parts' : ∀ p ∈ head, HeadPart rule p) :
    Executable tables catalog emptyEnv
      (planBody preds catalog own rule
        (sipsOrder rule preds catalog (fun _ => false) first size) (fun _ => false) src hoist
        slots).steps head := by
  have ready := order_ready safe (fun _ => false) relation size
  simp only [start_empty] at ready
  exact planBody_executable own safe reach src slots (fun _ => rfl)
    (sipsOrder_lt _ first size) ready.1 ready.2 (fun _ _ h => h) parts' fun v h => by cases h

theorem bound_executable (safe : SafeRule catalog preds rule)
    (reach : ∀ lit ∈ rule.body, ReachConst catalog preds lit) (src : Nat → Src)
    (bound : Bound) {first : Option Nat} (relation : FirstRelation preds rule first)
    (size : PredId → Option Nat) (slots : Nat) {head : List KeyPart}
    (parts' : ∀ p ∈ head, HeadPart rule p) {env : Env} (covers : Covers bound env) :
    Executable tables catalog env
      (planBody preds catalog own rule (sipsOrder rule preds catalog bound first size)
        (fun v => decide (v < rule.nvars) && bound v) src false slots).steps head := by
  have ready := order_ready safe bound relation size
  refine planBody_executable own safe reach src slots (by simp) (sipsOrder_lt bound first size)
    ready.1 ready.2 (fun _ _ h => h) parts' fun v h => ?_
  simp only [Bool.and_eq_true] at h
  exact covers v h.2

/-- Literals that have run bind nothing more, so leaving them out of an order keeps it. -/
theorem filter_ready {bound : Bound} {order : List Nat} (keep : Nat → Bool)
    (ran : ∀ i ∈ order, keep i = false → ∀ lit, rule.body[i]? = some lit →
      LitBound catalog preds bound lit)
    (ready : OrderReady catalog preds rule.body bound order) :
    OrderReady catalog preds rule.body bound (order.filter keep) ∧
      boundAtEnd rule.body bound (order.filter keep) = boundAtEnd rule.body bound order := by
  induction order generalizing bound with
  | nil => exact ⟨trivial, rfl⟩
  | cons i rest ih =>
    by_cases hk : keep i = true
    · have := ih (fun j hj skip lit hl =>
        (ran j (List.mem_cons_of_mem _ hj) skip lit hl).mono (le_bindAt rule.body bound i)) ready.2
      rw [List.filter_cons_of_pos hk]
      exact ⟨⟨ready.1, this.1⟩, this.2⟩
    · simp only [Bool.not_eq_true] at hk
      have same : bindAt rule.body bound i = bound := by
        unfold bindAt
        split
        · exact bindLiteral_of_bound (ran i List.mem_cons_self hk _ ‹_›)
        · rfl
      have next := ready.2
      rw [same] at next
      have := ih (fun j hj => ran j (List.mem_cons_of_mem _ hj)) next
      rw [List.filter_cons_of_neg (by simp [hk])]
      refine ⟨this.1, ?_⟩
      rw [this.2]
      show _ = boundAtEnd rule.body (bindAt rule.body bound i) rest
      rw [same]

/-- Where all a literal mentions is bound, having been able to run is having run. -/
theorem LitReady.bound_of_mentions {a b : Bound} {lit : CLit}
    (ready : LitReady catalog preds a lit) (all : ∀ v, Mentions lit.terms v → b v = true) :
    LitBound catalog preds b lit := by
  have lift : ∀ t ∈ lit.terms, isBound a t = true → isBound b t = true := by
    intro t mem h
    cases t with
    | var v => exact all v mem
    | wild => exact h
    | const c => rfl
  cases lit with
  | pos p terms =>
    refine ⟨(runnable_iff b p terms).mpr fun c t ht req => ?_, (hasFreeVar_eq_false terms b).mpr all⟩
    exact lift t (List.mem_of_getElem? ht) ((runnable_iff a p terms).mp ready c t ht req)
  | neg p terms => exact (hasFreeVar_eq_false terms b).mpr all
  | cmp op l r =>
    have side : ∀ t ∈ [l, r], (isBound a t = true ∨ t.isVar = true) → isBound b t = true := by
      rintro t mem (h | h)
      · exact lift t mem h
      · cases t with
        | var v => exact all v mem
        | wild => cases h
        | const c => rfl
    rcases ready with ⟨hl, hr⟩ | assign
    · exact ⟨side l (by simp) (.inl hl), side r (by simp) (.inl hr)⟩
    · simp only [assigns, Bool.and_eq_true, Bool.or_eq_true] at assign
      rcases assign.2 with ⟨⟨var, _⟩, other⟩ | ⟨⟨var, _⟩, other⟩
      · exact ⟨side l (by simp) (.inr var), side r (by simp) (.inl other)⟩
      · exact ⟨side l (by simp) (.inl other), side r (by simp) (.inr var)⟩

theorem OrderReady.lit {bound : Bound} {order : List Nat}
    (ready : OrderReady catalog preds rule.body bound order) {i : Nat} (mem : i ∈ order)
    {lit : CLit} (hi : rule.body[i]? = some lit) : ∃ b, LitReady catalog preds b lit := by
  induction order generalizing bound with
  | nil => cases mem
  | cons j rest ih =>
    rcases List.mem_cons.mp mem with rfl | mem
    · exact ⟨bound, ready.1 lit hi⟩
    · exact ih ready.2 mem

theorem hoistVariant_executable (safe : SafeRule catalog preds rule)
    (reach : ∀ lit ∈ rule.body, ReachConst catalog preds lit) (size : PredId → Option Nat)
    (slots : Nat) {order : List Nat} (perm : order.Perm (List.range rule.body.length))
    (ready : OrderReady catalog preds rule.body (fun _ => false) order) {k bind : Nat}
    {step : Step} (composite : Composite tables catalog rule (order.take (k + 1)) (order.drop (k + 1))
      bind step) (r d : Nat) :
    Executable tables catalog emptyEnv
      (hoistVariant preds catalog own rule size slots (order.take (k + 1)) [step] r d).steps
      (headParts rule) := by
  unfold hoistVariant
  simp only
  generalize hfirst : (if d ≠ r ∧ (rule.body[d]?).any (isRelation preds) = true then some d
    else none) = first
  have relation : FirstRelation preds rule first := by
    intro f hf
    subst hfirst
    split at hf
    · cases hf
      rename_i cond
      exact cond.2
    · cases hf
  have members_lt : ∀ v, membersBound rule (order.take (k + 1)) v = true → v < rule.nvars := by
    intro v hv
    obtain ⟨i, _, lit, hi, mem⟩ := (membersBound_iff _ v).mp hv
    exact safe.body_lt lit (List.mem_of_getElem? hi) v mem
  have start : (fun v => decide (v < rule.nvars) && membersBound rule (order.take (k + 1)) v :
      Bound) = membersBound rule (order.take (k + 1)) := by
    funext v
    cases hv : membersBound rule (order.take (k + 1)) v
    · simp
    · simp [members_lt v hv]
  have full := order_ready safe (membersBound rule (order.take (k + 1))) relation size
  simp only [start] at full
  have kept := filter_ready (fun i => !(order.take (k + 1)).contains i) (by
    intro i _ skip lit hi
    simp only [Bool.not_eq_false', List.contains_iff_mem] at skip
    obtain ⟨b, hb⟩ := ready.lit (List.mem_of_mem_take skip) hi
    exact hb.bound_of_mentions fun v hv => (membersBound_iff _ v).mpr ⟨i, skip, lit, hi, hv⟩)
    full.1
  have lead := composite.leads (assign r d) (fun _ => false)
  have rest : ∀ env, Covers (only bind) env → Executable tables catalog env
      (planBody preds catalog own rule
        ((sipsOrder rule preds catalog (membersBound rule (order.take (k + 1))) first size).filter
          fun i => !(order.take (k + 1)).contains i)
        (membersBound rule (order.take (k + 1))) (fun j => assign j d) false slots).steps
      (headParts rule) := by
    intro env covers
    refine planBody_executable own safe reach (fun j => assign j d) slots (by simp) ?_ kept.1 ?_ ?_
      (headParts_headPart rule) covers
    · intro i hi
      exact sipsOrder_lt _ first size i (List.mem_filter.mp hi).1
    · rw [kept.2]
      exact full.2
    · -- What is left to plan stood after the composite in the base order.
      intro v hv hb
      have later : liveAfter rule (order.drop (k + 1)) v = true := by
        rw [liveAfter_iff] at hv ⊢
        refine hv.imp_left fun ⟨i, hi, lit, hl, mem⟩ => ⟨i, ?_, lit, hl, mem⟩
        obtain ⟨_, skip⟩ := List.mem_filter.mp hi
        simp only [Bool.not_eq_true', ← Bool.not_eq_true, List.contains_iff_mem] at skip
        have known : i ∈ order :=
          perm.mem_iff.mpr (List.mem_range.mpr (List.getElem?_eq_some_iff.mp hl).1)
        rw [← List.take_append_drop (k + 1) order] at known
        exact (List.mem_append.mp known).resolve_left skip
      have eq := composite.live v later hb
      simp [only, eq]
  constructor
  · exact NeverDrops.append (lead _ emptyEnv (fun v h => by cases h) fun env covers =>
      (rest env covers).drops)
  · intro s held
    rcases List.mem_append.mp held with held | held
    · obtain ⟨_, one, rfl⟩ := List.mem_map.mp held
      cases List.mem_singleton.mp one
      exact stepGiven_setSrc composite.given _
    · exact (rest (fun _ => some (.int 0)) fun _ _ => rfl).given s held

theorem firstRelation_none (preds : List PredInfo) (rule : CRule) :
    FirstRelation preds rule none := fun f hf => by cases hf

theorem base_inv (safe : SafeRule catalog preds rule)
    (reach : ∀ lit ∈ rule.body, ReachConst catalog preds lit) (size : PredId → Option Nat)
    (slots : Nat) :
    ∃ real, PlanInv tables catalog rule (fun _ => false)
      (sipsOrder rule preds catalog (fun _ => false) none size) []
      (planBody preds catalog own rule (sipsOrder rule preds catalog (fun _ => false) none size)
        (fun _ => false) (fun _ => .all) true slots) real := by
  have ready := order_ready safe (fun _ => false) (firstRelation_none preds rule) size
  simp only [start_empty] at ready
  exact planFrom_inv own safe (fun _ => .all) (fun _ => rfl) ready.1 reach
    (sipsOrder_lt _ none size) (planInv_start slots fun _ _ h => h)

theorem rulePlan_executable (safe : SafeRule catalog preds rule)
    (reach : ∀ lit ∈ rule.body, ReachConst catalog preds lit) (size : PredId → Option Nat)
    (slots : Nat) {variant : Variant}
    (mem : variant ∈ (rulePlan preds catalog own rule size slots).1.variants) :
    Executable tables catalog emptyEnv variant.steps variant.head := by
  have base : Executable tables catalog emptyEnv
      (planBody preds catalog own rule (sipsOrder rule preds catalog (fun _ => false) none size)
        (fun _ => false) (fun _ => .all) true slots).steps (headParts rule) :=
    unbound_executable own safe reach (fun _ => .all) true (firstRelation_none preds rule) size
      slots (headParts_headPart rule)
  unfold rulePlan at mem
  simp only at mem
  split at mem
  · rcases List.mem_cons.mp mem with rfl | mem
    · exact base
    · obtain ⟨d, _, rfl⟩ := List.mem_map.mp mem
      refine unbound_executable own safe reach _ false (fun f hf => ?_) size _
        (headParts_headPart rule)
      split at hf
      · cases hf
        assumption
      · cases hf
  · rename_i k folded
    rcases List.mem_cons.mp mem with rfl | mem
    · exact base
    · obtain ⟨d, _, rfl⟩ := List.mem_map.mp mem
      obtain ⟨_, inv⟩ := @base_inv tables _ _ own _ safe reach size slots
      obtain ⟨step, bind, first, _, composite⟩ := inv.folded k folded
      rw [List.append_nil] at composite
      rw [first]
      have ready := order_ready safe (fun _ => false) (firstRelation_none preds rule) size
      simp only [start_empty] at ready
      exact hoistVariant_executable own safe reach size _
        (sipsOrder_perm catalog preds rule (fun _ => false) none size) ready.1 composite _ d

theorem aggregated_headPart (rule : CRule) :
    ∀ p ∈ (aggregated rule).map KeyPart.var, HeadPart rule p := by
  have sub : ∀ (vs acc : List Nat),
      ∀ v ∈ vs.foldl (fun acc v => if acc.contains v then acc else acc ++ [v]) acc,
        v ∈ acc ∨ v ∈ vs := by
    intro vs
    induction vs with
    | nil => exact fun acc v h => .inl h
    | cons w rest ih =>
      intro acc v h
      rcases ih _ v h with h | h
      · simp only at h
        split at h
        · exact .inl h
        · rcases List.mem_append.mp h with h | h
          · exact .inl h
          · exact .inr (List.mem_singleton.mp h ▸ List.mem_cons_self)
      · exact .inr (List.mem_cons_of_mem _ h)
  intro p hp v hv
  obtain ⟨w, hw, rfl⟩ := List.mem_map.mp hp
  cases hv
  rcases sub _ [] v hw with h | h
  · cases h
  · obtain ⟨agg, ha, hv⟩ := List.mem_flatMap.mp h
    exact .inr ⟨agg, ha, hv⟩

theorem aggregatePlan_executable (safe : SafeRule catalog preds rule)
    (reach : ∀ lit ∈ rule.body, ReachConst catalog preds lit) (size : PredId → Option Nat)
    (slots : Nat) :
    Executable tables catalog emptyEnv (aggregatePlan preds catalog own rule size slots).1.steps
      (aggregatePlan preds catalog own rule size slots).1.head := by
  refine unbound_executable own safe reach _ true (firstRelation_none preds rule) size slots ?_
  intro p hp
  rcases List.mem_append.mp hp with hp | hp
  · exact headParts_headPart rule p hp
  · exact aggregated_headPart rule p hp

end Variants

theorem planRules_executable {rules : List CRule} {size : PredId → Option Nat}
    (safe : ∀ r ∈ rules, SafeRule catalog preds r)
    (reach : ∀ r ∈ rules, ∀ lit ∈ r.body, ReachConst catalog preds lit) {out : StratumPlan}
    (before : ∀ rp ∈ out.rules, ∀ variant ∈ rp.variants,
      Executable tables catalog emptyEnv variant.steps variant.head) :
    ∀ rp ∈ (planRules preds catalog own size rules out).rules, ∀ variant ∈ rp.variants,
      Executable tables catalog emptyEnv variant.steps variant.head := by
  induction rules generalizing out with
  | nil => exact before
  | cons r rest ih =>
    have safe' := fun r hr => safe r (List.mem_cons_of_mem _ hr)
    have reach' := fun r hr => reach r (List.mem_cons_of_mem _ hr)
    have safeR := safe r List.mem_cons_self
    have reachR := reach r List.mem_cons_self
    unfold planRules
    split
    · refine ih safe' reach' fun rp hrp variant mem => ?_
      rcases List.mem_append.mp hrp with hrp | hrp
      · exact before rp hrp variant mem
      · cases List.mem_singleton.mp hrp
        exact rulePlan_executable own safeR reachR _ _ mem
    · refine ih safe' reach' fun rp hrp variant mem => ?_
      rcases List.mem_append.mp hrp with hrp | hrp
      · exact before rp hrp variant mem
      · cases List.mem_singleton.mp hrp
        cases List.mem_singleton.mp mem
        exact aggregatePlan_executable own safeR reachR _ _

end Plans

section Accepted

variable {tables : DomainTables} {attrs : List AttrDecl} {decls : List BuiltinDecl}
variable {program : Program} {synthetic : Bool} {an : Analysis}

theorem analyseWith_reachConst
    (ok : analyseWith program (Catalog.declare tables attrs decls) synthetic = .ok an)
    {r : CRule} (mem : r ∈ an.rules) {lit : CLit} (hl : lit ∈ r.body) :
    ReachConst (Catalog.declare tables attrs decls) an.preds lit := by
  cases lit with
  | neg p terms => trivial
  | cmp op l r => trivial
  | pos p terms =>
    intro b kind isReach c two lt
    have arity := analyseWith_arity ok mem (.inl hl)
    unfold kindOf at kind
    obtain ⟨i, hi, kind⟩ := Option.map_eq_some_iff.mp kind
    have declared := analyseWith_declared ok i (List.mem_of_getElem? hi)
    simp only [DeclaredAs, kind] at declared
    obtain ⟨d, hd, _, cols⟩ := declared
    rw [hi, Option.map_some, Option.some.injEq] at arity
    unfold isReaches at isReach
    simp only [hd, beq_iff_eq] at isReach
    have wf := Catalog.declare_wellFormed tables attrs decls d (List.mem_of_getElem? hd)
    unfold predReq PredInfo.bindReq
    simp only [hi, Option.bind_some, kind, hd]
    exact wf.reaches isReach c two (by omega)

theorem analyseWith_executable
    (ok : analyseWith program (Catalog.declare tables attrs decls) synthetic = .ok an)
    {r : CRule} (mem : r ∈ an.rules) (own : List PredId) (src : Nat → Src) (bound : Bound)
    {first : Option Nat} (relation : FirstRelation an.preds r first)
    (size : PredId → Option Nat) {env : Env} (covers : Covers bound env) :
    Executable tables (Catalog.declare tables attrs decls) env
      (planBody an.preds (Catalog.declare tables attrs decls) own r
        (sipsOrder r an.preds (Catalog.declare tables attrs decls) bound first size)
        (fun v => decide (v < r.nvars) && bound v) src false 0).steps
      (headParts r) :=
  bound_executable own (analyseWith_safeRule ok mem)
    (fun _ hl => analyseWith_reachConst ok mem hl) src bound relation size 0
    (headParts_headPart r) covers

/-- Safety analysis guarantees executable plans. For every rule of an accepted program,
whatever is bound before and whichever relation literal is forced first, the order is a
permutation of the body in which every literal can run when it is reached; its planned
steps, its explain plan, and every variant and aggregate body of every stratum plan read
only bound parts, whatever rows they meet, and give every builtin the arguments it needs. -/
theorem analyse_plans_executable (program : Program) (tables : DomainTables)
    (attrs : List AttrDecl) (decls : List BuiltinDecl) (synthetic : Bool) (an : Analysis)
    (ok : analyseWith program (Catalog.declare tables attrs decls) synthetic = .ok an) :
    (∀ r ∈ an.rules, ∀ (bound : Bound) (first : Option Nat) (size : PredId → Option Nat),
      (sipsOrder r an.preds (Catalog.declare tables attrs decls) bound first size).Perm
        (List.range r.body.length)) ∧
    (∀ r ∈ an.rules, ∀ (bound : Bound) (first : Option Nat) (size : PredId → Option Nat),
      FirstRelation an.preds r first →
      OrderReady (Catalog.declare tables attrs decls) an.preds r.body
          (fun v => decide (v < r.nvars) && bound v)
          (sipsOrder r an.preds (Catalog.declare tables attrs decls) bound first size) ∧
        ∀ (own : List PredId) (src : Nat → Src) (env : Env), Covers bound env →
          Executable tables (Catalog.declare tables attrs decls) env
            (planBody an.preds (Catalog.declare tables attrs decls) own r
              (sipsOrder r an.preds (Catalog.declare tables attrs decls) bound first size)
              (fun v => decide (v < r.nvars) && bound v) src false 0).steps
            (headParts r)) ∧
    (∀ (rule : Nat) (r : CRule) (bound : Bound) (env : Env),
      an.rules.find? (fun r => r.index == rule) = some r → Covers bound env →
      Executable tables (Catalog.declare tables attrs decls) env
        (planBound an (Catalog.declare tables attrs decls) rule bound) (headParts r)) ∧
    ∀ (stratum : Nat) (size : PredId → Option Nat),
      ∀ rp ∈ (planStratum an (Catalog.declare tables attrs decls) stratum size).rules,
        ∀ variant ∈ rp.variants, Executable tables (Catalog.declare tables attrs decls) emptyEnv
          variant.steps variant.head := by
  have safe : ∀ r ∈ an.rules, SafeRule (Catalog.declare tables attrs decls) an.preds r :=
    fun r mem => analyseWith_safeRule ok mem
  have reach : ∀ r ∈ an.rules, ∀ lit ∈ r.body,
      ReachConst (Catalog.declare tables attrs decls) an.preds lit :=
    fun r mem lit hl => analyseWith_reachConst ok mem hl
  refine ⟨fun r _ bound first size => sipsOrder_perm _ an.preds r bound first size, ?_, ?_, ?_⟩
  · intro r mem bound first size relation
    refine ⟨(order_ready (safe r mem) bound relation size).1, fun own src env covers => ?_⟩
    exact analyseWith_executable ok mem own src bound relation size covers
  · intro rule r bound env found covers
    unfold planBound
    simp only [found, sipsOrder_masked]
    exact analyseWith_executable ok (List.mem_of_find?_eq_some found) [] (fun _ => .all) bound
      (firstRelation_none an.preds r) (fun _ => none) covers
  · intro stratum size
    unfold planStratum
    split
    · simp
    · refine planRules_executable _ (fun r mem => safe r (List.mem_filter.mp mem).1)
        (fun r mem => reach r (List.mem_filter.mp mem).1) (by simp)

end Accepted

def closureProgram : Program where
  rules := [
    ⟨⟨"tc", [.term (.var "x"), .term (.var "y")]⟩,
      [.pos ⟨"edge", [.var "x", .var "y", .str "CALLS"]⟩]⟩,
    ⟨⟨"tc", [.term (.var "x"), .term (.var "z")]⟩,
      [.pos ⟨"tc", [.var "x", .var "y"]⟩, .pos ⟨"edge", [.var "y", .var "z", .str "CALLS"]⟩]⟩]

def callTables : DomainTables := ⟨⟨[], [(1, "CALLS")], []⟩, []⟩

def closureAnalysis : Analysis where
  preds := [⟨"tc", 2, .idb, 0, true, false⟩, ⟨"edge", 3, .edb .edge, 0, false, false⟩]
  rules := [
    ⟨0, 0, [.var 0, .var 1], [], [.pos 1 [.var 0, .var 1, .const (.str "CALLS")]], 2, ["x", "y"]⟩,
    ⟨1, 0, [.var 0, .var 1], [],
      [.pos 0 [.var 0, .var 2], .pos 1 [.var 2, .var 1, .const (.str "CALLS")]], 3,
      ["x", "z", "y"]⟩]
  strata := [⟨[0], true, false⟩]

theorem closureProgram_analysed :
    analyse closureProgram (Catalog.declare callTables [] []) = .ok closureAnalysis := by
  decide +kernel

theorem closureProgram_plans_executable :
    analyse closureProgram (Catalog.declare callTables [] []) = .ok closureAnalysis ∧
      ∀ rp ∈ (planStratum closureAnalysis (Catalog.declare callTables [] []) 0
          fun _ => none).rules,
        ∀ variant ∈ rp.variants, Executable callTables (Catalog.declare callTables [] []) emptyEnv
          variant.steps variant.head :=
  ⟨closureProgram_analysed,
    (analyse_plans_executable closureProgram callTables [] [] false closureAnalysis
      closureProgram_analysed).2.2.2 0 fun _ => none⟩

end Glia.Rules
