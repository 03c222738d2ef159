import Glia.Rules.BodyJoin
import Glia.Rules.Endings
import Glia.Rules.PlanFrames
import Glia.Rules.Uncut

/-! A body run of a planned rule, whatever the plan: the loop ends as the walk does, and a
normal end has emitted the join of the rule's literals. -/
namespace Glia.Rules

section Accepted

variable {tables : DomainTables} {attrs : List AttrDecl} {decls : List BuiltinDecl}
variable {program : Program} {an : Analysis}

theorem declare_closure {d : BuiltinDecl} (mem : d ∈ (Catalog.declare tables attrs decls).builtins)
    (closure : d.kind = .reaches ∨ d.kind = .scc) :
    2 ≤ d.cols.length ∧ ∀ c, 2 ≤ c → c < d.cols.length → d.bind[c]? = some .const := by
  rcases Catalog.mem_withBuiltins mem with h | h
  · rw [Catalog.withAttrs_builtins] at h
    simp only [Catalog.core, List.mem_cons, List.not_mem_nil, or_false] at h
    rcases h with rfl | rfl | rfl | rfl | rfl | rfl | rfl | rfl
    all_goals
      refine ⟨by decide, fun c two lt => ?_⟩
      simp only [List.length_cons, List.length_nil] at lt
      first
        | exact absurd closure (by decide)
        | interval_cases c <;> rfl
  · simp only [List.mem_filter, List.mem_map, decide_eq_true_eq] at h
    obtain ⟨⟨e, _, rfl⟩, _⟩ := h
    rcases closure with kind | kind <;> cases kind

theorem analyse_shaped (ok : analyse program (Catalog.declare tables attrs decls) = .ok an)
    {r : CRule} (mem : r ∈ an.rules) {lit : CLit} (hl : lit ∈ r.body) :
    Shaped (Catalog.declare tables attrs decls) an.preds lit := by
  rintro p terms atom
  have used : .pos p terms ∈ r.body ∨ .neg p terms ∈ r.body := by
    rcases atom with rfl | rfl
    · exact .inl hl
    · exact .inr hl
  have arity := analyseWith_arity ok mem used
  refine ⟨arity, fun b kind closure => ?_⟩
  unfold kindOf at kind
  obtain ⟨i, hi, kind⟩ := Option.map_eq_some_iff.mp kind
  have declared := analyseWith_declared ok i (List.mem_of_getElem? hi)
  simp only [DeclaredAs, kind] at declared
  obtain ⟨d, hd, _, cols⟩ := declared
  rw [hi, Option.map_some, Option.some.injEq] at arity
  have walks : d.kind = .reaches ∨ d.kind = .scc := by
    unfold closureSet at closure
    simp only [hd] at closure
    split at closure
    · assumption
    · cases closure
  obtain ⟨two, consts⟩ := declare_closure (List.mem_of_getElem? hd) walks
  refine ⟨by omega, fun c low lt => ?_⟩
  unfold predReq PredInfo.bindReq
  simp only [hi, Option.bind_some, kind, hd]
  exact consts c low (by omega)

end Accepted

/-- What a caller plans: an order of all the literals, each runnable when it is reached, from
what the mode sets before the body. An explain run, which counts nothing, hoists nothing. -/
structure Plannable (catalog : Catalog) (preds : List PredInfo) (rule : CRule) (order : List Nat)
    (start : Bound) (hoist : Bool) (mode : Mode) : Prop where
  whole : order.Perm (List.range rule.body.length)
  ready : OrderReady catalog preds rule.body start order
  bound : ∀ v, start v = true ↔ (bindBound mode.bound v).isSome = true
  counted : hoist = true → (Vis.ofMode mode).count = true

def Outcome.Satisfies (ok stop : ExecState → Prop) (fail : RulesError → Prop) :
    Outcome Unit → Prop
  | .ok t _ => ok t
  | .stop t => stop t
  | .fail e => fail e

def EmitsJust (new : List Binding) (P : Env → Tier → Nat → Prop) : Prop :=
  ∀ σ level height, (∃ b ∈ new, b.vars = σ ∧ b.level = level ∧ b.height = height) ↔ P σ level height

section Plan

variable {catalog : Catalog} {preds : List PredInfo} {own : List PredId} {rule : CRule}
variable {src : Nat → Src}

theorem planFrom_folded {hoist : Bool} {k : Nat} {rest : List Nat} {s : PlanState}
    (folded : s.folded ≠ none) : (planFrom preds catalog own rule src hoist k rest s).folded ≠ none := by
  induction rest generalizing k s with
  | nil => exact folded
  | cons i rest ih =>
    refine ih ?_
    unfold planLit
    split
    · exact folded
    · simp only
      split
      · exact Option.some_ne_none k
      · exact folded

theorem planFrom_unfolded {hoist : Bool} {k : Nat} {rest : List Nat} {s : PlanState}
    (folded : (planFrom preds catalog own rule src hoist k rest s).folded = none) :
    planFrom preds catalog own rule src hoist k rest s =
      planFrom preds catalog own rule src false k rest s := by
  induction rest generalizing k s with
  | nil => rfl
  | cons i rest ih =>
    have same : planLit preds catalog own rule src hoist k i rest s =
        planLit preds catalog own rule src false k i rest s := by
      have later : (planLit preds catalog own rule src hoist k i rest s).folded = none := by
        by_contra no
        exact planFrom_folded no folded
      unfold planLit at later ⊢
      cases hi : rule.body[i]? with
      | none => rfl
      | some lit =>
        simp only [hi] at later ⊢
        split at later
        · cases later
        · rename_i multi
          simp only [Bool.false_and, Bool.false_eq_true, if_false]
    unfold planFrom at folded ⊢
    rw [ih folded, same]

end Plan

theorem stringCall_answers (tiered : Bool) (test : List Char → List Char → Bool) :
    Answers tiered (stringCall test) fun row t =>
      ∃ a b, row = [.str a, .str b] ∧ test a.toList b.toList = true ∧ t = .fact := by
  intro key found h row t agrees
  have two : ∀ x y, key = [some x, some y] → row = [x, y] := by
    rintro x y rfl
    cases agrees with
    | cons hx rest =>
      cases rest with
      | cons hy rest =>
        cases rest
        rw [hx x rfl, hy y rfl]
  unfold stringCall at h
  split at h
  · rename_i a b
    cases h
    obtain rfl := two _ _ rfl
    by_cases passes : test a.toList b.toList = true
    · have one : calledRows tiered 2 [⟨[.str a, .str b], .fact⟩] = [([.str a, .str b], .fact)] := by
        cases tiered <;> rfl
      rw [if_pos passes]
      change _ ∈ calledRows tiered 2 _ ↔ _
      rw [one, List.mem_singleton, Prod.mk.injEq]
      constructor
      · rintro ⟨_, rfl⟩
        exact ⟨a, b, rfl, passes, rfl⟩
      · rintro ⟨_, _, _, _, rfl⟩
        exact ⟨rfl, rfl⟩
    · rw [if_neg passes]
      refine ⟨fun none' => (by cases none'), ?_⟩
      rintro ⟨a', b', eq, passes', _⟩
      cases eq
      exact absurd passes' passes
  · rename_i x y other
    cases h
    obtain rfl := two _ _ rfl
    refine ⟨fun none' => (by cases none'), ?_⟩
    rintro ⟨a, b, eq, _, _⟩
    cases eq
    exact (other a b rfl rfl).elim
  · cases h
  · cases h
  · cases h

section Run

variable {ctx : Ctx} {catalog : Catalog} {preds : List PredInfo} {rule : CRule}
variable {rowsOf : Nat → Row → Tier → Prop}

theorem coherent_fresh (hs : List Hoist) (s : ExecState) (untripped : s.budget.tripped = none)
    (closure : s.closure = Closure.new) (memo : s.memo = Memo.new) (multi : s.multi = fun _ => none) :
    Coherent ctx hs (fun _ => none) s where
  untripped := untripped
  closure := closure ▸ Closure.Coherent.new
  memo b key rows found := by
    rw [memo] at found
    cases found
  multi h _ m held := by
    rw [multi] at held
    cases held
  seeds h _ m held := by
    rw [multi] at held
    cases held
  all k rows _ cats depth at' := by cases at'

theorem bound_of_counted {mode : Mode} (count : (Vis.ofMode mode).count = true) :
    bindBound mode.bound = emptyEnv := by
  cases mode with
  | eval level first => rfl
  | fold => rfl
  | explain level maxHeight bound => cases count

theorem hoists_orderSteps (lent : Lent ctx preds rowsOf)
    (shaped : ∀ lit ∈ rule.body, Shaped catalog preds lit) (src : Nat → Src) (bound : Bound)
    (order : List Nat) : hoists (orderSteps catalog preds rule.body src bound order) = [] := by
  induction order generalizing bound with
  | nil => rfl
  | cons i rest ih =>
    unfold orderSteps
    split
    · exact ih bound
    · rename_i lit hi
      rw [hoists_append, ih]
      cases hstep : litStep preds catalog lit bound (src i) with
      | none => rfl
      | some step =>
        have none' := (litStep_sound lent (shaped lit (List.mem_of_getElem? hi)) hstep).2.2
        rw [Option.toList_some, hoists, none', hoists, List.append_nil, List.append_nil]

def keptHeights (multi : Nat → Option MultiState) (slot : Nat) : Nat :=
  match multi slot with
  | some m => m.height
  | none => 0

theorem agrees_kept (multi : Nat → Option MultiState) : Agrees (keptHeights multi) multi := by
  intro slot m held
  simp [keptHeights, held]

theorem planned_emits (tiers : ctx.tiers = edgeTiers ctx.src) (lent : Lent ctx preds rowsOf)
    (safe : SafeRule catalog preds rule) (shaped : ∀ lit ∈ rule.body, Shaped catalog preds lit)
    (own : List PredId) {order : List Nat} {start : Bound} (src : Nat → Src) {hoist : Bool}
    (slots : Nat) {mode : Mode} (plan : Plannable catalog preds rule order start hoist mode)
    {what : Nat → Option (CatSet × Option Nat)} {s t : ExecState} {a : Unit}
    (coherent : Coherent ctx
      (hoists (planBody preds catalog own rule order start src hoist slots).steps) what s)
    (run : runBody ctx (planBody preds catalog own rule order start src hoist slots).steps mode s =
      .ok t a) :
    Coherent ctx (hoists (planBody preds catalog own rule order start src hoist slots).steps) what t ∧
      ∃ new, t.out = s.out ++ new ∧
        ((planBody preds catalog own rule order start src hoist slots).folded = none →
          EmitsJust new (Joined ctx catalog preds rowsOf (Vis.ofMode mode) src rule.body
            (List.range rule.body.length) (bindBound mode.bound) .fact 0)) ∧
        (hoist = true → ∀ heights, Agrees heights t.multi →
          EmitsJust new (planJoin ctx catalog preds rowsOf heights own rule src hoist 0 order
            ⟨start, [], none, true, slots⟩ Found.start (Vis.ofMode mode))) := by
  have known : ∀ i ∈ order, i < rule.body.length := fun i mem =>
    List.mem_range.mp (plan.whole.mem_iff.mp mem)
  have fit : Fit ctx start (planBody preds catalog own rule order start src hoist slots) :=
    Fit.planFrom lent own src hoist plan.ready shaped known (fit_start start slots)
  have steps : ∀ hoist', (planBody preds catalog own rule order start src hoist' slots).folded = none →
      (planBody preds catalog own rule order start src hoist' slots).steps =
        orderSteps catalog preds rule.body src start order := fun hoist' folded => by
    unfold planBody at folded ⊢
    rw [planFrom_unfolded folded, planFrom_steps, List.nil_append]
  have count : hoists (planBody preds catalog own rule order start src hoist slots).steps = [] ∨
      (Vis.ofMode mode).count = true := by
    cases hoist with
    | true => exact .inr (plan.counted rfl)
    | false =>
      unfold planBody
      rw [planFrom_steps, List.nil_append]
      exact .inl (hoists_orderSteps lent shaped src start order)
  obtain ⟨emits, tells⟩ := @runBody_emits ctx _ what tiers fit.nested _ mode count fun h mem => mem
  obtain ⟨coherent', _, new, out, emitted⟩ := emits s t a coherent run
  have leads : ∀ heights, Agrees heights t.multi → ∀ σ level height,
      (∃ b ∈ new, b.vars = σ ∧ b.level = level ∧ b.height = height) ↔
        Leads ctx heights (Vis.ofMode mode) 0 (Binding.start (bindBound mode.bound))
          (planBody preds catalog own rule order start src hoist slots).steps σ level height :=
    fun heights agrees σ level height => exists_congr fun b => and_congr_left' (emitted heights agrees b)
  refine ⟨coherent', new, out, fun folded σ level height => ?_, fun hoists heights agrees σ level height => ?_⟩
  · have agrees := agrees_kept t.multi
    have runsOk := tells s t a coherent run _ agrees
    rw [leads _ agrees, steps hoist folded]
    rw [steps hoist folded] at runsOk
    rw [leads_order lent plan.ready (fun i _ lit hi => shaped lit (List.mem_of_getElem? hi)) known
      (fun v _ => plan.bound v) runsOk]
    exact ⟨joined_perm plan.whole, joined_perm plan.whole.symm⟩
  · have counted := plan.counted hoists
    have nothing := bound_of_counted counted
    have empty : start = fun _ => false := by
      funext v
      refine Bool.eq_false_iff.mpr fun set => ?_
      have := (plan.bound v).mp set
      rw [nothing] at this
      cases this
    have runsOk := tells s t a coherent run heights agrees
    rw [leads heights agrees, nothing]
    rw [nothing] at runsOk
    subst empty
    exact (planFrom_found safe lent hoist plan.ready shaped known
      (foundInv_start rule order slots)).leads _ counted runsOk σ level height

end Run

/-- One body run computes the join, whatever the plan. For every rule of an accepted program,
every order of its literals in which each can run when it is reached, every content of the
relations and every coherent state: the loop ends, and as the walk does; it stops early only
with the budget tripped (uncounted, only over a closure past `usize`) and fails only with a
builtin; and a normal end has emitted, where nothing is hoisted, exactly the substitutions
under which every literal holds, each at the weakest level and the highest height of its
rows, which no order of the literals changes; where a composite is hoisted, exactly the join
in which the composite's nodes stand for the literals folded into it. -/
theorem body_run_joins (program : Program) (tables : DomainTables) (attrs : List AttrDecl)
    (decls : List BuiltinDecl) (an : Analysis)
    (ok : analyse program (Catalog.declare tables attrs decls) = .ok an) (rule : CRule)
    (mem : rule ∈ an.rules) (ctx : Ctx) (rowsOf : Nat → Row → Tier → Prop)
    (lent : Lent ctx an.preds rowsOf) (tiers : ctx.tiers = edgeTiers ctx.src)
    (own : List PredId) (order : List Nat) (start : Bound) (src : Nat → Src) (hoist : Bool)
    (slots : Nat) (mode : Mode)
    (plan : Plannable (Catalog.declare tables attrs decls) an.preds rule order start hoist mode)
    (s : ExecState)
    (coherent : Coherent ctx
      (hoists (planBody an.preds (Catalog.declare tables attrs decls) own rule order start src hoist
        slots).steps) (fun _ => none) s) :
    let catalog := Catalog.declare tables attrs decls
    let planned := planBody an.preds catalog own rule order start src hoist slots
    (∃ n, ∀ fuel, n ≤ fuel →
      loopBody ctx fuel planned.steps mode s = some (runBody ctx planned.steps mode s)) ∧
    (runBody ctx planned.steps mode s).Satisfies
      (fun t => Coherent ctx (hoists planned.steps) (fun _ => none) t ∧
        ∃ new, t.out = s.out ++ new ∧
          (planned.folded = none →
            EmitsJust new (Joined ctx catalog an.preds rowsOf (Vis.ofMode mode) src rule.body
              (List.range rule.body.length) (bindBound mode.bound) .fact 0)) ∧
          (hoist = true → ∀ heights, Agrees heights t.multi →
            EmitsJust new (planJoin ctx catalog an.preds rowsOf heights own rule src hoist 0 order
              ⟨start, [], none, true, slots⟩ Found.start (Vis.ofMode mode))))
      (fun t => if (Vis.ofMode mode).count then t.budget.tripped ≠ none else Overfull ctx)
      (fun e => ∃ name message, e = .builtin name message ∧ BuiltinFails ctx message) := by
  intro catalog planned
  have shaped : ∀ lit ∈ rule.body, Shaped catalog an.preds lit := fun lit hl =>
    analyse_shaped ok mem hl
  have fit : Fit ctx start planned :=
    Fit.planFrom lent own src hoist plan.ready shaped
      (fun i mem => List.mem_range.mp (plan.whole.mem_iff.mp mem)) (fit_start start slots)
  refine ⟨loopBody_runBody fit.sound (fun v => (plan.bound v).mpr) s, ?_⟩
  have settles : Settled ctx _ (runBody ctx planned.steps mode s) :=
    settles_runBody planned.steps mode s
  cases run : runBody ctx planned.steps mode s with
  | ok t a =>
    exact planned_emits tiers lent (analyseWith_safeRule ok mem) shaped own src slots plan coherent
      run
  | stop t =>
    rw [run] at settles
    by_cases count : (Vis.ofMode mode).count = true
    · refine (if_pos count).mpr ?_
      exact runBody_stop_tripped ctx planned.steps mode count run
    · refine (if_neg count).mpr ?_
      exact settles.resolve_left count
  | fail e =>
    rw [run] at settles
    exact settles

def farProgram : Program where
  rules := [
    ⟨⟨"far", [.term (.var "y")]⟩,
      [.pos ⟨"edge", [.var "x", .wild, .str "CALLS"]⟩,
        .pos ⟨"reaches", [.var "x", .var "y", .str "CALLS"]⟩]⟩]

def farRule : CRule :=
  ⟨0, 0, [.var 0], [],
    [.pos 1 [.var 1, .wild, .const (.str "CALLS")], .pos 2 [.var 1, .var 0, .const (.catSet (.of [1]))]],
    2, ["y", "x"]⟩

def farAnalysis : Analysis where
  preds := [⟨"far", 1, .idb, 0, false, false⟩, ⟨"edge", 3, .edb .edge, 0, false, false⟩,
    ⟨"reaches", 3, .builtin 1, 0, false, false⟩]
  rules := [farRule]
  strata := [⟨[0], false, false⟩]

def farState : EvalState :=
  loadAll callSource (declare callSource) farAnalysis (emptyState farAnalysis 100)

def farCtx : Ctx := ctxOf callSource (declare callSource) (edgeTiers callSource) farState

theorem farProgram_analysed :
    analyse farProgram (Catalog.declare callTables [] []) = .ok farAnalysis := by
  decide +kernel

def stringTest : Nat → Option (List Char → List Char → Bool)
  | 5 => some fun s p => p.isPrefixOf s
  | 6 => some fun s p => p.isSuffixOf s
  | 7 => some fun s p => s.tails.any fun t => p.isPrefixOf t
  | _ => none

def stringRows (n : Nat) (row : Row) (t : Tier) : Prop :=
  ∃ test, stringTest n = some test ∧
    ∃ a b, row = [.str a, .str b] ∧ test a.toList b.toList = true ∧ t = .fact

theorem farCtx_lent : Lent farCtx farAnalysis.preds stringRows where
  rels p i rel hi hr := by
    have wide : ∀ p < 3, ∀ i ∈ farAnalysis.preds[p]?, ∀ rel ∈ farCtx.rels[p]?,
        (∀ e ∈ rel.rows, e.row.length = i.arity) ∧ ∀ c ∈ rel.copies, c.row.length = i.arity := by
      decide +kernel
    obtain ⟨lt, _⟩ := List.getElem?_eq_some_iff.mp hi
    exact wide p lt i hi rel hr
  pairs e mem := by
    have none' : farCtx.scc = [] := by decide +kernel
    rw [none'] at mem
    cases mem
  answers b imp known := by
    have impls : farCtx.impls = (List.range 8).map fun n => (stringTest n).map stringCall := rfl
    rw [impls, List.getElem?_map] at known
    obtain ⟨test, at', rfl⟩ : ∃ test, stringTest b = some test ∧ stringCall test = imp := by
      cases hb : (List.range 8)[b]? with
      | none =>
        rw [hb] at known
        cases known
      | some n =>
        obtain ⟨lt, rfl⟩ := List.getElem?_eq_some_iff.mp hb
        rw [hb] at known
        simpa using known
    have rows : stringRows b = fun row t =>
        ∃ a b, row = [.str a, .str b] ∧ test a.toList b.toList = true ∧ t = .fact := by
      funext row t
      simp [stringRows, at']
    rw [rows]
    exact stringCall_answers _ test

abbrev farPlan (order : List Nat) : PlanState :=
  planBody farAnalysis.preds (Catalog.declare callTables [] []) [0] farRule order (fun _ => false)
    (fun _ => .all) true 0

def told (n : Nat) : Outcome Unit → List (List (Option Value) × Tier × Nat)
  | .ok t _ => t.out.map fun b => ((List.range n).map b.vars, b.level, b.height)
  | .stop _ => []
  | .fail _ => []

abbrev farTold (order : List Nat) : List (List (Option Value) × Tier × Nat) :=
  told 2 (runBody farCtx (farPlan order).steps (.eval .derived true) farState.exec)


theorem farPlan_plannable {order : List Nat} (either : order = [0, 1] ∨ order = [1, 0]) :
    Plannable (Catalog.declare callTables [] []) farAnalysis.preds farRule order (fun _ => false) true
      (.eval .derived true) where
  whole := by rcases either with rfl | rfl <;> decide
  ready := by
    rcases either with rfl | rfl <;>
      refine ⟨fun lit hi => ?_, fun lit hi => ?_, trivial⟩ <;>
      (cases hi; exact show _ = true by decide +kernel)
  bound v := by simp [Mode.bound, bindBound, emptyEnv]
  counted _ := rfl

/-- Where a composite is hoisted the bindings emitted are not those of the other order: the
folded seeds are not in them. -/
theorem hoisted_body_leaves_seeds_out :
    analyse farProgram (Catalog.declare callTables [] []) = .ok farAnalysis ∧
    ¬ ∀ order order' : List Nat,
      Plannable (Catalog.declare callTables [] []) farAnalysis.preds farRule order (fun _ => false)
        true (.eval .derived true) →
      Plannable (Catalog.declare callTables [] []) farAnalysis.preds farRule order' (fun _ => false)
        true (.eval .derived true) →
      ∀ b, b ∈ farTold order ↔ b ∈ farTold order' := by
  refine ⟨farProgram_analysed, fun same => ?_⟩
  have hoisted := same [0, 1] [1, 0] (farPlan_plannable (.inl rfl)) (farPlan_plannable (.inr rfl))
    ([some (.node 1), none], .derived, 0)
  have one : ([some (.node 1), none], .derived, 0) ∈ farTold [0, 1] := by decide +kernel
  have other : ([some (.node 1), none], .derived, 0) ∉ farTold [1, 0] := by decide +kernel
  exact other (hoisted.mp one)

theorem told_ends {n : Nat} {r : Outcome Unit} {ok stop : ExecState → Prop}
    {fail : RulesError → Prop} (ends : r.Satisfies ok stop fail) (some' : told n r ≠ []) :
    ∃ t, r = .ok t () ∧ ok t := by
  cases r with
  | ok t a => exact ⟨t, rfl, ends⟩
  | stop t => exact absurd rfl some'
  | fail e => exact absurd rfl some'

theorem farPlan_run_joins :
    (∃ n, ∀ fuel, n ≤ fuel →
      loopBody farCtx fuel (farPlan [1, 0]).steps (.eval .derived true) farState.exec =
        some (runBody farCtx (farPlan [1, 0]).steps (.eval .derived true) farState.exec)) ∧
    ∃ t new, runBody farCtx (farPlan [1, 0]).steps (.eval .derived true) farState.exec = .ok t () ∧
      t.out = farState.exec.out ++ new ∧
      EmitsJust new (Joined farCtx (Catalog.declare callTables [] []) farAnalysis.preds stringRows
        (Vis.ofMode (.eval .derived true)) (fun _ => .all) farRule.body
        (List.range farRule.body.length) (bindBound []) .fact 0) := by
  have whole : ∀ order, order = [0, 1] ∨ order = [1, 0] → farTold order ≠ [] →
      (farPlan order).folded = none →
      (∃ n, ∀ fuel, n ≤ fuel →
        loopBody farCtx fuel (farPlan order).steps (.eval .derived true) farState.exec =
          some (runBody farCtx (farPlan order).steps (.eval .derived true) farState.exec)) ∧
      ∃ t new, runBody farCtx (farPlan order).steps (.eval .derived true) farState.exec = .ok t () ∧
        t.out = farState.exec.out ++ new ∧
        EmitsJust new (Joined farCtx (Catalog.declare callTables [] []) farAnalysis.preds stringRows
          (Vis.ofMode (.eval .derived true)) (fun _ => .all) farRule.body
          (List.range farRule.body.length) (bindBound []) .fact 0) := by
    intro order either emitted folded
    have joins := body_run_joins farProgram callTables [] [] farAnalysis farProgram_analysed farRule
      (by simp [farAnalysis]) farCtx stringRows farCtx_lent rfl [0] order (fun _ => false)
      (fun _ => .all) true 0 (.eval .derived true) (farPlan_plannable either) farState.exec
      (coherent_fresh _ _ rfl rfl rfl rfl)
    obtain ⟨t, ran, _, new, out, unfolded, _⟩ := told_ends joins.2 emitted
    exact ⟨joins.1, t, new, ran, out, unfolded folded⟩
  exact whole [1, 0] (.inr rfl) (by decide +kernel) (by decide +kernel)

end Glia.Rules
