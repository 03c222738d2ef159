import Glia.Rules.Facts
import Glia.Rules.HoistJoin

/-! What a composite stands for: the literals folded into it, whose bindings tell nothing later
but the end it binds. -/
namespace Glia.Rules

section Envs

variable {A B : List CTerm} {bind : Nat} {y : Value} {σ σm σa : Env}

def bound1 (v : Nat) (x : Value) : Env := Function.update emptyEnv v (some x)

@[simp] theorem bound1_self (v : Nat) (x : Value) : bound1 v x v = some x := by
  simp [bound1]

theorem bound1_of_ne {v w : Nat} (ne : w ≠ v) (x : Value) : bound1 v x w = none := by
  simp [bound1, Function.update_of_ne ne, emptyEnv]

theorem grows_merge (first : Grows emptyEnv A σm) (second : Grows (bound1 bind y) B σ)
    (shared : σm bind = some y) (only : ∀ v, Mentions B v → Mentions A v → v = bind) :
    ∃ σa, Grows emptyEnv (A ++ B) σa ∧ (∀ v, Mentions A v → σa v = σm v) ∧
      ∀ v, (Mentions A v → v = bind) → σa v = σ v := by
  classical
  have same (v : Nat) (mem : Mentions A v) (free : Mentions A v → v = bind) : σm v = σ v := by
    rw [free mem, shared, second.keeps bind (by simp), bound1_self]
  have unset (v : Nat) (no : ¬ Mentions A v) : v ≠ bind := by
    intro eq
    subst eq
    have none' := first.rest v no
    rw [shared] at none'
    cases none'
  refine ⟨fun v => if Mentions A v then σm v else σ v, ⟨fun v mem => ?_, fun v set => ?_,
    fun v no => ?_⟩, fun v mem => if_pos mem, fun v free => ?_⟩
  · by_cases inA : Mentions A v
    · rw [if_pos inA]
      exact first.binds v inA
    · rw [if_neg inA]
      exact second.binds v ((mentions_append.mp mem).resolve_left inA)
  · cases set
  · have noA : ¬ Mentions A v := fun mem => no (mentions_append.mpr (.inl mem))
    rw [if_neg noA, second.rest v fun mem => no (mentions_append.mpr (.inr mem)),
      bound1_of_ne (unset v noA)]
    rfl
  · by_cases inA : Mentions A v
    · exact (if_pos inA).trans (same v inA free)
    · exact if_neg inA

/-- A substitution splits at the one variable two lists of terms share. -/
theorem grows_split (whole : Grows emptyEnv (A ++ B) σa) (value : σa bind = some y)
    (only : ∀ v, Mentions B v → Mentions A v → v = bind) :
    (∃ σm, Grows emptyEnv A σm ∧ ∀ v, Mentions A v → σm v = σa v) ∧
      ∃ σ, Grows (bound1 bind y) B σ ∧ ∀ v, (Mentions A v → v = bind) → σ v = σa v := by
  classical
  constructor
  · refine ⟨fun v => if Mentions A v then σa v else none, ⟨fun v mem => ?_, fun v set => ?_,
      fun v no => if_neg no⟩, fun v mem => if_pos mem⟩
    · rw [if_pos mem]
      exact whole.binds v (mentions_append.mpr (.inl mem))
    · cases set
  · refine ⟨fun v => if Mentions B v then σa v else bound1 bind y v, ⟨fun v mem => ?_,
      fun v set => ?_, fun v no => if_neg no⟩, fun v free => ?_⟩
    · rw [if_pos mem]
      exact whole.binds v (mentions_append.mpr (.inr mem))
    · have eq : v = bind := by
        by_contra ne
        rw [bound1_of_ne ne] at set
        cases set
      subst eq
      simp only [bound1_self, value, ite_self]
    · by_cases inB : Mentions B v
      · exact if_pos inB
      · refine (if_neg inB).trans ?_
        by_cases eq : v = bind
        · rw [eq, bound1_self, value]
        · rw [bound1_of_ne eq]
          refine (whole.rest v fun mem => ?_).symm
          exact (mentions_append.mp mem).elim (fun inA => eq (free inA)) inB

end Envs

section Least

theorem isLeast_below {S : Set Tier} (up : IsUpperSet S) (b : Tier) :
    (∃ t ≤ b, IsLeast S t) ↔ b ∈ S := by
  constructor
  · rintro ⟨t, low, least⟩
    exact up low least.1
  · intro mem
    obtain ⟨t, least⟩ := exists_isLeast_tier (up (Tier.le_heuristic b) mem)
    exact ⟨t, least.2 mem, least⟩

theorem walk_isUpperSet (src : FactSource) (cats : CatSet) (depth : Option Nat) (x y : NodeId) :
    IsUpperSet {level | Reaches src cats depth level x y} := fun _ _ le h => h.mono le

end Least

def Hoist.step (h : Hoist) (bind : Nat) (src : Src) : Step :=
  .reachMulti h.slot h.cats h.depth h.seed h.seedVar h.backward bind src

/-- The rows of a hoisted reach, over the bindings its seed leads to. -/
def Hoist.Row (h : Hoist) (ctx : Ctx) (heights : Nat → Nat) (y : NodeId) (t : Tier) : Prop :=
  MultiRow ctx h.cats h.depth h.seedVar h.backward
    (fun b => Runs ctx heights (Vis.complete true) 0 (Binding.start emptyEnv) h.seed b) y t

namespace Setting

section Bounds

variable {S : Setting} {rule : CRule}

theorem boundAtEnd_append (body : List CLit) (bound : Bound) (order more : List Nat) :
    boundAtEnd body bound (order ++ more) = boundAtEnd body (boundAtEnd body bound order) more :=
  List.foldl_append

theorem boundAtEnd_iff {bound : Bound} {order : List Nat}
    (ready : S.Ready rule bound order) (v : Nat) :
    boundAtEnd rule.body bound order v = true ↔
      bound v = true ∨ Mentions (orderTerms rule.body order) v := by
  induction order generalizing bound with
  | nil => simp [boundAtEnd, orderTerms, Mentions]
  | cons i rest ih =>
    have step : bindAt rule.body bound i v = true ↔
        bound v = true ∨ Mentions (orderTerms rule.body [i]) v := by
      unfold bindAt orderTerms
      cases here : rule.body[i]? with
      | none => simp [here, Mentions]
      | some lit => simp [here, bindLiteral_iff (ready.1 lit here)]
    have split : orderTerms rule.body (i :: rest) =
        orderTerms rule.body [i] ++ orderTerms rule.body rest := by simp [orderTerms]
    rw [boundAtEnd, List.foldl_cons, ← boundAtEnd, ih ready.2, step, split, mentions_append,
      or_assoc]

theorem orderReady_append {bound : Bound} {order more : List Nat} :
    S.Ready rule bound (order ++ more) ↔
      S.Ready rule bound order ∧
        S.Ready rule (boundAtEnd rule.body bound order) more := by
  induction order generalizing bound with
  | nil => simp [OrderReady, boundAtEnd]
  | cons i rest ih =>
    have rest : OrderReady _ _ _ _ _ ↔ _ := @ih (bindAt rule.body bound i)
    rw [List.cons_append, Ready, OrderReady, rest, Ready, OrderReady, and_assoc]
    rfl

theorem orderTerms_append (body : List CLit) (order more : List Nat) :
    orderTerms body (order ++ more) = orderTerms body order ++ orderTerms body more :=
  List.flatMap_append

theorem orderSteps_append {srcs : Nat → Src} {bound : Bound} {order more : List Nat}
    (ready : S.Ready rule bound order) :
    S.steps rule srcs bound (order ++ more) =
      S.steps rule srcs bound order ++
        S.steps rule srcs (boundAtEnd rule.body bound order) more := by
  unfold Setting.steps at *
  induction order generalizing bound with
  | nil => rfl
  | cons i rest ih =>
    have later := ready.2
    rw [List.cons_append, orderSteps, orderSteps, boundAtEnd, List.foldl_cons, ← boundAtEnd]
    cases here : rule.body[i]? with
    | none =>
      have same : bindAt rule.body bound i = bound := by simp [bindAt, here]
      rw [same] at later ⊢
      exact ih later
    | some lit =>
      have same : bindAt rule.body bound i = bindLiteral bound lit := by simp [bindAt, here]
      rw [same] at later ⊢
      simp only [boundAfter_eq (ready.1 lit here), ih later, List.append_assoc]

end Bounds

section Stands

variable (S : Setting) (s : EvalState) (heights : Nat → Nat) (rule : CRule)

structure Fit : Prop where
  safe : SafeRule S.catalog S.preds rule
  shaped : ∀ lit ∈ rule.body, Shaped S.catalog S.preds lit

abbrev Ok (vis : Vis) (steps : List Step) := RunsOk (S.ctx s) heights vis 0 (Binding.start emptyEnv) steps

def LeadsBelow (vis : Vis) (steps : List Step) (b : Tier) (σ : Env) : Prop :=
  ∃ l ≤ b, ∃ n, Leads (S.ctx s) heights vis 0 (Binding.start emptyEnv) steps σ l n

/-- Under `σ` the literals `members` hold over complete input, by rows of tier at most `b`. -/
def MembersHold (b : Tier) (members : List Nat) (σ : Env) : Prop :=
  Grows emptyEnv (orderTerms rule.body members) σ ∧
    S.AllHold s b (Vis.complete true) (fun _ => .all) rule σ members

abbrev Binds (members : List Nat) (bind : Nat) (b : Tier) (y : NodeId) : Prop :=
  ∃ σ, S.MembersHold s rule b members σ ∧ σ bind = some (.node y)

structure Stands (members : List Nat) (h : Hoist) (bind : Nat) : Prop where
  rows : ∀ heights, S.Ok s heights (Vis.complete true) h.seed →
    ∀ b y, (∃ t ≤ b, h.Row (S.ctx s) heights y t) ↔ S.Binds s rule members bind b y
  node : ∀ b σ, S.MembersHold s rule b members σ →
    ∃ y, σ bind = some (.node y)

variable {S : Setting} {s : EvalState} {heights : Nat → Nat} {rule : CRule} {vis : Vis} {h : Hoist}
variable {bind : Nat} {srcs : Nat → Src} {src : Src} {b : Tier} {σ : Env} {later members : List Nat}

theorem order_below (sane : S.Sane s) (fit : S.Fit rule)
    (ready : S.Ready rule (fun _ => false) later)
    (known : ∀ i ∈ later, i < rule.body.length)
    (ok : S.Ok s heights vis (S.steps rule srcs (fun _ => false) later)) :
    S.LeadsBelow s heights vis (S.steps rule srcs (fun _ => false) later) b σ ↔
      Grows emptyEnv (orderTerms rule.body later) σ ∧
        S.AllHold s b vis srcs rule σ later := by
  unfold LeadsBelow
  simp only [leads_order sane.lent ready (fun i _ lit here => fit.shaped lit (List.mem_of_getElem? here)) known
    (fun v _ => by simp [Binding.start, emptyEnv]) ok]
  rw [joined_below]
  exact and_iff_right (Tier.fact_le b)

/-- A composite and an order's steps behind it lead to the substitutions that give its end a
node it reaches and under which the order's literals hold. -/
theorem behind_below (sane : S.Sane s) (fit : S.Fit rule)
    (counts : vis.count = true)
    {start : Bound} (ready : S.Ready rule start later)
    (known : ∀ i ∈ later, i < rule.body.length)
    (starts : ∀ v, Mentions (orderTerms rule.body later) v → (start v = true ↔ v = bind))
    (ok : S.Ok s heights vis (h.step bind src :: S.steps rule srcs start later)) :
    S.LeadsBelow s heights vis (h.step bind src :: S.steps rule srcs start later)
        b σ ↔
      ∃ y, ∃ t ≤ b, vis.admits src t = true ∧ h.Row (S.ctx s) heights y t ∧
        Grows (bound1 bind (.node y)) (orderTerms rule.body later) σ ∧
        S.AllHold s b vis srcs rule σ later := by
  simp only [RunsOk] at ok
  have alt (a : Alt) : IsAlt (S.ctx s) heights vis (Binding.start emptyEnv).vars (h.step bind src) a ↔
      ∃ y, a = ⟨[.node y], a.tier, ⟨heights h.slot, edbRule⟩, noOrdinal⟩ ∧
        vis.admits src a.tier = true ∧ h.Row (S.ctx s) heights y a.tier := by
    unfold Hoist.step Hoist.Row
    simp only [IsAlt, counts]
  have behind (y : NodeId) (t : Tier)
      (isAlt : IsAlt (S.ctx s) heights vis (Binding.start emptyEnv).vars (h.step bind src)
        ⟨[.node y], t, ⟨heights h.slot, edbRule⟩, noOrdinal⟩) (l : Tier) (n : Nat) :
      Leads (S.ctx s) heights vis (0 + 1) ((Binding.start emptyEnv).take vis 0 (h.step bind src)
          ⟨[.node y], t, ⟨heights h.slot, edbRule⟩, noOrdinal⟩)
          (S.steps rule srcs start later) σ l n ↔
        Joined (S.ctx s) S.catalog S.preds S.rowsOf vis srcs rule.body later (bound1 bind (.node y)) t
          (heights h.slot) σ l n := by
    have agree (v : Nat) (mem : Mentions (orderTerms rule.body later) v) :
        start v = true ↔ (bound1 bind (.node y) v).isSome = true := by
      rw [starts v mem]
      constructor
      · intro eq
        rw [eq, bound1_self]
        rfl
      · intro set
        by_contra ne
        rw [bound1_of_ne ne] at set
        cases set
    have take : (Binding.start emptyEnv).take vis 0 (h.step bind src)
        ⟨[.node y], t, ⟨heights h.slot, edbRule⟩, noOrdinal⟩ =
        ⟨bound1 bind (.node y), t, heights h.slot,
          ((Binding.start emptyEnv).take vis 0 (h.step bind src)
            ⟨[.node y], t, ⟨heights h.slot, edbRule⟩, noOrdinal⟩).lits⟩ := by
      unfold Binding.take
      congr 1
    have more := ok.2 _ isAlt
    rw [take] at more ⊢
    exact leads_order sane.lent ready (fun i _ lit here => fit.shaped lit (List.mem_of_getElem? here)) known
      agree more σ l n
  unfold LeadsBelow
  constructor
  · rintro ⟨l, low, n, leads⟩
    obtain ⟨a, isAlt, leads⟩ := (leads_cons _ _ _ _ _ _ _).mp leads
    obtain ⟨y, eq, admits, row⟩ := (alt a).mp isAlt
    rw [eq] at isAlt leads
    obtain ⟨le, grows, holds⟩ := joined_below.mp ⟨l, low, n, (behind y a.tier isAlt l n).mp leads⟩
    exact ⟨y, a.tier, le, admits, row, grows, holds⟩
  · rintro ⟨y, t, le, admits, row, grows, holds⟩
    have isAlt := (alt ⟨[.node y], t, ⟨heights h.slot, edbRule⟩, noOrdinal⟩).mpr
      ⟨y, rfl, admits, row⟩
    obtain ⟨l, low, n, joined⟩ : ∃ l ≤ b, ∃ n, Joined (S.ctx s) S.catalog S.preds S.rowsOf vis srcs rule.body later
        (bound1 bind (.node y)) t (heights h.slot) σ l n := joined_below.mpr ⟨le, grows, holds⟩
    exact ⟨l, low, n, (leads_cons _ _ _ _ _ _ _).mpr ⟨_, isAlt, (behind y t isAlt l n).mpr joined⟩⟩

end Stands

section Built

variable (S : Setting) (s : EvalState) (rule : CRule)

structure Behind (members rest : List Nat) (h : Hoist) (bind : Nat) : Prop where
  stands : S.Stands s rule members h bind
  mentioned : Mentions (orderTerms rule.body members) bind
  live : ∀ v, liveAfter rule rest v = true → Mentions (orderTerms rule.body members) v → v = bind

/-- The literal reads no relation of the stratum. -/
def Foreign (own : List PredId) (i : Nat) : Prop :=
  ∀ p terms, rule.body[i]? = some (.pos p terms) → p ∉ own

structure Built (own : List PredId) (done rest : List Nat) (q : PlanState) : Prop where
  bound : q.bound = boundAtEnd rule.body (fun _ => false) done
  foreign : q.complete = true → ∀ i ∈ done, Foreign rule own i
  shape : (q.folded = none ∧ q.steps = S.steps rule (fun _ => .all) (fun _ => false) done) ∨
    ∃ k h bind, q.folded = some k ∧ k < done.length ∧
      q.steps = h.step bind .all :: S.steps rule (fun _ => .all)
        (boundAtEnd rule.body (fun _ => false) (done.take (k + 1))) (done.drop (k + 1)) ∧
      S.Behind s rule (done.take (k + 1)) (done.drop (k + 1) ++ rest) h bind ∧
      (∀ i ∈ done.take (k + 1), Foreign rule own i) ∧
      ∃ i p terms b, done[k]? = some i ∧ rule.body[i]? = some (.pos p terms) ∧
        kindOf S.preds p = some (.builtin b)

variable {S : Setting} {s : EvalState} {rule : CRule} {heights : Nat → Nat} {b : Tier} {σ : Env}
variable {done rest later members : List Nat} {h : Hoist} {bind : Nat} {vis : Vis}
variable {srcs : Nat → Src} {own : List PredId}

theorem liveAfter_append {order more : List Nat} {v : Nat} :
    liveAfter rule (order ++ more) v = true ↔
      Mentions (orderTerms rule.body order) v ∨ liveAfter rule more v = true := by
  rw [liveAfter_iff, liveAfter_iff, ← or_assoc]
  refine or_congr_left ?_
  have terms : Mentions (orderTerms rule.body order) v ↔
      ∃ i ∈ order, ∃ lit, rule.body[i]? = some lit ∧ Mentions lit.terms v := by
    unfold orderTerms Mentions
    simp only [List.mem_flatMap]
    refine exists_congr fun i => and_congr_right fun _ => ?_
    cases here : rule.body[i]? <;> simp
  rw [terms]
  simp only [List.mem_append, or_and_right, exists_or]

/-- Behind a composite the planner marks its end and nothing else that is read. -/
theorem Behind.starts (behind : S.Behind s rule members (later ++ rest) h bind)
    (ready : S.Ready rule (fun _ => false) members) (v : Nat)
    (mem : Mentions (orderTerms rule.body later) v) :
    boundAtEnd rule.body (fun _ => false) members v = true ↔ v = bind := by
  rw [boundAtEnd_iff ready]
  constructor
  · intro set
    exact behind.live v (liveAfter_append.mpr (.inl mem)) (set.resolve_left (by simp))
  · intro eq
    subst eq
    exact .inr behind.mentioned

theorem Behind.only (behind : S.Behind s rule members (later ++ rest) h bind)
    (v : Nat) (mem : Mentions (orderTerms rule.body later) v)
    (inMembers : Mentions (orderTerms rule.body members) v) : v = bind :=
  behind.live v (liveAfter_append.mpr (.inl mem)) inMembers

theorem allHold_congr {order : List Nat} {σ' : Env}
    (same : ∀ v, Mentions (orderTerms rule.body order) v → σ' v = σ v) :
    S.AllHold s b vis srcs rule σ' order ↔
      S.AllHold s b vis srcs rule σ order := by
  refine forall_congr' fun i => imp_congr_right fun mem => forall_congr' fun lit =>
    imp_congr_right fun here => exists_congr fun t => and_congr_right fun _ =>
      exists_congr fun n => ?_
  exact litHolds_congr (fun v there => same v (mentions_order mem here there)) t n

theorem allHold_append {order more : List Nat} :
    S.AllHold s b vis srcs rule σ (order ++ more) ↔
      S.AllHold s b vis srcs rule σ order ∧
        S.AllHold s b vis srcs rule σ more := by
  simp only [AllHold, List.mem_append, or_imp, forall_and]

theorem Behind.joins (behind : S.Behind s rule members (later ++ rest) h bind)
    {y : NodeId} {t : Tier} (binds : S.Binds s rule members bind t y)
    (grows : Grows (bound1 bind (.node y)) (orderTerms rule.body later) σ) :
    ∃ σa, Grows emptyEnv (orderTerms rule.body (members ++ later)) σa ∧
      S.AllHold s t (Vis.complete true) (fun _ => .all) rule σa members ∧
      (∀ v, Mentions (orderTerms rule.body later) v → σa v = σ v) ∧
      ∀ v, liveAfter rule rest v = true → σa v = σ v := by
  obtain ⟨σm, ⟨first, holds⟩, value⟩ := binds
  obtain ⟨σa, whole, same, live⟩ := grows_merge first grows value behind.only
  rw [orderTerms_append]
  refine ⟨σa, whole, (allHold_congr same).mpr holds, fun v mem => live v (behind.only v mem),
    fun v there => live v (behind.live v (liveAfter_append.mpr (.inr there)))⟩

theorem Behind.splits (behind : S.Behind s rule members (later ++ rest) h bind)
    (ok : S.Ok s heights (Vis.complete true) h.seed) {σa : Env}
    (grows : Grows emptyEnv (orderTerms rule.body (members ++ later)) σa)
    (holds : S.AllHold s b (Vis.complete true) (fun _ => .all) rule σa members) :
    ∃ y, ∃ t ≤ b, h.Row (S.ctx s) heights y t ∧
      ∃ σ, Grows (bound1 bind (.node y)) (orderTerms rule.body later) σ ∧
        (∀ v, Mentions (orderTerms rule.body later) v → σ v = σa v) ∧
        ∀ v, liveAfter rule rest v = true → σ v = σa v := by
  have start : ∃ σm, Grows emptyEnv (orderTerms rule.body members) σm ∧
      ∀ v, Mentions (orderTerms rule.body members) v → σm v = σa v := by
    rw [orderTerms_append, grows_append] at grows
    obtain ⟨mid, first, second⟩ := grows
    exact ⟨mid, first, fun v mem => (first.same second mem).symm⟩
  obtain ⟨σm, first, same⟩ := start
  have hold : S.MembersHold s rule b members σm :=
    ⟨first, (allHold_congr same).mpr holds⟩
  obtain ⟨y, value⟩ := behind.stands.node b σm hold
  obtain ⟨t, low, row⟩ := (behind.stands.rows heights ok b y).mpr ⟨σm, hold, value⟩
  rw [same bind behind.mentioned] at value
  rw [orderTerms_append] at grows
  obtain ⟨_, σ, second, live⟩ := grows_split grows value behind.only
  refine ⟨y, t, low, row, σ, second, fun v mem => live v (behind.only v mem),
    fun v there => live v (behind.live v (liveAfter_append.mpr (.inr there)))⟩

theorem Behind.row_of_least (behind : S.Behind s rule members rest h bind)
    (ok : S.Ok s heights (Vis.complete true) h.seed) {y : NodeId} {t : Tier}
    (least : IsLeast {b | S.Binds s rule members bind b y} t) : h.Row (S.ctx s) heights y t := by
  obtain ⟨t', low, row⟩ := (behind.stands.rows heights ok t y).mpr least.1
  have binds := (behind.stands.rows heights ok t' y).mp ⟨t', le_rfl, row⟩
  rwa [le_antisymm low (least.2 binds)] at row

section Reads

variable (sane : S.Sane s) (fit : S.Fit rule)
variable {q : PlanState} (built : S.Built s rule own done rest q)
variable (ready : S.Ready rule (fun _ => false) done)
variable (known : ∀ i ∈ done, i < rule.body.length)
variable (ok : S.Ok s heights (Vis.complete true) q.steps)
include sane fit built ready known ok

/-- Over complete input a base plan leads only to what its literals bind. -/
theorem Built.sound (leads : S.LeadsBelow s heights (Vis.complete true) q.steps b σ) :
    ∃ σa, S.MembersHold s rule b done σa ∧
      ∀ v, liveAfter rule rest v = true → σa v = σ v := by
  rcases built.shape with ⟨_, steps⟩ | ⟨k, h, bind, _, _, steps, behind, _⟩
  · rw [steps] at ok leads
    exact ⟨σ, (order_below sane fit ready known ok).mp leads, fun _ _ => rfl⟩
  · have all := List.take_append_drop (k + 1) done
    rw [← all, orderReady_append] at ready
    rw [steps] at ok leads
    obtain ⟨y, t, low, _, row, grows, holds⟩ := (behind_below sane fit rfl ready.2
      (fun i mem => known i (List.mem_of_mem_drop mem)) (behind.starts ready.1) ok).mp leads
    simp only [RunsOk, Hoist.step, StepOk] at ok
    obtain ⟨σa, whole, first, same, live⟩ := behind.joins
      ((behind.stands.rows heights ok.1 t y).mp ⟨t, le_rfl, row⟩) grows
    rw [all] at whole
    refine ⟨σa, ⟨whole, ?_⟩, live⟩
    rw [← all, allHold_append]
    refine ⟨fun i mem lit here => ?_, (allHold_congr same).mpr holds⟩
    obtain ⟨t', low', rest⟩ := first i mem lit here
    exact ⟨t', low'.trans low, rest⟩

/-- Over complete input a base plan leads to all its literals bind. -/
theorem Built.complete {σa : Env} (hold : S.MembersHold s rule b done σa) :
    ∃ σ, S.LeadsBelow s heights (Vis.complete true) q.steps b σ ∧
      ∀ v, liveAfter rule rest v = true → σ v = σa v := by
  rcases built.shape with ⟨_, steps⟩ | ⟨k, h, bind, _, _, steps, behind, _⟩
  · rw [steps] at ok ⊢
    exact ⟨σa, (order_below sane fit ready known ok).mpr hold, fun _ _ => rfl⟩
  · have all := List.take_append_drop (k + 1) done
    obtain ⟨whole, holds⟩ := hold
    rw [← all] at whole
    rw [← all, allHold_append] at holds
    rw [← all, orderReady_append] at ready
    rw [steps] at ok ⊢
    have okSeed := ok
    simp only [RunsOk, Hoist.step, StepOk] at okSeed
    obtain ⟨y, t, low, row, σ, grows, same, live⟩ := behind.splits okSeed.1 whole holds.1
    refine ⟨σ, (behind_below sane fit rfl ready.2
      (fun i mem => known i (List.mem_of_mem_drop mem)) (behind.starts ready.1) ok).mpr
        ⟨y, t, low, ?_, row, grows, (allHold_congr same).mpr holds.2⟩, live⟩
    cases t <;> rfl

end Reads

end Built

section Fold

variable {S : Setting} {s : EvalState} {rule : CRule} {own : List PredId} {heights : Nat → Nat}
variable {done rest : List Nat} {q : PlanState} {i : Nat} {lit : CLit}

theorem hoistStep_ends {nvars : Nat} {p : PredId} {terms : List CTerm} {bound live : Bound}
    {steps : List Step} {slot : Nat} {step : Step}
    (h : hoistStep S.preds S.catalog nvars (.pos p terms) bound live steps slot = some step) :
    ∃ b x y, kindOf S.preds p = some (.builtin b) ∧ isReaches S.catalog b = true ∧
      terms[0]? = some (.var x) ∧ terms[1]? = some (.var y) ∧ bound x ≠ bound y ∧
      boundLive nvars bound live = false ∧
      step = Hoist.step ⟨slot, (closureSet S.catalog b terms).getD .all, depth terms, steps,
        if bound x then x else y, !bound x⟩ (if bound x then y else x) .all := by
  simp only [hoistStep] at h
  split at h
  · rename_i b kind
    split at h
    · cases h
    · rename_i run
      simp only [Bool.or_eq_true, Bool.not_eq_true', not_or, Bool.not_eq_false] at run
      split at h
      · rename_i x y hx hy
        split at h
        · cases h
        · rename_i differ
          simp only [Bool.or_eq_true, beq_iff_eq, not_or, Bool.not_eq_true] at differ
          cases h
          refine ⟨b, x, y, kind, run.1, hx, hy, differ.1, differ.2, ?_⟩
          cases bound x <;> rfl
      · cases h
  · cases h

theorem reach_below {p : PredId} {terms : List CTerm} {b : Nat} {x y : Nat} {level : Tier}
    {σ : Env} (kind : kindOf S.preds p = some (.builtin b)) (isReach : isReaches S.catalog b = true)
    (hx : terms[0]? = some (.var x)) (hy : terms[1]? = some (.var y)) :
    (∃ t ≤ level, ∃ n, S.Lit s (Vis.complete true) .all σ (.pos p terms) t n) ↔
      ∃ f g, σ x = some (.node f) ∧ σ y = some (.node g) ∧
        Indexable S.src ((closureSet S.catalog b terms).getD .all) ∧
        Reaches S.src ((closureSet S.catalog b terms).getD .all) (depth terms) level f g := by
  have ends : atomTerms (S.ctx s) S.catalog S.preds p terms = [.var x, .var y] := by
    cases terms with
    | nil => cases hx
    | cons first more =>
      cases more with
      | nil => cases hy
      | cons second more =>
        cases hx
        cases hy
        simp [atomTerms, kind, isReach]
  have is (row : Row) : RowIs S.src.tables σ [.var x, .var y] row ↔
      ∃ f g, row = [f, g] ∧ σ x = some f ∧ σ y = some g := by
    constructor
    · intro is
      cases is with
      | cons first rest =>
        cases rest with
        | cons second rest =>
          cases rest
          exact ⟨_, _, rfl, first, second⟩
    · rintro ⟨f, g, eq, first, second⟩
      subst eq
      exact .cons first (.cons second .nil)
  have admits (t : Tier) : (Vis.complete true).admits .all t = true := by cases t <;> rfl
  change (∃ t ≤ level, ∃ n, ∃ row, _ ∧ RowIs S.src.tables σ _ row) ↔ _
  simp only [AtomRow, kind, isReach, if_true, ends, is, admits, true_and]
  constructor
  · rintro ⟨t, low, n, row, ⟨_, f, g, eq, fits, least⟩, f', g', eq', first, second⟩
    rw [eq, List.cons.injEq, List.cons.injEq] at eq'
    exact ⟨f, g, eq'.1 ▸ first, eq'.2.1 ▸ second, fits, least.1.mono low⟩
  · rintro ⟨f, g, first, second, fits, reaches⟩
    obtain ⟨t, low, least⟩ := (isLeast_below (walk_isUpperSet S.src _ (depth terms) f g) level).mpr
      reaches
    exact ⟨t, low, 0, [.node f, .node g], ⟨rfl, f, g, rfl, fits, least⟩, _, _, rfl, first, second⟩

/-- The rows of a hoisted reach up to a level: its ends are joined there with a seed's. -/
theorem row_below (h : Hoist) (heights : Nat → Nat) (b : Tier) (y : NodeId) :
    (∃ t ≤ b, h.Row (S.ctx s) heights y t) ↔ Indexable S.src h.cats ∧ ∃ σ x,
      S.LeadsBelow s heights (Vis.complete true) h.seed b σ ∧ σ h.seedVar = some (.node x) ∧
        if h.backward then Reaches S.src h.cats h.depth b y x
        else Reaches S.src h.cats h.depth b x y := by
  have walk : ∀ {level level' : Tier} {x : NodeId}, level ≤ level' →
      (if h.backward then Reaches S.src h.cats h.depth level y x
        else Reaches S.src h.cats h.depth level x y) →
      if h.backward then Reaches S.src h.cats h.depth level' y x
        else Reaches S.src h.cats h.depth level' x y := by
    intro level level' x le reaches
    split
    · rename_i back
      rw [if_pos back] at reaches
      exact reaches.mono le
    · rename_i forward
      rw [if_neg forward] at reaches
      exact reaches.mono le
  have up : IsUpperSet {level | SeedJoins (S.ctx s) h.cats h.depth h.seedVar h.backward
      (fun b => Runs (S.ctx s) heights (Vis.complete true) 0 (Binding.start emptyEnv) h.seed b) level y} := by
    intro level level' le ⟨bd, x, runs, value, low, reaches⟩
    exact ⟨bd, x, runs, value, low.trans le, walk le reaches⟩
  have split : (∃ t ≤ b, h.Row (S.ctx s) heights y t) ↔ Indexable S.src h.cats ∧
      ∃ t ≤ b, IsLeast {level | SeedJoins (S.ctx s) h.cats h.depth h.seedVar h.backward
        (fun b => Runs (S.ctx s) heights (Vis.complete true) 0 (Binding.start emptyEnv) h.seed b) level y}
        t := by
    constructor
    · rintro ⟨t, low, fits, least⟩
      exact ⟨fits, t, low, least⟩
    · rintro ⟨fits, t, low, least⟩
      exact ⟨t, low, fits, least⟩
  rw [split, isLeast_below up]
  refine and_congr_right fun _ => ?_
  constructor
  · rintro ⟨bd, x, runs, value, low, reaches⟩
    exact ⟨bd.vars, x, ⟨bd.level, low, bd.height, bd, runs, rfl, rfl, rfl⟩, value, reaches⟩
  · rintro ⟨σ, x, ⟨l, low, n, bd, runs, vars, level, _⟩, value, reaches⟩
    exact ⟨bd, x, runs, vars ▸ value, level ▸ low, reaches⟩

/-- A plan with one literal more holds its members' literals and that one. -/
theorem membersHold_snoc {b : Tier} {σ : Env} (here : rule.body[i]? = some lit) :
    S.MembersHold s rule b (done ++ [i]) σ ↔
      Grows emptyEnv (orderTerms rule.body done ++ lit.terms) σ ∧
        S.AllHold s b (Vis.complete true) (fun _ => .all) rule σ done ∧
        ∃ t ≤ b, ∃ n, S.Lit s (Vis.complete true) .all σ lit t n := by
  have one : orderTerms rule.body [i] = lit.terms := by simp [orderTerms, here]
  have last : S.AllHold s b (Vis.complete true) (fun _ => .all) rule σ [i] ↔
      ∃ t ≤ b, ∃ n, S.Lit s (Vis.complete true) .all σ lit t n := by
    simp [AllHold, here]
  rw [MembersHold, orderTerms_append, one, allHold_append, last]

/-- A composite read off a literal that says its two ends are joined, the one bound by the
literals before it, the other not. -/
theorem fold_behind (sane : S.Sane s) (fit : S.Fit rule)
    (built : S.Built s rule own done (i :: rest) q)
    (ready : S.Ready rule (fun _ => false) done)
    (known : ∀ i ∈ done, i < rule.body.length) (here : rule.body[i]? = some lit) {h : Hoist}
    {w : Nat} (seed : h.seed = q.steps) (seeded : q.bound h.seedVar = true)
    (fresh : q.bound w = false) (uses : Mentions lit.terms h.seedVar) (binds : Mentions lit.terms w)
    (others : ∀ v, Mentions lit.terms v → v = h.seedVar ∨ v = w ∨ q.bound v = true)
    (dead : boundLive rule.nvars q.bound (liveAfter rule rest) = false)
    (tells : ∀ (b : Tier) (σ : Env), (∃ t ≤ b, ∃ n,
        S.Lit s (Vis.complete true) .all σ lit t n) ↔
      ∃ f g, σ h.seedVar = some (.node f) ∧ σ w = some (.node g) ∧ Indexable S.src h.cats ∧
        if h.backward then Reaches S.src h.cats h.depth b g f
        else Reaches S.src h.cats h.depth b f g) :
    S.Behind s rule (done ++ [i]) rest h w := by
  have marks (v : Nat) : q.bound v = true ↔ Mentions (orderTerms rule.body done) v := by
    rw [built.bound, boundAtEnd_iff ready]
    simp
  have unread (v : Nat) (live : liveAfter rule rest v = true) : q.bound v = false :=
    boundLive_eq_false dead (liveAfter_lt fit.safe rest live) live
  have one : orderTerms rule.body [i] = lit.terms := by simp [orderTerms, here]
  have apart (v : Nat) (mem : Mentions (orderTerms rule.body done) v) : v ≠ w := by
    intro eq
    rw [eq, ← marks, fresh] at mem
    cases mem
  have live : liveAfter rule (i :: rest) h.seedVar = true :=
    (liveAfter_cons here rest h.seedVar).mpr (.inl uses)
  refine ⟨⟨fun heights ok b y => ?_, fun b σ hold => ?_⟩, ?_, fun v read mem => ?_⟩
  · rw [row_below]
    rw [seed] at ok ⊢
    constructor
    · rintro ⟨fits, σ, x, leads, value, reaches⟩
      obtain ⟨σa, ⟨grows, holds⟩, same⟩ := built.sound sane fit ready known ok leads
      have kept (v : Nat) (mem : Mentions (orderTerms rule.body done) v) :
          Function.update σa w (some (.node y)) v = σa v := Function.update_of_ne (apart v mem) _ _
      have source : Function.update σa w (some (.node y)) h.seedVar = some (.node x) := by
        rw [kept _ ((marks _).mp seeded), same _ live, value]
      refine ⟨Function.update σa w (some (.node y)), (membersHold_snoc here).mpr ⟨⟨fun v mem => ?_,
        fun v set => (by cases set), fun v no => ?_⟩, (allHold_congr kept).mpr holds,
        (tells b _).mpr ⟨x, y, source, Function.update_self _ _ _, fits, reaches⟩⟩,
        Function.update_self _ _ _⟩
      · by_cases eq : v = w
        · rw [eq, Function.update_self]
          rfl
        · rw [Function.update_of_ne eq]
          refine grows.binds v ((mentions_append.mp mem).elim id fun mem => ?_)
          rcases others v mem with eq' | eq' | set
          · exact eq' ▸ (marks _).mp seeded
          · exact absurd eq' eq
          · exact (marks v).mp set
      · have ne : v ≠ w := fun eq => no (mentions_append.mpr (.inr (eq ▸ binds)))
        rw [Function.update_of_ne ne]
        exact grows.rest v fun mem => no (mentions_append.mpr (.inl mem))
    · rintro ⟨σ, hold, value⟩
      obtain ⟨grows, holds, lit⟩ := (membersHold_snoc here).mp hold
      obtain ⟨f, g, source, target, fits, reaches⟩ := (tells b σ).mp lit
      obtain ⟨mid, first, second⟩ := grows_append.mp grows
      have before (v : Nat) (mem : Mentions (orderTerms rule.body done) v) : mid v = σ v :=
        (first.same second mem).symm
      obtain ⟨σ', leads, same⟩ := built.complete sane fit ready known ok
        ⟨first, (allHold_congr before).mpr holds⟩
      rw [target, Option.some.injEq, Value.node.injEq] at value
      subst value
      exact ⟨fits, σ', f, leads, by rw [same _ live, before _ ((marks _).mp seeded), source], reaches⟩
  · obtain ⟨_, _, lit⟩ := (membersHold_snoc here).mp hold
    obtain ⟨f, g, _, target, _⟩ := (tells b σ).mp lit
    exact ⟨g, target⟩
  · rw [orderTerms_append, one]
    exact mentions_append.mpr (.inr binds)
  · have off := unread v read
    rw [orderTerms_append, one] at mem
    rcases mentions_append.mp mem with mem | mem
    · rw [(marks v).mpr mem] at off
      cases off
    · rcases others v mem with eq | eq | set
      · rw [eq, seeded] at off
        cases off
      · exact eq
      · rw [set] at off
        cases off

/-- Folding a `reaches` literal hoists what was planned so far behind it. -/
theorem fold_stands (sane : S.Sane s) (fit : S.Fit rule)
    (built : S.Built s rule own done (i :: rest) q)
    (ready : S.Ready rule (fun _ => false) done)
    (known : ∀ i ∈ done, i < rule.body.length) {p : PredId} {terms : List CTerm}
    (here : rule.body[i]? = some (.pos p terms))
    (can : LitReady S.catalog S.preds q.bound (.pos p terms)) {step : Step}
    (hoists : hoistStep S.preds S.catalog rule.nvars (.pos p terms) q.bound (liveAfter rule rest) q.steps
      q.slots = some step) :
    ∃ h bind, step = h.step bind .all ∧ h.slot = q.slots ∧ h.seed = q.steps ∧
      S.Behind s rule (done ++ [i]) rest h bind := by
  obtain ⟨b, x, y, kind, isReach, hx, hy, differ, dead, eq⟩ := hoistStep_ends hoists
  have ends (c : Nat) (lt : c < 2) : terms[c]? = some (.var x) ∨ terms[c]? = some (.var y) := by
    obtain zero | one : c = 0 ∨ c = 1 := by omega
    · exact .inl (zero ▸ hx)
    · exact .inr (one ▸ hy)
  have others (v : Nat) (mem : Mentions terms v) : v = x ∨ v = y ∨ q.bound v = true :=
    reach_mentions kind isReach
      (reachConst_of_shaped (fit.shaped _ (List.mem_of_getElem? here))) can ends mem
  have usesX : Mentions terms x := List.mem_of_getElem? hx
  have usesY : Mentions terms y := List.mem_of_getElem? hy
  refine ⟨_, _, eq, rfl, rfl, ?_⟩
  cases bound : q.bound x with
  | true =>
    have off : q.bound y = false := by
      rw [bound] at differ
      simpa using differ.symm
    refine fold_behind sane fit built ready known here rfl ?_ ?_ ?_ ?_ ?_ dead ?_
    · exact bound
    · exact off
    · exact usesX
    · exact usesY
    · exact others
    · intro level σ
      exact reach_below kind isReach hx hy
  | false =>
    have on : q.bound y = true := by
      rw [bound] at differ
      simpa using differ.symm
    refine fold_behind sane fit built ready known here rfl ?_ ?_ ?_ ?_ ?_ dead ?_
    · exact on
    · exact bound
    · exact usesY
    · exact usesX
    · intro v mem
      exact (others v mem).elim (fun eq => .inr (.inl eq)) (Or.imp_right .inr)
    · intro level σ
      have swap := @reach_below S s p terms b x y level σ kind isReach hx hy
      refine swap.trans ⟨?_, ?_⟩
      · rintro ⟨f, g, first, second, rest⟩
        exact ⟨g, f, second, first, rest⟩
      · rintro ⟨f, g, first, second, rest⟩
        exact ⟨g, f, second, first, rest⟩

/-- Planning one literal more keeps the base plan built. -/
theorem Built.planLit (sane : S.Sane s) (fit : S.Fit rule)
    (built : S.Built s rule own done (i :: rest) q)
    (ready : S.Ready rule (fun _ => false) (done ++ [i]))
    (known : ∀ i ∈ done, i < rule.body.length) (here : rule.body[i]? = some lit)
    (idb : ∀ p ∈ own, kindOf S.preds p = some .idb) :
    S.Built s rule own (done ++ [i]) rest
      (planLit S.preds S.catalog own rule (fun _ => .all) true done.length i rest q) := by
  obtain ⟨before, now⟩ := orderReady_append.mp ready
  rw [← built.bound] at now
  have can := now.1 lit here
  have foreign (j : Nat) (mem : j ∈ done ++ [i]) (before : ∀ i ∈ done, Foreign rule own i)
      (now : Foreign rule own i) : Foreign rule own j := by
    rcases List.mem_append.mp mem with mem | mem
    · exact before j mem
    · exact List.mem_singleton.mp mem ▸ now
  refine ⟨?_, ?_, ?_⟩
  · rw [planLit_bound own (fun _ => .all) here can, built.bound, boundAtEnd_append]
    rfl
  · unfold Glia.Rules.planLit
    simp only [here, Bool.true_and]
    split
    · rename_i step multi
      split at multi
      · intro complete j mem
        obtain ⟨p, terms, _, _, _, _, _, _, eq, kind, _⟩ := hoistStep_eq_some multi
        subst eq
        refine foreign j mem (built.foreign complete) fun q ts there own => ?_
        rw [here, Option.some.injEq, CLit.pos.injEq] at there
        rw [there.1, idb q own] at kind
        cases kind
      · cases multi
    · intro complete j mem
      simp only [Bool.and_eq_true, Bool.not_eq_true'] at complete
      refine foreign j mem (built.foreign complete.1) fun q ts there own => ?_
      rw [here, Option.some.injEq] at there
      rw [there] at complete
      simp [readsOwn, own] at complete
  · unfold Glia.Rules.planLit
    simp only [here, Bool.true_and]
    split
    · rename_i step multi
      split at multi
      · rename_i complete
        obtain ⟨p, terms, b, _, _, _, _, _, eq, kind, _⟩ := hoistStep_eq_some multi
        subst eq
        obtain ⟨h, bind, eq, _, _, behind⟩ := fold_stands sane fit built before known here can
          multi
        have whole : (done ++ [i]).take (done.length + 1) = done ++ [i] :=
          List.take_of_length_le (by simp)
        have none' : (done ++ [i]).drop (done.length + 1) = [] := List.drop_of_length_le (by simp)
        refine .inr ⟨done.length, h, bind, rfl, by simp, ?_, ?_, ?_, ?_⟩
        · rw [eq, none']
          rfl
        · rw [whole, none']
          exact behind
        · intro j mem
          rw [whole] at mem
          refine foreign j mem (built.foreign complete) fun q ts there own => ?_
          rw [here, Option.some.injEq, CLit.pos.injEq] at there
          rw [there.1, idb q own] at kind
          cases kind
        · exact ⟨i, p, terms, b, by simp, here, kind⟩
      · cases multi
    · rw [built.bound] at can ⊢
      rcases built.shape with ⟨none', steps⟩ | ⟨k, h, bind, folded, lt, steps, behind, foreign',
          last⟩
      · refine .inl ⟨none', ?_⟩
        rw [orderSteps_append before, steps]
        simp [orderSteps, here]
      · have inside : k + 1 ≤ done.length := lt
        refine .inr ⟨k, h, bind, folded, by simp; omega, ?_, ?_, ?_, ?_⟩
        · rw [List.take_append_of_le_length inside, List.drop_append_of_le_length inside, steps,
            orderSteps_append (orderReady_append.mp (by rwa [List.take_append_drop])).2,
            ← boundAtEnd_append, List.take_append_drop]
          simp [orderSteps, here]
        · rw [List.take_append_of_le_length inside, List.drop_append_of_le_length inside,
            List.append_assoc]
          exact behind
        · rw [List.take_append_of_le_length inside]
          exact foreign'
        · rw [List.getElem?_append_left lt]
          exact last

theorem built_planFrom (sane : S.Sane s) (fit : S.Fit rule)
    (ready : S.Ready rule (fun _ => false) (done ++ rest))
    (known : ∀ i ∈ done ++ rest, i < rule.body.length) (idb : ∀ p ∈ own, kindOf S.preds p = some .idb)
    (built : S.Built s rule own done rest q) :
    S.Built s rule own (done ++ rest) []
      (planFrom S.preds S.catalog own rule (fun _ => .all) true done.length rest q) := by
  induction rest generalizing done q with
  | nil => simpa [planFrom] using built
  | cons i rest ih =>
    have here : rule.body[i]? = some (rule.body.get ⟨i, known i (by simp)⟩) :=
      List.getElem?_eq_getElem _
    have all : done ++ i :: rest = (done ++ [i]) ++ rest := by simp
    rw [all] at ready known
    have next := built.planLit sane fit (orderReady_append.mp ready).1
      (fun j mem => known j (by simp [mem])) here idb
    rw [all, planFrom]
    simpa using ih ready known next

end Fold

end Setting

end Glia.Rules
