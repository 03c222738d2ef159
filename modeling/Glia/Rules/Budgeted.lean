import Glia.Rules.ClosureExact
import Glia.Rules.Eval

/-! A counted run under a row budget: it stops early only with the budget tripped, and
one that does not trip runs the same under every larger cap. -/
namespace Glia.Rules

open Algo

def ExecState.raise (s : ExecState) (cap : Nat) : ExecState :=
  { s with budget := { s.budget with cap := cap } }

@[simp] theorem raise_closure (s : ExecState) (cap : Nat) : (s.raise cap).closure = s.closure := rfl

@[simp] theorem raise_memo (s : ExecState) (cap : Nat) : (s.raise cap).memo = s.memo := rfl

@[simp] theorem raise_multi (s : ExecState) (cap : Nat) : (s.raise cap).multi = s.multi := rfl

@[simp] theorem raise_all (s : ExecState) (cap : Nat) : (s.raise cap).all = s.all := rfl

@[simp] theorem raise_out (s : ExecState) (cap : Nat) : (s.raise cap).out = s.out := rfl

@[simp] theorem raise_budget (s : ExecState) (cap : Nat) :
    (s.raise cap).budget = ⟨cap, s.budget.used, s.budget.tripped⟩ := rfl

structure Budget.Kept (b b' : Budget) : Prop where
  untripped : b'.tripped = none
  cap : b'.cap = b.cap
  grows : b.used ≤ b'.used
  within : b.used ≤ b.cap → b'.used ≤ b'.cap

theorem Budget.Kept.refl {b : Budget} (untripped : b.tripped = none) : b.Kept b :=
  ⟨untripped, rfl, le_rfl, id⟩

theorem Budget.Kept.trans {a b c : Budget} (ab : a.Kept b) (bc : b.Kept c) : a.Kept c :=
  ⟨bc.untripped, bc.cap.trans ab.cap, ab.grows.trans bc.grows, fun h => bc.within (ab.within h)⟩

/-- What a counted computation does from an untripped state. A normal end emits at most
`k` bindings more than it charges and is the same under every larger cap, an early end has
tripped, an error is the same under every larger cap. -/
def Counted {α : Type} (k : Nat) (m : Exec α) : Prop :=
  ∀ s : ExecState, s.budget.tripped = none →
    match m s with
    | .ok t a => s.budget.Kept t.budget ∧
        t.out.length + s.budget.used ≤ s.out.length + t.budget.used + k ∧
        ∀ cap, s.budget.cap ≤ cap → m (s.raise cap) = .ok (t.raise cap) a
    | .stop t => t.budget.tripped ≠ none ∧ t.budget.cap = s.budget.cap
    | .fail e => ∀ cap, s.budget.cap ≤ cap → m (s.raise cap) = .fail e

theorem Counted.mono {α : Type} {m : Exec α} {j k : Nat} (h : Counted j m) (le : j ≤ k) :
    Counted k m := by
  intro s untripped
  have run := h s untripped
  cases eq : m s with
  | stop t => simpa only [eq] using run
  | fail e => simpa only [eq] using run
  | ok t a =>
    simp only [eq] at run ⊢
    exact ⟨run.1, by omega, run.2.2⟩

theorem counted_pure {α : Type} (a : α) : Counted 0 (Exec.pure a) :=
  fun _ untripped => ⟨.refl untripped, le_rfl, fun _ _ => rfl⟩

theorem counted_modify (f : ExecState → ExecState) (budget : ∀ s, (f s).budget = s.budget)
    (out : ∀ s, (f s).out = s.out) (raise : ∀ s cap, f (s.raise cap) = (f s).raise cap) :
    Counted 0 (Exec.modify f) := by
  intro s untripped
  refine ⟨?_, by rw [budget, out, Nat.add_zero], fun cap _ => ?_⟩
  · rw [budget]
    exact .refl untripped
  · simp only [Exec.modify, raise]

theorem Counted.paid {α : Type} {m : Exec α} {k : Nat} (h : Counted k m) {s t : ExecState} {a : α}
    (untripped : s.budget.tripped = none) (eq : m s = .ok t a) :
    t.out.length + s.budget.used ≤ s.out.length + t.budget.used + k := by
  have run := h s untripped
  rw [eq] at run
  exact run.2.1

/-- Two computations in a row, the first charging `n` more than it emits but `j`. -/
theorem counted_then {α β : Type} {m : Exec α} {f : α → Exec β} {i j k l n : Nat}
    (hm : Counted i m)
    (paid : ∀ s t a, s.budget.tripped = none → m s = .ok t a →
      t.out.length + s.budget.used + n ≤ s.out.length + t.budget.used + j)
    (hf : ∀ a, Counted l (f a)) (le : l + j ≤ n + k) : Counted k (Exec.bind m f) := by
  intro s untripped
  have first := hm s untripped
  unfold Exec.bind
  cases eq : m s with
  | stop t => simpa only [eq] using first
  | fail e =>
    simp only [eq] at first ⊢
    intro cap le
    rw [first cap le]
  | ok t a =>
    have spent := paid s t a untripped eq
    simp only [eq] at first ⊢
    obtain ⟨kept, _, above⟩ := first
    have second := hf a t kept.untripped
    cases eq' : f a t with
    | stop u =>
      simp only [eq'] at second ⊢
      exact ⟨second.1, second.2.trans kept.cap⟩
    | fail e =>
      simp only [eq'] at second ⊢
      intro cap le
      rw [above cap le]
      exact second cap (kept.cap ▸ le)
    | ok u b =>
      simp only [eq'] at second ⊢
      refine ⟨kept.trans second.1, by omega, fun cap le => ?_⟩
      rw [above cap le]
      exact second.2.2 cap (kept.cap ▸ le)

theorem counted_bind {α β : Type} {m : Exec α} {f : α → Exec β} {j k : Nat} (hm : Counted j m)
    (hf : ∀ a, Counted k (f a)) : Counted (j + k) (Exec.bind m f) :=
  counted_then (n := 0) (j := j) hm (fun _ _ _ untripped eq => hm.paid untripped eq) hf
    (by omega)

theorem counted_map {α β : Type} {m : Exec α} {k : Nat} (hm : Counted k m) (f : α → β) :
    Counted k (Exec.bind m fun a => Exec.pure (f a)) :=
  counted_bind hm fun a => counted_pure (f a)

theorem charge_untripped {b : Budget} (untripped : b.tripped = none) (n : Nat) :
    ((b.charge n).tripped = none ∧ b.used + n ≤ b.cap) ∨
      ((b.charge n).tripped ≠ none ∧ b.cap < b.used + n) := by
  simp only [Budget.charge, untripped]
  by_cases past : b.cap < b.used + n
  · exact .inr ⟨by simp [past], past⟩
  · exact .inl ⟨by simp [past], by omega⟩

theorem charge_kept {b : Budget} {n : Nat} (untripped : b.tripped = none)
    (still : (b.charge n).tripped = none) : b.Kept (b.charge n) := by
  obtain ⟨_, le⟩ | ⟨trips, _⟩ := charge_untripped untripped n
  · exact ⟨still, rfl, Nat.le_add_right _ _, fun _ => le⟩
  · exact absurd still trips

theorem charge_raise {b : Budget} {n cap : Nat} (untripped : b.tripped = none)
    (still : (b.charge n).tripped = none) (le : b.cap ≤ cap) :
    (⟨cap, b.used, b.tripped⟩ : Budget).charge n = ⟨cap, (b.charge n).used, (b.charge n).tripped⟩ := by
  obtain ⟨_, fits⟩ | ⟨trips, _⟩ := charge_untripped untripped n
  · have low : ¬ b.cap < b.used + n := by omega
    have high : ¬ cap < b.used + n := by omega
    simp [Budget.charge, untripped, high, low]
  · exact absurd still trips

theorem counted_charge (n : Nat) : Counted 0 (Exec.charge true n) := by
  intro s untripped
  unfold Exec.charge
  simp only [if_true]
  by_cases still : (s.budget.charge n).tripped = none
  · simp only [still, Option.isSome_none, Bool.false_eq_true, if_false]
    refine ⟨charge_kept untripped still, ?_, fun cap le => ?_⟩
    · simp only [Budget.charge]
      omega
    · rw [raise_budget, charge_raise untripped still le]
      simp only [still, Option.isSome_none, Bool.false_eq_true, if_false, ExecState.raise]
  · rw [if_pos (Option.isSome_iff_ne_none.mpr still)]
    exact ⟨still, rfl⟩

theorem counted_spend {α : Type} {n k : Nat} {m : Exec α} (hm : Counted (n + k) m) :
    Counted k (Exec.bind (Exec.charge true n) fun _ => m) := by
  refine counted_then (n := n) (j := 0) (counted_charge n) (fun s t a _ eq => ?_) (fun _ => hm)
    (Nat.le_refl (n + k))
  unfold Exec.charge at eq
  simp only [if_true] at eq
  split at eq
  · cases eq
  · cases eq
    simp only [Budget.charge]
    omega

theorem counted_each {α : Type} {f : α → Exec Unit} (hf : ∀ a, Counted 1 (f a)) (as : List α) :
    Counted as.length (Exec.each f as) := by
  induction as with
  | nil => exact counted_pure ()
  | cons a rest ih =>
    have := counted_bind (hf a) fun _ => ih
    rwa [Nat.add_comm] at this

section Steps

variable (ctx : Ctx)

theorem counted_fillMemo (b : Nat) (key : List (Option Value)) (imp : Builtin) :
    Counted 0 (fillMemo ctx b key imp true) := by
  intro s untripped
  unfold fillMemo
  cases imp key with
  | error message => exact fun _ _ => rfl
  | ok found =>
    let rows := calledRows ((ctx.decls[b]?.map BuiltinDecl.tiered).getD true) key.length found
    have inserts : Counted 0 (Exec.modify fun s => { s with memo := s.memo.insert b key rows }) :=
      counted_modify _ (fun _ => rfl) (fun _ => rfl) fun _ _ => rfl
    exact counted_bind inserts
      (fun _ => counted_bind (counted_charge rows.length) fun _ => counted_pure rows) s untripped

theorem counted_memoised (b : Nat) (key : List (Option Value)) (imp : Builtin) :
    Counted 0 (memoised ctx b key imp true) := by
  intro s untripped
  unfold memoised
  simp only [raise_memo]
  cases s.memo.find b key with
  | some rows => exact ⟨.refl untripped, le_rfl, fun _ _ => rfl⟩
  | none => exact counted_fillMemo ctx b key imp s untripped

theorem counted_call (b : Nat) (cats : Option CatSet) (args : List (Option KeyPart))
    (ws : List (Nat × Want)) (vis : Vis) (count : vis.count = true) (src : Src) (env : Env) :
    Counted 0 (call ctx b cats args ws vis src env) := by
  unfold call
  rw [count]
  simp only
  split
  · exact counted_pure _
  · split
    · exact counted_bind (counted_memoised ctx _ _ _) fun _ => counted_pure _
    · split <;> exact counted_pure _

theorem counted_closureWalk (cats : CatSet) (source : NodeId) (backward : Bool)
    (depth : Option Nat) : Counted 0 (closureWalk ctx cats source backward depth) :=
  fun _ untripped => ⟨.refl untripped, le_rfl, fun _ _ => rfl⟩

theorem reachAll_fst (src : FactSource) (tiers : List Tier) (c : Closure) (cats : CatSet)
    (depth : Option Nat) (limit limit' : Nat) :
    (c.reachAll src tiers cats depth limit).1 = (c.reachAll src tiers cats depth limit').1 := by
  unfold Closure.reachAll
  simp only
  split <;> rfl

theorem reachAll_mono {src : FactSource} {tiers : List Tier} {c : Closure} {cats : CatSet}
    {depth : Option Nat} {limit limit' : Nat} (le : limit ≤ limit')
    {rows : List (NodeId × NodeId × Tier)}
    (h : (c.reachAll src tiers cats depth limit).2 = some rows) :
    (c.reachAll src tiers cats depth limit').2 = some rows := by
  unfold Closure.reachAll at h ⊢
  simp only at h ⊢
  split at h
  · exact h
  · split at h
    · rename_i ok
      simp only [ok, if_true]
      exact reachAllFrom_mono le h
    · rename_i bad
      simp only [bad]
      exact h

theorem counted_closureAll (k : Nat) (cats : CatSet) (depth : Option Nat) :
    Counted 0 (closureAll ctx k cats depth true) := by
  intro s untripped
  unfold closureAll
  simp only [raise_all]
  cases s.all k with
  | some rows => exact ⟨.refl untripped, le_rfl, fun _ _ => rfl⟩
  | none =>
    simp only [if_true]
    cases found : (s.closure.reachAll ctx.src ctx.tiers cats depth s.budget.remaining).2 with
    | none =>
      -- Past the rows left, so the charge trips.
      have trips : ((s.budget).charge (s.budget.remaining + 1)).tripped ≠ none := by
        rcases charge_untripped untripped (s.budget.remaining + 1) with ⟨_, le⟩ | ⟨trips, _⟩
        · unfold Budget.remaining at le
          omega
        · exact trips
      simp only [Exec.bind, Exec.charge, if_true, Option.isSome_iff_ne_none.mpr trips]
      exact ⟨trips, rfl⟩
    | some rows =>
      simp only
      have run := counted_bind (counted_charge rows.length) (fun _ => counted_bind
        (counted_modify (fun s => { s with all := Function.update s.all k rows })
          (fun _ => rfl) (fun _ => rfl) fun _ _ => rfl) fun _ => counted_pure rows)
        { s with closure := (s.closure.reachAll ctx.src ctx.tiers cats depth
          s.budget.remaining).1 } untripped
      have above : ∀ cap, s.budget.cap ≤ cap →
          (s.closure.reachAll ctx.src ctx.tiers cats depth (s.raise cap).budget.remaining).2 =
            some rows := by
        intro cap le
        refine reachAll_mono ?_ found
        simp only [Budget.remaining, raise_budget]
        omega
      have same : ∀ cap, (s.closure.reachAll ctx.src ctx.tiers cats depth
          (s.raise cap).budget.remaining).1 = (s.closure.reachAll ctx.src ctx.tiers cats depth
          s.budget.remaining).1 := fun cap => reachAll_fst _ _ _ _ _ _ _
      cases eq : Exec.bind (Exec.charge true rows.length) (fun _ => Exec.bind
          (Exec.modify fun s => { s with all := Function.update s.all k rows })
          fun _ => Exec.pure rows)
          { s with closure := (s.closure.reachAll ctx.src ctx.tiers cats depth
            s.budget.remaining).1 } with
      | stop t =>
        simp only [eq] at run ⊢
        exact run
      | fail e =>
        simp only [eq] at run ⊢
        intro cap le
        rw [raise_closure, above cap le]
        simp only [same]
        exact run cap le
      | ok t a =>
        simp only [eq] at run ⊢
        refine ⟨run.1, run.2.1, fun cap le => ?_⟩
        rw [raise_closure, above cap le]
        simp only [same]
        exact run.2.2 cap le

theorem counted_reach (k : Nat) (cats : CatSet) (depth : Option Nat)
    (source target : Option Value) (ws : List (Nat × Want)) (vis : Vis)
    (count : vis.count = true) (src : Src) :
    Counted 0 (reach ctx k cats depth source target ws vis src) := by
  have walk : ∀ id backward (f : List (NodeId × Tier) → List Alt),
      Counted 0 (Exec.bind (closureWalk ctx cats id backward depth) fun r =>
        Exec.bind (Exec.charge true r.2) fun _ => Exec.pure (f r.1)) :=
    fun id backward f => counted_bind (counted_closureWalk ctx cats id backward depth)
      fun _ => counted_bind (counted_charge _) fun _ => counted_pure _
  unfold reach
  rw [count]
  split
  · split
    · exact counted_pure _
    · exact counted_pure _
    · exact walk _ _ fun rows => builtinAlts vis src ws ((rows.filter _).map _)
  · split
    · exact counted_pure _
    · exact walk _ _ fun rows => builtinAlts vis src ws (rows.map _)
  · exact counted_bind (counted_closureAll ctx k cats depth) fun _ =>
      counted_bind (counted_charge _) fun _ => counted_pure _

theorem counted_start (steps : List Step) {body : Exec Unit}
    (hb : Counted (if steps.isEmpty then 1 else 0) body) :
    Counted 0 (start true steps body) := by
  intro s untripped
  have inner : Counted 0 (if steps.isEmpty then Exec.bind (Exec.charge true 1) fun _ => body
      else body) := by
    by_cases none : steps.isEmpty
    · rw [if_pos none] at hb ⊢
      exact counted_spend hb
    · rw [if_neg none] at hb ⊢
      exact hb
  have run := inner { s with all := fun _ => none } untripped
  unfold start
  simp only [untripped, Option.isSome_none, Bool.and_false, Bool.false_eq_true, if_false,
    raise_budget]
  cases eq : (if steps.isEmpty then Exec.bind (Exec.charge true 1) fun _ => body else body)
      { s with all := fun _ => none } with
  | stop t =>
    simp only [eq] at run ⊢
    exact run
  | fail e =>
    simp only [eq] at run ⊢
    intro cap le
    have := run cap le
    simp only [ExecState.raise] at this ⊢
    simp only [untripped] at this ⊢
    rw [this]
  | ok t a =>
    simp only [eq] at run ⊢
    refine ⟨run.1, run.2.1, fun cap le => ?_⟩
    have := run.2.2 cap le
    simp only [ExecState.raise] at this ⊢
    simp only [untripped] at this ⊢
    rw [this]

theorem counted_fillMulti (slot : Nat) (cats : CatSet) (depth : Option Nat) (seedVar : Nat)
    (backward : Bool) {seedRun : Exec Unit} (hs : Counted 0 seedRun) :
    Counted 0 (fillMulti ctx slot cats depth seedVar backward true seedRun) := by
  intro s untripped
  have run := hs { s with out := [] } untripped
  unfold fillMulti
  simp only [Bool.true_and]
  cases eq : seedRun { s with out := [] } with
  | stop t =>
    simp only [eq] at run ⊢
    rw [if_pos (Option.isSome_iff_ne_none.mpr run.1)]
    exact run
  | fail e =>
    simp only [eq] at run ⊢
    intro cap le
    have := run cap le
    simp only [ExecState.raise] at this ⊢
    rw [this]
  | ok t a =>
    simp only [eq] at run ⊢
    obtain ⟨kept, _, above⟩ := run
    have still := kept.untripped
    have last := counted_charge
      (((multiSeeds seedVar t.out).map fun e => (e.1, e.2.1)).length +
        (t.closure.reachFrom ctx.src ctx.tiers cats
          ((multiSeeds seedVar t.out).map fun e => (e.1, e.2.1)) backward depth).2.length)
      { t with
        out := s.out
        closure := (t.closure.reachFrom ctx.src ctx.tiers cats
          ((multiSeeds seedVar t.out).map fun e => (e.1, e.2.1)) backward depth).1
        multi := Function.update t.multi slot (some
          ⟨(multiSeeds seedVar t.out).map fun e => (e.1, e.2.1),
            (t.closure.reachFrom ctx.src ctx.tiers cats
              ((multiSeeds seedVar t.out).map fun e => (e.1, e.2.1)) backward depth).2,
            ((multiSeeds seedVar t.out).map fun e => e.2.2).foldl max 0⟩) } still
    simp only [still, Option.isSome_none, Bool.false_eq_true, if_false]
    have above' : ∀ cap, s.budget.cap ≤ cap →
        seedRun { s.raise cap with out := [] } = .ok (t.raise cap) a := above
    generalize hn : ((multiSeeds seedVar t.out).map fun e => (e.1, e.2.1)).length +
        (t.closure.reachFrom ctx.src ctx.tiers cats
          ((multiSeeds seedVar t.out).map fun e => (e.1, e.2.1)) backward depth).2.length = n
      at last
    cases eq' : Exec.charge true n
      { t with
        out := s.out
        closure := (t.closure.reachFrom ctx.src ctx.tiers cats
          ((multiSeeds seedVar t.out).map fun e => (e.1, e.2.1)) backward depth).1
        multi := Function.update t.multi slot (some
          ⟨(multiSeeds seedVar t.out).map fun e => (e.1, e.2.1),
            (t.closure.reachFrom ctx.src ctx.tiers cats
              ((multiSeeds seedVar t.out).map fun e => (e.1, e.2.1)) backward depth).2,
            ((multiSeeds seedVar t.out).map fun e => e.2.2).foldl max 0⟩) } with
    | stop u =>
      simp only [eq'] at last ⊢
      exact ⟨last.1, last.2.trans kept.cap⟩
    | fail e =>
      simp only [eq'] at last ⊢
      intro cap le
      rw [above' cap le]
      have up := last cap (kept.cap ▸ le)
      simp only [ExecState.raise, still] at up ⊢
      simp only [hn, Option.isSome_none, Bool.false_eq_true, if_false]
      exact up
    | ok u b =>
      simp only [eq'] at last ⊢
      refine ⟨kept.trans last.1, ?_, fun cap le => ?_⟩
      · have := last.2.1
        have := kept.grows
        simp only at *
        omega
      rw [above' cap le]
      have up := last.2.2 cap (kept.cap ▸ le)
      simp only [ExecState.raise, still] at up ⊢
      simp only [hn, Option.isSome_none, Bool.false_eq_true, if_false]
      exact up

mutual

theorem counted_expand (vis : Vis) (count : vis.count = true) (k : Nat) (env : Env) :
    ∀ step : Step, Counted 0 (expand ctx vis k env step)
  | .reachMulti slot cats depth seed seedVar backward binds src => by
    have fill : Counted 0 (fillMulti ctx slot cats depth seedVar backward vis.count
        (start vis.count seed
          (walk ctx (Vis.complete vis.count) 0 (Binding.start emptyEnv) seed))) := by
      rw [count]
      exact counted_fillMulti ctx slot cats depth seedVar backward
        (counted_start seed (counted_walk (Vis.complete true) rfl 0 _ seed))
    have next : Counted 0 (fun s : ExecState => match s.multi slot with
        | none => Outcome.ok s []
        | some m => Outcome.ok s (multiAlts vis src m)) := by
      intro t still
      simp only [raise_multi]
      cases t.multi slot with
      | some _ => exact ⟨.refl still, le_rfl, fun _ _ => rfl⟩
      | none => exact ⟨.refl still, le_rfl, fun _ _ => rfl⟩
    intro s untripped
    simp only [expand, raise_multi]
    cases s.multi slot with
    | some _ => exact counted_bind (counted_pure ()) (fun _ => next) s untripped
    | none => exact counted_bind fill (fun _ => next) s untripped
  | .scan pred perm binds checks src => by
    simp only [expand, expandPlain]
    split <;> exact counted_pure _
  | .lookup pred perm key binds checks src => by
    simp only [expand, expandPlain]
    split <;> exact counted_pure _
  | .neg pred perm key => by
    simp only [expand, expandPlain]
    split
    · exact counted_pure _
    · split <;> exact counted_pure _
  | .cmp op l r => by
    simp only [expand, expandPlain]
    split <;> exact counted_pure _
  | .assign var part => by
    simp only [expand, expandPlain]
    split <;> exact counted_pure _
  | .call b cats args binds checks src => by
    simp only [expand, expandPlain]
    split
    · exact counted_pure _
    · exact counted_call ctx b cats args _ vis count src env
  | .negCall b cats args => by
    simp only [expand, expandPlain]
    exact counted_map (counted_call ctx b cats args [] (Vis.complete vis.count) count .all env) _
  | .reach cats depth source target binds checks src => by
    simp only [expand, expandPlain]
    split
    · exact counted_reach ctx k cats depth _ _ _ vis count src
    · exact counted_pure _
  | .negReach cats depth source target => by
    simp only [expand, expandPlain]
    split
    · exact counted_map
        (counted_reach ctx k cats depth _ _ [] (Vis.complete vis.count) count .all) _
    · exact counted_pure _

theorem counted_walk (vis : Vis) (count : vis.count = true) (k : Nat) (b : Binding) :
    ∀ steps : List Step, Counted (if steps.isEmpty then 1 else 0) (walk ctx vis k b steps)
  | [] => by
    intro s untripped
    refine ⟨.refl untripped, ?_, fun _ _ => rfl⟩
    simp
    omega
  | step :: rest => by
    unfold walk
    rw [count]
    refine @counted_bind _ _ _ _ 0 0 (counted_expand vis count k b.vars step) fun alts => ?_
    exact counted_spend (counted_each (fun a =>
      (counted_walk vis count (k + 1) (b.take vis k step a) rest).mono (by split <;> omega)) alts)

end

theorem counted_runBody (steps : List Step) (mode : Mode)
    (count : (Vis.ofMode mode).count = true) : Counted 0 (runBody ctx steps mode) := by
  unfold runBody
  simp only
  rw [count]
  exact counted_start steps (counted_walk ctx _ count 0 _ steps)

end Steps

end Glia.Rules
