import Glia.Rules.Budgeted

/-! How a run may end: it goes on to its end unless the budget trips, a builtin fails, or,
uncounted, a closure has more pairs than an index can number. -/
namespace Glia.Rules

open Algo

def BuiltinFails (ctx : Ctx) (message : String) : Prop :=
  ∃ (b : Nat) (imp : Builtin) (key : List (Option Value)),
    (ctx.impls[b]?).join = some imp ∧ imp key = .error message

/-- Some closure has more pairs than `usize` counts. -/
def Overfull (ctx : Ctx) : Prop :=
  ∃ (c : Closure) (cats : CatSet) (depth : Option Nat),
    (c.reachAll ctx.src ctx.tiers cats depth usizeMax).2 = none

def Settled {α : Type} (ctx : Ctx) (count : Bool) : Outcome α → Prop
  | .ok _ _ => True
  | .stop _ => count = true ∨ Overfull ctx
  | .fail e => ∃ name message, e = .builtin name message ∧ BuiltinFails ctx message

def Settles {α : Type} (ctx : Ctx) (count : Bool) (m : Exec α) : Prop :=
  ∀ s, Settled ctx count (m s)

section Settle

variable {ctx : Ctx} {count : Bool} {α β : Type}

theorem settles_pure (a : α) : Settles ctx count (Exec.pure a) := fun _ => trivial

theorem settles_modify (f : ExecState → ExecState) : Settles ctx count (Exec.modify f) :=
  fun _ => trivial

theorem settles_bind {m : Exec α} {f : α → Exec β} (hm : Settles ctx count m)
    (hf : ∀ a, Settles ctx count (f a)) : Settles ctx count (Exec.bind m f) := by
  intro s
  have first := hm s
  unfold Exec.bind
  cases eq : m s with
  | ok t a => exact hf a t
  | stop t =>
    rw [eq] at first
    exact first
  | fail e =>
    rw [eq] at first
    exact first

theorem settles_charge (n : Nat) : Settles ctx count (Exec.charge count n) := by
  intro s
  unfold Exec.charge
  cases count with
  | false => trivial
  | true =>
    simp only [if_true]
    split
    · exact .inl rfl
    · trivial

theorem settles_each {f : α → Exec Unit} (hf : ∀ a, Settles ctx count (f a)) (as : List α) :
    Settles ctx count (Exec.each f as) := by
  induction as with
  | nil => exact settles_pure ()
  | cons a rest ih => exact settles_bind (hf a) fun _ => ih

theorem settles_memoised {b : Nat} {key : List (Option Value)} {imp : Builtin}
    (known : (ctx.impls[b]?).join = some imp) : Settles ctx count (memoised ctx b key imp count) := by
  intro s
  unfold memoised
  split
  · trivial
  · unfold fillMemo
    split
    · rename_i message failed
      exact ⟨_, message, rfl, b, imp, key, known, failed⟩
    · exact settles_bind (settles_modify _)
        (fun _ => settles_bind (settles_charge _) fun _ => settles_pure _) s

theorem settles_call (b : Nat) (cats : Option CatSet) (args : List (Option KeyPart))
    (ws : List (Nat × Want)) (vis : Vis) (src : Src) (env : Env) (hc : vis.count = count) :
    Settles ctx count (call ctx b cats args ws vis src env) := by
  unfold call
  simp only
  split
  · exact settles_pure _
  · split
    · rename_i imp known
      rw [hc]
      exact settles_bind (settles_memoised known) fun _ => settles_pure _
    · split <;> exact settles_pure _

theorem settles_halt (may : count = true ∨ Overfull ctx) :
    Settles ctx count (Exec.halt : Exec α) := fun _ => may

theorem settles_closureAll (k : Nat) (cats : CatSet) (depth : Option Nat) :
    Settles ctx count (closureAll ctx k cats depth count) := by
  intro s
  unfold closureAll
  split
  · trivial
  · simp only
    split
    · rename_i none'
      cases count with
      | true => exact settles_bind (settles_charge _) (fun _ => settles_halt (.inl rfl)) _
      | false =>
        exact settles_bind (settles_charge _) (fun _ => settles_halt (.inr ⟨_, _, _, none'⟩)) _
    · exact settles_bind (settles_charge _)
        (fun _ => settles_bind (settles_modify _) fun _ => settles_pure _) _

theorem settles_reach (k : Nat) (cats : CatSet) (depth : Option Nat) (source target : Option Value)
    (ws : List (Nat × Want)) (vis : Vis) (src : Src) (hc : vis.count = count) :
    Settles ctx count (reach ctx k cats depth source target ws vis src) := by
  unfold reach
  rw [hc]
  have walk : ∀ id backward, Settles ctx count (closureWalk ctx cats id backward depth) :=
    fun _ _ _ => trivial
  split
  · split
    · exact settles_pure _
    · exact settles_pure _
    · exact settles_bind (walk _ _) fun _ => settles_bind (settles_charge _) fun _ => settles_pure _
  · split
    · exact settles_pure _
    · exact settles_bind (walk _ _) fun _ => settles_bind (settles_charge _) fun _ => settles_pure _
  · exact settles_bind (settles_closureAll k cats depth) fun _ =>
      settles_bind (settles_charge _) fun _ => settles_pure _

theorem settles_plain (vis : Vis) (k : Nat) (env : Env) (step : Step) :
    Settles ctx vis.count (expandPlain ctx vis k env step) := by
  cases step with
  | scan pred perm binds checks src =>
    simp only [expandPlain]
    split <;> exact settles_pure _
  | lookup pred perm key binds checks src =>
    simp only [expandPlain]
    split <;> exact settles_pure _
  | neg pred perm key =>
    simp only [expandPlain]
    split
    · exact settles_pure _
    · split <;> exact settles_pure _
  | cmp op l r =>
    simp only [expandPlain]
    split <;> exact settles_pure _
  | assign var part =>
    simp only [expandPlain]
    split <;> exact settles_pure _
  | call b cats args binds checks src =>
    simp only [expandPlain]
    split
    · exact settles_pure _
    · exact settles_call b cats args _ vis src env rfl
  | negCall b cats args =>
    exact settles_bind (settles_call b cats args [] (Vis.complete vis.count) .all env rfl)
      fun _ => settles_pure _
  | reach cats depth source target binds checks src =>
    simp only [expandPlain]
    split
    · exact settles_reach k cats depth _ _ _ vis src rfl
    · exact settles_pure _
  | negReach cats depth source target =>
    simp only [expandPlain]
    split
    · exact settles_bind (settles_reach k cats depth _ _ [] (Vis.complete vis.count) .all rfl)
        fun _ => settles_pure _
    · exact settles_pure _
  | reachMulti slot cats depth seed seedVar backward bind src => exact settles_pure _

theorem settles_start (steps : List Step) {body : Exec Unit} (hb : Settles ctx count body) :
    Settles ctx count (start count steps body) := by
  intro s
  unfold start
  split
  · rename_i tripped
    exact .inl (Bool.and_eq_true_iff.mp tripped).1
  · have inner : Settles ctx count (if steps.isEmpty then Exec.bind (Exec.charge count 1) fun _ => body
        else body) := by
      split
      · exact settles_bind (settles_charge _) fun _ => hb
      · exact hb
    have ran := inner { s with all := fun _ => none }
    simp only
    split <;> rename_i eq <;> rw [eq] at ran <;> exact ran

theorem settles_fillMulti (slot : Nat) (cats : CatSet) (depth : Option Nat) (seedVar : Nat)
    (backward : Bool) {seedRun : Exec Unit} (hs : Settles ctx count seedRun) :
    Settles ctx count (fillMulti ctx slot cats depth seedVar backward count seedRun) := by
  intro s
  have next : ∀ t : ExecState, Settled ctx count
      (if count && t.budget.tripped.isSome then (.stop { t with out := s.out } : Outcome Unit)
      else
        let seeds := multiSeeds seedVar t.out
        let starts := seeds.map fun e => (e.1, e.2.1)
        let r := t.closure.reachFrom ctx.src ctx.tiers cats starts backward depth
        let height := (seeds.map fun e => e.2.2).foldl max 0
        Exec.charge count (starts.length + r.2.length)
          { t with
            closure := r.1
            multi := Function.update t.multi slot (some ⟨starts, r.2, height⟩)
            out := s.out }) := by
    intro t
    split
    · rename_i tripped
      exact .inl (Bool.and_eq_true_iff.mp tripped).1
    · exact settles_charge _ _
  have ran := hs { s with out := [] }
  unfold fillMulti
  simp only
  split
  · exact next _
  · exact next _
  · rename_i eq
    rw [eq] at ran
    exact ran

mutual

theorem settles_expand (vis : Vis) (k : Nat) (env : Env) :
    ∀ step : Step, Settles ctx vis.count (expand ctx vis k env step)
  | .reachMulti slot cats depth seed seedVar backward bind src => by
    intro s
    simp only [expand]
    refine settles_bind (α := Unit) ?_ (fun _ t => ?_) s
    · split
      · exact settles_pure ()
      · exact settles_fillMulti slot cats depth seedVar backward
          (settles_start seed (settles_walk (Vis.complete vis.count) 0 _ seed))
    · split <;> trivial
  | .scan pred perm binds checks src => by
    simp only [expand]
    exact settles_plain vis k env _
  | .lookup pred perm key binds checks src => by
    simp only [expand]
    exact settles_plain vis k env _
  | .neg pred perm key => by
    simp only [expand]
    exact settles_plain vis k env _
  | .cmp op l r => by
    simp only [expand]
    exact settles_plain vis k env _
  | .assign var part => by
    simp only [expand]
    exact settles_plain vis k env _
  | .call b cats args binds checks src => by
    simp only [expand]
    exact settles_plain vis k env _
  | .negCall b cats args => by
    simp only [expand]
    exact settles_plain vis k env _
  | .reach cats depth source target binds checks src => by
    simp only [expand]
    exact settles_plain vis k env _
  | .negReach cats depth source target => by
    simp only [expand]
    exact settles_plain vis k env _

theorem settles_walk (vis : Vis) (k : Nat) (b : Binding) :
    ∀ steps : List Step, Settles ctx vis.count (walk ctx vis k b steps)
  | [] => by
    simp only [walk]
    exact settles_modify _
  | step :: rest => by
    simp only [walk]
    exact settles_bind (settles_expand vis k b.vars step) fun alts =>
      settles_bind (settles_charge _) fun _ =>
        settles_each (fun a => settles_walk vis (k + 1) (b.take vis k step a) rest) alts

end

theorem settles_runBody (steps : List Step) (mode : Mode) :
    Settles ctx (Vis.ofMode mode).count (runBody ctx steps mode) := by
  cases mode <;> exact settles_start steps (settles_walk _ 0 _ steps)

end Settle

end Glia.Rules
