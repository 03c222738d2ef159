import Glia.Rules.Aggregate
import Glia.Rules.ClosureExact

/-! What a run of steps emits, with no budget, memo or order: each step's alternatives as
a set, and the bindings its steps lead to. -/
namespace Glia.Rules

section Steps

variable (ctx : Ctx)

def CallAlt (b : Nat) (cats : Option CatSet) (args : List (Option KeyPart))
    (ws : List (Nat × Want)) (vis : Vis) (src : Src) (env : Env) (a : Alt) : Prop :=
  match (ctx.impls[b]?).join with
  | some imp => ∃ key found, opts ctx.src.tables env args = some key ∧ imp key = .ok found ∧
      a ∈ builtinAlts vis src (ws ++ argWants key)
        (calledRows ((ctx.decls[b]?.map BuiltinDecl.tiered).getD true) key.length found)
  | none => ∃ x rep set rel, opts ctx.src.tables env (args.take 2) = some [x, rep] ∧
      cats = some set ∧ (ctx.scc.find? fun s => s.1 == set) = some (set, rel) ∧
      a ∈ relationAlts (ws ++ argWants [x, rep]) (sccSeen rel (vis.view src) x rep)

def EndIs (e : Option Value) (x : NodeId) : Prop := ∀ v, e = some v → v = .node x

def ReachAlt (cats : CatSet) (depth : Option Nat) (source target : Option Value)
    (ws : List (Nat × Want)) (vis : Vis) (src : Src) (a : Alt) : Prop :=
  ∃ x y t, ReachRow ctx.src cats depth x y t ∧ EndIs source x ∧ EndIs target y ∧
    vis.admits src t = true ∧ fits ws [.node x, .node y] = true ∧
    a = ⟨[.node x, .node y], t, loaded, noOrdinal⟩

def PlainAlt (vis : Vis) (env : Env) : Step → Alt → Prop
  | .scan pred _ binds checks src, a => ∃ rel ws, ctx.rels[pred]? = some rel ∧
      wants ctx.src.tables env binds checks = some ws ∧
      a ∈ relationAlts ws (rel.scan (vis.view src))
  | .lookup pred perm key binds checks src, a => ∃ rel key' ws, ctx.rels[pred]? = some rel ∧
      parts ctx.src.tables env key = some key' ∧
      wants ctx.src.tables env binds checks = some ws ∧
      a ∈ relationAlts ws (rel.seek perm (vis.view src) key')
  | .neg pred perm key, a => a = Alt.unit ∧ ∃ key', parts ctx.src.tables env key = some key' ∧
      ∀ rel, ctx.rels[pred]? = some rel → rel.existsPrefix perm key' = false
  | .cmp op l r, a => a = Alt.unit ∧ ∃ x y, resolvePart ctx.src.tables env l = some x ∧
      resolvePart ctx.src.tables env r = some y ∧ compareOp ctx.src op x y = true
  | .assign _ part, a => ∃ v, resolvePart ctx.src.tables env part = some v ∧
      a = ⟨[v], .fact, loaded, noOrdinal⟩
  | .call b cats args binds checks src, a => ∃ ws,
      wants ctx.src.tables env binds checks = some ws ∧ CallAlt ctx b cats args ws vis src env a
  | .negCall b cats args, a => a = Alt.unit ∧
      ∀ a', ¬ CallAlt ctx b cats args [] (Vis.complete vis.count) .all env a'
  | .reach cats depth source target binds checks src, a => ∃ ws s t,
      wants ctx.src.tables env binds checks = some ws ∧ opt ctx.src.tables env source = some s ∧
      opt ctx.src.tables env target = some t ∧ ReachAlt ctx cats depth s t ws vis src a
  | .negReach cats depth source target, a => a = Alt.unit ∧ ∃ s t,
      opt ctx.src.tables env source = some s ∧ opt ctx.src.tables env target = some t ∧
      ∀ a', ¬ ReachAlt ctx cats depth s t [] (Vis.complete vis.count) .all a'
  | .reachMulti _ _ _ _ _ _ _ _, _ => False

/-- A hoisted reach's ends: `y` is joined with a value of the seed variable at `level`. -/
def SeedJoins (cats : CatSet) (depth : Option Nat) (seedVar : Nat) (backward : Bool)
    (seeds : Binding → Prop) (level : Tier) (y : NodeId) : Prop :=
  ∃ b s, seeds b ∧ b.vars seedVar = some (.node s) ∧ b.level ≤ level ∧
    if backward then Reaches ctx.src cats depth level y s
    else Reaches ctx.src cats depth level s y

/-- The rows of a hoisted reach over the bindings of its seed. -/
def MultiRow (cats : CatSet) (depth : Option Nat) (seedVar : Nat) (backward : Bool)
    (seeds : Binding → Prop) (y : NodeId) (t : Tier) : Prop :=
  Indexable ctx.src cats ∧
    IsLeast {level | SeedJoins ctx cats depth seedVar backward seeds level y} t

def SeedHeight (seedVar : Nat) (seeds : Binding → Prop) (s : NodeId) (height : Nat) : Prop :=
  ∃ level, IsLeast {p : Tier ×ₗ Nat | ∃ b, seeds b ∧ b.vars seedVar = some (.node s) ∧
    p = toLex (b.level, b.height)} (toLex (level, height))

/-- The height of a hoisted reach's rows: the highest of its seeds', 0 without one. -/
def MultiHeight (seedVar : Nat) (seeds : Binding → Prop) (height : Nat) : Prop :=
  (∀ s h, SeedHeight seedVar seeds s h → h ≤ height) ∧
    (height = 0 ∨ ∃ s, SeedHeight seedVar seeds s height)

def CallOk (b : Nat) (args : List (Option KeyPart)) (env : Env) : Prop :=
  ∀ imp key, (ctx.impls[b]?).join = some imp → opts ctx.src.tables env args = some key →
    ∃ found, imp key = .ok found

-- The height each hoisted reach's rows are shown at.
variable (heights : Nat → Nat)

mutual

def IsAlt (vis : Vis) (env : Env) : Step → Alt → Prop
  | .reachMulti slot cats depth seed seedVar backward _ src, a => ∃ y,
      a = ⟨[.node y], a.tier, ⟨heights slot, edbRule⟩, noOrdinal⟩ ∧ vis.admits src a.tier = true ∧
      MultiRow ctx cats depth seedVar backward
        (fun b => Runs (Vis.complete vis.count) 0 (Binding.start emptyEnv) seed b) y a.tier
  | .scan pred perm binds checks src, a =>
    PlainAlt ctx vis env (.scan pred perm binds checks src) a
  | .lookup pred perm key binds checks src, a =>
    PlainAlt ctx vis env (.lookup pred perm key binds checks src) a
  | .neg pred perm key, a => PlainAlt ctx vis env (.neg pred perm key) a
  | .cmp op l r, a => PlainAlt ctx vis env (.cmp op l r) a
  | .assign var part, a => PlainAlt ctx vis env (.assign var part) a
  | .call b cats args binds checks src, a =>
    PlainAlt ctx vis env (.call b cats args binds checks src) a
  | .negCall b cats args, a => PlainAlt ctx vis env (.negCall b cats args) a
  | .reach cats depth source target binds checks src, a =>
    PlainAlt ctx vis env (.reach cats depth source target binds checks src) a
  | .negReach cats depth source target, a =>
    PlainAlt ctx vis env (.negReach cats depth source target) a

def Runs (vis : Vis) (k : Nat) (b : Binding) : List Step → Binding → Prop
  | [], b' => b' = b
  | step :: rest, b' => ∃ a, IsAlt vis b.vars step a ∧
      Runs vis (k + 1) (b.take vis k step a) rest b'

end

mutual

/-- Every builtin call the step makes under `env` succeeds. -/
def StepOk (vis : Vis) (env : Env) : Step → Prop
  | .call b _ args binds checks _ =>
    (wants ctx.src.tables env binds checks).isSome = true → CallOk ctx b args env
  | .negCall b _ args => CallOk ctx b args env
  | .reachMulti _ _ _ seed _ _ _ _ =>
    RunsOk (Vis.complete vis.count) 0 (Binding.start emptyEnv) seed
  | .scan _ _ _ _ _ => True
  | .lookup _ _ _ _ _ _ => True
  | .neg _ _ _ => True
  | .cmp _ _ _ => True
  | .assign _ _ => True
  | .reach _ _ _ _ _ _ _ => True
  | .negReach _ _ _ _ => True

/-- Every builtin call made from the binding `b` on succeeds. -/
def RunsOk (vis : Vis) (k : Nat) (b : Binding) : List Step → Prop
  | [] => True
  | step :: rest => StepOk vis b.vars step ∧ ∀ a, IsAlt ctx heights vis b.vars step a →
      RunsOk vis (k + 1) (b.take vis k step a) rest

end

theorem runs_append (vis : Vis) (k : Nat) (b b' : Binding) (steps more : List Step) :
    Runs ctx heights vis k b (steps ++ more) b' ↔
      ∃ mid, Runs ctx heights vis k b steps mid ∧
        Runs ctx heights vis (k + steps.length) mid more b' := by
  induction steps generalizing k b with
  | nil => simp [Runs]
  | cons step rest ih =>
    simp only [List.cons_append, Runs, ih, List.length_cons, Nat.add_assoc, Nat.add_comm 1]
    constructor
    · rintro ⟨a, alt, mid, first, last⟩
      exact ⟨mid, ⟨a, alt, first⟩, last⟩
    · rintro ⟨mid, ⟨a, alt, first⟩, last⟩
      exact ⟨a, alt, mid, first, last⟩

end Steps

end Glia.Rules
