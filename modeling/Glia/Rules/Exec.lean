import Glia.Rules.Closure
import Glia.Rules.Messages
import Glia.Rules.Resolve

/-! The step interpreter: one plan's steps run depth-first over the relations, handing
every complete binding on. The frame stack is the recursion over the steps, and heights have no
bound, where the source's stop at the greatest `u32`. -/
namespace Glia.Rules

inductive RulesError where
  | invalid (errors : List Diagnostic)
  | budget (predicate : String) (rows cap : Nat)
  | builtin (name message : String)
  | type (predicate message : String)
  | unknown (predicate : String) (known : List String)
  deriving DecidableEq, Repr

/-- The row budget: rows charged so far against `cap`, and the count that first passed
it. -/
structure Budget where
  cap : Nat
  used : Nat
  tripped : Option Nat
  deriving DecidableEq, Repr

namespace Budget

def new (cap : Nat) : Budget := ⟨cap, 0, none⟩

def charge (b : Budget) (n : Nat) : Budget :=
  let used := b.used + n
  { b with
    used := used
    tripped := if b.cap < used ∧ b.tripped = none then some used else b.tripped }

def remaining (b : Budget) : Nat := b.cap - b.used

end Budget

/-- Builtin rows per call, with the arena they fill: a call past its reach is not
memoised. -/
structure Memo where
  records : List ((Nat × List (Option Value)) × List (Row × Tier))
  arena : Nat

namespace Memo

def new : Memo := ⟨[], 0⟩

def find (m : Memo) (builtin : Nat) (args : List (Option Value)) : Option (List (Row × Tier)) :=
  (m.records.find? fun r => r.1 == (builtin, args)).map Prod.snd

def insert (m : Memo) (builtin : Nat) (args : List (Option Value)) (rows : List (Row × Tier)) :
    Memo :=
  let size := 3 + args.length + rows.length * (args.length + 1)
  if m.arena + size < 4294967295 ∧ builtin ≤ 4294967295 then
    ⟨((builtin, args), rows) :: m.records, m.arena + size⟩
  else m

end Memo

/-- A hoisted reach's kept state: its distinct seeds with their best level, what the walk
reached, and the highest seed height. -/
structure MultiState where
  seeds : List (NodeId × Tier)
  reached : List (NodeId × Tier)
  height : Nat
  deriving DecidableEq, Repr

/-- How a body runs: at a level of evaluation, over every level for an aggregate, or below
a height for explain. -/
inductive Mode where
  | eval (level : Tier) (firstRound : Bool)
  | fold
  | explain (level : Tier) (maxHeight : Nat) (bound : List (Nat × Value))
  deriving DecidableEq, Repr

structure LitRow where
  step : Nat
  pred : Option PredId
  row : Row
  tier : Tier
  prov : RowMeta
  ordinal : Nat
  deriving DecidableEq, Repr

structure Binding where
  vars : Env
  level : Tier
  height : Nat
  lits : List LitRow

structure Vis where
  level : Tier
  first : Bool
  maxHeight : Option Nat
  explain : Bool
  /-- Charge the budget. -/
  count : Bool
  heightAt : Option Tier
  lowered : Bool
  deriving DecidableEq, Repr

namespace Vis

def ofMode : Mode → Vis
  | .eval level first => ⟨level, first, none, false, true, some level, true⟩
  | .fold => ⟨.heuristic, true, none, false, true, none, false⟩
  | .explain level maxHeight _ => ⟨level, false, some maxHeight, true, false, some level, false⟩

/-- The levels `low..=high` and batches `src` reads. -/
def span (v : Vis) (src : Src) : Nat × Nat × Which :=
  let l := v.level.level
  if v.explain then (0, l, .both)
  else
    match src, v.first with
    | .all, _ => (0, l, .both)
    | .delta, true => (l, l, .both)
    | .delta, false => (l, l, .recent)
    | .old, true => if l = 0 then (1, 0, .both) else (0, l - 1, .both)
    | .old, false => (0, l, .stable)

def view (v : Vis) (src : Src) : View :=
  let s := v.span src
  ⟨s.1, s.2.1, s.2.2, v.maxHeight, v.heightAt, v.lowered && src == .delta⟩

/-- A complete-input row at `tier` is visible. -/
def admits (v : Vis) (src : Src) (tier : Tier) : Bool :=
  let s := v.span src
  s.2.2 != .recent && decide (s.1 ≤ tier.level ∧ tier.level ≤ s.2.1)

/-- Every level, no height bound: what a negation and a hoisted seed read. -/
def complete (count : Bool) : Vis := ⟨.heuristic, false, none, false, count, none, false⟩

end Vis

structure Alt where
  row : Row
  tier : Tier
  prov : RowMeta
  ordinal : Nat
  deriving DecidableEq, Repr

def Alt.unit : Alt := ⟨[], .fact, loaded, noOrdinal⟩

def fits (wants : List (Nat × Want)) (row : Row) : Bool :=
  wants.all fun w =>
    let want := match w.2 with
      | .val v => some v
      | .col o => row[o]?
    want.isSome && row[w.1]? == want

structure Ctx where
  src : FactSource
  tiers : List Tier
  rels : List Relation
  scc : List (CatSet × Relation)
  impls : List (Option Builtin)
  decls : List BuiltinDecl

/-- What a run changes: the closure, the memo, the hoisted reaches, the budget, the run's
unbound reaches by step, and the bindings emitted. -/
structure ExecState where
  closure : Closure
  memo : Memo
  multi : Nat → Option MultiState
  budget : Budget
  all : Nat → Option (List (NodeId × NodeId × Tier))
  out : List Binding

inductive Outcome (α : Type) where
  | ok (s : ExecState) (a : α)
  | stop (s : ExecState)
  | fail (e : RulesError)

abbrev Exec (α : Type) := ExecState → Outcome α

namespace Exec

def pure {α : Type} (a : α) : Exec α := fun s => .ok s a

def bind {α β : Type} (m : Exec α) (f : α → Exec β) : Exec β := fun s =>
  match m s with
  | .ok s a => f a s
  | .stop s => .stop s
  | .fail e => .fail e

def get : Exec ExecState := fun s => .ok s s

def modify (f : ExecState → ExecState) : Exec Unit := fun s => .ok (f s) ()

def fail {α : Type} (e : RulesError) : Exec α := fun _ => .fail e

def halt {α : Type} : Exec α := fun s => .stop s

/-- Count `n` rows when the run counts; return early once the budget tripped. -/
def charge (count : Bool) (n : Nat) : Exec Unit := fun s =>
  if count then
    let s := { s with budget := s.budget.charge n }
    if s.budget.tripped.isSome then .stop s else .ok s ()
  else .ok s ()

def each {α : Type} (f : α → Exec Unit) : List α → Exec Unit
  | [] => pure ()
  | a :: rest => bind (f a) fun _ => each f rest

end Exec

section Steps

open Algo

variable (ctx : Ctx)

/-- The order of two values: ints, strings, nodes by rendered key then id; none across
types. -/
def compareValues (src : FactSource) (a b : Value) : Option Ordering :=
  match a, b with
  | .int x, .int y => some (compare x y)
  | .str x, .str y => some (compare x y)
  | .node x, .node y =>
    some ((compare (src.renderNode x) (src.renderNode y)).then (compare x y))
  | _, _ => none

/-- `=` and `!=` compare values; the `<` family is false across types. -/
def compareOp (src : FactSource) (op : CmpOp) (a b : Value) : Bool :=
  match op with
  | .eq => a == b
  | .ne => a != b
  | .lt => (compareValues src a b).any fun o => o == .lt
  | .le => (compareValues src a b).any fun o => o != .gt
  | .gt => (compareValues src a b).any fun o => o == .gt
  | .ge => (compareValues src a b).any fun o => o != .lt

def relationAlts (wants : List (Nat × Want)) (rows : List Seen) : List Alt :=
  (rows.filter fun s => fits wants s.row).map fun s => ⟨s.row, s.tier, s.prov, s.ordinal⟩

/-- Complete-input rows that are visible and meet the checks. -/
def builtinAlts (vis : Vis) (src : Src) (wants : List (Nat × Want)) (rows : List (Row × Tier)) :
    List Alt :=
  (rows.filter fun r => vis.admits src r.2 && fits wants r.1).map fun r =>
    ⟨r.1, r.2, loaded, noOrdinal⟩

def calledRows (tiered : Bool) (width : Nat) (found : List BuiltinRow) : List (Row × Tier) :=
  (found.filter fun r => r.values.length = width).map fun r =>
    (r.values, if tiered then r.tier else .fact)

def fillMemo (b : Nat) (key : List (Option Value)) (imp : Builtin) (count : Bool) :
    Exec (List (Row × Tier)) := fun s =>
  match imp key with
  | .error message =>
    .fail (.builtin ((ctx.decls[b]?.map BuiltinDecl.signature).getD "") message)
  | .ok found =>
    let tiered := (ctx.decls[b]?.map BuiltinDecl.tiered).getD true
    let rows := calledRows tiered key.length found
    Exec.bind (Exec.modify fun s => { s with memo := s.memo.insert b key rows })
      (fun _ => Exec.bind (Exec.charge count rows.length) fun _ => Exec.pure rows) s

def memoised (b : Nat) (key : List (Option Value)) (imp : Builtin) (count : Bool) :
    Exec (List (Row × Tier)) := fun s =>
  match s.memo.find b key with
  | some rows => .ok s rows
  | none => fillMemo ctx b key imp count s

def sccSeen (rel : Relation) (view : View) : Option Value → Option Value → List Seen
  | some x, some rep => rel.seek [0, 1] view [x, rep]
  | some x, none => rel.seek [0, 1] view [x]
  | none, some rep => rel.seek [1, 0] view [rep]
  | none, none => rel.scan view

/-- The checks that each bound argument equals its column. -/
def argWants (key : List (Option Value)) : List (Nat × Want) :=
  key.zipIdx.filterMap fun a => a.1.map fun v => (a.2, .val v)

/-- A builtin call: a domain or string builtin through the memo, an `scc` call from its
category set's relation. -/
def call (b : Nat) (cats : Option CatSet) (args : List (Option KeyPart))
    (wants : List (Nat × Want)) (vis : Vis) (src : Src) (env : Env) : Exec (List Alt) :=
  let imp := (ctx.impls[b]?).join
  let args := if imp.isSome then args else args.take 2
  match opts ctx.src.tables env args with
  | none => Exec.pure []
  | some key =>
    let wants := wants ++ argWants key
    match imp with
    | some imp =>
      Exec.bind (memoised ctx b key imp vis.count) fun rows =>
        Exec.pure (builtinAlts vis src wants rows)
    | none =>
      match cats.bind fun c => ctx.scc.find? fun s => s.1 == c, key with
      | some (_, rel), [x, rep] => Exec.pure (relationAlts wants (sccSeen rel (vis.view src) x rep))
      | _, _ => Exec.pure []

def closureWalk (cats : CatSet) (source : NodeId) (backward : Bool) (depth : Option Nat) :
    Exec (List (NodeId × Tier) × Nat) := fun s =>
  let r := s.closure.reach ctx.src ctx.tiers cats source backward depth
  .ok { s with closure := r.1 } (r.2, r.1.memoRows - s.closure.memoRows)

/-- Every pair of a `reaches` with both ends free, once per run. -/
def closureAll (k : Nat) (cats : CatSet) (depth : Option Nat) (count : Bool) :
    Exec (List (NodeId × NodeId × Tier)) := fun s =>
  match s.all k with
  | some rows => .ok s rows
  | none =>
    let limit := if count then s.budget.remaining else usizeMax
    let r := s.closure.reachAll ctx.src ctx.tiers cats depth limit
    let s := { s with closure := r.1 }
    match r.2 with
    | none => Exec.bind (Exec.charge count (limit + 1)) (fun _ => Exec.halt) s
    | some rows =>
      Exec.bind (Exec.charge count rows.length)
        (fun _ => Exec.bind (Exec.modify fun s => { s with all := Function.update s.all k rows })
          fun _ => Exec.pure rows) s

/-- `reaches(source, target)` rows, `none` a free end: per source through the closure's
memo, backward from a bound target alone, or every pair when both are free. A bound end
that is no node reaches nothing. -/
def reach (k : Nat) (cats : CatSet) (depth : Option Nat) (source target : Option Value)
    (wants : List (Nat × Want)) (vis : Vis) (src : Src) : Exec (List Alt) :=
  match source, target with
  | some f, target =>
    match f.nodeId?, target.map Value.nodeId? with
    | none, _ => Exec.pure []
    | some _, some none => Exec.pure []
    | some id, target =>
      Exec.bind (closureWalk ctx cats id false depth) fun r =>
        Exec.bind (Exec.charge vis.count r.2) fun _ =>
          Exec.pure (builtinAlts vis src wants ((r.1.filter fun e =>
            match target.join with
            | none => true
            | some w => w == e.1).map fun e => ([f, .node e.1], e.2)))
  | none, some t =>
    match t.nodeId? with
    | none => Exec.pure []
    | some id =>
      Exec.bind (closureWalk ctx cats id true depth) fun r =>
        Exec.bind (Exec.charge vis.count r.2) fun _ =>
          Exec.pure (builtinAlts vis src wants (r.1.map fun e => ([.node e.1, t], e.2)))
  | none, none =>
    Exec.bind (closureAll ctx k cats depth vis.count) fun rows =>
      Exec.bind (Exec.charge vis.count 0) fun _ =>
        Exec.pure (builtinAlts vis src wants
          (rows.map fun e => ([.node e.1, .node e.2.1], e.2.2)))

/-- One distinct node seed with its best level, and its lowest height there. -/
def addMultiSeed (seeds : List (NodeId × Tier × Nat)) (raw : Value × Tier × Nat) :
    List (NodeId × Tier × Nat) :=
  match raw.1.nodeId? with
  | none => seeds
  | some id =>
    if seeds.any fun s => s.1 == id then
      seeds.map fun s =>
        if s.1 = id ∧ (raw.2.1 < s.2.1 ∨ (raw.2.1 = s.2.1 ∧ raw.2.2 < s.2.2)) then (id, raw.2)
        else s
    else seeds ++ [(id, raw.2)]

def multiSeeds (seedVar : Nat) (out : List Binding) : List (NodeId × Tier × Nat) :=
  (out.filterMap fun b => (b.vars seedVar).map fun v => (v, b.level, b.height)).foldl
    addMultiSeed []

def start (count : Bool) (steps : List Step) (body : Exec Unit) : Exec Unit := fun s =>
  if count && s.budget.tripped.isSome then .stop s
  else
    let all := s.all
    let done := if steps.isEmpty then Exec.bind (Exec.charge count 1) fun _ => body else body
    match done { s with all := fun _ => none } with
    | .ok s a => .ok { s with all := all } a
    | .stop s => .stop { s with all := all }
    | .fail e => .fail e

/-- Run a hoisted reach's seed, walk once from its distinct seeds and keep the result. -/
def fillMulti (slot : Nat) (cats : CatSet) (depth : Option Nat) (seedVar : Nat)
    (backward count : Bool) (seedRun : Exec Unit) : Exec Unit := fun s =>
  let out := s.out
  let next : ExecState → Outcome Unit := fun s =>
    let raw := s.out
    let s := { s with out := out }
    if count && s.budget.tripped.isSome then .stop s
    else
      let seeds := multiSeeds seedVar raw
      let starts := seeds.map fun e => (e.1, e.2.1)
      let r := s.closure.reachFrom ctx.src ctx.tiers cats starts backward depth
      let height := (seeds.map fun e => e.2.2).foldl max 0
      let s := { s with
        closure := r.1
        multi := Function.update s.multi slot (some ⟨starts, r.2, height⟩) }
      Exec.charge count (starts.length + r.2.length) s
  match seedRun { s with out := [] } with
  | .ok s _ => next s
  | .stop s => next s
  | .fail e => .fail e

/-- A hoisted reach's rows, strongest level first. -/
def multiAlts (vis : Vis) (src : Src) (m : MultiState) : List Alt :=
  Tier.all.flatMap fun tier =>
    if vis.admits src tier then
      (m.reached.filter fun r => r.2 = tier).map fun r =>
        ⟨[.node r.1], tier, ⟨m.height, edbRule⟩, noOrdinal⟩
    else []

def expandPlain (vis : Vis) (k : Nat) (env : Env) : Step → Exec (List Alt)
  | .scan pred _ binds checks src =>
    match ctx.rels[pred]?, wants ctx.src.tables env binds checks with
    | some rel, some ws => Exec.pure (relationAlts ws (rel.scan (vis.view src)))
    | _, _ => Exec.pure []
  | .lookup pred perm key binds checks src =>
    match ctx.rels[pred]?, parts ctx.src.tables env key, wants ctx.src.tables env binds checks with
    | some rel, some key, some ws =>
      Exec.pure (relationAlts ws (rel.seek perm (vis.view src) key))
    | _, _, _ => Exec.pure []
  | .neg pred perm key =>
    match parts ctx.src.tables env key with
    | none => Exec.pure []
    | some key =>
      match ctx.rels[pred]? with
      | none => Exec.pure [Alt.unit]
      | some rel => Exec.pure (if rel.existsPrefix perm key then [] else [Alt.unit])
  | .cmp op l r =>
    match resolvePart ctx.src.tables env l, resolvePart ctx.src.tables env r with
    | some a, some b => Exec.pure (if compareOp ctx.src op a b then [Alt.unit] else [])
    | _, _ => Exec.pure []
  | .assign _ part =>
    match resolvePart ctx.src.tables env part with
    | none => Exec.pure []
    | some v => Exec.pure [⟨[v], .fact, loaded, noOrdinal⟩]
  | .call b cats args binds checks src =>
    match wants ctx.src.tables env binds checks with
    | none => Exec.pure []
    | some ws => call ctx b cats args ws vis src env
  | .negCall b cats args =>
    Exec.bind (call ctx b cats args [] (Vis.complete vis.count) .all env) fun alts =>
      Exec.pure (if alts.isEmpty then [Alt.unit] else [])
  | .reach cats depth source target binds checks src =>
    match wants ctx.src.tables env binds checks, opt ctx.src.tables env source,
        opt ctx.src.tables env target with
    | some ws, some source, some target => reach ctx k cats depth source target ws vis src
    | _, _, _ => Exec.pure []
  | .negReach cats depth source target =>
    match opt ctx.src.tables env source, opt ctx.src.tables env target with
    | some source, some target =>
      Exec.bind (reach ctx k cats depth source target [] (Vis.complete vis.count) .all)
        fun alts => Exec.pure (if alts.isEmpty then [Alt.unit] else [])
    | _, _ => Exec.pure []
  | .reachMulti _ _ _ _ _ _ _ _ => Exec.pure []

def litRow (k : Nat) (step : Step) (a : Alt) : List LitRow :=
  let row (pred : Option PredId) : List LitRow := [⟨k, pred, a.row, a.tier, a.prov, a.ordinal⟩]
  match step with
  | .scan pred _ _ _ _ => row (some pred)
  | .lookup pred _ _ _ _ _ => row (some pred)
  | .call _ _ _ _ _ _ => row none
  | .reach _ _ _ _ _ _ _ => row none
  | .reachMulti _ _ _ _ _ _ _ _ => row none
  | .neg _ _ _ => []
  | .cmp _ _ _ => []
  | .assign _ _ => []
  | .negCall _ _ _ => []
  | .negReach _ _ _ _ => []

def Binding.take (b : Binding) (vis : Vis) (k : Nat) (step : Step) (a : Alt) : Binding where
  vars := takeRow step b.vars a.row
  level := b.level.weakest a.tier
  height := max b.height a.prov.height
  lits := if vis.explain then b.lits ++ litRow k step a else b.lits

def Binding.start (env : Env) : Binding := ⟨env, .fact, 0, []⟩

def emit (b : Binding) : Exec Unit := Exec.modify fun s => { s with out := s.out ++ [b] }

mutual

def expand (vis : Vis) (k : Nat) (env : Env) : Step → Exec (List Alt)
  | .reachMulti slot cats depth seed seedVar backward _ src => fun s =>
    let fill := match s.multi slot with
      | some _ => Exec.pure ()
      | none =>
        fillMulti ctx slot cats depth seedVar backward vis.count
          (start vis.count seed
            (walk (Vis.complete vis.count) 0 (Binding.start emptyEnv) seed))
    Exec.bind fill (fun _ s =>
      match s.multi slot with
      | none => .ok s []
      | some m => .ok s (multiAlts vis src m)) s
  | .scan pred perm binds checks src => expandPlain ctx vis k env (.scan pred perm binds checks src)
  | .lookup pred perm key binds checks src =>
    expandPlain ctx vis k env (.lookup pred perm key binds checks src)
  | .neg pred perm key => expandPlain ctx vis k env (.neg pred perm key)
  | .cmp op l r => expandPlain ctx vis k env (.cmp op l r)
  | .assign var part => expandPlain ctx vis k env (.assign var part)
  | .call b cats args binds checks src =>
    expandPlain ctx vis k env (.call b cats args binds checks src)
  | .negCall b cats args => expandPlain ctx vis k env (.negCall b cats args)
  | .reach cats depth source target binds checks src =>
    expandPlain ctx vis k env (.reach cats depth source target binds checks src)
  | .negReach cats depth source target =>
    expandPlain ctx vis k env (.negReach cats depth source target)

def walk (vis : Vis) (k : Nat) (b : Binding) : List Step → Exec Unit
  | [] => emit b
  | step :: rest =>
    Exec.bind (expand vis k b.vars step) fun alts =>
      Exec.bind (Exec.charge vis.count alts.length) fun _ =>
        Exec.each (fun a => walk vis (k + 1) (b.take vis k step a) rest) alts

end

def bindBound (bound : List (Nat × Value)) : Env :=
  bound.foldl (fun env b => Function.update env b.1 (some b.2)) emptyEnv

/-- Run `steps` in `mode`, emitting every complete binding. An early return leaves the
budget tripped. -/
def runBody (steps : List Step) (mode : Mode) : Exec Unit :=
  let vis := Vis.ofMode mode
  let bound := match mode with
    | .explain _ _ bound => bound
    | .eval _ _ => []
    | .fold => []
  start vis.count steps (walk ctx vis 0 (Binding.start (bindBound bound)) steps)

end Steps

end Glia.Rules
