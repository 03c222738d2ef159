import Glia.Rules.Analysis

/-! Per-stratum rule plans: semi-naive variants, bound-first order, and the reaches
hoist. A relation step names the permutation it reads; the number of that permutation
among a relation's indexes is not modelled. -/
namespace Glia.Rules

/-- Which rows a step reads at the level and round being run. -/
inductive Src where
  | old
  | delta
  | all
  deriving DecidableEq, Repr

/-- A value a step reads: a constant, or a variable bound by an earlier step. -/
inductive KeyPart where
  | const (c : ConstVal)
  | var (v : Nat)
  deriving DecidableEq, Repr

/-- Set the variable from that column of the step's row. -/
abbrev Bind := Nat × Nat

/-- After the step's binds, that column must equal the part. -/
abbrev Check := Nat × KeyPart

inductive Step where
  /-- Every row of `pred`. -/
  | scan (pred : PredId) (perm : List Nat) (binds : List Bind) (checks : List Check) (src : Src)
  /-- The rows of `pred` whose `perm` prefix equals `key`. -/
  | lookup (pred : PredId) (perm : List Nat) (key : List KeyPart) (binds : List Bind)
      (checks : List Check) (src : Src)
  /-- No row of `pred` at any level has the `perm` prefix `key`. -/
  | neg (pred : PredId) (perm : List Nat) (key : List KeyPart)
  | cmp (op : CmpOp) (l r : KeyPart)
  /-- Bind `var` to `part`. -/
  | assign (var : Nat) (part : KeyPart)
  /-- A builtin call; `cats` is the category set of an `scc` call. -/
  | call (builtin : Nat) (cats : Option CatSet) (args : List (Option KeyPart))
      (binds : List Bind) (checks : List Check) (src : Src)
  /-- The builtin call yields no row; a `none` argument is a wildcard. -/
  | negCall (builtin : Nat) (cats : Option CatSet) (args : List (Option KeyPart))
  /-- `reaches(source, target)` per binding; `none` is a free end. -/
  | reach (cats : CatSet) (depth : Option Nat) (source target : Option KeyPart)
      (binds : List Bind) (checks : List Check) (src : Src)
  | negReach (cats : CatSet) (depth : Option Nat) (source target : Option KeyPart)
  /-- The hoisted multi-source reach: run `seed` over complete input, walk once from the
  distinct values of `seedVar`, and bind `bind` to each reached node. -/
  | reachMulti (slot : Nat) (cats : CatSet) (depth : Option Nat) (seed : List Step)
      (seedVar : Nat) (backward : Bool) (bind : Nat) (src : Src)
  deriving Repr

/-- One semi-naive variant of a rule: the body literal that reads the delta, the steps
and the head row a binding emits. -/
structure Variant where
  delta : Option Nat
  steps : List Step
  head : List KeyPart
  deriving Repr

structure RulePlan where
  rule : Nat
  variants : List Variant
  deriving Repr

/-- Where an aggregate row's column comes from. -/
inductive OutCol where
  | group (i : Nat)
  | agg (j : Nat)
  deriving DecidableEq, Repr

/-- How an aggregate rule's projected bindings are folded. -/
structure AggSpec where
  group : Nat
  ops : List (AggOp × List Nat)
  outOrder : List OutCol
  deriving DecidableEq, Repr

structure StratumPlan where
  rules : List RulePlan
  multiSlots : Nat
  agg : Option AggSpec
  deriving Repr

/-- The variant-`delta` source of body literal `j`. -/
def assign (j delta : Nat) : Src :=
  if j < delta then .old else if j = delta then .delta else .all

def part : CTerm → Option KeyPart
  | .const c => some (.const c)
  | .var v => some (.var v)
  | .wild => none

def boundPart (bound : Bound) (t : Option CTerm) : Option KeyPart :=
  match t with
  | some t => if isBound bound t then part t else none
  | none => none

def markLit (bound : Bound) (lit : CLit) : Bound := markAll bound lit.terms

def varColumns (terms : List CTerm) (cols : List Nat) : List Bind :=
  cols.filterMap fun c =>
    match terms[c]? with
    | some (CTerm.var v) => some (c, v)
    | _ => none

/-- A variable's first column binds it, a repeat checks against it. -/
def splitColumns : List Bind → List Check → List Bind → List Bind × List Check
  | binds, checks, [] => (binds, checks)
  | binds, checks, b :: rest =>
    if binds.any fun e => e.2 == b.2 then splitColumns binds (checks ++ [(b.1, .var b.2)]) rest
    else splitColumns (binds ++ [b]) checks rest

def freeColumns (terms : List CTerm) (cols : List Nat) : List Bind × List Check :=
  splitColumns [] [] (varColumns terms cols)

def boundCols (terms : List CTerm) (bound : Bound) : List Nat :=
  (List.range terms.length).filter fun c => isBound bound (terms.getD c .wild)

def freeCols (terms : List CTerm) (bound : Bound) : List Nat :=
  (List.range terms.length).filter fun c => !isBound bound (terms.getD c .wild)

def keyOf (terms : List CTerm) (bound : Bound) : List KeyPart :=
  (boundCols terms bound).filterMap fun c => part (terms.getD c .wild)

def permOf (terms : List CTerm) (bound : Bound) : List Nat :=
  boundCols terms bound ++ freeCols terms bound

def relationStep (p : PredId) (terms : List CTerm) (bound : Bound) (src : Src) : Step :=
  let key := keyOf terms bound
  let perm := permOf terms bound
  let free := freeColumns terms (freeCols terms bound)
  if key = [] then .scan p perm free.1 free.2 src else .lookup p perm key free.1 free.2 src

def freeVar (bound : Bound) : CTerm → Option Nat
  | .var v => if bound v then none else some v
  | .wild => none
  | .const _ => none

def comparison (op : CmpOp) (l r : CTerm) (bound : Bound) : Option Step :=
  match part l, part r with
  | some lp, some rp =>
    match op, freeVar bound l, freeVar bound r with
    | .eq, some v, none => some (.assign v rp)
    | .eq, none, some w => some (.assign w lp)
    | _, _, _ => some (.cmp op lp rp)
  | _, _ => none

def depthLimit : Int := 4294967295

/-- The hop bound of a `reaches/4` call: its depth constant, negative as 0. -/
def depth (terms : List CTerm) : Option Nat :=
  match terms[3]? with
  | some (CTerm.const (.int n)) =>
    some (if n < 0 then 0 else if depthLimit < n then depthLimit.toNat else n.toNat)
  | _ => none

/-- The head row: one part per head term; an aggregate's slot has none. -/
def headParts (rule : CRule) : List KeyPart := rule.headTerms.filterMap part

def headVars (rule : CRule) : Bound :=
  (rule.aggs.flatMap Prod.snd).foldl (fun b v => Function.update b v true)
    (markAll (fun _ => false) rule.headTerms)

section Planner

variable (preds : List PredInfo) (catalog : Catalog) (own : List PredId)

def kindOf (p : PredId) : Option PredKind := preds[p]?.map PredInfo.kind

def isReaches (b : Nat) : Bool :=
  match catalog.builtins[b]? with
  | some d => d.kind == .reaches
  | none => false

def isRelation : CLit → Bool
  | .pos p _ =>
    match kindOf preds p with
    | some .idb => true
    | some (.edb _) => true
    | some (.builtin _) => false
    | none => false
  | .neg _ _ => false
  | .cmp _ _ _ => false

def deltaCapable : CLit → Bool
  | .pos p _ =>
    match kindOf preds p with
    | some .idb => true
    | some (.edb _) => true
    | some (.builtin b) =>
      match catalog.builtins[b]? with
      | some d => d.tiered
      | none => false
    | none => false
  | .neg _ _ => false
  | .cmp _ _ _ => false

/-- A positive atom of the stratum being planned. -/
def readsOwn : CLit → Bool
  | .pos p _ => own.contains p
  | .neg _ _ => false
  | .cmp _ _ _ => false

/-- A positive builtin: a per-binding reach, or a call. -/
def callStep (b : Nat) (terms : List CTerm) (bound : Bound) (src : Src) : Step :=
  let cats := closureSet catalog b terms
  let reach := isReaches catalog b
  let span := if reach then min terms.length 2 else terms.length
  let free := (List.range span).filter fun c => !isBound bound (terms.getD c .wild)
  let fc := freeColumns terms free
  if reach then
    .reach (cats.getD .all) (depth terms) (boundPart bound terms[0]?) (boundPart bound terms[1]?)
      fc.1 fc.2 src
  else .call b cats (terms.map fun t => boundPart bound (some t)) fc.1 fc.2 src

/-- One literal's step under `bound`, reading `src`. -/
def litStep (lit : CLit) (bound : Bound) (src : Src) : Option Step :=
  match lit with
  | .pos p terms =>
    match kindOf preds p with
    | some (.builtin b) => some (callStep catalog b terms bound src)
    | _ => some (relationStep p terms bound src)
  | .neg p terms =>
    match kindOf preds p with
    | some (.builtin b) =>
      if isReaches catalog b then
        some (.negReach ((closureSet catalog b terms).getD .all) (depth terms)
          (boundPart bound terms[0]?) (boundPart bound terms[1]?))
      else
        some (.negCall b (closureSet catalog b terms)
          (terms.map fun t => boundPart bound (some t)))
    | _ => some (.neg p (permOf terms bound) (keyOf terms bound))
  | .cmp op l r => comparison op l r bound

/-- What one literal's step leaves bound. -/
def boundAfter (lit : CLit) (bound : Bound) : Bound :=
  match lit with
  | .pos _ terms => markAll bound terms
  | .neg _ _ => bound
  | .cmp op l r =>
    match comparison op l r bound with
    | some (.assign v _) => Function.update bound v true
    | _ => bound

/-- Some variable bound before the call is read after it. -/
def boundLive (nvars : Nat) (bound live : Bound) : Bool :=
  (List.range nvars).any fun v => bound v && live v

/-- The composite a `reaches` literal hoists `steps` into, when it meets the hoist
condition under `bound`, with `live` the variables read after it. -/
def hoistStep (nvars : Nat) (lit : CLit) (bound live : Bound) (steps : List Step)
    (slot : Nat) : Option Step :=
  match lit with
  | .pos p terms =>
    match kindOf preds p with
    | some (.builtin b) =>
      if !isReaches catalog b || steps.isEmpty then none
      else
        match terms[0]?, terms[1]? with
        | some (CTerm.var x), some (CTerm.var y) =>
          if bound x == bound y || boundLive nvars bound live then none
          else
            let backward := !bound x
            let seedVar := if backward then y else x
            let bind := if backward then x else y
            some (.reachMulti slot ((closureSet catalog b terms).getD .all) (depth terms) steps
              seedVar backward bind .all)
        | _, _ => none
    | _ => none
  | .neg _ _ => none
  | .cmp _ _ _ => none

/-- What planning a body has built so far; `folded` is the position of the last literal
folded into a composite. -/
structure PlanState where
  bound : Bound
  steps : List Step
  folded : Option Nat
  complete : Bool
  slots : Nat

def liveAfter (rule : CRule) (rest : List Nat) : Bound :=
  rest.foldr (fun i live =>
    match rule.body[i]? with
    | some lit => markLit live lit
    | none => live) (headVars rule)

def planLit (rule : CRule) (src : Nat → Src) (hoist : Bool) (k i : Nat) (rest : List Nat)
    (s : PlanState) : PlanState :=
  match rule.body[i]? with
  | none => s
  | some lit =>
    let multi :=
      if hoist && s.complete then
        hoistStep preds catalog rule.nvars lit s.bound (liveAfter rule rest) s.steps s.slots
      else none
    match multi with
    | some step =>
      { bound := markAll s.bound lit.terms
        steps := [step]
        folded := some k
        complete := s.complete
        slots := s.slots + 1 }
    | none =>
      { s with
        bound := boundAfter lit s.bound
        steps := s.steps ++ (litStep preds catalog lit s.bound (src i)).toList
        complete := s.complete && !readsOwn own lit }

def planFrom (rule : CRule) (src : Nat → Src) (hoist : Bool) :
    Nat → List Nat → PlanState → PlanState
  | _, [], s => s
  | k, i :: rest, s =>
    planFrom rule src hoist (k + 1) rest (planLit preds catalog own rule src hoist k i rest s)

def planBody (rule : CRule) (order : List Nat) (bound : Bound) (src : Nat → Src) (hoist : Bool)
    (slots : Nat) : PlanState :=
  planFrom preds catalog own rule src hoist 0 order ⟨bound, [], none, true, slots⟩

def membersBound (rule : CRule) (members : List Nat) : Bound :=
  members.foldl (fun b i =>
    match rule.body[i]? with
    | some lit => markLit b lit
    | none => b) (fun _ => false)

def setSrc (src : Src) : Step → Step
  | .reachMulti slot cats depth seed seedVar backward bind _ =>
    .reachMulti slot cats depth seed seedVar backward bind src
  | step => step

def plainVariant (rule : CRule) (size : PredId → Option Nat) (slots d : Nat) : Variant :=
  let first := if (rule.body[d]?).any (isRelation preds) then some d else none
  let order := sipsOrder rule preds catalog (fun _ => false) first size
  { delta := some d
    steps := (planBody preds catalog own rule order (fun _ => false) (fun j => assign j d) false
      slots).steps
    head := headParts rule }

def hoistVariant (rule : CRule) (size : PredId → Option Nat) (slots : Nat) (members : List Nat)
    (composite : List Step) (r d : Nat) : Variant :=
  let cbound := membersBound rule members
  let first := if d ≠ r ∧ (rule.body[d]?).any (isRelation preds) then some d else none
  let order := (sipsOrder rule preds catalog cbound first size).filter fun i => !members.contains i
  { delta := some d
    steps := composite.map (setSrc (assign r d)) ++
      (planBody preds catalog own rule order cbound (fun j => assign j d) false slots).steps
    head := headParts rule }

def capable (rule : CRule) : List Nat :=
  (List.range rule.body.length).filter fun d => (rule.body[d]?).any (deltaCapable preds catalog)

def rulePlan (rule : CRule) (size : PredId → Option Nat) (slots : Nat) : RulePlan × Nat :=
  let order := sipsOrder rule preds catalog (fun _ => false) none size
  let base := planBody preds catalog own rule order (fun _ => false) (fun _ => .all) true slots
  let none' : Variant := ⟨none, base.steps, headParts rule⟩
  match base.folded with
  | none =>
    (⟨rule.index,
      none' :: (capable preds catalog rule).map (plainVariant preds catalog own rule size base.slots)⟩,
      base.slots)
  | some k =>
    let members := order.take (k + 1)
    let r := order.getD k 0
    let deltas := (((capable preds catalog rule).filter fun d => !members.contains d) ++
      [r]).insertionSort (· ≤ ·)
    (⟨rule.index,
      none' :: deltas.map
        (hoistVariant preds catalog own rule size base.slots members (base.steps.take 1) r)⟩,
      base.slots)

/-- The projected binding: the group parts, then the distinct aggregated variables. -/
def aggregated (rule : CRule) : List Nat :=
  (rule.aggs.flatMap Prod.snd).foldl (fun vs v => if vs.contains v then vs else vs ++ [v]) []

def outOrder : Nat → Nat → List CTerm → List OutCol
  | _, _, [] => []
  | g, j, t :: rest =>
    match part t with
    | some _ => .group g :: outOrder (g + 1) j rest
    | none => .agg j :: outOrder g (j + 1) rest

def aggregatePlan (rule : CRule) (size : PredId → Option Nat) (slots : Nat) :
    Variant × AggSpec × Nat :=
  let order := sipsOrder rule preds catalog (fun _ => false) none size
  let base := planBody preds catalog own rule order (fun _ => false) (fun _ => .all) true slots
  let group := (headParts rule).length
  (⟨none, base.steps, headParts rule ++ (aggregated rule).map KeyPart.var⟩,
    ⟨group, rule.aggs.map fun a => (a.1, a.2.map fun v => group + (aggregated rule).idxOf v),
      outOrder 0 0 rule.headTerms⟩,
    base.slots)

/-- The stratum's own predicates are still growing and read as unknown. -/
def maskedSize (size : PredId → Option Nat) (p : PredId) : Option Nat :=
  if own.contains p then none else size p

def planRules (size : PredId → Option Nat) : List CRule → StratumPlan → StratumPlan
  | [], out => out
  | rule :: rest, out =>
    if rule.aggs.isEmpty then
      let p := rulePlan preds catalog own rule (maskedSize own size) out.multiSlots
      planRules size rest { out with rules := out.rules ++ [p.1], multiSlots := p.2 }
    else
      let p := aggregatePlan preds catalog own rule (maskedSize own size) out.multiSlots
      planRules size rest
        { rules := out.rules ++ [⟨rule.index, [p.1]⟩], multiSlots := p.2.2, agg := some p.2.1 }

end Planner

def planStratum (an : Analysis) (catalog : Catalog) (stratum : Nat)
    (size : PredId → Option Nat) : StratumPlan :=
  match an.strata[stratum]? with
  | none => ⟨[], 0, none⟩
  | some st =>
    planRules an.preds catalog st.preds size (an.rules.filter fun r => st.preds.contains r.head)
      ⟨[], 0, none⟩

/-- The explain plan of rule `rule` with `bound` marking the variables bound before the
body: every step reads everything, nothing is hoisted. -/
def planBound (an : Analysis) (catalog : Catalog) (rule : Nat) (bound : Bound) : List Step :=
  match an.rules.find? fun r => r.index == rule with
  | none => []
  | some r =>
    let b : Bound := fun v => decide (v < r.nvars) && bound v
    let order := sipsOrder r an.preds catalog b none (fun _ => none)
    (planBody an.preds catalog [] r order b (fun _ => .all) false 0).steps

end Glia.Rules
