import Glia.Rules.Aggregate

/-! Evaluation: EDB loading narrowed to what the program names, then each stratum's three
levelled semi-naive fixpoints, or its aggregate, under the row budget. The counters and
the memory budget are not modelled. -/
namespace Glia.Rules

/-- One family's restriction: the ids every atom names, `none` once one names none. -/
def narrow (ids : Option (List Nat)) (t : Option CTerm) (table : List (Nat × String)) :
    Option (List Nat) :=
  let named := match t with
    | some (CTerm.const (.str name)) => (table.find? fun e => e.2 == name).map Prod.fst
    | _ => none
  match ids, named with
  | some ids, some i => some (if ids.contains i then ids else ids ++ [i])
  | _, _ => none

def narrowLit (preds : List PredInfo) (reg : Registries) (r : Restrict) (lit : CLit) : Restrict :=
  let atom (p : PredId) (terms : List CTerm) : Restrict :=
    match kindOf preds p with
    | some (.edb e) =>
      { categories :=
          if e = .edge ∨ e = .edgeConf ∨ e = .edgeCell then
            narrow r.categories terms[2]? reg.edgeCategories
          else r.categories
        cellTypes :=
          if e = .cell then narrow r.cellTypes terms[1]? reg.cellTypes
          else if e = .edgeCell then narrow r.cellTypes terms[3]? reg.cellTypes
          else r.cellTypes }
    | _ => r
  match lit with
  | .pos p terms => atom p terms
  | .neg p terms => atom p terms
  | .cmp _ _ _ => r

/-- What the EDB loads keep: the categories every edge atom names and the cell types every
cell atom names. -/
def restriction (an : Analysis) (catalog : Catalog) : Restrict :=
  (an.rules.flatMap CRule.body).foldl (narrowLit an.preds catalog.registries) ⟨some [], some []⟩

def readsEdges (an : Analysis) (catalog : Catalog) : Bool :=
  an.preds.any fun p =>
    match p.kind with
    | .edb e => e == .edge || e == .edgeConf || e == .edgeCell
    | .builtin b => (catalog.builtins[b]?).any fun d => d.kind == .reaches || d.kind == .scc
    | .idb => false

/-- The text before the last `__` and after it. -/
def rsplitName (name : List Char) : Option (List Char × List Char) :=
  (List.range name.length).reverse.findSome? fun i =>
    if (name.drop i).take 2 = ['_', '_'] then some (name.take i, name.drop (i + 2)) else none

/-- The user predicate behind a predicate: itself, or for a magic copy the predicate it was
made from. -/
def userPredicate (an : Analysis) (p : PredId) : Option (String × Nat) :=
  match an.preds[p]? with
  | none => none
  | some info =>
    if !info.synthetic then some (info.name, info.arity)
    else
      let name := info.name.toList
      if "__a_".toList.isPrefixOf name then
        (rsplitName (name.drop 4)).map fun s => (String.ofList s.1, info.arity)
      else if "__m_".toList.isPrefixOf name then
        (rsplitName (name.drop 4)).map fun s => (String.ofList s.1, s.2.length)
      else none

def budgetError (an : Analysis) (p : PredId) (b : Budget) : RulesError :=
  let user := (userPredicate an p).getD ("", 0)
  .budget (signatureOf user.1 user.2) (b.tripped.getD b.used) b.cap

/-- The rows the next round inserts, of the new and the held candidates: every one at most
one above the lowest height among them; the rest wait. `none` when both are empty. -/
def nextBatch (adds waiting : List (PredId × Candidate)) :
    Option (List (PredId × Candidate) × List (PredId × Candidate)) :=
  let every := adds ++ waiting
  match (every.map fun c => c.2.prov.height).min? with
  | none => none
  | some low =>
    some (every.filter fun c => c.2.prov.height ≤ low + 1,
      every.filter fun c => low + 1 < c.2.prov.height)

structure EvalState where
  rels : List Relation
  atLevel : PredId → Tier → Nat
  scc : List (CatSet × Relation)
  exec : ExecState

section Eval

variable (src : FactSource) (handle : Value → Nat) (declared : Declared) (an : Analysis)
variable (tiers : List Tier)

def ctxOf (s : EvalState) : Ctx := ⟨src, tiers, s.rels, s.scc, declared.impls,
  declared.catalog.builtins⟩

def mine (own : List PredId) (p : PredId) : Bool := own.contains p

def addAtLevel (n : PredId → Tier → Nat) (p : PredId) (level : Tier) (k : Nat) :
    PredId → Tier → Nat :=
  fun q l => if q = p ∧ l = level then n q l + k else n q l

def loadPred (restrict : Restrict) (s : EvalState) (p : PredInfo × Nat) : EvalState :=
  match p.1.kind with
  | .edb e =>
    let rows := loadEdb src restrict e
    { s with
      rels := s.rels.modify p.2 fun rel => rel.load p.1.arity (rows.map fun r => (r, 0))
      atLevel := fun q l =>
        if q = p.2 then s.atLevel q l + (rows.filter fun r => r.level = l).length
        else s.atLevel q l }
  | .idb => s
  | .builtin _ => s

/-- Every EDB predicate the program references, once each, narrowed. -/
def loadAll (s : EvalState) : EvalState :=
  an.preds.zipIdx.foldl (loadPred src (restriction an declared.catalog)) s

/-- Variant `delta` of a rule runs in this round: at FACT's first round only the one with no
delta, in a later level's first round those whose delta has rows of the level, after that
those whose delta is one of the stratum's own atoms with recent rows. -/
def runs (s : EvalState) (own : List PredId) (rule : CRule) (delta : Option Nat) (level : Tier)
    (first : Bool) : Bool :=
  if first && level == .fact then delta.isNone
  else
    match delta.bind fun d => rule.body[d]? with
    | some (CLit.pos p _) =>
      if !first then mine own p && (s.rels[p]?).any fun rel => rel.recentLen != 0
      else
        match kindOf an.preds p with
        | some (.builtin _) => true
        | some .idb => !mine own p && s.atLevel p level != 0
        | some (.edb _) => !mine own p && s.atLevel p level != 0
        | none => false
    | _ => false

/-- The candidates of one variant's bindings: a binding with an unbound head variable gives
none. -/
def candidates (rule : Nat) (head : List KeyPart) (out : List Binding) : List Candidate :=
  out.filterMap fun b =>
    (parts src.tables b.vars head).map fun row => ⟨row, b.height + 1, rule⟩

def runVariant (s : EvalState) (rule : CRule) (index : Nat) (v : Variant) (mode : Mode) :
    Except RulesError (EvalState × List Candidate) :=
  let done (e : ExecState) : Except RulesError (EvalState × List Candidate) :=
    if e.budget.tripped.isSome then .error (budgetError an rule.head e.budget)
    else .ok ({ s with exec := { e with out := [] } }, candidates src index v.head e.out)
  match runBody (ctxOf src declared tiers s) v.steps mode { s.exec with out := [] } with
  | .ok e _ => done e
  | .stop e => done e
  | .fail err => .error err

def runVariants (own : List PredId) (level : Tier) (first : Bool) :
    List (Nat × Variant) → EvalState →
      Except RulesError (EvalState × List (PredId × Candidate) × Bool)
  | [], s => .ok (s, [], false)
  | (index, v) :: rest, s =>
    match an.rules[index]? with
    | none => runVariants own level first rest s
    | some rule =>
      if !mine own rule.head || !runs an s own rule v.delta level first then
        runVariants own level first rest s
      else
        match runVariant src declared an tiers s rule index v (.eval level first) with
        | .error e => .error e
        | .ok (s, cands) =>
          (runVariants own level first rest s).map fun r =>
            (r.1, cands.map (fun c => (rule.head, c)) ++ r.2.1, true)

def insertBatch (level : Tier) (batch : List (PredId × Candidate)) :
    List PredId → EvalState → Except RulesError (EvalState × Nat)
  | [], s => .ok (s, 0)
  | p :: rest, s =>
    let cands := (batch.filter fun c => c.1 = p).map Prod.snd
    let got := ((s.rels[p]?).map fun rel => (rel.insertRound level cands).2).getD ⟨0, 0⟩
    let b := s.exec.budget.charge got.added
    let s : EvalState :=
      { s with
        rels := s.rels.modify p fun rel => (rel.insertRound level cands).1
        atLevel := addAtLevel s.atLevel p level (got.added + got.lowered)
        exec := { s.exec with budget := b } }
    if b.tripped.isSome then .error (budgetError an p b)
    else (insertBatch level batch rest s).map fun r => (r.1, got.added + got.lowered + r.2)

def variantsOf (plan : StratumPlan) : List (Nat × Variant) :=
  plan.rules.flatMap fun rp => rp.variants.map fun v => (rp.rule, v)

/-- One level's rounds: run, hold back, insert, until nothing is new and nothing waits. -/
def levelRounds (st : Stratum) (plan : StratumPlan) (level : Tier) :
    Nat → Bool → List (PredId × Candidate) → EvalState → Except RulesError EvalState
  | 0, _, _, _ => .error (.invalid [])
  | fuel + 1, first, waiting, s =>
    match runVariants src declared an tiers st.preds level first (variantsOf plan) s with
    | .error e => .error e
    | .ok (s, adds, ran) =>
      let batch :=
        if st.recursive then nextBatch adds waiting else if ran then some (adds, []) else none
      match batch with
      | none => .ok s
      | some (batch, waiting) =>
        match insertBatch an level batch st.preds s with
        | .error e => .error e
        | .ok (s, fresh) =>
          if !st.recursive || (fresh == 0 && waiting.isEmpty) then .ok s
          else levelRounds st plan level fuel false waiting s

/-- Rounds enough for any level: each emits a charged binding or inserts a held one. -/
def roundFuel (s : EvalState) : Nat := 2 * s.exec.budget.cap + 4

def ruleStratum (st : Stratum) (plan : StratumPlan) :
    List Tier → EvalState → Except RulesError EvalState
  | [], s => .ok s
  | level :: rest, s =>
    match levelRounds src declared an tiers st plan level (roundFuel s) true [] s with
    | .error e => .error e
    | .ok s => ruleStratum st plan rest s

def projections (head : List KeyPart) (out : List Binding) : List Projected :=
  out.filterMap fun b => (parts src.tables b.vars head).map fun row => ⟨row, b.level, b.height⟩

def loadAggregate (p : PredId) (rows : List (EdbRow × Nat)) (s : EvalState) :
    Except RulesError EvalState :=
  let arity := (an.preds[p]?.map PredInfo.arity).getD 0
  let before := ((s.rels[p]?).map Relation.len).getD 0
  let rels := s.rels.modify p fun rel => rel.load arity rows
  let n := ((rels[p]?).map Relation.len).getD 0 - before
  let b := s.exec.budget.charge n
  let s : EvalState :=
    { s with
      rels := rels
      atLevel := fun q l =>
        if q = p then s.atLevel q l + (rows.filter fun r => r.1.level = l).length
        else s.atLevel q l
      exec := { s.exec with budget := b } }
  if b.tripped.isSome then .error (budgetError an p b) else .ok s

def aggregateStratum (plan : StratumPlan) (s : EvalState) : Except RulesError EvalState :=
  match plan.rules.head?, plan.agg with
  | some rp, some spec =>
    match an.rules[rp.rule]?, rp.variants.head? with
    | some rule, some v =>
      let done (e : ExecState) : Except RulesError EvalState :=
        if e.budget.tripped.isSome then .error (budgetError an rule.head e.budget)
        else
          let sig := (an.preds[rule.head]?.map PredInfo.signature).getD ""
          match aggregate handle src (projections src v.head e.out) v.head.length spec sig with
          | .error err => .error err
          | .ok rows => loadAggregate an rule.head rows { s with exec := { e with out := [] } }
      match runBody (ctxOf src declared tiers s) v.steps .fold { s.exec with out := [] } with
      | .ok e _ => done e
      | .stop e => done e
      | .fail err => .error err
    | _, _ => .ok s
  | _, _ => .ok s

mutual

def stepSccSets : Step → List CatSet
  | .call b (some c) _ _ _ _ => sccSet b c
  | .negCall b (some c) _ => sccSet b c
  | .reachMulti _ _ _ seed _ _ _ _ => sccSets seed
  | .call _ none _ _ _ _ => []
  | .negCall _ none _ => []
  | .scan _ _ _ _ _ => []
  | .lookup _ _ _ _ _ _ => []
  | .neg _ _ _ => []
  | .cmp _ _ _ => []
  | .assign _ _ => []
  | .reach _ _ _ _ _ _ _ => []
  | .negReach _ _ _ _ => []
where
  sccSet (b : Nat) (c : CatSet) : List CatSet :=
    if (declared.catalog.builtins[b]?).any fun d => d.kind == .scc then [c] else []

def sccSets : List Step → List CatSet
  | [] => []
  | step :: rest => stepSccSets step ++ sccSets rest

end

/-- scc's `(x, rep)` rows over `set`, unless they are there. -/
def materialiseScc (s : EvalState) (set : CatSet) : EvalState :=
  if s.scc.any fun e => e.1 == set then s
  else
    let r := s.exec.closure.sccRows src tiers set
    let rows := r.2.map fun e => ((⟨[.node e.1, .node e.2.1], e.2.2, noOrdinal⟩ : EdbRow), 0)
    { s with
      scc := s.scc ++ [(set, (Relation.new 2).load 2 rows)]
      exec := { s.exec with closure := r.1 } }

def sizeOf (s : EvalState) (stratum : Nat) (p : PredId) : Option Nat :=
  match an.preds[p]? with
  | none => none
  | some info =>
    let complete := match info.kind with
      | .edb _ => true
      | .idb => decide (info.stratum < stratum)
      | .builtin _ => false
    if complete then some (((s.rels[p]?).map Relation.len).getD 0) else none

/-- The stratum is done: its relations' last rounds become stable. -/
def sealPreds (preds : List PredId) (s : EvalState) : EvalState :=
  { s with rels := preds.foldl (fun rels p => rels.modify p Relation.sealed) s.rels }

-- How a stratum is planned once the relations below it are known.
variable (planner : Nat → (PredId → Option Nat) → StratumPlan)

def evalStratum (k : Nat) (st : Stratum) (s : EvalState) :
    Except RulesError (EvalState × StratumPlan) :=
  let plan := planner k (sizeOf an s k)
  let sets := plan.rules.flatMap fun rp => rp.variants.flatMap fun v => sccSets declared v.steps
  let s := sets.foldl (materialiseScc src tiers) s
  let s := { s with exec := { s.exec with multi := fun _ => none } }
  let ran :=
    if st.aggregate then aggregateStratum src handle declared an tiers plan s
    else ruleStratum src declared an tiers st plan Tier.all s
  ran.map fun s => (sealPreds st.preds s, plan)

/-- The strata from `k`, lowest first, each planned just before it runs. -/
def evalStrata : Nat → List Stratum → EvalState → Except RulesError (EvalState × List StratumPlan)
  | _, [], s => .ok (s, [])
  | k, st :: rest, s =>
    match evalStratum src handle declared an tiers planner k st s with
    | .error e => .error e
    | .ok (s, plan) => (evalStrata (k + 1) rest s).map fun r => (r.1, plan :: r.2)

def emptyState (cap : Nat) : EvalState where
  rels := an.preds.map fun p => Relation.new p.arity
  atLevel := fun _ _ => 0
  scc := []
  exec := ⟨Closure.new, Memo.new, fun _ => none, Budget.new cap, fun _ => none, []⟩

end Eval

structure Evaluation where
  analysis : Analysis
  relations : List Relation
  scc : List (CatSet × Relation)
  tiers : List Tier
  plans : List StratumPlan

def evaluatePlanned (src : FactSource) (handle : Value → Nat) (an : Analysis)
    (planner : Nat → (PredId → Option Nat) → StratumPlan) (cap : Nat) :
    Except RulesError Evaluation :=
  let declared := declare src
  if edbRule < an.rules.length then
    .error (.invalid [⟨"", "a program may hold at most " ++ toString edbRule ++
      " rules (found " ++ toString an.rules.length ++ ")"⟩])
  else
    let tiers := if readsEdges an declared.catalog then edgeTiers src else []
    let s := loadAll src declared an (emptyState an cap)
    (evalStrata src handle declared an tiers planner 0 an.strata s).map fun r =>
      ⟨an, r.1.rels, r.1.scc, tiers, r.2⟩

/-- Evaluate an analysed program over `src` with the row budget `cap`. -/
def evaluateAnalysis (src : FactSource) (handle : Value → Nat) (an : Analysis) (cap : Nat) :
    Except RulesError Evaluation :=
  evaluatePlanned src handle an (planStratum an (declare src).catalog) cap

end Glia.Rules
