import Glia.Rules.Messages
import Glia.Rules.Sips
import Glia.Rules.Strata

/-! Name and type resolution, safety, arity, negation and aggregate checks, and the
strata of a program. Every check returns its errors; a program is accepted when none
is recorded. -/
namespace Glia.Rules

structure Analysis where
  preds : List PredInfo
  rules : List CRule
  strata : List Stratum
  deriving DecidableEq, Repr

/-- One rule's variables, in first-occurrence order. -/
structure Vars where
  names : List String
  overflow : Bool
  deriving DecidableEq, Repr

namespace Vars

def empty : Vars := ⟨[], false⟩

/-- The most variables a rule may use. -/
def limit : Nat := 65535

def find (vars : Vars) (name : String) : Option Nat := vars.names.findIdx? (· == name)

/-- The slot of `name`, a fresh one at its first occurrence. -/
def id (vars : Vars) (name : String) : Nat × Vars :=
  match vars.find name with
  | some v => (v, vars)
  | none =>
    if vars.names.length < limit then
      (vars.names.length, { vars with names := vars.names ++ [name] })
    else (0, { vars with overflow := true })

def ids : Vars → List String → List Nat × Vars
  | vars, [] => ([], vars)
  | vars, name :: rest =>
    let v := vars.id name
    let vs := ids v.2 rest
    (v.1 :: vs.1, vs.2)

end Vars

def plainTerm (vars : Vars) : Term → CTerm × Vars
  | .var name => (.var (vars.id name).1, (vars.id name).2)
  | .wild => (.wild, vars)
  | .str value => (.const (.str value), vars)
  | .int value => (.const (.int value), vars)

def plainTerms : Vars → List Term → List CTerm × Vars
  | vars, [] => ([], vars)
  | vars, t :: rest =>
    let c := plainTerm vars t
    let cs := plainTerms c.2 rest
    (c.1 :: cs.1, cs.2)

def isWhitespace (c : Char) : Bool :=
  let n := c.toNat
  (9 ≤ n && n ≤ 13) || n == 32 || n == 133 || n == 160 || n == 5760 ||
    (8192 ≤ n && n ≤ 8202) || n == 8232 || n == 8233 || n == 8239 || n == 8287 || n == 12288

def trim (s : List Char) : String :=
  String.ofList (((s.dropWhile isWhitespace).reverse.dropWhile isWhitespace).reverse)

def setParts (value : String) : List String := (value.toList.splitOn '|').map trim

def categorySet (reg : Registries) (value : String) : Except (List String) CatSet :=
  if trim value.toList = "*" then .ok .all
  else
    let parts := setParts value
    let unknown := parts.filter fun name => !(reg.edgeCategories.any fun e => e.2 == name)
    if unknown = [] then
      let ids := parts.filterMap fun name =>
        (reg.edgeCategories.find? fun e => e.2 == name).map Prod.fst
      .ok (.of ((ids.insertionSort (· ≤ ·)).dedup))
    else
      .error (unknown.map fun name =>
        Msg.unknownInSet name value (suggestName name (reg.edgeCategories.map Prod.snd)))

/-- A kind / category / cell-type constant's errors. -/
def registryErrors (table : List (Nat × String)) (unknown : String → Option String → String)
    (value : String) : List String :=
  let names := table.map Prod.snd
  if names.contains value then [] else [unknown value (suggestName value names)]

def typedTerm (catalog : Catalog) (preds : List PredInfo) (p : PredId) (col : Nat)
    (atomSig : String) (vars : Vars) (t : Term) : (CTerm × Vars) × List String :=
  let ty := (preds[p]?.map fun i => i.colType catalog col).getD .any
  let req := predReq catalog preds p col
  let reg := catalog.registries
  let plain := plainTerm vars t
  let wrong := [Msg.constArg (col + 1) atomSig (Msg.constWhat ty)]
  match t with
  | .var _ => (plain, if req = some .const then wrong else [])
  | .wild => (plain, if req = some .const then wrong else [])
  | .str value =>
    match ty with
    | .kind => (plain, registryErrors reg.nodeKinds Msg.unknownKind value)
    | .category => (plain, registryErrors reg.edgeCategories Msg.unknownCategory value)
    | .cellType => (plain, registryErrors reg.cellTypes Msg.unknownCellType value)
    | .categorySet =>
      match categorySet reg value with
      | .ok set => ((.const (.catSet set), vars), [])
      | .error errors => (plain, errors)
    | .int => (plain, wrong)
    | _ => (plain, [])
  | .int _ => (plain, if ty = .int ∨ ty = .node ∨ ty = .any then [] else wrong)

def typedTerms (catalog : Catalog) (preds : List PredInfo) (p : PredId) (atomSig : String) :
    Nat → Vars → List Term → (List CTerm × Vars) × List String
  | _, vars, [] => (([], vars), [])
  | col, vars, t :: rest =>
    let c := typedTerm catalog preds p col atomSig vars t
    let cs := typedTerms catalog preds p atomSig (col + 1) c.1.2 rest
    ((c.1.1 :: cs.1.1, cs.1.2), c.2 ++ cs.2)

def byName (preds : List PredInfo) (name : String) : Option PredId :=
  preds.findIdx? fun i =>
    i.name == name && match i.kind with
      | .builtin _ => false
      | .idb => true
      | .edb _ => true

/-- The id of catalog builtin `b`, once a body references it. -/
def builtinId (preds : List PredInfo) (b : Nat) : Option PredId :=
  preds.findIdx? fun i => i.kind == .builtin b

def newPred (name : String) (arity : Nat) (kind : PredKind) (synthetic : Bool) : PredInfo where
  name := name
  arity := arity
  kind := kind
  stratum := 0
  recursive := false
  synthetic := synthetic

structure Resolved where
  preds : List PredInfo
  pred : Option PredId
  errors : List String
  deriving DecidableEq, Repr

def headPred (catalog : Catalog) (allowSynthetic : Bool) (preds : List PredInfo) (h : Head) :
    Resolved :=
  let taken := (catalog.edb? h.pred).isSome || catalog.builtins.any fun b => b.name == h.pred
  if taken then ⟨preds, none, [Msg.builtinHead h.signature]⟩
  else
    match byName preds h.pred with
    | some id =>
      let defined := (preds[id]?.map PredInfo.arity).getD 0
      if defined = h.arity then ⟨preds, some id, []⟩
      else ⟨preds, none, [Msg.arity h.pred h.arity (toString defined)]⟩
    | none =>
      let synthetic := ['_', '_'].isPrefixOf h.pred.toList
      ⟨preds ++ [newPred h.pred h.arity .idb synthetic], some preds.length,
        (if synthetic && !allowSynthetic then [Msg.reserved] else []) ++
          (if maxArity < h.arity then [Msg.tooManyArgs h.pred h.arity] else [])⟩

def tag (sig : String) (messages : List String) : List Diagnostic :=
  messages.map fun m => ⟨sig, m⟩

/-- The IDB predicates in first-definition order, each rule's head id and the errors. -/
def heads (catalog : Catalog) (allowSynthetic : Bool) :
    List PredInfo → List Rule → List PredInfo × List (Option PredId) × List Diagnostic
  | preds, [] => (preds, [], [])
  | preds, rule :: rest =>
    let r := headPred catalog allowSynthetic preds rule.head
    let out := heads catalog allowSynthetic r.preds rest
    (out.1, r.pred :: out.2.1, tag rule.head.signature r.errors ++ out.2.2)

/-- The id of catalog builtin `b`, allocated on first reference. -/
def builtinPred (preds : List PredInfo) (b : Nat) (decl : BuiltinDecl) : Resolved :=
  match builtinId preds b with
  | some id => ⟨preds, some id, []⟩
  | none =>
    ⟨preds ++ [newPred decl.name decl.cols.length (.builtin b) false], some preds.length, []⟩

def resolve (catalog : Catalog) (nIdb : Nat) (preds : List PredInfo) (a : Atom) : Resolved :=
  let arity := a.args.length
  match byName preds a.pred with
  | some id =>
    let defined := (preds[id]?.map PredInfo.arity).getD 0
    if defined = arity then ⟨preds, some id, []⟩
    else ⟨preds, none, [Msg.arity a.pred arity (toString defined)]⟩
  | none =>
    match catalog.edb.zipIdx.find? fun d => d.1.name == a.pred with
    | some d =>
      let defined := d.1.cols.length
      let preds' := preds ++ [newPred a.pred defined (.edb (EdbPred.of d.2 a.pred)) false]
      if defined = arity then ⟨preds', some preds.length, []⟩
      else ⟨preds', none, [Msg.arity a.pred arity (toString defined)]⟩
    | none =>
      let named := catalog.builtins.zipIdx.filter fun d => d.1.name == a.pred
      match named.find? fun d => d.1.cols.length == arity with
      | some d =>
        if maxArity < arity then ⟨preds, none, [Msg.tooManyArgs a.pred arity]⟩
        else builtinPred preds d.2 d.1
      | none =>
        if named ≠ [] then
          ⟨preds, none,
            [Msg.arity a.pred arity (Msg.arities (named.map fun d => d.1.cols.length))]⟩
        else
          let known := catalog.edb.map PredDecl.name ++ catalog.builtins.map BuiltinDecl.name ++
            (preds.take nIdb).map PredInfo.name
          ⟨preds, none, [Msg.unknownPredicate a.signature (suggestName a.pred known)]⟩

/-- A negated builtin's `_` in a `Must` column leaves the call nothing to test. -/
def negatedMustWild (catalog : Catalog) (preds : List PredInfo) (p : PredId)
    (args : List Term) : List String :=
  match preds[p]? with
  | none => []
  | some info =>
    (args.zipIdx.filter fun a => a.1 == .wild && info.bindReq catalog a.2 == some .must).map
      fun a => Msg.needsBound info.signature (a.2 + 1)

/-- A rule's head terms, its aggregates, its variables so far and the errors. -/
structure HeadTerms where
  terms : List CTerm
  aggs : List (AggOp × List Nat)
  vars : Vars
  errors : List String
  deriving DecidableEq, Repr

def aggregateFits (a : Aggregate) : Bool :=
  if a.op = .count then 0 < a.vars.length else a.vars.length = 1

def headArgs : Vars → List HeadArg → HeadTerms
  | vars, [] => ⟨[], [], vars, []⟩
  | vars, .term t :: rest =>
    let c := plainTerm vars t
    let out := headArgs c.2 rest
    { out with
      terms := c.1 :: out.terms
      errors := (if t = .wild then [Msg.wildHead] else []) ++ out.errors }
  | vars, .agg a :: rest =>
    let vs := vars.ids a.vars
    let out := headArgs vs.2 rest
    { out with
      terms := .wild :: out.terms
      aggs := (a.op, vs.1) :: out.aggs
      errors := (if aggregateFits a then [] else [Msg.aggregateVars a.op a.vars.length]) ++
        out.errors }

/-- A compiled body: the predicates and variables after it, the literals, the variables
of positive atoms that did not resolve, and the errors. -/
structure Body where
  preds : List PredInfo
  vars : Vars
  lits : List CLit
  loose : List Nat
  errors : List String
  deriving DecidableEq, Repr

def looseVars (terms : List CTerm) : List Nat :=
  terms.filterMap fun
    | .var v => some v
    | .wild => none
    | .const _ => none

def bodyAtom (catalog : Catalog) (nIdb : Nat) (preds : List PredInfo) (vars : Vars)
    (positive : Bool) (a : Atom) : Body :=
  let r := resolve catalog nIdb preds a
  match r.pred with
  | some p =>
    let ts := typedTerms catalog r.preds p a.signature 0 vars a.args
    { preds := r.preds
      vars := ts.1.2
      lits := [if positive then .pos p ts.1.1 else .neg p ts.1.1]
      loose := []
      errors := r.errors ++ ts.2 ++
        if positive then [] else negatedMustWild catalog r.preds p a.args }
  | none =>
    let ts := plainTerms vars a.args
    { preds := r.preds
      vars := ts.2
      lits := []
      loose := if positive then looseVars ts.1 else []
      errors := r.errors }

def bodyLiteral (catalog : Catalog) (nIdb : Nat) (preds : List PredInfo) (vars : Vars) :
    Literal → Body
  | .pos a => bodyAtom catalog nIdb preds vars true a
  | .neg a => bodyAtom catalog nIdb preds vars false a
  | .cmp c =>
    let l := plainTerm vars c.left
    let r := plainTerm l.2 c.right
    { preds := preds
      vars := r.2
      lits := [.cmp c.op l.1 r.1]
      loose := []
      errors := [] }

def bodyLiterals (catalog : Catalog) (nIdb : Nat) :
    List PredInfo → Vars → List Literal → Body
  | preds, vars, [] => ⟨preds, vars, [], [], []⟩
  | preds, vars, lit :: rest =>
    let one := bodyLiteral catalog nIdb preds vars lit
    let out := bodyLiterals catalog nIdb one.preds one.vars rest
    { out with
      lits := one.lits ++ out.lits
      loose := one.loose ++ out.loose
      errors := one.errors ++ out.errors }

/-- The variables a positive literal's own columns bind, `Must` and `Const` ones apart. -/
def bindsMay (catalog : Catalog) (preds : List PredInfo) : CLit → List Nat
  | .pos p terms =>
    terms.zipIdx.filterMap fun t =>
      match t.1, predReq catalog preds p t.2 with
      | .var v, none => some v
      | .var v, some .may => some v
      | _, _ => none
  | .neg _ _ => []
  | .cmp _ _ _ => []

def assignSweep (bound : Bound) : List CLit → Bound
  | [] => bound
  | .cmp .eq l r :: rest =>
    let bound := if l.isVar && !isBound bound l && isBound bound r then markTerm bound l else bound
    let bound := if r.isVar && !isBound bound r && isBound bound l then markTerm bound r else bound
    assignSweep bound rest
  | _ :: rest => assignSweep bound rest

/-- The assignments to a fixpoint: every sweep but the last binds a variable. -/
def assignClosure : Nat → Bound → List CLit → Bound
  | 0, bound, _ => bound
  | fuel + 1, bound, body => assignClosure fuel (assignSweep bound body) body

def safeVars (catalog : Catalog) (preds : List PredInfo) (cr : CRule) (loose : List Nat) :
    Bound :=
  let start := loose ++ cr.body.flatMap (bindsMay catalog preds)
  assignClosure (cr.nvars + 1) (fun v => decide (v < cr.nvars) && start.contains v) cr.body

/-- The head's names in order, with the error each raises when unbound. -/
def headNames (sig : String) : List HeadArg → List (String × String)
  | [] => []
  | .term (.var name) :: rest => (name, Msg.unboundHead name sig) :: headNames sig rest
  | .term _ :: rest => headNames sig rest
  | .agg a :: rest =>
    a.vars.map (fun name => (name, Msg.unboundAggregated name sig)) ++ headNames sig rest

def unboundErrors (unbound : String → Bool) : List String → List (String × String) → List String
  | _, [] => []
  | seen, (name, message) :: rest =>
    if unbound name && !seen.contains name then
      message :: unboundErrors unbound (name :: seen) rest
    else unboundErrors unbound seen rest

/-- A comparison's own errors, left side first: an unbound name once, `_` each time. -/
def comparisonErrors (unbound : String → Bool) : List String → List Term → List String
  | _, [] => []
  | seen, .var name :: rest =>
    if unbound name && !seen.contains name then
      Msg.unboundComparison name :: comparisonErrors unbound (name :: seen) rest
    else comparisonErrors unbound seen rest
  | seen, .wild :: rest => Msg.wildComparison :: comparisonErrors unbound seen rest
  | seen, _ :: rest => comparisonErrors unbound seen rest

def varNamesOf (args : List Term) : List String :=
  args.filterMap fun
    | .var name => some name
    | .wild => none
    | .str _ => none
    | .int _ => none

def literalErrors (unbound : String → Bool) : Literal → List String
  | .pos _ => []
  | .neg a =>
    unboundErrors unbound []
      ((varNamesOf a.args).map fun name => (name, Msg.unboundNegated name a.signature))
  | .cmp c => comparisonErrors unbound [] [c.left, c.right]

/-- Every head, aggregated, negated and compared variable must be bound. -/
def safety (catalog : Catalog) (preds : List PredInfo) (rule : Rule) (cr : CRule) (vars : Vars)
    (loose : List Nat) : List String :=
  let bound := safeVars catalog preds cr loose
  let unbound := fun name =>
    match vars.find name with
    | some v => !bound v
    | none => false
  unboundErrors unbound [] (headNames rule.head.signature rule.head.args) ++
    rule.body.flatMap (literalErrors unbound)

/-- A positive builtin's `Must` columns still free when the order reaches it. -/
def mustErrors (catalog : Catalog) (preds : List PredInfo) (bound : Bound) : CLit → List String
  | .pos p terms =>
    match preds[p]? with
    | none => []
    | some info =>
      (terms.zipIdx.filter fun t =>
        info.bindReq catalog t.2 == some .must && !isBound bound t.1).map
        fun t => Msg.needsBound info.signature (t.2 + 1)
  | .neg _ _ => []
  | .cmp _ _ _ => []

def bindingErrors (catalog : Catalog) (preds : List PredInfo) (body : List CLit) :
    Bound → List Nat → List String
  | _, [] => []
  | bound, i :: rest =>
    (match body[i]? with
      | some lit => mustErrors catalog preds bound lit
      | none => []) ++ bindingErrors catalog preds body (bindAt body bound i) rest

/-- Walking the order from nothing bound, every builtin's `Must` columns are bound when
it is reached. -/
def builtinBinding (catalog : Catalog) (preds : List PredInfo) (cr : CRule) : List String :=
  bindingErrors catalog preds cr.body (fun _ => false)
    (sipsOrder cr preds catalog (fun _ => false) none (fun _ => none))

structure CompiledRule where
  preds : List PredInfo
  rule : Option CRule
  errors : List Diagnostic
  deriving DecidableEq, Repr

def compileRule (catalog : Catalog) (nIdb : Nat) (preds : List PredInfo) (index : Nat)
    (rule : Rule) (head : Option PredId) : CompiledRule :=
  let h := headArgs Vars.empty rule.head.args
  let b := bodyLiterals catalog nIdb preds h.vars rule.body
  let cr : CRule :=
    { index := index
      head := head.getD noPred
      headTerms := h.terms
      aggs := h.aggs
      body := b.lits
      nvars := b.vars.names.length
      varNames := b.vars.names }
  { preds := b.preds
    rule := head.map fun _ => cr
    errors := tag rule.head.signature
      (h.errors ++ b.errors ++ (if b.vars.overflow then [Msg.tooManyVars] else []) ++
        safety catalog b.preds rule cr b.vars b.loose ++ builtinBinding catalog b.preds cr) }

def compileRules (catalog : Catalog) (nIdb : Nat) :
    Nat → List PredInfo → List (Rule × Option PredId) →
      List PredInfo × List CRule × List Diagnostic
  | _, preds, [] => (preds, [], [])
  | index, preds, (rule, head) :: rest =>
    let c := compileRule catalog nIdb preds index rule head
    let out := compileRules catalog nIdb (index + 1) c.preds rest
    (out.1, c.rule.toList ++ out.2.1, c.errors ++ out.2.2)

def aggregateRuleCounts (program : Program) (nIdb : Nat) (rules : List CRule) :
    List Diagnostic :=
  (List.range nIdb).flatMap fun p =>
    let defining := rules.filter fun r => r.head == p
    if defining.length < 2 then []
    else
      match defining.find? fun r => !r.aggs.isEmpty with
      | none => []
      | some agg =>
        match program.rules[agg.index]? with
        | none => []
        | some rule =>
          let sig := rule.head.signature
          [⟨sig, Msg.aggregateRules sig defining.length⟩]

/-- How rule `r` reads through literal `lit`, when it is an atom. -/
def depOf (r : CRule) : CLit → Option (PredId × Dep)
  | .pos p _ => some (p, if r.aggs.isEmpty then .pos else .agg)
  | .neg p _ => some (p, .neg)
  | .cmp _ _ _ => none

def reads (nIdb : Nat) (rules : List CRule) : List (PredId × CRule × Dep) :=
  rules.flatMap fun r =>
    r.body.filterMap fun lit =>
      match depOf r lit with
      | some (p, dep) => if p < nIdb then some (p, r, dep) else none
      | none => none

def depEdges (nIdb : Nat) (rules : List CRule) : List DepEdge :=
  (reads nIdb rules).zipIdx.map fun e => ⟨e.1.1, e.1.2.1.head, e.1.2.2, e.2⟩

/-- One error for a component a negated or aggregated read stays inside. -/
def badCycle (program : Program) (preds : List PredInfo) (sites : List (PredId × CRule × Dep))
    (b : BadCycle) : List Diagnostic :=
  match sites[b.site]? with
  | none => []
  | some site =>
    let members := b.preds.filterMap fun p => preds[p]?.map fun i => (i.name, i.arity)
    let sorted := members.insertionSort fun x y => x.1 < y.1 ∨ (x.1 = y.1 ∧ x.2 ≤ y.2)
    let names := sorted.map fun m => signatureOf m.1 m.2
    let message := match b.dep with
      | .agg => Msg.aggregateCycle names
      | .neg => Msg.negationCycle names
      | .pos => Msg.negationCycle names
    match program.rules[site.2.1.index]? with
    | none => []
    | some rule => [⟨rule.head.signature, message⟩]

def setStrata (nIdb : Nat) (preds : List PredInfo) (s : Strata) : List PredInfo :=
  preds.zipIdx.map fun e =>
    if e.2 < nIdb then
      { e.1 with stratum := s.stratumOf.getD e.2 0, recursive := s.recursive.getD e.2 false }
    else e.1

def strataOf (rules : List CRule) (s : Strata) : List Stratum :=
  s.order.map fun preds =>
    { preds := preds
      recursive := preds.any fun p => s.recursive.getD p false
      aggregate := preds.any fun p => rules.any fun r => r.head == p && !r.aggs.isEmpty }

/-- Analyse `program` against `catalog`, `allowSynthetic` accepting heads that start with
the reserved `__`. -/
def analyseWith (program : Program) (catalog : Catalog) (allowSynthetic : Bool) :
    Except (List Diagnostic) Analysis :=
  let hs := heads catalog allowSynthetic [] program.rules
  let nIdb := hs.1.length
  let cs := compileRules catalog nIdb 0 hs.1 (program.rules.zip hs.2.1)
  let rules := cs.2.1
  let errors := hs.2.2 ++ cs.2.2 ++ aggregateRuleCounts program nIdb rules
  match stratify nIdb (depEdges nIdb rules) with
  | .error bad => .error (errors ++ bad.flatMap (badCycle program cs.1 (reads nIdb rules)))
  | .ok s =>
    if errors ≠ [] then .error errors
    else .ok ⟨setStrata nIdb cs.1 s, rules, strataOf rules s⟩

/-- Analyse `program` against `catalog`, with no synthetic predicate allowed. -/
def analyse (program : Program) (catalog : Catalog) : Except (List Diagnostic) Analysis :=
  analyseWith program catalog false

end Glia.Rules
