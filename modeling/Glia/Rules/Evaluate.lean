import Glia.Rules.Magic
import Glia.Rules.Uncut
import Mathlib.Data.List.Destutter

/-! An evaluation from the program as written: its outputs resolved, its recursion rewritten
for them unless the options say no, and its strata run under the row budget. -/
namespace Glia.Rules

/-- How a program is evaluated, with no memory budget: the predicates to answer and whether
recursion read from bound sites is rewritten. -/
structure Options where
  outputs : List String := []
  magic : Bool := true
  maxRows : Nat := 5000000
  deriving DecidableEq, Repr

def PredInfo.isUser (i : PredInfo) : Bool := i.kind == .idb && !i.synthetic

def Analysis.predicates (an : Analysis) : List String :=
  (an.preds.filter PredInfo.isUser).map PredInfo.signature

def userPreds (an : Analysis) : List PredId :=
  (List.range an.preds.length).filter fun p => (an.preds[p]?).any PredInfo.isUser

/-- A rule of another predicate reads it. -/
def readElsewhere (an : Analysis) (p : PredId) : Bool :=
  an.rules.any fun r => r.body.any fun lit =>
    match lit with
    | .pos q _ => q == p && q != r.head
    | .neg q _ => q == p && q != r.head
    | .cmp _ _ _ => false

/-- One output more, named by `name` or `name/arity`. -/
def addOutput (an : Analysis) (out : List PredId) (wanted : String) :
    Except RulesError (List PredId) :=
  match (userPreds an).find? fun p =>
      (an.preds[p]?).any fun i => i.name == wanted || i.signature == wanted with
  | none => .error (.unknown wanted an.predicates)
  | some p => .ok (if out.contains p then out else out ++ [p])

/-- The outputs wanted, once each; with none named, every predicate no other one reads. -/
def resolveOutputs (an : Analysis) (wanted : List String) : Except RulesError (List PredId) :=
  if wanted = [] then .ok ((userPreds an).filter fun p => !readElsewhere an p)
  else wanted.foldlM (addOutput an) []

/-- What is evaluated: a program, its analysis and how many predicates were adorned. -/
structure Evaluated where
  program : Program
  analysis : Analysis
  magicRewrites : Nat
  deriving DecidableEq, Repr

/-- The magic rewrite for the outputs; the program as written when nothing was rewritten. -/
def demand (program : Program) (original : Analysis) (catalog : Catalog)
    (outputs : List PredId) : Evaluated :=
  match Magic.rewrite program original catalog outputs with
  | none => ⟨program, original, 0⟩
  | some (rewritten, report) =>
    match analyseWith rewritten catalog true with
    | .ok an => ⟨rewritten, an, ((report.rewritten.map Prod.fst).destutter (· ≠ ·)).length⟩
    | .error _ => ⟨program, original, 0⟩

/-- The program as written, or rewritten for the outputs. -/
def evaluatedProgram (program : Program) (original : Analysis) (catalog : Catalog) (magic : Bool)
    (outputs : List PredId) : Evaluated :=
  if magic then demand program original catalog outputs else ⟨program, original, 0⟩

/-- The outputs by name and arity, sorted by signature. -/
def outputIds (an : Analysis) (wanted : List (String × Nat)) : List PredId :=
  let sig := fun p => ((an.preds[p]?).map PredInfo.signature).getD ""
  (wanted.filterMap fun w =>
    an.preds.findIdx? fun i => i.isUser && i.name == w.1 && i.arity == w.2).insertionSort
    fun p q => sig p ≤ sig q

/-- A finished evaluation with the program it evaluated and the outputs it answers. -/
structure Finished where
  evaluated : Evaluated
  outputs : List PredId
  evaluation : Evaluation

def evaluate (src : FactSource) (handle : Value → Nat) (program : Program) (opts : Options) :
    Except RulesError Finished :=
  let catalog := (declare src).catalog
  match analyse program catalog with
  | .error errors => .error (.invalid errors)
  | .ok original =>
    match resolveOutputs original opts.outputs with
    | .error e => .error e
    | .ok wanted =>
      let sigs := wanted.filterMap fun p => (original.preds[p]?).map fun i => (i.name, i.arity)
      let run := evaluatedProgram program original catalog opts.magic wanted
      (evaluateAnalysis src handle run.analysis opts.maxRows).map fun e =>
        ⟨run, outputIds run.analysis sigs, e⟩

section Demand

variable {program : Program} {original : Analysis} {catalog : Catalog} {outputs : List PredId}

/-- The rewrite always analyses, so the fallback to the program as written is never taken. -/
theorem demand_rewritten {out : Program × Magic.MagicReport}
    (h : Magic.rewrite program original catalog outputs = some out) :
    (demand program original catalog outputs).program = out.1 ∧
      analyseWith out.1 catalog true =
        .ok (demand program original catalog outputs).analysis := by
  obtain ⟨next, analysed⟩ := Magic.rewrite_analyses h
  simp [demand, h, analysed]

theorem evaluatedProgram_analysed (ok : analyse program catalog = .ok original) (magic : Bool) :
    ∃ synthetic,
      analyseWith (evaluatedProgram program original catalog magic outputs).program catalog
        synthetic = .ok (evaluatedProgram program original catalog magic outputs).analysis := by
  unfold evaluatedProgram
  split
  · cases h : Magic.rewrite program original catalog outputs with
    | none =>
      refine ⟨false, ?_⟩
      rw [demand, h]
      exact ok
    | some out =>
      obtain ⟨same, analysed⟩ := demand_rewritten h
      exact ⟨true, same ▸ analysed⟩
  · exact ⟨false, ok⟩

end Demand

theorem evaluatePlanned_analysis {src : FactSource} {handle : Value → Nat} {an : Analysis}
    {planner : Nat → (PredId → Option Nat) → StratumPlan} {cap : Nat} {e : Evaluation}
    (h : evaluatePlanned src handle an planner cap = .ok e) : e.analysis = an := by
  unfold evaluatePlanned at h
  simp only at h
  split at h
  · cases h
  · cases ran : evalStrata src handle (declare src) an
        (if readsEdges an (declare src).catalog then edgeTiers src else []) planner 0 an.strata
        (loadAll src (declare src) an (emptyState an cap)) with
    | error err =>
      rw [ran] at h
      cases h
    | ok r =>
      rw [ran] at h
      cases h
      rfl

/-- What is evaluated is a program analysis accepts, as written or rewritten. -/
theorem evaluate_analysed {src : FactSource} {handle : Value → Nat} {program : Program}
    {opts : Options} {f : Finished} (h : evaluate src handle program opts = .ok f) :
    ∃ synthetic, analyseWith f.evaluated.program (declare src).catalog synthetic =
      .ok f.evaluation.analysis := by
  unfold evaluate at h
  simp only at h
  split at h
  · cases h
  · rename_i original analysed
    split at h
    · cases h
    · rename_i wanted _
      cases ran : evaluateAnalysis src handle (evaluatedProgram program original
          (declare src).catalog opts.magic wanted).analysis opts.maxRows with
      | error e =>
        rw [ran] at h
        cases h
      | ok e =>
        rw [ran] at h
        cases h
        rw [evaluatePlanned_analysis ran]
        exact evaluatedProgram_analysed analysed opts.magic

/-- A budget never truncates an answer: the evaluation of a program passes its budget, or
ends as it does under every larger cap, and a counted run that returns early has tripped the
budget. -/
theorem budget_never_truncates (src : FactSource) (handle : Value → Nat) (program : Program)
    (opts : Options) :
    ((∃ predicate rows,
      evaluate src handle program opts = .error (.budget predicate rows opts.maxRows)) ∨
      ∀ cap, opts.maxRows ≤ cap →
        evaluate src handle program { opts with maxRows := cap } =
          evaluate src handle program opts) ∧
    ∀ (ctx : Ctx) (steps : List Step) (mode : Mode) (s t : ExecState),
      (Vis.ofMode mode).count = true → runBody ctx steps mode s = .stop t →
        t.budget.tripped ≠ none := by
  refine ⟨?_, fun ctx steps mode s t count => runBody_stop_tripped ctx steps mode count⟩
  unfold evaluate
  simp only
  cases analyse program (declare src).catalog with
  | error errors => exact .inr fun _ _ => rfl
  | ok original =>
    simp only
    cases resolveOutputs original opts.outputs with
    | error e => exact .inr fun _ _ => rfl
    | ok wanted =>
      simp only
      generalize evaluatedProgram program original (declare src).catalog opts.magic wanted = run
      by_cases passed : ∃ predicate rows, evaluateAnalysis src handle run.analysis opts.maxRows =
          .error (.budget predicate rows opts.maxRows)
      · obtain ⟨predicate, rows, eq⟩ := passed
        exact .inl ⟨predicate, rows, by rw [eq]; rfl⟩
      · refine .inr fun cap le => ?_
        have same : evaluateAnalysis src handle run.analysis cap =
            evaluateAnalysis src handle run.analysis opts.maxRows :=
          (evaluatePlanned_uncut src handle run.analysis _ le).resolve_left passed
        rw [same]

/-- The closure of the calls, read from a caller. -/
def askedProgram : Program where
  rules := closureProgram.rules ++ [
    ⟨⟨"out", [.term (.var "b")]⟩,
      [.pos ⟨"edge", [.var "a", .wild, .str "CALLS"]⟩, .pos ⟨"tc", [.var "a", .var "b"]⟩]⟩]

theorem askedProgram_not_truncated :
    ((evaluate callSource (fun _ => 0) askedProgram { maxRows := 60 }).toOption.map fun f =>
      f.evaluated.magicRewrites) = some 1 ∧
    evaluate callSource (fun _ => 0) askedProgram { maxRows := 90 } =
      evaluate callSource (fun _ => 0) askedProgram { maxRows := 60 } := by
  have fine : ((evaluate callSource (fun _ => 0) askedProgram { maxRows := 60 }).toOption.map
      fun f => f.evaluated.magicRewrites) = some 1 := by
    decide +kernel
  refine ⟨fine, ((budget_never_truncates callSource (fun _ => 0) askedProgram
    { maxRows := 60 }).1).resolve_left ?_ 90 (by decide)⟩
  rintro ⟨predicate, rows, h⟩
  rw [h] at fine
  cases fine

end Glia.Rules
