import Glia.Rules.JoinSteps
import Glia.Rules.SccExact

/-! The meaning of a checked rule: the ground facts, with the tier of each, and the instances of
a rule whose premises are among them. -/
namespace Glia.Rules

inductive Ground where
  | row (p : PredId) (row : Row)
  | call (builtin : Nat) (cats : Option CatSet) (depth : Option Nat) (row : Row)
  deriving DecidableEq

abbrev Assignment := Nat → Value

abbrev Db := Ground → Tier → Prop

def Db.Has (db : Db) (f : Ground) : Prop := ∃ t, db f t

def Db.At (db : Db) (level : Tier) (f : Ground) : Prop := ∃ t ≤ level, db f t

def positives (body : List CLit) : List Nat :=
  (List.range body.length).filter fun i =>
    match body[i]? with
    | some (.pos _ _) => true
    | _ => false

/-- What an evaluation is over: a source, the rows of each builtin with an implementation
whatever its call binds, and the checked program. -/
structure Setting where
  src : FactSource
  rowsOf : Nat → Row → Tier → Prop
  an : Analysis

namespace Setting

variable (S : Setting)

def declared : Declared := declare S.src

abbrev catalog : Catalog := S.declared.catalog

abbrev preds : List PredInfo := S.an.preds

def SccRow (set : CatSet) (x rep : NodeId) (t : Tier) : Prop :=
  Indexable S.src set ∧ EachOther S.src set .heuristic x rep ∧
    (∀ y, EachOther S.src set .heuristic x y → RanksBelow S.src rep y) ∧
    IsLeast {level | EachOther S.src set level x rep} t

/-- A builtin's rows: the pairs a set's edges join, a component's members with its first
node, or the rows of its implementation. -/
def CallRow (b : Nat) (cats : Option CatSet) (depth : Option Nat) (row : Row) (t : Tier) : Prop :=
  if isReaches S.catalog b then
    ∃ x y, row = [.node x, .node y] ∧ ReachRow S.src (cats.getD .all) depth x y t
  else
    match (S.declared.impls[b]?).join with
    | some _ => S.rowsOf b row t
    | none => ∃ set x rep, cats = some set ∧ row = [.node x, .node rep] ∧ S.SccRow set x rep t

def atomFact (p : PredId) (terms : List CTerm) (row : Row) : Ground :=
  match kindOf S.preds p with
  | some (.builtin b) => .call b (closureSet S.catalog b terms) (depth terms) row
  | _ => .row p row

/-- The terms an atom's row has values for: a closure builtin's are its two ends. -/
def factTerms (p : PredId) (terms : List CTerm) : List CTerm :=
  match kindOf S.preds p with
  | some (.builtin b) =>
    if isReaches S.catalog b || (S.declared.impls[b]?).join.isNone then terms.take 2
    else terms
  | _ => terms

def AtomFits (σ : Assignment) (p : PredId) (terms : List CTerm) (f : Ground) : Prop :=
  ∃ row, f = S.atomFact p terms row ∧
    RowIs S.src.tables (fun v => some (σ v)) (S.factTerms p terms) row

def SideHolds (db : Db) (σ : Assignment) : CLit → Prop
  | .pos _ _ => True
  | .neg p terms => ∀ f, S.AtomFits σ p terms f → ¬ db.Has f
  | .cmp op l r => ∃ a b, l ≠ .wild ∧ r ≠ .wild ∧
      TermIs S.src.tables (fun v => some (σ v)) l a ∧ TermIs S.src.tables (fun v => some (σ v)) r b ∧
      compareOp S.src op a b = true

/-- The fact `fs i` is an instance of each positive literal `i` under `σ`, and the rest of the
body holds over the facts `db`. -/
structure Satisfies (db : Db) (rule : CRule) (σ : Assignment) (fs : Nat → Ground) : Prop where
  atoms : ∀ (i : Nat) p terms, rule.body[i]? = some (.pos p terms) →
    S.AtomFits σ p terms (fs i)
  sides : ∀ lit ∈ rule.body, S.SideHolds db σ lit

def headRow (head : List KeyPart) (σ : Assignment) : Row :=
  head.filterMap (resolvePart S.src.tables fun v => some (σ v))

end Setting

end Glia.Rules
