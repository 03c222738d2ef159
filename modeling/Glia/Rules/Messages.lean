import Glia.Rules.Ir
import Mathlib.Data.List.Sort

/-! The message table of analysis, and the suggestion of a near name. -/
namespace Glia.Rules

/-- One analysis error: the rule's head `name/arity` and the text. -/
structure Diagnostic where
  rule : String
  message : String
  deriving DecidableEq, Repr

namespace Msg

def quoted (s : String) : String := "`" ++ s ++ "`"

def suggest (text : String) : Option String → String
  | some s => text ++ "; did you mean " ++ quoted s ++ "?"
  | none => text

def unknownPredicate (sig : String) (near : Option String) : String :=
  suggest ("unknown predicate " ++ quoted sig) near

def arity (name : String) (used : Nat) (defined : String) : String :=
  "predicate " ++ quoted name ++ " is used with " ++ toString used ++ " argument" ++
    (if used = 1 then "" else "s") ++ " here but defined with " ++ defined

def unknownKind (name : String) (near : Option String) : String :=
  suggest ("unknown node kind " ++ quoted name) near

def unknownCategory (name : String) (near : Option String) : String :=
  suggest ("unknown edge category " ++ quoted name) near

def unknownCellType (name : String) (near : Option String) : String :=
  suggest ("unknown cell type " ++ quoted name) near

def unknownInSet (name set : String) (near : Option String) : String :=
  suggest ("unknown edge category " ++ quoted name ++ " in the category set " ++ quoted set) near

def builtinHead (sig : String) : String :=
  quoted sig ++ " is a built-in predicate and cannot be defined by a rule"

def reserved : String := "predicate names starting `__` are reserved"

def constArg (argno : Nat) (sig what : String) : String :=
  "argument " ++ toString argno ++ " of " ++ quoted sig ++ " must be " ++ what

def unboundHead (var sig : String) : String :=
  "variable " ++ quoted var ++ " in the head of " ++ quoted sig ++ " is not bound by the body"

def unboundNegated (var sig : String) : String :=
  "variable " ++ quoted var ++ " in the negated atom " ++ quoted sig ++
    " is not bound by a positive atom"

def unboundComparison (var : String) : String :=
  "variable " ++ quoted var ++ " in a comparison is not bound by a positive atom"

def wildHead : String := "`_` may not appear in a head"

def wildComparison : String := "`_` may not appear in a comparison"

def tooManyArgs (name : String) (arity : Nat) : String :=
  "a predicate may have at most " ++ toString maxArity ++ " arguments; " ++ quoted name ++
    " has " ++ toString arity

def aggregateVars (op : AggOp) (found : Nat) : String :=
  if op = .count then "`count` takes at least one variable"
  else quoted op.name ++ " takes one variable, found " ++ toString found

def needsBound (sig : String) (argno : Nat) : String :=
  quoted sig ++ " needs argument " ++ toString argno ++ " bound before the call"

def aggregateRules (sig : String) (found : Nat) : String :=
  quoted sig ++ " has an aggregate head, so it must have exactly one rule (found " ++
    toString found ++ ")"

def unboundAggregated (var sig : String) : String :=
  "aggregated variable " ++ quoted var ++ " of " ++ quoted sig ++ " is not bound by the body"

/-- `p/1` depends on itself, or `p/0`, `q/0` depend on each other. -/
def depend (preds : List String) : String :=
  match preds.map quoted with
  | [one] => one ++ " depends on itself"
  | many => ", ".intercalate many ++ " depend on each other"

def negationCycle (preds : List String) : String :=
  "negation inside recursion: " ++ depend preds ++ " through this negated atom"

def aggregateCycle (preds : List String) : String :=
  "aggregation inside recursion: " ++ depend preds ++ " through this aggregate"

def tooManyVars : String := "a rule may use at most 65535 variables"

def constWhat : ColType → String
  | .int => "an integer literal"
  | .categorySet => "a quoted category set"
  | .kind => "a quoted node kind"
  | .category => "a quoted edge category"
  | .cellType => "a quoted cell type"
  | .str => "a quoted string"
  | .node => "a literal"
  | .any => "a literal"

/-- The arities a builtin's name is declared with: `2, 3 or 4`. -/
def arities (declared : List Nat) : String :=
  let sorted := (declared.insertionSort (· ≤ ·)).dedup
  match sorted.reverse with
  | [] => ""
  | [only] => toString only
  | last :: before =>
    ", ".intercalate (before.reverse.map toString) ++ " or " ++ toString last

end Msg

def distanceRow (ca : Char) (i : Nat) (prev : List Nat) (b : List Char) : List Nat :=
  (b.zipIdx.foldl (fun cur p =>
    let sub := prev.getD p.2 0 + if ca ≠ p.1 then 1 else 0
    cur ++ [min (min sub (prev.getD (p.2 + 1) 0 + 1)) (cur.getD p.2 0 + 1)]) [i + 1])

/-- Levenshtein distance over chars, ASCII case folded. -/
def distance (a b : String) : Nat :=
  let a := a.toList.map Char.toLower
  let b := b.toList.map Char.toLower
  let last := a.zipIdx.foldl (fun prev p => distanceRow p.1 p.2 prev b)
    (List.range (b.length + 1))
  last.getD b.length 0

def suggestName (name : String) (known : List String) : Option String :=
  (known.foldl (fun best k =>
    if k = name ∨ 2 < max k.length name.length - min k.length name.length then best
    else
      let d := distance name k
      if 2 < d then best
      else
        match best with
        | none => some (d, k)
        | some b => if d < b.1 ∨ (d = b.1 ∧ k < b.2) then some (d, k) else some b)
    (none : Option (Nat × String))).map Prod.snd

end Glia.Rules
