import Glia.Rules.Exec

/-! Grouped count, min, max and sum over the set of a body's projected bindings. -/
namespace Glia.Rules

structure Projected where
  row : Row
  level : Tier
  height : Nat
  deriving DecidableEq, Repr

/-- The output order: type rank, then ints, strings, nodes by rendered key, then id. -/
def compareRendered (src : FactSource) (a b : Value) : Ordering :=
  let rank : Value → Nat
    | .int _ => 0
    | .str _ => 1
    | .node _ => 2
  if a = b then .eq else (compareValues src a b).getD (compare (rank a) (rank b))

def intMax : Int := 9223372036854775807

def intMin : Int := -9223372036854775808

def heightMax : Nat := 4294967295

section Fold

-- The handle each value got when it was interned: the order bindings sort by.
variable (handle : Value → Nat)

def Projected.order (a b : Projected) : Prop :=
  toLex (a.row.map handle, toLex (a.level, a.height)) ≤
    toLex (b.row.map handle, toLex (b.level, b.height))

instance : DecidableRel (Projected.order handle) := fun _ _ =>
  inferInstanceAs (Decidable (toLex _ ≤ toLex _))

/-- Each projected row once, at its best level and its lowest height there. -/
def deduplicated (bindings : List Projected) : List Projected :=
  firstOf Projected.row (bindings.insertionSort (Projected.order handle))

def tupleOf (cols : List Nat) (b : Projected) : Row := cols.filterMap fun c => b.row[c]?

def distinctTuples (cols : List Nat) (members : List Projected) : List Projected :=
  firstOf (tupleOf cols) (members.insertionSort fun a b =>
    (tupleOf cols a).map handle ≤ (tupleOf cols b).map handle)

def sumTuples (pred : String) (col : Nat) : Int → List Projected → Except RulesError Int
  | total, [] => .ok total
  | total, b :: rest =>
    match b.row[col]? with
    | some (.int x) =>
      if intMin ≤ total + x ∧ total + x ≤ intMax then sumTuples pred col (total + x) rest
      else .error (.type pred ("sum overflows i64 in `" ++ pred ++ "`"))
    | _ => .error (.type pred ("sum over a non-integer value in `" ++ pred ++ "`"))

def bestValue (src : FactSource) (wins : Ordering) : Value → List Value → Value
  | best, [] => best
  | best, v :: rest =>
    bestValue src wins (if v ≠ best ∧ compareRendered src v best = wins then v else best) rest

def applyOp (src : FactSource) (pred : String) (members : List Projected) (op : AggOp)
    (cols : List Nat) : Except RulesError Value :=
  match op, cols with
  | .count, cols =>
    let n : Int := (distinctTuples handle cols members).length
    if n ≤ intMax then .ok (.int n)
    else .error (.type pred ("count overflows i64 in `" ++ pred ++ "`"))
  | .sum, [col] =>
    (sumTuples pred col 0 (distinctTuples handle [col] members)).map Value.int
  | op, [col] =>
    match members.filterMap fun b => b.row[col]? with
    | [] => .error (.type pred ("`" ++ op.name ++ "` takes one variable in `" ++ pred ++ "`"))
    | best :: rest => .ok (bestValue src (if op = .min then .lt else .gt) best rest)
  | op, _ => .error (.type pred ("`" ++ op.name ++ "` takes one variable in `" ++ pred ++ "`"))

/-- Every op's result over one group, the first error stopping. -/
def applyOps (src : FactSource) (pred : String) (members : List Projected) :
    List (AggOp × List Nat) → Except RulesError (List Value)
  | [] => .ok []
  | (op, cols) :: rest =>
    match applyOp handle src pred members op cols with
    | .error e => .error e
    | .ok v => (applyOps src pred members rest).map fun vs => v :: vs

/-- One group's head row, at the weakest level and one above the highest height. -/
def groupRow (spec : AggSpec) (key results : List Value) (members : List Projected) :
    EdbRow × Nat :=
  (⟨spec.outOrder.filterMap fun c =>
      match c with
      | .group i => key[i]?
      | .agg j => results[j]?,
    (members.map Projected.level).foldl Tier.weakest .fact, noOrdinal⟩,
    min ((members.map Projected.height).foldl max 0 + 1) heightMax)

def groupRows (src : FactSource) (pred : String) (spec : AggSpec) (rows : List Projected) :
    List Row → Except RulesError (List (EdbRow × Nat))
  | [] => .ok []
  | key :: rest =>
    let members := rows.filter fun b => b.row.take spec.group = key
    match applyOps handle src pred members spec.ops with
    | .error e => .error e
    | .ok results =>
      (groupRows src pred spec rows rest).map fun out => groupRow spec key results members :: out

/-- The spec fits rows of `width`: every column an op or the head names exists, and every
op has the variables it takes. -/
def checkSpec (spec : AggSpec) (width : Nat) (pred : String) : Option RulesError :=
  let bad (m : String) : Option RulesError := some (.type pred m)
  if width < spec.group then
    bad ("aggregate of `" ++ pred ++ "` groups by " ++ toString spec.group ++ " of " ++
      toString width ++ " columns")
  else if spec.ops.isEmpty then bad ("aggregate of `" ++ pred ++ "` has no aggregate in its head")
  else
    match spec.ops.findSome? fun o =>
      if o.1 = .count ∧ o.2.length = 0 then
        bad ("`count` takes at least one variable in `" ++ pred ++ "`")
      else if o.1 ≠ .count ∧ o.2.length ≠ 1 then
        bad ("`" ++ o.1.name ++ "` takes one variable, found " ++ toString o.2.length ++ " in `" ++
          pred ++ "`")
      else
        (o.2.find? fun c => width ≤ c).bind fun c =>
          bad ("aggregate of `" ++ pred ++ "` reads column " ++ toString c ++ " of " ++
            toString width) with
    | some e => some e
    | none =>
      (spec.outOrder.find? fun c =>
        match c with
        | .group i => decide (spec.group ≤ i)
        | .agg j => decide (spec.ops.length ≤ j)).bind fun c =>
          bad ("aggregate of `" ++ pred ++ "` names a head column it lacks: " ++
            match c with
            | .group i => "Group(" ++ toString i ++ ")"
            | .agg j => "Agg(" ++ toString j ++ ")")

/-- Evaluate `spec` over the projected bindings: one row per distinct group. -/
def aggregate (src : FactSource) (bindings : List Projected) (width : Nat) (spec : AggSpec)
    (pred : String) : Except RulesError (List (EdbRow × Nat)) :=
  match checkSpec spec width pred with
  | some e => .error e
  | none =>
    let rows := deduplicated handle bindings
    groupRows handle src pred spec rows (firstOf id (rows.map fun b => b.row.take spec.group))

end Fold

end Glia.Rules
