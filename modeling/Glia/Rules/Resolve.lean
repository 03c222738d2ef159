import Glia.Rules.Plan

/-! What a step reads of the bindings so far: its parts, arguments and checks. -/
namespace Glia.Rules

/-- The value of each variable, `none` while it is unbound. -/
abbrev Env := Nat → Option Value

def emptyEnv : Env := fun _ => none

def categoryText (reg : Registries) (c : EdgeCategoryId) : String :=
  match reg.categoryName c with
  | some name => name
  | none => "#" ++ toString c

def setText (tables : DomainTables) : CatSet → String
  | .all => "*"
  | .carry => names tables.carryEdges
  | .of ids => names ids
where
  names (ids : List EdgeCategoryId) : String :=
    "|".intercalate ((ids.map (categoryText tables.registries)).insertionSort (· ≤ ·))

def constValue (tables : DomainTables) : ConstVal → Value
  | .str s => .str s
  | .int i => .int i
  | .catSet set => .str (setText tables set)

def resolvePart (tables : DomainTables) (env : Env) : KeyPart → Option Value
  | .const c => some (constValue tables c)
  | .var v => env v

def parts (tables : DomainTables) (env : Env) : List KeyPart → Option (List Value)
  | [] => some []
  | p :: rest =>
    match resolvePart tables env p, parts tables env rest with
    | some v, some vs => some (v :: vs)
    | _, _ => none

/-- An optional end or argument: `some none` free, `none` unresolvable. -/
def opt (tables : DomainTables) (env : Env) : Option KeyPart → Option (Option Value)
  | none => some none
  | some p => (resolvePart tables env p).map some

def opts (tables : DomainTables) (env : Env) : List (Option KeyPart) → Option (List (Option Value))
  | [] => some []
  | a :: rest =>
    match opt tables env a, opts tables env rest with
    | some v, some vs => some (v :: vs)
    | _, _ => none

/-- What a check compares a column with: a value, or another column of the same row. -/
inductive Want where
  | val (v : Value)
  | col (c : Nat)
  deriving DecidableEq, Repr

/-- A variable the step itself binds compares with its bind column, anything else with
its value. -/
def want (tables : DomainTables) (env : Env) (binds : List Bind) (check : Check) :
    Option (Nat × Want) :=
  let own := match check.2 with
    | .var v => (binds.find? fun b => b.2 == v).map Prod.fst
    | .const _ => none
  match own with
  | some c => some (check.1, .col c)
  | none => (resolvePart tables env check.2).map fun v => (check.1, .val v)

def wants (tables : DomainTables) (env : Env) (binds : List Bind) :
    List Check → Option (List (Nat × Want))
  | [] => some []
  | c :: rest =>
    match want tables env binds c, wants tables env binds rest with
    | some w, some ws => some (w :: ws)
    | _, _ => none

/-- The variables a step binds, with the row column each comes from. -/
def eachBind : Step → List Bind
  | .scan _ _ binds _ _ => binds
  | .lookup _ _ _ binds _ _ => binds
  | .call _ _ _ binds _ _ => binds
  | .reach _ _ _ _ binds _ _ => binds
  | .assign var _ => [(0, var)]
  | .reachMulti _ _ _ _ _ _ bind _ => [(0, bind)]
  | .neg _ _ _ => []
  | .cmp _ _ _ => []
  | .negCall _ _ _ => []
  | .negReach _ _ _ _ => []

def takeBind (row : Row) (env : Env) (b : Bind) : Env := Function.update env b.2 row[b.1]?

def takeRow (step : Step) (env : Env) (row : Row) : Env :=
  (eachBind step).foldl (takeBind row) env

def resolves (tables : DomainTables) (env : Env) : Step → Bool
  | .scan _ _ binds checks _ => (wants tables env binds checks).isSome
  | .lookup _ _ key binds checks _ =>
    (parts tables env key).isSome && (wants tables env binds checks).isSome
  | .neg _ _ key => (parts tables env key).isSome
  | .cmp _ l r => (resolvePart tables env l).isSome && (resolvePart tables env r).isSome
  | .assign _ p => (resolvePart tables env p).isSome
  | .call _ _ args binds checks _ =>
    (wants tables env binds checks).isSome && (opts tables env args).isSome
  | .negCall _ _ args => (opts tables env args).isSome
  | .reach _ _ s t binds checks _ =>
    (wants tables env binds checks).isSome && (opt tables env s).isSome && (opt tables env t).isSome
  | .negReach _ _ s t => (opt tables env s).isSome && (opt tables env t).isSome
  | .reachMulti _ _ _ _ _ _ _ _ => true

def Fits (step : Step) (row : Row) : Prop := ∀ b ∈ eachBind step, b.1 < row.length

mutual

/-- The step never drops a binding for an unbound part: its own parts resolve, and a
hoisted seed never drops one and binds its seed variable. -/
def StepNeverDrops (tables : DomainTables) : Env → Step → Prop
  | _, .reachMulti _ _ _ seed seedVar _ _ _ =>
    NeverDrops tables (fun env => (env seedVar).isSome = true) emptyEnv seed
  | env, step => resolves tables env step = true

/-- Whatever rows the steps read, none of them drops a binding for an unbound part, and
`last` holds of the bindings they end with. -/
def NeverDrops (tables : DomainTables) (last : Env → Prop) : Env → List Step → Prop
  | env, [] => last env
  | env, step :: rest =>
    StepNeverDrops tables env step ∧
      ∀ row, Fits step row → NeverDrops tables last (takeRow step env row) rest

end

end Glia.Rules
