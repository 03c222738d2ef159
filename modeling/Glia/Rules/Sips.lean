import Glia.Rules.Ir

/-! The one sideways-information-passing order: bound first, then joined, then the most
bound columns, then the smaller relation, then source order. -/
namespace Glia.Rules

abbrev Bound := Nat → Bool

def isBound (bound : Bound) : CTerm → Bool
  | .const _ => true
  | .var v => bound v
  | .wild => false

def CTerm.isVar : CTerm → Bool
  | .var _ => true
  | .wild => false
  | .const _ => false

def hasFreeVar (terms : List CTerm) (bound : Bound) : Bool :=
  terms.any fun t => t.isVar && !isBound bound t

def markTerm (bound : Bound) : CTerm → Bound
  | .var v => Function.update bound v true
  | .wild => bound
  | .const _ => bound

def markAll (bound : Bound) (terms : List CTerm) : Bound := terms.foldl markTerm bound

/-- Mark what running a literal binds: every variable of a positive atom; the free side
of an assignment. -/
def bindLiteral (bound : Bound) : CLit → Bound
  | .pos _ terms => markAll bound terms
  | .cmp .eq l r =>
    match isBound bound l, isBound bound r with
    | true, false => markTerm bound r
    | false, true => markTerm bound l
    | _, _ => bound
  | .neg _ _ => bound
  | .cmp _ _ _ => bound

@[simp] theorem isBound_const (bound : Bound) (c : ConstVal) : isBound bound (.const c) = true :=
  rfl

@[simp] theorem isBound_var (bound : Bound) (v : Nat) : isBound bound (.var v) = bound v := rfl

@[simp] theorem isBound_wild (bound : Bound) : isBound bound .wild = false := rfl

@[simp] theorem markTerm_apply (bound : Bound) (t : CTerm) (v : Nat) :
    markTerm bound t v = true ↔ bound v = true ∨ t = .var v := by
  cases t with
  | var w =>
    by_cases h : v = w
    · simp [markTerm, h]
    · simp [markTerm, Function.update_of_ne h, Ne.symm h]
  | wild => simp [markTerm]
  | const c => simp [markTerm]

@[simp] theorem markAll_apply (bound : Bound) (terms : List CTerm) (v : Nat) :
    markAll bound terms v = true ↔ bound v = true ∨ Mentions terms v := by
  unfold markAll Mentions
  induction terms generalizing bound with
  | nil => simp
  | cons t rest ih =>
    rw [List.foldl_cons, ih, markTerm_apply, List.mem_cons, or_assoc, eq_comm (a := t)]

theorem hasFreeVar_eq_false (terms : List CTerm) (bound : Bound) :
    hasFreeVar terms bound = false ↔ ∀ v, Mentions terms v → bound v = true := by
  unfold hasFreeVar Mentions
  rw [List.any_eq_false]
  constructor
  · intro h v hv
    simpa [CTerm.isVar] using h _ hv
  · intro h t ht
    cases t with
    | var v => simp [h v ht]
    | wild => simp [CTerm.isVar]
    | const c => simp

/-- One bound set holds every variable another does. -/
def Bound.Le (a b : Bound) : Prop := ∀ v, a v = true → b v = true

theorem Bound.Le.refl (a : Bound) : a.Le a := fun _ h => h

theorem Bound.Le.trans {a b c : Bound} (h : a.Le b) (h' : b.Le c) : a.Le c :=
  fun v hv => h' v (h v hv)

theorem isBound_mono {a b : Bound} (h : a.Le b) {t : CTerm} (ht : isBound a t = true) :
    isBound b t = true := by
  cases t with
  | var v => exact h v ht
  | wild => exact ht
  | const c => rfl

theorem le_bindLiteral (bound : Bound) (lit : CLit) : bound.Le (bindLiteral bound lit) := by
  intro v h
  cases lit with
  | pos p terms => simp [bindLiteral, h]
  | neg p terms => exact h
  | cmp op l r =>
    cases op <;> simp only [bindLiteral] <;> try exact h
    cases isBound bound l <;> cases isBound bound r <;> simp [h]

/-- How a literal ranks under the current bindings. -/
structure Shape where
  /-- Binds no new variable and can run. -/
  filter : Bool
  /-- Can run now, binding something. -/
  eligible : Bool
  /-- Reads a variable already bound, or is an assignment. -/
  joined : Bool
  /-- Constants and bound variables among its columns. -/
  bound : Nat
  size : Nat
  deriving DecidableEq, Repr

def unknownSize : Nat := 18446744073709551615

/-- An `=` with one free variable side whose other side is bound. -/
def assigns (bound : Bound) (op : CmpOp) (l r : CTerm) : Bool :=
  op == .eq &&
    ((l.isVar && !isBound bound l && isBound bound r) ||
      (r.isVar && !isBound bound r && isBound bound l))

def runnable (catalog : Catalog) (preds : List PredInfo) (bound : Bound) (p : PredId)
    (terms : List CTerm) : Bool :=
  terms.zipIdx.all fun t =>
    match predReq catalog preds p t.2 with
    | some .must => isBound bound t.1
    | some .const => isBound bound t.1
    | some .may => true
    | none => true

def shape (catalog : Catalog) (preds : List PredInfo) (bound : Bound)
    (size : PredId → Option Nat) : CLit → Shape
  | .pos p terms =>
    let runs := runnable catalog preds bound p terms
    { filter := runs && !hasFreeVar terms bound
      eligible := runs
      joined := terms.any fun t => t.isVar && isBound bound t
      bound := (terms.zipIdx.filter fun t =>
        predReq catalog preds p t.2 != some .const && isBound bound t.1).length
      size := (size p).getD unknownSize }
  | .neg _ terms =>
    { filter := !hasFreeVar terms bound
      eligible := false
      joined := false
      bound := 0
      size := unknownSize }
  | .cmp op l r =>
    { filter := isBound bound l && isBound bound r
      eligible := assigns bound op l r
      joined := assigns bound op l r
      bound := 1
      size := 1 }

/-- `s` ranks strictly above `o`: joined, then more bound columns, then smaller. -/
def Shape.better (s o : Shape) : Bool :=
  if s.joined != o.joined then s.joined
  else if s.bound != o.bound then o.bound < s.bound
  else s.size < o.size

/-- The first eligible literal no later one ranks strictly above. -/
def bestOf : Option (Nat × Shape) → List (Nat × Shape) → Option (Nat × Shape)
  | best, [] => best
  | best, s :: rest =>
    if !s.2.eligible then bestOf best rest
    else
      match best with
      | none => bestOf (some s) rest
      | some o => bestOf (if s.2.better o.2 then some s else some o) rest

section Order

variable (catalog : Catalog) (preds : List PredInfo) (size : PredId → Option Nat)
variable (body : List CLit)

def shapeAt (bound : Bound) (i : Nat) : Shape :=
  match body[i]? with
  | some lit => shape catalog preds bound size lit
  | none => ⟨false, false, false, 0, unknownSize⟩

/-- The next literal to run among the open ones; `none` once every literal is placed. -/
def pick (bound : Bound) (opens : List Nat) : Option Nat :=
  let shapes := opens.map fun i => (i, shapeAt catalog preds size body bound i)
  match shapes.find? fun s => s.2.filter with
  | some s => some s.1
  | none =>
    match bestOf none shapes with
    | some s => some s.1
    | none => opens.head?

def bindAt (bound : Bound) (i : Nat) : Bound :=
  match body[i]? with
  | some lit => bindLiteral bound lit
  | none => bound

def sipsFrom : Nat → Bound → List Nat → List Nat
  | 0, _, _ => []
  | fuel + 1, bound, opens =>
    match pick catalog preds size body bound opens with
    | none => []
    | some i => i :: sipsFrom fuel (bindAt body bound i) (opens.erase i)

end Order

/-- The order a rule's body literals run in, as indexes into its body: `bound` marks the
variables bound before the body runs, and `first`, when given, runs first. -/
def sipsOrder (rule : CRule) (preds : List PredInfo) (catalog : Catalog) (bound : Bound)
    (first : Option Nat) (size : PredId → Option Nat) : List Nat :=
  let n := rule.body.length
  let bound : Bound := fun v => decide (v < rule.nvars) && bound v
  let opens := List.range n
  match first.filter (· < n) with
  | some f =>
    f :: sipsFrom catalog preds size rule.body n (bindAt rule.body bound f) (opens.erase f)
  | none => sipsFrom catalog preds size rule.body n bound opens

end Glia.Rules
