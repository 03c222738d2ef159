import Glia.Core
import Mathlib.Data.Prod.Lex
import Mathlib.Data.Sum.Order
import Mathlib.Data.String.Basic
import Mathlib.Tactic.IntervalCases

/-! The values of an evaluation. A handle is modelled by the value it interns: handle
order is interning order, which no output reads, so any linear order on values stands
for it. -/
namespace Glia.Rules

inductive Value where
  | node (id : NodeId)
  | str (text : String)
  | int (value : Int)
  deriving DecidableEq, Repr

namespace Value

/-- The type rank output order uses, with the payload: ints, strings, nodes. -/
def rank : Value → ℤ ⊕ₗ (String ⊕ₗ ℕ)
  | int i => Sum.inlₗ i
  | str s => Sum.inrₗ (Sum.inlₗ s)
  | node n => Sum.inrₗ (Sum.inrₗ n)

theorem rank_injective : Function.Injective rank := by
  intro a b h
  cases a <;> cases b <;> simp_all [rank, Sum.inlₗ, Sum.inrₗ]

instance : LinearOrder Value := LinearOrder.lift' rank rank_injective

def nodeId? : Value → Option NodeId
  | node n => some n
  | str _ => none
  | int _ => none

@[simp] theorem nodeId?_eq_some (v : Value) (n : NodeId) : v.nodeId? = some n ↔ v = node n := by
  cases v <;> simp [nodeId?]

end Value

abbrev Row := List Value

end Glia.Rules

/-! The string-named rule IR and the catalog of the predicates and builtins a program
may read. Spans only place diagnostics in their text and are not modelled. -/
namespace Glia.Rules

inductive AggOp where
  | count
  | min
  | max
  | sum
  deriving DecidableEq, Repr

def AggOp.name : AggOp → String
  | count => "count"
  | min => "min"
  | max => "max"
  | sum => "sum"

inductive CmpOp where
  | eq
  | ne
  | lt
  | le
  | gt
  | ge
  deriving DecidableEq, Repr

inductive Term where
  | var (name : String)
  | wild
  | str (value : String)
  | int (value : Int)
  deriving DecidableEq, Repr

structure Aggregate where
  op : AggOp
  vars : List String
  deriving DecidableEq, Repr

inductive HeadArg where
  | term (t : Term)
  | agg (a : Aggregate)
  deriving DecidableEq, Repr

structure Head where
  pred : String
  args : List HeadArg
  deriving DecidableEq, Repr

structure Atom where
  pred : String
  args : List Term
  deriving DecidableEq, Repr

structure Comparison where
  op : CmpOp
  left : Term
  right : Term
  deriving DecidableEq, Repr

inductive Literal where
  | pos (atom : Atom)
  | neg (atom : Atom)
  | cmp (c : Comparison)
  deriving DecidableEq, Repr

/-- One clause `head :- body.`; an empty body makes it a fact. -/
structure Rule where
  head : Head
  body : List Literal
  deriving DecidableEq, Repr

structure Program where
  rules : List Rule
  deriving DecidableEq, Repr

def signatureOf (name : String) (arity : Nat) : String :=
  name ++ "/" ++ toString arity

def Head.arity (h : Head) : Nat := h.args.length

def Head.signature (h : Head) : String := signatureOf h.pred h.args.length

def Atom.signature (a : Atom) : String := signatureOf a.pred a.args.length

inductive ColType where
  | node
  | kind
  | category
  | cellType
  | categorySet
  | str
  | int
  | any
  deriving DecidableEq, Repr

/-- What a builtin needs of one argument before it is called. -/
inductive BindReq where
  | may
  | must
  | const
  deriving DecidableEq, Repr

structure PredDecl where
  name : String
  cols : List ColType
  deriving DecidableEq, Repr

structure AttrDecl where
  name : String
  ty : ColType
  deriving DecidableEq, Repr

inductive BuiltinKind where
  | reaches
  | scc
  | startsWith
  | endsWith
  | contains
  /-- A builtin the domain supplies. -/
  | domain
  deriving DecidableEq, Repr

structure BuiltinDecl where
  name : String
  cols : List ColType
  bind : List BindReq
  tiered : Bool
  kind : BuiltinKind
  deriving DecidableEq, Repr

def BuiltinDecl.signature (d : BuiltinDecl) : String := signatureOf d.name d.cols.length

/-- The predicates and builtins a program may read, with the domain's registries and
carry edges. -/
structure Catalog where
  registries : Registries
  carry : List Nat
  edb : List PredDecl
  builtins : List BuiltinDecl
  deriving DecidableEq, Repr

/-- What a builtin's declaration keeps to: one requirement per column, and past a
`reaches` call's two ends only constants. -/
structure BuiltinDecl.WellFormed (d : BuiltinDecl) : Prop where
  bind_length : d.bind.length = d.cols.length
  reaches : d.kind = .reaches → ∀ c, 2 ≤ c → c < d.cols.length → d.bind[c]? = some .const

namespace Catalog

def edb? (cat : Catalog) (name : String) : Option PredDecl :=
  cat.edb.find? fun p => p.name == name

def builtin? (cat : Catalog) (name : String) (arity : Nat) : Option BuiltinDecl :=
  cat.builtins.find? fun b => b.name == name && b.cols.length == arity

def core (registries : Registries) (carry : List Nat) : Catalog where
  registries := registries
  carry := carry
  edb := [
    ⟨"node", [.node, .kind]⟩,
    ⟨"edge", [.node, .node, .category]⟩,
    ⟨"edge_conf", [.node, .node, .category, .str]⟩,
    ⟨"cell", [.node, .cellType, .str]⟩,
    ⟨"edge_cell", [.node, .node, .category, .cellType, .str]⟩,
    ⟨"kind", [.kind]⟩,
    ⟨"category", [.category]⟩,
    ⟨"carry_category", [.category]⟩]
  builtins := [
    ⟨"reaches", [.node, .node], [.may, .may], true, .reaches⟩,
    ⟨"reaches", [.node, .node, .categorySet], [.may, .may, .const], true, .reaches⟩,
    ⟨"reaches", [.node, .node, .categorySet, .int], [.may, .may, .const, .const], true,
      .reaches⟩,
    ⟨"scc", [.node, .node], [.may, .may], true, .scc⟩,
    ⟨"scc", [.node, .node, .categorySet], [.may, .may, .const], true, .scc⟩,
    ⟨"starts_with", [.str, .str], [.must, .must], false, .startsWith⟩,
    ⟨"ends_with", [.str, .str], [.must, .must], false, .endsWith⟩,
    ⟨"contains", [.str, .str], [.must, .must], false, .contains⟩]

/-- Add one attribute as the EDB predicate `name(Node, ty)`; a taken name is ignored. -/
def withAttr (cat : Catalog) (a : AttrDecl) : Catalog :=
  if (cat.edb? a.name).isSome || cat.builtins.any (fun b => b.name == a.name) then cat
  else { cat with edb := cat.edb ++ [⟨a.name, [.node, a.ty]⟩] }

def withAttrs (cat : Catalog) (attrs : List AttrDecl) : Catalog := attrs.foldl withAttr cat

/-- Add one builtin; a taken name, or name and arity, is ignored. -/
def withBuiltin (cat : Catalog) (d : BuiltinDecl) : Catalog :=
  if (cat.edb? d.name).isSome || (cat.builtin? d.name d.cols.length).isSome then cat
  else { cat with builtins := cat.builtins ++ [d] }

def withBuiltins (cat : Catalog) (decls : List BuiltinDecl) : Catalog :=
  decls.foldl withBuiltin cat

def declare (tables : DomainTables) (attrs : List AttrDecl) (decls : List BuiltinDecl) : Catalog :=
  ((core tables.registries tables.carryEdges).withAttrs attrs).withBuiltins
    ((decls.map fun d => { d with kind := .domain }).filter fun d => d.bind.length = d.cols.length)

@[simp] theorem withAttr_builtins (cat : Catalog) (a : AttrDecl) :
    (cat.withAttr a).builtins = cat.builtins := by
  unfold withAttr
  split <;> rfl

@[simp] theorem withAttrs_builtins (cat : Catalog) (attrs : List AttrDecl) :
    (cat.withAttrs attrs).builtins = cat.builtins := by
  unfold withAttrs
  induction attrs generalizing cat with
  | nil => rfl
  | cons a rest ih => rw [List.foldl_cons, ih, withAttr_builtins]

theorem mem_withBuiltins {cat : Catalog} {decls : List BuiltinDecl} {d : BuiltinDecl}
    (h : d ∈ (cat.withBuiltins decls).builtins) : d ∈ cat.builtins ∨ d ∈ decls := by
  unfold withBuiltins at h
  induction decls generalizing cat with
  | nil => exact .inl h
  | cons e rest ih =>
    rcases ih h with h | h
    · unfold withBuiltin at h
      split at h
      · exact .inl h
      · rcases List.mem_append.mp h with h | h
        · exact .inl h
        · exact .inr (List.mem_singleton.mp h ▸ List.mem_cons_self)
    · exact .inr (List.mem_cons_of_mem _ h)

theorem declare_wellFormed (tables : DomainTables) (attrs : List AttrDecl)
    (decls : List BuiltinDecl) : ∀ d ∈ (declare tables attrs decls).builtins, d.WellFormed := by
  intro d h
  rcases mem_withBuiltins h with h | h
  · rw [withAttrs_builtins] at h
    simp only [core, List.mem_cons, List.not_mem_nil, or_false] at h
    rcases h with rfl | rfl | rfl | rfl | rfl | rfl | rfl | rfl
    all_goals
      refine ⟨rfl, fun kind c two lt => ?_⟩
      simp only [List.length_cons, List.length_nil] at lt
      first
        | exact absurd kind (by decide)
        | interval_cases c <;> rfl
  · simp only [List.mem_filter, List.mem_map, decide_eq_true_eq] at h
    obtain ⟨⟨e, _, rfl⟩, length⟩ := h
    exact ⟨length, fun kind => by cases kind⟩

end Catalog

end Glia.Rules

/-! Compiled rules: predicates by id, variables by slot, constants checked against the
registries. -/
namespace Glia.Rules

abbrev PredId := Nat

/-- The head id of a rule whose head did not resolve. -/
def noPred : PredId := 4294967295

/-- The most arguments a predicate may take. -/
def maxArity : Nat := 256

/-- An EDB predicate: the core eight, or a domain attribute by its declaration's index. -/
inductive EdbPred where
  | node
  | edge
  | edgeConf
  | cell
  | edgeCell
  | kind
  | category
  | carryCategory
  | attr (decl : Nat)
  deriving DecidableEq, Repr

def EdbPred.of (index : Nat) (name : String) : EdbPred :=
  if name = "node" then node
  else if name = "edge" then edge
  else if name = "edge_conf" then edgeConf
  else if name = "cell" then cell
  else if name = "edge_cell" then edgeCell
  else if name = "kind" then kind
  else if name = "category" then category
  else if name = "carry_category" then carryCategory
  else attr index

inductive PredKind where
  | idb
  | edb (e : EdbPred)
  | builtin (b : Nat)
  deriving DecidableEq, Repr

structure PredInfo where
  name : String
  arity : Nat
  kind : PredKind
  stratum : Nat
  recursive : Bool
  synthetic : Bool
  deriving DecidableEq, Repr

namespace PredInfo

def signature (i : PredInfo) : String := signatureOf i.name i.arity

/-- Column `c`'s declared type: the catalog's for an EDB predicate or builtin, `any`
for an IDB predicate and past a declaration's arity. -/
def colType (i : PredInfo) (catalog : Catalog) (c : Nat) : ColType :=
  let cols := match i.kind with
    | .idb => none
    | .edb (.attr d) => catalog.edb[d]?.map PredDecl.cols
    | .edb _ => (catalog.edb? i.name).map PredDecl.cols
    | .builtin b => catalog.builtins[b]?.map BuiltinDecl.cols
  (cols.bind fun cs => cs[c]?).getD .any

/-- What a builtin needs of argument `c` before the call; `none` for a relation. -/
def bindReq (i : PredInfo) (catalog : Catalog) (c : Nat) : Option BindReq :=
  match i.kind with
  | .builtin b => catalog.builtins[b]?.bind fun d => d.bind[c]?
  | .idb => none
  | .edb _ => none

end PredInfo

inductive CatSet where
  | all
  | carry
  | of (ids : List EdgeCategoryId)
  deriving DecidableEq, Repr

inductive ConstVal where
  | str (s : String)
  | int (i : Int)
  | catSet (set : CatSet)
  deriving DecidableEq, Repr

inductive CTerm where
  | var (v : Nat)
  | wild
  | const (c : ConstVal)
  deriving DecidableEq, Repr

inductive CLit where
  | pos (p : PredId) (terms : List CTerm)
  | neg (p : PredId) (terms : List CTerm)
  | cmp (op : CmpOp) (l r : CTerm)
  deriving DecidableEq, Repr

/-- One compiled rule. An aggregate's head slot holds `wild`: the `j`-th one is
`aggs[j]`. -/
structure CRule where
  index : Nat
  head : PredId
  headTerms : List CTerm
  aggs : List (AggOp × List Nat)
  body : List CLit
  nvars : Nat
  varNames : List String
  deriving DecidableEq, Repr

/-- One stratum: a strongly connected component of the IDB dependency graph. -/
structure Stratum where
  preds : List PredId
  recursive : Bool
  aggregate : Bool
  deriving DecidableEq, Repr

def CLit.terms : CLit → List CTerm
  | pos _ terms => terms
  | neg _ terms => terms
  | cmp _ l r => [l, r]

def Mentions (terms : List CTerm) (v : Nat) : Prop := CTerm.var v ∈ terms

def CRule.HeadReads (r : CRule) (v : Nat) : Prop :=
  Mentions r.headTerms v ∨ ∃ agg ∈ r.aggs, v ∈ agg.2

/-- The category set a closure builtin's call walks; `none` for any other builtin. -/
def closureSet (catalog : Catalog) (builtin : Nat) (terms : List CTerm) : Option CatSet :=
  match catalog.builtins[builtin]? with
  | none => none
  | some decl =>
    if decl.kind = .reaches ∨ decl.kind = .scc then
      match decl.cols.findIdx? (· == .categorySet) with
      | none => some .carry
      | some c =>
        match terms[c]? with
        | some (.const (.catSet set)) => some set
        | _ => some .all
    else none

def predReq (catalog : Catalog) (preds : List PredInfo) (p : PredId) (c : Nat) :
    Option BindReq :=
  preds[p]?.bind fun i => i.bindReq catalog c

end Glia.Rules
