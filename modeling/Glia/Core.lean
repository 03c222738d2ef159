import Mathlib.Order.Lattice
import Mathlib.Order.MinMax
import Mathlib.Order.BoundedOrder.Basic

/-! The core graph types, the evidence tiers and a domain's id registries. -/
namespace Glia

abbrev NodeId := Nat

abbrev EdgeCategoryId := Nat

abbrev CellTypeId := Nat

inductive Confidence where
  | strong
  | medium
  | weak
  deriving DecidableEq, Repr

inductive CellPayload where
  | text (s : String)
  | json (s : String)
  | bytes (b : List UInt8)
  deriving DecidableEq, Repr

structure Cell where
  kind : CellTypeId
  payload : CellPayload
  deriving DecidableEq, Repr

structure Edge where
  fromId : NodeId
  toId : NodeId
  category : EdgeCategoryId
  confidence : Confidence
  cells : List Cell := []
  deriving DecidableEq, Repr

inductive Tier where
  | fact
  | derived
  | heuristic
  deriving DecidableEq, Repr

namespace Tier

def all : List Tier := [fact, derived, heuristic]

def level : Tier → Nat
  | fact => 0
  | derived => 1
  | heuristic => 2

theorem level_injective : Function.Injective level := by
  intro a b h
  cases a <;> cases b <;> simp_all [level]

instance : LinearOrder Tier := LinearOrder.lift' level level_injective

theorem le_iff_level (a b : Tier) : a ≤ b ↔ a.level ≤ b.level := Iff.rfl

instance : OrderBot Tier where
  bot := fact
  bot_le a := by cases a <;> decide

instance : OrderTop Tier where
  top := heuristic
  le_top a := by cases a <;> decide

@[simp] theorem fact_le (t : Tier) : fact ≤ t := bot_le (a := t)

@[simp] theorem le_heuristic (t : Tier) : t ≤ heuristic := le_top (a := t)

@[simp] theorem mem_all (t : Tier) : t ∈ all := by cases t <;> decide

def weakest (a b : Tier) : Tier := max a b

def best (a b : Tier) : Tier := min a b

@[simp] theorem weakest_le_iff (a b c : Tier) : weakest a b ≤ c ↔ a ≤ c ∧ b ≤ c := max_le_iff

@[simp] theorem fact_weakest (t : Tier) : weakest fact t = t := max_eq_right (fact_le t)

@[simp] theorem weakest_fact (t : Tier) : weakest t fact = t := max_eq_left (fact_le t)

end Tier

/-- A domain's id registries: every id it allocates, with its display name. -/
structure Registries where
  nodeKinds : List (Nat × String)
  edgeCategories : List (Nat × String)
  cellTypes : List (Nat × String)
  deriving DecidableEq, Repr

def nameOf (table : List (Nat × String)) (id : Nat) : Option String :=
  (table.find? fun e => e.1 == id).map Prod.snd

namespace Registries

def kindName (r : Registries) (k : Nat) : Option String := nameOf r.nodeKinds k

def categoryName (r : Registries) (c : EdgeCategoryId) : Option String :=
  nameOf r.edgeCategories c

def cellName (r : Registries) (t : CellTypeId) : Option String := nameOf r.cellTypes t

end Registries

/-- What a domain hands the rule engine besides its facts. -/
structure DomainTables where
  registries : Registries
  carryEdges : List EdgeCategoryId
  deriving DecidableEq, Repr

end Glia
