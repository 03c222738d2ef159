import Glia.Graph.Types
import Glia.Kit.Components

/-! The navigation tree: two maps, of parents and of children, that state one relation without
cycles. -/
namespace Glia.Graph

open Relation Glia.Kit.Reroute

section Maps
variable {β : Type}

theorem IdMap.get_erase (m : IdMap β) (k k' : NodeId) :
    (m.erase k)[k']? = if k = k' then none else m[k']? := by
  rw [Std.ExtTreeMap.getElem?_erase]
  by_cases same : k = k'
  · simp [same]
  · have apart : compare k k' ≠ .eq := fun e => same (compare_eq_iff_eq.mp e)
    rw [if_neg same, if_neg apart]

/-- Put a value under a key that has none. -/
def IdMap.orInsert (m : IdMap β) (k : NodeId) (v : β) : IdMap β :=
  if m.contains k then m else m.insert k v

theorem IdMap.get_orInsert (m : IdMap β) (k : NodeId) (v : β) (k' : NodeId) :
    (m.orInsert k v)[k']? = if k = k' then m[k']?.or (some v) else m[k']? := by
  rw [orInsert, Glia.Kit.OrdMap.contains_eq_isSome]
  by_cases same : k = k'
  · subst same
    rw [if_pos rfl]
    cases held : m[k]? with
    | some w => exact held
    | none => exact (Glia.Kit.OrdMap.get_insert k v k).trans (if_pos rfl)
  · rw [if_neg same]
    split
    · rfl
    · rw [Glia.Kit.OrdMap.get_insert, if_neg same]

end Maps

section Tree
variable {F : Type}

namespace FullNav

def kids (nav : FullNav F) (p : NodeId) : List NodeId := (nav.childrenOf[p]?).getD []

def Up (nav : FullNav F) (k p : NodeId) : Prop := nav.parentOf[k]? = some p

def Above (nav : FullNav F) (k a : NodeId) : Prop := TransGen nav.Up k a

/-- The two maps are each other's inverse, list no child twice and have no cycle. -/
structure Consistent (nav : FullNav F) : Prop where
  dual : ∀ k p, nav.Up k p ↔ k ∈ nav.kids p
  once : ∀ p, (nav.kids p).Nodup
  acyclic : Acyclic nav.Up

end FullNav

end Tree

end Glia.Graph
