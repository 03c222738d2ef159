import Glia.Core
import Glia.Kit.Grouping
import Mathlib.Logic.Embedding.Basic
import Mathlib.Data.Finset.Insert
import Mathlib.Data.Prod.Lex
import Mathlib.Data.String.Basic

/-! A repo's graph, the merged container and their renaming along an injection of ids. -/
namespace Glia.Graph

/-- A map keyed by node id. No modelled reader depends on a hash map's order. -/
abbrev IdMap (β : Type) := Glia.Kit.OrdMap NodeId β

abbrev Renaming := NodeId ↪ NodeId

/-- Keys of a graph's index and a qname. -/
instance lexTrans : Std.TransOrd (Nat ×ₗ String) := inferInstance

namespace IdMap
variable {β : Type}

def rename (ρ : Renaming) (m : IdMap β) : IdMap β :=
  .ofList (m.toList.map fun e => (ρ e.1, e.2)) compare

theorem rename_get (ρ : Renaming) (m : IdMap β) (id : NodeId) :
    (rename ρ m)[ρ id]? = m[id]? := by
  have apart : (m.toList.map fun e => (ρ e.1, e.2)).Pairwise
      fun a b => ¬compare a.1 b.1 = .eq := by
    rw [List.pairwise_map]
    apply m.distinct_keys_toList.imp
    intro a b h same
    apply h
    rw [compare_eq_iff_eq] at same ⊢
    exact ρ.injective same
  cases h : m[id]? with
  | some v =>
    apply Std.ExtTreeMap.getElem?_ofList_of_mem (compare_eq_iff_eq.mpr rfl) apart
    exact List.mem_map.mpr ⟨(id, v), Std.ExtTreeMap.mem_toList_iff_getElem?_eq_some.mpr h, rfl⟩
  | none =>
    apply Std.ExtTreeMap.getElem?_ofList_of_contains_eq_false
    rw [List.contains_eq_mem, decide_eq_false_iff_not]
    intro mem
    obtain ⟨p, hp, same⟩ := List.mem_map.mp mem
    obtain ⟨e, he, rfl⟩ := List.mem_map.mp hp
    have found := Std.ExtTreeMap.mem_toList_iff_getElem?_eq_some.mp he
    rw [ρ.injective same, h] at found
    cases found

end IdMap

structure Node where
  id : NodeId
  confidence : Confidence
  cells : List Cell := []
  deriving DecidableEq

structure CodeNav where
  nameById : IdMap String := ∅
  qnameById : IdMap String := ∅
  kindById : IdMap Nat := ∅
  parentOf : IdMap NodeId := ∅

structure RepoGraph where
  repo : Nat
  nodes : List Node
  edges : List Edge := []
  nav : CodeNav := {}

structure MergedGraph where
  graphs : List RepoGraph
  crossEdges : List Edge := []

def MergedGraph.allEdges (m : MergedGraph) : List Edge :=
  m.graphs.flatMap (·.edges) ++ m.crossEdges

section Rename
variable (ρ : Renaming)

def Node.rename (n : Node) : Node := { n with id := ρ n.id }

def renameEdge (e : Edge) : Edge := { e with fromId := ρ e.fromId, toId := ρ e.toId }

def CodeNav.rename (nav : CodeNav) : CodeNav where
  nameById := IdMap.rename ρ nav.nameById
  qnameById := IdMap.rename ρ nav.qnameById
  kindById := IdMap.rename ρ nav.kindById
  parentOf := (IdMap.rename ρ nav.parentOf).map fun _ id => ρ id

def RepoGraph.rename (g : RepoGraph) : RepoGraph where
  repo := g.repo
  nodes := g.nodes.map (Node.rename ρ)
  edges := g.edges.map (renameEdge ρ)
  nav := g.nav.rename ρ

def MergedGraph.rename (m : MergedGraph) : MergedGraph where
  graphs := m.graphs.map (RepoGraph.rename ρ)
  crossEdges := m.crossEdges.map (renameEdge ρ)

end Rename

end Glia.Graph

/-! A graph as a build holds it: with the navigation maps only a build reads, the call sites and
references left unresolved, and the nodes read as properties. -/
namespace Glia.Graph

inductive CallQualifier where
  | bare (name : String)
  | selfMethod (name : String)
  | superMethod (name : String)
  | attribute (base name : String)
  | complexReceiver (receiver name : String)
  deriving DecidableEq, Repr

structure CallSite where
  fromId : NodeId
  qualifier : CallQualifier
  line : Nat
  deriving DecidableEq, Repr

structure UnresolvedRef where
  fromId : NodeId
  fromModule : NodeId
  qualifier : CallQualifier
  category : EdgeCategoryId
  line : Nat
  deriving DecidableEq, Repr

/-- A node's declared types by name. -/
abbrev TypeTable := Glia.Kit.OrdMap String String

/-- Every navigation map; `F` is what a parser records for a scope. -/
structure FullNav (F : Type) extends CodeNav where
  childrenOf : IdMap (List NodeId) := ∅
  fieldTypes : IdMap TypeTable := ∅
  localTypes : IdMap TypeTable := ∅
  navFacts : IdMap (List F) := ∅
  returnTypes : IdMap String := ∅
  methodSigs : IdMap String := ∅

structure BuiltGraph (F : Type) where
  repo : Nat
  nodes : List Node := []
  edges : List Edge := []
  nav : FullNav F := {}
  unresolvedCalls : List CallSite := []
  unresolvedRefs : List UnresolvedRef := []
  properties : Finset NodeId := ∅

end Glia.Graph
