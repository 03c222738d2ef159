import Glia.Algo.Adjacency
import Glia.CodeDomain
import Glia.Graph.NavTree

/-! The module import graph: every IMPORTS edge projected onto the modules at its two ends. -/
namespace Glia.Engine

open Glia.Algo (GraphSource)
open Glia.Graph

structure LocatedNode where
  name : String
  qname : String
  file : Option String
  line : Option Int
  deriving DecidableEq, Repr

structure Why (ε : Type) where
  evidenceOf : Edge → Option ε
  tierOf : Option ε → Edge → Tier × Option String

def mergedSource (merged : MergedGraph) : GraphSource :=
  ⟨merged.graphs.flatMap fun g => g.nodes.map (·.id), merged.allEdges⟩

/-- Parent hops walked from a node to its enclosing MODULE. -/
def maxParentSteps : Nat := 64

def graphOf (merged : MergedGraph) : IdMap Nat :=
  merged.graphs.zipIdx.foldl
    (fun m g => (g.1.nav.kindById.toList.map Prod.fst).foldl (fun m id => m.orInsert id g.2) m) ∅

def moduleUp (nav : CodeNav) : Nat → NodeId → Option NodeId
  | 0, _ => none
  | steps + 1, cur =>
    if nav.kindById[cur]? = some NodeKind.module then some cur
    else nav.parentOf[cur]?.bind (moduleUp nav steps)

def moduleOf (merged : MergedGraph) (id : NodeId) : Option NodeId :=
  (graphOf merged)[id]?.bind fun gi =>
    merged.graphs[gi]?.bind fun g => moduleUp g.nav maxParentSteps id

structure ModuleImports (ε : Type) where
  modules : List NodeId
  edges : List Edge
  evidence : List (Option ε)
  place : NodeId × NodeId → Option Nat

namespace ModuleImports
variable {ε : Type}

def empty : ModuleImports ε := ⟨[], [], [], fun _ => none⟩

def evidenceAt (imports : ModuleImports ε) (a b : NodeId) : Option ε :=
  (imports.place (a, b)).bind fun i => imports.evidence[i]?.join

def source (imports : ModuleImports ε) : GraphSource := ⟨imports.modules, imports.edges⟩

def addModule (imports : ModuleImports ε) (m : NodeId) : ModuleImports ε :=
  if m ∈ imports.modules then imports else { imports with modules := imports.modules ++ [m] }

def add (moduleOf : NodeId → Option NodeId) (evidenceOf : Edge → Option ε)
    (imports : ModuleImports ε) (e : Edge) : ModuleImports ε :=
  if e.category ≠ EdgeCategory.imports then imports
  else
    match moduleOf e.fromId, moduleOf e.toId with
    | some a, some b =>
      if a = b ∨ (imports.place (a, b)).isSome then imports
      else
        let listed := (imports.addModule a).addModule b
        { listed with
          edges := listed.edges ++ [⟨a, b, EdgeCategory.imports, e.confidence, []⟩]
          evidence := listed.evidence ++ [evidenceOf e]
          place := Function.update listed.place (a, b) (some listed.edges.length) }
    | _, _ => imports

end ModuleImports

def moduleImportGraph {ε : Type} (why : Why ε) (merged : MergedGraph) : ModuleImports ε :=
  merged.allEdges.foldl (ModuleImports.add (moduleOf merged) why.evidenceOf) .empty

section Projected
variable {ε : Type} {home : NodeId → Option NodeId} {evidenceOf : Edge → Option ε}

def Projects (home : NodeId → Option NodeId) (e : Edge) (a b : NodeId) : Prop :=
  e.category = EdgeCategory.imports ∧ home e.fromId = some a ∧ home e.toId = some b ∧ a ≠ b

structure Projected (home : NodeId → Option NodeId) (seen : List Edge)
    (imports : ModuleImports ε) : Prop where
  placed : ∀ a b i, imports.place (a, b) = some i ↔
    ∃ e, imports.edges[i]? = some e ∧ e.fromId = a ∧ e.toId = b
  category : ∀ e ∈ imports.edges, e.category = EdgeCategory.imports
  pairs : ∀ a b, (∃ e ∈ imports.edges, e.fromId = a ∧ e.toId = b) ↔
    ∃ e ∈ seen, Projects home e a b
  listed : ∀ m, m ∈ imports.modules ↔ ∃ e ∈ imports.edges, m = e.fromId ∨ m = e.toId

@[simp] theorem addModule_edges (imports : ModuleImports ε) (m : NodeId) :
    (imports.addModule m).edges = imports.edges := by
  unfold ModuleImports.addModule
  split <;> rfl

@[simp] theorem addModule_place (imports : ModuleImports ε) (m : NodeId) :
    (imports.addModule m).place = imports.place := by
  unfold ModuleImports.addModule
  split <;> rfl

@[simp] theorem mem_addModule (imports : ModuleImports ε) (m x : NodeId) :
    x ∈ (imports.addModule m).modules ↔ x ∈ imports.modules ∨ x = m := by
  unfold ModuleImports.addModule
  split
  · rename_i held
    exact ⟨.inl, fun h => h.elim id fun eq => eq ▸ held⟩
  · simp

theorem Projected.same {seen : List Edge} {imports : ModuleImports ε} {e : Edge}
    (h : Projected home seen imports)
    (old : ∀ a b, Projects home e a b → ∃ e ∈ imports.edges, e.fromId = a ∧ e.toId = b) :
    Projected home (seen ++ [e]) imports where
  placed := h.placed
  category := h.category
  pairs a b := by
    rw [h.pairs]
    simp only [List.mem_append, List.mem_singleton]
    constructor
    · rintro ⟨f, mem, is⟩
      exact ⟨f, .inl mem, is⟩
    · intro found
      obtain ⟨f, mem, is⟩ := found
      cases mem with
      | inl mem => exact ⟨f, mem, is⟩
      | inr eq => exact (h.pairs a b).mp (old a b (eq ▸ is))
  listed := h.listed

theorem Projected.push {seen : List Edge} {imports : ModuleImports ε} {e : Edge} {a b : NodeId}
    (h : Projected home seen imports) (is : Projects home e a b)
    (fresh : imports.place (a, b) = none) (new : Edge) (ends : new.fromId = a ∧ new.toId = b)
    (category : new.category = EdgeCategory.imports) (evidence : List (Option ε)) :
    Projected home (seen ++ [e])
      ⟨((imports.addModule a).addModule b).modules, imports.edges ++ [new], evidence,
        Function.update imports.place (a, b) (some imports.edges.length)⟩ where
  placed x y i := by
    dsimp only
    by_cases same : (x, y) = (a, b)
    · rw [same, Function.update_self, Option.some.injEq]
      obtain ⟨rfl, rfl⟩ := Prod.mk.inj same
      constructor
      · intro eq
        subst eq
        exact ⟨new, by simp, ends⟩
      · intro found
        obtain ⟨f, at', fx, fy⟩ := found
        by_contra other
        have early : imports.edges[i]? = some f := by
          rw [List.getElem?_append] at at'
          split at at'
          · exact at'
          · rw [List.getElem?_singleton] at at'
            split at at'
            · omega
            · cases at'
        have held := (h.placed x y i).mpr ⟨f, early, fx, fy⟩
        rw [fresh] at held
        cases held
    · rw [Function.update_of_ne same, h.placed]
      constructor
      · intro found
        obtain ⟨f, at', fx, fy⟩ := found
        exact ⟨f, (List.getElem?_append_left (List.getElem?_eq_some_iff.mp at').1).trans at', fx, fy⟩
      · intro found
        obtain ⟨f, at', fx, fy⟩ := found
        rw [List.getElem?_append] at at'
        split at at'
        · exact ⟨f, at', fx, fy⟩
        · rw [List.getElem?_singleton] at at'
          split at at'
          · cases at'
            exact absurd (by rw [← fx, ← fy, ends.1, ends.2]) same
          · cases at'
  category f mem := by
    cases List.mem_append.mp mem with
    | inl old => exact h.category f old
    | inr last => exact List.mem_singleton.mp last ▸ category
  pairs x y := by
    simp only [List.mem_append, List.mem_singleton, or_and_right, exists_or, exists_eq_left]
    rw [h.pairs]
    apply or_congr_right
    constructor
    · intro eq
      rw [← eq.1, ← eq.2, ends.1, ends.2]
      exact is
    · intro other
      have same : a = x ∧ b = y :=
        ⟨Option.some.inj (is.2.1.symm.trans other.2.1),
          Option.some.inj (is.2.2.1.symm.trans other.2.2.1)⟩
      rw [ends.1, ends.2]
      exact same
  listed m := by
    simp only [mem_addModule, List.mem_append, List.mem_singleton, or_and_right, exists_or,
      exists_eq_left, h.listed, ends.1, ends.2, or_assoc]

theorem add_projected {seen : List Edge} {imports : ModuleImports ε}
    (h : Projected home seen imports) (e : Edge) :
    Projected home (seen ++ [e]) (imports.add home evidenceOf e) := by
  unfold ModuleImports.add
  split
  · rename_i other
    exact h.same fun a b is => absurd is.1 other
  · rename_i isImport
    rw [not_not] at isImport
    split
    · rename_i a b toA toB
      split
      · rename_i known
        refine h.same fun x y is => ?_
        obtain ⟨rfl, rfl⟩ : a = x ∧ b = y :=
          ⟨Option.some.inj (toA.symm.trans is.2.1), Option.some.inj (toB.symm.trans is.2.2.1)⟩
        obtain ⟨i, held⟩ := Option.isSome_iff_exists.mp (known.resolve_left is.2.2.2)
        obtain ⟨f, at', ends⟩ := (h.placed a b i).mp held
        exact ⟨f, List.mem_of_getElem? at', ends⟩
      · rename_i new
        rw [not_or, Option.not_isSome_iff_eq_none] at new
        simp only [addModule_edges, addModule_place]
        exact h.push ⟨isImport, toA, toB, new.1⟩ new.2 _ ⟨rfl, rfl⟩ rfl _
    · rename_i outside
      exact h.same fun a b is => absurd is.2.2.1 (outside a b is.2.1)

theorem moduleImportGraph_projected (why : Why ε) (merged : MergedGraph) :
    Projected (moduleOf merged) merged.allEdges (moduleImportGraph why merged) := by
  have run : ∀ (rest seen : List Edge) (imports : ModuleImports ε),
      Projected (moduleOf merged) seen imports →
        Projected (moduleOf merged) (seen ++ rest)
          (rest.foldl (ModuleImports.add (moduleOf merged) why.evidenceOf) imports) := by
    intro rest
    induction rest with
    | nil =>
      intro seen imports h
      rwa [List.append_nil]
    | cons e rest ih =>
      intro seen imports h
      have := ih (seen ++ [e]) _ (@add_projected ε (moduleOf merged) why.evidenceOf seen imports h e)
      rwa [List.append_assoc] at this
  refine run merged.allEdges [] .empty ⟨?_, ?_, ?_, ?_⟩
  · intro a b i
    simp [ModuleImports.empty]
  · simp [ModuleImports.empty]
  · simp [ModuleImports.empty]
  · simp [ModuleImports.empty]

end Projected

end Glia.Engine
