import Glia.Graph.BodyHash
import Glia.Graph.Types
import Glia.Kit.StableSort

/-! The canonical order of a graph's edges and of what it leaves unresolved. -/
namespace Glia.Graph

open Std (TransCmp LawfulEqCmp TransOrd LawfulEqOrd)
open Glia.Kit.StableSort (sortCounting StableOrder displaced changed)

section Edges

def confidenceRank : Confidence → Nat
  | .strong => 0
  | .medium => 1
  | .weak => 2

def payloadOrderKey : CellPayload → Nat × List UInt8
  | .text s => (0, Body.asBytes s.toList)
  | .json s => (1, Body.asBytes s.toList)
  | .bytes b => (2, b)

def payloadCmp : CellPayload → CellPayload → Ordering :=
  compareLex (compareOn fun p => (payloadOrderKey p).1) (compareOn fun p => (payloadOrderKey p).2)

def cellCmp : Cell → Cell → Ordering :=
  compareLex (compareOn Cell.kind) fun a b => payloadCmp a.payload b.payload

def canonicalEdgeCmp : Edge → Edge → Ordering :=
  compareLex (compareOn Edge.fromId) <| compareLex (compareOn Edge.toId) <|
    compareLex (compareOn Edge.category) <|
    compareLex (compareOn fun e => confidenceRank e.confidence) fun a b =>
      List.compareLex cellCmp a.cells b.cells

end Edges

section Keys

structure NodeKey where
  qname : String
  kind : Nat

instance : Ord NodeKey where
  compare := compareLex (compareOn NodeKey.qname) (compareOn NodeKey.kind)

def noKind : Nat := 4294967295

/-- A node's qname and kind; none for an id the nav does not name, which sorts first. -/
def nodeKey (nav : CodeNav) (id : NodeId) : Option NodeKey :=
  nav.qnameById[id]?.map fun qname => ⟨qname, nav.kindById[id]?.getD noKind⟩

def qualifierKey : CallQualifier → Nat × String × String
  | .bare n => (0, n, "")
  | .selfMethod n => (1, n, "")
  | .superMethod n => (2, n, "")
  | .attribute base name => (3, base, name)
  | .complexReceiver receiver name => (4, receiver, name)

def qualifierCmp : CallQualifier → CallQualifier → Ordering :=
  compareLex (compareOn fun q => (qualifierKey q).1) <|
    compareLex (compareOn fun q => (qualifierKey q).2.1) (compareOn fun q => (qualifierKey q).2.2)

variable (nav : CodeNav)

def edgeCmp : Edge → Edge → Ordering :=
  compareLex (compareOn fun e => nodeKey nav e.fromId) <|
    compareLex (compareOn fun e => nodeKey nav e.toId) canonicalEdgeCmp

def callCmp : CallSite → CallSite → Ordering :=
  compareLex (compareOn fun c => nodeKey nav c.fromId) <|
    compareLex (compareOn CallSite.line) <|
    compareLex (fun a b => qualifierCmp a.qualifier b.qualifier) (compareOn CallSite.fromId)

def refCmp : UnresolvedRef → UnresolvedRef → Ordering :=
  compareLex (compareOn fun r => nodeKey nav r.fromId) <|
    compareLex (compareOn fun r => nodeKey nav r.fromModule) <|
    compareLex (compareOn UnresolvedRef.category) <|
    compareLex (compareOn UnresolvedRef.line) <|
    compareLex (fun a b => qualifierCmp a.qualifier b.qualifier) <|
    compareLex (compareOn UnresolvedRef.fromId) (compareOn UnresolvedRef.fromModule)

end Keys

structure CanonicalMoves where
  edges : Nat
  unresolved : Nat
  deriving DecidableEq

def BuiltGraph.canonicalize {F : Type} (g : BuiltGraph F) : BuiltGraph F × CanonicalMoves :=
  let edges := sortCounting (edgeCmp g.nav.toCodeNav) g.edges
  let calls := sortCounting (callCmp g.nav.toCodeNav) g.unresolvedCalls
  let refs := sortCounting (refCmp g.nav.toCodeNav) g.unresolvedRefs
  ({ g with edges := edges.1, unresolvedCalls := calls.1, unresolvedRefs := refs.1 },
    ⟨edges.2, calls.2 + refs.2⟩)

section Total

theorem lex_eq {α : Type} {c c' : α → α → Ordering} {a b : α} :
    compareLex c c' a b = .eq ↔ c a b = .eq ∧ c' a b = .eq := by
  unfold compareLex
  cases c a b <;> simp [Ordering.then]

theorem on_eq {α β : Type} [Ord β] [LawfulEqOrd β] {f : α → β} {a b : α} :
    compareOn f a b = .eq ↔ f a = f b := Std.compare_eq_iff_eq

instance : TransOrd NodeKey := inferInstanceAs (TransCmp (compareLex _ _))

instance : LawfulEqOrd NodeKey where
  eq_of_compare := by
    intro a b same
    have both := lex_eq.mp same
    rw [on_eq, on_eq] at both
    cases a
    cases b
    simp_all

theorem transCmp_field {α β : Type} (cmp : β → β → Ordering) [TransCmp cmp] (f : α → β) :
    TransCmp fun a b => cmp (f a) (f b) where
  eq_swap := Std.OrientedCmp.eq_swap
  isLE_trans := TransCmp.isLE_trans

theorem asBytes_inj {a b : String} (same : Body.asBytes a.toList = Body.asBytes b.toList) :
    a = b := by
  rw [← Body.utf8_bytes, ← Body.utf8_bytes] at same
  exact String.toByteArray_inj.mp (ByteArray.ext (Array.ext' same))

instance : TransCmp payloadCmp := inferInstanceAs (TransCmp (compareLex _ _))

instance : LawfulEqCmp payloadCmp where
  eq_of_compare := by
    intro a b same
    have both := lex_eq.mp same
    rw [on_eq, on_eq] at both
    cases a <;> cases b <;> simp_all [payloadOrderKey] <;> exact asBytes_inj both
  compare_self := lex_eq.mpr ⟨on_eq.mpr rfl, on_eq.mpr rfl⟩

instance : TransCmp cellCmp :=
  have := transCmp_field payloadCmp Cell.payload
  inferInstanceAs (TransCmp (compareLex _ _))

theorem payloadCmp_eq {a b : CellPayload} : payloadCmp a b = .eq ↔ a = b :=
  LawfulEqCmp.compare_eq_iff_eq

instance : LawfulEqCmp cellCmp where
  eq_of_compare := by
    intro a b same
    have both := lex_eq.mp same
    rw [on_eq, payloadCmp_eq] at both
    cases a
    cases b
    simp_all
  compare_self := lex_eq.mpr ⟨on_eq.mpr rfl, payloadCmp_eq.mpr rfl⟩

theorem cellsCmp_eq {a b : List Cell} : List.compareLex cellCmp a b = .eq ↔ a = b :=
  LawfulEqCmp.compare_eq_iff_eq

theorem confidenceRank_inj {a b : Confidence} (same : confidenceRank a = confidenceRank b) :
    a = b := by
  cases a <;> cases b <;> simp_all [confidenceRank]

/-- The order on edges is total, and tells any two of them apart. -/
instance : TransCmp canonicalEdgeCmp :=
  have := transCmp_field (List.compareLex cellCmp) Edge.cells
  inferInstanceAs (TransCmp (compareLex _ (compareLex _ (compareLex _ (compareLex _ _)))))

theorem canonicalEdgeCmp_eq {a b : Edge} : canonicalEdgeCmp a b = .eq ↔ a = b := by
  constructor
  · intro same
    have parts := same
    unfold canonicalEdgeCmp at parts
    rw [lex_eq, lex_eq, lex_eq, lex_eq, on_eq, on_eq, on_eq, on_eq, cellsCmp_eq] at parts
    have confidence := confidenceRank_inj parts.2.2.2.1
    cases a
    cases b
    simp_all
  · intro same
    subst same
    unfold canonicalEdgeCmp
    rw [lex_eq, lex_eq, lex_eq, lex_eq, on_eq, on_eq, on_eq, on_eq, cellsCmp_eq]
    exact ⟨rfl, rfl, rfl, rfl, rfl⟩

theorem qualifierKey_inj {a b : CallQualifier} (same : qualifierKey a = qualifierKey b) :
    a = b := by
  cases a <;> cases b <;> simp_all [qualifierKey]

theorem qualifierCmp_eq {a b : CallQualifier} : qualifierCmp a b = .eq ↔ a = b := by
  unfold qualifierCmp
  rw [lex_eq, lex_eq, on_eq, on_eq, on_eq]
  constructor
  · intro ⟨variant, first, second⟩
    exact qualifierKey_inj (Prod.ext variant (Prod.ext first second))
  · intro same
    subst same
    exact ⟨rfl, rfl, rfl⟩

instance : TransCmp qualifierCmp := inferInstanceAs (TransCmp (compareLex _ (compareLex _ _)))

variable (nav : CodeNav)

instance : TransCmp (edgeCmp nav) :=
  inferInstanceAs (TransCmp (compareLex _ (compareLex _ canonicalEdgeCmp)))

instance : LawfulEqCmp (edgeCmp nav) where
  eq_of_compare same := canonicalEdgeCmp_eq.mp (lex_eq.mp (lex_eq.mp same).2).2
  compare_self := lex_eq.mpr ⟨on_eq.mpr rfl,
    lex_eq.mpr ⟨on_eq.mpr rfl, canonicalEdgeCmp_eq.mpr rfl⟩⟩

instance : TransCmp (callCmp nav) :=
  have := transCmp_field qualifierCmp CallSite.qualifier
  inferInstanceAs (TransCmp (compareLex _ (compareLex _ (compareLex _ _))))

theorem callCmp_eq {a b : CallSite} : callCmp nav a b = .eq ↔ a = b := by
  unfold callCmp
  rw [lex_eq, lex_eq, lex_eq, on_eq, on_eq, on_eq, qualifierCmp_eq]
  constructor
  · intro ⟨_, line, qualifier, fromId⟩
    cases a
    cases b
    simp_all
  · intro same
    subst same
    exact ⟨rfl, rfl, rfl, rfl⟩

instance : LawfulEqCmp (callCmp nav) where
  eq_of_compare := (callCmp_eq nav).mp
  compare_self := (callCmp_eq nav).mpr rfl

instance : TransCmp (refCmp nav) :=
  have := transCmp_field qualifierCmp UnresolvedRef.qualifier
  inferInstanceAs (TransCmp (compareLex _ (compareLex _ (compareLex _ (compareLex _
    (compareLex _ (compareLex _ _)))))))

theorem refCmp_eq {a b : UnresolvedRef} : refCmp nav a b = .eq ↔ a = b := by
  unfold refCmp
  rw [lex_eq, lex_eq, lex_eq, lex_eq, lex_eq, lex_eq, on_eq, on_eq, on_eq, on_eq, on_eq, on_eq,
    qualifierCmp_eq]
  constructor
  · intro ⟨_, _, category, line, qualifier, fromId, fromModule⟩
    cases a
    cases b
    simp_all
  · intro same
    subst same
    exact ⟨rfl, rfl, rfl, rfl, rfl, rfl, rfl⟩

instance : LawfulEqCmp (refCmp nav) where
  eq_of_compare := (refCmp_eq nav).mp
  compare_self := (refCmp_eq nav).mpr rfl

end Total

section Canonicalize
variable {F : Type}

structure BuiltGraph.Reordered (g g' : BuiltGraph F) : Prop where
  edges : g.edges.Perm g'.edges
  calls : g.unresolvedCalls.Perm g'.unresolvedCalls
  refs : g.unresolvedRefs.Perm g'.unresolvedRefs
  repo : g.repo = g'.repo
  nodes : g.nodes = g'.nodes
  nav : g.nav = g'.nav
  properties : g.properties = g'.properties

/-- One list's count: of the entries at another index in a stable order, which with no entry
twice are the positions that hold another entry. -/
structure Counted {α : Type} [DecidableEq α] (cmp : α → α → Ordering) (v out : List α)
    (moved : Nat) : Prop where
  order : ∃ order, StableOrder cmp v order ∧ out = order.map Prod.fst ∧ moved = displaced order
  positions : v.Nodup → moved = changed v out

theorem counted_sort {α : Type} [DecidableEq α] (cmp : α → α → Ordering) [TransCmp cmp]
    (v : List α) : Counted cmp v (sortCounting cmp v).1 (sortCounting cmp v).2 where
  order := Kit.StableSort.sortCounting_spec v
  positions := by
    intro once
    obtain ⟨order, stable, eq, count⟩ := @Kit.StableSort.sortCounting_spec _ cmp _ v
    rw [count, eq]
    exact Kit.StableSort.displaced_eq_changed stable.perm once

structure Canonicalized (g out : BuiltGraph F) (moves : CanonicalMoves) : Prop where
  reordered : g.Reordered out
  edges : Counted (edgeCmp g.nav.toCodeNav) g.edges out.edges moves.edges
  unresolved : ∃ calls refs, moves.unresolved = calls + refs ∧
    Counted (callCmp g.nav.toCodeNav) g.unresolvedCalls out.unresolvedCalls calls ∧
    Counted (refCmp g.nav.toCodeNav) g.unresolvedRefs out.unresolvedRefs refs
  again : out.canonicalize = (out, ⟨0, 0⟩)

theorem canonicalize_reordered (g : BuiltGraph F) :
    g.Reordered g.canonicalize.1 where
  edges := (Kit.StableSort.sortCounting_perm _).symm
  calls := (Kit.StableSort.sortCounting_perm _).symm
  refs := (Kit.StableSort.sortCounting_perm _).symm
  repo := rfl
  nodes := rfl
  nav := rfl
  properties := rfl

theorem canonicalize_congr {g g' : BuiltGraph F} (same : g.Reordered g') :
    g.canonicalize.1 = g'.canonicalize.1 := by
  have edges := @Kit.StableSort.sortCounting_congr _ (edgeCmp g.nav.toCodeNav) _ _ _ _ same.edges
  have calls := @Kit.StableSort.sortCounting_congr _ (callCmp g.nav.toCodeNav) _ _ _ _ same.calls
  have refs := @Kit.StableSort.sortCounting_congr _ (refCmp g.nav.toCodeNav) _ _ _ _ same.refs
  unfold BuiltGraph.canonicalize
  dsimp only
  rw [edges, calls, refs, same.repo, same.nodes, same.nav, same.properties]

theorem canonicalize_again (g : BuiltGraph F) :
    g.canonicalize.1.canonicalize = (g.canonicalize.1, ⟨0, 0⟩) := by
  have edges := @Kit.StableSort.sortCounting_again _ (edgeCmp g.nav.toCodeNav) _ g.edges
  have calls := @Kit.StableSort.sortCounting_again _ (callCmp g.nav.toCodeNav) _
    g.unresolvedCalls
  have refs := @Kit.StableSort.sortCounting_again _ (refCmp g.nav.toCodeNav) _
    g.unresolvedRefs
  unfold BuiltGraph.canonicalize
  dsimp only
  rw [edges, calls, refs]
  rfl

/-- The canonical order of edges is total and tells any two apart, and the canonical graph is one
whatever the order its lists come in. -/
theorem canonical_order_unique (g : BuiltGraph F) :
    TransCmp canonicalEdgeCmp ∧ (∀ a b, canonicalEdgeCmp a b = .eq ↔ a = b) ∧
      Canonicalized g g.canonicalize.1 g.canonicalize.2 ∧
      ∀ g', g.Reordered g' → g'.canonicalize.1 = g.canonicalize.1 := by
  refine ⟨inferInstance, fun _ _ => canonicalEdgeCmp_eq,
    ⟨canonicalize_reordered g, counted_sort _ _, ?_, canonicalize_again g⟩, fun g' same => ?_⟩
  · exact ⟨_, _, rfl, counted_sort _ _, counted_sort _ _⟩
  · exact (canonicalize_congr same).symm

def parallelEdges : BuiltGraph Unit where
  repo := 1
  edges := [⟨2, 3, 1, .strong, []⟩, ⟨2, 3, 1, .strong, []⟩, ⟨1, 3, 1, .strong, []⟩]

/-- All three are counted moved, though the middle position holds an equal edge as before. -/
theorem parallelEdges_moved : parallelEdges.canonicalize.2.edges = 3 ∧
    changed parallelEdges.edges parallelEdges.canonicalize.1.edges = 2 := by
  decide +kernel

end Canonicalize

end Glia.Graph
