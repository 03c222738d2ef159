import Glia.Graph.NavTree
import Glia.Graph.Roles
import Mathlib.Data.Finset.Image

/-! Folding the role overlays of a graph into the declarations that share their qname. -/
namespace Glia.Graph

variable {F : Type}

section Pairing

/-- CLASS, STRUCT, FUNCTION, INTERFACE, ENUM, METHOD, PACKAGE: the kinds an overlay folds into,
most preferred first. -/
def basePriority : List Nat := [2, 8, 3, 7, 10, 4, 6]

structure RoleFold where
  overlay : Nat
  base : Nat
  kind : Nat
  deriving DecidableEq

/-- What one call did: overlays folded by role kind, and role nodes without a declaration. -/
structure RoleFoldStats where
  folded : List Nat
  standalone : Nat
  deriving DecidableEq

namespace BuiltGraph
variable (g : BuiltGraph F)

def sharing (q : String) : List (Nat × Nat) :=
  g.nodes.zipIdx.filterMap fun p =>
    g.nav.qnameById[p.1.id]?.bind fun q' => g.nav.kindById[p.1.id]?.bind fun k =>
      if q' = q then some (p.2, k) else none

/-- The place of the declaration of a qname: of the most preferred kind, then the first. -/
def baseOf (q : String) : Option Nat :=
  ((g.sharing q).filterMap fun e =>
    (basePriority.idxOf? e.2).map fun p => (toLex (p, e.1) : Nat ×ₗ Nat)).min?.map
      fun e => (ofLex e).2

def roleKind (n : Node) : Option Nat := g.nav.kindById[n.id]?.filter fun k => roleKinds.contains k

def foldAt (p : Node × Nat) : Option RoleFold :=
  (g.roleKind p.1).bind fun kind => g.nav.qnameById[p.1.id]?.bind fun q =>
    (g.baseOf q).map fun base => ⟨p.2, base, kind⟩

def folds : List RoleFold := g.nodes.zipIdx.filterMap g.foldAt

def roleStats : RoleFoldStats where
  folded := roleKinds.map fun k => (g.folds.filter fun f => f.kind = k).length
  standalone := (g.nodes.filter fun n => (g.roleKind n).isSome).length - g.folds.length

end BuiltGraph

end Pairing

section Cells

/-- A base's cells: one ROLE cell in the place of the first, then the cells it does not carry. -/
def foldCells (cells : List Cell) (roles : List Nat) (extra : List Cell) : List Cell :=
  let cell := roleCell (roles ++ rolesIn none cells)
  let kept := cells.filter fun c => c.kind ≠ roleCellType
  let cells := match cells.findIdx? fun c => c.kind = roleCellType with
    | some i => kept.insertIdx (min i kept.length) cell
    | none => cells ++ [cell]
  extra.foldl (fun cells c => if cells.contains c then cells else cells ++ [c]) cells

namespace BuiltGraph
variable (g : BuiltGraph F)

def cellsAt (i : Nat) : List Cell := (g.nodes[i]?.map Node.cells).getD []

def idAt (i : Nat) : NodeId := (g.nodes[i]?.map Node.id).getD 0

def rolesOf (base : Nat) : List Nat :=
  (g.folds.filter fun f => f.base = base).flatMap fun f =>
    f.kind :: rolesIn none (g.cellsAt f.overlay)

def extraOf (base : Nat) : List Cell :=
  (g.folds.filter fun f => f.base = base).flatMap fun f =>
    (g.cellsAt f.overlay).filter fun c => c.kind ≠ roleCellType

def foldNode (p : Node × Nat) : Node :=
  if g.folds.any fun f => f.base = p.2 then
    { p.1 with cells := foldCells p.1.cells (g.rolesOf p.2) (g.extraOf p.2) }
  else p.1

def remap : List (NodeId × NodeId) := g.folds.map fun f => (g.idAt f.overlay, g.idAt f.base)

end BuiltGraph

end Cells

section Moves
variable (remap : List (NodeId × NodeId))

/-- The base of an overlay's id, the last paired where there are several. -/
def baseId (id : NodeId) : Option NodeId := remap.reverse.lookup id

def movedId (id : NodeId) : NodeId := (baseId remap id).getD id

def remapEdge (e : Edge) : Edge :=
  { e with fromId := movedId remap e.fromId, toId := movedId remap e.toId }

def rewritten (e : Edge) : Bool := (baseId remap e.fromId).isSome || (baseId remap e.toId).isSome

abbrev EdgeTriple := NodeId × NodeId × EdgeCategoryId

def edgeTriple (e : Edge) : EdgeTriple := (e.fromId, e.toId, e.category)

def containsCategory : EdgeCategoryId := 2

/-- Drop each rewritten edge that loops, is there already or doubles a DEFINES. -/
def keepMoved (untouched : List EdgeTriple) (defines : List (NodeId × NodeId)) :
    List EdgeTriple → List (Edge × Bool) → List Edge
  | _, [] => []
  | seen, (e, moved) :: rest =>
    if !moved then e :: keepMoved untouched defines seen rest
    else if e.fromId ≠ e.toId ∧
        ¬(e.category = containsCategory ∧ (e.fromId, e.toId) ∈ defines) ∧
        edgeTriple e ∉ untouched ∧ edgeTriple e ∉ seen then
      e :: keepMoved untouched defines (edgeTriple e :: seen) rest
    else keepMoved untouched defines seen rest

def foldEdges (edges : List Edge) : List Edge :=
  let moved := edges.map fun e => (remapEdge remap e, rewritten remap e)
  if moved.any Prod.snd then
    keepMoved ((moved.filter fun e => !e.2).map fun e => edgeTriple e.1)
      ((moved.filter fun e => e.1.category = EdgeCategory.defines).map
        fun e => (e.1.fromId, e.1.toId)) [] moved
  else moved.map Prod.fst

def remapCall (c : CallSite) : CallSite := { c with fromId := movedId remap c.fromId }

def remapRef (r : UnresolvedRef) : UnresolvedRef :=
  { r with fromId := movedId remap r.fromId, fromModule := movedId remap r.fromModule }

def adopt (oid bid : NodeId) (nav : FullNav F) (kid : NodeId) : FullNav F :=
  if kid = bid ∨ (baseId remap kid).isSome then nav
  else
    { nav with
      parentOf :=
        if nav.parentOf[kid]? = some oid then nav.parentOf.insert kid bid else nav.parentOf
      childrenOf := nav.childrenOf.insert bid
        (if (nav.kids bid).contains kid then nav.kids bid else nav.kids bid ++ [kid]) }

/-- The overlay leaves the nav, its children go to its base. -/
def foldNav (nav : FullNav F) (pair : NodeId × NodeId) : FullNav F :=
  let gone : FullNav F := { nav with
    nameById := nav.nameById.erase pair.1
    qnameById := nav.qnameById.erase pair.1
    kindById := nav.kindById.erase pair.1
    parentOf := nav.parentOf.erase pair.1
    childrenOf := nav.childrenOf.erase pair.1 }
  (nav.kids pair.1).foldl (adopt remap pair.1 pair.2) gone

def foldProperty (properties : Finset NodeId) (pair : NodeId × NodeId) : Finset NodeId :=
  if pair.1 ∈ properties then insert pair.2 (properties.erase pair.1) else properties

/-- Every overlay leaves the lists of children; a list left empty goes. -/
def dropOverlays (nav : FullNav F) : FullNav F :=
  { nav with
    childrenOf := nav.childrenOf.filterMap fun _ kids =>
      let rest := kids.filter fun k => (baseId remap k).isNone
      if rest.isEmpty && !kids.isEmpty then none else some rest }

end Moves

/-- Fold every overlay into the declaration of its qname. The calls and references the builder
holds beside the graph stand in its unresolved lists. -/
def foldRoleOverlays (g : BuiltGraph F) : BuiltGraph F × RoleFoldStats :=
  if g.folds.isEmpty then (g, g.roleStats)
  else
    ({ g with
        nodes := (g.nodes.zipIdx.map g.foldNode).filter fun n => (baseId g.remap n.id).isNone
        edges := foldEdges g.remap g.edges
        nav := dropOverlays g.remap (g.remap.foldl (foldNav g.remap) g.nav)
        unresolvedCalls := g.unresolvedCalls.map (remapCall g.remap)
        unresolvedRefs := g.unresolvedRefs.map (remapRef g.remap)
        properties := g.remap.foldl foldProperty g.properties }, g.roleStats)

end Glia.Graph
