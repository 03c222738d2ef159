import Glia.Graph.RoleNav

/-! The role fold against what it is for: the overlays leave, and the declarations get all that
was theirs. -/
namespace Glia.Graph

open Relation Glia.Kit Glia.Kit.Reroute

variable {F : Type}

section Purpose

/-- The two tree maps say the same and have no cycle. -/
structure FullNav.Forest (nav : FullNav F) : Prop where
  dual : ∀ k p, nav.Up k p ↔ k ∈ nav.kids p
  acyclic : Acyclic nav.Up

inductive BuiltGraph.Mentions (g : BuiltGraph F) (id : NodeId) : Prop where
  | node (n : Node) (h : n ∈ g.nodes) (eq : n.id = id)
  | edge (e : Edge) (h : e ∈ g.edges) (eq : e.fromId = id ∨ e.toId = id)
  | call (c : CallSite) (h : c ∈ g.unresolvedCalls) (eq : c.fromId = id)
  | ref (r : UnresolvedRef) (h : r ∈ g.unresolvedRefs) (eq : r.fromId = id ∨ r.fromModule = id)
  | property (h : id ∈ g.properties)
  | nav (h : g.nav.Mentions id)

namespace BuiltGraph
variable (g : BuiltGraph F)

def Declared (q : String) (i rank : Nat) : Prop := ∃ n k, g.nodes[i]? = some n ∧
  g.nav.qnameById[n.id]? = some q ∧ g.nav.kindById[n.id]? = some k ∧
  basePriority.idxOf? k = some rank

/-- The declaration of a qname that its overlays fold into: of the least rank, then the first. -/
def IsBase (q : String) (i : Nat) : Prop := ∃ rank, g.Declared q i rank ∧
  ∀ i' rank', g.Declared q i' rank' → rank < rank' ∨ rank = rank' ∧ i ≤ i'

def OverlayOf (o b : Nat) : Prop := ∃ n q k, g.nodes[o]? = some n ∧
  g.nav.kindById[n.id]? = some k ∧ k ∈ roleKinds ∧ g.nav.qnameById[n.id]? = some q ∧ g.IsBase q b

def Folds (id base : NodeId) : Prop := ∃ o b, g.OverlayOf o b ∧ g.idAt o = id ∧ g.idAt b = base

def Folded (id : NodeId) : Prop := ∃ base, g.Folds id base

/-- The step up with each overlay read as its base. -/
def Rerouted (k p : NodeId) : Prop := ¬g.Folded k ∧
  ∃ q, g.nav.Up k q ∧ (g.Folds q p ∨ ¬g.Folded q ∧ p = q)

structure FoldedNode (out : BuiltGraph F) (p : Node × Nat) (n : Node) : Prop where
  rest : { n with cells := p.1.cells } = p.1
  same : (∀ o, ¬g.OverlayOf o p.2) → n = p.1
  roles : ∀ k, k ∈ rolesIn out.nav.kindById[n.id]? n.cells ↔
    k ∈ rolesIn g.nav.kindById[p.1.id]? p.1.cells ∨ ∃ o m, g.OverlayOf o p.2 ∧
      g.nodes[o]? = some m ∧ k ∈ rolesIn g.nav.kindById[m.id]? m.cells
  cells : ∀ c : Cell, c.kind ≠ roleCellType → (c ∈ n.cells ↔
    c ∈ p.1.cells ∨ ∃ o m, g.OverlayOf o p.2 ∧ g.nodes[o]? = some m ∧ c ∈ m.cells)

/-- `out` is `g` with every overlay folded: no trace left, nothing lost. -/
structure RoleFolded (out : BuiltGraph F) : Prop where
  gone : ∀ id, g.Folded id → ¬out.Mentions id
  nodes : List.Forall₂ (g.FoldedNode out)
    (g.nodes.zipIdx.filter fun p => (baseId g.remap p.1.id).isNone) out.nodes
  edges : out.edges = ((movedEdges g.remap g.edges).zipIdx.filter
    (stays (movedEdges g.remap g.edges))).map fun p => p.1.1
  untouched : (g.edges.filter fun e => !rewritten g.remap e).Sublist out.edges
  calls : out.unresolvedCalls = g.unresolvedCalls.map (remapCall g.remap)
  refs : out.unresolvedRefs = g.unresolvedRefs.map (remapRef g.remap)
  properties : out.properties = g.properties.image (movedId g.remap)
  records : FoldedRecords (fun id => (baseId g.remap id).isSome) g.nav out.nav
  parents : ∀ k p, out.nav.Up k p ↔ g.Rerouted k p
  once : (∀ p, (g.nav.kids p).Nodup) → ∀ p, (out.nav.kids p).Nodup
  tree : out.nav.Forest

end BuiltGraph

end Purpose

section Pairs
namespace BuiltGraph
variable {g : BuiltGraph F}

theorem mem_ranked {q : String} {i rank : Nat} :
    (toLex (rank, i) : Nat ×ₗ Nat) ∈ (g.sharing q).filterMap (fun e =>
      (basePriority.idxOf? e.2).map fun p => (toLex (p, e.1) : Nat ×ₗ Nat)) ↔
      g.Declared q i rank := by
  rw [List.mem_filterMap]
  constructor
  · rintro ⟨⟨j, k⟩, shared, eq⟩
    obtain ⟨r, place, same⟩ := Option.map_eq_some_iff.mp eq
    cases toLex.injective same
    obtain ⟨n, at_, named, kinded⟩ := mem_sharing.mp shared
    exact ⟨n, k, at_, named, kinded, place⟩
  · rintro ⟨n, k, at_, named, kinded, place⟩
    exact ⟨(i, k), mem_sharing.mpr ⟨n, at_, named, kinded⟩, by rw [place]; rfl⟩

theorem baseOf_iff {q : String} {i : Nat} : g.baseOf q = some i ↔ g.IsBase q i := by
  rw [baseOf, Option.map_eq_some_iff]
  constructor
  · rintro ⟨e, least, rfl⟩
    obtain ⟨mem, low⟩ := List.min?_eq_some_iff.mp least
    refine ⟨(ofLex e).1, mem_ranked.mp mem, fun i' rank' declared => ?_⟩
    exact Prod.Lex.le_iff.mp (low _ (mem_ranked.mpr declared))
  · rintro ⟨rank, declared, low⟩
    refine ⟨toLex (rank, i), List.min?_eq_some_iff.mpr ⟨mem_ranked.mpr declared, ?_⟩, rfl⟩
    intro e mem
    exact Prod.Lex.le_iff.mpr (low (ofLex e).2 (ofLex e).1 (mem_ranked.mp mem))

theorem overlayOf_iff {o b : Nat} :
    g.OverlayOf o b ↔ ∃ f ∈ g.folds, f.overlay = o ∧ f.base = b := by
  constructor
  · rintro ⟨n, q, k, at_, kinded, role, named, base⟩
    exact ⟨⟨o, b, k⟩, mem_folds.mpr ⟨n, q, at_, kinded, role, named, baseOf_iff.mpr base⟩, rfl, rfl⟩
  · rintro ⟨f, mem, rfl, rfl⟩
    obtain ⟨n, q, at_, kinded, role, named, base⟩ := mem_folds.mp mem
    exact ⟨n, q, f.kind, at_, kinded, role, named, baseOf_iff.mp base⟩

theorem folds_iff {id base : NodeId} : g.Folds id base ↔ baseId g.remap id = some base := by
  constructor
  · rintro ⟨o, b, overlay, rfl, rfl⟩
    obtain ⟨f, mem, rfl, rfl⟩ := overlayOf_iff.mp overlay
    exact replaces.base _ (mem_remap.mpr ⟨f, mem, rfl⟩)
  · intro found
    obtain ⟨f, mem, eq⟩ := mem_remap.mp (baseId_mem found)
    exact ⟨f.overlay, f.base, overlayOf_iff.mpr ⟨f, mem, rfl, rfl⟩, congrArg Prod.fst eq,
      congrArg Prod.snd eq⟩

theorem folded_iff {id : NodeId} : g.Folded id ↔ (baseId g.remap id).isSome := by
  rw [Option.isSome_iff_exists]
  exact exists_congr fun base => folds_iff

theorem not_folded_iff {id : NodeId} : ¬g.Folded id ↔ baseId g.remap id = none := by
  rw [folded_iff, Option.not_isSome_iff_eq_none]

theorem rerouted_iff {k p : NodeId} : g.Rerouted k p ↔
    baseId g.remap k = none ∧ ∃ q, g.nav.Up k q ∧ p = movedId g.remap q := by
  rw [Rerouted, not_folded_iff]
  refine and_congr_right fun _ => exists_congr fun q => and_congr_right fun _ => ?_
  rw [folds_iff, not_folded_iff]
  cases found : baseId g.remap q with
  | none => simp [movedId_none found]
  | some b => simp [movedId_some found, eq_comm]

end BuiltGraph

end Pairs

section Cells

theorem addCells_mem {cells extra : List Cell} {c : Cell} :
    c ∈ extra.foldl (fun cells c => if cells.contains c then cells else cells ++ [c]) cells ↔
      c ∈ cells ∨ c ∈ extra := by
  induction extra generalizing cells with
  | nil => simp
  | cons d extra ih =>
    rw [List.foldl_cons, ih, List.mem_cons]
    split
    · rename_i listed
      have held := List.contains_iff_mem.mp listed
      grind
    · rw [List.mem_append, List.mem_singleton, or_assoc]

theorem foldCells_mem {cells extra : List Cell} {roles : List Nat} {c : Cell} :
    c ∈ foldCells cells roles extra ↔ c = roleCell (roles ++ rolesIn none cells) ∨
      (c ∈ cells ∧ c.kind ≠ roleCellType) ∨ c ∈ extra := by
  unfold foldCells
  dsimp only
  rw [addCells_mem, ← or_assoc]
  refine or_congr_left ?_
  have kept : c ∈ cells.filter (fun c => c.kind ≠ roleCellType) ↔
      c ∈ cells ∧ c.kind ≠ roleCellType := by rw [List.mem_filter, decide_eq_true_iff]
  split
  · rw [List.mem_insertIdx (Nat.min_le_right _ _), kept]
  · rename_i none
    have plain : ∀ d ∈ cells, d.kind ≠ roleCellType := by simpa using none
    rw [List.mem_append, List.mem_singleton, or_comm]
    exact or_congr_right ⟨fun mem => ⟨mem, plain c mem⟩, And.left⟩

theorem cellRoles_other {c : Cell} (other : c.kind ≠ roleCellType) : cellRoles c = [] := by
  rw [cellRoles, if_neg other]

/-- The roles read back: the node's own and those given. -/
theorem rolesIn_foldCells {kind : Option Nat} {cells extra : List Cell} {roles : List Nat}
    (known : ∀ k ∈ roles, Known k) (plain : ∀ c ∈ extra, c.kind ≠ roleCellType) {k : Nat} :
    k ∈ rolesIn kind (foldCells cells roles extra) ↔ k ∈ rolesIn kind cells ∨ k ∈ roles := by
  have written : ∀ k ∈ roles ++ rolesIn none cells, Known k := by
    intro k mem
    rcases List.mem_append.mp mem with given | own
    · exact known k given
    · exact rolesIn_known own
  have own : k ∈ rolesIn none cells ↔ ∃ c ∈ cells, k ∈ cellRoles c := by
    rw [mem_rolesIn]
    simp
  have listed : (∃ c ∈ foldCells cells roles extra, k ∈ cellRoles c) ↔
      k ∈ roles ∨ ∃ c ∈ cells, k ∈ cellRoles c := by
    rw [← own, ← List.mem_append, ← mem_sortedKinds, ← cellRoles_roleCell written]
    constructor
    · rintro ⟨c, mem, lists⟩
      rcases foldCells_mem.mp mem with rfl | ⟨_, other⟩ | given
      · exact lists
      · rw [cellRoles_other other] at lists
        cases lists
      · rw [cellRoles_other (plain c given)] at lists
        cases lists
    · exact fun lists => ⟨_, foldCells_mem.mpr (.inl rfl), lists⟩
  rw [mem_rolesIn, mem_rolesIn, listed]
  exact (or_congr_right or_comm).trans or_assoc.symm

namespace BuiltGraph
variable {g : BuiltGraph F}

theorem cellsAt_some {i : Nat} {n : Node} (at_ : g.nodes[i]? = some n) : g.cellsAt i = n.cells := by
  rw [cellsAt, at_, Option.map_some, Option.getD_some]

theorem rolesOf_mem {b k : Nat} : k ∈ g.rolesOf b ↔ ∃ o m, g.OverlayOf o b ∧
    g.nodes[o]? = some m ∧ k ∈ rolesIn g.nav.kindById[m.id]? m.cells := by
  rw [rolesOf, List.mem_flatMap]
  constructor
  · rintro ⟨f, mem, role⟩
    obtain ⟨folded, base⟩ := List.mem_filter.mp mem
    obtain ⟨m, q, at_, kinded, known, _, _⟩ := mem_folds.mp folded
    refine ⟨f.overlay, m, overlayOf_iff.mpr ⟨f, folded, rfl, of_decide_eq_true base⟩, at_, ?_⟩
    rw [cellsAt_some at_] at role
    rw [mem_rolesIn, kinded]
    rcases List.mem_cons.mp role with rfl | listed
    · exact .inl ⟨rfl, known⟩
    · rcases mem_rolesIn.mp listed with ⟨none, _⟩ | cell
      · cases none
      · exact .inr cell
  · rintro ⟨o, m, overlay, at_, role⟩
    obtain ⟨f, folded, rfl, rfl⟩ := overlayOf_iff.mp overlay
    obtain ⟨m', q, at', kinded, known, _, _⟩ := mem_folds.mp folded
    cases at_.symm.trans at'
    refine ⟨f, List.mem_filter.mpr ⟨folded, decide_eq_true rfl⟩, ?_⟩
    rw [cellsAt_some at_, List.mem_cons]
    rcases mem_rolesIn.mp role with ⟨own, _⟩ | cell
    · exact .inl (Option.some.inj (own.symm.trans kinded))
    · exact .inr (mem_rolesIn.mpr (.inr cell))

theorem rolesOf_known {b : Nat} : ∀ k ∈ g.rolesOf b, Known k := by
  intro k mem
  obtain ⟨o, m, _, _, role⟩ := rolesOf_mem.mp mem
  exact rolesIn_known role

theorem extraOf_mem {b : Nat} {c : Cell} : c ∈ g.extraOf b ↔ c.kind ≠ roleCellType ∧
    ∃ o m, g.OverlayOf o b ∧ g.nodes[o]? = some m ∧ c ∈ m.cells := by
  rw [extraOf, List.mem_flatMap]
  constructor
  · rintro ⟨f, mem, held⟩
    obtain ⟨folded, base⟩ := List.mem_filter.mp mem
    obtain ⟨m, q, at_, _⟩ := mem_folds.mp folded
    rw [cellsAt_some at_, List.mem_filter] at held
    exact ⟨of_decide_eq_true held.2, f.overlay, m,
      overlayOf_iff.mpr ⟨f, folded, rfl, of_decide_eq_true base⟩, at_, held.1⟩
  · rintro ⟨other, o, m, overlay, at_, held⟩
    obtain ⟨f, folded, rfl, rfl⟩ := overlayOf_iff.mp overlay
    refine ⟨f, List.mem_filter.mpr ⟨folded, decide_eq_true rfl⟩, ?_⟩
    rw [cellsAt_some at_]
    exact List.mem_filter.mpr ⟨held, decide_eq_true other⟩

theorem foldNode_rest (p : Node × Nat) : { g.foldNode p with cells := p.1.cells } = p.1 := by
  rw [foldNode]
  split <;> rfl

theorem foldNode_id (p : Node × Nat) : (g.foldNode p).id = p.1.id := by
  rw [foldNode]
  split <;> rfl

theorem isBase_iff {i : Nat} : (g.folds.any fun f => f.base = i) = true ↔ ∃ o, g.OverlayOf o i := by
  rw [List.any_eq_true]
  constructor
  · rintro ⟨f, mem, base⟩
    exact ⟨f.overlay, overlayOf_iff.mpr ⟨f, mem, rfl, of_decide_eq_true base⟩⟩
  · rintro ⟨o, overlay⟩
    obtain ⟨f, mem, _, rfl⟩ := overlayOf_iff.mp overlay
    exact ⟨f, mem, decide_eq_true rfl⟩

theorem foldNode_base {p : Node × Nat} {o : Nat} (overlay : g.OverlayOf o p.2) : g.foldNode p =
    { p.1 with cells := foldCells p.1.cells (g.rolesOf p.2) (g.extraOf p.2) } := by
  rw [foldNode, if_pos (isBase_iff.mpr ⟨o, overlay⟩)]

theorem foldNode_same {p : Node × Nat} (alone : ∀ o, ¬g.OverlayOf o p.2) : g.foldNode p = p.1 := by
  rw [foldNode, if_neg]
  intro any
  obtain ⟨o, overlay⟩ := isBase_iff.mp any
  exact alone o overlay

theorem foldNode_cells (p : Node × Nat) {c : Cell} (other : c.kind ≠ roleCellType) :
    c ∈ (g.foldNode p).cells ↔ c ∈ p.1.cells ∨
      ∃ o m, g.OverlayOf o p.2 ∧ g.nodes[o]? = some m ∧ c ∈ m.cells := by
  by_cases alone : ∀ o, ¬g.OverlayOf o p.2
  · rw [foldNode_same alone]
    exact (or_iff_left fun ⟨o, m, overlay, _⟩ => alone o overlay).symm
  · obtain ⟨o, overlay⟩ := not_forall_not.mp alone
    rw [foldNode_base overlay, foldCells_mem, extraOf_mem]
    have unwritten : c ≠ roleCell (g.rolesOf p.2 ++ rolesIn none p.1.cells) :=
      fun eq => other (eq ▸ rfl)
    simp [unwritten, other]

theorem foldNode_roles (p : Node × Nat) {kind : Option Nat} {k : Nat} :
    k ∈ rolesIn kind (g.foldNode p).cells ↔ k ∈ rolesIn kind p.1.cells ∨ ∃ o m,
      g.OverlayOf o p.2 ∧ g.nodes[o]? = some m ∧ k ∈ rolesIn g.nav.kindById[m.id]? m.cells := by
  by_cases alone : ∀ o, ¬g.OverlayOf o p.2
  · rw [foldNode_same alone]
    exact (or_iff_left fun ⟨o, m, overlay, _⟩ => alone o overlay).symm
  · obtain ⟨o, overlay⟩ := not_forall_not.mp alone
    rw [foldNode_base overlay, ← rolesOf_mem]
    exact rolesIn_foldCells rolesOf_known fun c mem => (extraOf_mem.mp mem).1

end BuiltGraph

end Cells

section Graph
variable {g : BuiltGraph F}

def foldedGraph (g : BuiltGraph F) : BuiltGraph F := { g with
  nodes := (g.nodes.zipIdx.map g.foldNode).filter fun n => (baseId g.remap n.id).isNone
  edges := foldEdges g.remap g.edges
  nav := foldedNav g.remap g.nav
  unresolvedCalls := g.unresolvedCalls.map (remapCall g.remap)
  unresolvedRefs := g.unresolvedRefs.map (remapRef g.remap)
  properties := g.remap.foldl foldProperty g.properties }

theorem dropOverlays_nil (nav : FullNav F) : dropOverlays [] nav = nav := by
  have same : (nav.childrenOf.filterMap fun _ kids =>
      let rest := kids.filter fun k => (baseId [] k).isNone
      if rest.isEmpty && !kids.isEmpty then none else some rest) = nav.childrenOf := by
    refine OrdMap.ext_get fun q => ?_
    rw [Std.ExtTreeMap.getElem?_filterMap']
    cases nav.childrenOf[q]? with
    | none => rfl
    | some kids =>
      have all : kids.filter (fun k => (baseId [] k).isNone) = kids :=
        List.filter_eq_self.mpr fun k _ => rfl
      dsimp only
      rw [Option.bind_some, all]
      cases kids <;> rfl
  rw [dropOverlays, same]

theorem foldEdges_nil (edges : List Edge) : foldEdges [] edges = edges := by
  unfold foldEdges
  dsimp only
  rw [if_neg, List.map_map]
  · exact List.map_id edges
  · rw [List.any_map, List.any_eq_true]
    rintro ⟨e, _, moved⟩
    cases moved

theorem foldRoleOverlays_graph (g : BuiltGraph F) : (foldRoleOverlays g).1 = foldedGraph g := by
  unfold foldRoleOverlays
  split
  · rename_i none
    have empty : g.folds = [] := List.isEmpty_iff.mp none
    have remap : g.remap = [] := by rw [BuiltGraph.remap, empty, List.map_nil]
    have nodes : (g.nodes.zipIdx.map g.foldNode).filter (fun n => (baseId [] n.id).isNone) =
        g.nodes := by
      have each : g.foldNode = Prod.fst := by
        funext p
        rw [BuiltGraph.foldNode, empty, List.any_nil, if_neg Bool.false_ne_true]
      rw [each, List.zipIdx_map_fst]
      exact List.filter_eq_self.mpr fun n _ => rfl
    have calls : g.unresolvedCalls.map (remapCall []) = g.unresolvedCalls := List.map_id _
    have refs : g.unresolvedRefs.map (remapRef []) = g.unresolvedRefs := List.map_id _
    rw [foldedGraph, remap, nodes, foldEdges_nil, foldedNav, List.foldl_nil, dropOverlays_nil,
      calls, refs, List.foldl_nil]
  · rfl

end Graph

section Exact
variable {g : BuiltGraph F}

theorem up_rerouted (tree : g.nav.Forest) (clear : ∀ k q, g.nav.Up k q → ¬g.Folds q k) (k p : NodeId) :
    (foldedGraph g).nav.Up k p ↔ g.Rerouted k p := by
  rw [BuiltGraph.rerouted_iff, foldedGraph, foldedNav_up BuiltGraph.replaces tree.dual]
  refine and_congr_right fun _ => exists_congr fun q => and_congr_right fun up => ?_
  rw [if_neg fun own => clear k q up (BuiltGraph.folds_iff.mpr own)]

theorem kids_rerouted (tree : g.nav.Forest) (clear : ∀ k q, g.nav.Up k q → ¬g.Folds q k)
    (k p : NodeId) : k ∈ (foldedGraph g).nav.kids p ↔ g.Rerouted k p := by
  rw [BuiltGraph.rerouted_iff, foldedGraph, foldedNav_kids_iff BuiltGraph.replaces tree.dual]
  refine and_congr_right fun _ => exists_congr fun q => and_congr_right fun up => ?_
  exact and_iff_right fun own => clear k q up (BuiltGraph.folds_iff.mpr own)

theorem clear_of_acyclic (acyclic : Acyclic g.Rerouted) (k q : NodeId) (up : g.nav.Up k q) :
    ¬g.Folds q k := by
  intro own
  have stands := BuiltGraph.replaces.free_of (BuiltGraph.folds_iff.mp own)
  exact acyclic k (.single ⟨BuiltGraph.not_folded_iff.mpr stands, q, up, .inl own⟩)

theorem moved_unfolded {id x : NodeId} (folded : g.Folded id) : movedId g.remap x ≠ id := by
  rintro rfl
  exact BuiltGraph.not_folded_iff.mpr (BuiltGraph.replaces.movedId_stands x) folded

theorem nav_gone (tree : g.nav.Forest) (clear : ∀ k q, g.nav.Up k q → ¬g.Folds q k)
    (records : ∀ id, g.Folded id → ¬g.nav.Records id) {id : NodeId} (folded : g.Folded id) :
    ¬(foldedGraph g).nav.Mentions id := by
  have some := BuiltGraph.folded_iff.mp folded
  have kept := @foldedNav_records F g.remap g.nav
  intro mentions
  cases mentions with
  | name h =>
    rw [show (foldedGraph g).nav.nameById[id]? = _ from kept.name id, if_pos some] at h
    cases h
  | qname h =>
    rw [show (foldedGraph g).nav.qnameById[id]? = _ from kept.qname id, if_pos some] at h
    cases h
  | kind h =>
    rw [show (foldedGraph g).nav.kindById[id]? = _ from kept.kind id, if_pos some] at h
    cases h
  | child h =>
    obtain ⟨p, up⟩ := Option.isSome_iff_exists.mp h
    exact ((up_rerouted tree clear id p).mp up).1 folded
  | parent k up =>
    obtain ⟨_, q, _, eq⟩ := BuiltGraph.rerouted_iff.mp ((up_rerouted tree clear k id).mp up)
    exact moved_unfolded folded eq.symm
  | list h =>
    rw [show (foldedGraph g).nav.childrenOf[id]? = none from
      foldedNav_unlisted BuiltGraph.replaces tree.dual some] at h
    cases h
  | listed p mem => exact ((kids_rerouted tree clear id p).mp mem).1 folded
  | record h =>
    refine records id folded ?_
    rw [FullNav.Records, ← kept.fieldTypes, ← kept.localTypes, ← kept.navFacts,
      ← kept.returnTypes, ← kept.methodSigs]
    exact h

theorem graph_gone (tree : g.nav.Forest) (clear : ∀ k q, g.nav.Up k q → ¬g.Folds q k)
    (records : ∀ id, g.Folded id → ¬g.nav.Records id) {id : NodeId} (folded : g.Folded id) :
    ¬(foldedGraph g).Mentions id := by
  intro mentions
  cases mentions with
  | node n mem eq =>
    have stands := (List.mem_filter.mp mem).2
    rw [eq, Option.isNone_iff_eq_none] at stands
    exact BuiltGraph.not_folded_iff.mpr stands folded
  | edge e mem eq =>
    obtain ⟨old, _, rfl⟩ := foldEdges_mem mem
    exact eq.elim (moved_unfolded folded) (moved_unfolded folded)
  | call c mem eq =>
    obtain ⟨old, _, rfl⟩ := List.mem_map.mp mem
    exact moved_unfolded folded eq
  | ref r mem eq =>
    obtain ⟨old, _, rfl⟩ := List.mem_map.mp mem
    exact eq.elim (moved_unfolded folded) (moved_unfolded folded)
  | property mem =>
    rw [show (foldedGraph g).properties = _ from foldProperties_eq BuiltGraph.replaces _] at mem
    obtain ⟨old, _, eq⟩ := Finset.mem_image.mp mem
    exact moved_unfolded folded eq
  | nav h => exact nav_gone tree clear records folded h

theorem forall₂_map_right {α β : Type} {R : α → β → Prop} {f : α → β} {l : List α}
    (each : ∀ a ∈ l, R a (f a)) : List.Forall₂ R l (l.map f) := by
  rw [List.forall₂_map_right_iff]
  exact List.forall₂_same.mpr each

theorem nodes_folded : List.Forall₂ (g.FoldedNode (foldedGraph g))
    (g.nodes.zipIdx.filter fun p => (baseId g.remap p.1.id).isNone) (foldedGraph g).nodes := by
  have nodes : (foldedGraph g).nodes =
      (g.nodes.zipIdx.filter fun p => (baseId g.remap p.1.id).isNone).map g.foldNode := by
    rw [foldedGraph]
    dsimp only
    rw [List.filter_map]
    congr 2
    funext p
    exact congrArg (fun id => (baseId g.remap id).isNone) (BuiltGraph.foldNode_id p)
  rw [nodes]
  refine forall₂_map_right fun p mem => ?_
  have stands := Option.isNone_iff_eq_none.mp (List.mem_filter.mp mem).2
  have kind : (foldedGraph g).nav.kindById[(g.foldNode p).id]? = g.nav.kindById[p.1.id]? := by
    rw [BuiltGraph.foldNode_id]
    exact (foldedNav_records.kind p.1.id).trans (if_neg (by rw [stands]; exact Bool.false_ne_true))
  refine ⟨BuiltGraph.foldNode_rest p, BuiltGraph.foldNode_same, fun k => ?_,
    fun c other => BuiltGraph.foldNode_cells p other⟩
  rw [kind]
  exact BuiltGraph.foldNode_roles p

/-- The fold leaves no trace and loses nothing exactly where no build-time record is kept under an
overlay's id and the tree has no cycle once each overlay is read as its base. -/
theorem foldRoleOverlays_exact (g : BuiltGraph F) (tree : g.nav.Forest) :
    g.RoleFolded (foldRoleOverlays g).1 ↔
      (∀ id, g.Folded id → ¬g.nav.Records id) ∧ Acyclic g.Rerouted := by
  rw [foldRoleOverlays_graph]
  constructor
  · intro folded
    refine ⟨fun id gone record => folded.gone id gone (.nav (.record ?_)), ?_⟩
    · have kept := @foldedNav_records F g.remap g.nav
      rw [FullNav.Records, ← kept.fieldTypes, ← kept.localTypes, ← kept.navFacts,
        ← kept.returnTypes, ← kept.methodSigs] at record
      exact record
    · have same : (foldedGraph g).nav.Up = g.Rerouted := by
        funext k p
        exact propext (folded.parents k p)
      rw [← same]
      exact folded.tree.acyclic
  · rintro ⟨records, acyclic⟩
    have clear := clear_of_acyclic acyclic
    have same : (foldedGraph g).nav.Up = g.Rerouted := by
      funext k p
      exact propext (up_rerouted tree clear k p)
    exact {
      gone := fun id folded => graph_gone tree clear records folded
      nodes := nodes_folded
      edges := foldEdges_eq g.edges
      untouched := foldEdges_untouched g.edges
      calls := rfl
      refs := rfl
      properties := foldProperties_eq BuiltGraph.replaces g.properties
      records := foldedNav_records
      parents := up_rerouted tree clear
      once := fun once => foldedNav_nodup BuiltGraph.replaces once
      tree := ⟨fun k p => (up_rerouted tree clear k p).trans (kids_rerouted tree clear k p).symm,
        same ▸ acyclic⟩ }

end Exact

section Samples

theorem single_up {nav : FullNav F} {k p : NodeId}
    (parent : nav.parentOf = (∅ : IdMap NodeId).insert k p) (x q : NodeId) :
    nav.Up x q ↔ x = k ∧ q = p := by
  rw [FullNav.Up, parent, OrdMap.get_insert, Std.ExtTreeMap.getElem?_empty]
  split
  · rename_i same
    rw [Option.some_inj]
    exact ⟨fun eq => ⟨same.symm, eq.symm⟩, fun both => both.2.symm⟩
  · rename_i other
    refine iff_of_false (fun up => ?_) fun both => other both.1.symm
    cases up

theorem single_tree {nav : FullNav F} {k p : NodeId} (ne : k ≠ p)
    (parent : nav.parentOf = (∅ : IdMap NodeId).insert k p)
    (list : nav.childrenOf = (∅ : IdMap (List NodeId)).insert p [k]) : nav.Forest where
  dual x q := by
    rw [single_up parent, FullNav.kids, list, OrdMap.get_insert, Std.ExtTreeMap.getElem?_empty]
    split
    · rename_i same
      rw [Option.getD_some, List.mem_singleton]
      exact and_iff_left same.symm
    · rename_i other
      exact iff_of_false (fun both => other both.2.symm) List.not_mem_nil
  acyclic := acyclic_of_single ne fun x q up => (single_up parent x q).mp up

/-- A class and its SERVICE overlay, with a method the extractor put under the overlay. -/
def served : BuiltGraph Unit where
  repo := 0
  nodes := [⟨1, .strong, []⟩, ⟨2, .strong, [⟨5, .text "scope"⟩]⟩, ⟨3, .strong, []⟩]
  edges := [⟨2, 3, EdgeCategory.defines, .strong, []⟩, ⟨1, 3, EdgeCategory.defines, .strong, []⟩]
  nav := {
    qnameById := ((∅ : IdMap String).insert 1 "a::S").insert 2 "a::S"
    kindById := ((∅ : IdMap Nat).insert 1 2).insert 2 30
    parentOf := (∅ : IdMap NodeId).insert 3 2
    childrenOf := (∅ : IdMap (List NodeId)).insert 2 [3] }

theorem served_remap : served.remap = [(2, 1)] := by decide +kernel

theorem served_folded : served.RoleFolded (foldRoleOverlays served).1 := by
  refine (foldRoleOverlays_exact served (single_tree (by decide) rfl rfl)).mpr ⟨?_, ?_⟩
  · intro id _ record
    simp [FullNav.Records, served] at record
  · refine acyclic_of_single (a := 3) (b := 1) (by decide) fun k p up => ?_
    obtain ⟨_, q, above, rfl⟩ := BuiltGraph.rerouted_iff.mp up
    obtain ⟨rfl, rfl⟩ := (single_up rfl k q).mp above
    rw [served_remap]
    exact ⟨rfl, rfl⟩

/-- The class stands under its own overlay. -/
def nested : BuiltGraph Unit where
  repo := 0
  nodes := [⟨1, .strong, []⟩, ⟨2, .strong, []⟩]
  nav := {
    qnameById := ((∅ : IdMap String).insert 1 "a::S").insert 2 "a::S"
    kindById := ((∅ : IdMap Nat).insert 1 2).insert 2 30
    parentOf := (∅ : IdMap NodeId).insert 1 2
    childrenOf := (∅ : IdMap (List NodeId)).insert 2 [1] }

/-- The base keeps the overlay that is gone as its parent. -/
theorem parent_left : ¬∀ g : BuiltGraph Unit, g.nav.Forest →
    g.RoleFolded (foldRoleOverlays g).1 := by
  intro all
  have folded := all nested (single_tree (by decide) rfl rfl)
  have gone : nested.Folded 2 := BuiltGraph.folded_iff.mpr (by decide +kernel)
  have left : (foldRoleOverlays nested).1.nav.parentOf[(1 : NodeId)]? = some 2 := by
    decide +kernel
  exact folded.gone 2 gone (.nav (.parent 1 left))

end Samples

end Glia.Graph
