import Glia.Algo.DeltaScoped
import Glia.Engine.Delta
import Glia.Graph.MovesChanged

/-! A scoped delta is the full one: outside the scope nothing differs, no move has an end
there, and no edge is remapped into or out of it. -/
namespace Glia.Engine

open Glia.Algo
open Glia.Graph (MergedGraph RepoGraph Node IdMap)
open Glia.Kit (OrdMap gather getElem?_gather)

section Same

def nodeView (n : Node) : NodeId × List Cell :=
  (n.id, n.cells.filter fun c => c.kind ∈ contentCells)

def edgeView (cell : Option CellRead) (e : Edge) : EdgeKey × Confidence × Option (List UInt8) :=
  (EdgeKey.of e, e.confidence, partOf cell e)

/-- Two builds of one graph a delta cannot tell apart. -/
structure SameGraph (cell : Option CellRead) (g h : RepoGraph) : Prop where
  repo : g.repo = h.repo
  nav : g.nav = h.nav
  nodes : ∀ x, x ∈ g.nodes.map nodeView ↔ x ∈ h.nodes.map nodeView
  edges : ∀ x, x ∈ g.edges.map (edgeView cell) ↔ x ∈ h.edges.map (edgeView cell)

theorem SameGraph.symm {cell : Option CellRead} {g h : RepoGraph} (same : SameGraph cell g h) :
    SameGraph cell h g :=
  ⟨same.repo.symm, same.nav.symm, fun x => (same.nodes x).symm, fun x => (same.edges x).symm⟩

end Same

section Content

theorem foldl_addTexts (kinds : List CellTypeId) (l : List Node) (o : Option Texts) :
    l.foldl (fun o n => addTexts kinds n o) o =
      if l = [] then o else some (o.getD ∅ ∪ (l.map (textsOf kinds)).foldr (· ∪ ·) ∅) := by
  induction l generalizing o with
  | nil => rfl
  | cons n l ih =>
    rw [List.foldl_cons, ih]
    cases l with
    | nil => simp [addTexts]
    | cons m l => simp [addTexts, Finset.union_assoc]

theorem mem_foldr_union {α : Type} [DecidableEq α] (l : List (Finset α)) (x : α) :
    x ∈ l.foldr (· ∪ ·) ∅ ↔ ∃ t ∈ l, x ∈ t := by
  induction l with
  | nil => simp
  | cons t l ih => simp [ih]

theorem content_get_congr {side side' : DeltaSide} {kinds : List CellTypeId} {id : NodeId}
    (same : ∀ t, t ∈ (side.nodes.filter fun n => n.id = id).map (textsOf kinds) ↔
      t ∈ (side'.nodes.filter fun n => n.id = id).map (textsOf kinds)) :
    (content side kinds)[id]? = (content side' kinds)[id]? := by
  rw [content, content, getElem?_gather, getElem?_gather, foldl_addTexts, foldl_addTexts]
  have filled : (side.nodes.filter fun n => n.id = id) = [] ↔
      (side'.nodes.filter fun n => n.id = id) = [] := by
    rw [← List.map_eq_nil_iff (f := textsOf kinds), ← List.map_eq_nil_iff (f := textsOf kinds),
      List.eq_nil_iff_forall_not_mem, List.eq_nil_iff_forall_not_mem]
    exact forall_congr' fun t => not_congr (same t)
  by_cases none_held : (side.nodes.filter fun n => n.id = id) = []
  · rw [if_pos none_held, if_pos (filled.mp none_held)]
  · rw [if_neg none_held, if_neg (fun e => none_held (filled.mpr e))]
    simp only [Std.ExtTreeMap.getElem?_empty, Option.getD_none, Finset.empty_union,
      Option.some.injEq]
    ext x
    rw [mem_foldr_union, mem_foldr_union]
    constructor
    · rintro ⟨t, mem, hx⟩
      exact ⟨t, (same t).mp mem, hx⟩
    · rintro ⟨t, mem, hx⟩
      exact ⟨t, (same t).mpr mem, hx⟩

theorem content_get_none {side : DeltaSide} {kinds : List CellTypeId} {id : NodeId}
    (h : ∀ n ∈ side.nodes, n.id ≠ id) : (content side kinds)[id]? = none := by
  have empty : (side.nodes.filter fun n => n.id = id) = [] := by
    rw [List.filter_eq_nil_iff]
    intro n mem
    simpa using h n mem
  rw [content, getElem?_gather, empty]
  simp

end Content

section Sides

@[simp] theorem textCopy_id (n : Node) : (textCopy n).id = n.id := rfl

theorem sideNodes_filter (m : MergedGraph) {ids : NodeId → Bool} {id : NodeId}
    (kept : ids id = true) :
    (sideNodes m ids ids).filter (fun n => n.id = id) =
      (sideNodes m (fun _ => true) fun _ => true).filter fun n => n.id = id := by
  rw [sideNodes, sideNodes, schemaCopies, schemaCopies, List.filter_append, List.filter_append]
  simp only [List.filter_flatMap, List.filter_filter, List.filter_map]
  congr 1
  · congr 1
    funext g
    apply List.filter_congr
    intro n _
    by_cases same : n.id = id
    · simp [isCopied, same, kept]
    · simp [same]
  · congr 1
    funext g
    congr 1
    apply List.filter_congr
    intro n _
    by_cases same : n.id = id
    · simp [isCopied, same, kept]
    · simp [same]

theorem sideNodes_kept (m : MergedGraph) (ids : NodeId → Bool) :
    ∀ n ∈ sideNodes m ids ids, ids n.id = true := by
  intro n mem
  rw [sideNodes, List.mem_append] at mem
  obtain mem | mem := mem
  · obtain ⟨g, _, mem⟩ := List.mem_flatMap.mp mem
    have passed := (List.mem_filter.mp mem).2
    simp only [Bool.and_eq_true] at passed
    exact passed.1.1
  · obtain ⟨g, _, mem⟩ := List.mem_flatMap.mp mem
    obtain ⟨n', inside, rfl⟩ := List.mem_map.mp mem
    have passed := (List.mem_filter.mp inside).2
    simp only [isCopied, Bool.and_eq_true] at passed
    exact passed.1.2

theorem content_scoped (m : MergedGraph) (ids : NodeId → Bool) (edges edges' : List Edge)
    (id : NodeId) :
    (content ⟨sideNodes m ids ids, edges⟩ contentCells)[id]? =
      if ids id then
        (content ⟨sideNodes m (fun _ => true) fun _ => true, edges'⟩ contentCells)[id]?
      else none := by
  by_cases kept : ids id = true
  · rw [if_pos kept]
    apply content_get_congr
    intro t
    rw [sideNodes_filter m kept]
  · rw [if_neg kept]
    apply content_get_none
    intro n mem same
    exact kept (same ▸ sideNodes_kept m ids n mem)

end Sides

section View

theorem textsOf_view {n n' : Node} (same : nodeView n = nodeView n') :
    textsOf contentCells n = textsOf contentCells n' := by
  have texts : ∀ n : Node, textsOf contentCells n =
      textsOf contentCells { n with cells := (nodeView n).2 } := by
    intro n
    rw [textsOf, textsOf, nodeView, List.filterMap_filter]
    congr 2
    funext c
    by_cases kind : c.kind ∈ contentCells <;> cases c.payload <;> simp [kind]
  rw [texts, texts n', same, textsOf, textsOf]

theorem hasJsonSchema_view {n n' : Node} (same : nodeView n = nodeView n') :
    hasJsonSchema n = hasJsonSchema n' := by
  have schema : ∀ n : Node, hasJsonSchema n =
      hasJsonSchema { n with cells := (nodeView n).2 } := by
    intro n
    rw [hasJsonSchema, hasJsonSchema, nodeView, List.any_filter]
    congr 1
    funext c
    by_cases kind : c.kind = CellType.schemaFields
    · cases c.payload <;> simp [kind, contentCells]
    · have other : (c.kind == CellType.schemaFields) = false := beq_eq_false_iff_ne.mpr kind
      simp only [other, Bool.false_and, Bool.and_false]
  rw [schema, schema n', same, hasJsonSchema, hasJsonSchema]

theorem textCopy_view {n n' : Node} (same : nodeView n = nodeView n') :
    textsOf contentCells (textCopy n) = textsOf contentCells (textCopy n') := by
  have cells : (n.cells.filter fun c => c.kind ∈ contentCells) =
      n'.cells.filter fun c => c.kind ∈ contentCells := congrArg Prod.snd same
  simp only [textsOf, textCopy, cells]

end View

section Outside
variable {cell : Option CellRead} {m m' : MergedGraph} {id : NodeId}

structure Untouched (cell : Option CellRead) (m m' : MergedGraph) (id : NodeId) : Prop where
  twin : ∀ g ∈ m.graphs, (∃ n ∈ g.nodes, n.id = id) → ∃ h ∈ m'.graphs, SameGraph cell g h

theorem mem_regionIds : id ∈ regionIds m ↔
    ∃ g ∈ m.graphs, (∃ n ∈ g.nodes, n.id = id) ∧ isRegion g id = true := by
  simp only [regionIds, List.mem_toFinset, List.mem_map, List.mem_flatMap, List.mem_filter]
  constructor
  · rintro ⟨n, ⟨g, mem, node, region⟩, rfl⟩
    exact ⟨g, mem, ⟨n, node, rfl⟩, region⟩
  · rintro ⟨g, mem, ⟨n, node, rfl⟩, region⟩
    exact ⟨n, ⟨g, mem, node, region⟩, rfl⟩

theorem SameGraph.node {g h : RepoGraph} (same : SameGraph cell g h) {n : Node}
    (mem : n ∈ g.nodes) : ∃ n' ∈ h.nodes, nodeView n' = nodeView n :=
  List.mem_map.mp ((same.nodes _).mp (List.mem_map_of_mem mem))

theorem isRegion_same {g h : RepoGraph} (same : SameGraph cell g h) (id : NodeId) :
    isRegion g id = isRegion h id := by
  rw [isRegion, isRegion, same.nav]

theorem Untouched.region (untouched : Untouched cell m m' id) (h : id ∈ regionIds m) :
    id ∈ regionIds m' := by
  obtain ⟨g, mem, ⟨n, node, rfl⟩, region⟩ := mem_regionIds.mp h
  obtain ⟨h, mem', same⟩ := untouched.twin g mem ⟨n, node, rfl⟩
  obtain ⟨n', node', view⟩ := same.node node
  exact mem_regionIds.mpr ⟨h, mem', ⟨n', node', congrArg Prod.fst view⟩,
    isRegion_same same n.id ▸ region⟩

theorem mem_sideNodes_all {n : Node} : n ∈ sideNodes m (fun _ => true) (fun _ => true) ↔
    ∃ g ∈ m.graphs, ∃ n₀ ∈ g.nodes,
      (n = n₀ ∧ n.id ∉ regionIds m ∧ isCopied (fun _ => true) g n₀ = false) ∨
        (n = textCopy n₀ ∧ isCopied (fun _ => true) g n₀ = true) := by
  simp only [sideNodes, schemaCopies, List.mem_append, List.mem_flatMap, List.mem_filter,
    List.mem_map, Bool.true_and, Bool.and_eq_true, decide_eq_true_eq, Bool.not_eq_true']
  constructor
  · rintro (⟨g, mem, node, region, plain⟩ | ⟨g, mem, n₀, ⟨node, copied⟩, rfl⟩)
    · exact ⟨g, mem, n, node, .inl ⟨rfl, region, plain⟩⟩
    · exact ⟨g, mem, n₀, node, .inr ⟨rfl, copied⟩⟩
  · rintro ⟨g, mem, n₀, node, ⟨rfl, region, plain⟩ | ⟨rfl, copied⟩⟩
    · exact .inl ⟨g, mem, node, region, plain⟩
    · exact .inr ⟨g, mem, n₀, ⟨node, copied⟩, rfl⟩

theorem Untouched.texts (untouched : Untouched cell m m' id)
    (region : id ∈ regionIds m' → id ∈ regionIds m) {t : Texts}
    (found : t ∈ ((sideNodes m (fun _ => true) fun _ => true).filter fun n => n.id = id).map
      (textsOf contentCells)) :
    t ∈ ((sideNodes m' (fun _ => true) fun _ => true).filter fun n => n.id = id).map
      (textsOf contentCells) := by
  obtain ⟨n, mem, rfl⟩ := List.mem_map.mp found
  rw [List.mem_filter, decide_eq_true_eq] at mem
  obtain ⟨listed, named⟩ := mem
  obtain ⟨g, held, n₀, node, source⟩ := mem_sideNodes_all.mp listed
  have same_id : n₀.id = id := by
    obtain ⟨rfl, _⟩ | ⟨rfl, _⟩ := source
    · exact named
    · exact named
  obtain ⟨h, held', same⟩ := untouched.twin g held ⟨n₀, node, same_id⟩
  obtain ⟨n', node', view⟩ := same.node node
  have id' : n'.id = id := (congrArg Prod.fst view).trans same_id
  have copied : isCopied (fun _ => true) h n' = isCopied (fun _ => true) g n₀ := by
    rw [isCopied, isCopied, id', same_id, isRegion_same same, hasJsonSchema_view view]
  obtain ⟨rfl, apart, plain⟩ | ⟨rfl, yes⟩ := source
  · have stays : n'.id ∉ regionIds m' := by
      rw [id']
      rw [named] at apart
      exact fun r => apart (region r)
    have listed' := mem_sideNodes_all.mpr
      ⟨h, held', n', node', .inl ⟨rfl, stays, copied.trans plain⟩⟩
    exact List.mem_map.mpr ⟨n', List.mem_filter.mpr ⟨listed', decide_eq_true id'⟩,
      textsOf_view view⟩
  · have listed' := mem_sideNodes_all.mpr ⟨h, held', n', node', .inr ⟨rfl, copied.trans yes⟩⟩
    exact List.mem_map.mpr ⟨textCopy n', List.mem_filter.mpr ⟨listed', decide_eq_true id'⟩,
      textCopy_view view⟩

end Outside

section Scope

def side (m : MergedGraph) (ids : NodeId → Bool) (keep : Edge → Bool) : DeltaSide :=
  ⟨sideNodes m ids ids, sideEdges m keep⟩

variable (read : DeltaReader) (before after : MergedGraph) (scope : DeltaScope)

def stampCell : Option CellRead := some ⟨CellType.evidence, read.evidenceStamp⟩

/-- No graph outside the scope changed, and a scope without moves has none to find. -/
structure DeltaScope.Covers : Prop where
  clean : List.Forall₂ (SameGraph (stampCell read)) (cleanGraphs before scope.before)
    (cleanGraphs after scope.after)
  moves : scope.moves = true ∨ movePairs read before after [] = []

def scopedSide (m : MergedGraph) : DeltaSide :=
  side m (fun id => id ∈ scopeIds before after scope) fun e =>
    inScope (scopeIds before after scope) (scopeKeys before after scope) (EdgeKey.of e)

theorem graph_scoped_or_clean {m : MergedGraph} (at_ : Finset Nat) {g : RepoGraph}
    (mem : g ∈ m.graphs) : g ∈ scopedGraphs m at_ ∨ g ∈ cleanGraphs m at_ := by
  obtain ⟨i, bound, rfl⟩ := List.getElem_of_mem mem
  have placed : (m.graphs[i], i) ∈ m.graphs.zipIdx := List.mk_mem_zipIdx_iff_getElem?.mpr
    (List.getElem?_eq_getElem bound)
  by_cases inside : i ∈ at_
  · exact .inl (List.mem_map.mpr ⟨_, List.mem_filter.mpr ⟨placed, by simpa using inside⟩, rfl⟩)
  · exact .inr (List.mem_map.mpr ⟨_, List.mem_filter.mpr ⟨placed, by simpa using inside⟩, rfl⟩)

theorem mem_of_mem_cleanGraphs {m : MergedGraph} {at_ : Finset Nat} {g : RepoGraph}
    (mem : g ∈ cleanGraphs m at_) : g ∈ m.graphs := by
  obtain ⟨⟨h, i⟩, inside, rfl⟩ := List.mem_map.mp mem
  exact List.mem_of_getElem? (List.mk_mem_zipIdx_iff_getElem?.mp (List.mem_filter.mp inside).1)

theorem twin_of_forall₂ {α : Type} {R : α → α → Prop} {l l' : List α} (h : List.Forall₂ R l l') :
    ∀ x ∈ l, ∃ y ∈ l', R x y := by
  induction h with
  | nil => simp
  | cons related _ ih =>
    intro x mem
    obtain rfl | mem := List.mem_cons.mp mem
    · exact ⟨_, List.mem_cons_self, related⟩
    · obtain ⟨y, held, r⟩ := ih x mem
      exact ⟨y, List.mem_cons_of_mem _ held, r⟩

variable {read before after scope} (covers : scope.Covers read before after)
include covers

theorem DeltaScope.Covers.twin : ∀ g ∈ cleanGraphs before scope.before,
    ∃ h ∈ cleanGraphs after scope.after, SameGraph (stampCell read) g h :=
  twin_of_forall₂ covers.clean

theorem DeltaScope.Covers.twinBack : ∀ h ∈ cleanGraphs after scope.after,
    ∃ g ∈ cleanGraphs before scope.before, SameGraph (stampCell read) h g := by
  apply twin_of_forall₂
  exact covers.clean.flip.imp fun _ _ same => SameGraph.symm same

omit covers in
theorem clean_of_out {id : NodeId} (out : id ∉ scopeIds before after scope) {g : RepoGraph}
    (holds : ∃ n ∈ g.nodes, n.id = id) :
    (g ∈ before.graphs → g ∈ cleanGraphs before scope.before) ∧
      (g ∈ after.graphs → g ∈ cleanGraphs after scope.after) := by
  obtain ⟨n, node, rfl⟩ := holds
  have reached : ∀ {l : List RepoGraph}, g ∈ l → (∀ h ∈ l, h ∈ scopedGraphs before scope.before ++
      scopedGraphs after scope.after) → False := by
    intro l mem sub
    apply out
    rw [scopeIds, List.mem_toFinset]
    exact List.mem_map_of_mem (List.mem_flatMap.mpr ⟨g, sub g mem, node⟩)
  constructor
  · intro mem
    obtain inside | clean := graph_scoped_or_clean scope.before mem
    · exact (reached inside fun h hh => List.mem_append_left _ hh).elim
    · exact clean
  · intro mem
    obtain inside | clean := graph_scoped_or_clean scope.after mem
    · exact (reached inside fun h hh => List.mem_append_right _ hh).elim
    · exact clean

theorem DeltaScope.Covers.untouched {id : NodeId} (out : id ∉ scopeIds before after scope) :
    Untouched (stampCell read) before after id := by
  refine ⟨fun g mem holds => ?_⟩
  obtain ⟨h, held, same⟩ := covers.twin g ((clean_of_out out holds).1 mem)
  exact ⟨h, mem_of_mem_cleanGraphs held, same⟩

theorem DeltaScope.Covers.untouchedBack {id : NodeId} (out : id ∉ scopeIds before after scope) :
    Untouched (stampCell read) after before id := by
  refine ⟨fun g mem holds => ?_⟩
  obtain ⟨h, held, same⟩ := covers.twinBack g ((clean_of_out out holds).2 mem)
  exact ⟨h, mem_of_mem_cleanGraphs held, same⟩

theorem DeltaScope.Covers.region_iff {id : NodeId} (out : id ∉ scopeIds before after scope) :
    id ∈ regionIds before ↔ id ∈ regionIds after :=
  ⟨(covers.untouched out).region, (covers.untouchedBack out).region⟩

theorem DeltaScope.Covers.content_still {id : NodeId}
    (out : id ∉ scopeIds before after scope) (edges edges' : List Edge) :
    (content ⟨sideNodes before (fun _ => true) fun _ => true, edges⟩ contentCells)[id]? =
      (content ⟨sideNodes after (fun _ => true) fun _ => true, edges'⟩ contentCells)[id]? := by
  apply content_get_congr
  intro t
  exact ⟨(covers.untouched out).texts (covers.region_iff out).mpr,
    (covers.untouchedBack out).texts (covers.region_iff out).mp⟩

theorem DeltaScope.Covers.pairs_inside (renames : List (String × String)) :
    ∀ p ∈ movePairs read before after renames,
      p.1 ∈ scopeIds before after scope ∧ p.2 ∈ scopeIds before after scope := by
  intro p mem
  obtain ⟨m, found, rfl⟩ := List.mem_map.mp mem
  obtain ⟨⟨repo, held, gone⟩, repo', held', fresh⟩ :=
    Graph.moves_changed read.toNodeReader before after renames m found
  constructor
  · by_contra out
    obtain ⟨g, inside, rfl, holds, named, kinded⟩ := held
    obtain ⟨h, clean, same⟩ := (covers.untouched out).twin g inside holds
    obtain ⟨n, node, id⟩ := holds
    obtain ⟨n', node', view⟩ := same.node node
    exact gone m.oldId ⟨h, clean, same.repo.symm, ⟨n', node', (congrArg Prod.fst view).trans id⟩,
      same.nav ▸ named, same.nav ▸ kinded⟩
  · by_contra out
    obtain ⟨g, inside, rfl, holds, named, kinded⟩ := held'
    obtain ⟨h, clean, same⟩ := (covers.untouchedBack out).twin g inside holds
    obtain ⟨n, node, id⟩ := holds
    obtain ⟨n', node', view⟩ := same.node node
    exact fresh m.newId ⟨h, clean, same.repo.symm, ⟨n', node', (congrArg Prod.fst view).trans id⟩,
      same.nav ▸ named, same.nav ▸ kinded⟩

omit covers in
theorem clean_edge {k : EdgeKey}
    (out : inScope (scopeIds before after scope) (scopeKeys before after scope) k = false)
    {e : Edge} (same : EdgeKey.of e = k) :
    (e ∈ before.allEdges → ∃ g ∈ cleanGraphs before scope.before, e ∈ g.edges) ∧
      (e ∈ after.allEdges → ∃ g ∈ cleanGraphs after scope.after, e ∈ g.edges) := by
  have keyed : k ∉ scopeKeys before after scope := by
    intro mem
    simp [inScope, mem] at out
  have reached : e ∉ (scopedGraphs before scope.before ++ scopedGraphs after scope.after).flatMap
      RepoGraph.edges ++ (before.crossEdges ++ after.crossEdges) := by
    intro mem
    apply keyed
    rw [scopeKeys, List.mem_toFinset]
    exact same ▸ List.mem_map_of_mem mem
  simp only [List.mem_append, List.mem_flatMap, not_or, not_exists, not_and] at reached
  obtain ⟨graphs, crossBefore, crossAfter⟩ := reached
  constructor
  · intro mem
    obtain mem | mem := List.mem_append.mp mem
    · obtain ⟨g, held, edge⟩ := List.mem_flatMap.mp mem
      obtain inside | clean := graph_scoped_or_clean scope.before held
      · exact absurd edge (graphs g (.inl inside))
      · exact ⟨g, clean, edge⟩
    · exact absurd mem crossBefore
  · intro mem
    obtain mem | mem := List.mem_append.mp mem
    · obtain ⟨g, held, edge⟩ := List.mem_flatMap.mp mem
      obtain inside | clean := graph_scoped_or_clean scope.after held
      · exact absurd edge (graphs g (.inr inside))
      · exact ⟨g, clean, edge⟩
    · exact absurd mem crossAfter

omit covers in
theorem SameGraph.edge {cell : Option CellRead} {g h : RepoGraph} (same : SameGraph cell g h)
    {e : Edge} (mem : e ∈ g.edges) : ∃ e' ∈ h.edges, edgeView cell e' = edgeView cell e :=
  List.mem_map.mp ((same.edges _).mp (List.mem_map_of_mem mem))

theorem DeltaScope.Covers.edges_still {k : EdgeKey}
    (out : inScope (scopeIds before after scope) (scopeKeys before after scope) k = false)
    (v : Confidence × Option (List UInt8)) :
    v ∈ ((sideEdges before fun _ => true).filter fun e => EdgeKey.of e = k).map
        (copyView (stampCell read)) ↔
      v ∈ ((sideEdges after fun _ => true).filter fun e => EdgeKey.of e = k).map
        (copyView (stampCell read)) := by
  have ends : k.source ∉ scopeIds before after scope ∧
      k.target ∉ scopeIds before after scope := by
    simp only [inScope, Bool.or_eq_false_iff, decide_eq_false_iff_not] at out
    exact ⟨out.1.2, out.2⟩
  simp only [sideEdges, Bool.and_true, List.mem_map, List.mem_filter, decide_eq_true_eq,
    Bool.and_eq_true]
  constructor
  · rintro ⟨e, ⟨⟨mem, source, target⟩, same⟩, rfl⟩
    obtain ⟨g, clean, edge⟩ := (clean_edge out same).1 mem
    obtain ⟨h, held, twin⟩ := covers.twin g clean
    obtain ⟨e', edge', view⟩ := twin.edge edge
    have key : EdgeKey.of e' = k := (congrArg Prod.fst view).trans same
    subst same
    have source' : e'.fromId = e.fromId := congrArg EdgeKey.source key
    have target' : e'.toId = e.toId := congrArg EdgeKey.target key
    refine ⟨e', ⟨⟨List.mem_append_left _ (List.mem_flatMap.mpr ⟨h, mem_of_mem_cleanGraphs held,
      edge'⟩), ?_, ?_⟩, key⟩, congrArg Prod.snd view⟩
    · rw [source']
      exact fun r => source ((covers.region_iff ends.1).mpr r)
    · rw [target']
      exact fun r => target ((covers.region_iff ends.2).mpr r)
  · rintro ⟨e, ⟨⟨mem, source, target⟩, same⟩, rfl⟩
    obtain ⟨g, clean, edge⟩ := (clean_edge out same).2 mem
    obtain ⟨h, held, twin⟩ := covers.twinBack g clean
    obtain ⟨e', edge', view⟩ := twin.edge edge
    have key : EdgeKey.of e' = k := (congrArg Prod.fst view).trans same
    subst same
    have source' : e'.fromId = e.fromId := congrArg EdgeKey.source key
    have target' : e'.toId = e.toId := congrArg EdgeKey.target key
    refine ⟨e', ⟨⟨List.mem_append_left _ (List.mem_flatMap.mpr ⟨h, mem_of_mem_cleanGraphs held,
      edge'⟩), ?_, ?_⟩, key⟩, congrArg Prod.snd view⟩
    · rw [source']
      exact fun r => source ((covers.region_iff ends.1).mp r)
    · rw [target']
      exact fun r => target ((covers.region_iff ends.2).mp r)

omit covers in
theorem sideEdges_filter (m : MergedGraph) (keep : Edge → Bool) :
    sideEdges m keep = (sideEdges m fun _ => true).filter keep := by
  rw [sideEdges, sideEdges, List.filter_filter]
  apply List.filter_congr
  intro e _
  rw [Bool.and_true, Bool.and_comm]

omit covers in
theorem contentCells_deltaOptions (pairs : List (NodeId × NodeId)) :
    (deltaOptions read pairs).contentCells = contentCells := rfl

omit covers in
theorem moves_deltaOptions (pairs : List (NodeId × NodeId)) :
    (deltaOptions read pairs).moves = pairs := rfl

omit covers in
theorem content_side (pairs : List (NodeId × NodeId)) (m : MergedGraph) (ids : NodeId → Bool)
    (keep keep' : Edge → Bool) (id : NodeId) :
    (content (side m ids keep) (deltaOptions read pairs).contentCells)[id]? =
      if ids id then
        (content (side m (fun _ => true) keep') (deltaOptions read pairs).contentCells)[id]?
      else none :=
  content_scoped m ids _ _ id

omit covers in
theorem inScope_iff {ids : Finset NodeId} {keys : Finset EdgeKey} {k : EdgeKey} :
    inScope ids keys k = true ↔ k ∈ keys ∨ k.source ∈ ids ∨ k.target ∈ ids := by
  simp only [inScope, Bool.or_eq_true, decide_eq_true_eq, or_assoc]

omit covers in
theorem content_scopedSide (pairs : List (NodeId × NodeId)) (m : MergedGraph) {id : NodeId}
    (held : id ∈ scopeIds before after scope) :
    (content (scopedSide before after scope m) (deltaOptions read pairs).contentCells)[id]? =
      (content (side m (fun _ => true) fun _ => true)
        (deltaOptions read pairs).contentCells)[id]? := by
  rw [scopedSide, content_side pairs m _ _ (fun _ => true)]
  exact if_pos (decide_eq_true held)

omit covers in
theorem content_scopedSide_out (pairs : List (NodeId × NodeId)) (m : MergedGraph) {id : NodeId}
    (out : id ∉ scopeIds before after scope) :
    (content (scopedSide before after scope m) (deltaOptions read pairs).contentCells)[id]? =
      none := by
  rw [scopedSide, content_side pairs m _ _ (fun _ => true)]
  exact if_neg (fun held => out (of_decide_eq_true held))

theorem DeltaScope.Covers.content_side (pairs : List (NodeId × NodeId)) {id : NodeId}
    (out : id ∉ scopeIds before after scope) :
    (content (side before (fun _ => true) fun _ => true)
        (deltaOptions read pairs).contentCells)[id]? =
      (content (side after (fun _ => true) fun _ => true)
        (deltaOptions read pairs).contentCells)[id]? := by
  have still := covers.content_still out (sideEdges before fun _ => true)
    (sideEdges after fun _ => true)
  rw [side, side, contentCells_deltaOptions]
  rw [still]

omit covers in
theorem scopedSide_edges (m : MergedGraph) : (scopedSide before after scope m).edges =
    (side m (fun _ => true) fun _ => true).edges.filter fun e =>
      inScope (scopeIds before after scope) (scopeKeys before after scope) (EdgeKey.of e) := by
  rw [scopedSide, side, side, sideEdges_filter]

theorem DeltaScope.Covers.cut :
    Cut (deltaOptions read (movePairs read before after []))
      (side before (fun _ => true) fun _ => true) (side after (fun _ => true) fun _ => true)
      (scopedSide before after scope before) (scopedSide before after scope after)
      (· ∈ scopeIds before after scope)
      (inScope (scopeIds before after scope) (scopeKeys before after scope)) := by
  apply Cut.mk
  · intro id held
    exact content_scopedSide _ before held
  · intro id out
    exact content_scopedSide_out _ before out
  · intro id held
    exact content_scopedSide _ after held
  · intro id out
    exact content_scopedSide_out _ after out
  · intro id out
    exact covers.content_side _ out
  · rw [moves_deltaOptions]
    exact covers.pairs_inside []
  · exact scopedSide_edges before
  · exact scopedSide_edges after
  · intro k held
    exact inScope_iff.mpr (.inr held)
  · intro k out v
    exact covers.edges_still out v

end Scope

section LocatedRows

theorem wasMoved_listed {moved : List (NodeId × NodeId)} {a b : NodeId}
    (h : (wasMoved moved)[a]? = some b) : (b, a) ∈ moved := by
  rw [wasMoved, getElem?_gather, foldl_keep_last, Std.ExtTreeMap.getElem?_empty,
    Option.or_none] at h
  obtain ⟨⟨b', a'⟩, mem, rfl⟩ := List.mem_map.mp (List.mem_of_getLast? h)
  obtain ⟨listed, named⟩ := List.mem_filter.mp mem
  rw [decide_eq_true_eq] at named
  exact named ▸ listed

theorem inScope_restamped {ids : Finset NodeId} {keys : Finset EdgeKey}
    {moved : List (NodeId × NodeId)} (inside : ∀ p ∈ moved, p.1 ∈ ids ∧ p.2 ∈ ids) {k : EdgeKey}
    (held : inScope ids keys k = true) :
    inScope ids keys (k.map fun id => ((wasMoved moved)[id]?).getD id) = true := by
  have back : ∀ id : NodeId, id ∈ ids → ((wasMoved moved)[id]?).getD id ∈ ids := by
    intro id mem
    cases was : (wasMoved moved)[id]? with
    | none => exact mem
    | some b => exact (inside _ (wasMoved_listed was)).1
  have stays : ∀ id : NodeId, id ∉ ids → ((wasMoved moved)[id]?).getD id = id := by
    intro id out
    cases was : (wasMoved moved)[id]? with
    | none => rfl
    | some b => exact absurd (inside _ (wasMoved_listed was)).2 out
  by_cases ends : k.source ∈ ids ∨ k.target ∈ ids
  · exact inScope_iff.mpr (.inr (ends.imp (back k.source) (back k.target)))
  · rw [not_or] at ends
    have same : (k.map fun id => ((wasMoved moved)[id]?).getD id) = k :=
      EdgeKey.ext_ends (stays _ ends.1) (stays _ ends.2) rfl
    rw [same]
    exact held

theorem firstEdges_filter (edges : List Edge) (keys : EdgeKey → Bool) {k : EdgeKey}
    (held : keys k = true) :
    (firstEdges (edges.filter fun e => keys (EdgeKey.of e)))[k]? = (firstEdges edges)[k]? := by
  rw [firstEdges, firstEdges, getElem?_gather, getElem?_gather, List.filter_filter]
  congr 1
  apply List.filter_congr
  intro e _
  by_cases same : EdgeKey.of e = k
  · simp [same, held]
  · simp [same]

theorem edgeRows_congr (read : DeltaReader) (before after : MergedGraph) {delta : GraphDelta}
    {ids : Finset NodeId} {keys : Finset EdgeKey}
    (within : delta.Within (· ∈ ids) (inScope ids keys)) {old new old' new' : OrdMap EdgeKey Edge}
    (oldSame : ∀ k, inScope ids keys k = true → old'[k]? = old[k]?)
    (newSame : ∀ k, inScope ids keys k = true → new'[k]? = new[k]?) :
    edgeRows read before after delta old' new' = edgeRows read before after delta old new := by
  have addedRows : ∀ k ∈ delta.addedEdges,
      edgeRow read "added" k (read.locate after) new'[k]? none =
        edgeRow read "added" k (read.locate after) new[k]? none := by
    intro k mem
    rw [newSame k (within.added k mem)]
  have removedRows : ∀ k ∈ delta.removedEdges,
      edgeRow read "removed" k (read.locate before) old'[k]? none =
        edgeRow read "removed" k (read.locate before) old[k]? none := by
    intro k mem
    rw [oldSame k (within.removed k mem)]
  have reconfidencedRows : ∀ r ∈ delta.reconfidencedEdges,
      edgeRow read "reconfidenced" r.1 (read.locate after) new'[r.1]? (some r.2.1) =
        edgeRow read "reconfidenced" r.1 (read.locate after) new[r.1]? (some r.2.1) := by
    intro r mem
    rw [newSame r.1 (within.reconfidenced r mem)]
  have restampedRows : ∀ k ∈ delta.restampedEdges,
      restampedRow read after delta old' new' k = restampedRow read after delta old new k := by
    intro k mem
    have held := within.restamped k mem
    rw [restampedRow, restampedRow, newSame k held,
      oldSame _ (inScope_restamped within.moved held)]
  rw [edgeRows, edgeRows, List.map_congr_left addedRows, List.map_congr_left removedRows,
    List.map_congr_left reconfidencedRows, List.map_congr_left restampedRows]

end LocatedRows

section Main
variable {read : DeltaReader} {before after : MergedGraph} {scope : DeltaScope}

theorem DeltaScope.Covers.pairs_eq (covers : scope.Covers read before after) :
    (if scope.moves then movePairs read before after [] else []) =
      movePairs read before after [] := by
  obtain on | found := covers.moves
  · rw [if_pos on]
  · rw [found, ite_self]

/-- The scoped delta is the full one: its rows, their order and the counts. -/
theorem locatedDeltaScoped_eq (covers : scope.Covers read before after) :
    locatedDeltaScoped read before after scope = locatedDeltaCounted read before after [] := by
  have within := covers.cut.within
  have same := covers.cut.graphDelta_eq
  have first : ∀ (m : MergedGraph) k,
      inScope (scopeIds before after scope) (scopeKeys before after scope) k = true →
        (firstEdges (scopedSide before after scope m).edges)[k]? =
          (firstEdges (side m (fun _ => true) fun _ => true).edges)[k]? := by
    intro m k held
    rw [scopedSide_edges]
    exact firstEdges_filter _ _ held
  have rows := edgeRows_congr read before after within (first before) (first after)
  rw [locatedDeltaScoped, covers.pairs_eq]
  show locateRows read before after (graphDelta (scopedSide before after scope before)
      (scopedSide before after scope after) (deltaOptions read (movePairs read before after [])))
      (scopedSide before after scope before).edges (scopedSide before after scope after).edges _ =
    locateRows read before after (graphDelta (side before (fun _ => true) fun _ => true)
      (side after (fun _ => true) fun _ => true)
      (deltaOptions read (movePairs read before after []))) _ _ _
  rw [same, locateRows, locateRows, rows]
  rfl

end Main

def untouchedGraph : RepoGraph where
  repo := 1
  nodes := [⟨1, .strong, [⟨CellType.code, .text "def f(): g()"⟩]⟩]
  edges := [⟨1, 2, EdgeCategory.calls, .strong, []⟩]

/-- A module whose body reads `code`, called from outside. -/
def editedGraph (code : String) : RepoGraph where
  repo := 1
  nodes := [⟨2, .strong, [⟨CellType.code, .text code⟩]⟩]

def beforeEdit : MergedGraph := ⟨[untouchedGraph, editedGraph "def g(): 1"], []⟩

def afterEdit : MergedGraph := ⟨[untouchedGraph, editedGraph "def g(): 2"], []⟩

def plainReader : DeltaReader where
  positionFile _ := none
  bodyHash _ := 0
  locate _ id := ⟨id, "", "", none, none⟩
  evidence _ := none
  evidenceStamp _ := none

theorem locatedDeltaScoped_eq_edited :
    locatedDeltaScoped plainReader beforeEdit afterEdit ⟨{1}, {1}, true⟩ =
      locatedDeltaCounted plainReader beforeEdit afterEdit [] := by
  apply locatedDeltaScoped_eq
  refine ⟨?_, .inl rfl⟩
  have kept : ∀ code, cleanGraphs ⟨[untouchedGraph, editedGraph code], []⟩ {1} =
      [untouchedGraph] := fun _ => rfl
  rw [beforeEdit, afterEdit, kept, kept]
  exact .cons ⟨rfl, rfl, fun _ => .rfl, fun _ => .rfl⟩ .nil

/-- The edited body is the one change found. -/
example :
    (locatedDeltaScoped plainReader beforeEdit afterEdit ⟨{1}, {1}, true⟩).delta.modifiedNodes =
      [2] := by
  decide +kernel

end Glia.Engine
