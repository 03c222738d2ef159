import Glia.Graph.Canonical
import Glia.Kit.Ranking

/-! The primary node among candidates that share a name, and the exact-name lookups: neither the
order the candidates come in nor a node's id decides them. -/
namespace Glia.Graph

open Std (TransCmp LawfulEqCmp)
open Glia.Kit.Ranking (sortBy dedup)

def usizeMax : Nat := 18446744073709551615

/-- MODULE, PACKAGE, PROJECT, REGION, DOC_SPACE. -/
def containerKinds : List Nat := [1, 6, 45, 41, 44]

def CodeNav.knows (nav : CodeNav) (id : NodeId) : Bool :=
  nav.kindById.contains id || nav.qnameById.contains id

namespace MergedGraph
variable (m : MergedGraph)

section Keys

def degree (id : NodeId) : Nat :=
  (m.allEdges.filter fun e => e.fromId = id ∨ e.toId = id).length

def isDeclaration (id : NodeId) : Bool :=
  ((m.graphs.findSome? fun g => g.nav.kindById[id]?).map fun k => !containerKinds.contains k).getD
    false

def tieHead (id : NodeId) : String × Nat × Nat :=
  ((m.graphs.findSome? fun g => g.nav.qnameById[id]?).getD "",
    (m.graphs.findSome? fun g => g.nav.kindById[id]?).getD noKind,
    (m.graphs.findIdx? fun g => g.nav.knows id).getD usizeMax)

def placeIn (graph : Nat) (id : NodeId) : Nat :=
  (m.graphs[graph]?.bind fun g => g.nodes.findIdx? fun n => n.id == id).getD usizeMax

def tieCmp (a b : NodeId) : Ordering :=
  if a = b then .eq
  else
    let ha := m.tieHead a
    let hb := m.tieHead b
    (compareLex (compareOn Prod.fst) (compareLex (compareOn fun h => h.2.1)
        (compareOn fun h => h.2.2)) ha hb).then
      ((compare (m.placeIn ha.2.2 a) (m.placeIn ha.2.2 b)).then (compare a b))

end Keys

section Pick

/-- The candidate of the greatest rank, ties by the order above, and how many tied. -/
def pickPrimaryTied : List NodeId → Option NodeId × Nat
  | [] => (none, 0)
  | [only] => (some only, 0)
  | many =>
    let keyed := many.map fun id => ((toLex (m.isDeclaration id, m.degree id) : Bool ×ₗ Nat), id)
    match (keyed.map Prod.fst).max? with
    | none => (none, 0)
    | some top =>
      let tied := dedup (sortBy m.tieCmp ((keyed.filter fun e => e.1 = top).map Prod.snd))
      (tied.head?, if 1 < tied.length then tied.length else 0)

def pickPrimary (candidates : List NodeId) : Option NodeId := (m.pickPrimaryTied candidates).1

/-- The ids of a name in the graphs' maps, each map read in its own order. -/
def exactHits (tables : List (List (NodeId × String))) (name : String) : List NodeId :=
  tables.flatMap fun t => (t.filter fun e => e.2 = name).map Prod.fst

def exactIn (tables : List (List (NodeId × String))) (name : String) : List NodeId :=
  sortBy m.tieCmp (exactHits tables name)

/-- Every id one of the navs' maps gives the name, in order. -/
def exactBy (field : CodeNav → IdMap String) (name : String) : List NodeId :=
  m.exactIn (m.graphs.map fun g => (field g.nav).toList) name

def namesExact (name : String) : List NodeId := m.exactBy CodeNav.nameById name

def qnamesExact (qname : String) : List NodeId := m.exactBy CodeNav.qnameById qname

def resolveName (name : String) : Option NodeId := m.pickPrimary (m.namesExact name)

def nodeIdByQname (qname : String) : Option NodeId := m.pickPrimary (m.qnamesExact qname)

end Pick

section Order

def tieKeyCmp : NodeId → NodeId → Ordering :=
  compareLex (compareOn fun id => (m.tieHead id).1) <|
    compareLex (compareOn fun id => (m.tieHead id).2.1) <|
    compareLex (compareOn fun id => (m.tieHead id).2.2) <|
    compareLex (compareOn fun id => m.placeIn (m.tieHead id).2.2 id) (compareOn fun id => id)

theorem tieCmp_eq (a b : NodeId) : m.tieCmp a b = m.tieKeyCmp a b := by
  unfold tieCmp tieKeyCmp compareLex compareOn
  by_cases same : a = b
  · subst same
    rw [if_pos rfl]
    simp [Std.ReflOrd.compare_self]
  · rw [if_neg same]
    dsimp only
    by_cases graph : (m.tieHead a).2.2 = (m.tieHead b).2.2
    · rw [graph, Ordering.then_assoc, Ordering.then_assoc]
    · have apart : compare (m.tieHead a).2.2 (m.tieHead b).2.2 ≠ .eq :=
        fun eq => graph (Std.compare_eq_iff_eq.mp eq)
      rw [Ordering.then_assoc, Ordering.then_assoc]
      cases h : compare (m.tieHead a).2.2 (m.tieHead b).2.2 with
      | lt => rfl
      | eq => exact absurd h apart
      | gt => rfl

instance : TransCmp m.tieKeyCmp :=
  inferInstanceAs (TransCmp (compareLex _ (compareLex _ (compareLex _ (compareLex _ _)))))

theorem tieCmp_funext : m.tieCmp = m.tieKeyCmp := by
  funext a b
  exact m.tieCmp_eq a b

instance : TransCmp m.tieCmp := m.tieCmp_funext ▸ inferInstance

instance : LawfulEqCmp m.tieCmp where
  compare_self := by
    intro a
    exact if_pos rfl
  eq_of_compare := by
    intro a b same
    rw [tieCmp_eq, tieKeyCmp, lex_eq, lex_eq, lex_eq, lex_eq, on_eq (f := fun id : NodeId => id)]
      at same
    exact same.2.2.2.2

end Order

section Set

def rank (id : NodeId) : Bool ×ₗ Nat := toLex (m.isDeclaration id, m.degree id)

def topTied (candidates : List NodeId) : List NodeId :=
  match (candidates.map m.rank).max? with
  | none => []
  | some top => dedup (sortBy m.tieCmp (candidates.filter fun id => m.rank id = top))

theorem pickPrimaryTied_eq (candidates : List NodeId) :
    m.pickPrimaryTied candidates = ((m.topTied candidates).head?,
      if 1 < (m.topTied candidates).length then (m.topTied candidates).length else 0) := by
  have many : ∀ l : List NodeId, (match ((l.map fun id => (m.rank id, id)).map Prod.fst).max? with
      | none => (none, 0)
      | some top =>
        let tied := dedup (sortBy m.tieCmp
          (((l.map fun id => (m.rank id, id)).filter fun e => e.1 = top).map Prod.snd))
        (tied.head?, if 1 < tied.length then tied.length else 0)) =
      ((m.topTied l).head?,
        if 1 < (m.topTied l).length then (m.topTied l).length else 0) := by
    intro l
    have keys : (l.map fun id => (m.rank id, id)).map Prod.fst = l.map m.rank := by
      rw [List.map_map]
      rfl
    have ids : ∀ top, ((l.map fun id => (m.rank id, id)).filter fun e => e.1 = top).map Prod.snd =
        l.filter fun id => m.rank id = top := by
      intro top
      rw [List.filter_map, List.map_map]
      exact List.map_id _
    unfold topTied
    rw [keys]
    cases (l.map m.rank).max? with
    | none => rfl
    | some top =>
      dsimp only
      rw [ids]
  match candidates with
  | [] => rfl
  | [only] =>
    have alone : m.topTied [only] = [only] := by
      unfold topTied
      rw [List.map_singleton, List.max?_singleton]
      dsimp only
      rw [List.filter_singleton, decide_eq_true rfl]
      rfl
    rw [alone]
    rfl
  | a :: b :: rest => exact many (a :: b :: rest)

/-- The order and the repeats of the candidates do not matter. -/
theorem topTied_congr {c c' : List NodeId} (same : ∀ id, id ∈ c ↔ id ∈ c') :
    m.topTied c = m.topTied c' := by
  have top : (c.map m.rank).max? = (c'.map m.rank).max? := by
    have members : ∀ r, r ∈ c.map m.rank ↔ r ∈ c'.map m.rank := by
      intro r
      rw [List.mem_map, List.mem_map]
      exact exists_congr fun id => and_congr_left' (same id)
    cases max : (c.map m.rank).max? with
    | none =>
      have empty : c = [] := List.map_eq_nil_iff.mp (List.max?_eq_none_iff.mp max)
      have empty' : c' = [] := List.eq_nil_iff_forall_not_mem.mpr fun id mem => by
        have held := (same id).mpr mem
        rw [empty] at held
        cases held
      rw [empty']
      rfl
    | some top =>
      obtain ⟨mem, above⟩ := List.max?_eq_some_iff.mp max
      exact (List.max?_eq_some_iff.mpr
        ⟨(members top).mp mem, fun r held => above r ((members r).mpr held)⟩).symm
  unfold topTied
  rw [top]
  cases (c'.map m.rank).max? with
  | none => rfl
  | some top =>
    refine Glia.Kit.Ranking.dedup_sortBy_congr fun id => ?_
    rw [List.mem_filter, List.mem_filter, same]

theorem pickPrimaryTied_congr {c c' : List NodeId} (same : ∀ id, id ∈ c ↔ id ∈ c') :
    m.pickPrimaryTied c = m.pickPrimaryTied c' := by
  rw [pickPrimaryTied_eq, pickPrimaryTied_eq, m.topTied_congr same]

def Listing (maps : List (IdMap String)) (tables : List (List (NodeId × String))) : Prop :=
  List.Forall₂ (fun map t => t.Perm map.toList) maps tables

theorem exactHits_perm {maps : List (IdMap String)} {tables : List (List (NodeId × String))}
    (listed : Listing maps tables) (name : String) :
    (exactHits tables name).Perm (exactHits (maps.map fun map => map.toList) name) := by
  unfold exactHits
  induction listed with
  | nil => exact List.Perm.nil
  | cons perm _ ih =>
    rw [List.map_cons, List.flatMap_cons, List.flatMap_cons]
    exact ((perm.filter _).map Prod.fst).append ih

theorem exactIn_listing {field : CodeNav → IdMap String} {tables : List (List (NodeId × String))}
    (listed : Listing (m.graphs.map fun g => field g.nav) tables) (name : String) :
    m.exactIn tables name = m.exactBy field name := by
  have hits := exactHits_perm listed name
  rw [List.map_map] at hits
  exact Glia.Kit.Ranking.sortBy_congr hits

end Set

end MergedGraph

section Renamed
variable (ρ : Renaming) (σ : Nat ↪ Nat) (m : MergedGraph)

def MergedGraph.renamed : MergedGraph :=
  { m.rename ρ with
    graphs := (m.rename ρ).graphs.map fun g => { g with repo := σ g.repo } }

def MergedGraph.Placed (id : NodeId) : Prop :=
  ∃ g, (m.graphs.find? fun g => g.nav.knows id) = some g ∧ id ∈ g.nodes.map Node.id

instance (id : NodeId) : Decidable (m.Placed id) :=
  match h : m.graphs.find? fun g => g.nav.knows id with
  | none => .isFalse fun ⟨_, found, _⟩ => by rw [h] at found; cases found
  | some g => decidable_of_iff (id ∈ g.nodes.map Node.id) (by
      constructor
      · exact fun mem => ⟨g, h, mem⟩
      · rintro ⟨g', found, mem⟩
        rw [h] at found
        cases found
        exact mem)

def RepoGraph.renamed (g : RepoGraph) : RepoGraph := { g.rename ρ with repo := σ g.repo }

theorem renamed_graphs : (m.renamed ρ σ).graphs = m.graphs.map (RepoGraph.renamed ρ σ) := by
  unfold MergedGraph.renamed MergedGraph.rename
  dsimp only
  rw [List.map_map]
  rfl

theorem renamed_edges : (m.renamed ρ σ).allEdges = m.allEdges.map (renameEdge ρ) := by
  unfold MergedGraph.allEdges
  rw [renamed_graphs, List.map_append, List.map_flatMap, List.flatMap_map]
  rfl

theorem renamed_degree (id : NodeId) : (m.renamed ρ σ).degree (ρ id) = m.degree id := by
  unfold MergedGraph.degree
  rw [renamed_edges, List.filter_map, List.length_map]
  congr 1
  refine List.filter_congr fun e _ => ?_
  simp [renameEdge, ρ.injective.eq_iff]

theorem renamed_knows (g : RepoGraph) (id : NodeId) :
    (g.renamed ρ σ).nav.knows (ρ id) = g.nav.knows id := by
  unfold CodeNav.knows RepoGraph.renamed RepoGraph.rename CodeNav.rename
  dsimp only
  rw [Glia.Kit.OrdMap.contains_eq_isSome, Glia.Kit.OrdMap.contains_eq_isSome,
    Glia.Kit.OrdMap.contains_eq_isSome, Glia.Kit.OrdMap.contains_eq_isSome, IdMap.rename_get,
    IdMap.rename_get]

theorem renamed_kind (id : NodeId) :
    ((m.renamed ρ σ).graphs.findSome? fun g => g.nav.kindById[ρ id]?) =
      m.graphs.findSome? fun g => g.nav.kindById[id]? := by
  rw [renamed_graphs, List.findSome?_map]
  congr 1
  funext g
  exact IdMap.rename_get ρ g.nav.kindById id

theorem renamed_qname (id : NodeId) :
    ((m.renamed ρ σ).graphs.findSome? fun g => g.nav.qnameById[ρ id]?) =
      m.graphs.findSome? fun g => g.nav.qnameById[id]? := by
  rw [renamed_graphs, List.findSome?_map]
  congr 1
  funext g
  exact IdMap.rename_get ρ g.nav.qnameById id

theorem renamed_rank (id : NodeId) : (m.renamed ρ σ).rank (ρ id) = m.rank id := by
  unfold MergedGraph.rank MergedGraph.isDeclaration
  rw [renamed_kind, renamed_degree]

theorem renamed_tieHead (id : NodeId) : (m.renamed ρ σ).tieHead (ρ id) = m.tieHead id := by
  unfold MergedGraph.tieHead
  rw [renamed_kind, renamed_qname, renamed_graphs, List.findIdx?_map]
  congr 4
  funext g
  exact renamed_knows ρ σ g id

theorem renamed_placeIn (i : Nat) (id : NodeId) :
    (m.renamed ρ σ).placeIn i (ρ id) = m.placeIn i id := by
  unfold MergedGraph.placeIn
  rw [renamed_graphs, List.getElem?_map]
  cases m.graphs[i]? with
  | none => rfl
  | some g =>
    have nodes : (g.renamed ρ σ).nodes = g.nodes.map (Node.rename ρ) := rfl
    rw [Option.map_some, Option.bind_some, Option.bind_some, nodes, List.findIdx?_map]
    congr 2
    funext n
    rw [Function.comp, Bool.eq_iff_iff, beq_iff_eq, beq_iff_eq]
    exact ρ.injective.eq_iff

theorem MergedGraph.Placed.place {id : NodeId} (h : m.Placed id) :
    ∃ g, m.graphs[(m.tieHead id).2.2]? = some g ∧
      (g.nodes.map Node.id)[m.placeIn (m.tieHead id).2.2 id]? = some id := by
  obtain ⟨g, found, listed⟩ := h
  have known : g.nav.knows id = true := (List.find?_eq_some_iff_append.mp found).1
  have index := List.findIdx?_eq_some_of_exists (p := fun g : RepoGraph => g.nav.knows id)
    ⟨g, List.mem_of_find?_eq_some found, known⟩
  have graph : m.graphs[(m.tieHead id).2.2]? = some g := by
    unfold MergedGraph.tieHead
    dsimp only
    rw [index, Option.getD_some, ← List.find?_eq_getElem?_findIdx, found]
  obtain ⟨n, mem, own⟩ := List.mem_map.mp listed
  have place := List.findIdx?_eq_some_of_exists (p := fun n : Node => n.id == id)
    ⟨n, mem, beq_iff_eq.mpr own⟩
  refine ⟨g, graph, ?_⟩
  rw [MergedGraph.placeIn, graph, Option.bind_some, place, Option.getD_some, List.getElem?_map,
    ← List.find?_eq_getElem?_findIdx]
  cases at_ : g.nodes.find? fun n => n.id == id with
  | none => exact absurd (List.find?_eq_none.mp at_ n mem) (not_not.mpr (beq_iff_eq.mpr own))
  | some n' =>
    have own' := List.find?_some at_
    rw [Option.map_some, beq_iff_eq.mp own']

theorem renamed_tieCmp {a b : NodeId} (left : m.Placed a) (right : m.Placed b) :
    (m.renamed ρ σ).tieCmp (ρ a) (ρ b) = m.tieCmp a b := by
  unfold MergedGraph.tieCmp
  by_cases same : a = b
  · rw [if_pos same, if_pos (congrArg ρ same)]
  · rw [if_neg same, if_neg fun eq => same (ρ.injective eq)]
    dsimp only
    rw [renamed_tieHead, renamed_tieHead, renamed_placeIn, renamed_placeIn]
    -- with equal heads one graph lists both nodes, each at a place of its own
    have apart : m.tieHead a = m.tieHead b →
        compare (m.placeIn (m.tieHead a).2.2 a) (m.placeIn (m.tieHead a).2.2 b) ≠ .eq := by
      intro heads eq
      obtain ⟨g, graph, place⟩ := left.place
      obtain ⟨g', graph', place'⟩ := right.place
      rw [← heads, graph] at graph'
      cases graph'
      rw [← heads, ← Std.compare_eq_iff_eq.mp eq, place] at place'
      exact same (Option.some.inj place')
    have heads : compareLex (compareOn Prod.fst) (compareLex (compareOn fun h => h.2.1)
        (compareOn fun h => h.2.2)) (m.tieHead a) (m.tieHead b) = .eq →
        m.tieHead a = m.tieHead b := by
      intro eq
      rw [lex_eq, lex_eq, on_eq, on_eq, on_eq] at eq
      exact Prod.ext eq.1 (Prod.ext eq.2.1 eq.2.2)
    cases first : compareLex (compareOn Prod.fst) (compareLex (compareOn fun h => h.2.1)
        (compareOn fun h => h.2.2)) (m.tieHead a) (m.tieHead b) with
    | lt => rfl
    | gt => rfl
    | eq =>
      cases second : compare (m.placeIn (m.tieHead a).2.2 a) (m.placeIn (m.tieHead a).2.2 b) with
      | lt => rfl
      | gt => rfl
      | eq => exact absurd second (apart (heads first))

theorem renamed_topTied {c : List NodeId} (placed : ∀ id ∈ c, m.Placed id) :
    (m.renamed ρ σ).topTied (c.map ρ) = (m.topTied c).map ρ := by
  have ranks : (c.map ρ).map (m.renamed ρ σ).rank = c.map m.rank := by
    rw [List.map_map]
    exact List.map_congr_left fun id _ => renamed_rank ρ σ m id
  unfold MergedGraph.topTied
  rw [ranks]
  cases (c.map m.rank).max? with
  | none => rfl
  | some top =>
    have kept : (c.map ρ).filter (fun id => (m.renamed ρ σ).rank id = top) =
        (c.filter fun id => m.rank id = top).map ρ := by
      rw [List.filter_map]
      congr 1
      refine List.filter_congr fun id _ => ?_
      rw [Function.comp, renamed_rank]
    dsimp only
    rw [kept, Glia.Kit.Ranking.sortBy_map fun a left b right => renamed_tieCmp ρ σ m
      (placed a (List.mem_filter.mp left).1) (placed b (List.mem_filter.mp right).1),
      Glia.Kit.Ranking.dedup_map ρ.injective]

theorem renamed_pickPrimaryTied {c : List NodeId} (placed : ∀ id ∈ c, m.Placed id) :
    (m.renamed ρ σ).pickPrimaryTied (c.map ρ) =
      ((m.pickPrimaryTied c).1.map ρ, (m.pickPrimaryTied c).2) := by
  rw [MergedGraph.pickPrimaryTied_eq, MergedGraph.pickPrimaryTied_eq, renamed_topTied ρ σ m placed,
    List.head?_map, List.length_map]

theorem IdMap.rename_toList (map : IdMap String) :
    (IdMap.rename ρ map).toList.Perm (map.toList.map fun e => (ρ e.1, e.2)) := by
  have once : ∀ map : IdMap String, map.toList.Nodup := fun map =>
    map.distinct_keys_toList.imp fun {a b} apart same => by
      subst same
      exact apart (Std.ReflCmp.compare_self)
  have apart : (map.toList.map fun e => (ρ e.1, e.2)).Nodup := by
    refine (once map).map fun a b same => ?_
    obtain ⟨key, value⟩ := Prod.mk.inj same
    exact Prod.ext (ρ.injective key) value
  refine (List.perm_ext_iff_of_nodup (once _) apart).mpr fun ⟨k, v⟩ => ?_
  rw [Glia.Kit.OrdMap.mem_toList, List.mem_map]
  constructor
  · intro held
    by_cases named : ∃ id, ρ id = k
    · obtain ⟨id, rfl⟩ := named
      rw [IdMap.rename_get] at held
      exact ⟨(id, v), Glia.Kit.OrdMap.mem_toList.mpr held, rfl⟩
    · have out : (IdMap.rename ρ map)[k]? = none := by
        apply Std.ExtTreeMap.getElem?_ofList_of_contains_eq_false
        rw [List.contains_eq_mem, decide_eq_false_iff_not]
        intro mem
        obtain ⟨p, listed, eq⟩ := List.mem_map.mp mem
        obtain ⟨e, _, rfl⟩ := List.mem_map.mp listed
        exact named ⟨e.1, eq⟩
      rw [out] at held
      cases held
  · rintro ⟨e, mem, eq⟩
    cases eq
    rw [IdMap.rename_get]
    exact Glia.Kit.OrdMap.mem_toList.mp mem

theorem renamed_exactHits (maps : List (IdMap String)) (name : String) :
    (MergedGraph.exactHits ((maps.map (IdMap.rename ρ)).map fun map => map.toList) name).Perm
      ((MergedGraph.exactHits (maps.map fun map => map.toList) name).map ρ) := by
  unfold MergedGraph.exactHits
  induction maps with
  | nil => exact List.Perm.nil
  | cons map maps ih =>
    rw [List.map_cons, List.map_cons, List.map_cons, List.flatMap_cons, List.flatMap_cons,
      List.map_append]
    refine List.Perm.append ?_ ih
    refine (((IdMap.rename_toList ρ map).filter _).map Prod.fst).trans (List.Perm.of_eq ?_)
    rw [List.filter_map, List.map_map, List.map_map]
    rfl

theorem renamed_exactBy {field : CodeNav → IdMap String}
    (carried : ∀ nav : CodeNav, field (nav.rename ρ) = IdMap.rename ρ (field nav)) {name : String}
    (placed : ∀ id ∈ m.exactBy field name, m.Placed id) :
    (m.renamed ρ σ).exactBy field name = (m.exactBy field name).map ρ := by
  have hits := renamed_exactHits ρ (m.graphs.map fun g => field g.nav) name
  have tables : (m.renamed ρ σ).graphs.map (fun g => (field g.nav).toList) =
      ((m.graphs.map fun g => field g.nav).map (IdMap.rename ρ)).map fun map => map.toList := by
    rw [renamed_graphs, List.map_map, List.map_map, List.map_map]
    refine List.map_congr_left fun g _ => ?_
    exact congrArg (fun map => map.toList) (carried g.nav)
  have lists : (m.graphs.map fun g => field g.nav).map (fun map => map.toList) =
      m.graphs.map fun g => (field g.nav).toList := List.map_map
  rw [lists] at hits
  unfold MergedGraph.exactBy MergedGraph.exactIn at placed ⊢
  rw [tables, Glia.Kit.Ranking.sortBy_congr hits]
  refine Glia.Kit.Ranking.sortBy_map fun a left b right => ?_
  exact renamed_tieCmp ρ σ m (placed a (Glia.Kit.Ranking.mem_sortBy.mpr left))
    (placed b (Glia.Kit.Ranking.mem_sortBy.mpr right))

/-- What is picked and looked up depends on neither the order nor the repeats of what it is read
from, and on no id. -/
structure Portable : Prop where
  candidates : ∀ c c', (∀ id, id ∈ c ↔ id ∈ c') → m.pickPrimaryTied c = m.pickPrimaryTied c'
  names : ∀ tables name, MergedGraph.Listing (m.graphs.map fun g => g.nav.nameById) tables →
    m.exactIn tables name = m.namesExact name
  qnames : ∀ tables qname, MergedGraph.Listing (m.graphs.map fun g => g.nav.qnameById) tables →
    m.exactIn tables qname = m.qnamesExact qname
  pick : ∀ c, (∀ id ∈ c, m.Placed id) → (m.renamed ρ σ).pickPrimaryTied (c.map ρ) =
    ((m.pickPrimaryTied c).1.map ρ, (m.pickPrimaryTied c).2)
  namesRenamed : ∀ name, (∀ id ∈ m.namesExact name, m.Placed id) →
    (m.renamed ρ σ).namesExact name = (m.namesExact name).map ρ ∧
      (m.renamed ρ σ).resolveName name = (m.resolveName name).map ρ
  qnamesRenamed : ∀ qname, (∀ id ∈ m.qnamesExact qname, m.Placed id) →
    (m.renamed ρ σ).qnamesExact qname = (m.qnamesExact qname).map ρ ∧
      (m.renamed ρ σ).nodeIdByQname qname = (m.nodeIdByQname qname).map ρ

/-- Choosing a primary and the exact-name lookups depend on no order and no id. -/
theorem primary_portable : Portable ρ σ m where
  candidates c c' same := m.pickPrimaryTied_congr same
  names tables name listed := m.exactIn_listing listed name
  qnames tables qname listed := m.exactIn_listing listed qname
  pick c placed := renamed_pickPrimaryTied ρ σ m placed
  namesRenamed name placed := by
    have hits : (m.renamed ρ σ).namesExact name = (m.namesExact name).map ρ :=
      renamed_exactBy ρ σ m (fun _ => rfl) placed
    refine ⟨hits, ?_⟩
    rw [MergedGraph.resolveName, hits, MergedGraph.pickPrimary,
      renamed_pickPrimaryTied ρ σ m placed]
    rfl
  qnamesRenamed qname placed := by
    have hits : (m.renamed ρ σ).qnamesExact qname = (m.qnamesExact qname).map ρ :=
      renamed_exactBy ρ σ m (fun _ => rfl) placed
    refine ⟨hits, ?_⟩
    rw [MergedGraph.nodeIdByQname, hits, MergedGraph.pickPrimary,
      renamed_pickPrimaryTied ρ σ m placed]
    rfl

end Renamed

def twoClones : MergedGraph where
  graphs :=
    [⟨1, [⟨5, .strong, []⟩, ⟨9, .strong, []⟩], [],
        ⟨.ofList [(5, "User"), (9, "User")] compare, .ofList [(5, "a::User"), (9, "a::User")] compare,
          .ofList [(5, 2), (9, 2)] compare, ∅⟩⟩,
      ⟨2, [⟨3, .strong, []⟩], [], ⟨.ofList [(3, "User")] compare, .ofList [(3, "a::User")] compare,
        .ofList [(3, 2)] compare, ∅⟩⟩]

/-- With the ids the other way round the same node is picked. -/
theorem primary_portable_twoClones :
    (twoClones.renamed (Equiv.swap 3 5).toEmbedding (.refl Nat)).pickPrimaryTied [3, 9, 5] =
      (((twoClones.pickPrimaryTied [5, 9, 3]).1.map (Equiv.swap 3 5)),
        (twoClones.pickPrimaryTied [5, 9, 3]).2) :=
  (primary_portable (Equiv.swap 3 5).toEmbedding (.refl Nat) twoClones).pick [5, 9, 3]
    (by decide +kernel)

end Glia.Graph
