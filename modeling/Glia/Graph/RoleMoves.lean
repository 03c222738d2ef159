import Glia.Graph.RoleFold

/-! What folding moves: no base is an overlay, so one replacement leaves no overlay's id behind. -/
namespace Glia.Graph

variable {F : Type}

section Pairs
variable {remap : List (NodeId × NodeId)}

structure Replaces (remap : List (NodeId × NodeId)) : Prop where
  base : ∀ p ∈ remap, baseId remap p.1 = some p.2
  free : ∀ p ∈ remap, baseId remap p.2 = none

theorem baseId_mem {id b : NodeId} (found : baseId remap id = some b) : (id, b) ∈ remap := by
  obtain ⟨before, after, split, _⟩ := List.lookup_eq_some_iff.mp found
  have mem : (id, b) ∈ remap.reverse := by rw [split]; exact List.mem_append_cons_self
  exact List.mem_reverse.mp mem

theorem baseId_none_iff {id : NodeId} : baseId remap id = none ↔ ∀ p ∈ remap, p.1 ≠ id := by
  rw [baseId, List.lookup_eq_none_iff]
  refine forall_congr' fun p => imp_congr List.mem_reverse ?_
  rw [bne_iff_ne, ne_comm]

theorem baseId_isSome_iff {id : NodeId} :
    (baseId remap id).isSome ↔ ∃ p ∈ remap, p.1 = id := by
  rw [Option.isSome_iff_ne_none, ne_eq, baseId_none_iff]
  simp

theorem movedId_none {id : NodeId} (stands : baseId remap id = none) : movedId remap id = id := by
  rw [movedId, stands, Option.getD_none]

theorem movedId_some {id b : NodeId} (found : baseId remap id = some b) :
    movedId remap id = b := by rw [movedId, found, Option.getD_some]

namespace Replaces
variable (paired : Replaces remap)
include paired

theorem apart {p p' : NodeId × NodeId} (mem : p ∈ remap) (mem' : p' ∈ remap) : p.1 ≠ p'.2 :=
  baseId_none_iff.mp (paired.free p' mem') p mem

theorem same {p p' : NodeId × NodeId} (mem : p ∈ remap) (mem' : p' ∈ remap) (eq : p.1 = p'.1) :
    p.2 = p'.2 := by
  have base := paired.base p mem
  rw [eq, paired.base p' mem'] at base
  exact (Option.some.inj base).symm

theorem free_of {id b : NodeId} (found : baseId remap id = some b) : baseId remap b = none :=
  paired.free (id, b) (baseId_mem found)

theorem movedId_stands (id : NodeId) : baseId remap (movedId remap id) = none := by
  cases found : baseId remap id with
  | none => rw [movedId_none found, found]
  | some b => rw [movedId_some found, paired.free_of found]

end Replaces

end Pairs

section Bases
namespace BuiltGraph
variable {g : BuiltGraph F}

theorem mem_sharing {q : String} {i k : Nat} :
    (i, k) ∈ g.sharing q ↔ ∃ n, g.nodes[i]? = some n ∧ g.nav.qnameById[n.id]? = some q ∧
      g.nav.kindById[n.id]? = some k := by
  rw [sharing, List.mem_filterMap]
  constructor
  · rintro ⟨⟨n, j⟩, listed, eq⟩
    obtain ⟨q', named, rest⟩ := Option.bind_eq_some_iff.mp eq
    obtain ⟨k', kinded, same⟩ := Option.bind_eq_some_iff.mp rest
    split at same
    · rename_i here
      cases same
      exact ⟨n, List.mem_zipIdx_iff_getElem?.mp listed, here ▸ named, kinded⟩
    · cases same
  · rintro ⟨n, listed, named, kinded⟩
    refine ⟨(n, i), List.mem_zipIdx_iff_getElem?.mpr listed, ?_⟩
    simp [named, kinded]

theorem baseOf_spec {q : String} {i : Nat} (found : g.baseOf q = some i) :
    ∃ n k, g.nodes[i]? = some n ∧ g.nav.qnameById[n.id]? = some q ∧
      g.nav.kindById[n.id]? = some k ∧ k ∈ basePriority := by
  obtain ⟨e, least, rfl⟩ := Option.map_eq_some_iff.mp found
  obtain ⟨⟨j, k⟩, listed, ranked⟩ := List.mem_filterMap.mp (List.min?_mem least)
  obtain ⟨p, place, rfl⟩ := Option.map_eq_some_iff.mp ranked
  obtain ⟨n, at_, named, kinded⟩ := mem_sharing.mp listed
  obtain ⟨within, same, _⟩ := List.idxOf?_eq_some_iff.mp place
  exact ⟨n, k, at_, named, kinded, by rw [← show _ = k from same]; exact List.getElem_mem within⟩

theorem mem_folds {f : RoleFold} : f ∈ g.folds ↔ ∃ n q, g.nodes[f.overlay]? = some n ∧
    g.nav.kindById[n.id]? = some f.kind ∧ f.kind ∈ roleKinds ∧
    g.nav.qnameById[n.id]? = some q ∧ g.baseOf q = some f.base := by
  rw [folds, List.mem_filterMap]
  constructor
  · rintro ⟨⟨n, i⟩, listed, eq⟩
    obtain ⟨kind, role, rest⟩ := Option.bind_eq_some_iff.mp eq
    obtain ⟨q, named, rest⟩ := Option.bind_eq_some_iff.mp rest
    obtain ⟨base, found, rfl⟩ := Option.map_eq_some_iff.mp rest
    obtain ⟨kinded, known⟩ := Option.filter_eq_some_iff.mp role
    exact ⟨n, q, List.mem_zipIdx_iff_getElem?.mp listed, kinded,
      List.contains_iff_mem.mp known, named, found⟩
  · rintro ⟨n, q, listed, kinded, known, named, found⟩
    refine ⟨(n, f.overlay), List.mem_zipIdx_iff_getElem?.mpr listed, ?_⟩
    have role : g.roleKind n = some f.kind :=
      Option.filter_eq_some_iff.mpr ⟨kinded, List.contains_iff_mem.mpr known⟩
    simp [foldAt, role, named, found]

theorem idAt_some {i : Nat} {n : Node} (at_ : g.nodes[i]? = some n) : g.idAt i = n.id := by
  rw [idAt, at_, Option.map_some, Option.getD_some]

theorem base_no_role : ∀ k ∈ basePriority, k ∉ roleKinds := by decide

theorem base_unique {f f' : RoleFold} (mem : f ∈ g.folds) (mem' : f' ∈ g.folds)
    (same : g.idAt f.overlay = g.idAt f'.overlay) : f.base = f'.base := by
  obtain ⟨n, q, at_, _, _, named, found⟩ := mem_folds.mp mem
  obtain ⟨n', q', at_', _, _, named', found'⟩ := mem_folds.mp mem'
  rw [idAt_some at_, idAt_some at_'] at same
  rw [same] at named
  cases named.symm.trans named'
  exact Option.some.inj (found.symm.trans found')

theorem base_apart {f f' : RoleFold} (mem : f ∈ g.folds) (mem' : f' ∈ g.folds) :
    g.idAt f.overlay ≠ g.idAt f'.base := by
  intro same
  obtain ⟨n, q, at_, kinded, known, _, _⟩ := mem_folds.mp mem
  obtain ⟨n', q', _, _, _, _, found⟩ := mem_folds.mp mem'
  obtain ⟨b, k, based, _, declared, prior⟩ := baseOf_spec found
  rw [idAt_some at_, idAt_some based] at same
  rw [same] at kinded
  cases kinded.symm.trans declared
  exact base_no_role _ prior known

theorem mem_remap {p : NodeId × NodeId} :
    p ∈ g.remap ↔ ∃ f ∈ g.folds, (g.idAt f.overlay, g.idAt f.base) = p := List.mem_map

theorem replaces : Replaces g.remap where
  base p mem := by
    obtain ⟨f, folded, rfl⟩ := mem_remap.mp mem
    cases found : baseId g.remap (g.idAt f.overlay) with
    | none => exact absurd rfl (baseId_none_iff.mp found _ mem)
    | some b =>
      obtain ⟨f', folded', eq⟩ := mem_remap.mp (baseId_mem found)
      have overlays : g.idAt f'.overlay = g.idAt f.overlay := congrArg Prod.fst eq
      have bases : g.idAt f'.base = b := congrArg Prod.snd eq
      rw [← bases, base_unique folded' folded overlays]
  free p mem := by
    obtain ⟨f, folded, rfl⟩ := mem_remap.mp mem
    refine baseId_none_iff.mpr fun p' mem' => ?_
    obtain ⟨f', folded', rfl⟩ := mem_remap.mp mem'
    exact base_apart folded' folded

end BuiltGraph

end Bases

section Edges
variable {remap : List (NodeId × NodeId)}

def movedEdges (remap : List (NodeId × NodeId)) (edges : List Edge) : List (Edge × Bool) :=
  edges.map fun e => (remapEdge remap e, rewritten remap e)

/-- What an edge that changed must meet to stay: no loop, no CONTAINS beside a DEFINES, no edge
that stood there, none moved there before it. -/
def stays (moved : List (Edge × Bool)) (p : (Edge × Bool) × Nat) : Bool :=
  !p.1.2 || decide (p.1.1.fromId ≠ p.1.1.toId ∧
    ¬(p.1.1.category = containsCategory ∧ ∃ d ∈ moved, d.1.category = EdgeCategory.defines ∧
      d.1.fromId = p.1.1.fromId ∧ d.1.toId = p.1.1.toId) ∧
    (∀ u ∈ moved, u.2 = false → edgeTriple u.1 ≠ edgeTriple p.1.1) ∧
    ∀ u ∈ moved.take p.2, u.2 = true → edgeTriple u.1 ≠ edgeTriple p.1.1)

theorem remapEdge_untouched {e : Edge} (still : rewritten remap e = false) :
    remapEdge remap e = e := by
  have both := Bool.or_eq_false_iff.mp still
  have left := Option.isSome_eq_false_iff.mp both.1
  have right := Option.isSome_eq_false_iff.mp both.2
  rw [remapEdge, movedId_none (Option.isNone_iff_eq_none.mp left),
    movedId_none (Option.isNone_iff_eq_none.mp right)]

/-- What decides by an edge's ends and category alone. -/
def Fits (untouched : List EdgeTriple) (defines : List (NodeId × NodeId)) (t : EdgeTriple) : Prop :=
  t.1 ≠ t.2.1 ∧ ¬(t.2.2 = containsCategory ∧ (t.1, t.2.1) ∈ defines) ∧ t ∉ untouched

instance (untouched : List EdgeTriple) (defines : List (NodeId × NodeId)) (t : EdgeTriple) :
    Decidable (Fits untouched defines t) := inferInstanceAs (Decidable (_ ∧ _))

theorem keepMoved_moved {untouched : List EdgeTriple} {defines : List (NodeId × NodeId)}
    {seen : List EdgeTriple} {e : Edge} {rest : List (Edge × Bool)} :
    keepMoved untouched defines seen ((e, true) :: rest) =
      if Fits untouched defines (edgeTriple e) ∧ edgeTriple e ∉ seen then
        e :: keepMoved untouched defines (edgeTriple e :: seen) rest
      else keepMoved untouched defines seen rest := by
  rw [keepMoved, Bool.not_true, if_neg Bool.false_ne_true]
  refine if_congr ?_ rfl rfl
  unfold Fits edgeTriple
  tauto

theorem keepMoved_filter {untouched : List EdgeTriple} {defines : List (NodeId × NodeId)}
    {keep : (Edge × Bool) × Nat → Bool} (before rest : List (Edge × Bool))
    (still : ∀ e i, keep ((e, false), i) = true)
    (kept : ∀ e i, keep ((e, true), i) = true ↔ Fits untouched defines (edgeTriple e) ∧
      ∀ u ∈ (before ++ rest).take i, u.2 = true → edgeTriple u.1 ≠ edgeTriple e)
    {seen : List EdgeTriple} (known : ∀ t, Fits untouched defines t →
      (t ∈ seen ↔ ∃ u ∈ before, u.2 = true ∧ edgeTriple u.1 = t)) :
    keepMoved untouched defines seen rest =
      ((rest.zipIdx before.length).filter keep).map fun p => p.1.1 := by
  induction rest generalizing before seen with
  | nil => rfl
  | cons u rest ih =>
    obtain ⟨e, moved⟩ := u
    have next : before ++ (e, moved) :: rest = (before ++ [(e, moved)]) ++ rest := by simp
    have length : (before ++ [(e, moved)]).length = before.length + 1 := by simp
    have tail := fun {seen : List EdgeTriple} => @ih (before ++ [(e, moved)])
      (fun e' i => by rw [← next]; exact kept e' i) seen
    rw [length] at tail
    rw [List.zipIdx_cons]
    cases moved with
    | false =>
      rw [List.filter_cons_of_pos (by exact still e _), List.map_cons, keepMoved, Bool.not_false,
        if_pos rfl]
      congr 1
      refine tail fun t fits => (known t fits).trans ?_
      simp
    | true =>
      have here := kept e before.length
      rw [List.take_left] at here
      rw [keepMoved_moved]
      by_cases fits : Fits untouched defines (edgeTriple e)
      · have fresh : edgeTriple e ∉ seen ↔
            ∀ u ∈ before, u.2 = true → edgeTriple u.1 ≠ edgeTriple e := by
          rw [known _ fits]
          simp
        by_cases first : edgeTriple e ∉ seen
        · rw [if_pos ⟨fits, first⟩,
            List.filter_cons_of_pos (by exact here.mpr ⟨fits, fresh.mp first⟩), List.map_cons]
          congr 1
          refine tail fun t fits' => ?_
          rw [List.mem_cons, known t fits']
          simp only [List.mem_append, List.mem_singleton]
          constructor
          · rintro (rfl | ⟨u, mem, was, eq⟩)
            · exact ⟨_, .inr rfl, rfl, rfl⟩
            · exact ⟨u, .inl mem, was, eq⟩
          · rintro ⟨u, mem | rfl, was, eq⟩
            · exact .inr ⟨u, mem, was, eq⟩
            · exact .inl eq.symm
        · rw [if_neg fun h => first h.2,
            List.filter_cons_of_neg (by exact fun h => first (fresh.mpr (here.mp h).2))]
          refine tail fun t fits' => (known t fits').trans ?_
          simp only [List.mem_append, List.mem_singleton]
          constructor
          · rintro ⟨u, mem, was, eq⟩
            exact ⟨u, .inl mem, was, eq⟩
          · rintro ⟨u, mem | rfl, was, eq⟩
            · exact ⟨u, mem, was, eq⟩
            · exact (known t fits').mp (eq ▸ not_not.mp first)
      · rw [if_neg fun h => fits h.1,
          List.filter_cons_of_neg (by exact fun h => fits (here.mp h).1)]
        refine tail fun t fits' => (known t fits').trans ?_
        simp only [List.mem_append, List.mem_singleton]
        constructor
        · rintro ⟨u, mem, was, eq⟩
          exact ⟨u, .inl mem, was, eq⟩
        · rintro ⟨u, mem | rfl, was, eq⟩
          · exact ⟨u, mem, was, eq⟩
          · exact absurd (eq ▸ fits') fits

theorem foldEdges_eq (edges : List Edge) : foldEdges remap edges =
    ((movedEdges remap edges).zipIdx.filter (stays (movedEdges remap edges))).map
      fun p => p.1.1 := by
  unfold foldEdges
  dsimp only
  rw [← movedEdges]
  generalize movedEdges remap edges = moved
  split
  · refine keepMoved_filter [] moved ?_ (fun e i => ?_) fun t _ => ?_
    · exact fun e i => rfl
    · rw [List.nil_append]
      unfold stays
      rw [Bool.not_true, Bool.false_or, decide_eq_true_iff, Fits]
      have doubles : (e.fromId, e.toId) ∈ (moved.filter fun e =>
          e.1.category = EdgeCategory.defines).map (fun e => (e.1.fromId, e.1.toId)) ↔
          ∃ d ∈ moved, d.1.category = EdgeCategory.defines ∧ d.1.fromId = e.fromId ∧
            d.1.toId = e.toId := by
        simp only [List.mem_map, List.mem_filter, decide_eq_true_eq, Prod.mk.injEq, and_assoc]
      have stood : edgeTriple e ∉ (moved.filter fun e => !e.2).map (fun e => edgeTriple e.1) ↔
          ∀ u ∈ moved, u.2 = false → edgeTriple u.1 ≠ edgeTriple e := by
        simp only [List.mem_map, List.mem_filter, Bool.not_eq_true', not_exists, not_and, and_imp]
      rw [show (edgeTriple e).1 = e.fromId from rfl, show (edgeTriple e).2.1 = e.toId from rfl,
        show (edgeTriple e).2.2 = e.category from rfl, doubles, stood, and_assoc, and_assoc]
    · simp
  · rename_i still
    have none : ∀ u ∈ moved, u.2 = false := by simpa using still
    have all : moved.zipIdx.filter (stays moved) = moved.zipIdx := by
      refine List.filter_eq_self.mpr fun p mem => ?_
      unfold stays
      rw [none p.1 (List.fst_mem_of_mem_zipIdx mem), Bool.not_false, Bool.true_or]
    rw [all, ← Function.comp_def Prod.fst, ← List.map_map, List.zipIdx_map_fst]

theorem foldEdges_untouched (edges : List Edge) :
    (edges.filter fun e => !rewritten remap e).Sublist (foldEdges remap edges) := by
  rw [foldEdges_eq]
  generalize whole : movedEdges remap edges = moved
  -- Over any stretch of the edges, for `stays` reads the whole list.
  suffices h : ∀ (l : List Edge) n, (l.filter fun e => !rewritten remap e).Sublist
      ((((movedEdges remap l).zipIdx n).filter (stays moved)).map fun p => p.1.1) by
    rw [← whole] at h ⊢
    exact h edges 0
  intro l
  unfold movedEdges
  induction l with
  | nil => exact fun n => .slnil
  | cons e l ih =>
    intro n
    rw [List.map_cons, List.zipIdx_cons, List.filter_cons, List.filter_cons]
    cases still : rewritten remap e with
    | false =>
      rw [Bool.not_false, if_pos rfl, if_pos (by rfl), List.map_cons, remapEdge_untouched still]
      exact (ih (n + 1)).cons_cons e
    | true =>
      rw [Bool.not_true, if_neg Bool.false_ne_true]
      split
      · rw [List.map_cons]
        exact (ih (n + 1)).cons _
      · exact ih (n + 1)

theorem foldEdges_mem {edges : List Edge} {e : Edge} (mem : e ∈ foldEdges remap edges) :
    ∃ old ∈ edges, e = remapEdge remap old := by
  rw [foldEdges_eq] at mem
  obtain ⟨p, kept, rfl⟩ := List.mem_map.mp mem
  have listed := List.fst_mem_of_mem_zipIdx (List.mem_filter.mp kept).1
  obtain ⟨old, held, eq⟩ := List.mem_map.mp listed
  exact ⟨old, held, by rw [← eq]⟩

end Edges

section Properties
variable {remap : List (NodeId × NodeId)}

theorem foldProperty_mem {properties : Finset NodeId} {p : NodeId × NodeId} {x : NodeId} :
    x ∈ foldProperty properties p ↔
      (x ∈ properties ∧ p.1 ≠ x) ∨ (p.1 ∈ properties ∧ p.2 = x) := by
  unfold foldProperty
  split
  · rw [Finset.mem_insert, Finset.mem_erase]
    grind
  · grind

/-- A stretch of the pairs folds: the overlays leave, the bases of those there come. -/
theorem foldProperties_mem (paired : Replaces remap) {part : List (NodeId × NodeId)}
    (within : ∀ p ∈ part, p ∈ remap) {properties : Finset NodeId} {x : NodeId} :
    x ∈ part.foldl foldProperty properties ↔
      (x ∈ properties ∧ ∀ p ∈ part, p.1 ≠ x) ∨ ∃ p ∈ part, p.1 ∈ properties ∧ p.2 = x := by
  induction part generalizing properties with
  | nil => simp
  | cons p part ih =>
    have here := within p List.mem_cons_self
    have later := fun q mem => within q (List.mem_cons_of_mem p mem)
    rw [List.foldl_cons, ih later]
    simp only [foldProperty_mem, List.forall_mem_cons]
    constructor
    · rintro (⟨held | moved, out⟩ | ⟨q, mem, held | ⟨_, eq⟩, rfl⟩)
      · exact .inl ⟨held.1, held.2, out⟩
      · exact .inr ⟨p, List.mem_cons_self, moved⟩
      · exact .inr ⟨q, List.mem_cons_of_mem p mem, held.1, rfl⟩
      · exact absurd eq.symm (paired.apart (later q mem) here)
    · rintro (⟨held, ne, out⟩ | ⟨q, mem, held, rfl⟩)
      · exact .inl ⟨.inl ⟨held, ne⟩, out⟩
      · have free : ∀ q' ∈ part, q'.1 ≠ p.2 := fun q' mem' => paired.apart (later q' mem') here
        rcases List.mem_cons.mp mem with rfl | rest
        · exact .inl ⟨.inr ⟨held, rfl⟩, free⟩
        · by_cases again : p.1 = q.1
          · have one := paired.same here (later q rest) again
            exact .inl ⟨.inr ⟨again ▸ held, one⟩, one ▸ free⟩
          · exact .inr ⟨q, rest, .inl ⟨held, again⟩, rfl⟩

theorem foldProperties_eq (paired : Replaces remap) (properties : Finset NodeId) :
    remap.foldl foldProperty properties = properties.image (movedId remap) := by
  ext x
  rw [foldProperties_mem paired fun p mem => mem, Finset.mem_image]
  constructor
  · rintro (⟨held, out⟩ | ⟨p, mem, held, rfl⟩)
    · exact ⟨x, held, movedId_none (baseId_none_iff.mpr out)⟩
    · exact ⟨p.1, held, movedId_some (paired.base p mem)⟩
  · rintro ⟨y, held, rfl⟩
    cases found : baseId remap y with
    | none =>
      rw [movedId_none found]
      exact .inl ⟨held, baseId_none_iff.mp found⟩
    | some b => exact .inr ⟨(y, b), baseId_mem found, held, (movedId_some found).symm⟩

end Properties

end Glia.Graph
