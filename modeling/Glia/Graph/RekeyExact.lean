import Glia.Graph.Rekey

/-! Re-keying a node moves every reference to it, save where a build-time record is kept under its
old id. -/
namespace Glia.Graph

open Glia.Kit

section Mentions
variable {F : Type}

def FullNav.Records (nav : FullNav F) (id : NodeId) : Prop :=
  nav.fieldTypes[id]?.isSome ∨ nav.localTypes[id]?.isSome ∨ nav.navFacts[id]?.isSome ∨
    nav.returnTypes[id]?.isSome ∨ nav.methodSigs[id]?.isSome

instance (nav : FullNav F) (id : NodeId) : Decidable (nav.Records id) :=
  inferInstanceAs (Decidable (_ ∨ _))

inductive FullNav.Mentions (nav : FullNav F) (id : NodeId) : Prop where
  | name (h : nav.nameById[id]?.isSome)
  | qname (h : nav.qnameById[id]?.isSome)
  | kind (h : nav.kindById[id]?.isSome)
  | child (h : nav.parentOf[id]?.isSome)
  | parent (k : NodeId) (h : nav.Up k id)
  | list (h : nav.childrenOf[id]?.isSome)
  | listed (p : NodeId) (h : id ∈ nav.kids p)
  | record (h : nav.Records id)

inductive FileParse.Mentions (fp : FileParse F) (id : NodeId) : Prop where
  | node (n : Node) (h : n ∈ fp.nodes) (eq : n.id = id)
  | edge (e : Edge) (h : e ∈ fp.edges) (eq : e.fromId = id ∨ e.toId = id)
  | ref (r : UnresolvedRef) (h : r ∈ fp.refs) (eq : r.fromId = id ∨ r.fromModule = id)
  | call (c : CallSite) (h : c ∈ fp.calls) (eq : c.fromId = id)
  | property (h : id ∈ fp.properties)
  | nav (h : fp.nav.Mentions id)

/-- What a map holds under `old` is under `new`, and the other keys keep their own. -/
structure KeyMoved {β : Type} (m m' : IdMap β) (old new : NodeId) : Prop where
  moved : m[old]?.isSome → m'[new]?.isSome
  others : ∀ k, k ≠ old → k ≠ new → m'[k]? = m[k]?

structure Rekeyed (fp fp' : FileParse F) (old new : NodeId) (qname : String) : Prop where
  gone : ¬fp'.Mentions old
  edges : fp'.edges = fp.edges.map (rekeyEdge old new)
  refs : fp'.refs = fp.refs.map (rekeyRef old new)
  calls : fp'.calls = fp.calls.map (rekeyCall old new)
  properties : fp'.properties = fp.properties.image (swapId old new)
  /-- In place where `new` was no node. -/
  nodes_fresh : (∀ n ∈ fp.nodes, n.id ≠ new) →
    fp'.nodes = fp.nodes.map fun n => { n with id := swapId old new n.id }
  /-- Into the entries of `new` where it was one. -/
  nodes_merged : (∃ n ∈ fp.nodes, n.id = new) →
    fp'.nodes.map (·.id) = (fp.nodes.map (·.id)).filter (· != old)
  nodes_others : fp'.nodes.filter (fun n => n.id != old && n.id != new) =
    fp.nodes.filter fun n => n.id != old && n.id != new
  cells : (fp'.nodes.flatMap (·.cells)).Perm (fp.nodes.flatMap (·.cells))
  tree : fp'.nav.Consistent
  parents : ∀ k, fp'.nav.parentOf[k]? =
    if k = old then none
    else if k = new then fp.nav.parentOf[new]?.or fp.nav.parentOf[old]?
    else fp.nav.parentOf[k]?.map (swapId old new)
  kids : ∀ p, fp'.nav.kids p =
    if p = old then []
    else if p = new then fp.nav.kids new ++ fp.nav.kids old
    else if fp.nav.parentOf[new]?.isSome then (fp.nav.kids p).filter (· != old)
    else (fp.nav.kids p).map (swapId old new)
  qname : fp'.nav.qnameById[new]? = some qname
  qnames : ∀ k, k ≠ old → k ≠ new → fp'.nav.qnameById[k]? = fp.nav.qnameById[k]?
  name : fp'.nav.nameById[new]? = fp.nav.nameById[new]?.or fp.nav.nameById[old]?
  names : ∀ k, k ≠ old → k ≠ new → fp'.nav.nameById[k]? = fp.nav.nameById[k]?
  kind : fp'.nav.kindById[new]? = fp.nav.kindById[new]?.or fp.nav.kindById[old]?
  kinds : ∀ k, k ≠ old → k ≠ new → fp'.nav.kindById[k]? = fp.nav.kindById[k]?
  fieldTypes : KeyMoved fp.nav.fieldTypes fp'.nav.fieldTypes old new
  localTypes : KeyMoved fp.nav.localTypes fp'.nav.localTypes old new
  navFacts : KeyMoved fp.nav.navFacts fp'.nav.navFacts old new
  returnTypes : KeyMoved fp.nav.returnTypes fp'.nav.returnTypes old new
  methodSigs : KeyMoved fp.nav.methodSigs fp'.nav.methodSigs old new

end Mentions

section Nodes
variable {old new : NodeId} {nodes : List Node}

theorem modify_middle {α : Type} (before after : List α) (x : α) (g : α → α) :
    (before ++ x :: after).modify before.length g = before ++ g x :: after := by
  induction before with
  | nil => rfl
  | cons a before ih => exact congrArg (a :: ·) ih

theorem findIdx?_split {α : Type} {p : α → Bool} {l : List α} {i : Nat}
    (found : l.findIdx? p = some i) :
    ∃ before x after, l = before ++ x :: after ∧ i = before.length ∧ p x = true := by
  induction l generalizing i with
  | nil => cases found
  | cons a l ih =>
    rw [List.findIdx?_cons] at found
    cases here : p a with
    | true =>
      rw [here, if_pos rfl] at found
      cases found
      exact ⟨[], a, l, rfl, rfl, here⟩
    | false =>
      rw [here, if_neg Bool.false_ne_true] at found
      obtain ⟨j, later, eq⟩ := Option.map_eq_some_iff.mp found
      obtain ⟨before, x, after, split, len, holds⟩ := ih later
      exact ⟨a :: before, x, after, by rw [split]; rfl, by rw [← eq, len]; rfl, holds⟩

theorem filter_emptied (l : List Node) :
    (l.map fun n => if n.id = old then { n with cells := [] } else n).filter (·.id != old) =
      l.filter (·.id != old) := by
  induction l with
  | nil => rfl
  | cons n l ih =>
    rw [List.map_cons, List.filter_cons, List.filter_cons, ih]
    by_cases own : n.id = old
    · rw [if_pos own]
      dsimp only
      rw [own, bne_self_eq_false, if_neg Bool.false_ne_true, if_neg Bool.false_ne_true]
    · rw [if_neg own]

/-- Merged: the first entry of `new` takes the cells, and the entries of `old` go. -/
theorem rekeyNodes_merged (ne : old ≠ new) (there : ∃ n ∈ nodes, n.id = new) :
    ∃ before n after, nodes = before ++ n :: after ∧ n.id = new ∧
      rekeyNodes nodes old new =
        before.filter (·.id != old) ++
          { n with cells := n.cells ++ (nodes.filter (·.id == old)).flatMap (·.cells) } ::
            after.filter (·.id != old) := by
  cases found : nodes.findIdx? (·.id == new) with
  | none =>
    obtain ⟨n, mem, eq⟩ := there
    have none_ := List.findIdx?_eq_none_iff.mp found n mem
    rw [eq, beq_self_eq_true] at none_
    cases none_
  | some i =>
    obtain ⟨before, n, after, split, len, is⟩ := findIdx?_split found
    have own : n.id = new := beq_iff_eq.mp is
    have other : n.id ≠ old := fun eq => ne (eq.symm.trans own)
    have stays : (n.id != old) = true := bne_iff_ne.mpr other
    refine ⟨before, n, after, split, own, ?_⟩
    rw [rekeyNodes, found]
    dsimp only
    generalize (nodes.filter (·.id == old)).flatMap (·.cells) = moved
    have place : (nodes.map fun n => if n.id = old then { n with cells := [] } else n).modify i
        (fun n => { n with cells := n.cells ++ moved }) =
        (before.map fun n => if n.id = old then { n with cells := [] } else n) ++
          { n with cells := n.cells ++ moved } ::
            after.map fun n => if n.id = old then { n with cells := [] } else n := by
      rw [split, List.map_append, List.map_cons, if_neg other, len]
      have at_ := modify_middle (before.map fun n => if n.id = old then { n with cells := [] } else n)
        (after.map fun n => if n.id = old then { n with cells := [] } else n) n
        (fun n : Node => { n with cells := n.cells ++ moved })
      rw [List.length_map] at at_
      exact at_
    rw [place, List.filter_append, List.filter_cons, if_pos stays, filter_emptied, filter_emptied]

theorem rekeyNodes_fresh (fresh : ∀ n ∈ nodes, n.id ≠ new) :
    rekeyNodes nodes old new = nodes.map fun n => { n with id := swapId old new n.id } := by
  have none_ : nodes.findIdx? (·.id == new) = none :=
    List.findIdx?_eq_none_iff.mpr fun n mem => beq_false_of_ne (fresh n mem)
  rw [rekeyNodes, none_]

theorem rekeyNodes_gone (ne : old ≠ new) : ∀ n ∈ rekeyNodes nodes old new, n.id ≠ old := by
  intro n mem
  rw [rekeyNodes] at mem
  split at mem
  · exact bne_iff_ne.mp (List.mem_filter.mp mem).2
  · obtain ⟨m, _, eq⟩ := List.mem_map.mp mem
    rw [← eq]
    exact swapId_ne_old ne m.id

theorem rekeyNodes_ids (ne : old ≠ new) (there : ∃ n ∈ nodes, n.id = new) :
    (rekeyNodes nodes old new).map (·.id) = (nodes.map (·.id)).filter (· != old) := by
  obtain ⟨before, n, after, split, own, eq⟩ := rekeyNodes_merged ne there
  have stays : (n.id != old) = true := bne_iff_ne.mpr fun eq => ne (eq.symm.trans own)
  rw [eq]
  generalize (nodes.filter (·.id == old)).flatMap (·.cells) = moved
  rw [split, List.map_append, List.map_cons, List.map_append, List.map_cons,
    List.filter_append, List.filter_cons, if_pos stays, List.filter_map, List.filter_map]
  rfl

theorem rekeyNodes_others (ne : old ≠ new) :
    (rekeyNodes nodes old new).filter (fun n => n.id != old && n.id != new) =
      nodes.filter fun n => n.id != old && n.id != new := by
  by_cases there : ∃ n ∈ nodes, n.id = new
  · obtain ⟨before, n, after, split, own, eq⟩ := rekeyNodes_merged ne there
    have leaves : ¬(n.id != old && n.id != new) = true := by
      rw [own, bne_self_eq_false, Bool.and_false]
      exact Bool.false_ne_true
    have twice : ∀ l : List Node, (l.filter (·.id != old)).filter
        (fun n => n.id != old && n.id != new) = l.filter fun n => n.id != old && n.id != new := by
      intro l
      rw [List.filter_filter]
      exact List.filter_congr fun n _ => by cases n.id != old <;> simp
    rw [eq, List.filter_append, List.filter_cons, if_neg leaves, twice, twice, split,
      List.filter_append, List.filter_cons, if_neg leaves]
  · have fresh : ∀ n ∈ nodes, n.id ≠ new := fun n mem own => there ⟨n, mem, own⟩
    rw [rekeyNodes_fresh fresh]
    clear fresh there
    induction nodes with
    | nil => rfl
    | cons n l ih =>
      rw [List.map_cons, List.filter_cons, List.filter_cons, ih]
      dsimp only
      by_cases own : n.id = old
      · rw [own, swapId_self, bne_self_eq_false, bne_self_eq_false, Bool.and_false, Bool.false_and]
        rfl
      · rw [swapId_ne own]

theorem rekeyNodes_cells (ne : old ≠ new) :
    ((rekeyNodes nodes old new).flatMap (·.cells)).Perm (nodes.flatMap (·.cells)) := by
  by_cases there : ∃ n ∈ nodes, n.id = new
  · obtain ⟨before, n, after, split, own, eq⟩ := rekeyNodes_merged ne there
    have stays : (n.id != old) = true := bne_iff_ne.mpr fun eq => ne (eq.symm.trans own)
    have kept : nodes.filter (·.id != old) =
        before.filter (·.id != old) ++ n :: after.filter (·.id != old) := by
      rw [split, List.filter_append, List.filter_cons, if_pos stays]
    have parts := (List.filter_append_perm (·.id != old) nodes).flatMap_right (·.cells)
    have rest : (nodes.filter fun n => !(n.id != old)) = nodes.filter (·.id == old) :=
      List.filter_congr fun n _ => by rw [bne, Bool.not_not]
    rw [rest, kept] at parts
    refine List.Perm.trans ?_ parts
    rw [eq]
    simp only [List.flatMap_append, List.flatMap_cons, List.append_assoc]
    refine List.Perm.append_left _ (List.Perm.append_left _ ?_)
    exact List.perm_append_comm
  · have fresh : ∀ n ∈ nodes, n.id ≠ new := fun n mem own => there ⟨n, mem, own⟩
    rw [rekeyNodes_fresh fresh, List.flatMap_map]

end Nodes

section Nav
variable {F : Type} {nav nav' : FullNav F} {old new : NodeId}

structure SameRecords (nav nav' : FullNav F) : Prop where
  nameById : nav'.nameById = nav.nameById
  qnameById : nav'.qnameById = nav.qnameById
  kindById : nav'.kindById = nav.kindById
  fieldTypes : nav'.fieldTypes = nav.fieldTypes
  localTypes : nav'.localTypes = nav.localTypes
  navFacts : nav'.navFacts = nav.navFacts
  returnTypes : nav'.returnTypes = nav.returnTypes
  methodSigs : nav'.methodSigs = nav.methodSigs

theorem SameRecords.trans {nav nav' nav'' : FullNav F} (first : SameRecords nav nav')
    (second : SameRecords nav' nav'') : SameRecords nav nav'' :=
  ⟨second.nameById.trans first.nameById, second.qnameById.trans first.qnameById,
    second.kindById.trans first.kindById, second.fieldTypes.trans first.fieldTypes,
    second.localTypes.trans first.localTypes, second.navFacts.trans first.navFacts,
    second.returnTypes.trans first.returnTypes, second.methodSigs.trans first.methodSigs⟩

theorem handOverParent_records (nav : FullNav F) (old new : NodeId) :
    SameRecords nav (handOverParent nav old new) := by
  rw [handOverParent]
  cases nav.parentOf[old]? with
  | none => constructor <;> rfl
  | some p => constructor <;> rfl

theorem handOverChildren_records (nav : FullNav F) (old new : NodeId) :
    SameRecords nav (handOverChildren nav old new) := by
  rw [handOverChildren]
  cases nav.childrenOf[old]? with
  | none => constructor <;> rfl
  | some kids => constructor <;> rfl

theorem handOver_records (nav : FullNav F) (old new : NodeId) :
    SameRecords nav (handOver nav old new) :=
  (handOverParent_records nav old new).trans (handOverChildren_records _ old new)

theorem handOver_unlisted (ne : old ≠ new) : (handOver nav old new).childrenOf[old]? = none := by
  rw [handOver, handOverChildren]
  cases listed : (handOverParent nav old new).childrenOf[old]? with
  | none => exact listed
  | some kids =>
    dsimp only
    rw [OrdMap.get_insert, if_neg ne.symm, IdMap.get_erase, if_pos rfl]

/-- A display value survives its erasure and is given to `new`. -/
theorem kept_get {β : Type} (ne : old ≠ new) (m : IdMap β) (k : NodeId) :
    (match m[old]? with
      | none => m.erase old
      | some v => IdMap.orInsert (m.erase old) new v)[k]? =
      if k = old then none else if k = new then m[new]?.or m[old]? else m[k]? := by
  cases held : m[old]? with
  | none =>
    dsimp only
    rw [IdMap.get_erase, Option.or_none]
    by_cases first : k = old
    · rw [if_pos first, if_pos first.symm]
    · rw [if_neg first, if_neg (Ne.symm first)]
      split
      · rename_i second
        rw [second]
      · rfl
  | some v =>
    dsimp only
    rw [IdMap.get_orInsert, IdMap.get_erase]
    by_cases first : k = old
    · rw [if_pos first, if_pos first.symm, if_neg fun eq => ne (first.symm.trans eq.symm)]
    · rw [if_neg first, if_neg (Ne.symm first)]
      by_cases second : k = new
      · rw [if_pos second, if_pos second.symm, second]
      · rw [if_neg second, if_neg (Ne.symm second)]

theorem rekeyNav_name (ne : old ≠ new) (nav : FullNav F) (qname : String) (k : NodeId) :
    (rekeyNav nav old new qname).nameById[k]? =
      if k = old then none
      else if k = new then nav.nameById[new]?.or nav.nameById[old]? else nav.nameById[k]? := by
  rw [← kept_get ne nav.nameById k, rekeyNav, rewriteNodeId]
  dsimp only
  rw [(handOver_records (nav.retire old) old new).nameById]
  cases nav.nameById[old]? <;> rfl

theorem rekeyNav_kind (ne : old ≠ new) (nav : FullNav F) (qname : String) (k : NodeId) :
    (rekeyNav nav old new qname).kindById[k]? =
      if k = old then none
      else if k = new then nav.kindById[new]?.or nav.kindById[old]? else nav.kindById[k]? := by
  rw [← kept_get ne nav.kindById k, rekeyNav, rewriteNodeId]
  dsimp only
  rw [(handOver_records (nav.retire old) old new).kindById]
  cases nav.kindById[old]? <;> rfl

theorem rekeyNav_qname (nav : FullNav F) (qname : String) (k : NodeId) :
    (rekeyNav nav old new qname).qnameById[k]? =
      if new = k then some qname else if old = k then none else nav.qnameById[k]? := by
  have same := (handOver_records (nav.retire old) old new).qnameById
  rw [rekeyNav, rewriteNodeId]
  dsimp only
  rw [same, OrdMap.get_insert, FullNav.retire, IdMap.get_erase]

theorem rekeyNav_records (nav : FullNav F) (old new : NodeId) (qname : String) :
    (rekeyNav nav old new qname).fieldTypes = nav.fieldTypes ∧
      (rekeyNav nav old new qname).localTypes = nav.localTypes ∧
      (rekeyNav nav old new qname).navFacts = nav.navFacts ∧
      (rekeyNav nav old new qname).returnTypes = nav.returnTypes ∧
      (rekeyNav nav old new qname).methodSigs = nav.methodSigs := by
  have same := handOver_records (nav.retire old) old new
  exact ⟨same.fieldTypes, same.localTypes, same.navFacts, same.returnTypes, same.methodSigs⟩

variable (tree : nav.Consistent) (apart : nav.Apart old new) (qname : String)

theorem FullNav.Consistent.retire (tree : nav.Consistent) (old : NodeId) :
    (nav.retire old).Consistent :=
  ⟨tree.dual, tree.once, tree.acyclic⟩

theorem FullNav.Apart.retire (apart : nav.Apart old new) : (nav.retire old).Apart old new :=
  ⟨apart.ne, apart.above, apart.below⟩

include tree apart

theorem rekeyNav_tree : (rekeyNav nav old new qname).Consistent := by
  have moved := handOver_consistent (tree.retire old) apart.retire
  exact ⟨moved.dual, moved.once, moved.acyclic⟩

/-- The new navigation mentions `old` exactly where a build-time record does. -/
theorem rekeyNav_mentions :
    (rekeyNav nav old new qname).Mentions old ↔ nav.Records old := by
  have moved := rekeyNav_tree tree apart qname
  have up : ∀ k, (rekeyNav nav old new qname).parentOf[k]? = _ :=
    handOver_up (tree.retire old) apart.retire
  have kids : ∀ p, (rekeyNav nav old new qname).kids p = _ :=
    handOver_kids (tree.retire old) apart.retire
  have childless : (rekeyNav nav old new qname).kids old = [] := by rw [kids, if_pos rfl]
  have same : (rekeyNav nav old new qname).Records old ↔ nav.Records old := by
    obtain ⟨f, l, n, r, m⟩ := rekeyNav_records nav old new qname
    rw [FullNav.Records, FullNav.Records, f, l, n, r, m]
  constructor
  · intro mentions
    cases mentions with
    | name h =>
      rw [rekeyNav_name apart.ne, if_pos rfl] at h
      cases h
    | qname h =>
      rw [rekeyNav_qname, if_neg apart.ne.symm, if_pos rfl] at h
      cases h
    | kind h =>
      rw [rekeyNav_kind apart.ne, if_pos rfl] at h
      cases h
    | child h =>
      rw [up, if_pos rfl] at h
      cases h
    | parent k h =>
      have mem := (moved.dual k old).mp h
      rw [childless] at mem
      cases mem
    | list h =>
      rw [show (rekeyNav nav old new qname).childrenOf[old]? = none from
        handOver_unlisted apart.ne] at h
      cases h
    | listed p h =>
      have parent := (moved.dual old p).mpr h
      rw [FullNav.Up, up, if_pos rfl] at parent
      cases parent
    | record h => exact same.mp h
  · intro h
    exact .record (same.mpr h)

end Nav

section Exact
variable {F : Type} {fp : FileParse F} {old new : NodeId}

theorem image_swapId {s : Finset NodeId} :
    (if old ∈ s then insert new (s.erase old) else s) = s.image (swapId old new) := by
  ext id
  rw [Finset.mem_image]
  split
  · rename_i held
    rw [Finset.mem_insert, Finset.mem_erase]
    constructor
    · intro mem
      rcases mem with eq | ⟨other, mem⟩
      · exact ⟨old, held, by rw [eq, swapId_self]⟩
      · exact ⟨id, mem, swapId_ne other⟩
    · intro ⟨j, mem, eq⟩
      by_cases own : j = old
      · rw [own, swapId_self] at eq
        exact Or.inl eq.symm
      · rw [swapId_ne own] at eq
        exact Or.inr ⟨eq ▸ own, eq ▸ mem⟩
  · rename_i absent
    constructor
    · intro mem
      exact ⟨id, mem, swapId_ne fun eq => absent (eq ▸ mem)⟩
    · intro ⟨j, mem, eq⟩
      rw [swapId_ne fun own : j = old => absent (own ▸ mem)] at eq
      exact eq ▸ mem

theorem carried_unread {β : Type} {m m' : IdMap β} (same : m' = m) (unread : ¬m[old]?.isSome) :
    KeyMoved m m' old new := by
  subst same
  exact ⟨fun h => absurd h unread, fun _ _ _ => rfl⟩

/-- Without a build-time record under the old id every reference moves. -/
theorem rekeyNode_rekeyed (tree : fp.nav.Consistent) (held : ∃ n ∈ fp.nodes, n.id = old)
    (apart : fp.nav.Apart old new) (qname : String) (unread : ¬fp.nav.Records old) :
    Rekeyed fp (rekeyNode fp old new qname) old new qname := by
  have ne := apart.ne
  have runs : ¬(old = new ∨ ¬fp.nodes.any (·.id == old)) := by
    rw [not_or, not_not]
    obtain ⟨n, mem, eq⟩ := held
    exact ⟨ne, List.any_eq_true.mpr ⟨n, mem, beq_iff_eq.mpr eq⟩⟩
  obtain ⟨f, l, n, r, m⟩ := rekeyNav_records fp.nav old new qname
  have each := unread
  simp only [FullNav.Records, not_or] at each
  rw [rekeyNode, if_neg runs]
  constructor
  · intro mentions
    cases mentions with
    | node n h eq => exact rekeyNodes_gone ne n h eq
    | edge e h eq =>
      obtain ⟨e', _, is⟩ := List.mem_map.mp h
      rw [← is] at eq
      exact eq.elim (swapId_ne_old ne _) (swapId_ne_old ne _)
    | ref r h eq =>
      obtain ⟨r', _, is⟩ := List.mem_map.mp h
      rw [← is] at eq
      exact eq.elim (swapId_ne_old ne _) (swapId_ne_old ne _)
    | call c h eq =>
      obtain ⟨c', _, is⟩ := List.mem_map.mp h
      rw [← is] at eq
      exact swapId_ne_old ne _ eq
    | property h =>
      dsimp only at h
      rw [image_swapId] at h
      obtain ⟨j, _, eq⟩ := Finset.mem_image.mp h
      exact swapId_ne_old ne j eq
    | nav h =>
      exact unread ((rekeyNav_mentions tree apart qname).mp h)
  · rfl
  · rfl
  · rfl
  · exact image_swapId
  · exact rekeyNodes_fresh
  · exact rekeyNodes_ids ne
  · exact rekeyNodes_others ne
  · exact rekeyNodes_cells ne
  · exact rekeyNav_tree tree apart qname
  · exact handOver_up (tree.retire old) apart.retire
  · exact handOver_kids (tree.retire old) apart.retire
  · exact (rekeyNav_qname fp.nav qname new).trans (if_pos rfl)
  · intro k first second
    exact (rekeyNav_qname fp.nav qname k).trans
      ((if_neg (Ne.symm second)).trans (if_neg (Ne.symm first)))
  · exact (rekeyNav_name ne fp.nav qname new).trans ((if_neg ne.symm).trans (if_pos rfl))
  · intro k first second
    exact (rekeyNav_name ne fp.nav qname k).trans ((if_neg first).trans (if_neg second))
  · exact (rekeyNav_kind ne fp.nav qname new).trans ((if_neg ne.symm).trans (if_pos rfl))
  · intro k first second
    exact (rekeyNav_kind ne fp.nav qname k).trans ((if_neg first).trans (if_neg second))
  · exact carried_unread f each.1
  · exact carried_unread l each.2.1
  · exact carried_unread n each.2.2.1
  · exact carried_unread r each.2.2.2.1
  · exact carried_unread m each.2.2.2.2

/-- Re-keying a node moves every reference exactly when it moves at all and no build-time record
is kept under the old id. -/
theorem rekeyNode_rekeyed_iff (fp : FileParse F) (old new : NodeId) (qname : String)
    (tree : fp.nav.Consistent) (held : ∃ n ∈ fp.nodes, n.id = old)
    (above : ¬fp.nav.Above new old) (below : ¬fp.nav.Above old new) :
    Rekeyed fp (rekeyNode fp old new qname) old new qname ↔
      old ≠ new ∧ ¬fp.nav.Records old := by
  constructor
  · intro moved
    have ne : old ≠ new := by
      intro same
      obtain ⟨n, mem, eq⟩ := held
      refine moved.gone (.node n ?_ eq)
      rw [rekeyNode, if_pos (Or.inl same)]
      exact mem
    refine ⟨ne, fun records => moved.gone (.nav ?_)⟩
    have runs : ¬(old = new ∨ ¬fp.nodes.any (·.id == old)) := by
      rw [not_or, not_not]
      obtain ⟨n, mem, eq⟩ := held
      exact ⟨ne, List.any_eq_true.mpr ⟨n, mem, beq_iff_eq.mpr eq⟩⟩
    rw [rekeyNode, if_neg runs]
    exact (rekeyNav_mentions tree ⟨ne, above, below⟩ qname).mpr records
  · intro ⟨ne, unread⟩
    exact rekeyNode_rekeyed tree held ⟨ne, above, below⟩ qname unread

end Exact

namespace Sample

def method : Node := ⟨2, .strong, [⟨7, .text "m"⟩]⟩

/-- A module holding one method, whose signature the build records. -/
def signed : FileParse Unit where
  nodes := [⟨1, .strong, []⟩, method]
  nav :=
    { parentOf := (∅ : IdMap NodeId).insert 2 1
      childrenOf := (∅ : IdMap (List NodeId)).insert 1 [2]
      methodSigs := (∅ : IdMap String).insert 2 "()()" }

def unsigned : FileParse Unit := { signed with nav := { signed.nav with methodSigs := ∅ } }

theorem signed_up {k p : NodeId} : signed.nav.Up k p ↔ k = 2 ∧ p = 1 := by
  rw [FullNav.Up, signed]
  dsimp only
  rw [OrdMap.get_insert, Std.ExtTreeMap.getElem?_empty]
  split
  · rename_i same
    rw [Option.some_inj, eq_comm]
    exact ⟨fun eq => ⟨same.symm, eq⟩, And.right⟩
  · rename_i other
    refine iff_of_false (fun up => ?_) fun both => other both.1.symm
    cases up

theorem signed_kids (p : NodeId) : signed.nav.kids p = if 1 = p then [2] else [] := by
  rw [FullNav.kids, signed]
  dsimp only
  rw [OrdMap.get_insert, Std.ExtTreeMap.getElem?_empty]
  split <;> rfl

theorem signed_above {k a : NodeId} (path : signed.nav.Above k a) : k = 2 ∧ a = 1 := by
  induction path with
  | single up => exact signed_up.mp up
  | tail _ up ih => exact ⟨ih.1, (signed_up.mp up).2⟩

theorem signed_tree : signed.nav.Consistent where
  dual k p := by
    rw [signed_up, signed_kids]
    split
    · rename_i same
      rw [List.mem_singleton]
      exact and_iff_left same.symm
    · rename_i other
      exact iff_of_false (fun both => other both.2.symm) List.not_mem_nil
  once p := by
    rw [signed_kids]
    split
    · exact List.nodup_singleton 2
    · exact List.nodup_nil
  acyclic k cycle := by
    obtain ⟨first, second⟩ := signed_above cycle
    exact absurd (first.symm.trans second) (by decide)

theorem unsigned_moved :
    Rekeyed unsigned (rekeyNode unsigned 2 3 "a::m @svc") 2 3 "a::m @svc" ↔
      (2 : NodeId) ≠ 3 ∧ ¬unsigned.nav.Records 2 := by
  refine rekeyNode_rekeyed_iff unsigned 2 3 "a::m @svc"
    ⟨signed_tree.dual, signed_tree.once, signed_tree.acyclic⟩ ⟨method, ?_, rfl⟩ ?_ ?_
  · exact List.mem_cons_of_mem _ List.mem_cons_self
  · intro path
    exact absurd (signed_above path).1 (by decide)
  · intro path
    exact absurd (signed_above path).2 (by decide)

/-- The signature of a method moved to another id stays under the id that is gone. -/
theorem signature_left : signed.nav.Consistent ∧ (∃ n ∈ signed.nodes, n.id = 2) ∧
    ¬signed.nav.Above 3 2 ∧ ¬signed.nav.Above 2 3 ∧
    ¬Rekeyed signed (rekeyNode signed 2 3 "a::m @svc") 2 3 "a::m @svc" := by
  refine ⟨signed_tree, ⟨method, List.mem_cons_of_mem _ List.mem_cons_self, rfl⟩,
    fun path => absurd (signed_above path).1 (by decide),
    fun path => absurd (signed_above path).2 (by decide), fun moved => ?_⟩
  have left : (rekeyNode signed 2 3 "a::m @svc").nav.methodSigs[2]?.isSome = true := by
    decide +kernel
  exact moved.gone (.nav (.record (Or.inr (Or.inr (Or.inr (Or.inr left))))))

end Sample

end Glia.Graph
