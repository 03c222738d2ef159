import Glia.Graph.NavTree
import Mathlib.Data.Finset.Image
import Mathlib.Data.List.Perm.Basic

/-! Moving a node of a file's parse to another id, with every reference to it. -/
namespace Glia.Graph

open Relation Glia.Kit

structure FileParse (F : Type) where
  nodes : List Node := []
  edges : List Edge := []
  calls : List CallSite := []
  refs : List UnresolvedRef := []
  nav : FullNav F := {}
  properties : Finset NodeId := ∅

section Rekey
variable {F : Type}

def swapId (old new id : NodeId) : NodeId := if id = old then new else id

/-- A parent's children after `old` leaves; where `new` takes its place it stands where `old` did. -/
def rehome (kids : List NodeId) (old new : NodeId) (adopt : Bool) : List NodeId :=
  let rest := kids.filter (· != old)
  if adopt && !rest.contains new then
    rest.insertIdx (min ((kids.idxOf? old).getD rest.length) rest.length) new
  else rest

/-- `old` leaves its parent; `new` takes its place unless it has a parent of its own. -/
def handOverParent (nav : FullNav F) (old new : NodeId) : FullNav F :=
  match nav.parentOf[old]? with
  | none => nav
  | some p =>
    let parentOf := nav.parentOf.erase old
    let adopt := !parentOf.contains new
    { nav with
      parentOf := if adopt then parentOf.insert new p else parentOf
      childrenOf :=
        match nav.childrenOf[p]? with
        | none => nav.childrenOf
        | some kids => nav.childrenOf.insert p (rehome kids old new adopt) }

def reparent (old new : NodeId) (parentOf : IdMap NodeId) (k : NodeId) : IdMap NodeId :=
  match parentOf[k]? with
  | none => parentOf
  | some p => if p = old then parentOf.insert k new else parentOf

def pushKid (slot : List NodeId) (k : NodeId) : List NodeId :=
  if slot.contains k then slot else slot ++ [k]

def handOverChildren (nav : FullNav F) (old new : NodeId) : FullNav F :=
  match nav.childrenOf[old]? with
  | none => nav
  | some kids =>
    let childrenOf := nav.childrenOf.erase old
    { nav with
      parentOf := kids.foldl (reparent old new) nav.parentOf
      childrenOf := childrenOf.insert new (kids.foldl pushKid (childrenOf[new]?.getD [])) }

def handOver (nav : FullNav F) (old new : NodeId) : FullNav F :=
  handOverChildren (handOverParent nav old new) old new

def FullNav.retire (nav : FullNav F) (old : NodeId) : FullNav F :=
  { nav with
    nameById := nav.nameById.erase old
    qnameById := nav.qnameById.erase old
    kindById := nav.kindById.erase old }

def rewriteNodeId (nav : FullNav F) (old new : NodeId) : FullNav F :=
  handOver (nav.retire old) old new

/-- The entries of `old` renamed; where `new` has entries, merged into the first of them. -/
def rekeyNodes (nodes : List Node) (old new : NodeId) : List Node :=
  match nodes.findIdx? (·.id == new) with
  | some i =>
    let moved := (nodes.filter (·.id == old)).flatMap (·.cells)
    let emptied := nodes.map fun n => if n.id = old then { n with cells := [] } else n
    (emptied.modify i fun n => { n with cells := n.cells ++ moved }).filter (·.id != old)
  | none => nodes.map fun n => { n with id := swapId old new n.id }

def rekeyEdge (old new : NodeId) (e : Edge) : Edge :=
  { e with fromId := swapId old new e.fromId, toId := swapId old new e.toId }

def rekeyRef (old new : NodeId) (r : UnresolvedRef) : UnresolvedRef :=
  { r with fromId := swapId old new r.fromId, fromModule := swapId old new r.fromModule }

def rekeyCall (old new : NodeId) (c : CallSite) : CallSite :=
  { c with fromId := swapId old new c.fromId }

def rekeyNav (nav : FullNav F) (old new : NodeId) (qname : String) : FullNav F :=
  let moved := rewriteNodeId nav old new
  { moved with
    qnameById := moved.qnameById.insert new qname
    nameById := match nav.nameById[old]? with
      | none => moved.nameById
      | some name => moved.nameById.orInsert new name
    kindById := match nav.kindById[old]? with
      | none => moved.kindById
      | some kind => moved.kindById.orInsert new kind }

def rekeyNode (fp : FileParse F) (old new : NodeId) (qname : String) : FileParse F :=
  if old = new ∨ ¬fp.nodes.any (·.id == old) then fp
  else
    { nodes := rekeyNodes fp.nodes old new
      edges := fp.edges.map (rekeyEdge old new)
      calls := fp.calls.map (rekeyCall old new)
      refs := fp.refs.map (rekeyRef old new)
      nav := rekeyNav fp.nav old new qname
      properties := if old ∈ fp.properties then insert new (fp.properties.erase old)
        else fp.properties }

end Rekey

section Swap
variable {old new : NodeId} {l : List NodeId}

theorem swapId_ne {id : NodeId} (apart : id ≠ old) : swapId old new id = id := if_neg apart

@[simp] theorem swapId_self : swapId old new old = new := if_pos rfl

theorem swapId_ne_old (apart : old ≠ new) (id : NodeId) : swapId old new id ≠ old := by
  by_cases same : id = old
  · rw [same, swapId_self]
    exact apart.symm
  · rw [swapId_ne same]
    exact same

theorem map_swapId_absent (absent : old ∉ l) : l.map (swapId old new) = l := by
  have same : l.map (swapId old new) = l.map id :=
    List.map_congr_left fun _ mem => swapId_ne fun eq => absent (eq ▸ mem)
  rw [same, List.map_id]

theorem filter_ne_absent (absent : old ∉ l) : l.filter (· != old) = l :=
  List.filter_eq_self.mpr fun _ mem => bne_iff_ne.mpr fun eq => absent (eq ▸ mem)

theorem insertIdx_middle (before after : List NodeId) (x : NodeId) :
    (before ++ after).insertIdx before.length x = before ++ x :: after := by
  induction before with
  | nil => rfl
  | cons a before ih => exact congrArg (a :: ·) ih

/-- Among siblings without `new`, `new` stands where `old` stood. -/
theorem rehome_adopt (once : l.Nodup) (held : old ∈ l) (fresh : new ∉ l) :
    rehome l old new true = l.map (swapId old new) := by
  obtain ⟨before, after, rfl⟩ := List.append_of_mem held
  obtain ⟨outside, apart⟩ := List.nodup_middle.mp once |> List.nodup_cons.mp
  rw [List.mem_append, not_or] at outside
  have rest : (before ++ old :: after).filter (· != old) = before ++ after := by
    rw [List.filter_append, List.filter_cons_of_neg (by rw [bne_self_eq_false]; exact Bool.false_ne_true),
      filter_ne_absent outside.1, filter_ne_absent outside.2]
  have place : (before ++ old :: after).idxOf? old = some before.length := by
    rw [List.idxOf?_eq_some_iff]
    refine ⟨by rw [List.length_append]; exact Nat.lt_add_of_pos_right (Nat.succ_pos _), ?_, ?_⟩
    · rw [List.getElem_append_right (Nat.le_refl _)]
      simp only [Nat.sub_self, List.getElem_cons_zero]
    · intro j lt eq
      rw [List.getElem_append_left lt] at eq
      exact outside.1 (eq ▸ List.getElem_mem lt)
  have unlisted : (before ++ after).contains new = false := by
    rw [← Bool.not_eq_true, List.contains_iff_mem]
    intro mem
    rcases List.mem_append.mp mem with left | right
    · exact fresh (List.mem_append_left _ left)
    · exact fresh (List.mem_append_right _ (List.mem_cons_of_mem old right))
  rw [rehome, rest, place, unlisted, Option.getD_some, List.length_append,
    Nat.min_eq_left (Nat.le_add_right _ _), List.map_append, List.map_cons, swapId_self,
    map_swapId_absent outside.1, map_swapId_absent outside.2]
  exact insertIdx_middle before after new

end Swap

section HandOver
variable {F : Type} {nav : FullNav F} {old new : NodeId}

theorem kids_of_insert {nav' : FullNav F} {p : NodeId} {kids : List NodeId}
    (eq : nav'.childrenOf = nav.childrenOf.insert p kids) (q : NodeId) :
    nav'.kids q = if p = q then kids else nav.kids q := by
  rw [FullNav.kids, FullNav.kids, eq, OrdMap.get_insert]
  split <;> rfl

/-- What moving `old` to `new` needs of the tree: neither is above the other. -/
structure FullNav.Apart (nav : FullNav F) (old new : NodeId) : Prop where
  ne : old ≠ new
  above : ¬nav.Above new old
  below : ¬nav.Above old new

namespace FullNav.Consistent

theorem kids_unique (tree : nav.Consistent) {k p q : NodeId} (left : k ∈ nav.kids p)
    (right : k ∈ nav.kids q) : p = q := by
  have up := (tree.dual k p).mpr left
  have up' := (tree.dual k q).mpr right
  exact Option.some.inj (up.symm.trans up')

theorem not_own (tree : nav.Consistent) (k : NodeId) : k ∉ nav.kids k := fun mem =>
  tree.acyclic k (.single ((tree.dual k k).mpr mem))

end FullNav.Consistent

theorem handOverParent_up (apart : nav.Apart old new) (k : NodeId) :
    (handOverParent nav old new).parentOf[k]? =
      if k = old then none
      else if k = new then nav.parentOf[new]?.or nav.parentOf[old]? else nav.parentOf[k]? := by
  rw [handOverParent]
  cases parent : nav.parentOf[old]? with
  | none =>
    dsimp only
    by_cases first : k = old
    · rw [if_pos first, first, parent]
    · rw [if_neg first]
      split
      · rename_i second
        rw [second, Option.or_none]
      · rfl
  | some p =>
    dsimp only
    rw [OrdMap.contains_eq_isSome, IdMap.get_erase, if_neg apart.ne]
    by_cases first : k = old
    · rw [if_pos first, first]
      split
      · rw [OrdMap.get_insert, if_neg apart.ne.symm, IdMap.get_erase, if_pos rfl]
      · rw [IdMap.get_erase, if_pos rfl]
    · rw [if_neg first]
      cases own : nav.parentOf[new]? with
      | none =>
        rw [Option.isSome_none, Bool.not_false, if_pos rfl, OrdMap.get_insert, IdMap.get_erase,
          if_neg (Ne.symm first), Option.none_or]
        by_cases second : k = new
        · rw [if_pos second.symm, if_pos second]
        · rw [if_neg (Ne.symm second), if_neg second]
      | some q =>
        rw [Option.isSome_some, Bool.not_true, if_neg Bool.false_ne_true, IdMap.get_erase,
          if_neg (Ne.symm first), Option.some_or]
        split
        · rename_i second
          rw [second, own]
        · rfl

theorem handOverParent_kids (tree : nav.Consistent) (apart : nav.Apart old new) (p : NodeId) :
    (handOverParent nav old new).kids p =
      if nav.parentOf[new]?.isSome then (nav.kids p).filter (· != old)
      else (nav.kids p).map (swapId old new) := by
  have absent : old ∉ nav.kids p → nav.kids p =
      if nav.parentOf[new]?.isSome then (nav.kids p).filter (· != old)
      else (nav.kids p).map (swapId old new) := by
    intro out
    rw [filter_ne_absent out, map_swapId_absent out, ite_self]
  rw [handOverParent]
  cases parent : nav.parentOf[old]? with
  | none =>
    refine absent fun mem => ?_
    have up := (tree.dual old p).mpr mem
    rw [FullNav.Up, parent] at up
    cases up
  | some q =>
    dsimp only
    have held : old ∈ nav.kids q := (tree.dual old q).mp parent
    cases listed : nav.childrenOf[q]? with
    | none =>
      rw [FullNav.kids, listed] at held
      cases held
    | some kids =>
      have own : nav.kids q = kids := by rw [FullNav.kids, listed]; rfl
      refine (kids_of_insert (show _ = nav.childrenOf.insert q _ from rfl) p).trans ?_
      by_cases same : q = p
      · subst same
        rw [if_pos rfl, ← own, OrdMap.contains_eq_isSome, IdMap.get_erase, if_neg apart.ne]
        cases has : nav.parentOf[new]? with
        | none =>
          have fresh : new ∉ nav.kids q := fun mem => by
            have up := (tree.dual new q).mpr mem
            rw [FullNav.Up, has] at up
            cases up
          exact rehome_adopt (tree.once q) held fresh
        | some r => rfl
      · rw [if_neg same]
        exact absent fun mem => same (tree.kids_unique held mem)

theorem reparent_get (m : IdMap NodeId) (j k : NodeId) :
    (reparent old new m j)[k]? =
      if k = j then m[k]?.map (swapId old new) else m[k]? := by
  rw [reparent]
  by_cases same : k = j
  · subst same
    rw [if_pos rfl]
    cases held : m[k]? with
    | none => exact held
    | some p =>
      dsimp only
      rw [Option.map_some, swapId]
      split
      · rw [OrdMap.get_insert, if_pos rfl]
      · exact held
  · rw [if_neg same]
    split
    · rfl
    · split
      · rw [OrdMap.get_insert, if_neg (Ne.symm same)]
      · rfl

theorem map_swapId_twice (ne : old ≠ new) (p : Option NodeId) :
    (p.map (swapId old new)).map (swapId old new) = p.map (swapId old new) := by
  cases p with
  | none => rfl
  | some p => exact congrArg some (swapId_ne (swapId_ne_old ne p))

theorem foldl_reparent (ne : old ≠ new) (kids : List NodeId) (m : IdMap NodeId) (k : NodeId) :
    (kids.foldl (reparent old new) m)[k]? =
      if k ∈ kids then m[k]?.map (swapId old new) else m[k]? := by
  induction kids generalizing m with
  | nil => rfl
  | cons j kids ih =>
    rw [List.foldl_cons, ih, reparent_get]
    by_cases later : k ∈ kids
    · rw [if_pos later, if_pos (List.mem_cons_of_mem j later)]
      split
      · exact map_swapId_twice ne _
      · rfl
    · rw [if_neg later]
      by_cases same : k = j
      · rw [if_pos same, if_pos (List.mem_cons.mpr (Or.inl same))]
      · rw [if_neg same, if_neg (List.not_mem_cons_of_ne_of_not_mem same later)]

theorem foldl_pushKid {slot kids : List NodeId} (once : (slot ++ kids).Nodup) :
    kids.foldl pushKid slot = slot ++ kids := by
  induction kids generalizing slot with
  | nil => exact (List.append_nil slot).symm
  | cons k kids ih =>
    have fresh : slot.contains k = false := by
      rw [← Bool.not_eq_true, List.contains_iff_mem]
      intro mem
      exact (List.nodup_append.mp once).2.2 k mem k List.mem_cons_self rfl
    have next : (slot ++ [k] ++ kids).Nodup := by
      rw [List.append_assoc, List.singleton_append]
      exact once
    rw [List.foldl_cons, pushKid, fresh, if_neg Bool.false_ne_true, ih next, List.append_assoc,
      List.singleton_append]

theorem handOverChildren_up (ne : old ≠ new) (nav : FullNav F) (k : NodeId) :
    (handOverChildren nav old new).parentOf[k]? =
      if k ∈ nav.kids old then nav.parentOf[k]?.map (swapId old new) else nav.parentOf[k]? := by
  rw [handOverChildren, FullNav.kids]
  cases nav.childrenOf[old]? with
  | none => rfl
  | some kids => exact foldl_reparent ne kids nav.parentOf k

theorem handOverChildren_kids (ne : old ≠ new) (once : (nav.kids new ++ nav.kids old).Nodup)
    (p : NodeId) :
    (handOverChildren nav old new).kids p =
      if p = old then [] else if p = new then nav.kids new ++ nav.kids old else nav.kids p := by
  have own : nav.kids old = (nav.childrenOf[old]?).getD [] := rfl
  rw [handOverChildren]
  cases listed : nav.childrenOf[old]? with
  | none =>
    rw [listed] at own
    rw [own, Option.getD_none, List.append_nil]
    dsimp only
    by_cases first : p = old
    · rw [if_pos first, first, own]
      rfl
    · rw [if_neg first]
      split
      · rename_i second
        rw [second]
      · rfl
  | some kids =>
    rw [listed, Option.getD_some] at own
    rw [own] at once ⊢
    have rest : (nav.childrenOf.erase old)[new]?.getD [] = nav.kids new := by
      rw [IdMap.get_erase, if_neg ne]
      rfl
    rw [FullNav.kids]
    dsimp only
    rw [rest, foldl_pushKid once, OrdMap.get_insert, IdMap.get_erase]
    by_cases second : new = p
    · rw [if_pos second, if_neg (fun first => ne (first.symm.trans second.symm)),
        if_pos second.symm]
      rfl
    · rw [if_neg second]
      by_cases first : old = p
      · rw [if_pos first, if_pos first.symm]
        rfl
      · rw [if_neg first, if_neg (Ne.symm first), if_neg (Ne.symm second)]
        rfl

section Moved
variable (tree : nav.Consistent) (apart : nav.Apart old new)
include tree apart

theorem kids_old_unlisted : old ∉ nav.kids new := fun mem =>
  apart.below (.single ((tree.dual old new).mpr mem))

theorem new_unlisted : new ∉ nav.kids old := fun mem =>
  apart.above (.single ((tree.dual new old).mpr mem))

theorem handOverParent_own (p : NodeId) (absent : old ∉ nav.kids p) :
    (handOverParent nav old new).kids p = nav.kids p := by
  rw [handOverParent_kids tree apart, filter_ne_absent absent, map_swapId_absent absent, ite_self]

theorem handOver_kids (p : NodeId) :
    (handOver nav old new).kids p =
      if p = old then []
      else if p = new then nav.kids new ++ nav.kids old
      else if nav.parentOf[new]?.isSome then (nav.kids p).filter (· != old)
      else (nav.kids p).map (swapId old new) := by
  have ofNew := handOverParent_own tree apart new (kids_old_unlisted tree apart)
  have ofOld := handOverParent_own tree apart old (tree.not_own old)
  have once : (nav.kids new ++ nav.kids old).Nodup :=
    List.Nodup.append (tree.once new) (tree.once old) fun k left right =>
      apart.ne (tree.kids_unique right left)
  have split := @handOverChildren_kids F (handOverParent nav old new) old new apart.ne
    (by rw [ofNew, ofOld]; exact once) p
  rw [ofNew, ofOld, handOverParent_kids tree apart] at split
  exact split

theorem handOver_up (k : NodeId) :
    (handOver nav old new).parentOf[k]? =
      if k = old then none
      else if k = new then nav.parentOf[new]?.or nav.parentOf[old]?
      else nav.parentOf[k]?.map (swapId old new) := by
  have ofOld := handOverParent_own tree apart old (tree.not_own old)
  rw [handOver, handOverChildren_up apart.ne, handOverParent_up apart, ofOld]
  by_cases first : k = old
  · rw [if_pos first, if_pos first, Option.map_none, ite_self]
  · rw [if_neg first, if_neg first]
    by_cases second : k = new
    · rw [if_pos second, if_pos second, if_neg fun mem => new_unlisted tree apart (second ▸ mem)]
    · rw [if_neg second, if_neg second]
      by_cases child : k ∈ nav.kids old
      · rw [if_pos child]
      · rw [if_neg child]
        cases parent : nav.parentOf[k]? with
        | none => rfl
        | some p =>
          have other : p ≠ old := fun eq => child ((tree.dual k old).mp (eq ▸ parent))
          exact congrArg some (swapId_ne other).symm

theorem handOver_dual (k p : NodeId) :
    (handOver nav old new).Up k p ↔ k ∈ (handOver nav old new).kids p := by
  have toNew : ¬nav.Up new old := fun up => apart.above (.single up)
  have toOld : ¬nav.Up old new := fun up => apart.below (.single up)
  have own : ∀ j, ¬nav.Up j j := fun j up => tree.acyclic j (.single up)
  rw [FullNav.Up, handOver_up tree apart, handOver_kids tree apart]
  by_cases atOld : k = old
  · subst atOld
    rw [if_pos rfl]
    refine iff_of_false (fun up => nomatch up) fun mem => ?_
    split at mem
    · cases mem
    · split at mem
      · rcases List.mem_append.mp mem with left | right
        · exact toOld ((tree.dual _ _).mpr left)
        · exact tree.not_own k right
      · split at mem
        · rw [List.mem_filter, bne_self_eq_false] at mem
          exact Bool.false_ne_true mem.2
        · obtain ⟨j, _, eq⟩ := List.mem_map.mp mem
          exact swapId_ne_old apart.ne j eq
  · rw [if_neg atOld]
    by_cases atNew : k = new
    · subst atNew
      rw [if_pos rfl]
      by_cases pOld : p = old
      · rw [if_pos pOld, pOld]
        refine iff_of_false (fun up => ?_) List.not_mem_nil
        rcases Option.or_eq_some_iff.mp up with up | ⟨_, up⟩
        · exact toNew up
        · exact own old up
      · rw [if_neg pOld]
        by_cases pNew : p = k
        · rw [if_pos pNew, pNew, List.mem_append, ← tree.dual, ← tree.dual]
          refine iff_of_false (fun up => ?_) fun mem => mem.elim (own k) toNew
          rcases Option.or_eq_some_iff.mp up with up | ⟨_, up⟩
          · exact own k up
          · exact toOld up
        · rw [if_neg pNew]
          cases parent : nav.parentOf[k]? with
          | some q =>
            rw [Option.some_or, Option.isSome_some, if_pos rfl, List.mem_filter, bne_iff_ne,
              and_iff_left atOld, ← tree.dual, FullNav.Up, parent]
          | none =>
            have unlisted : k ∉ nav.kids p := fun mem => by
              have up := (tree.dual k p).mpr mem
              rw [FullNav.Up, parent] at up
              cases up
            rw [Option.none_or, Option.isSome_none, if_neg Bool.false_ne_true, List.mem_map]
            constructor
            · intro up
              exact ⟨old, (tree.dual old p).mp up, swapId_self⟩
            · intro ⟨j, mem, eq⟩
              by_cases same : j = old
              · exact (tree.dual old p).mpr (same ▸ mem)
              · rw [swapId_ne same] at eq
                exact absurd (eq ▸ mem) unlisted
    · rw [if_neg atNew]
      by_cases pOld : p = old
      · rw [if_pos pOld, pOld]
        refine iff_of_false (fun up => ?_) List.not_mem_nil
        obtain ⟨q, _, eq⟩ := Option.map_eq_some_iff.mp up
        exact swapId_ne_old apart.ne q eq
      · rw [if_neg pOld]
        by_cases pNew : p = new
        · rw [if_pos pNew, pNew, List.mem_append, ← tree.dual, ← tree.dual, FullNav.Up, FullNav.Up,
            Option.map_eq_some_iff]
          constructor
          · intro ⟨q, up, eq⟩
            by_cases same : q = old
            · exact Or.inr (same ▸ up)
            · rw [swapId_ne same] at eq
              exact Or.inl (eq ▸ up)
          · intro up
            rcases up with up | up
            · exact ⟨new, up, swapId_ne apart.ne.symm⟩
            · exact ⟨old, up, swapId_self⟩
        · rw [if_neg pNew]
          have direct : nav.parentOf[k]?.map (swapId old new) = some p ↔ k ∈ nav.kids p := by
            rw [← tree.dual, FullNav.Up, Option.map_eq_some_iff]
            constructor
            · intro ⟨q, up, eq⟩
              by_cases same : q = old
              · rw [same, swapId_self] at eq
                exact absurd eq.symm pNew
              · rw [swapId_ne same] at eq
                exact eq ▸ up
            · intro up
              exact ⟨p, up, swapId_ne pOld⟩
          rw [direct]
          split
          · rw [List.mem_filter, bne_iff_ne, and_iff_left atOld]
          · rw [List.mem_map]
            constructor
            · intro mem
              exact ⟨k, mem, swapId_ne atOld⟩
            · intro ⟨j, mem, eq⟩
              by_cases same : j = old
              · rw [same, swapId_self] at eq
                exact absurd eq.symm atNew
              · rw [swapId_ne same] at eq
                exact eq ▸ mem

theorem handOver_once (p : NodeId) : ((handOver nav old new).kids p).Nodup := by
  rw [handOver_kids tree apart]
  split
  · exact List.nodup_nil
  · split
    · exact List.Nodup.append (tree.once new) (tree.once old) fun k left right =>
        apart.ne (tree.kids_unique right left)
    · cases parent : nav.parentOf[new]? with
      | some q => exact (tree.once p).filter _
      | none =>
        have fresh : ∀ k ∈ nav.kids p, k ≠ new := fun k mem eq => by
          have up := (tree.dual k p).mpr mem
          rw [FullNav.Up, eq, parent] at up
          cases up
        refine List.Nodup.map_on (fun j left k right eq => ?_) (tree.once p)
        by_cases atJ : j = old
        · by_cases atK : k = old
          · rw [atJ, atK]
          · rw [atJ, swapId_self, swapId_ne atK] at eq
            exact absurd eq.symm (fresh k right)
        · by_cases atK : k = old
          · rw [atK, swapId_self, swapId_ne atJ] at eq
            exact absurd eq (fresh j left)
          · rw [swapId_ne atJ, swapId_ne atK] at eq
            exact eq

theorem handOver_above {b : NodeId} (path : (handOver nav old new).Above new b) :
    nav.Above new b ∨ nav.Above old b := by
  have step : ∀ a b, a ≠ old → a ≠ new → (handOver nav old new).Up a b →
      ∃ q, nav.Up a q ∧ b = swapId old new q := by
    intro a b atOld atNew up
    rw [FullNav.Up, handOver_up tree apart, if_neg atOld, if_neg atNew] at up
    obtain ⟨q, up, eq⟩ := Option.map_eq_some_iff.mp up
    exact ⟨q, up, eq.symm⟩
  induction path with
  | single up =>
    rw [FullNav.Up, handOver_up tree apart, if_neg apart.ne.symm, if_pos rfl] at up
    rcases Option.or_eq_some_iff.mp up with up | ⟨_, up⟩
    · exact Or.inl (.single up)
    · exact Or.inr (.single up)
  | @tail a b _ up ih =>
    rcases ih with path | path
    · have atOld : a ≠ old := fun eq => apart.above (eq ▸ path)
      have atNew : a ≠ new := fun eq => tree.acyclic new (eq ▸ path)
      obtain ⟨q, up, eq⟩ := step a b atOld atNew up
      have next : nav.Above new q := path.tail up
      rw [eq, swapId_ne fun same : q = old => apart.above (same ▸ next)]
      exact Or.inl next
    · have atOld : a ≠ old := fun eq => tree.acyclic old (eq ▸ path)
      have atNew : a ≠ new := fun eq => apart.below (eq ▸ path)
      obtain ⟨q, up, eq⟩ := step a b atOld atNew up
      have next : nav.Above old q := path.tail up
      rw [eq, swapId_ne fun same : q = old => tree.acyclic old (same ▸ next)]
      exact Or.inr next

theorem handOver_acyclic : Reroute.Acyclic (handOver nav old new).Up := by
  refine Reroute.acyclic_of_same (v := new) tree.acyclic (fun cycle => ?_) fun a b up atNew bNew => ?_
  · rcases handOver_above tree apart cycle with path | path
    · exact tree.acyclic new path
    · exact apart.below path
  · rw [FullNav.Up, handOver_up tree apart] at up
    split at up
    · cases up
    · obtain ⟨q, up, eq⟩ := Option.map_eq_some_iff.mp up
      by_cases same : q = old
      · rw [same, swapId_self] at eq
        exact absurd eq.symm bNew
      · rw [swapId_ne same] at eq
        exact eq ▸ up

theorem handOver_consistent : (handOver nav old new).Consistent :=
  ⟨handOver_dual tree apart, handOver_once tree apart, handOver_acyclic tree apart⟩

end Moved

end HandOver

end Glia.Graph
