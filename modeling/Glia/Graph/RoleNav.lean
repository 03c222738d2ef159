import Glia.Graph.RekeyExact
import Glia.Graph.RoleMoves

/-! The navigation after a fold: the overlays leave, their children stand under the bases. -/
namespace Glia.Graph

open Glia.Kit

variable {F : Type} {remap : List (NodeId × NodeId)}

section Adopt
variable {nav : FullNav F} {oid bid : NodeId}

/-- What moves with an overlay: neither its base nor another overlay. -/
def Moves (remap : List (NodeId × NodeId)) (bid kid : NodeId) : Prop :=
  kid ≠ bid ∧ baseId remap kid = none

instance (bid kid : NodeId) : Decidable (Moves remap bid kid) := inferInstanceAs (Decidable (_ ∧ _))

theorem adopt_still {kid : NodeId} (still : ¬Moves remap bid kid) :
    adopt remap oid bid nav kid = nav := by
  rw [adopt, if_pos]
  by_cases own : kid = bid
  · exact .inl own
  · exact .inr (Option.isSome_iff_ne_none.mpr fun none => still ⟨own, none⟩)

theorem adopt_moves {kid : NodeId} (moves : Moves remap bid kid) :
    adopt remap oid bid nav kid = { nav with
      parentOf :=
        if nav.parentOf[kid]? = some oid then nav.parentOf.insert kid bid else nav.parentOf
      childrenOf := nav.childrenOf.insert bid
        (if (nav.kids bid).contains kid then nav.kids bid else nav.kids bid ++ [kid]) } := by
  rw [adopt, if_neg]
  rintro (own | other)
  · exact moves.1 own
  · rw [moves.2] at other
    cases other

theorem adopt_up (kid x : NodeId) : (adopt remap oid bid nav kid).parentOf[x]? =
    if x = kid ∧ Moves remap bid x ∧ nav.parentOf[x]? = some oid then some bid
    else nav.parentOf[x]? := by
  by_cases moves : Moves remap bid kid
  · rw [adopt_moves moves]
    dsimp only
    by_cases held : nav.parentOf[kid]? = some oid
    · rw [if_pos held, OrdMap.get_insert]
      by_cases same : kid = x
      · subst same
        rw [if_pos rfl, if_pos ⟨rfl, moves, held⟩]
      · have other : ¬(x = kid ∧ Moves remap bid x ∧ nav.parentOf[x]? = some oid) :=
          fun h => same h.1.symm
        rw [if_neg same, if_neg other]
    · have other : ¬(x = kid ∧ Moves remap bid x ∧ nav.parentOf[x]? = some oid) :=
        fun h => held (h.1 ▸ h.2.2)
      rw [if_neg held, if_neg other]
  · have other : ¬(x = kid ∧ Moves remap bid x ∧ nav.parentOf[x]? = some oid) :=
      fun h => moves (h.1 ▸ h.2.1)
    rw [adopt_still moves, if_neg other]

theorem adopt_list {kid q : NodeId} (other : q ≠ bid) :
    (adopt remap oid bid nav kid).childrenOf[q]? = nav.childrenOf[q]? := by
  by_cases moves : Moves remap bid kid
  · rw [adopt_moves moves]
    dsimp only
    rw [OrdMap.get_insert, if_neg other.symm]
  · rw [adopt_still moves]

theorem adopt_kids (kid : NodeId) : (adopt remap oid bid nav kid).kids bid =
    if Moves remap bid kid ∧ kid ∉ nav.kids bid then nav.kids bid ++ [kid] else nav.kids bid := by
  by_cases moves : Moves remap bid kid
  · rw [adopt_moves moves, FullNav.kids]
    dsimp only
    rw [OrdMap.get_insert, if_pos rfl, Option.getD_some]
    by_cases listed : kid ∈ nav.kids bid
    · rw [if_pos (List.contains_iff_mem.mpr listed), if_neg fun h => h.2 listed]
    · rw [if_neg fun h => listed (List.contains_iff_mem.mp h), if_pos ⟨moves, listed⟩]
  · rw [adopt_still moves, if_neg fun h => moves h.1]

theorem adopt_records (kid : NodeId) : SameRecords nav (adopt remap oid bid nav kid) := by
  rw [adopt]
  split
  · constructor <;> rfl
  · constructor <;> rfl

variable (kids : List NodeId)

theorem adopts_up (ne : oid ≠ bid) (x : NodeId) :
    (kids.foldl (adopt remap oid bid) nav).parentOf[x]? =
      if x ∈ kids ∧ Moves remap bid x ∧ nav.parentOf[x]? = some oid then some bid
      else nav.parentOf[x]? := by
  induction kids generalizing nav with
  | nil => rw [List.foldl_nil, if_neg fun h => List.not_mem_nil h.1]
  | cons kid kids ih =>
    rw [List.foldl_cons, ih, adopt_up]
    by_cases here : x = kid ∧ Moves remap bid x ∧ nav.parentOf[x]? = some oid
    · rw [if_pos here, if_neg fun h => ne (Option.some.inj h.2.2).symm,
        if_pos ⟨here.1 ▸ List.mem_cons_self, here.2⟩]
    · rw [if_neg here]
      refine if_congr ?_ rfl rfl
      rw [List.mem_cons]
      tauto

theorem adopts_list {q : NodeId} (other : q ≠ bid) :
    (kids.foldl (adopt remap oid bid) nav).childrenOf[q]? = nav.childrenOf[q]? := by
  induction kids generalizing nav with
  | nil => rfl
  | cons kid kids ih => rw [List.foldl_cons, ih, adopt_list other]

theorem adopts_kids (x : NodeId) : x ∈ (kids.foldl (adopt remap oid bid) nav).kids bid ↔
    x ∈ nav.kids bid ∨ x ∈ kids ∧ Moves remap bid x := by
  induction kids generalizing nav with
  | nil => simp
  | cons kid kids ih =>
    rw [List.foldl_cons, ih, adopt_kids, List.mem_cons]
    split
    · rename_i here
      rw [List.mem_append, List.mem_singleton]
      constructor
      · rintro ((old | rfl) | ⟨mem, moves⟩)
        · exact .inl old
        · exact .inr ⟨.inl rfl, here.1⟩
        · exact .inr ⟨.inr mem, moves⟩
      · rintro (old | ⟨rfl | mem, moves⟩)
        · exact .inl (.inl old)
        · exact .inl (.inr rfl)
        · exact .inr ⟨mem, moves⟩
    · rename_i here
      constructor
      · rintro (old | ⟨mem, moves⟩)
        · exact .inl old
        · exact .inr ⟨.inr mem, moves⟩
      · rintro (old | ⟨rfl | mem, moves⟩)
        · exact .inl old
        · exact .inl (by_contra fun out => here ⟨moves, out⟩)
        · exact .inr ⟨mem, moves⟩

theorem adopts_nodup (once : (nav.kids bid).Nodup) :
    ((kids.foldl (adopt remap oid bid) nav).kids bid).Nodup := by
  induction kids generalizing nav with
  | nil => exact once
  | cons kid kids ih =>
    rw [List.foldl_cons]
    refine ih ?_
    rw [adopt_kids]
    split
    · rename_i fresh
      exact List.nodup_append_comm.mp (List.nodup_cons.mpr ⟨fresh.2, once⟩)
    · exact once

theorem adopts_records : SameRecords nav (kids.foldl (adopt remap oid bid) nav) := by
  induction kids generalizing nav with
  | nil => constructor <;> rfl
  | cons kid kids ih => exact (adopt_records kid).trans ih

end Adopt

section Step
variable {nav : FullNav F} {p : NodeId × NodeId}

/-- The overlay taken out, its children still without a place. -/
def FullNav.without (nav : FullNav F) (oid : NodeId) : FullNav F := { nav with
  nameById := nav.nameById.erase oid
  qnameById := nav.qnameById.erase oid
  kindById := nav.kindById.erase oid
  parentOf := nav.parentOf.erase oid
  childrenOf := nav.childrenOf.erase oid }

theorem foldNav_eq :
    foldNav remap nav p = (nav.kids p.1).foldl (adopt remap p.1 p.2) (nav.without p.1) := rfl

theorem without_kids (oid q : NodeId) :
    (nav.without oid).kids q = if q = oid then [] else nav.kids q := by
  rw [FullNav.kids, FullNav.without]
  dsimp only
  rw [IdMap.get_erase]
  by_cases same : q = oid
  · rw [if_pos same.symm, if_pos same]
    rfl
  · rw [if_neg (Ne.symm same), if_neg same]
    rfl

theorem foldNav_up (ne : p.1 ≠ p.2) (x : NodeId) : (foldNav remap nav p).parentOf[x]? =
    if x = p.1 then none
    else if x ∈ nav.kids p.1 ∧ Moves remap p.2 x ∧ nav.parentOf[x]? = some p.1 then some p.2
    else nav.parentOf[x]? := by
  have left : (nav.without p.1).parentOf[x]? = if p.1 = x then none else nav.parentOf[x]? :=
    IdMap.get_erase nav.parentOf p.1 x
  rw [foldNav_eq, adopts_up _ ne, left]
  by_cases same : x = p.1
  · rw [if_pos same, if_pos same.symm, if_neg fun h => by cases h.2.2]
  · rw [if_neg same, if_neg (Ne.symm same)]

theorem foldNav_list (ne : p.1 ≠ p.2) : (foldNav remap nav p).childrenOf[p.1]? = none := by
  rw [foldNav_eq, adopts_list _ ne]
  exact (IdMap.get_erase nav.childrenOf p.1 p.1).trans (if_pos rfl)

theorem foldNav_others {q : NodeId} (other : q ≠ p.2) :
    (foldNav remap nav p).childrenOf[q]? = if q = p.1 then none else nav.childrenOf[q]? := by
  rw [foldNav_eq, adopts_list _ other]
  rw [show (nav.without p.1).childrenOf[q]? = _ from IdMap.get_erase nav.childrenOf p.1 q]
  exact if_congr eq_comm rfl rfl

theorem foldNav_kids (ne : p.1 ≠ p.2) (q x : NodeId) : x ∈ (foldNav remap nav p).kids q ↔
    q ≠ p.1 ∧ (x ∈ nav.kids q ∨ q = p.2 ∧ x ∈ nav.kids p.1 ∧ Moves remap q x) := by
  by_cases base : q = p.2
  · subst base
    rw [foldNav_eq, adopts_kids, without_kids, if_neg ne.symm]
    simp [ne.symm]
  · rw [FullNav.kids, foldNav_others base]
    split
    · rename_i own
      simp [own]
    · rename_i other
      simp [other, base, FullNav.kids]

theorem foldNav_nodup (ne : p.1 ≠ p.2) (once : ∀ q, (nav.kids q).Nodup) (q : NodeId) :
    ((foldNav remap nav p).kids q).Nodup := by
  by_cases base : q = p.2
  · subst base
    rw [foldNav_eq]
    refine adopts_nodup _ ?_
    rw [without_kids, if_neg ne.symm]
    exact once _
  · rw [FullNav.kids, foldNav_others base]
    split
    · exact List.nodup_nil
    · exact once q

end Step

section Run
variable {nav : FullNav F}

def Done (part : List (NodeId × NodeId)) (id : NodeId) : Prop := ∃ p ∈ part, p.1 = id

instance (part : List (NodeId × NodeId)) (id : NodeId) : Decidable (Done part id) :=
  inferInstanceAs (Decidable (∃ _ ∈ part, _))

/-- The parent after a stretch: an overlay's base, where the child moves. -/
def parentAfter (remap part : List (NodeId × NodeId)) (x q : NodeId) : NodeId :=
  if Done part q ∧ Moves remap (movedId remap q) x then movedId remap q else q

structure FoldedNav (remap part : List (NodeId × NodeId)) (nav nav' : FullNav F) : Prop where
  up : ∀ x, nav'.parentOf[x]? =
    if Done part x then none else nav.parentOf[x]?.map (parentAfter remap part x)
  kids : ∀ q x, x ∈ nav'.kids q ↔ ¬Done part q ∧ (x ∈ nav.kids q ∨
    ∃ p ∈ part, p.2 = q ∧ x ∈ nav.kids p.1 ∧ Moves remap q x)
  list : ∀ q, Done part q → nav'.childrenOf[q]? = none

theorem done_snoc {part : List (NodeId × NodeId)} {p : NodeId × NodeId} {q : NodeId} :
    Done (part ++ [p]) q ↔ Done part q ∨ q = p.1 := by
  unfold Done
  simp only [List.mem_append, List.mem_singleton, or_and_right, exists_or, exists_eq_left]
  rw [eq_comm]

theorem FoldedNav.overlay_kids (paired : Replaces remap) {part : List (NodeId × NodeId)}
    (within : ∀ p ∈ part, p ∈ remap) {nav' : FullNav F} (folded : FoldedNav remap part nav nav')
    {p : NodeId × NodeId} (mem : p ∈ remap) (x : NodeId) :
    x ∈ nav'.kids p.1 ↔ ¬Done part p.1 ∧ x ∈ nav.kids p.1 := by
  rw [folded.kids]
  refine and_congr_right fun _ => or_iff_left ?_
  rintro ⟨p', mem', base, _⟩
  exact paired.apart mem (within p' mem') base.symm

theorem parentAfter_overlay (paired : Replaces remap) {part : List (NodeId × NodeId)}
    {p : NodeId × NodeId} (mem : p ∈ remap) {x q : NodeId}
    (parent : parentAfter remap part x q = p.1) :
    q = p.1 ∧ (Done part p.1 → ¬Moves remap p.2 x) := by
  have base : movedId remap p.1 = p.2 := movedId_some (paired.base p mem)
  unfold parentAfter at parent
  split at parent
  · have free := paired.movedId_stands q
    rw [parent, paired.base p mem] at free
    cases free
  · rename_i still
    subst parent
    exact ⟨rfl, fun done moves => still ⟨done, base.symm ▸ moves⟩⟩

section Snoc
variable (paired : Replaces remap) {part : List (NodeId × NodeId)}
  (within : ∀ p ∈ part, p ∈ remap) {nav' : FullNav F} {p : NodeId × NodeId} (mem : p ∈ remap)
include paired within mem

theorem snoc_list (folded : FoldedNav remap part nav nav') {q : NodeId}
    (done : Done (part ++ [p]) q) : (foldNav remap nav' p).childrenOf[q]? = none := by
  rcases done_snoc.mp done with before | rfl
  · obtain ⟨p', mem', rfl⟩ := before
    rw [foldNav_others (paired.apart (within p' mem') mem)]
    split
    · rfl
    · exact folded.list _ ⟨p', mem', rfl⟩
  · exact foldNav_list (paired.apart mem mem)

theorem snoc_kids (folded : FoldedNav remap part nav nav') (q x : NodeId) :
    x ∈ (foldNav remap nav' p).kids q ↔ ¬Done (part ++ [p]) q ∧ (x ∈ nav.kids q ∨
      ∃ p' ∈ part ++ [p], p'.2 = q ∧ x ∈ nav.kids p'.1 ∧ Moves remap q x) := by
  rw [foldNav_kids (paired.apart mem mem), folded.overlay_kids paired within mem, folded.kids,
    done_snoc, not_or]
  simp only [List.mem_append, List.mem_singleton, or_and_right, exists_or, exists_eq_left]
  constructor
  · rintro ⟨other, ⟨fresh, own | ⟨p', mem', here⟩⟩ | ⟨rfl, ⟨_, own⟩, moves⟩⟩
    · exact ⟨⟨fresh, other⟩, .inl own⟩
    · exact ⟨⟨fresh, other⟩, .inr (.inl ⟨p', mem', here⟩)⟩
    · refine ⟨⟨?_, other⟩, .inr (.inr ⟨rfl, own, moves⟩)⟩
      rintro ⟨p', mem', same⟩
      exact paired.apart (within p' mem') mem same
  · rintro ⟨⟨fresh, other⟩, own | ⟨p', mem', here⟩ | ⟨rfl, own, moves⟩⟩
    · exact ⟨other, .inl ⟨fresh, .inl own⟩⟩
    · exact ⟨other, .inl ⟨fresh, .inr ⟨p', mem', here⟩⟩⟩
    · refine ⟨other, ?_⟩
      by_cases again : Done part p.1
      · obtain ⟨p', mem', same⟩ := again
        exact .inl ⟨fresh, .inr ⟨p', mem', paired.same (within p' mem') mem same,
          same ▸ own, moves⟩⟩
      · exact .inr ⟨rfl, ⟨again, own⟩, moves⟩

theorem snoc_up (dual : ∀ k q, nav.Up k q ↔ k ∈ nav.kids q)
    (folded : FoldedNav remap part nav nav') (x : NodeId) :
    (foldNav remap nav' p).parentOf[x]? = if Done (part ++ [p]) x then none
      else nav.parentOf[x]?.map (parentAfter remap (part ++ [p]) x) := by
  have base : movedId remap p.1 = p.2 := movedId_some (paired.base p mem)
  rw [foldNav_up (paired.apart mem mem)]
  by_cases own : x = p.1
  · rw [if_pos own, if_pos (done_snoc.mpr (.inr own))]
  have own_kids := folded.overlay_kids paired within mem x
  rw [if_neg own, folded.up]
  by_cases done : Done part x
  · rw [if_pos done, if_pos (done_snoc.mpr (.inl done)), if_neg fun h => by cases h.2.2]
  rw [if_neg done, if_neg fun h => (done_snoc.mp h).elim done own]
  cases parent : nav.parentOf[x]? with
  | none => rw [Option.map_none, if_neg fun h => by cases h.2.2]; rfl
  | some q =>
    rw [Option.map_some, Option.map_some]
    by_cases under : parentAfter remap part x q = p.1
    · obtain ⟨rfl, before⟩ := parentAfter_overlay paired mem under
      have listed : x ∈ nav.kids p.1 := (dual x p.1).mp parent
      rw [under, parentAfter, base]
      by_cases moves : Moves remap p.2 x
      · rw [if_pos ⟨own_kids.mpr ⟨fun done => before done moves, listed⟩, moves, rfl⟩,
          if_pos ⟨done_snoc.mpr (.inr rfl), moves⟩]
      · rw [if_neg fun h => moves h.2.1, if_neg fun h => moves h.2]
    · rw [if_neg fun h => under (Option.some.inj h.2.2)]
      congr 1
      unfold parentAfter at under ⊢
      by_cases other : q = p.1
      · subst other
        rw [base] at under ⊢
        split at under
        · rename_i moved
          rw [if_pos moved, if_pos ⟨done_snoc.mpr (.inl moved.1), moved.2⟩]
        · exact absurd rfl under
      · refine if_congr ?_ rfl rfl
        rw [done_snoc, or_iff_left other]

theorem FoldedNav.snoc (dual : ∀ k q, nav.Up k q ↔ k ∈ nav.kids q)
    (folded : FoldedNav remap part nav nav') :
    FoldedNav remap (part ++ [p]) nav (foldNav remap nav' p) where
  up := snoc_up paired within mem dual folded
  kids := snoc_kids paired within mem folded
  list _ := snoc_list paired within mem folded

end Snoc

theorem foldNavs (paired : Replaces remap) (dual : ∀ k q, nav.Up k q ↔ k ∈ nav.kids q)
    {part : List (NodeId × NodeId)} (within : ∀ p ∈ part, p ∈ remap) :
    FoldedNav remap part nav (part.foldl (foldNav remap) nav) := by
  induction part using List.reverseRecOn with
  | nil =>
    refine ⟨fun x => ?_, fun q x => ?_, fun q done => ?_⟩
    · rw [if_neg fun h : Done [] x => by obtain ⟨_, mem, _⟩ := h; cases mem]
      have still : parentAfter remap [] x = id := by
        funext q
        exact if_neg fun h => by obtain ⟨_, mem, _⟩ := h.1; cases mem
      rw [still, Option.map_id]
      rfl
    · simp [Done]
    · obtain ⟨_, mem, _⟩ := done
      cases mem
  | append_singleton part p ih =>
    rw [List.foldl_append]
    have before := ih fun q mem => within q (List.mem_append_left _ mem)
    exact before.snoc paired (fun q mem => within q (List.mem_append_left _ mem))
      (within p (List.mem_append_right _ List.mem_cons_self)) dual

end Run

section Whole
variable {nav : FullNav F}

theorem dropOverlays_kids (q : NodeId) : (dropOverlays remap nav).kids q =
    (nav.kids q).filter fun k => (baseId remap k).isNone := by
  rw [FullNav.kids, FullNav.kids, dropOverlays]
  dsimp only
  rw [Std.ExtTreeMap.getElem?_filterMap']
  cases nav.childrenOf[q]? with
  | none => rfl
  | some kids =>
    rw [Option.bind_some, Option.getD_some]
    split
    · rename_i emptied
      rw [Bool.and_eq_true, List.isEmpty_iff] at emptied
      rw [emptied.1]
      rfl
    · rfl

theorem dropOverlays_list {q : NodeId} (gone : nav.childrenOf[q]? = none) :
    (dropOverlays remap nav).childrenOf[q]? = none := by
  rw [dropOverlays]
  dsimp only
  rw [Std.ExtTreeMap.getElem?_filterMap', gone, Option.bind_none]

def foldedNav (remap : List (NodeId × NodeId)) (nav : FullNav F) : FullNav F :=
  dropOverlays remap (remap.foldl (foldNav remap) nav)

theorem done_remap {x : NodeId} : Done remap x ↔ (baseId remap x).isSome :=
  baseId_isSome_iff.symm

/-- The maps beside the tree: the display maps without some keys, the others as they were. -/
structure FoldedRecords (gone : NodeId → Prop) [DecidablePred gone] (nav nav' : FullNav F) : Prop where
  name : ∀ x, nav'.nameById[x]? = if gone x then none else nav.nameById[x]?
  qname : ∀ x, nav'.qnameById[x]? = if gone x then none else nav.qnameById[x]?
  kind : ∀ x, nav'.kindById[x]? = if gone x then none else nav.kindById[x]?
  fieldTypes : nav'.fieldTypes = nav.fieldTypes
  localTypes : nav'.localTypes = nav.localTypes
  navFacts : nav'.navFacts = nav.navFacts
  returnTypes : nav'.returnTypes = nav.returnTypes
  methodSigs : nav'.methodSigs = nav.methodSigs

theorem erase_again {β : Type} {m m' : IdMap β} {p : NodeId × NodeId} {part : List (NodeId × NodeId)}
    (erased : ∀ x, m'[x]? = if Done part x then none else (m.erase p.1)[x]?) (x : NodeId) :
    m'[x]? = if Done (p :: part) x then none else m[x]? := by
  have cons : Done (p :: part) x ↔ p.1 = x ∨ Done part x := by
    unfold Done
    simp only [List.mem_cons, or_and_right, exists_or, exists_eq_left]
  rw [erased, IdMap.get_erase]
  by_cases done : Done part x
  · rw [if_pos done, if_pos (cons.mpr (.inr done))]
  · rw [if_neg done]
    exact if_congr (by rw [cons, or_iff_left done]) rfl rfl

theorem foldNavs_records (part : List (NodeId × NodeId)) :
    FoldedRecords (Done part) nav (part.foldl (foldNav remap) nav) := by
  induction part generalizing nav with
  | nil =>
    have none : ∀ x, ¬Done [] x := by
      rintro x ⟨_, mem, _⟩
      cases mem
    constructor
    all_goals first | rfl | exact fun x => (if_neg (none x)).symm
  | cons p part ih =>
    have first := @adopts_records F remap (nav.without p.1) p.1 p.2 (nav.kids p.1)
    rw [← foldNav_eq] at first
    have rest := @ih (foldNav remap nav p)
    rw [List.foldl_cons]
    have name := rest.name
    have qname := rest.qname
    have kind := rest.kind
    rw [first.nameById] at name
    rw [first.qnameById] at qname
    rw [first.kindById] at kind
    exact ⟨erase_again name, erase_again qname, erase_again kind,
      rest.fieldTypes.trans first.fieldTypes, rest.localTypes.trans first.localTypes,
      rest.navFacts.trans first.navFacts, rest.returnTypes.trans first.returnTypes,
      rest.methodSigs.trans first.methodSigs⟩

theorem foldedNav_records : FoldedRecords (fun x => (baseId remap x).isSome) nav
    (foldedNav remap nav) := by
  have all := @foldNavs_records F remap nav remap
  have same : ∀ x, Done remap x ↔ (baseId remap x).isSome := fun x => done_remap
  exact ⟨fun x => (all.name x).trans (if_congr (same x) rfl rfl),
    fun x => (all.qname x).trans (if_congr (same x) rfl rfl),
    fun x => (all.kind x).trans (if_congr (same x) rfl rfl),
    all.fieldTypes, all.localTypes, all.navFacts, all.returnTypes, all.methodSigs⟩

theorem foldedNav_nodup (paired : Replaces remap) (once : ∀ q, (nav.kids q).Nodup) (q : NodeId) :
    ((foldedNav remap nav).kids q).Nodup := by
  have run : ∀ part : List (NodeId × NodeId), (∀ p ∈ part, p ∈ remap) → ∀ {nav : FullNav F},
      (∀ q, (nav.kids q).Nodup) → ∀ q, ((part.foldl (foldNav remap) nav).kids q).Nodup := by
    intro part
    induction part with
    | nil => exact fun _ _ once => once
    | cons p part ih =>
      intro within nav once
      have here := within p List.mem_cons_self
      rw [List.foldl_cons]
      exact ih (fun q mem => within q (List.mem_cons_of_mem p mem))
        (foldNav_nodup (paired.apart here here) once)
  rw [foldedNav, dropOverlays_kids]
  exact (run remap (fun p mem => mem) once q).filter _

section Dual
variable (paired : Replaces remap) (dual : ∀ k q, nav.Up k q ↔ k ∈ nav.kids q)
include paired dual

theorem foldedNav_unlisted {q : NodeId} (gone : (baseId remap q).isSome) :
    (foldedNav remap nav).childrenOf[q]? = none :=
  dropOverlays_list ((foldNavs paired dual fun _ mem => mem).list q (done_remap.mpr gone))

theorem foldedNav_up (x q : NodeId) : (foldedNav remap nav).Up x q ↔
    baseId remap x = none ∧ ∃ q', nav.Up x q' ∧
      q = if baseId remap q' = some x then q' else movedId remap q' := by
  have up := (foldNavs paired dual fun _ mem => mem).up x
  have after : baseId remap x = none → ∀ q', parentAfter remap remap x q' =
      if baseId remap q' = some x then q' else movedId remap q' := by
    intro stands q'
    unfold parentAfter
    cases found : baseId remap q' with
    | none =>
      have fresh : ¬Done remap q' := fun done => baseId_none_iff.mp found _ done.choose_spec.1
        done.choose_spec.2
      rw [if_neg fun h => fresh h.1, movedId_none found, if_neg (Option.some_ne_none x).symm]
    | some b =>
      have done : Done remap q' := done_remap.mpr (by rw [found]; rfl)
      rw [movedId_some found]
      by_cases own : x = b
      · rw [if_neg fun h => h.2.1 own, if_pos (by rw [own])]
      · rw [if_pos ⟨done, own, stands⟩, if_neg fun h => own (Option.some.inj h).symm]
  rw [FullNav.Up, show (foldedNav remap nav).parentOf[x]? = _ from up]
  cases stands : baseId remap x with
  | some b =>
    rw [if_pos (done_remap.mpr (by rw [stands]; rfl))]
    simp
  | none =>
    have fresh : ¬Done remap x := fun h => by rw [done_remap, stands] at h; cases h
    rw [if_neg fresh, Option.map_eq_some_iff]
    simp only [after stands, true_and, FullNav.Up]
    exact exists_congr fun q' => and_congr_right fun _ => eq_comm

theorem foldedNav_kids_iff (q x : NodeId) : x ∈ (foldedNav remap nav).kids q ↔
    baseId remap x = none ∧ ∃ q', nav.Up x q' ∧ baseId remap q' ≠ some x ∧
      q = movedId remap q' := by
  rw [foldedNav, dropOverlays_kids, List.mem_filter, Option.isNone_iff_eq_none, and_comm,
    (foldNavs paired dual fun _ mem => mem).kids, done_remap]
  refine and_congr_right fun stands => ?_
  constructor
  · rintro ⟨fresh, own | ⟨p, mem, rfl, listed, other, _⟩⟩
    · have none : baseId remap q = none := Option.not_isSome_iff_eq_none.mp fresh
      exact ⟨q, (dual x q).mpr own, by rw [none]; exact (Option.some_ne_none x).symm,
        (movedId_none none).symm⟩
    · have base := paired.base p mem
      exact ⟨p.1, (dual x p.1).mpr listed,
        fun eq => other (Option.some.inj (eq.symm.trans base)), (movedId_some base).symm⟩
  · rintro ⟨q', up, other, rfl⟩
    refine ⟨by rw [paired.movedId_stands]; exact Bool.false_ne_true, ?_⟩
    have listed := (dual x q').mp up
    cases found : baseId remap q' with
    | none =>
      rw [movedId_none found]
      exact .inl listed
    | some b =>
      rw [movedId_some found]
      exact .inr ⟨(q', b), baseId_mem found, rfl, listed,
        fun eq => other (by rw [found, eq]), stands⟩

end Dual

end Whole

end Glia.Graph
