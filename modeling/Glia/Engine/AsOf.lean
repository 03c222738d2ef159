import Glia.Algo.TimelineSpans
import Glia.Engine.Timeline

/-! A stored timeline passes the store's rules, and gives back each snapshot it was folded from
up to the edge ends it cannot trace. -/
namespace Glia.Engine

open Glia.Algo
open Glia.Graph (IdMap)
open Glia.Kit (OrdMap gather getElem?_gather getElem?_gather_push Track Lives)
open Glia.Store

section Interned

def Strings.Sound (st : Strings) : Prop :=
  ∀ (s : String) (ix : Nat), st.index[s]? = some ix → ix < st.list.length

def Strings.Grown (st st' : Strings) : Prop := st'.Sound ∧ st.list.length ≤ st'.list.length

theorem Strings.Grown.trans {a b c : Strings} (h : a.Grown b) (h' : b.Grown c) : a.Grown c :=
  ⟨h'.1, Nat.le_trans h.2 h'.2⟩

theorem intern_spec {st : Strings} (sound : st.Sound) (s : String) :
    (st.intern s).1 < (st.intern s).2.list.length ∧ st.Grown (st.intern s).2 := by
  rw [Strings.intern]
  cases found : st.index[s]? with
  | some ix => exact ⟨sound s ix found, sound, Nat.le_refl _⟩
  | none =>
    have bound : min st.list.length maxRev < (st.list ++ [s]).length := by
      rw [List.length_append, List.length_singleton]
      omega
    refine ⟨bound, fun s' ix held => ?_, by simp⟩
    simp only [OrdMap.get_insert] at held
    split at held
    · cases held
      exact bound
    · have before := sound s' ix held
      rw [List.length_append, List.length_singleton]
      omega

theorem internFile_spec {st : Strings} (sound : st.Sound) (file : Option String) :
    (internFile st file).1 ≤ (internFile st file).2.list.length ∧
      st.Grown (internFile st file).2 := by
  cases file with
  | none => exact ⟨Nat.zero_le _, sound, Nat.le_refl _⟩
  | some f =>
    obtain ⟨bound, grown⟩ := intern_spec sound f
    refine ⟨?_, grown⟩
    show min ((st.intern f).1 + 1) maxRev ≤ (st.intern f).2.list.length
    omega

theorem storeNode_spec (infos : IdMap NodeInfo) {st : Strings} (sound : st.Sound) (s : NodeSpan) :
    (storeNode infos st s).1.qname < (storeNode infos st s).2.list.length ∧
      (storeNode infos st s).1.file ≤ (storeNode infos st s).2.list.length ∧
        st.Grown (storeNode infos st s).2 := by
  obtain ⟨qname, grown⟩ := intern_spec sound (qnameOf infos s.id)
  obtain ⟨file, grown'⟩ := internFile_spec grown.1 (infos[s.id]?.bind NodeInfo.file)
  exact ⟨Nat.lt_of_lt_of_le qname grown'.2, file, grown.trans grown'⟩

theorem storeNodes_spec (infos : IdMap NodeInfo) (spans : List NodeSpan) {st : Strings}
    (sound : st.Sound) : st.Grown (storeNodes infos st spans).2 ∧
      ∀ n ∈ (storeNodes infos st spans).1,
        n.qname < (storeNodes infos st spans).2.list.length ∧
          n.file ≤ (storeNodes infos st spans).2.list.length := by
  induction spans generalizing st with
  | nil => exact ⟨⟨sound, Nat.le_refl _⟩, by simp [storeNodes]⟩
  | cons s spans ih =>
    obtain ⟨qname, file, grown⟩ := storeNode_spec infos sound s
    obtain ⟨grown', rest⟩ := ih grown.1
    refine ⟨grown.trans grown', fun n mem => ?_⟩
    obtain rfl | mem := List.mem_cons.mp mem
    · exact ⟨Nat.lt_of_lt_of_le qname grown'.2, Nat.le_trans file grown'.2⟩
    · exact rest n mem

theorem storeNodes_spans (infos : IdMap NodeInfo) (spans : List NodeSpan) (st : Strings) :
    (storeNodes infos st spans).1.map (fun n => (n.id, n.fromRev, n.untilRev, n.prior)) =
      spans.map fun s => (s.id, s.fromRev, s.untilRev.getD timelineOpen, s.priorIds) := by
  induction spans generalizing st with
  | nil => rfl
  | cons s spans ih => exact congrArg (_ :: ·) (ih _)

end Interned

section Segments

theorem priorAt_cons (p : Nat × NodeId) (prior : List (Nat × NodeId)) (id : NodeId) (r : Nat) :
    priorAt (p :: prior) id r = if r < p.1 then p.2 else priorAt prior id r := by
  rw [priorAt, priorAt, List.find?_cons]
  by_cases below : r < p.1 <;> simp [below]

theorem idAt_eq (n : TimelineNode) (r : Nat) : idAt n r = priorAt n.prior n.id r := rfl

/-- A span's segments give the id it had at each revision, and nothing else. -/
theorem mem_idSegments {i start until_ : Nat} {prior : List (Nat × NodeId)} {id : NodeId}
    (ordered : prior.Pairwise fun p q => p.1 < q.1)
    (inside : ∀ p ∈ prior, start ≤ p.1 ∧ p.1 ≤ until_) {r : Nat} {x : NodeId} {j : Nat} :
    (∃ f u, (x, j, f, u) ∈ idSegments i start prior id until_ ∧ f ≤ r ∧ r < u) ↔
      j = i ∧ start ≤ r ∧ r < until_ ∧ x = priorAt prior id r := by
  induction prior generalizing start with
  | nil =>
    simp only [idSegments, List.mem_singleton, Prod.mk.injEq]
    constructor
    · rintro ⟨f, u, ⟨rfl, rfl, rfl, rfl⟩, lower, upper⟩
      exact ⟨rfl, lower, upper, rfl⟩
    · rintro ⟨rfl, lower, upper, rfl⟩
      exact ⟨start, until_, ⟨rfl, rfl, rfl, rfl⟩, lower, upper⟩
  | cons p prior ih =>
    rw [List.pairwise_cons] at ordered
    obtain ⟨startLe, leUntil⟩ := inside p List.mem_cons_self
    have later : ∀ q ∈ prior, p.1 ≤ q.1 ∧ q.1 ≤ until_ := fun q mem =>
      ⟨Nat.le_of_lt (ordered.1 q mem), (inside q (List.mem_cons_of_mem p mem)).2⟩
    have rest := ih ordered.2 later
    simp only [idSegments, List.mem_cons, Prod.mk.injEq, or_and_right, exists_or, rest,
      priorAt_cons]
    by_cases below : r < p.1
    · rw [if_pos below]
      constructor
      · rintro (⟨f, u, ⟨rfl, rfl, rfl, rfl⟩, lower, upper⟩ | ⟨-, lower, -⟩)
        · exact ⟨rfl, lower, Nat.lt_of_lt_of_le upper leUntil, rfl⟩
        · exact absurd below (Nat.not_lt.mpr lower)
      · rintro ⟨rfl, lower, -, rfl⟩
        exact .inl ⟨start, p.1, ⟨rfl, rfl, rfl, rfl⟩, lower, below⟩
    · rw [if_neg below]
      constructor
      · rintro (⟨f, u, ⟨rfl, rfl, rfl, rfl⟩, -, upper⟩ | ⟨rfl, lower, upper, rfl⟩)
        · exact absurd upper below
        · exact ⟨rfl, Nat.le_trans startLe lower, upper, rfl⟩
      · rintro ⟨rfl, -, upper, rfl⟩
        exact .inr ⟨rfl, Nat.le_of_not_lt below, upper, rfl⟩

def allSegments (store : TimelineStore) : List (NodeId × Nat × Nat × Nat) :=
  store.nodes.zipIdx.flatMap fun e => idSegments e.2 e.1.fromRev e.1.prior e.1.id e.1.untilRev

theorem idIndex_get (store : TimelineStore) (id : NodeId) :
    ((idIndex store)[id]?).getD [] =
      ((allSegments store).filter fun e => e.1 = id).map Prod.snd :=
  getElem?_gather_push (allSegments store) id

theorem spanAt_eq (store : TimelineStore) (id : NodeId) (r : Nat) :
    spanAt (idIndex store) id r = ((((allSegments store).filter fun e => e.1 = id).map
      Prod.snd).find? fun e => e.2.1 ≤ r && r < e.2.2).map Prod.fst := by
  rw [spanAt, ← idIndex_get]
  cases (idIndex store)[id]? <;> rfl

theorem spanAt_some {store : TimelineStore} {id : NodeId} {r s : Nat}
    (h : spanAt (idIndex store) id r = some s) :
    ∃ f u, (id, s, f, u) ∈ allSegments store ∧ f ≤ r ∧ r < u := by
  rw [spanAt_eq] at h
  obtain ⟨⟨s', f, u⟩, found, rfl⟩ := Option.map_eq_some_iff.mp h
  have passed := List.find?_some found
  obtain ⟨⟨x, e⟩, mem, same⟩ := List.mem_map.mp (List.mem_of_find?_eq_some found)
  rw [List.mem_filter, decide_eq_true_eq] at mem
  obtain ⟨mem, rfl⟩ := mem
  obtain rfl : e = (s', f, u) := same
  rw [Bool.and_eq_true, decide_eq_true_eq, decide_eq_true_eq] at passed
  exact ⟨f, u, mem, passed⟩

theorem spanAt_none {store : TimelineStore} {id : NodeId} {r : Nat}
    (h : spanAt (idIndex store) id r = none) {s f u : Nat}
    (mem : (id, s, f, u) ∈ allSegments store) (lower : f ≤ r) (upper : r < u) : False := by
  rw [spanAt_eq, Option.map_eq_none_iff, List.find?_eq_none] at h
  have listed : (s, f, u) ∈ ((allSegments store).filter fun e => e.1 = id).map Prod.snd :=
    List.mem_map.mpr ⟨(id, s, f, u), List.mem_filter.mpr ⟨mem, decide_eq_true rfl⟩, rfl⟩
  apply h _ listed
  rw [Bool.and_eq_true, decide_eq_true_eq, decide_eq_true_eq]
  exact ⟨lower, upper⟩

theorem mem_allSegments {store : TimelineStore} {e : NodeId × Nat × Nat × Nat} :
    e ∈ allSegments store ↔ ∃ (i : Nat) (n : TimelineNode), store.nodes[i]? = some n ∧
      e ∈ idSegments i n.fromRev n.prior n.id n.untilRev := by
  rw [allSegments, List.mem_flatMap]
  constructor
  · rintro ⟨⟨n, i⟩, mem, inside⟩
    exact ⟨i, n, List.mk_mem_zipIdx_iff_getElem?.mp mem, inside⟩
  · rintro ⟨i, n, at_, inside⟩
    exact ⟨(n, i), List.mk_mem_zipIdx_iff_getElem?.mpr at_, inside⟩

end Segments

structure History where
  firstRev : RevInfo
  first : DeltaSide
  later : List (RevInfo × TimelineBuilder.Push)

namespace History

def snapshots (h : History) : Snapshots := ⟨h.first, h.later.map Prod.snd⟩

def built (h : History) : List RevInfo := h.firstRev :: h.later.map Prod.fst

def store (h : History) (repo : Nat) (infos : IdMap NodeInfo) : TimelineStore :=
  toStore repo h.built h.snapshots.timeline infos

end History

section Stored
variable {h : History} {repo : Nat} {infos : IdMap NodeInfo}

theorem length_revs : (h.store repo infos).revs.length = h.later.length + 1 := by
  simp [History.store, toStore, History.built]

theorem length_pushes : h.snapshots.pushes.length = h.later.length := by
  simp [History.snapshots]

variable (fits : h.later.length + 1 < timelineOpen)
include fits

theorem pushes_fit : h.snapshots.pushes.length ≤ maxRev := by
  rw [length_pushes]
  have open_ : timelineOpen = maxRev := rfl
  omega

theorem until_iff {t : Nat} {u : Option Nat} (ends : EndsAt h.snapshots.pushes.length t u) :
    t ≤ h.later.length ∧ t < u.getD timelineOpen ∧
      (∀ r ≤ h.later.length, r < u.getD timelineOpen ↔ r ≤ t) ∧
      (u.getD timelineOpen = timelineOpen ∧ t = h.later.length ∨
        u.getD timelineOpen = t + 1 ∧ t < h.later.length) := by
  rw [length_pushes] at ends
  cases u with
  | none =>
    obtain rfl : t = h.later.length := ends
    have bound : h.later.length < timelineOpen := Nat.lt_of_succ_lt fits
    exact ⟨Nat.le_refl _, bound, fun r le => iff_of_true (Nat.lt_of_le_of_lt le bound) le,
      .inl ⟨rfl, rfl⟩⟩
  | some u =>
    obtain ⟨rfl, below⟩ := ends
    exact ⟨Nat.le_of_lt below, Nat.lt_succ_self t, fun r _ => Nat.lt_succ_iff,
      .inr ⟨rfl, below⟩⟩

structure StoredNode (h : History) (n : TimelineNode) (t : Nat) : Prop where
  bound : t ≤ h.later.length
  past : t < n.untilRev
  covers : ∀ r ≤ h.later.length, n.covers r = true ↔ n.fromRev ≤ r ∧ r ≤ t
  ends : n.untilRev = timelineOpen ∨ n.untilRev = t + 1 ∧ t < h.later.length
  lives : Lives h.snapshots.nodeAt h.snapshots.stepNode h.later.length n.fromRev t n.id
  told : Told h.snapshots t n.id (n.fromRev, n.prior)

theorem stored_node {n : TimelineNode} (mem : n ∈ (h.store repo infos).nodes) :
    ∃ t, StoredNode h n t := by
  have view := storeNodes_spans infos h.snapshots.timeline.nodes {}
  have listed : (n.id, n.fromRev, n.untilRev, n.prior) ∈ h.snapshots.timeline.nodes.map
      fun s => (s.id, s.fromRev, s.untilRev.getD timelineOpen, s.priorIds) := by
    rw [← view]
    exact List.mem_map_of_mem (f := fun n : TimelineNode => (n.id, n.fromRev, n.untilRev, n.prior))
      mem
  obtain ⟨s, held, same⟩ := List.mem_map.mp listed
  simp only [Prod.mk.injEq] at same
  obtain ⟨id, from_, until_, prior⟩ := same
  obtain ⟨t, ends, lives, told⟩ := nodeSpan_lives (pushes_fit fits) held
  obtain ⟨bound, past, covers, shape⟩ := until_iff fits ends
  rw [length_pushes] at lives
  rw [until_] at past covers shape
  refine ⟨t, bound, past, fun r le => ?_, shape.imp And.left fun e => e, ?_, ?_⟩
  · rw [TimelineNode.covers, Bool.and_eq_true, decide_eq_true_eq, decide_eq_true_eq, covers r le]
  · rw [← id, ← from_]
    exact lives
  · rw [← id, ← from_, ← prior]
    exact told

variable (repo infos) in
theorem stored_node_of {r : Nat} {x : NodeId} (le : r ≤ h.later.length)
    (there : h.snapshots.nodeAt r x) :
    ∃ n ∈ (h.store repo infos).nodes, n.covers r = true ∧ idAt n r = x := by
  rw [← length_pushes] at le
  obtain ⟨s, held, t, ends, started, track⟩ := node_covered (pushes_fit fits) le there
  have view := storeNodes_spans infos h.snapshots.timeline.nodes {}
  have listed : (s.id, s.fromRev, s.untilRev.getD timelineOpen, s.priorIds) ∈
      (h.store repo infos).nodes.map fun n => (n.id, n.fromRev, n.untilRev, n.prior) := by
    rw [History.store, toStore]
    rw [view]
    exact List.mem_map_of_mem
      (f := fun s : NodeSpan => (s.id, s.fromRev, s.untilRev.getD timelineOpen, s.priorIds)) held
  obtain ⟨n, mem, same⟩ := List.mem_map.mp listed
  simp only [Prod.mk.injEq] at same
  obtain ⟨id, from_, until_, prior⟩ := same
  obtain ⟨t', ends', -, told⟩ := nodeSpan_lives (pushes_fit fits) held
  have same_end : t' = t := by
    cases ends_ : s.untilRev with
    | none =>
      rw [ends_] at ends ends'
      exact Eq.trans ends' (Eq.symm ends)
    | some u =>
      rw [ends_] at ends ends'
      have := ends.1
      have := ends'.1
      omega
  rw [same_end] at told
  obtain ⟨-, -, covers, -⟩ := until_iff fits ends
  rw [length_pushes] at le
  refine ⟨n, mem, ?_, ?_⟩
  · rw [TimelineNode.covers, Bool.and_eq_true, decide_eq_true_eq, decide_eq_true_eq, from_, until_,
      covers r le]
    exact ⟨started, track.le⟩
  · rw [idAt_eq, prior, id]
    exact (told.path r started track.le).unique_start stepNode_injective track

/-- A stored edge's key, under the ids last seen. -/
def edgeKey (e : TimelineEdge) : EdgeKey := toLex (e.source, toLex (e.target, e.category))

structure StoredEdge (h : History) (e : TimelineEdge) (t : Nat) : Prop where
  bound : t ≤ h.later.length
  covers : ∀ r ≤ h.later.length, e.covers r = true ↔ e.fromRev ≤ r ∧ r ≤ t
  last : lastRev e (h.later.length + 1) = t
  ends : e.untilRev = timelineOpen ∨ e.untilRev = t + 1 ∧ t < h.later.length
  lives : Lives h.snapshots.edgeAt h.snapshots.stepEdge h.later.length e.fromRev t (edgeKey e)

theorem storedEdge_of_span {s : EdgeSpan} {t : Nat}
    (ends : EndsAt h.snapshots.pushes.length t s.untilRev)
    (lives : Lives h.snapshots.edgeAt h.snapshots.stepEdge h.snapshots.pushes.length s.fromRev t
      s.key) : StoredEdge h (storeEdge s) t := by
  obtain ⟨bound, past, covers, shape⟩ := until_iff fits ends
  rw [length_pushes] at lives
  refine ⟨bound, fun r le => ?_, ?_, shape.imp And.left fun e => e, lives⟩
  · rw [TimelineEdge.covers, Bool.and_eq_true, decide_eq_true_eq, decide_eq_true_eq]
    exact and_congr_right fun _ => covers r le
  · rw [lastRev, TimelineEdge.gone]
    obtain ⟨open_, rfl⟩ | ⟨shut, below⟩ := shape
    · have shown : (storeEdge s).untilRev = timelineOpen := open_
      rw [shown, if_neg (not_not_intro rfl)]
      have open_rev : timelineOpen = maxRev := rfl
      show min (h.later.length + 1) maxRev - 1 = h.later.length
      omega
    · rw [if_pos]
      · show s.untilRev.getD timelineOpen - 1 = t
        omega
      · show s.untilRev.getD timelineOpen ≠ timelineOpen
        omega

theorem stored_edge {e : TimelineEdge} (mem : e ∈ (h.store repo infos).edges) :
    ∃ t, StoredEdge h e t := by
  obtain ⟨s, held, rfl⟩ := List.mem_map.mp mem
  obtain ⟨t, ends, lives⟩ := edgeSpan_lives (pushes_fit fits) held
  exact ⟨t, storedEdge_of_span fits ends lives⟩

variable (repo infos) in
theorem stored_edge_of {r : Nat} {k : EdgeKey} (le : r ≤ h.later.length)
    (there : h.snapshots.edgeAt r k) :
    ∃ e ∈ (h.store repo infos).edges, ∃ t, StoredEdge h e t ∧ e.fromRev ≤ r ∧
      Track h.snapshots.edgeAt h.snapshots.stepEdge r k t (edgeKey e) := by
  rw [← length_pushes] at le
  obtain ⟨s, held, t, ends, started, track⟩ := edge_covered (pushes_fit fits) le there
  obtain ⟨t', ends', lives⟩ := edgeSpan_lives (pushes_fit fits) held
  have same_end : t' = t := by
    cases ends_ : s.untilRev with
    | none =>
      rw [ends_] at ends ends'
      exact Eq.trans ends' (Eq.symm ends)
    | some u =>
      rw [ends_] at ends ends'
      have := ends.1
      have := ends'.1
      omega
  rw [same_end] at lives
  exact ⟨storeEdge s, List.mem_map_of_mem held, t, storedEdge_of_span fits ends lives, started,
    track⟩

end Stored

section Ends
variable {h : History} {repo : Nat} {infos : IdMap NodeInfo}

theorem ends_track {hs : Snapshots} {items : Nat → NodeId → Prop}
    (ends : ∀ s k, hs.edgeAt s k → items s k.source ∧ items s k.target) {r t : Nat}
    {k last : EdgeKey} (track : Track hs.edgeAt hs.stepEdge r k t last) :
    Track items hs.stepNode r k.source t last.source ∧
      Track items hs.stepNode r k.target t last.target := by
  induction track with
  | here there => exact ⟨.here (ends r k there).1, .here (ends r k there).2⟩
  | next _ there ih => exact ⟨ih.1.next (ends _ _ there).1, ih.2.next (ends _ _ there).2⟩

theorem spanAt_stored (fits : h.later.length + 1 < timelineOpen) {x : NodeId} {t s : Nat}
    (found : spanAt (idIndex (h.store repo infos)) x t = some s) :
    ∃ n ∈ (h.store repo infos).nodes, (h.store repo infos).nodes[s]? = some n ∧
      n.fromRev ≤ t ∧ t < n.untilRev ∧ x = idAt n t := by
  obtain ⟨f, u, mem, lower, upper⟩ := spanAt_some found
  obtain ⟨i, n, at_, inside⟩ := mem_allSegments.mp mem
  have listed := List.mem_of_getElem? at_
  obtain ⟨stop, stored⟩ := stored_node fits listed
  obtain ⟨rfl, started, past, same⟩ := (mem_idSegments stored.told.ordered fun p hp =>
    ⟨Nat.le_of_lt (stored.told.inside p hp).1, Nat.le_of_lt (Nat.lt_of_le_of_lt
      (stored.told.inside p hp).2 stored.past)⟩).mp ⟨f, u, inside, lower, upper⟩
  exact ⟨n, listed, at_, started, past, same⟩

theorem spanAt_isSome (fits : h.later.length + 1 < timelineOpen) {x : NodeId} {t : Nat}
    (le : t ≤ h.later.length) (there : h.snapshots.nodeAt t x) :
    spanAt (idIndex (h.store repo infos)) x t ≠ none := by
  intro none_found
  obtain ⟨n, mem, covered, same⟩ := stored_node_of repo infos fits le there
  obtain ⟨stop, stored⟩ := stored_node fits mem
  obtain ⟨i, bound, at_⟩ := List.getElem_of_mem mem
  obtain ⟨started, upper⟩ := (stored.covers t le).mp covered
  obtain ⟨f, u, inside, lower, upper'⟩ := (mem_idSegments (i := i) (j := i) (r := t)
    stored.told.ordered fun p hp =>
    ⟨Nat.le_of_lt (stored.told.inside p hp).1, Nat.le_of_lt (Nat.lt_of_le_of_lt
      (stored.told.inside p hp).2 stored.past)⟩).mpr
    ⟨rfl, started, Nat.lt_of_le_of_lt upper stored.past, (idAt_eq n t).symm.trans same |>.symm⟩
  have listed := mem_allSegments.mpr ⟨i, n, List.getElem?_eq_some_iff.mpr ⟨bound, at_⟩, inside⟩
  exact spanAt_none none_found listed lower upper'

variable (repo infos) in
open Classical in
/-- An end traced back through nodes is the id it was; one that is not a node all along stays
as last seen. -/
theorem endAt_eq (fits : h.later.length + 1 < timelineOpen) {r t : Nat} {x y : NodeId}
    (le : t ≤ h.later.length)
    (track : Track (fun s => Named (h.snapshots.side s)) h.snapshots.stepNode r x t y) :
    endAt (h.store repo infos) r y t =
      if Track h.snapshots.nodeAt h.snapshots.stepNode r x t y then x else y := by
  have inj : ∀ s z z', Named (h.snapshots.side s) z → Named (h.snapshots.side s) z' →
      h.snapshots.stepNode s z = h.snapshots.stepNode s z' → z = z' :=
    fun s z z' hz hz' same => stepId_injective _ _ _ hz hz' same
  have named : ∀ s z, h.snapshots.nodeAt s z → Named (h.snapshots.side s) z :=
    fun _ _ there => .inl there
  rw [endAt]
  cases found : spanAt (idIndex (h.store repo infos)) y t with
  | none =>
    rw [if_neg]
    · rfl
    · exact fun nodes => spanAt_isSome fits le nodes.present_end found
  | some s =>
    obtain ⟨n, mem, at_, started, past, same⟩ := spanAt_stored fits found
    obtain ⟨stop, stored⟩ := stored_node fits mem
    have within : t ≤ stop := by
      have past' := past
      obtain open_ | ⟨shut, -⟩ := stored.ends
      · by_contra beyond
        have upTo := (stored.covers t le).mp (by
          rw [TimelineNode.covers, Bool.and_eq_true, decide_eq_true_eq, decide_eq_true_eq]
          exact ⟨started, past⟩)
        exact beyond upTo.2
      · omega
    have here := stored.told.path t started within
    rw [← idAt_eq, ← same] at here
    rw [Option.bind_some, at_]
    by_cases covered : n.covers r = true
    · obtain ⟨startedR, -⟩ := (stored.covers r (Nat.le_trans track.le le)).mp covered
      have before := stored.told.path r startedR (Nat.le_trans track.le within)
      obtain ⟨z, first, rest⟩ := before.split track.le within
      obtain rfl := rest.unique_start stepNode_injective here
      have same_x := (first.mono named).unique_start inj track
      rw [if_pos (same_x ▸ first), Option.filter_some, if_pos covered]
      exact same_x
    · rw [Option.filter_some, if_neg covered, if_neg]
      intro nodes
      have after : r < n.fromRev := by
        by_contra not_after
        exact covered ((stored.covers r (Nat.le_trans track.le le)).mpr
          ⟨Nat.le_of_not_lt not_after, Nat.le_trans track.le within⟩)
      obtain ⟨q, start⟩ : ∃ q, n.fromRev = q + 1 := ⟨n.fromRev - 1, by omega⟩
      obtain ⟨x₀, born, fresh⟩ := stored.lives.born
      obtain ⟨z, first, rest⟩ := nodes.split (s := q) (by omega) (by omega)
      obtain ⟨there, rest⟩ := rest.tail (by omega)
      rw [start] at born
      exact fresh q start z first.present_end
        ((rest.trans here).unique_start stepNode_injective born)

end Ends

section Fates

instance (s : DeltaSide) (id : NodeId) : Decidable (HasNode s id) :=
  inferInstanceAs (Decidable (∃ n ∈ s.nodes, n.id = id))

instance (s : DeltaSide) (k : EdgeKey) : Decidable (HasEdge s k) :=
  inferInstanceAs (Decidable (∃ e ∈ s.edges, EdgeKey.of e = k))

/-- An edge's key at the last snapshot it goes on to, and whether each end is a node at every
one on the way. -/
structure Fate where
  last : EdgeKey
  source : Bool
  target : Bool

/-- Follow an edge of `s` through the later snapshots. -/
def fate : DeltaSide → List TimelineBuilder.Push → EdgeKey → Fate
  | s, [], k => ⟨k, HasNode s k.source, HasNode s k.target⟩
  | s, p :: rest, k =>
    let onward := stepKey s p.next p.moves k
    if HasEdge p.next onward then
      let f := fate p.next rest onward
      ⟨f.last, HasNode s k.source && f.source, HasNode s k.target && f.target⟩
    else ⟨k, HasNode s k.source, HasNode s k.target⟩

def shown (s : DeltaSide) (rest : List TimelineBuilder.Push) (k : EdgeKey) : EdgeKey :=
  let f := fate s rest k
  toLex (if f.source then k.source else f.last.source,
    toLex (if f.target then k.target else f.last.target, k.category))

def edgeKeys (s : DeltaSide) : Finset EdgeKey := (s.edges.map EdgeKey.of).toFinset

theorem mem_edgeKeys {s : DeltaSide} {k : EdgeKey} : k ∈ edgeKeys s ↔ HasEdge s k := by
  rw [edgeKeys, List.mem_toFinset, List.mem_map]
  exact Iff.rfl

/-- At every snapshot, taking the ends that are not nodes all along to what they are last
leaves the set of edges as it is. -/
def Traceable (h : Snapshots) : Prop :=
  ∀ r ≤ h.pushes.length,
    (edgeKeys (h.side r)).image (shown (h.side r) (h.pushes.drop r)) = edgeKeys (h.side r)

structure FateOf (h : Snapshots) (r : Nat) (k : EdgeKey) (f : Fate) (t : Nat) : Prop where
  bound : t ≤ h.pushes.length
  track : Track h.edgeAt h.stepEdge r k t f.last
  stops : t < h.pushes.length → ¬h.edgeAt (t + 1) (h.stepEdge t f.last)
  source : f.source = true ↔ Track h.nodeAt h.stepNode r k.source t f.last.source
  target : f.target = true ↔ Track h.nodeAt h.stepNode r k.target t f.last.target

theorem track_here {α : Type} {items : Nat → α → Prop} {step : Nat → α → α} {r : Nat} {x : α} :
    Track items step r x r x ↔ items r x :=
  ⟨Track.present_start, .here⟩

theorem fate_spec {h : Snapshots} (rest : List TimelineBuilder.Push) {r : Nat} {k : EdgeKey}
    (left : h.pushes.drop r = rest) (le : r ≤ h.pushes.length) (there : h.edgeAt r k) :
    ∃ t, FateOf h r k (fate (h.side r) rest k) t := by
  have node_here : ∀ r x, h.nodeAt r x ↔ Track h.nodeAt h.stepNode r x r x :=
    fun _ _ => track_here.symm
  induction rest generalizing r k with
  | nil =>
    have last : h.pushes.length ≤ r := List.drop_eq_nil_iff.mp left
    exact ⟨r, le, .here there, fun below => absurd below (Nat.not_lt.mpr last),
      decide_eq_true_iff.trans (node_here r k.source),
      decide_eq_true_iff.trans (node_here r k.target)⟩
  | cons p rest ih =>
    have at_ : h.pushes[r]? = some p := by
      rw [← List.head?_drop, left]
      rfl
    have below : r < h.pushes.length := (List.getElem?_eq_some_iff.mp at_).1
    have next : h.side (r + 1) = p.next := by rw [Snapshots.side, at_]; rfl
    have moves : h.movesFrom r = p.moves := by rw [Snapshots.movesFrom, at_]; rfl
    have left' : h.pushes.drop (r + 1) = rest := by
      rw [← List.tail_drop, left]
      rfl
    have step : stepKey (h.side r) p.next p.moves k = h.stepEdge r k := by
      rw [← next, ← moves]
      rfl
    rw [fate, step]
    by_cases onward : HasEdge p.next (h.stepEdge r k)
    · have there' : h.edgeAt (r + 1) (h.stepEdge r k) := by rwa [Snapshots.edgeAt, next]
      obtain ⟨t, f⟩ := ih left' below there'
      rw [next] at f
      have through : ∀ x y : NodeId,
          (h.nodeAt r x ∧ Track h.nodeAt h.stepNode (r + 1) (h.stepNode r x) t y) ↔
            Track h.nodeAt h.stepNode r x t y := by
        intro x y
        constructor
        · rintro ⟨here, later⟩
          exact ((Track.here here).next later.present_start).trans later
        · intro whole
          exact ⟨whole.present_start, (whole.tail f.track.le).2⟩
      rw [if_pos onward]
      refine ⟨t, f.bound, ((Track.here there).next there').trans f.track, f.stops, ?_, ?_⟩
      · rw [Bool.and_eq_true, decide_eq_true_iff, f.source]
        exact through k.source _
      · rw [Bool.and_eq_true, decide_eq_true_iff, f.target]
        exact through k.target _
    · rw [if_neg onward]
      refine ⟨r, le, .here there, fun _ later => onward ?_,
        decide_eq_true_iff.trans (node_here r k.source),
      decide_eq_true_iff.trans (node_here r k.target)⟩
      rwa [Snapshots.edgeAt, next] at later

theorem traceable_of_ends {h : Snapshots}
    (ends : ∀ r k, h.edgeAt r k → h.nodeAt r k.source ∧ h.nodeAt r k.target) : Traceable h := by
  intro r le
  have same : ∀ k ∈ edgeKeys (h.side r), shown (h.side r) (h.pushes.drop r) k = k := by
    intro k mem
    obtain ⟨t, f⟩ := fate_spec (h := h) _ rfl le (mem_edgeKeys.mp mem)
    obtain ⟨source, target⟩ := ends_track ends f.track
    rw [shown, f.source.mpr source, f.target.mpr target]
    rfl
  rw [Finset.image_congr (g := id) same, Finset.image_id]

end Fates

section Shown
variable {h : History} {repo : Nat} {infos : IdMap NodeInfo}
  (fits : h.later.length + 1 < timelineOpen)
include fits

variable (repo infos) in
theorem stored_shown {r t : Nat} {e : TimelineEdge} {k : EdgeKey} (stored : StoredEdge h e t)
    (track : Track h.snapshots.edgeAt h.snapshots.stepEdge r k t (edgeKey e)) :
    (toLex (endAt (h.store repo infos) r e.source t,
        toLex (endAt (h.store repo infos) r e.target t, e.category)) : EdgeKey) =
      shown (h.snapshots.side r) (h.snapshots.pushes.drop r) k := by
  have bound : t ≤ h.snapshots.pushes.length := by
    rw [length_pushes]
    exact stored.bound
  obtain ⟨t', f⟩ := fate_spec (h := h.snapshots) _ rfl (Nat.le_trans track.le bound)
    track.present_start
  have ends : ∀ {a b : Nat} {x y : EdgeKey}, a ≤ b → b ≤ h.snapshots.pushes.length →
      Track h.snapshots.edgeAt h.snapshots.stepEdge r k a x →
      (a < h.snapshots.pushes.length → ¬h.snapshots.edgeAt (a + 1) (h.snapshots.stepEdge a x)) →
      Track h.snapshots.edgeAt h.snapshots.stepEdge r k b y → a = b := by
    intro a b x y le upper before stops after
    by_contra apart
    obtain ⟨z, first, rest⟩ := after.split before.le le
    obtain rfl := first.unique_end before
    exact stops (by omega) (rest.tail (by omega)).1
  have died : t < h.snapshots.pushes.length →
      ¬h.snapshots.edgeAt (t + 1) (h.snapshots.stepEdge t (edgeKey e)) := by
    rw [length_pushes]
    exact stored.lives.died
  obtain rfl : t = t' := by
    obtain le | le := Nat.le_total t t'
    · exact ends le f.bound track died f.track
    · exact (ends le bound f.track f.stops track).symm
  have last := f.track.unique_end track
  have category : k.category = e.category := by
    have stays : ∀ {s : Nat} {y : EdgeKey},
        Track h.snapshots.edgeAt h.snapshots.stepEdge r k s y → y.category = k.category := by
      intro s y track
      induction track with
      | here _ => rfl
      | next _ _ ih => exact ih
    exact (stays track).symm
  obtain ⟨source, target⟩ := ends_track (fun (s : Nat) k (there : h.snapshots.edgeAt s k) =>
    (⟨.inr ⟨k, there, .inl rfl⟩, .inr ⟨k, there, .inr rfl⟩⟩ :
      Named (h.snapshots.side s) k.source ∧ Named (h.snapshots.side s) k.target)) track
  rw [shown]
  apply EdgeKey.ext_ends
  · show endAt (h.store repo infos) r e.source t = if _ then _ else _
    have found := endAt_eq repo infos fits stored.bound source
    have traced := f.source
    rw [last] at traced ⊢
    simp only [← traced] at found
    exact found
  · show endAt (h.store repo infos) r e.target t = if _ then _ else _
    have found := endAt_eq repo infos fits stored.bound target
    have traced := f.target
    rw [last] at traced ⊢
    simp only [← traced] at found
    exact found
  · exact category.symm

variable (repo infos) in
theorem mem_edgesAt {r : Nat} (le : r ≤ h.later.length) (k : EdgeKey) :
    (∃ e ∈ edgesAt (h.store repo infos) r, EdgeKey.of e = k) ↔
      k ∈ (edgeKeys (h.snapshots.side r)).image
        (shown (h.snapshots.side r) (h.snapshots.pushes.drop r)) := by
  rw [Finset.mem_image]
  simp only [edgesAt, List.mem_map, List.mem_filter, mem_edgeKeys, length_revs]
  constructor
  · rintro ⟨_, ⟨e, ⟨mem, covered⟩, rfl⟩, rfl⟩
    obtain ⟨t, stored⟩ := stored_edge fits mem
    obtain ⟨started, upper⟩ := (stored.covers r le).mp covered
    obtain ⟨k, track⟩ := stored.lives.at_rev started upper
    refine ⟨k, track.present_start, ?_⟩
    rw [← stored_shown repo infos fits stored track, stored.last]
    rfl
  · rintro ⟨k, there, rfl⟩
    obtain ⟨e, mem, t, stored, started, track⟩ :=
      stored_edge_of repo infos fits le there
    refine ⟨_, ⟨e, ⟨mem, (stored.covers r le).mpr ⟨started, track.le⟩⟩, rfl⟩, ?_⟩
    rw [← stored_shown repo infos fits stored track, stored.last]
    rfl

variable (repo infos) in
theorem mem_nodesAt {r : Nat} (le : r ≤ h.later.length) :
    ((nodesAt (h.store repo infos) r).map Prod.fst).Nodup ∧
      ∀ id, id ∈ (nodesAt (h.store repo infos) r).map Prod.fst ↔ h.snapshots.nodeAt r id := by
  have folded : ∀ (l : List TimelineNode) (s : Finset NodeId × List (NodeId × String)),
      (s.2.map Prod.fst).Nodup → (∀ id, id ∈ s.1 ↔ id ∈ s.2.map Prod.fst) →
      let out := l.foldl (fun s n => if idAt n r ∈ s.1 then s
        else (insert (idAt n r) s.1, s.2 ++
          [(idAt n r, (h.store repo infos).strings[n.qname]?.getD "")])) s
      (out.2.map Prod.fst).Nodup ∧
        ∀ id, id ∈ out.2.map Prod.fst ↔ id ∈ s.2.map Prod.fst ∨ ∃ n ∈ l, idAt n r = id := by
    intro l
    induction l with
    | nil => exact fun s nodup _ => ⟨nodup, by simp⟩
    | cons n l ih =>
      intro s nodup seen
      rw [List.foldl_cons]
      by_cases known : idAt n r ∈ s.1
      · rw [if_pos known]
        obtain ⟨nodup', listed⟩ := ih s nodup seen
        refine ⟨nodup', fun id => ?_⟩
        rw [listed id, List.exists_mem_cons_iff]
        constructor
        · exact fun found => found.imp_right .inr
        · rintro (mem | rfl | later)
          · exact .inl mem
          · exact .inl ((seen _).mp known)
          · exact .inr later
      · rw [if_neg known]
        have fresh : idAt n r ∉ s.2.map Prod.fst := fun mem => known ((seen _).mpr mem)
        obtain ⟨nodup', listed⟩ := ih (insert (idAt n r) s.1, s.2 ++
          [(idAt n r, (h.store repo infos).strings[n.qname]?.getD "")])
          (by
            rw [List.map_append, List.nodup_append]
            refine ⟨nodup, by simp, fun a mem b mem' same => ?_⟩
            rw [List.map_singleton, List.mem_singleton] at mem'
            obtain rfl : b = idAt n r := mem'
            exact fresh (same ▸ mem))
          (fun id => by simp [seen, or_comm])
        refine ⟨nodup', fun id => ?_⟩
        rw [listed id, List.exists_mem_cons_iff, List.map_append, List.mem_append, or_assoc]
        simp [eq_comm]
  obtain ⟨nodup, listed⟩ := folded ((h.store repo infos).nodes.filter fun n => n.covers r) (∅, [])
    List.nodup_nil (by simp)
  refine ⟨nodup, fun id => (listed id).trans ?_⟩
  constructor
  · rintro (mem | ⟨n, mem, rfl⟩)
    · cases mem
    · obtain ⟨mem, covered⟩ := List.mem_filter.mp mem
      obtain ⟨t, stored⟩ := stored_node fits mem
      obtain ⟨started, upper⟩ := (stored.covers r le).mp covered
      exact (stored.told.path r started upper).present_start
  · intro there
    obtain ⟨n, mem, covered, same⟩ :=
      stored_node_of repo infos fits le there
    exact .inr ⟨n, List.mem_filter.mpr ⟨mem, covered⟩, same⟩

end Shown

section Check
variable {h : History} {repo : Nat} {infos : IdMap NodeInfo}

theorem checkSpan_stored {n : Nat} {from_ until_ t item : Nat} (started : from_ ≤ t) (bound : t ≤ n)
    (ends : until_ = timelineOpen ∨ until_ = t + 1 ∧ t < n) :
    checkSpan (n + 1) item from_ until_ = .ok () := by
  rw [checkSpan_ok]
  refine ⟨by omega, ?_⟩
  obtain open_ | ⟨shut, below⟩ := ends
  · exact .inl open_
  · exact .inr (by omega)

theorem checkNode_stored (fits : h.later.length + 1 < timelineOpen) {i : Nat} {n : TimelineNode}
    (mem : n ∈ (h.store repo infos).nodes) :
    checkNode (h.later.length + 1) (h.store repo infos).strings.length i n = .ok () := by
  have sound : Strings.Sound {} := fun s ix held => by simp at held
  have indexed : n.qname < (h.store repo infos).strings.length ∧
      n.file ≤ (h.store repo infos).strings.length :=
    (storeNodes_spec infos h.snapshots.timeline.nodes sound).2 n mem
  obtain ⟨qname, file⟩ := indexed
  obtain ⟨t, stored⟩ := stored_node fits mem
  have span : checkSpan (h.later.length + 1) i n.fromRev n.untilRev = .ok () :=
    checkSpan_stored stored.lives.start_le stored.bound stored.ends
  have prior : n.prior.find? (fun p => decide (p.1 ≥ h.later.length + 1)) = none := by
    rw [List.find?_eq_none]
    intro p listed beyond
    have upper := (stored.told.inside p listed).2
    have le := stored.bound
    rw [decide_eq_true_eq] at beyond
    omega
  rw [checkNode, if_neg (Nat.not_le.mpr qname), if_neg (Nat.not_lt.mpr file), span, prior]
  rfl

theorem check_store : (h.store repo infos).check = .ok () ↔
    h.later.length + 1 < timelineOpen ∧ ∀ r ∈ h.built, isOid r.sha = true := by
  rw [check_ok, length_revs]
  apply and_congr_right
  intro fits
  constructor
  · rintro ⟨revs, -, -⟩ r mem
    obtain ⟨i, bound, rfl⟩ := List.getElem_of_mem mem
    have passed := revs i (storeRev h.built[i]) (by
      show (h.built.map storeRev)[i]? = _
      rw [List.getElem?_map, List.getElem?_eq_getElem bound]
      rfl)
    rw [checkRev] at passed
    split at passed
    · cases passed
    · rename_i oid
      simpa [storeRev] using oid
  · intro oids
    refine ⟨fun i r at_ => ?_, fun i n at_ => checkNode_stored fits (List.mem_of_getElem? at_),
      fun i e at_ => ?_⟩
    · obtain ⟨info, mem, rfl⟩ := List.mem_map.mp (List.mem_of_getElem? at_)
      exact timelineSubject_ok i info.time info.subject (oids info mem)
    · obtain ⟨t, stored⟩ := stored_edge fits (List.mem_of_getElem? at_)
      exact checkSpan_stored stored.lives.start_le stored.bound stored.ends

end Check

section Named
variable {store : TimelineStore} {i : Nat}

theorem parseIndex_toString (i : Nat) : parseIndex (toString i).toList = some i := by
  have unsigned : (toString i).toList.head? ≠ some '+' := fun sign => by
    simpa using Text.isDigit_toString (List.mem_of_head? sign)
  have digits : (toString i).toList ≠ [] ∧ (toString i).toList.all Char.isDigit = true := by
    refine ⟨?_, List.all_eq_true.mpr fun c mem => Text.isDigit_toString mem⟩
    rw [Text.toString_digits]
    exact Nat.toDigits_ne_nil
  rw [parseIndex, if_neg unsigned, if_pos digits, ← Nat.ofDigitChars_eq_foldl,
    Text.toString_digits, Nat.ofDigitChars_ten_toDigits]

/-- Below seven digits an index is never read as a commit id. -/
theorem asOf_index (within : i < store.revs.length) (short : (toString i).toList.length < 7) :
    asOf store (toString i) = asOfAt store i := by
  have bare := Text.trimChars_bare fun c mem => Text.digit_bare (@Text.isDigit_toString i c mem)
  have named : revIndex store (toString i) = .ok i := by
    rw [revIndex, bare]
    simp only
    have long : ¬((toString i).toList.length ≥ 7 && (toString i).toList.all isHexDigit) = true := by
      simp only [Bool.and_eq_true, decide_eq_true_iff]
      omega
    rw [if_neg (by omega), if_neg long, parseIndex_toString]
    simp only
    rw [if_pos within]
  rw [asOf, named]
  rfl

/-- Seven or more hex characters that start one revision's commit id only. -/
theorem asOf_commit {rev : String} (hex : 7 ≤ (Text.trimChars rev.toList).length ∧
      (Text.trimChars rev.toList).all isHexDigit = true)
    (only : ∀ j, (∃ r, store.revs[j]? = some r ∧
      (Text.trimChars rev.toList).map Char.toLower <+: r.sha.toList) ↔ j = i) :
    asOf store rev = asOfAt store i := by
  have hits : ((store.revs.zipIdx.filter fun e => ((Text.trimChars rev.toList).map
      Char.toLower).isPrefixOf e.1.sha.toList).map Prod.snd) = [i] := by
    refine List.perm_singleton.mp ((List.perm_ext_iff_of_nodup ?_ (List.nodup_singleton i)).mpr ?_)
    · exact (List.nodup_zipIdx_map_snd store.revs).sublist (List.filter_sublist.map _)
    · intro j
      rw [List.mem_singleton, ← only j, List.mem_map]
      constructor
      · rintro ⟨⟨r, _⟩, mem, rfl⟩
        have ⟨listed, begins⟩ := List.mem_filter.mp mem
        exact ⟨r, List.mem_zipIdx_iff_getElem?.mp listed, List.isPrefixOf_iff_prefix.mp begins⟩
      · rintro ⟨r, at_, begins⟩
        exact ⟨(r, j), List.mem_filter.mpr ⟨List.mem_zipIdx_iff_getElem?.mpr at_,
          List.isPrefixOf_iff_prefix.mpr begins⟩, rfl⟩
  have ⟨r, at_, _⟩ := (only i).mpr rfl
  have within : store.revs.length ≠ 0 :=
    Nat.ne_of_gt (Nat.zero_lt_of_lt (List.getElem?_eq_some_iff.mp at_).1)
  have named : revIndex store rev = .ok i := by
    rw [revIndex]
    simp only
    rw [if_neg within, if_pos (by simp [hex]), hits]
  rw [asOf, named]
  rfl

end Named

section Exact

/-- The graph read back at `r` has snapshot `r`'s node ids, each once, and its edge keys. -/
def ExactAt (h : History) (store : TimelineStore) (r : Nat) : Prop :=
  ∃ view, asOfAt store r = .ok view ∧ view.nodes.Nodup ∧
    (∀ id, id ∈ view.nodes ↔ h.snapshots.nodeAt r id) ∧
      ∀ k, (∃ e ∈ view.edges, EdgeKey.of e = k) ↔ h.snapshots.edgeAt r k

theorem exactAt_iff {h : History} {repo : Nat} {infos : IdMap NodeInfo}
    (fits : h.later.length + 1 < timelineOpen) {r : Nat} (le : r ≤ h.later.length) :
    ExactAt h (h.store repo infos) r ↔
      (edgeKeys (h.snapshots.side r)).image
          (shown (h.snapshots.side r) (h.snapshots.pushes.drop r)) =
        edgeKeys (h.snapshots.side r) := by
  have bound : r < (h.store repo infos).revs.length := by
    rw [length_revs]
    omega
  have small : r ≤ maxRev := by
    have open_ : timelineOpen = maxRev := rfl
    omega
  obtain ⟨ref, found⟩ : ∃ ref, revRef (h.store repo infos) r = some ref := by
    rw [revRef, if_pos small, List.getElem?_eq_getElem bound]
    exact ⟨_, rfl⟩
  obtain ⟨nodup, nodes⟩ := mem_nodesAt repo infos fits le
  have edges := mem_edgesAt repo infos fits le
  rw [Finset.ext_iff]
  constructor
  · rintro ⟨view, read, -, -, same⟩ k
    rw [asOfAt, found] at read
    cases read
    rw [← edges, mem_edgeKeys]
    exact same k
  · intro same
    refine ⟨_, by rw [asOfAt, found], nodup, nodes, fun k => ?_⟩
    exact ((edges k).trans (same k)).trans mem_edgeKeys

/-- A stored timeline passes its check and gives every snapshot back exactly when its
revisions fit and are commit ids, and every snapshot's edges are traceable. -/
theorem stored_exact_iff (h : History) (repo : Nat) (infos : IdMap NodeInfo) :
    ((h.store repo infos).check = .ok () ∧
      ∀ r ≤ h.later.length, ExactAt h (h.store repo infos) r) ↔
    h.built.length < timelineOpen ∧ (∀ r ∈ h.built, isOid r.sha = true) ∧
      Traceable h.snapshots := by
  have length : h.built.length = h.later.length + 1 := by simp [History.built]
  rw [check_store, length, and_assoc]
  apply and_congr_right
  intro fits
  apply and_congr_right
  intro _
  rw [Traceable, length_pushes]
  exact forall₂_congr fun r le => exactAt_iff fits le

end Exact

/-- A function that loses its target, which had moved before. -/
def danglingHistory : History :=
  let node (id : NodeId) : Graph.Node := ⟨id, .strong, []⟩
  let call (target : NodeId) : Edge := ⟨1, target, EdgeCategory.calls, .strong, []⟩
  let rev : RevInfo := ⟨String.ofList (List.replicate 40 '0'), 0, ""⟩
  { firstRev := rev
    first := ⟨[node 1, node 2], [call 2]⟩
    later := [(rev, ⟨[(2, 3)], ⟨[node 1, node 3], [call 3]⟩⟩), (rev, ⟨[], ⟨[node 1], [call 3]⟩⟩)] }

/-- The edge comes back with its end as last seen. -/
theorem danglingHistory_not_exact : (danglingHistory.store 1 ∅).check = .ok () ∧
    ¬ExactAt danglingHistory (danglingHistory.store 1 ∅) 0 := by
  constructor
  · rw [check_store]
    decide +kernel
  · rintro ⟨view, read, -, -, edges⟩
    have shown_ : edgesAt (danglingHistory.store 1 ∅) 0 =
        [⟨1, 3, EdgeCategory.calls, .strong, []⟩] := by decide +kernel
    cases read
    obtain ⟨e, mem, same⟩ := (edges (toLex (1, toLex (2, EdgeCategory.calls)))).mpr
      ⟨_, List.mem_cons_self, rfl⟩
    have listed : e ∈ edgesAt (danglingHistory.store 1 ∅) 0 := mem
    rw [shown_, List.mem_singleton] at listed
    subst listed
    revert same
    decide

end Glia.Engine
