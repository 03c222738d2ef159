import Glia.Algo.Adjacency
import Mathlib.Data.Finset.Card

/-! When an index holds its source: below the limit every node and kept edge is in it,
over the limit it is empty. -/
namespace Glia.Algo

def GraphSource.indexed (g : GraphSource) (keep : CategorySet) : Finset NodeId :=
  (g.nodeIds ++ (g.keptEdges keep).flatMap fun e => [e.fromId, e.toId]).toFinset

def GraphSource.Fits (g : GraphSource) (keep : CategorySet) (cap : Nat) : Prop :=
  (g.indexed keep).card ≤ cap ∧ (g.keptEdges keep).length ≤ cap

instance (g : GraphSource) (keep : CategorySet) (cap : Nat) : Decidable (g.Fits keep cap) :=
  inferInstanceAs (Decidable (_ ∧ _))

namespace Adjacency

def Holds (ids : List NodeId) (kept : List Kept) (es : List Edge) : Prop :=
  List.Forall₂ (fun k e => ids[k.src]? = some e.fromId ∧ ids[k.dst]? = some e.toId ∧
    k.category = e.category) kept es

theorem Holds.extend {ids ids' : List NodeId} (sub : ids <+: ids') {kept : List Kept}
    {es : List Edge} (h : Holds ids kept es) : Holds ids' kept es := by
  obtain ⟨more, rfl⟩ := sub
  refine List.Forall₂.imp (fun k e hk => ?_) h
  obtain ⟨src, dst, cat⟩ := hk
  have lt := (List.getElem?_eq_some_iff.mp src).1
  have lt' := (List.getElem?_eq_some_iff.mp dst).1
  exact ⟨by rwa [List.getElem?_append_left lt], by rwa [List.getElem?_append_left lt'], cat⟩

section Room

variable {cap : Nat} {U : Finset NodeId} (room : U.card ≤ cap)
include room

theorem intern_isSome {ids : List NodeId} (nodup : ids.Nodup) (sub : ∀ x ∈ ids, x ∈ U)
    {id : NodeId} (mem : id ∈ U) :
    ∃ r, intern cap ids id = some r ∧ ∀ x, x ∈ r.1 ↔ x ∈ ids ∨ x = id := by
  unfold intern
  split
  · rename_i old
    refine ⟨_, rfl, fun x => ⟨.inl, fun h => h.elim (fun h => h) fun h => h ▸ old⟩⟩
  · rename_i fresh
    have lt : ids.length < cap := by
      have sub' : ids.toFinset ⊂ U := by
        refine ⟨fun x hx => sub x (List.mem_toFinset.mp hx), fun back => ?_⟩
        exact fresh (List.mem_toFinset.mp (back mem))
      have := Finset.card_lt_card sub'
      rw [List.toFinset_card_of_nodup nodup] at this
      omega
    rw [if_neg (by omega)]
    exact ⟨_, rfl, fun x => by simp⟩

theorem internAll_isSome {new : List NodeId} (inU : ∀ x ∈ new, x ∈ U) {ids : List NodeId}
    (nodup : ids.Nodup) (sub : ∀ x ∈ ids, x ∈ U) :
    ∃ out, internAll cap ids new = some out ∧ ∀ x, x ∈ out ↔ x ∈ ids ∨ x ∈ new := by
  induction new generalizing ids with
  | nil => exact ⟨ids, rfl, by simp⟩
  | cons id rest ih =>
    obtain ⟨r, hr, mem⟩ := intern_isSome room nodup sub (inU id List.mem_cons_self)
    have sub' : ∀ x ∈ r.1, x ∈ U := by
      intro x hx
      rcases (mem x).mp hx with hx | rfl
      · exact sub x hx
      · exact inU _ List.mem_cons_self
    obtain ⟨out, hout, mem'⟩ := ih (fun x hx => inU x (List.mem_cons_of_mem _ hx))
      (intern_nodup hr nodup) sub'
    refine ⟨out, by simp [internAll, hr, hout], fun x => ?_⟩
    rw [mem', mem, List.mem_cons, or_assoc]

theorem keepEdges_isSome {es : List Edge} (inU : ∀ e ∈ es, e.fromId ∈ U ∧ e.toId ∈ U)
    {ids : List NodeId} (nodup : ids.Nodup) (sub : ∀ x ∈ ids, x ∈ U) {kept : List Kept}
    {done : List Edge} (holds : Holds ids kept done) (few : kept.length + es.length ≤ cap) :
    ∃ out, keepEdges cap ids kept es = some out ∧ Holds out.1 out.2 (done ++ es) ∧
      ∀ x, x ∈ out.1 ↔ x ∈ ids ∨ ∃ e ∈ es, x = e.fromId ∨ x = e.toId := by
  induction es generalizing ids kept done with
  | nil => exact ⟨(ids, kept), rfl, by simpa using holds, by simp⟩
  | cons e rest ih =>
    rw [List.length_cons] at few
    obtain ⟨fromU, toU⟩ := inU e List.mem_cons_self
    obtain ⟨a, ha, memA⟩ := intern_isSome room nodup sub fromU
    have subA : ∀ x ∈ a.1, x ∈ U := by
      intro x hx
      rcases (memA x).mp hx with hx | rfl
      · exact sub x hx
      · exact fromU
    obtain ⟨b, hb, memB⟩ := intern_isSome room (intern_nodup ha nodup) subA toU
    have subB : ∀ x ∈ b.1, x ∈ U := by
      intro x hx
      rcases (memB x).mp hx with hx | rfl
      · exact subA x hx
      · exact toU
    have src : b.1[a.2]? = some e.fromId := by
      obtain ⟨more, eq⟩ := intern_isPrefix hb
      rw [← eq, List.getElem?_append_left (intern_lt ha)]
      exact intern_getElem? ha
    have holds' : Holds b.1 (kept ++ [⟨a.2, b.2, e.category⟩]) (done ++ [e]) := by
      refine List.rel_append ((holds.extend (intern_isPrefix ha)).extend (intern_isPrefix hb)) ?_
      exact List.Forall₂.cons ⟨src, intern_getElem? hb, rfl⟩ List.Forall₂.nil
    obtain ⟨out, hout, held, mem⟩ := ih (fun x hx => inU x (List.mem_cons_of_mem _ hx))
      (intern_nodup hb (intern_nodup ha nodup)) subB holds' (by simp; omega)
    refine ⟨out, ?_, by simpa using held, fun x => ?_⟩
    · unfold keepEdges
      rw [if_neg (by omega), ha, Option.bind_some, hb, Option.bind_some]
      exact hout
    · rw [mem, memB, memA]
      simp only [List.mem_cons, exists_eq_or_imp, or_assoc]

end Room

theorem keepEdges_none {cap : Nat} {es : List Edge} {ids : List NodeId} {kept : List Kept}
    (past : cap < kept.length + es.length) (few : kept.length ≤ cap) :
    keepEdges cap ids kept es = none := by
  induction es generalizing ids kept with
  | nil => simp at past; omega
  | cons e rest ih =>
    unfold keepEdges
    split
    · rfl
    · rename_i lt
      rw [List.length_cons] at past
      refine Option.bind_eq_none_iff.mpr fun a _ => Option.bind_eq_none_iff.mpr fun b _ => ?_
      exact ih (by simp; omega) (by simp; omega)

theorem build_holds {g : GraphSource} {keep : CategorySet} {cap : Nat}
    (fits : g.Fits keep cap) :
    Holds (buildCapped g keep cap).ids (buildCapped g keep cap).kept (g.keptEdges keep) ∧
      ∀ x, x ∈ (buildCapped g keep cap).ids ↔ x ∈ g.indexed keep := by
  obtain ⟨room, few⟩ := fits
  have nodes : ∀ x ∈ g.nodeIds, x ∈ g.indexed keep := by
    intro x hx
    simp [GraphSource.indexed, hx]
  have ends : ∀ e ∈ g.keptEdges keep, e.fromId ∈ g.indexed keep ∧ e.toId ∈ g.indexed keep := by
    intro e he
    simp only [GraphSource.indexed, List.mem_toFinset, List.mem_append, List.mem_flatMap]
    exact ⟨.inr ⟨e, he, by simp⟩, .inr ⟨e, he, by simp⟩⟩
  obtain ⟨ids, hids, memIds⟩ := internAll_isSome room nodes List.nodup_nil (by simp)
  have sub : ∀ x ∈ ids, x ∈ g.indexed keep := by
    intro x hx
    rcases (memIds x).mp hx with hx | hx
    · cases hx
    · exact nodes x hx
  obtain ⟨out, hout, held, memOut⟩ := keepEdges_isSome room ends
    (internAll_nodup hids List.nodup_nil) sub List.Forall₂.nil (by simpa using few)
  have built : (buildCapped g keep cap).ids = out.1 ∧ (buildCapped g keep cap).kept = out.2 := by
    unfold buildCapped
    split
    · rename_i none
      rw [hids] at none
      cases none
    · rename_i ids' some
      obtain rfl : ids = ids' := Option.some.inj (hids.symm.trans some)
      split
      · rename_i none
        rw [hout] at none
        cases none
      · rename_i out' some
        obtain rfl : out = out' := Option.some.inj (hout.symm.trans some)
        exact ⟨rfl, rfl⟩
  rw [built.1, built.2]
  refine ⟨by simpa using held, fun x => ?_⟩
  rw [memOut, memIds]
  simp [GraphSource.indexed]

theorem build_empty {g : GraphSource} {keep : CategorySet} {cap : Nat}
    (past : cap < (g.keptEdges keep).length) : (buildCapped g keep cap).kept = [] := by
  unfold buildCapped
  split
  · rfl
  · split
    · rfl
    · rename_i ids _ out some
      rw [keepEdges_none (by simpa using past) (Nat.zero_le _)] at some
      cases some

section Past
variable {cap : Nat} {ids : List NodeId}

theorem intern_within {id : NodeId} {r : List NodeId × Nat} (h : intern cap ids id = some r)
    (few : ids.length ≤ cap) : r.1.length ≤ cap ∧ id ∈ r.1 := by
  unfold intern at h
  split at h
  · cases h
    rename_i held
    exact ⟨few, held⟩
  · split at h
    · cases h
    · cases h
      refine ⟨?_, List.mem_append_right _ List.mem_cons_self⟩
      rw [List.length_append, List.length_singleton]
      omega

theorem internAll_within {new out : List NodeId} (h : internAll cap ids new = some out)
    (few : ids.length ≤ cap) : out.length ≤ cap ∧ ids ⊆ out ∧ new ⊆ out := by
  induction new generalizing ids with
  | nil =>
    cases h
    exact ⟨few, fun _ mem => mem, List.nil_subset _⟩
  | cons id rest ih =>
    obtain ⟨r, hr, h⟩ := Option.bind_eq_some_iff.mp h
    obtain ⟨few', held⟩ := intern_within hr few
    obtain ⟨small, old, later⟩ := ih h few'
    exact ⟨small, fun x mem => old ((intern_isPrefix hr).subset mem),
      List.cons_subset.mpr ⟨old held, later⟩⟩

theorem keepEdges_within {es : List Edge} {kept : List Kept} {out : List NodeId × List Kept}
    (h : keepEdges cap ids kept es = some out) (few : ids.length ≤ cap)
    (room : kept.length ≤ cap) : out.1.length ≤ cap ∧ ids ⊆ out.1 ∧
      kept.length + es.length ≤ cap ∧ ∀ e ∈ es, e.fromId ∈ out.1 ∧ e.toId ∈ out.1 := by
  induction es generalizing ids kept with
  | nil =>
    cases h
    exact ⟨few, fun _ mem => mem, room, fun _ mem => nomatch mem⟩
  | cons e rest ih =>
    unfold keepEdges at h
    split at h
    · cases h
    · rename_i lt
      obtain ⟨a, ha, h⟩ := Option.bind_eq_some_iff.mp h
      obtain ⟨b, hb, h⟩ := Option.bind_eq_some_iff.mp h
      obtain ⟨fewA, src⟩ := intern_within ha few
      obtain ⟨fewB, dst⟩ := intern_within hb fewA
      obtain ⟨small, old, count, ends⟩ := ih h fewB (by
        rw [List.length_append, List.length_singleton]
        omega)
      rw [List.length_append, List.length_singleton] at count
      refine ⟨small, fun x mem => ?_, by rw [List.length_cons]; omega, fun e' mem => ?_⟩
      · exact old ((intern_isPrefix hb).subset ((intern_isPrefix ha).subset mem))
      · rcases List.mem_cons.mp mem with eq | later
        · rw [eq]
          exact ⟨old ((intern_isPrefix hb).subset src), old dst⟩
        · exact ends e' later

theorem build_past {g : GraphSource} {keep : CategorySet} (past : ¬g.Fits keep cap) :
    buildCapped g keep cap = empty := by
  unfold buildCapped
  split
  · rfl
  · rename_i ids nodes
    split
    · rfl
    · rename_i out edges
      obtain ⟨few, _, held⟩ := internAll_within nodes (Nat.zero_le cap)
      obtain ⟨small, old, count, ends⟩ := keepEdges_within edges few (Nat.zero_le cap)
      refine absurd ⟨?_, ?_⟩ past
      · have inside : g.indexed keep ⊆ out.1.toFinset := by
          intro x mem
          rw [GraphSource.indexed, List.mem_toFinset, List.mem_append, List.mem_flatMap] at mem
          rw [List.mem_toFinset]
          rcases mem with node | ⟨e, kept, isEnd⟩
          · exact old (held node)
          · rcases List.mem_cons.mp isEnd with eq | eq
            · exact eq ▸ (ends e kept).1
            · exact List.mem_singleton.mp eq ▸ (ends e kept).2
        exact (Finset.card_le_card inside).trans ((List.toFinset_card_le _).trans small)
      · rw [List.length_nil] at count
        omega

end Past

end Adjacency

end Glia.Algo
