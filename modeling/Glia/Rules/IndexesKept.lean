import Glia.Rules.IndexSteps

/-! Every operation keeps the indexes coherent: each partition in order with shrinking runs,
and each other index holding the identity's rows, permuted, in the same runs. -/
namespace Glia.Rules.Storage

open Batch

structure IndexOk (n : Nat) (ix : Index) : Prop where
  parts : ∀ l, PartOk n (ix.parts l)
  lowered : ∀ l home, PartOk n (ix.lowered l home)

/-- An index holds another's rows, permuted, in the same runs. -/
structure Mirrors (id ix : Index) : Prop where
  parts : ∀ l, Aligned ix.perm (id.parts l) (ix.parts l)
  lowered : ∀ l home, Aligned ix.perm (id.lowered l home) (ix.lowered l home)

structure Coherent (rel : Relation) : Prop where
  identity : IndexOk rel.arity rel.identity
  perms : ∀ ix ∈ rel.others, isPerm ix.perm rel.arity = true
  others : ∀ ix ∈ rel.others, IndexOk ix.perm.length ix
  mirrors : ∀ ix ∈ rel.others, Mirrors rel.identity ix

section Index

variable {n : Nat} {id ix : Index}

theorem indexOk_empty (n : Nat) (perm : List Nat) : IndexOk n (.empty perm) :=
  ⟨fun _ => partOk_empty n, fun _ _ => partOk_empty n⟩

theorem mirrors_empty (perm perm' : List Nat) : Mirrors (.empty perm) (.empty perm') :=
  ⟨fun _ => ⟨.nil, aligned_empty⟩, fun _ _ => ⟨.nil, aligned_empty⟩⟩

theorem IndexOk.advance (h : IndexOk n ix) : IndexOk n ix.advance :=
  ⟨fun l => (h.parts l).advance.1, fun l home => (h.lowered l home).advance.1⟩

theorem Mirrors.advance {n' : Nat} (hid : IndexOk n id) (hix : IndexOk n' ix)
    (h : Mirrors id ix) : Mirrors id.advance ix.advance :=
  ⟨fun l => (h.parts l).advance (hid.parts l) (hix.parts l),
    fun l home => (h.lowered l home).advance (hid.lowered l home) (hix.lowered l home)⟩

theorem IndexOk.sealRuns (h : IndexOk n ix) : IndexOk n ix.sealRuns :=
  ⟨fun l => (h.parts l).sealRuns.1, fun l home => (h.lowered l home).sealRuns.1⟩

theorem Mirrors.sealRuns {n' : Nat} (hid : IndexOk n id) (hix : IndexOk n' ix)
    (h : Mirrors id ix) : Mirrors id.sealRuns ix.sealRuns :=
  ⟨fun l => (h.parts l).sealRuns (hid.parts l) (hix.parts l),
    fun l home => (h.lowered l home).sealRuns (hid.lowered l home) (hix.lowered l home)⟩

theorem IndexOk.permuted (h : IndexOk n id) (perm : List Nat) :
    IndexOk perm.length (id.permuted perm) ∧ Mirrors id (id.permuted perm) :=
  ⟨⟨fun l => ((h.parts l).permuted perm).1, fun l home => ((h.lowered l home).permuted perm).1⟩,
    ⟨fun l => ((h.parts l).permuted perm).2, fun l home => ((h.lowered l home).permuted perm).2⟩⟩

theorem IndexOk.store (h : IndexOk n ix) (level : Tier) {batch : Batch} (ordered : Ordered n batch)
    (recent : Bool) : IndexOk n (ix.store level batch recent) := by
  refine ⟨fun l => ?_, h.lowered⟩
  by_cases same : l = level
  · subst same
    simp only [Index.store, Function.update_self]
    split
    · exact partOk_of (h.parts l).stable (h.parts l).some (h.parts l).shrink ordered
    · exact ((h.parts l).push ordered (h.parts l).recent).1
  · simp only [Index.store, Function.update_of_ne same]
    exact h.parts l

theorem Mirrors.store {n' : Nat} (hid : IndexOk n id) (hix : IndexOk n' ix) (h : Mirrors id ix)
    (level : Tier) {batch batch' : Batch} (ordered : Ordered n batch) (ordered' : Ordered n' batch')
    (aligned : AlignedBatch ix.perm batch batch') (recent : Bool) :
    Mirrors (id.store level batch recent) (ix.store level batch' recent) := by
  refine ⟨fun l => ?_, h.lowered⟩
  by_cases same : l = level
  · subst same
    simp only [Index.store, Function.update_self]
    split
    · exact ⟨(h.parts l).stable, aligned⟩
    · refine ⟨?_, (h.parts l).recent⟩
      exact pushRun_aligned (hid.parts l) (hix.parts l) (h.parts l).stable ordered ordered' aligned
  · simp only [Index.store, Function.update_of_ne same]
    exact h.parts l

theorem IndexOk.keepCopies (h : IndexOk n ix) (level home : Tier) {batch : Batch}
    (ordered : Ordered n batch) : IndexOk n (ix.keepCopies level home batch) := by
  refine ⟨h.parts, fun l k => ?_⟩
  by_cases same : l = level ∧ k = home
  · obtain ⟨rfl, rfl⟩ := same
    simp only [Index.keepCopies, Function.update_self]
    exact partOk_of (h.lowered l k).stable (h.lowered l k).some (h.lowered l k).shrink ordered
  · have kept : (ix.keepCopies level home batch).lowered l k = ix.lowered l k := by
      by_cases here : l = level
      · subst here
        have other : k ≠ home := fun eq => same ⟨rfl, eq⟩
        simp only [Index.keepCopies, Function.update_self, Function.update_of_ne other]
      · simp only [Index.keepCopies, Function.update_of_ne here]
    rw [kept]
    exact h.lowered l k

theorem Mirrors.keepCopies (h : Mirrors id ix) (level home : Tier) {batch batch' : Batch}
    (aligned : AlignedBatch ix.perm batch batch') :
    Mirrors (id.keepCopies level home batch) (ix.keepCopies level home batch') := by
  refine ⟨h.parts, fun l k => ?_⟩
  by_cases here : l = level
  · subst here
    by_cases there : k = home
    · subst there
      simp only [Index.keepCopies, Function.update_self]
      exact ⟨(h.lowered l k).stable, aligned⟩
    · simp only [Index.keepCopies, Function.update_self, Function.update_of_ne there]
      exact h.lowered l k
  · simp only [Index.keepCopies, Function.update_of_ne here]
    exact h.lowered l k

structure SameRows (ix ix' : Index) : Prop where
  perm : ix'.perm = ix.perm
  parts : ∀ l, (ix'.parts l).bare = (ix.parts l).bare
  lowered : ix'.lowered = ix.lowered

theorem SameRows.ok {ix' : Index} (same : SameRows ix ix') (h : IndexOk n ix) : IndexOk n ix' := by
  refine ⟨fun l => ?_, ?_⟩
  · rw [← partOk_bare, same.parts]
    exact partOk_bare.mpr (h.parts l)
  · rw [same.lowered]
    exact h.lowered

theorem SameRows.mirrors {id' ix' : Index} (sameId : SameRows id id') (same : SameRows ix ix')
    (h : Mirrors id ix) : Mirrors id' ix' := by
  refine ⟨fun l => ?_, ?_⟩
  · rw [← aligned_bare, same.parts, sameId.parts, same.perm]
    exact aligned_bare.mpr (h.parts l)
  · rw [same.lowered, sameId.lowered, same.perm]
    exact h.lowered

theorem lowerRow_same (ix : Index) (level : Tier) (c : Candidate × Tier) :
    SameRows ix (ix.lowerRow level c) := by
  refine ⟨rfl, fun l => ?_, rfl⟩
  by_cases same : l = c.2
  · subst same
    simp only [Index.lowerRow, Function.update_self]
    exact Part.bare_lower _ _ _ _
  · simp only [Index.lowerRow, Function.update_of_ne same]

theorem foldl_lowerRow_same (ix : Index) (level : Tier) (lower : List (Candidate × Tier)) :
    SameRows ix (lower.foldl (fun ix c => ix.lowerRow level c) ix) := by
  induction lower generalizing ix with
  | nil => exact ⟨rfl, fun _ => rfl, rfl⟩
  | cons c rest ih =>
    have first := lowerRow_same ix level c
    have later := ih (ix.lowerRow level c)
    refine ⟨later.perm.trans first.perm, fun l => ?_, later.lowered.trans first.lowered⟩
    exact (later.parts l).trans (first.parts l)

end Index

structure SameItems (rel rel' : Relation) : Prop where
  arity : rel'.arity = rel.arity
  len : rel'.len = rel.len
  items : ∀ l, (rel'.identity.parts l).items.Perm (rel.identity.parts l).items

variable {rel : Relation}

theorem sameItems_refl (rel : Relation) : SameItems rel rel := ⟨rfl, rfl, fun _ => .refl _⟩

theorem Coherent.advance (h : Coherent rel) : Coherent rel.advance ∧ SameItems rel rel.advance := by
  refine ⟨⟨h.identity.advance, ?_, ?_, ?_⟩, rfl, rfl, fun l => (h.identity.parts l).advance.2⟩
  all_goals
    intro ix mem
    obtain ⟨old, there, rfl⟩ := List.mem_map.mp mem
  · exact h.perms old there
  · exact (h.others old there).advance
  · exact (h.mirrors old there).advance h.identity (h.others old there)

theorem advance_recent (rel : Relation) (l : Tier) :
    (rel.advance.identity.parts l).recent = .empty := rfl

theorem Coherent.sealRuns (h : Coherent rel) :
    Coherent rel.sealRuns ∧ SameItems rel rel.sealRuns := by
  have id := h.identity.advance
  refine ⟨⟨id.sealRuns, ?_, ?_, ?_⟩, rfl, rfl, fun l => ?_⟩
  · intro ix mem
    obtain ⟨old, there, rfl⟩ := List.mem_map.mp mem
    exact h.perms old there
  · intro ix mem
    obtain ⟨old, there, rfl⟩ := List.mem_map.mp mem
    exact (h.others old there).advance.sealRuns
  · intro ix mem
    obtain ⟨old, there, rfl⟩ := List.mem_map.mp mem
    have advanced := (h.mirrors old there).advance h.identity (h.others old there)
    exact advanced.sealRuns id (h.others old there).advance
  · exact (id.parts l).sealRuns.2.trans (h.identity.parts l).advance.2

theorem Coherent.ensureIndex (h : Coherent rel) (perm : List Nat) :
    Coherent (rel.ensureIndex perm).1 ∧ SameItems rel (rel.ensureIndex perm).1 := by
  unfold Relation.ensureIndex
  split
  · exact ⟨h, sameItems_refl rel⟩
  · split
    · exact ⟨h, sameItems_refl rel⟩
    · rename_i valid
      have valid : isPerm perm rel.arity = true := by simpa using valid
      obtain ⟨ok, mirrors⟩ := h.identity.permuted perm
      refine ⟨⟨h.identity, ?_, ?_, ?_⟩, rfl, rfl, fun _ => .refl _⟩
      all_goals
        intro ix mem
        rcases List.mem_append.mp mem with old | new
      · exact h.perms ix old
      · rw [List.mem_singleton.mp new]
        exact valid
      · exact h.others ix old
      · rw [List.mem_singleton.mp new]
        exact ok
      · exact h.mirrors ix old
      · rw [List.mem_singleton.mp new]
        exact mirrors

theorem Coherent.store (h : Coherent rel) (level : Tier) {batch : Batch}
    (ordered : Ordered rel.arity batch) (recent : Bool) :
    Coherent (rel.store level batch recent) := by
  refine ⟨h.identity.store level ordered recent, ?_, ?_, ?_⟩
  all_goals
    intro ix mem
    obtain ⟨old, there, rfl⟩ := List.mem_map.mp mem
  · exact h.perms old there
  · exact (h.others old there).store level (permuted_ordered batch old.perm) recent
  · exact (h.mirrors old there).store h.identity (h.others old there) level ordered
      (permuted_ordered batch old.perm) (permuted_perm ordered.toWhole old.perm) recent

theorem Coherent.store_items (h : Coherent rel) (level : Tier) {batch : Batch}
    (ordered : Ordered rel.arity batch) {recent : Bool}
    (spare : recent = true → (rel.identity.parts level).recent.items = []) (l : Tier) :
    ((rel.store level batch recent).identity.parts l).items.Perm
      ((rel.identity.parts l).items ++ if l = level then batch.items else []) := by
  by_cases same : l = level
  · subst same
    rw [if_pos rfl]
    simp only [Relation.store, Index.store, Function.update_self]
    split
    · rename_i new
      rw [Part.items_eq, Part.items_eq, spare new, List.append_nil]
    · refine ((h.identity.parts l).push ordered (h.identity.parts l).recent).2.trans ?_
      rw [Part.items_eq, List.append_assoc, List.append_assoc]
      exact List.perm_append_comm.append_left _
  · rw [if_neg same, List.append_nil]
    simp only [Relation.store, Index.store, Function.update_of_ne same]
    exact .refl _

section Lower

structure SameBare (rel rel' : Relation) : Prop where
  arity : rel'.arity = rel.arity
  len : rel'.len = rel.len
  parts : ∀ l, (rel'.identity.parts l).bare = (rel.identity.parts l).bare

theorem SameBare.items {rel' : Relation} (h : SameBare rel rel') : SameItems rel rel' :=
  ⟨h.arity, h.len, fun l => by rw [← Part.bare_items, h.parts, Part.bare_items]⟩

theorem SameBare.recent {rel' : Relation} (h : SameBare rel rel') (l : Tier) :
    (rel'.identity.parts l).recent.items = (rel.identity.parts l).recent.items := by
  have same : (rel'.identity.parts l).recent.bare = (rel.identity.parts l).recent.bare :=
    congrArg Part.recent (h.parts l)
  rw [← bare_items, same, bare_items]

theorem Coherent.keepCopies (h : Coherent rel) (level home : Tier) {batch : Batch}
    (ordered : Ordered rel.arity batch) :
    Coherent { rel with
      identity := rel.identity.keepCopies level home batch
      others := rel.others.map fun ix =>
        ix.keepCopies level home (batch.permuted ix.perm) } := by
  refine ⟨h.identity.keepCopies level home ordered, ?_, ?_, ?_⟩
  all_goals
    intro ix mem
    obtain ⟨old, there, rfl⟩ := List.mem_map.mp mem
  · exact h.perms old there
  · exact (h.others old there).keepCopies level home (permuted_ordered batch old.perm)
  · exact (h.mirrors old there).keepCopies level home
      (permuted_perm ordered.toWhole old.perm)

theorem Coherent.lowerAll (h : Coherent rel) (level : Tier) (lower : List (Candidate × Tier)) :
    Coherent { rel with
      identity := lower.foldl (fun ix c => ix.lowerRow level c) rel.identity
      others := rel.others.map fun ix => lower.foldl (fun ix c => ix.lowerRow level c) ix } := by
  have same (ix : Index) := foldl_lowerRow_same ix level lower
  refine ⟨(same _).ok h.identity, ?_, ?_, ?_⟩
  all_goals
    intro ix mem
    obtain ⟨old, there, rfl⟩ := List.mem_map.mp mem
  · rw [(same old).perm]
    exact h.perms old there
  · rw [(same old).perm]
    exact (same old).ok (h.others old there)
  · exact (same _).mirrors (same old) (h.mirrors old there)

theorem Coherent.lowerRows (h : Coherent rel) (level : Tier) {lower : List (Candidate × Tier)}
    (sorted : lower.Pairwise fun x y => x.1.row ≤ y.1.row)
    (wide : ∀ c ∈ lower, c.1.row.length = rel.arity) :
    Coherent (rel.lowerRows level lower) ∧ SameBare rel (rel.lowerRows level lower) := by
  -- each home level's copies are a batch in order
  have copies (home : Tier) : Ordered rel.arity (Batch.collect
      ((lower.filter fun c => c.2 = home).map fun c => (c.1.row, c.1.prov, noOrdinal))) := by
    apply collect_ordered
    · intro r mem
      obtain ⟨c, there, rfl⟩ := List.mem_map.mp mem
      exact wide c (List.mem_of_mem_filter there)
    · exact List.pairwise_map.mpr (sorted.filter _)
  have walk : ∀ (homes : List Tier) (now : Relation), Coherent now → SameBare rel now →
      let last := homes.foldl (fun now home =>
        let picked := lower.filter fun c => c.2 = home
        if picked.isEmpty then now
        else
          let batch := Batch.collect (picked.map fun c => (c.1.row, c.1.prov, noOrdinal))
          { now with
            identity := now.identity.keepCopies level home batch
            others := now.others.map fun ix =>
              ix.keepCopies level home (batch.permuted ix.perm) }) now
      Coherent last ∧ SameBare rel last := by
    intro homes
    induction homes with
    | nil => exact fun _ coherent same => ⟨coherent, same⟩
    | cons home rest ih =>
      intro now coherent same
      rw [List.foldl_cons]
      apply ih
      · dsimp only
        split
        · exact coherent
        · exact coherent.keepCopies level home (same.arity ▸ copies home)
      · dsimp only
        split
        · exact same
        · exact ⟨same.arity, same.len, same.parts⟩
  exact walk Tier.all _ (h.lowerAll level lower)
    ⟨rfl, rfl, (foldl_lowerRow_same rel.identity level lower).parts⟩

end Lower

end Glia.Rules.Storage
