import Glia.Graph.MovesChanged

/-! Moves pair one to one: modules, their nodes, and the files that own one module. -/
namespace Glia.Graph

open Glia.Kit (OrdMap gather)

section Claim
variable {removed added : List ModuleInfo}

structure Pairing.Fits (removed added : List ModuleInfo) (s : Pairing) : Prop where
  usedOld : ∀ p ∈ s.pairs, p.1 ∈ s.usedOld
  usedNew : ∀ p ∈ s.pairs, p.2.1 ∈ s.usedNew
  onceOld : (s.pairs.map fun p => p.1).Nodup
  onceNew : (s.pairs.map fun p => p.2.1).Nodup
  within : ∀ p ∈ s.pairs, ∃ old new, removed[p.1]? = some old ∧ added[p.2.1]? = some new ∧
    old.repo = new.repo

theorem Pairing.fits_start : ({} : Pairing).Fits removed added where
  usedOld := by simp
  usedNew := by simp
  onceOld := by simp
  onceNew := by simp
  within := by simp

theorem Pairing.Fits.add {s : Pairing} (fits : s.Fits removed added) {o n : Nat} (tier : MoveTier)
    (freeOld : o ∉ s.usedOld) (freeNew : n ∉ s.usedNew) {old new : ModuleInfo}
    (left : removed[o]? = some old) (right : added[n]? = some new)
    (same : old.repo = new.repo) : (s.add o n tier).Fits removed added where
  usedOld := by
    intro p mem
    obtain mem | mem := List.mem_append.mp mem
    · exact Finset.mem_insert_of_mem (fits.usedOld p mem)
    · rw [List.mem_singleton.mp mem]
      exact Finset.mem_insert_self _ _
  usedNew := by
    intro p mem
    obtain mem | mem := List.mem_append.mp mem
    · exact Finset.mem_insert_of_mem (fits.usedNew p mem)
    · rw [List.mem_singleton.mp mem]
      exact Finset.mem_insert_self _ _
  onceOld := by
    rw [Pairing.add, List.map_append, List.nodup_append]
    refine ⟨fits.onceOld, List.nodup_singleton _, ?_⟩
    intro a ha b hb
    obtain ⟨p, mem, rfl⟩ := List.mem_map.mp ha
    rw [List.map_singleton, List.mem_singleton] at hb
    intro same
    have taken : p.1 = o := same.trans hb
    exact freeOld (taken ▸ fits.usedOld p mem)
  onceNew := by
    rw [Pairing.add, List.map_append, List.nodup_append]
    refine ⟨fits.onceNew, List.nodup_singleton _, ?_⟩
    intro a ha b hb
    obtain ⟨p, mem, rfl⟩ := List.mem_map.mp ha
    rw [List.map_singleton, List.mem_singleton] at hb
    intro same
    have taken : p.2.1 = n := same.trans hb
    exact freeNew (taken ▸ fits.usedNew p mem)
  within := by
    intro p mem
    obtain mem | mem := List.mem_append.mp mem
    · exact fits.within p mem
    · rw [List.mem_singleton.mp mem]
      exact ⟨old, new, left, right, same⟩

structure Pairing.Grows (removed added : List ModuleInfo) (tier : MoveTier) (s s' : Pairing) :
    Prop where
  fits : s'.Fits removed added
  grown : ∃ more, s'.pairs = s.pairs ++ more ∧ ∀ p ∈ more, p.2.2 = tier

theorem Pairing.Grows.refl (tier : MoveTier) {s : Pairing} (fits : s.Fits removed added) :
    Pairing.Grows removed added tier s s :=
  ⟨fits, [], by simp, by simp⟩

theorem Pairing.Grows.trans {tier : MoveTier} {s t u : Pairing}
    (first : Pairing.Grows removed added tier s t) (second : Pairing.Grows removed added tier t u) :
    Pairing.Grows removed added tier s u := by
  obtain ⟨more, eq, own⟩ := first.grown
  obtain ⟨more', eq', own'⟩ := second.grown
  refine ⟨second.fits, more ++ more', by rw [eq', eq, List.append_assoc], ?_⟩
  intro p mem
  obtain mem | mem := List.mem_append.mp mem
  · exact own p mem
  · exact own' p mem

theorem Pairing.Fits.grows_add {s : Pairing} (fits : s.Fits removed added) {o n : Nat}
    (tier : MoveTier) (freeOld : o ∉ s.usedOld) (freeNew : n ∉ s.usedNew) {old new : ModuleInfo}
    (left : removed[o]? = some old) (right : added[n]? = some new) (same : old.repo = new.repo) :
    Pairing.Grows removed added tier s (s.add o n tier) :=
  ⟨fits.add tier freeOld freeNew left right same, [(o, n, tier)], rfl, by simp⟩

theorem single_eq_some {l : List Nat} {i : Nat} (h : single l = some i) : l = [i] := by
  match l, h with
  | [_], rfl => rfl

theorem unique_spec {mods : List ModuleInfo} {used : Finset Nat} {pred : ModuleInfo → Bool}
    {i : Nat} (h : unique mods used pred = some i) :
    i ∉ used ∧ ∃ m, mods[i]? = some m ∧ pred m = true := by
  have only := single_eq_some h
  have mem : i ∈ ((mods.zipIdx.filter fun e => e.2 ∉ used ∧ pred e.1).map Prod.snd) := by
    rw [only]
    exact List.mem_singleton_self i
  obtain ⟨⟨m, j⟩, inside, rfl⟩ := List.mem_map.mp mem
  obtain ⟨listed, passes⟩ := List.mem_filter.mp inside
  simp only [decide_eq_true_eq] at passes
  exact ⟨passes.1, m, List.mem_zipIdx_iff_getElem?.mp listed, passes.2⟩

theorem group_spec {mods : List ModuleInfo} {used : Finset Nat}
    {key : ModuleInfo → Option GroupKey} {k : GroupKey} {l : List Nat}
    (h : (group mods used key)[k]? = some l) :
    ∀ i ∈ l, i ∉ used ∧ ∃ m, mods[i]? = some m ∧ key m = some k := by
  intro i mem
  have pushed := Kit.getElem?_gather_push ((mods.zipIdx.filter fun e => e.2 ∉ used).filterMap
    fun e => (key e.1).map fun k => (k, e.2)) k
  rw [group] at h
  rw [h, Option.getD_some] at pushed
  rw [pushed] at mem
  obtain ⟨⟨k', j⟩, inside, rfl⟩ := List.mem_map.mp mem
  obtain ⟨inside, same⟩ := List.mem_filter.mp inside
  rw [decide_eq_true_eq] at same
  obtain ⟨⟨m, j'⟩, listed, keyed⟩ := List.mem_filterMap.mp inside
  obtain ⟨k'', found, eq⟩ := Option.map_eq_some_iff.mp keyed
  obtain ⟨rfl, rfl⟩ := Prod.mk.inj eq
  obtain ⟨listed, free⟩ := List.mem_filter.mp listed
  simp only [decide_eq_true_eq] at free same
  exact ⟨free, m, List.mem_zipIdx_iff_getElem?.mp listed, same ▸ found⟩

theorem pairDeclared_grows {s : Pairing} (fits : s.Fits removed added) (d : String × String) :
    Pairing.Grows removed added .declared s (pairDeclared removed added s d) := by
  unfold pairDeclared
  dsimp only
  generalize ((removed.filter fun m => m.path = d.1).map ModuleInfo.repo).dedup.insertionSort
    (· ≤ ·) = repos
  induction repos generalizing s with
  | nil => exact .refl _ fits
  | cons repo repos ih =>
    rw [List.foldl_cons]
    split
    · rename_i o n hold hnew
      obtain ⟨freeOld, old, left, passOld⟩ := unique_spec hold
      obtain ⟨freeNew, new, right, passNew⟩ := unique_spec hnew
      simp only [decide_eq_true_eq] at passOld passNew
      have step := fits.grows_add .declared freeOld freeNew left right
        (passOld.1.trans passNew.1.symm)
      exact step.trans (ih step.fits)
    · exact ih fits

theorem declared_grows {s : Pairing} (fits : s.Fits removed added) (l : List (String × String)) :
    Pairing.Grows removed added .declared s (l.foldl (pairDeclared removed added) s) := by
  induction l generalizing s with
  | nil => exact .refl _ fits
  | cons d l ih =>
    rw [List.foldl_cons]
    have step := pairDeclared_grows fits d
    exact step.trans (ih step.fits)

theorem tierKey_repo {tier : MoveTier} {m : ModuleInfo} {k : GroupKey}
    (h : tierKey tier m = some k) : (ofLex k).1 = m.repo := by
  cases tier with
  | declared => cases h
  | identical =>
    rw [tierKey] at h
    split at h
    · cases h
      rfl
    · cases h
  | sameName =>
    cases h
    rfl

structure Open (removed added : List ModuleInfo) (tier : MoveTier)
    (news : OrdMap GroupKey (List Nat)) (s : Pairing) (groups : List (GroupKey × List Nat)) :
    Prop where
  apart : groups.Pairwise fun e f => e.1 ≠ f.1
  old : ∀ e ∈ groups, ∀ o ∈ e.2, o ∉ s.usedOld ∧
    ∃ m, removed[o]? = some m ∧ tierKey tier m = some e.1
  new : ∀ e ∈ groups, ∀ l, news[e.1]? = some l → ∀ n ∈ l, n ∉ s.usedNew ∧
    ∃ m, added[n]? = some m ∧ tierKey tier m = some e.1

theorem Open.rest {tier : MoveTier} {news : OrdMap GroupKey (List Nat)} {s : Pairing}
    {e : GroupKey × List Nat} {groups : List (GroupKey × List Nat)}
    (held : Open removed added tier news s (e :: groups)) :
    Open removed added tier news s groups :=
  ⟨(List.pairwise_cons.mp held.apart).2, fun f hf => held.old f (List.mem_cons_of_mem e hf),
    fun f hf => held.new f (List.mem_cons_of_mem e hf)⟩

theorem Open.add {tier : MoveTier} {news : OrdMap GroupKey (List Nat)} {s : Pairing}
    {e : GroupKey × List Nat} {groups : List (GroupKey × List Nat)}
    (held : Open removed added tier news s (e :: groups)) {o n : Nat} {old new : ModuleInfo}
    (left : removed[o]? = some old) (keyOld : tierKey tier old = some e.1)
    (right : added[n]? = some new) (keyNew : tierKey tier new = some e.1) :
    Open removed added tier news (s.add o n tier) groups := by
  have apart := (List.pairwise_cons.mp held.apart).1
  refine ⟨held.rest.apart, ?_, ?_⟩
  · intro f hf i hi
    obtain ⟨free, m, found, keyed⟩ := held.rest.old f hf i hi
    refine ⟨?_, m, found, keyed⟩
    intro used
    obtain rfl | used := Finset.mem_insert.mp used
    · cases found.symm.trans left
      exact apart f hf (Option.some.inj (keyOld.symm.trans keyed))
    · exact free used
  · intro f hf l hl i hi
    obtain ⟨free, m, found, keyed⟩ := held.rest.new f hf l hl i hi
    refine ⟨?_, m, found, keyed⟩
    intro used
    obtain rfl | used := Finset.mem_insert.mp used
    · cases found.symm.trans right
      exact apart f hf (Option.some.inj (keyNew.symm.trans keyed))
    · exact free used

theorem pairGroup_cases {tier : MoveTier} {news : OrdMap GroupKey (List Nat)} {s : Pairing}
    {e : GroupKey × List Nat} {groups : List (GroupKey × List Nat)}
    (held : Open removed added tier news s (e :: groups)) (fits : s.Fits removed added) :
    Pairing.Grows removed added tier s (pairGroup removed added tier news s e) ∧
      Open removed added tier news (pairGroup removed added tier news s e) groups := by
  have idle : Pairing.Grows removed added tier s s ∧ Open removed added tier news s groups :=
    ⟨.refl _ fits, held.rest⟩
  rw [pairGroup]
  split
  · rename_i n o hnew hold
    have olds := single_eq_some hold
    obtain ⟨l, listed, only⟩ := Option.bind_eq_some_iff.mp hnew
    have news := single_eq_some only
    obtain ⟨freeOld, old, left, keyOld⟩ := held.old e List.mem_cons_self o
      (olds ▸ List.mem_singleton_self o)
    obtain ⟨freeNew, new, right, keyNew⟩ := held.new e List.mem_cons_self l listed n
      (news ▸ List.mem_singleton_self n)
    rw [left, right]
    dsimp only
    split
    · exact ⟨⟨⟨fits.usedOld, fits.usedNew, fits.onceOld, fits.onceNew, fits.within⟩, [], by simp,
        by simp⟩, held.rest.apart, held.rest.old, held.rest.new⟩
    · refine ⟨fits.grows_add tier freeOld freeNew left right ?_, held.add left keyOld right keyNew⟩
      exact (tierKey_repo keyOld).symm.trans (tierKey_repo keyNew)
  · exact idle

theorem groups_grow {tier : MoveTier} {news : OrdMap GroupKey (List Nat)}
    (groups : List (GroupKey × List Nat)) {s : Pairing}
    (held : Open removed added tier news s groups) (fits : s.Fits removed added) :
    Pairing.Grows removed added tier s
      (groups.foldl (pairGroup removed added tier news) s) := by
  induction groups generalizing s with
  | nil => exact .refl _ fits
  | cons e groups ih =>
    rw [List.foldl_cons]
    obtain ⟨step, left⟩ := pairGroup_cases held fits
    exact step.trans (ih left step.fits)

theorem pairTier_grows {s : Pairing} (fits : s.Fits removed added) (tier : MoveTier) :
    Pairing.Grows removed added tier s (pairTier removed added s tier) := by
  apply groups_grow _ _ fits
  refine ⟨?_, ?_, ?_⟩
  · apply (group removed s.usedOld (tierKey tier)).distinct_keys_toList.imp
    intro e f apart same
    exact apart (compare_eq_iff_eq.mpr same)
  · intro e mem
    exact group_spec (OrdMap.mem_toList.mp mem)
  · intro e _ l listed
    exact group_spec listed

end Claim

section Derived
variable {read : NodeReader} {m : MergedGraph}

structure CodeNav.Agrees (a b : CodeNav) : Prop where
  kind : ∀ (id : NodeId) k k', a.kindById[id]? = some k → b.kindById[id]? = some k' → k = k'
  name : ∀ (id : NodeId) n n', a.nameById[id]? = some n → b.nameById[id]? = some n' → n = n'
  parent : ∀ (id : NodeId) p p', a.parentOf[id]? = some p → b.parentOf[id]? = some p' → p = p'

def MergedGraph.Agrees (m : MergedGraph) : Prop :=
  ∀ g ∈ m.graphs, ∀ h ∈ m.graphs, g.repo = h.repo → g.nav.Agrees h.nav

theorem climb_cases {nav : CodeNav} {budget : Nat} {cur : NodeId} {names : List String}
    {out : NodeId × List String} (h : climb nav budget cur names = some out) :
    (nav.kindById[cur]? = some NodeKind.module ∧ out = (cur, names)) ∨
      ∃ kind name parent rest, nav.kindById[cur]? = some kind ∧ kind ≠ NodeKind.module ∧
        nav.nameById[cur]? = some name ∧ nav.parentOf[cur]? = some parent ∧
        budget = rest + 1 ∧ climb nav rest parent (name :: names) = some out := by
  cases budget with
  | zero =>
    rw [climb] at h
    obtain ⟨kind, kinded, h⟩ := Option.bind_eq_some_iff.mp h
    split at h
    · rename_i top
      cases h
      exact .inl ⟨kinded.trans (congrArg some top), rfl⟩
    · obtain ⟨name, _, h⟩ := Option.bind_eq_some_iff.mp h
      cases h
  | succ rest =>
    rw [climb] at h
    obtain ⟨kind, kinded, h⟩ := Option.bind_eq_some_iff.mp h
    split at h
    · rename_i top
      cases h
      exact .inl ⟨kinded.trans (congrArg some top), rfl⟩
    · rename_i inner
      obtain ⟨name, named, h⟩ := Option.bind_eq_some_iff.mp h
      obtain ⟨parent, up, h⟩ := Option.bind_eq_some_iff.mp h
      exact .inr ⟨kind, name, parent, rest, kinded, inner, named, up, rfl, h⟩

theorem climb_agrees {a b : CodeNav} (agree : a.Agrees b) {budget budget' : Nat} {cur : NodeId}
    {names : List String} {out out' : NodeId × List String}
    (h : climb a budget cur names = some out) (h' : climb b budget' cur names = some out') :
    out = out' := by
  induction budget generalizing budget' cur names with
  | zero =>
    obtain ⟨top, rfl⟩ | ⟨_, _, _, _, -, -, -, -, spent, -⟩ := climb_cases h
    · obtain ⟨-, rfl⟩ | ⟨kind, _, _, _, kinded, inner, -⟩ := climb_cases h'
      · rfl
      · exact absurd (agree.kind cur _ _ top kinded).symm inner
    · omega
  | succ budget ih =>
    obtain ⟨top, rfl⟩ | ⟨kind, name, parent, rest, kinded, inner, named, up, spent, h⟩ :=
      climb_cases h
    · obtain ⟨-, rfl⟩ | ⟨kind, _, _, _, kinded, inner, -⟩ := climb_cases h'
      · rfl
      · exact absurd (agree.kind cur _ _ top kinded).symm inner
    · obtain ⟨top, -⟩ | ⟨kind', name', parent', rest', -, -, named', up', -, h'⟩ :=
        climb_cases h'
      · exact absurd (agree.kind cur _ _ kinded top) inner
      · cases Nat.succ.inj spent
        cases agree.name cur _ _ named named'
        cases agree.parent cur _ _ up up'
        exact ih h h'

theorem derivesTo_agrees (agree : m.Agrees) {repo : Nat} {id mod mod' : NodeId}
    {ident ident' : Identity} (h : DerivesTo read m.graphs repo id mod ident)
    (h' : DerivesTo read m.graphs repo id mod' ident') :
    mod = mod' ∧ ident.kind = ident'.kind ∧ ident.localName = ident'.localName := by
  obtain ⟨g, mem, repoed, h⟩ := h
  obtain ⟨g', mem', repoed', h'⟩ := h'
  have navs := agree g mem g' mem' (repoed.trans repoed'.symm)
  rw [derive] at h h'
  obtain ⟨kind, kinded, h⟩ := Option.bind_eq_some_iff.mp h
  obtain ⟨kind', kinded', h'⟩ := Option.bind_eq_some_iff.mp h'
  obtain ⟨⟨top, names⟩, climbed, h⟩ := Option.bind_eq_some_iff.mp h
  obtain ⟨⟨top', names'⟩, climbed', h'⟩ := Option.bind_eq_some_iff.mp h'
  obtain ⟨path, _, h⟩ := Option.bind_eq_some_iff.mp h
  obtain ⟨path', _, h'⟩ := Option.bind_eq_some_iff.mp h'
  obtain ⟨rfl, rfl⟩ := Prod.mk.inj (climb_agrees navs climbed climbed')
  cases h
  cases h'
  exact ⟨rfl, navs.kind id _ _ kinded kinded', rfl⟩

end Derived

section Modules
variable (read : NodeReader)

theorem collectModules_apart (m : MergedGraph) :
    ((collectModules read m).1.map fun i => (i.repo, i.id)).Nodup := by
  have keyed := collected_modules read m
  rw [collectModules]
  dsimp only
  rw [((List.perm_insertionSort _ _).map _).nodup_iff, List.map_map, List.map_map]
  revert keyed
  generalize List.foldl _ _ _ = mods
  intro keyed
  rw [List.Nodup, List.pairwise_map]
  apply mods.distinct_keys_toList.imp_of_mem
  rintro ⟨k, a⟩ ⟨k', b⟩ left right apart same
  apply apart
  rw [compare_eq_iff_eq]
  have own := (keyed k a (OrdMap.mem_toList.mp left)).1
  have own' := (keyed k' b (OrdMap.mem_toList.mp right)).1
  rw [own, own']
  exact congrArg toLex same

def removedModules (prior current : MergedGraph) : List ModuleInfo :=
  (collectModules read prior).1.filter fun m =>
    (m.repo, NodeKind.module, m.qname) ∉ (collectModules read current).2

def addedModules (prior current : MergedGraph) : List ModuleInfo :=
  (collectModules read current).1.filter fun m =>
    (m.repo, NodeKind.module, m.qname) ∉ (collectModules read prior).2

structure ModulePair where
  old : ModuleInfo
  new : ModuleInfo
  tier : MoveTier

def ModulePair.file (p : ModulePair) : FileMove := ⟨p.old.path, p.new.path, p.tier⟩

def ModulePair.moves (oldPresent newPresent : Present) (p : ModulePair) : List NodeMove :=
  ⟨NodeKind.module, p.old.id, p.old.qname, p.new.id, p.new.qname⟩ ::
    declMoves oldPresent newPresent p.old p.new

def declaredRenames (declared : List (String × String)) : List (String × String) :=
  (declared.map fun d => (normPath d.1, normPath d.2)).dedup.insertionSort
    fun a b => toLex a ≤ toLex b

def pairingAfter (removed added : List ModuleInfo) (declared : List (String × String))
    (passes : List MoveTier) : Pairing :=
  passes.foldl (pairTier removed added)
    ((declaredRenames declared).foldl (pairDeclared removed added) {})

def resolve (removed added : List ModuleInfo) (p : Nat × Nat × MoveTier) : Option ModulePair :=
  (removed[p.1]?).bind fun old => (added[p.2.1]?).map fun new => ⟨old, new, p.2.2⟩

def modulePairs (prior current : MergedGraph) (declared : List (String × String))
    (passes : List MoveTier) : List ModulePair :=
  let removed := removedModules read prior current
  let added := addedModules read prior current
  (pairingAfter removed added declared passes).pairs.filterMap (resolve removed added)

end Modules

end Glia.Graph
