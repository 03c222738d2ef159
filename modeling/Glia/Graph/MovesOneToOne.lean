import Glia.Graph.MovesPaired
import Glia.Graph.NodeRead
import Mathlib

/-! No module and no node is an end of two moves. -/
namespace Glia.Graph

open Glia.Kit (OrdMap)

section Pairs
variable {read : NodeReader} {prior current : MergedGraph}

theorem index_of_key {α β : Type} {f : α → β} {l : List α} (apart : (l.map f).Nodup) {i j : Nat}
    {a b : α} (left : l[i]? = some a) (right : l[j]? = some b) (same : f a = f b) : i = j := by
  have inside : i < (l.map f).length := by
    rw [List.length_map]
    exact (List.getElem?_eq_some_iff.mp left).1
  apply (List.getElem?_inj inside apart).mp
  rw [List.getElem?_map, List.getElem?_map, left, right]
  exact congrArg some same

theorem removedModules_apart (read : NodeReader) (prior current : MergedGraph) :
    ((removedModules read prior current).map fun i => (i.repo, i.id)).Nodup :=
  ((List.filter_sublist).map _).nodup (collectModules_apart read prior)

theorem addedModules_apart (read : NodeReader) (prior current : MergedGraph) :
    ((addedModules read prior current).map fun i => (i.repo, i.id)).Nodup :=
  ((List.filter_sublist).map _).nodup (collectModules_apart read current)

theorem resolve_eq_some {removed added : List ModuleInfo} {e : Nat × Nat × MoveTier}
    {p : ModulePair} (h : resolve removed added e = some p) :
    removed[e.1]? = some p.old ∧ added[e.2.1]? = some p.new ∧ p.tier = e.2.2 := by
  obtain ⟨old, left, h⟩ := Option.bind_eq_some_iff.mp h
  obtain ⟨new, right, rfl⟩ := Option.map_eq_some_iff.mp h
  exact ⟨left, right, rfl⟩

theorem pairingAfter_pass (removed added : List ModuleInfo) (declared : List (String × String))
    (passes : List MoveTier) (tier : MoveTier) :
    pairingAfter removed added declared (passes ++ [tier]) =
      pairTier removed added (pairingAfter removed added declared passes) tier := by
  rw [pairingAfter, List.foldl_append]
  rfl

theorem pairingAfter_fits (removed added : List ModuleInfo) (declared : List (String × String))
    (passes : List MoveTier) : (pairingAfter removed added declared passes).Fits removed added := by
  have start : (pairingAfter removed added declared []).Fits removed added :=
    (declared_grows Pairing.fits_start (declaredRenames declared)).fits
  induction passes using List.reverseRecOn with
  | nil => exact start
  | append_singleton passes tier ih =>
    rw [pairingAfter_pass]
    exact (pairTier_grows ih tier).fits

theorem modulePairs_apart (declared : List (String × String)) (passes : List MoveTier) :
    ((modulePairs read prior current declared passes).map
        fun p => (p.old.repo, p.old.id)).Nodup ∧
      ((modulePairs read prior current declared passes).map
        fun p => (p.new.repo, p.new.id)).Nodup := by
  have fits := pairingAfter_fits (removedModules read prior current)
    (addedModules read prior current) declared passes
  rw [modulePairs]
  constructor
  · rw [List.Nodup, List.pairwise_map, List.pairwise_filterMap]
    apply (List.pairwise_map.mp fits.onceOld).imp
    intro e f apart p left q right same
    exact apart (index_of_key (removedModules_apart read prior current)
      (resolve_eq_some left).1 (resolve_eq_some right).1 same)
  · rw [List.Nodup, List.pairwise_map, List.pairwise_filterMap]
    apply (List.pairwise_map.mp fits.onceNew).imp
    intro e f apart p left q right same
    exact apart (index_of_key (addedModules_apart read prior current)
      (resolve_eq_some left).2.1 (resolve_eq_some right).2.1 same)

structure ModulePair.Joins (read : NodeReader) (prior current : MergedGraph) (p : ModulePair) :
    Prop where
  gone : p.old ∈ removedModules read prior current
  fresh : p.new ∈ addedModules read prior current
  repo : p.new.repo = p.old.repo

theorem modulePairs_joins {declared : List (String × String)} {passes : List MoveTier} :
    ∀ p ∈ modulePairs read prior current declared passes, p.Joins read prior current := by
  intro p mem
  obtain ⟨e, inside, found⟩ := List.mem_filterMap.mp mem
  have fits := pairingAfter_fits (removedModules read prior current)
    (addedModules read prior current) declared passes
  obtain ⟨left, right, -⟩ := resolve_eq_some found
  obtain ⟨old, new, gone, fresh, same⟩ := fits.within e inside
  rw [left] at gone
  rw [right] at fresh
  cases gone
  cases fresh
  exact ⟨List.mem_of_getElem? left, List.mem_of_getElem? right, same.symm⟩

theorem modulePairs_pass (declared : List (String × String)) (passes : List MoveTier)
    (tier : MoveTier) : ∃ more,
      modulePairs read prior current declared (passes ++ [tier]) =
        modulePairs read prior current declared passes ++ more ∧ ∀ p ∈ more, p.tier = tier := by
  have fits := pairingAfter_fits (removedModules read prior current)
    (addedModules read prior current) declared passes
  obtain ⟨more, eq, own⟩ := (pairTier_grows fits tier).grown
  refine ⟨more.filterMap (resolve (removedModules read prior current)
    (addedModules read prior current)), ?_, ?_⟩
  · rw [modulePairs, modulePairs]
    rw [pairingAfter_pass, eq, List.filterMap_append]
  · intro p mem
    obtain ⟨e, inside, found⟩ := List.mem_filterMap.mp mem
    rw [(resolve_eq_some found).2.2]
    exact own e inside

theorem modulePairs_declared (declared : List (String × String)) :
    ∀ p ∈ modulePairs read prior current declared [], p.tier = .declared := by
  obtain ⟨more, eq, own⟩ := (@declared_grows (removedModules read prior current)
    (addedModules read prior current) {} Pairing.fits_start (declaredRenames declared)).grown
  intro p mem
  obtain ⟨e, inside, found⟩ := List.mem_filterMap.mp mem
  rw [(resolve_eq_some found).2.2]
  apply own e
  rw [pairingAfter, List.foldl_nil, eq] at inside
  exact inside

end Pairs

section Carried
variable {read : NodeReader} {prior current : MergedGraph} {oldPresent newPresent : Present}
  {old new : ModuleInfo}

structure Carried (oldPresent newPresent : Present) (old new : ModuleInfo) (k : DeclKey)
    (m : NodeMove) : Prop where
  kind : m.kind = (ofLex k).1
  before : old.desc[k]? = some [(m.oldId, m.oldQname)]
  after : new.desc[k]? = some [(m.newId, m.newQname)]
  gone : (old.repo, m.kind, m.oldQname) ∉ newPresent
  fresh : (new.repo, m.kind, m.newQname) ∉ oldPresent

def declMove (oldPresent newPresent : Present) (old new : ModuleInfo)
    (e : DeclKey × List (NodeId × String)) : Option NodeMove :=
  match new.desc[e.1]?, e.2 with
  | some [(newId, newQname)], [(oldId, oldQname)] =>
    if (old.repo, (ofLex e.1).1, oldQname) ∈ newPresent ∨
        (new.repo, (ofLex e.1).1, newQname) ∈ oldPresent then none
    else some ⟨(ofLex e.1).1, oldId, oldQname, newId, newQname⟩
  | _, _ => none

theorem declMoves_eq : declMoves oldPresent newPresent old new =
    old.desc.toList.filterMap (declMove oldPresent newPresent old new) := rfl

theorem declMove_carried {e : DeclKey × List (NodeId × String)} {m : NodeMove}
    (mem : e ∈ old.desc.toList) (found : declMove oldPresent newPresent old new e = some m) :
    Carried oldPresent newPresent old new e.1 m := by
  rw [declMove] at found
  split at found
  · rename_i newId newQname oldId oldQname news same
    split at found
    · cases found
    · rename_i apart
      rw [not_or] at apart
      cases found
      exact ⟨rfl, same ▸ OrdMap.mem_toList.mp mem, news, apart.1, apart.2⟩
  · cases found

theorem declMoves_carried {m : NodeMove} (mem : m ∈ declMoves oldPresent newPresent old new) :
    ∃ k, Carried oldPresent newPresent old new k m := by
  rw [declMoves_eq] at mem
  obtain ⟨e, inside, found⟩ := List.mem_filterMap.mp mem
  exact ⟨e.1, declMove_carried inside found⟩

theorem declMoves_pairwise {R : NodeMove → NodeMove → Prop}
    (h : ∀ k k' m m', k ≠ k' → Carried oldPresent newPresent old new k m →
      Carried oldPresent newPresent old new k' m' → R m m') :
    (declMoves oldPresent newPresent old new).Pairwise R := by
  rw [declMoves_eq, List.pairwise_filterMap]
  apply old.desc.distinct_keys_toList.imp_of_mem
  intro e f left right apart m found m' found'
  refine h e.1 f.1 m m' ?_ (declMove_carried left found) (declMove_carried right found')
  intro same
  exact apart (compare_eq_iff_eq.mpr same)

theorem Carried.declares {k : DeclKey} {m : NodeMove} (held : Carried oldPresent newPresent old new k m)
    (soundOld : old.Sound read prior.graphs) (soundNew : new.Sound read current.graphs) :
    Declares read prior.graphs old.repo old.id m.oldId m.kind (ofLex k).2 m.oldQname ∧
      Declares read current.graphs new.repo new.id m.newId m.kind (ofLex k).2 m.newQname := by
  rw [held.kind]
  exact ⟨soundOld.desc k _ held.before _ List.mem_cons_self,
    soundNew.desc k _ held.after _ List.mem_cons_self⟩

theorem Declares.unique (agree : prior.Agrees) {repo : Nat} {mod mod' id : NodeId}
    {kind kind' : Nat} {name name' qname qname' : String}
    (h : Declares read prior.graphs repo mod id kind name qname)
    (h' : Declares read prior.graphs repo mod' id kind' name' qname') :
    mod = mod' ∧ kind = kind' ∧ name = name' := by
  obtain ⟨ident, derived, rfl, rfl⟩ := h.under
  obtain ⟨ident', derived', rfl, rfl⟩ := h'.under
  exact derivesTo_agrees agree derived derived'

end Carried

section Ends
variable {read : NodeReader} {prior current : MergedGraph}

structure NodeMove.Crosses (prior current : MergedGraph) (repo : Nat) (m : NodeMove) : Prop where
  was : Held prior.graphs repo m.oldId m.kind m.oldQname
  gone : ∀ id, ¬Held current.graphs repo id m.kind m.oldQname
  arrived : Held current.graphs repo m.newId m.kind m.newQname
  fresh : ∀ id, ¬Held prior.graphs repo id m.kind m.newQname

def ModulePair.Aligns (read : NodeReader) (prior current : MergedGraph) (p : ModulePair)
    (m : NodeMove) : Prop :=
  (m.kind = NodeKind.module ∧ m.oldId = p.old.id ∧ m.newId = p.new.id) ∨
    ∃ name, Declares read prior.graphs p.old.repo p.old.id m.oldId m.kind name m.oldQname ∧
      Declares read current.graphs p.old.repo p.new.id m.newId m.kind name m.newQname

abbrev ModulePair.carries (read : NodeReader) (prior current : MergedGraph) (p : ModulePair) :
    List NodeMove :=
  p.moves (collectModules read prior).2 (collectModules read current).2

namespace ModulePair.Joins
variable {p : ModulePair} (joins : p.Joins read prior current)
include joins

theorem soundOld : p.old.Sound read prior.graphs :=
  collectModules_sound read prior p.old (List.mem_filter.mp joins.gone).1

theorem soundNew : p.new.Sound read current.graphs :=
  collectModules_sound read current p.new (List.mem_filter.mp joins.fresh).1

theorem crosses : ∀ m ∈ p.carries read prior current, m.Crosses prior current p.old.repo := by
  intro m mem
  obtain rfl | mem := List.mem_cons.mp mem
  · have gone := (List.mem_filter.mp joins.gone).2
    have fresh := (List.mem_filter.mp joins.fresh).2
    have arrived := joins.soundNew.self.held
    rw [joins.repo] at fresh arrived
    exact ⟨joins.soundOld.self.held, not_held_of_not_present read (by simpa using gone), arrived,
      not_held_of_not_present read (by simpa using fresh)⟩
  · obtain ⟨k, held⟩ := declMoves_carried mem
    obtain ⟨before, after⟩ := held.declares joins.soundOld joins.soundNew
    have fresh := held.fresh
    have arrived := after.held
    rw [joins.repo] at fresh arrived
    exact ⟨before.held, not_held_of_not_present read held.gone, arrived,
      not_held_of_not_present read fresh⟩

theorem aligns : ∀ m ∈ p.carries read prior current, p.Aligns read prior current m := by
  intro m mem
  obtain rfl | mem := List.mem_cons.mp mem
  · exact .inl ⟨rfl, rfl, rfl⟩
  · obtain ⟨k, held⟩ := declMoves_carried mem
    obtain ⟨before, after⟩ := held.declares joins.soundOld joins.soundNew
    rw [joins.repo] at after
    exact .inr ⟨_, before, after⟩

theorem derives : ∀ m ∈ p.carries read prior current,
    (∃ ident, DerivesTo read prior.graphs p.old.repo m.oldId p.old.id ident) ∧
      ∃ ident, DerivesTo read current.graphs p.new.repo m.newId p.new.id ident := by
  intro m mem
  obtain rfl | mem := List.mem_cons.mp mem
  · exact ⟨joins.soundOld.self.own, joins.soundNew.self.own⟩
  · obtain ⟨k, held⟩ := declMoves_carried mem
    obtain ⟨before, after⟩ := held.declares joins.soundOld joins.soundNew
    obtain ⟨ident, derived, -⟩ := before.under
    obtain ⟨ident', derived', -⟩ := after.under
    exact ⟨⟨ident, derived⟩, ident', derived'⟩

omit joins in
theorem ids_nodup {m : MergedGraph} (agree : m.Agrees) {repo : Nat} {mod : NodeId}
    {end_ : NodeMove → NodeId}
    (own : end_ ⟨NodeKind.module, p.old.id, p.old.qname, p.new.id, p.new.qname⟩ = mod)
    (under : ∀ k n, Carried (collectModules read prior).2 (collectModules read current).2
      p.old p.new k n → ∃ qname,
        Declares read m.graphs repo mod (end_ n) n.kind (ofLex k).2 qname) :
    ((p.carries read prior current).map end_).Nodup := by
  rw [carries, moves, List.map_cons, List.nodup_cons, own]
  constructor
  · intro mem
    obtain ⟨n, inside, same⟩ := List.mem_map.mp mem
    obtain ⟨k, held⟩ := declMoves_carried inside
    obtain ⟨_, declared⟩ := under k n held
    exact declared.inner same.symm
  · rw [List.Nodup, List.pairwise_map]
    apply declMoves_pairwise
    intro k k' n n' apart held held' same
    obtain ⟨_, one⟩ := under k n held
    obtain ⟨_, two⟩ := under k' n' held'
    rw [← same] at two
    obtain ⟨-, kind, name⟩ := one.unique agree two
    rw [held.kind, held'.kind] at kind
    exact apart (ofLex.injective (Prod.ext kind name))

theorem oldIds_nodup (agree : prior.Agrees) :
    ((p.carries read prior current).map fun m => m.oldId).Nodup :=
  ids_nodup agree rfl fun _ n held =>
    ⟨n.oldQname, (held.declares joins.soundOld joins.soundNew).1⟩

theorem newIds_nodup (agree : current.Agrees) :
    ((p.carries read prior current).map fun m => m.newId).Nodup :=
  ids_nodup agree rfl fun _ n held =>
    ⟨n.newQname, (held.declares joins.soundOld joins.soundNew).2⟩

end ModulePair.Joins

theorem flatMap_apart {pairs : List ModulePair} {mod : ModulePair → Nat × NodeId}
    {ids : ModulePair → List NodeId} (once : (pairs.map mod).Nodup)
    (inner : ∀ p ∈ pairs, (ids p).Nodup)
    (under : ∀ p ∈ pairs, ∀ q ∈ pairs, (mod p).1 = (mod q).1 → ∀ id ∈ ids p, id ∈ ids q →
      (mod p).2 = (mod q).2) :
    (pairs.flatMap fun p => (ids p).map fun id => ((mod p).1, id)).Nodup := by
  rw [List.nodup_flatMap]
  constructor
  · intro p mem
    exact (inner p mem).map fun a b same => (Prod.mk.inj same).2
  · apply (List.pairwise_map.mp once).imp_of_mem
    intro p q left right apart e here there
    obtain ⟨id, mem, rfl⟩ := List.mem_map.mp here
    obtain ⟨id', mem', same⟩ := List.mem_map.mp there
    obtain ⟨repo, rfl⟩ := Prod.mk.inj same
    exact apart (Prod.ext repo.symm (under p left q right repo.symm id' mem mem'))

end Ends

section Result
variable (read : NodeReader) (prior current : MergedGraph) (declared : List (String × String))

def ModuleInfo.SoleIn (mods : List ModuleInfo) (m : ModuleInfo) : Prop :=
  ∀ m' ∈ mods, m'.repo = m.repo → m'.path = m.path → m'.id = m.id

abbrev allPasses : List MoveTier := [.identical, .sameName]

theorem movesOf_eq (removed added : List ModuleInfo) (oldPresent newPresent : Present)
    (e : Nat × Nat × MoveTier) : movesOf removed added oldPresent newPresent e =
      (resolve removed added e).toList.map fun p => (p.file, p.moves oldPresent newPresent) := by
  rw [movesOf, resolve]
  cases removed[e.1]? with
  | none => rfl
  | some old =>
    cases added[e.2.1]? with
    | none => rfl
    | some new => rfl

theorem flatMap_movesOf (removed added : List ModuleInfo) (oldPresent newPresent : Present)
    (l : List (Nat × Nat × MoveTier)) :
    l.flatMap (movesOf removed added oldPresent newPresent) =
      (l.filterMap (resolve removed added)).map
        fun p => (p.file, p.moves oldPresent newPresent) := by
  induction l with
  | nil => rfl
  | cons e l ih =>
    rw [List.flatMap_cons, movesOf_eq, ih, List.filterMap_cons]
    cases resolve removed added e with
    | none => rfl
    | some p => rfl

theorem detectMovesWith_eq : detectMovesWith read prior current declared =
    { files := (((modulePairs read prior current declared allPasses).map
        ModulePair.file).insertionSort fun a b => a.rank ≤ b.rank).dedup
      nodes := ((modulePairs read prior current declared allPasses).flatMap
        (ModulePair.carries read prior current)).insertionSort fun a b => a.rank ≤ b.rank
      rejected := (pairingAfter (removedModules read prior current)
        (addedModules read prior current) declared allPasses).rejected } := by
  have whole : detectMovesWith read prior current declared = MoveMap.mk
      ((((pairingAfter (removedModules read prior current) (addedModules read prior current)
        declared allPasses).pairs.flatMap (movesOf (removedModules read prior current)
          (addedModules read prior current) (collectModules read prior).2
            (collectModules read current).2)).map Prod.fst).insertionSort
              fun a b => a.rank ≤ b.rank).dedup
      (((pairingAfter (removedModules read prior current) (addedModules read prior current)
        declared allPasses).pairs.flatMap (movesOf (removedModules read prior current)
          (addedModules read prior current) (collectModules read prior).2
            (collectModules read current).2)).flatMap Prod.snd |>.insertionSort
              fun a b => a.rank ≤ b.rank)
      (pairingAfter (removedModules read prior current) (addedModules read prior current)
        declared allPasses).rejected := by
    rw [detectMovesWith]
    rfl
  rw [whole, flatMap_movesOf, List.map_map, List.flatMap_map]
  rfl

theorem declaredRenames_congr {declared declared' : List (String × String)}
    (same : ∀ d, d ∈ declared' ↔ d ∈ declared) :
    declaredRenames declared' = declaredRenames declared := by
  rw [declaredRenames, declaredRenames]
  have perm : ((declared'.map fun d => (normPath d.1, normPath d.2)).dedup).Perm
      ((declared.map fun d => (normPath d.1, normPath d.2)).dedup) := by
    rw [List.perm_ext_iff_of_nodup (List.nodup_dedup _) (List.nodup_dedup _)]
    intro d
    simp only [List.mem_dedup, List.mem_map, same]
  have sorted : ∀ l : List (String × String),
      (l.insertionSort fun a b => toLex a ≤ toLex b).Pairwise fun a b => toLex a ≤ toLex b := by
    intro l
    have trans : IsTrans (String × String) fun a b => toLex a ≤ toLex b :=
      ⟨fun _ _ _ le le' => le.trans le'⟩
    have total : Std.Total fun a b : String × String => toLex a ≤ toLex b :=
      ⟨fun _ _ => le_total _ _⟩
    exact List.pairwise_insertionSort _ l
  apply List.Perm.eq_of_pairwise _ (sorted _) (sorted _)
  · exact ((List.perm_insertionSort _ _).trans perm).trans (List.perm_insertionSort _ _).symm
  · intro a b _ _ le ge
    exact toLex.injective (le_antisymm le ge)

structure PairsApart (pairs : List ModulePair) : Prop where
  joins : ∀ p ∈ pairs, p.Joins read prior current
  oldModules : (pairs.map fun p => (p.old.repo, p.old.id)).Nodup
  newModules : (pairs.map fun p => (p.new.repo, p.new.id)).Nodup
  oldFiles : ∀ p ∈ pairs, ∀ q ∈ pairs, p.old.repo = q.old.repo → p.old.path = q.old.path →
    p.old.SoleIn (removedModules read prior current) → p = q
  newFiles : ∀ p ∈ pairs, ∀ q ∈ pairs, p.new.repo = q.new.repo → p.new.path = q.new.path →
    p.new.SoleIn (addedModules read prior current) → p = q
  oldNodes : (pairs.flatMap fun p => ((p.carries read prior current).map fun m => m.oldId).map
    fun id => (p.old.repo, id)).Nodup
  newNodes : (pairs.flatMap fun p => ((p.carries read prior current).map fun m => m.newId).map
    fun id => (p.new.repo, id)).Nodup
  crosses : ∀ p ∈ pairs, ∀ m ∈ p.carries read prior current,
    m.Crosses prior current p.old.repo
  aligns : ∀ p ∈ pairs, ∀ m ∈ p.carries read prior current, p.Aligns read prior current m

/-- The pairs of each pass come after those of the passes above it, which stay. -/
def TiersKept : Prop :=
  ∃ byBody byName,
    modulePairs read prior current declared [.identical] =
      modulePairs read prior current declared [] ++ byBody ∧
    modulePairs read prior current declared allPasses =
      modulePairs read prior current declared [.identical] ++ byName ∧
    (∀ p ∈ modulePairs read prior current declared [], p.tier = .declared) ∧
    (∀ p ∈ byBody, p.tier = .identical) ∧ ∀ p ∈ byName, p.tier = .sameName

theorem tiersKept : TiersKept read prior current declared := by
  obtain ⟨byBody, body, bodyTier⟩ := modulePairs_pass declared [] .identical
  obtain ⟨byName, name, nameTier⟩ := modulePairs_pass declared [.identical] .sameName
  exact ⟨byBody, byName, body, name, modulePairs_declared declared, bodyTier, nameTier⟩

theorem modulePairs_pairsApart (agree : prior.Agrees) (agree' : current.Agrees)
    (passes : List MoveTier) :
    PairsApart read prior current (modulePairs read prior current declared passes) := by
  obtain ⟨oldOnce, newOnce⟩ := @modulePairs_apart read prior current declared passes
  have joins := @modulePairs_joins read prior current declared passes
  refine ⟨joins, oldOnce, newOnce, ?_, ?_, ?_, ?_, fun p mem => (joins p mem).crosses,
    fun p mem => (joins p mem).aligns⟩
  · intro p left q right repo path sole
    apply List.inj_on_of_nodup_map oldOnce left right
    have id := sole q.old (joins q right).gone repo.symm path.symm
    exact Prod.ext repo id.symm
  · intro p left q right repo path sole
    apply List.inj_on_of_nodup_map newOnce left right
    have id := sole q.new (joins q right).fresh repo.symm path.symm
    exact Prod.ext repo id.symm
  · apply flatMap_apart oldOnce fun p mem => (joins p mem).oldIds_nodup agree
    intro p left q right repo id here there
    obtain ⟨m, mem, rfl⟩ := List.mem_map.mp here
    obtain ⟨m', mem', same⟩ := List.mem_map.mp there
    obtain ⟨_, derived⟩ := ((joins p left).derives m mem).1
    obtain ⟨_, derived'⟩ := ((joins q right).derives m' mem').1
    dsimp only at same repo
    rw [same, ← repo] at derived'
    exact (derivesTo_agrees agree derived derived').1
  · apply flatMap_apart newOnce fun p mem => (joins p mem).newIds_nodup agree'
    intro p left q right repo id here there
    obtain ⟨m, mem, rfl⟩ := List.mem_map.mp here
    obtain ⟨m', mem', same⟩ := List.mem_map.mp there
    obtain ⟨_, derived⟩ := ((joins p left).derives m mem).2
    obtain ⟨_, derived'⟩ := ((joins q right).derives m' mem').2
    dsimp only at same repo
    rw [same, ← repo] at derived'
    exact (derivesTo_agrees agree' derived derived').1

/-- Moves pair one to one, by tier, whatever the order of the renames declared. -/
theorem moves_pair_one_to_one (agree : prior.Agrees) (agree' : current.Agrees) :
    let pairs := modulePairs read prior current declared allPasses
    (detectMovesWith read prior current declared).files =
        ((pairs.map ModulePair.file).insertionSort fun a b => a.rank ≤ b.rank).dedup ∧
      (detectMovesWith read prior current declared).nodes =
        (pairs.flatMap (ModulePair.carries read prior current)).insertionSort
          (fun a b => a.rank ≤ b.rank) ∧
      PairsApart read prior current pairs ∧ TiersKept read prior current declared ∧
      ∀ declared', (∀ d, d ∈ declared' ↔ d ∈ declared) →
        detectMovesWith read prior current declared' =
          detectMovesWith read prior current declared := by
  have shown := detectMovesWith_eq read prior current
  refine ⟨?_, ?_, modulePairs_pairsApart read prior current declared agree agree' allPasses,
    tiersKept read prior current declared, ?_⟩
  · rw [shown]
  · rw [shown]
  · intro declared' same
    rw [shown, shown, modulePairs, modulePairs, pairingAfter, pairingAfter,
      declaredRenames_congr same]

def cellsAt (path code : String) : List Cell :=
  [⟨CellType.position, .json ("\x7b\"file\":\"" ++ path ++ "\"\x7d")⟩,
    ⟨CellType.code, .text code⟩]

def codeReader : NodeReader := nodeReader fun _ => false

def moduleAt (id : NodeId) (qname path : String) : MergedGraph :=
  let code := "def f(request): return answer_of(request, table)"
  let nav : CodeNav :=
    { nameById := ((∅ : IdMap String).insert id qname).insert (id + 1) "f"
      qnameById := ((∅ : IdMap String).insert id qname).insert (id + 1) (qname ++ "::f")
      kindById := ((∅ : IdMap Nat).insert id 1).insert (id + 1) 3
      parentOf := (∅ : IdMap NodeId).insert (id + 1) id }
  { graphs := [{ repo := 1, nav
                 nodes := [⟨id, .strong, cellsAt path code⟩,
                   ⟨id + 1, .strong, cellsAt path code⟩] }] }

theorem agrees_single (g : RepoGraph) (cross : List Edge) : MergedGraph.Agrees ⟨[g], cross⟩ := by
  intro a left b right _
  rw [List.mem_singleton.mp left, List.mem_singleton.mp right]
  refine ⟨?_, ?_, ?_⟩
  · intro id k k' h h'
    exact Option.some.inj (h.symm.trans h')
  · intro id k k' h h'
    exact Option.some.inj (h.symm.trans h')
  · intro id k k' h h'
    exact Option.some.inj (h.symm.trans h')

theorem moves_pair_one_to_one_moved :
    PairsApart codeReader (moduleAt 10 "a" "a/x.py") (moduleAt 20 "b" "b/y.py")
        (modulePairs codeReader (moduleAt 10 "a" "a/x.py") (moduleAt 20 "b" "b/y.py") []
          allPasses) ∧
      (detectMovesWith codeReader (moduleAt 10 "a" "a/x.py") (moduleAt 20 "b" "b/y.py") []).nodes =
        [⟨1, 10, "a", 20, "b"⟩, ⟨3, 11, "a::f", 21, "b::f"⟩] := by
  have apart := (moves_pair_one_to_one codeReader (moduleAt 10 "a" "a/x.py")
    (moduleAt 20 "b" "b/y.py") [] (agrees_single _ _) (agrees_single _ _)).2.2.1
  exact ⟨apart, by decide +kernel⟩

def twoModules (id : NodeId) (qname qname' path path' : String) : MergedGraph :=
  let nav : CodeNav :=
    { nameById := ((∅ : IdMap String).insert id qname).insert (id + 1) qname'
      qnameById := ((∅ : IdMap String).insert id qname).insert (id + 1) qname'
      kindById := ((∅ : IdMap Nat).insert id 1).insert (id + 1) 1 }
  { graphs := [{ repo := 1, nav
                 nodes := [
                   ⟨id, .strong, cellsAt path "class Widget { int size() { return 4 * width; } }"⟩,
                   ⟨id + 1, .strong,
                     cellsAt path' "class Gadget { int cost() { return price - rebate; } }"⟩] }] }

def namedTwice : MergedGraph :=
  let nav (name : String) : CodeNav :=
    { nameById := ((∅ : IdMap String).insert 10 "a").insert 11 name
      qnameById := ((∅ : IdMap String).insert 10 "a").insert 11 "a::f"
      kindById := ((∅ : IdMap Nat).insert 10 1).insert 11 3
      parentOf := (∅ : IdMap NodeId).insert 11 10 }
  let file := cellsAt "a/x.py" "def f(request): return answer_of(request, table)"
  { graphs := [{ repo := 1, nav := nav "f", nodes := [⟨10, .strong, file⟩, ⟨11, .strong, file⟩] },
      { repo := 1, nav := nav "h", nodes := [⟨11, .strong, file⟩] }] }

def bothNames : MergedGraph :=
  let nav : CodeNav :=
    { nameById := (((∅ : IdMap String).insert 20 "b").insert 21 "f").insert 22 "h"
      qnameById := (((∅ : IdMap String).insert 20 "b").insert 21 "b::f").insert 22 "b::h"
      kindById := (((∅ : IdMap Nat).insert 20 1).insert 21 3).insert 22 3
      parentOf := ((∅ : IdMap NodeId).insert 21 20).insert 22 20 }
  let file := cellsAt "b/y.py" "def f(request): return answer_of(request, table)"
  { graphs := [{ repo := 1, nav
                 nodes := [⟨20, .strong, file⟩, ⟨21, .strong, file⟩, ⟨22, .strong, file⟩] }] }

/-- A path with two modules is the old end of two moves, and so is a node with two names. -/
theorem ends_taken_twice :
    (twoModules 10 "d::Widget" "d::Gadget" "d/W.java" "d/W.java").Agrees ∧
      (twoModules 20 "e::Widget" "e::Gadget" "e/W.java" "e/G.java").Agrees ∧
      (detectMovesWith codeReader
          (twoModules 10 "d::Widget" "d::Gadget" "d/W.java" "d/W.java")
          (twoModules 20 "e::Widget" "e::Gadget" "e/W.java" "e/G.java") []).files =
        [⟨"d/W.java", "e/G.java", .identical⟩, ⟨"d/W.java", "e/W.java", .identical⟩] ∧
      (∀ g ∈ namedTwice.graphs, ∀ h ∈ namedTwice.graphs, g.nav.qnameById = h.nav.qnameById ∧
        g.nav.kindById = h.nav.kindById ∧ g.nav.parentOf = h.nav.parentOf) ∧
      bothNames.Agrees ∧ (detectMovesWith codeReader namedTwice bothNames []).nodes =
        [⟨1, 10, "a", 20, "b"⟩, ⟨3, 11, "a::f", 21, "b::f"⟩, ⟨3, 11, "a::f", 22, "b::h"⟩] := by
  refine ⟨agrees_single _ _, agrees_single _ _, ?_, ?_, agrees_single _ _, ?_⟩
  · decide +kernel
  · simp [namedTwice]
  · decide +kernel

end Result

end Glia.Graph
