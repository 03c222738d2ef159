import Glia.Graph.Identity

/-! Both ends of a move changed: its old node is gone from the new build, its new node was
not in the old one. -/
namespace Glia.Graph

open Glia.Kit (OrdMap)

section First

theorem firstNodes_from (nodes : List Node) (acc : List Node × Finset NodeId)
    (seen : ∀ id, id ∈ acc.2 ↔ ∃ n ∈ acc.1, n.id = id) :
    let out := nodes.foldl (fun (acc : List Node × Finset NodeId) n =>
      if n.id ∈ acc.2 then acc else (acc.1 ++ [n], insert n.id acc.2)) acc
    (∀ n ∈ out.1, n ∈ acc.1 ∨ n ∈ nodes) ∧
      ∀ n, n ∈ acc.1 ∨ n ∈ nodes → ∃ n' ∈ out.1, n'.id = n.id := by
  induction nodes generalizing acc with
  | nil =>
    refine ⟨fun n mem => .inl mem, fun n mem => ⟨n, by simpa using mem, rfl⟩⟩
  | cons a nodes ih =>
    rw [List.foldl_cons]
    by_cases old : a.id ∈ acc.2
    · rw [if_pos old]
      obtain ⟨sound, complete⟩ := ih acc seen
      constructor
      · intro n mem
        exact (sound n mem).imp id fun h => List.mem_cons_of_mem a h
      · rintro n (mem | mem)
        · exact complete n (.inl mem)
        · obtain rfl | mem := List.mem_cons.mp mem
          · obtain ⟨b, held, same⟩ := (seen n.id).mp old
            obtain ⟨c, kept, eq⟩ := complete b (.inl held)
            exact ⟨c, kept, eq.trans same⟩
          · exact complete n (.inr mem)
    · rw [if_neg old]
      obtain ⟨sound, complete⟩ := ih (acc.1 ++ [a], insert a.id acc.2) (by
        intro id
        simp only [Finset.mem_insert, List.mem_append, List.mem_singleton, seen, or_and_right,
          exists_or, exists_eq_left]
        rw [or_comm, eq_comm])
      constructor
      · intro n mem
        obtain mem | mem := sound n mem
        · obtain mem | mem := List.mem_append.mp mem
          · exact .inl mem
          · exact .inr (List.mem_singleton.mp mem ▸ List.mem_cons_self)
        · exact .inr (List.mem_cons_of_mem a mem)
      · rintro n (mem | mem)
        · exact complete n (.inl (List.mem_append_left _ mem))
        · obtain rfl | mem := List.mem_cons.mp mem
          · exact complete n (.inl (List.mem_append_right _ List.mem_cons_self))
          · exact complete n (.inr mem)

theorem mem_of_mem_firstNodes {nodes : List Node} {n : Node} (h : n ∈ firstNodes nodes) :
    n ∈ nodes := by
  have found := (firstNodes_from nodes ([], ∅) (by simp)).1 n h
  simpa using found

theorem exists_firstNodes {nodes : List Node} {n : Node} (h : n ∈ nodes) :
    ∃ n' ∈ firstNodes nodes, n'.id = n.id :=
  (firstNodes_from nodes ([], ∅) (by simp)).2 n (.inr h)

end First

section Held

def RepoGraph.Holds (g : RepoGraph) (id : NodeId) (kind : Nat) (qname : String) : Prop :=
  (∃ n ∈ g.nodes, n.id = id) ∧ g.nav.qnameById[id]? = some qname ∧
    g.nav.kindById[id]? = some kind

def Held (graphs : List RepoGraph) (repo : Nat) (id : NodeId) (kind : Nat) (qname : String) :
    Prop :=
  ∃ g ∈ graphs, g.repo = repo ∧ g.Holds id kind qname

variable (read : NodeReader)

def DerivesTo (graphs : List RepoGraph) (repo : Nat) (id mod : NodeId) (ident : Identity) : Prop :=
  ∃ g ∈ graphs, g.repo = repo ∧ derive read g id = some (mod, ident)

structure Leads (graphs : List RepoGraph) (repo : Nat) (id : NodeId) (qname : String) : Prop where
  held : Held graphs repo id NodeKind.module qname
  own : ∃ ident, DerivesTo read graphs repo id id ident

structure Declares (graphs : List RepoGraph) (repo : Nat) (mod id : NodeId) (kind : Nat)
    (localName qname : String) : Prop where
  held : Held graphs repo id kind qname
  inner : mod ≠ id
  under : ∃ ident, DerivesTo read graphs repo id mod ident ∧ ident.kind = kind ∧
    ident.localName = localName

structure Collected.Sound (graphs : List RepoGraph) (s : Collected) : Prop where
  mods : ∀ (k : Nat ×ₗ NodeId) (info : ModuleInfo), s.mods[k]? = some info →
    k = toLex (info.repo, info.id) ∧ info.desc = ∅ ∧
      Leads read graphs info.repo info.id info.qname
  desc : ∀ d ∈ s.desc, Declares read graphs d.repo d.module d.id d.kind d.localName d.qname

theorem climb_module {nav : CodeNav} {budget : Nat} {cur : NodeId} {names : List String}
    {mod : NodeId} {down : List String} (h : climb nav budget cur names = some (mod, down)) :
    nav.kindById[mod]? = some NodeKind.module := by
  induction budget generalizing cur names with
  | zero =>
    rw [climb] at h
    obtain ⟨kind, read, h⟩ := Option.bind_eq_some_iff.mp h
    split at h
    · rename_i same
      cases h
      rw [read, same]
    · obtain ⟨name, _, h⟩ := Option.bind_eq_some_iff.mp h
      cases h
  | succ budget ih =>
    rw [climb] at h
    obtain ⟨kind, read, h⟩ := Option.bind_eq_some_iff.mp h
    split at h
    · rename_i same
      cases h
      rw [read, same]
    · obtain ⟨name, _, h⟩ := Option.bind_eq_some_iff.mp h
      obtain ⟨parent, _, h⟩ := Option.bind_eq_some_iff.mp h
      exact ih h

theorem derive_kind {g : RepoGraph} {id mod : NodeId} {ident : Identity}
    (h : derive read g id = some (mod, ident)) :
    g.nav.kindById[id]? = some ident.kind ∧ g.nav.kindById[mod]? = some NodeKind.module := by
  rw [derive] at h
  obtain ⟨kind, kinded, h⟩ := Option.bind_eq_some_iff.mp h
  obtain ⟨⟨mod', names⟩, climbed, h⟩ := Option.bind_eq_some_iff.mp h
  obtain ⟨path, _, h⟩ := Option.bind_eq_some_iff.mp h
  cases h
  exact ⟨kinded, climb_module climbed⟩

def nodeTriple (g : RepoGraph) (id : NodeId) : Option (Nat × Nat × String) :=
  (g.nav.qnameById[id]?).bind fun qname =>
    (g.nav.kindById[id]?).map fun kind => (g.repo, kind, qname)

theorem collectNode_present (g : RepoGraph) (s : Collected) (n : Node) :
    ∀ t, t ∈ (collectNode read g s n).present ↔ t ∈ s.present ∨ nodeTriple g n.id = some t := by
  intro t
  rw [collectNode, nodeTriple]
  cases g.nav.qnameById[n.id]? with
  | none => simp
  | some qname =>
    cases g.nav.kindById[n.id]? with
    | none => simp
    | some kind =>
      have added : t ∈ insert (g.repo, kind, qname) s.present ↔
          t ∈ s.present ∨ some (g.repo, kind, qname) = some t := by
        rw [Finset.mem_insert, Option.some.injEq, or_comm, eq_comm]
      cases derive read g n.id with
      | none => simpa using added
      | some found =>
        obtain ⟨mod, ident⟩ := found
        by_cases inside : mod ≠ n.id
        · simpa [inside] using added
        · cases h : read.positionFile n with
          | none => simpa [inside, h] using added
          | some path => simpa [inside, h] using added

theorem collectNode_sound {graphs : List RepoGraph} {g : RepoGraph} (mem : g ∈ graphs)
    {s : Collected} (sound : s.Sound read graphs) {n : Node} (node : n ∈ g.nodes) :
    (collectNode read g s n).Sound read graphs := by
  rw [collectNode]
  cases named : g.nav.qnameById[n.id]? with
  | none => exact sound
  | some qname =>
    cases kinded : g.nav.kindById[n.id]? with
    | none => exact sound
    | some kind =>
      cases found : derive read g n.id with
      | none => exact ⟨sound.mods, sound.desc⟩
      | some p =>
        obtain ⟨mod, ident⟩ := p
        obtain ⟨own, top⟩ := derive_kind read found
        by_cases inside : mod ≠ n.id
        · simp only [inside, ne_eq, not_false_eq_true, if_true]
          refine ⟨sound.mods, ?_⟩
          intro d hd
          obtain hd | hd := List.mem_append.mp hd
          · exact sound.desc d hd
          · rw [List.mem_singleton.mp hd]
            exact ⟨⟨g, mem, rfl, ⟨n, node, rfl⟩, named, own⟩, inside,
              ident, ⟨g, mem, rfl, found⟩, rfl, rfl⟩
        · simp only [inside, if_false]
          cases read.positionFile n with
          | none => exact ⟨sound.mods, sound.desc⟩
          | some path =>
            refine ⟨?_, sound.desc⟩
            intro k info held
            rw [Std.ExtTreeMap.getElem?_alter] at held
            split at held
            · rename_i same
              rw [compare_eq_iff_eq] at same
              cases before : s.mods[toLex (g.repo, n.id)]? with
              | some old =>
                rw [before] at held
                cases held
                exact sound.mods k old (same ▸ before)
              | none =>
                rw [before] at held
                cases held
                rw [not_not] at inside
                refine ⟨same ▸ rfl, rfl, ⟨g, mem, rfl, ⟨n, node, rfl⟩, named, inside ▸ top⟩,
                  ident, g, mem, rfl, ?_⟩
                rw [inside] at found
                exact found
            · exact sound.mods k info held

theorem collectGraph_sound {graphs : List RepoGraph} {g : RepoGraph} (mem : g ∈ graphs)
    {s : Collected} (sound : s.Sound read graphs) :
    (collectGraph read s g).Sound read graphs := by
  rw [collectGraph]
  have each : ∀ n ∈ firstNodes g.nodes, n ∈ g.nodes := fun n => mem_of_mem_firstNodes
  revert each
  induction firstNodes g.nodes generalizing s with
  | nil => exact fun _ => sound
  | cons n nodes ih =>
    intro each
    rw [List.foldl_cons]
    exact ih (collectNode_sound read mem sound (each n List.mem_cons_self))
      fun a ha => each a (List.mem_cons_of_mem n ha)

theorem collected_sound (graphs all : List RepoGraph) (sub : ∀ g ∈ graphs, g ∈ all)
    {s : Collected} (sound : s.Sound read all) :
    (graphs.foldl (collectGraph read) s).Sound read all := by
  induction graphs generalizing s with
  | nil => exact sound
  | cons g graphs ih =>
    rw [List.foldl_cons]
    exact ih (fun h hh => sub h (List.mem_cons_of_mem g hh))
      (collectGraph_sound read (sub g List.mem_cons_self) sound)

theorem collectNodes_present (g : RepoGraph) (nodes : List Node) (s : Collected)
    (t : Nat × Nat × String) : t ∈ (nodes.foldl (collectNode read g) s).present ↔
      t ∈ s.present ∨ ∃ n ∈ nodes, nodeTriple g n.id = some t := by
  induction nodes generalizing s with
  | nil => simp
  | cons n nodes ih =>
    rw [List.foldl_cons, ih, collectNode_present]
    simp [or_assoc]

theorem collectGraphs_present (graphs : List RepoGraph) (s : Collected)
    (t : Nat × Nat × String) : t ∈ (graphs.foldl (collectGraph read) s).present ↔
      t ∈ s.present ∨ ∃ g ∈ graphs, ∃ n ∈ firstNodes g.nodes, nodeTriple g n.id = some t := by
  induction graphs generalizing s with
  | nil => simp
  | cons g graphs ih =>
    rw [List.foldl_cons, ih, collectGraph, collectNodes_present]
    simp [or_assoc]

theorem present_of_held {m : MergedGraph} {repo : Nat} {id : NodeId} {kind : Nat}
    {qname : String} (held : Held m.graphs repo id kind qname) :
    (repo, kind, qname) ∈ (collectModules read m).2 := by
  obtain ⟨g, mem, rfl, ⟨n, node, rfl⟩, named, kinded⟩ := held
  rw [collectModules, collectGraphs_present]
  obtain ⟨n', node', same⟩ := exists_firstNodes node
  exact .inr ⟨g, mem, n', node', by simp [nodeTriple, same, named, kinded]⟩

structure ModuleInfo.Sound (graphs : List RepoGraph) (m : ModuleInfo) : Prop where
  self : Leads read graphs m.repo m.id m.qname
  desc : ∀ (k : DeclKey) (l : List (NodeId × String)), m.desc[k]? = some l → ∀ e ∈ l,
    Declares read graphs m.repo m.id e.1 (ofLex k).1 (ofLex k).2 e.2

variable {read} in
theorem ModuleInfo.Sound.addDeclared {graphs : List RepoGraph} {m : ModuleInfo}
    (sound : m.Sound read graphs) {d : Declared}
    (held : Declares read graphs d.repo d.module d.id d.kind d.localName d.qname)
    (repo : d.repo = m.repo) (mod : d.module = m.id) : (m.addDeclared d).Sound read graphs := by
  refine ⟨sound.self, ?_⟩
  intro k l listed e mem
  rw [ModuleInfo.addDeclared, Std.ExtTreeMap.getElem?_alter] at listed
  split at listed
  · rename_i same
    rw [compare_eq_iff_eq] at same
    cases listed
    obtain mem | mem := List.mem_append.mp mem
    · cases before : m.desc[toLex (d.kind, d.localName)]? with
      | none => simp [before] at mem
      | some old =>
        rw [before] at mem
        exact sound.desc k old (same ▸ before) e mem
    · rw [List.mem_singleton.mp mem, ← same]
      rw [repo, mod] at held
      exact held
  · exact sound.desc k l listed e mem

variable {read} in
theorem ModuleInfo.Sound.sorted {graphs : List RepoGraph} {m : ModuleInfo}
    (sound : m.Sound read graphs) : m.sorted.Sound read graphs := by
  refine ⟨sound.self, ?_⟩
  intro k l listed e mem
  rw [ModuleInfo.sorted, OrdMap.get_map] at listed
  obtain ⟨old, before, rfl⟩ := Option.map_eq_some_iff.mp listed
  rw [sortDeclared, (List.perm_insertionSort _ old).mem_iff] at mem
  exact sound.desc k old before e mem

theorem addAll_sound {graphs : List RepoGraph} (desc : List Declared)
    (held : ∀ d ∈ desc, Declares read graphs d.repo d.module d.id d.kind d.localName d.qname)
    {mods : OrdMap (Nat ×ₗ NodeId) ModuleInfo}
    (sound : ∀ (k : Nat ×ₗ NodeId) (m : ModuleInfo), mods[k]? = some m →
      k = toLex (m.repo, m.id) ∧ m.Sound read graphs) :
    ∀ (k : Nat ×ₗ NodeId) (m : ModuleInfo),
      (desc.foldl (fun (mods : OrdMap (Nat ×ₗ NodeId) ModuleInfo) d =>
        mods.alter (toLex (d.repo, d.module)) (Option.map (ModuleInfo.addDeclared d)))
          mods)[k]? = some m → k = toLex (m.repo, m.id) ∧ m.Sound read graphs := by
  induction desc generalizing mods with
  | nil => exact sound
  | cons d desc ih =>
    rw [List.foldl_cons]
    apply ih fun a ha => held a (List.mem_cons_of_mem d ha)
    intro k m listed
    rw [Std.ExtTreeMap.getElem?_alter] at listed
    split at listed
    · rename_i same
      rw [compare_eq_iff_eq] at same
      obtain ⟨old, before, rfl⟩ := Option.map_eq_some_iff.mp listed
      obtain ⟨keyed, fine⟩ := sound k old (same ▸ before)
      rw [← same] at keyed
      have own := toLex.injective keyed
      have repo : d.repo = old.repo := congrArg Prod.fst own
      have mod : d.module = old.id := congrArg Prod.snd own
      exact ⟨same ▸ keyed, fine.addDeclared (held d List.mem_cons_self) repo mod⟩
    · exact sound k m listed

theorem collected_modules (m : MergedGraph) (k : Nat ×ₗ NodeId) (info : ModuleInfo)
    (listed : ((m.graphs.foldl (collectGraph read) {}).desc.foldl
      (fun (mods : OrdMap (Nat ×ₗ NodeId) ModuleInfo) d =>
        mods.alter (toLex (d.repo, d.module)) (Option.map (ModuleInfo.addDeclared d)))
      (m.graphs.foldl (collectGraph read) {}).mods)[k]? = some info) :
    k = toLex (info.repo, info.id) ∧ info.Sound read m.graphs := by
  have sound := collected_sound read m.graphs m.graphs (fun g hg => hg)
    (s := {}) ⟨by simp, by simp⟩
  refine addAll_sound read _ sound.desc ?_ k info listed
  intro k' m' before
  obtain ⟨keyed, fresh, held⟩ := sound.mods k' m' before
  refine ⟨keyed, held, ?_⟩
  intro k l listed
  simp [fresh] at listed

theorem collectModules_sound (m : MergedGraph) :
    ∀ info ∈ (collectModules read m).1, info.Sound read m.graphs := by
  intro info mem
  rw [collectModules, (List.perm_insertionSort _ _).mem_iff] at mem
  obtain ⟨info', inside, rfl⟩ := List.mem_map.mp mem
  obtain ⟨⟨k, old⟩, listed, rfl⟩ := List.mem_map.mp inside
  exact (collected_modules read m k old (OrdMap.mem_toList.mp listed)).2.sorted

end Held

section Changed
variable (read : NodeReader) (prior current : MergedGraph)

def NodeMove.Changed (m : NodeMove) : Prop :=
  (∃ repo, Held prior.graphs repo m.oldId m.kind m.oldQname ∧
    ∀ id, ¬Held current.graphs repo id m.kind m.oldQname) ∧
  ∃ repo, Held current.graphs repo m.newId m.kind m.newQname ∧
    ∀ id, ¬Held prior.graphs repo id m.kind m.newQname

theorem not_held_of_not_present {m : MergedGraph} {repo kind : Nat} {qname : String}
    (h : (repo, kind, qname) ∉ (collectModules read m).2) (id : NodeId) :
    ¬Held m.graphs repo id kind qname :=
  fun held => h (present_of_held read held)

theorem declMoves_changed {old new : ModuleInfo} (soundOld : old.Sound read prior.graphs)
    (soundNew : new.Sound read current.graphs) :
    ∀ m ∈ declMoves (collectModules read prior).2 (collectModules read current).2 old new,
      m.Changed prior current := by
  intro m mem
  obtain ⟨⟨k, olds⟩, listed, found⟩ := List.mem_filterMap.mp mem
  split at found
  · rename_i newId newQname oldId oldQname news same
    split at found
    · cases found
    · rename_i apart
      rw [not_or] at apart
      cases found
      simp only at same
      subst same
      have held := (soundOld.desc k _ (OrdMap.mem_toList.mp listed) _ List.mem_cons_self).held
      have held' := (soundNew.desc k _ news _ List.mem_cons_self).held
      exact ⟨⟨old.repo, held, not_held_of_not_present read apart.1⟩,
        ⟨new.repo, held', not_held_of_not_present read apart.2⟩⟩
  · cases found

theorem moves_changed (declared : List (String × String)) :
    ∀ m ∈ (detectMovesWith read prior current declared).nodes, m.Changed prior current := by
  intro m mem
  rw [detectMovesWith] at mem
  simp only [(List.perm_insertionSort _ _).mem_iff, List.mem_flatMap] at mem
  obtain ⟨⟨file, moves⟩, ⟨p, -, paired⟩, mem⟩ := mem
  rw [movesOf] at paired
  split at paired
  · rename_i old new gone fresh
    rw [List.mem_singleton, Prod.mk.injEq] at paired
    have soundOld := List.mem_filter.mp (List.mem_of_getElem? gone)
    have soundNew := List.mem_filter.mp (List.mem_of_getElem? fresh)
    rw [paired.2] at mem
    obtain rfl | mem := List.mem_cons.mp mem
    · exact ⟨⟨old.repo, (collectModules_sound read prior old soundOld.1).self.held,
          not_held_of_not_present read (by simpa using soundOld.2)⟩,
        ⟨new.repo, (collectModules_sound read current new soundNew.1).self.held,
          not_held_of_not_present read (by simpa using soundNew.2)⟩⟩
    · exact declMoves_changed read prior current (collectModules_sound read prior old soundOld.1)
        (collectModules_sound read current new soundNew.1) m mem
  · cases paired

end Changed

end Glia.Graph
