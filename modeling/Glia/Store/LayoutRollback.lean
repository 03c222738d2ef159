import Glia.Store.LayoutInstall

/-! What an install leaves behind: the journal of its moves, their roll-back, and when the
directory is the new layout in full or the old one as it was. -/
namespace Glia.Store.Install

open Glia.Kit.FileMoves

section Names

theorem badName_ok {name : String} (ok : badName name = none) :
    name = manifestName ∨ ".gmap".toList <:+ name.toList := by
  unfold badName at ok
  split at ok
  · cases ok
  · split at ok
    · cases ok
    · rename_i good
      by_cases own : name = manifestName
      · exact Or.inl own
      · right
        rw [Bool.and_eq_true, not_and] at good
        have shard := good (bne_iff_ne.mpr own)
        rw [Bool.or_eq_true, not_or, Bool.not_eq_true', Bool.not_eq_false] at shard
        exact List.isSuffixOf_iff_suffix.mp shard.1

theorem selfIgnoreTmp_getLast (pid : Nat) :
    (selfIgnoreTmp pid).toList.dropLast.getLast? = some 'm' := by
  have ends : ".tmp".toList = ['.', 't', 'm'] ++ ['p'] := by decide
  rw [selfIgnoreTmp, String.toList_append, ends, ← List.append_assoc, List.dropLast_concat,
    List.getLast?_append]
  rfl

theorem selfIgnoreTmp_ne (pid : Nat) : selfIgnoreTmp pid ≠ selfIgnoreName := by
  intro same
  have last := selfIgnoreTmp_getLast pid
  rw [same] at last
  exact absurd last (by decide)

theorem badName_ne_selfIgnore {name : String} (ok : badName name = none) :
    name ≠ selfIgnoreName := by
  intro same
  rw [same] at ok
  exact absurd ok (by decide)

theorem badName_ne_tmp {name : String} (ok : badName name = none) (pid : Nat) :
    name ≠ selfIgnoreTmp pid := by
  intro same
  have last := selfIgnoreTmp_getLast pid
  rw [← same] at last
  rcases badName_ok ok with own | ⟨front, eq⟩
  · rw [own] at last
    exact absurd last (by decide)
  · have ends : ".gmap".toList = ['.', 'g', 'm', 'a'] ++ ['p'] := by decide
    rw [← eq, ends, ← List.append_assoc, List.dropLast_concat, List.getLast?_append] at last
    cases last

theorem checkEntries_ok {seen : List String} {total : Nat} {entries : List (String × Bytes)}
    (ok : checkEntries seen total entries = .ok ()) :
    (entries.map Prod.fst).Nodup ∧ ∀ e ∈ entries, badName e.1 = none ∧ e.1 ∉ seen := by
  induction entries generalizing seen total with
  | nil => exact ⟨List.nodup_nil, fun _ mem => nomatch mem⟩
  | cons e rest ih =>
    rw [checkEntries] at ok
    split at ok
    · cases ok
    · rename_i good
      split at ok
      · cases ok
      · rename_i fresh
        rw [List.contains_iff_mem] at fresh
        split at ok
        · cases ok
        · obtain ⟨once, each⟩ := ih ok
          constructor
          · rw [List.map_cons, List.nodup_cons]
            refine ⟨fun mem => ?_, once⟩
            obtain ⟨e', mem', same⟩ := List.mem_map.mp mem
            exact (each e' mem').2 (same ▸ List.mem_cons_self)
          · intro e' mem
            rcases List.mem_cons.mp mem with same | later
            · rw [same]
              exact ⟨good, fresh⟩
            · exact ⟨(each e' later).1,
                fun seen' => (each e' later).2 (List.mem_cons_of_mem _ seen')⟩

structure Admitted (entries : List (String × Bytes)) : Prop where
  once : (entries.map Prod.fst).Nodup
  plain : ∀ n ∈ entries.map Prod.fst, badName n = none
  manifest : manifestName ∈ entries.map Prod.fst

theorem checkOffer_admitted {site : Site} {entries : List (String × Bytes)} {manifest : Bytes}
    (ok : checkOffer site entries = .ok manifest) : Admitted entries := by
  unfold checkOffer at ok
  split at ok
  · cases ok
  · split at ok
    · cases ok
    · rename_i checked
      obtain ⟨once, each⟩ := checkEntries_ok checked
      refine ⟨once, fun n mem => ?_, ?_⟩
      · obtain ⟨e, there, eq⟩ := List.mem_map.mp mem
        exact eq ▸ (each e there).1
      · split at ok
        · cases ok
        · rename_i bytes held
          obtain ⟨front, back, eq, _⟩ := List.lookup_eq_some_iff.mp held
          refine List.mem_map.mpr ⟨(manifestName, bytes), ?_, rfl⟩
          rw [eq]
          exact List.mem_append_right _ List.mem_cons_self

end Names

section Staging
variable {f : Faults}

def offered (entries : List (String × Bytes)) (manifest : Bytes) : Disk := fun n =>
  (entries.lookup n).map fun bytes => if n = manifestName then manifest else bytes

theorem offered_isSome {entries : List (String × Bytes)} {manifest : Bytes} {n : String} :
    (offered entries manifest n).isSome ↔ n ∈ entries.map Prod.fst := by
  rw [offered, Option.isSome_map, List.lookup_isSome_iff, List.mem_map]
  exact exists_congr fun e => and_congr_right fun _ => beq_iff_eq.trans eq_comm

theorem writeStaged_ok {manifest : Bytes} {entries : List (String × Bytes)} {fs : Files}
    (once : (entries.map Prod.fst).Nodup) (works : ∀ e ∈ entries, f.write e.1 = none) :
    ∃ new, writeStaged f manifest fs entries = ({ fs with new := new }, none) ∧
      ∀ n, new n = (offered entries manifest n).or (fs.new n) := by
  induction entries generalizing fs with
  | nil => exact ⟨fs.new, rfl, fun _ => rfl⟩
  | cons e rest ih =>
    rw [List.map_cons, List.nodup_cons] at once
    obtain ⟨new, run, holds⟩ := @ih ⟨fs.live, Function.update fs.new e.1
      (some (if e.1 = manifestName then manifest else e.2)), fs.old⟩ once.2
      fun e' mem => works e' (List.mem_cons_of_mem e mem)
    refine ⟨new, ?_, fun n => ?_⟩
    · rw [writeStaged, works e List.mem_cons_self]
      exact run
    · rw [holds n, offered, offered, List.lookup_cons]
      by_cases same : n = e.1
      · have gone : offered rest manifest e.1 = none := by
          rw [← Option.not_isSome_iff_eq_none, offered_isSome]
          exact once.1
        rw [offered] at gone
        rw [same, gone, beq_self_eq_true]
        dsimp only
        rw [Function.update_self]
        rfl
      · dsimp only
        rw [Function.update_of_ne same, beq_false_of_ne same]

theorem writeStaged_fails {manifest : Bytes} {entries : List (String × Bytes)} {fs : Files}
    (fails : ¬∀ e ∈ entries, f.write e.1 = none) :
    ∃ new name, writeStaged f manifest fs entries = ({ fs with new := new }, some name) := by
  induction entries generalizing fs with
  | nil => exact absurd (fun _ mem => nomatch mem) fails
  | cons e rest ih =>
    rw [writeStaged]
    cases bad : f.write e.1 with
    | some left => exact ⟨_, _, rfl⟩
    | none =>
      rw [List.forall_mem_cons, not_and] at fails
      exact ih (fails bad)

end Staging

section Journal
variable (f : Faults)

def Faults.keeps (name : String) : Bool :=
  if name = manifestName then f.copyOld.isNone else !f.setAside name

def Faults.gets (d : Disk) (name : String) : Bool :=
  (!isFile f d name || f.keeps name) && !f.place name

/-- What a swap under way has done to the directory `d` with the files `staged`, and what it
needs to undo it. -/
structure Journal (d staged : Disk) (m : Moves) : Prop where
  placed_live : ∀ n ∈ m.placed, m.files.live n = staged n
  apart : ∀ n, n ∉ m.placed → n ∉ m.kept → m.files.live n = d n
  gone : ∀ n ∈ m.kept, n ∉ m.placed → n ≠ manifestName → m.files.live n = none
  kept_old : ∀ n ∈ m.kept, m.files.old n = d n ∧ (d n).isSome
  kept_iff : ∀ n ∈ m.placed, n ∈ m.kept ↔ isFile f d n
  once : m.kept.Nodup
  waiting : ∀ n, n ∉ m.placed → m.files.new n = staged n

variable {f} {d staged : Disk} {m : Moves} {name : String}

theorem isFile_isSome (is : isFile f d name = true) : (d name).isSome := by
  rw [isFile, Bool.and_eq_true] at is
  exact is.1

theorem Journal.start {fs : Files} (new : ∀ n, fs.new n = staged n) :
    Journal f fs.live staged ⟨fs, [], []⟩ where
  placed_live _ mem := nomatch mem
  apart _ _ _ := rfl
  gone _ mem := nomatch mem
  kept_old _ mem := nomatch mem
  kept_iff _ mem := nomatch mem
  once := List.nodup_nil
  waiting n _ := new n

theorem setAside_step (j : Journal f d staged m) (what : String) (unplaced : name ∉ m.placed)
    (unkept : name ∉ m.kept) (there : (d name).isSome) :
    if f.setAside name = false then
      ∃ m', setAside f what name m = .ok m' ∧ Journal f d staged m' ∧ m'.placed = m.placed ∧
        m'.kept = m.kept ++ [name]
    else setAside f what name m = .error (.io what name, m) := by
  obtain ⟨bytes, held⟩ := Option.isSome_iff_exists.mp there
  have live : m.files.live name = some bytes := (j.apart name unplaced unkept).trans held
  rw [setAside, moveTo_some live]
  split
  · rename_i works
    rw [works]
    refine ⟨_, rfl, ?_, rfl, rfl⟩
    constructor
    · intro n placed
      have apart : n ≠ name := fun same => unplaced (same ▸ placed)
      dsimp only
      rw [Function.update_of_ne apart, j.placed_live n placed]
    · intro n unplaced' unkept'
      rw [List.mem_append, not_or, List.mem_singleton] at unkept'
      dsimp only
      rw [Function.update_of_ne unkept'.2, j.apart n unplaced' unkept'.1]
    · intro n kept unplaced' shard
      dsimp only
      by_cases same : n = name
      · rw [same, Function.update_self]
      · rw [Function.update_of_ne same]
        rw [List.mem_append, List.mem_singleton] at kept
        exact j.gone n (kept.resolve_right same) unplaced' shard
    · intro n kept
      dsimp only
      by_cases same : n = name
      · rw [same, Function.update_self]
        exact ⟨held.symm, there⟩
      · rw [Function.update_of_ne same]
        rw [List.mem_append, List.mem_singleton] at kept
        exact j.kept_old n (kept.resolve_right same)
    · intro n placed
      have apart : n ≠ name := fun same => unplaced (same ▸ placed)
      rw [← j.kept_iff n placed, List.mem_append, List.mem_singleton]
      exact or_iff_left apart
    · exact j.once.append (List.nodup_singleton name) fun n kept same =>
        unkept (List.mem_singleton.mp same ▸ kept)
    · exact j.waiting
  · rename_i fails
    rw [Bool.not_eq_false] at fails
    rw [fails]
    rfl

theorem Journal.copied (j : Journal f d staged m) (unplaced : manifestName ∉ m.placed)
    (unkept : manifestName ∉ m.kept) (there : (d manifestName).isSome) :
    Journal f d staged { m with
      files := { m.files with
        old := Function.update m.files.old manifestName (m.files.live manifestName) }
      kept := m.kept ++ [manifestName] } where
  placed_live := j.placed_live
  apart n unplaced' unkept' := by
    rw [List.mem_append, not_or] at unkept'
    exact j.apart n unplaced' unkept'.1
  gone n kept unplaced' shard := by
    rw [List.mem_append, List.mem_singleton] at kept
    exact j.gone n (kept.resolve_right shard) unplaced' shard
  kept_old n kept := by
    dsimp only
    by_cases same : n = manifestName
    · rw [same, Function.update_self]
      exact ⟨j.apart _ unplaced unkept, there⟩
    · rw [Function.update_of_ne same]
      rw [List.mem_append, List.mem_singleton] at kept
      exact j.kept_old n (kept.resolve_right same)
  kept_iff n placed := by
    have apart : n ≠ manifestName := fun same => unplaced (same ▸ placed)
    rw [← j.kept_iff n placed, List.mem_append, List.mem_singleton]
    exact or_iff_left apart
  once := j.once.append (List.nodup_singleton _) fun _ kept same =>
    unkept (List.mem_singleton.mp same ▸ kept)
  waiting := j.waiting

theorem Journal.torn (j : Journal f d staged m) (unkept : name ∉ m.kept) (left : Option Bytes) :
    Journal f d staged { m with
      files := { m.files with old := Install.torn m.files.old name left } } where
  placed_live := j.placed_live
  apart := j.apart
  gone := j.gone
  kept_old n kept := by
    have apart : n ≠ name := fun same => unkept (same ▸ kept)
    cases left with
    | none => exact j.kept_old n kept
    | some bytes =>
      dsimp only [Install.torn]
      rw [Function.update_of_ne apart]
      exact j.kept_old n kept
  kept_iff := j.kept_iff
  once := j.once
  waiting := j.waiting

theorem keep_step (j : Journal f d staged m) (unplaced : name ∉ m.placed)
    (unkept : name ∉ m.kept) :
    if !isFile f d name || f.keeps name then
      ∃ m', keep f m name = .ok m' ∧ Journal f d staged m' ∧ m'.placed = m.placed ∧
        m'.kept = if isFile f d name then m.kept ++ [name] else m.kept
    else ∃ r m', keep f m name = .error (r, m') ∧ Journal f d staged m' ∧
      m'.placed = m.placed := by
  have seen : isFile f m.files.live name = isFile f d name := by
    rw [isFile, isFile, j.apart name unplaced unkept]
  rw [keep, seen]
  cases is : isFile f d name with
  | false => exact ⟨m, rfl, j, rfl, rfl⟩
  | true =>
    have there := isFile_isSome is
    rw [Faults.keeps]
    by_cases own : name = manifestName
    · subst own
      rw [if_pos rfl, if_pos rfl, if_pos rfl]
      cases copy : f.copyOld with
      | none => exact ⟨_, rfl, j.copied unplaced unkept there, rfl, rfl⟩
      | some left => exact ⟨_, _, rfl, j.torn unkept left, rfl⟩
    · have step := setAside_step j "keep" unplaced unkept there
      rw [if_neg own, if_pos rfl, if_neg own]
      cases fails : f.setAside name with
      | false =>
        rw [fails] at step
        exact step
      | true =>
        rw [fails] at step
        exact ⟨_, _, step, j, rfl⟩

theorem placeStaged_step (j : Journal f d staged m) (unplaced : name ∉ m.placed)
    (has : (staged name).isSome) (kept : name ∈ m.kept ↔ isFile f d name) :
    if f.place name = false then
      ∃ m', placeStaged f name m = .ok m' ∧ Journal f d staged m' ∧
        m'.placed = m.placed ++ [name] ∧ m'.kept = m.kept
    else placeStaged f name m = .error (.io "install" name, m) := by
  obtain ⟨bytes, held⟩ := Option.isSome_iff_exists.mp has
  rw [placeStaged, moveTo_some ((j.waiting name unplaced).trans held)]
  split
  · rename_i works
    rw [works]
    refine ⟨_, rfl, ?_, rfl, rfl⟩
    constructor
    · intro n placed
      dsimp only
      by_cases same : n = name
      · rw [same, Function.update_self, held]
      · rw [Function.update_of_ne same]
        rw [List.mem_append, List.mem_singleton] at placed
        exact j.placed_live n (placed.resolve_right same)
    · intro n unplaced' unkept
      rw [List.mem_append, not_or, List.mem_singleton] at unplaced'
      dsimp only
      rw [Function.update_of_ne unplaced'.2, j.apart n unplaced'.1 unkept]
    · intro n kept' unplaced' shard
      rw [List.mem_append, not_or, List.mem_singleton] at unplaced'
      dsimp only
      rw [Function.update_of_ne unplaced'.2, j.gone n kept' unplaced'.1 shard]
    · exact j.kept_old
    · intro n placed
      rw [List.mem_append, List.mem_singleton] at placed
      rcases placed with before | same
      · exact j.kept_iff n before
      · rw [same]
        exact kept
    · exact j.once
    · intro n unplaced'
      rw [List.mem_append, not_or, List.mem_singleton] at unplaced'
      dsimp only
      rw [Function.update_of_ne unplaced'.2, j.waiting n unplaced'.1]
  · rename_i fails
    rw [Bool.not_eq_false] at fails
    rw [fails]
    rfl

/-- One name of the order: in, with what it replaced kept, or a failure the journal covers. -/
theorem install_step (j : Journal f d staged m) (unplaced : name ∉ m.placed)
    (unkept : name ∉ m.kept) (has : (staged name).isSome) :
    if f.gets d name then
      ∃ m', install f m name = .ok m' ∧ Journal f d staged m' ∧ m'.placed = m.placed ++ [name] ∧
        ∀ n ∈ m'.kept, n ∈ m.kept ∨ n = name
    else ∃ r m', install f m name = .error (r, m') ∧ Journal f d staged m' ∧
      m'.placed = m.placed := by
  have kept := keep_step j unplaced unkept
  rw [install, Faults.gets]
  cases aside : !isFile f d name || f.keeps name with
  | false =>
    rw [aside] at kept
    obtain ⟨r, m', eq, j', same⟩ := kept
    rw [eq]
    exact ⟨r, m', rfl, j', same⟩
  | true =>
    rw [aside] at kept
    obtain ⟨m', eq, j', same, list⟩ := kept
    have iff : name ∈ m'.kept ↔ isFile f d name := by
      rw [list]
      cases isFile f d name with
      | false => exact iff_of_false unkept Bool.false_ne_true
      | true => exact iff_of_true (List.mem_append_right _ List.mem_cons_self) rfl
    have step := placeStaged_step j' (same ▸ unplaced) has iff
    rw [eq, Bool.true_and]
    cases fails : f.place name with
    | true =>
      rw [fails] at step
      exact ⟨_, m', step, j', same⟩
    | false =>
      rw [fails] at step
      obtain ⟨m'', eq', j'', list', kept'⟩ := step
      refine ⟨m'', eq', j'', by rw [list', same], fun n mem => ?_⟩
      rw [kept', list] at mem
      split at mem
      · rw [List.mem_append, List.mem_singleton] at mem
        exact mem
      · exact Or.inl mem

theorem install_run {order : List String} (j : Journal f d staged m) (once : order.Nodup)
    (fresh : ∀ n ∈ order, n ∉ m.placed ∧ n ∉ m.kept) (has : ∀ n ∈ order, (staged n).isSome) :
    if order.all (f.gets d) then
      ∃ m', order.foldlM (install f) m = .ok m' ∧ Journal f d staged m' ∧
        m'.placed = m.placed ++ order ∧ ∀ n ∈ m'.kept, n ∈ m.kept ∨ n ∈ order
    else ∃ r m', order.foldlM (install f) m = .error (r, m') ∧ Journal f d staged m' ∧
      m'.placed = m.placed ++ order.takeWhile (f.gets d) := by
  induction order generalizing m with
  | nil => exact ⟨m, rfl, j, (List.append_nil _).symm, fun _ mem => Or.inl mem⟩
  | cons name rest ih =>
    obtain ⟨apart, once⟩ := List.nodup_cons.mp once
    have own := fresh name List.mem_cons_self
    have step := install_step j own.1 own.2 (has name List.mem_cons_self)
    rw [List.foldlM_cons, List.all_cons, List.takeWhile_cons]
    cases gets : f.gets d name with
    | false =>
      rw [gets] at step
      obtain ⟨r, m', eq, j', same⟩ := step
      rw [eq]
      exact ⟨r, m', rfl, j', by rw [same]; exact (List.append_nil _).symm⟩
    | true =>
      rw [gets] at step
      obtain ⟨m', eq, j', placed, kept⟩ := step
      have fresh' : ∀ n ∈ rest, n ∉ m'.placed ∧ n ∉ m'.kept := by
        intro n mem
        have before := fresh n (List.mem_cons_of_mem name mem)
        have ne : n ≠ name := fun same => apart (same ▸ mem)
        rw [placed, List.mem_append, List.mem_singleton, not_or]
        exact ⟨⟨before.1, ne⟩, fun mem' => (kept n mem').elim before.2 ne⟩
      have run := ih j' once fresh' fun n mem => has n (List.mem_cons_of_mem name mem)
      rw [eq, Bool.true_and]
      cases all : rest.all (f.gets d) with
      | true =>
        rw [all] at run
        obtain ⟨m'', run, j'', placed', kept'⟩ := run
        refine ⟨m'', run, j'', ?_, fun n mem => ?_⟩
        · rw [placed', placed, List.append_assoc, List.singleton_append]
        · rcases kept' n mem with before | later
          · rcases kept n before with old | same
            · exact Or.inl old
            · exact Or.inr (same ▸ List.mem_cons_self)
          · exact Or.inr (List.mem_cons_of_mem name later)
      | false =>
        rw [all] at run
        obtain ⟨r, m'', run, j'', placed'⟩ := run
        refine ⟨r, m'', run, j'', ?_⟩
        rw [placed', placed, List.append_assoc, List.singleton_append]
        rfl

/-- The orphans are all set aside, or a failure leaves the journal as good as before. -/
theorem orphans_run {orphans : List String} (j : Journal f d staged m) (once : orphans.Nodup)
    (fresh : ∀ n ∈ orphans, n ∉ m.placed ∧ n ∉ m.kept) (has : ∀ n ∈ orphans, (d n).isSome) :
    if orphans.all fun n => !f.setAside n then
      ∃ m', orphans.foldlM (fun m name => setAside f "remove" name m) m = .ok m' ∧
        Journal f d staged m' ∧ m'.placed = m.placed ∧ m'.kept = m.kept ++ orphans
    else ∃ r m', orphans.foldlM (fun m name => setAside f "remove" name m) m = .error (r, m') ∧
      Journal f d staged m' ∧ m'.placed = m.placed := by
  induction orphans generalizing m with
  | nil => exact ⟨m, rfl, j, rfl, (List.append_nil _).symm⟩
  | cons name rest ih =>
    obtain ⟨apart, once⟩ := List.nodup_cons.mp once
    have own := fresh name List.mem_cons_self
    have step := setAside_step j "remove" own.1 own.2 (has name List.mem_cons_self)
    rw [List.foldlM_cons, List.all_cons]
    cases fails : f.setAside name with
    | true =>
      rw [fails] at step
      rw [show setAside f "remove" name m = .error (.io "remove" name, m) from step]
      exact ⟨_, m, rfl, j, rfl⟩
    | false =>
      rw [fails] at step
      obtain ⟨m', eq, j', placed, kept⟩ := step
      have fresh' : ∀ n ∈ rest, n ∉ m'.placed ∧ n ∉ m'.kept := by
        intro n mem
        have before := fresh n (List.mem_cons_of_mem name mem)
        have ne : n ≠ name := fun same => apart (same ▸ mem)
        rw [placed, kept, List.mem_append, List.mem_singleton, not_or]
        exact ⟨before.1, before.2, ne⟩
      have run := ih j' once fresh' fun n mem => has n (List.mem_cons_of_mem name mem)
      rw [eq, Bool.not_false, Bool.true_and]
      cases all : rest.all fun n => !f.setAside n with
      | true =>
        rw [all] at run
        obtain ⟨m'', run, j'', placed', kept'⟩ := run
        refine ⟨m'', run, j'', placed'.trans placed, ?_⟩
        rw [kept', kept, List.append_assoc, List.singleton_append]
      | false =>
        rw [all] at run
        obtain ⟨r, m'', run, j'', placed'⟩ := run
        exact ⟨r, m'', run, j'', placed'.trans placed⟩

end Journal

section SelfIgnore
variable (f : Faults) (pid : Nat)

def IgnoreName (n : String) : Prop := n = selfIgnoreTmp pid ∨ n = selfIgnoreName

instance (n : String) : Decidable (IgnoreName pid n) := inferInstanceAs (Decidable (_ ∨ _))

theorem torn_apply (d : Disk) (name : String) (left : Option Bytes) (n : String) :
    torn d name left n = if n = name then left.or (d n) else d n := by
  cases left with
  | none => rw [Option.none_or, ite_self]; rfl
  | some bytes => rw [torn, Function.update_apply, Option.some_or]

theorem writeSelfIgnore_local {d live : Disk} (same : ∀ n, IgnoreName pid n → live n = d n) :
    (writeSelfIgnore f pid live).2 = (writeSelfIgnore f pid d).2 ∧
      ∀ n, (writeSelfIgnore f pid live).1 n =
        if IgnoreName pid n then (writeSelfIgnore f pid d).1 n else live n := by
  have own := same selfIgnoreName (Or.inr rfl)
  unfold writeSelfIgnore
  rw [own]
  split
  · refine ⟨rfl, fun n => ?_⟩
    split
    · rename_i touched
      exact same n touched
    · rfl
  · cases f.writeIgnore with
    | some left =>
      refine ⟨rfl, fun n => ?_⟩
      dsimp only
      rw [torn_apply, torn_apply]
      by_cases touched : IgnoreName pid n
      · rw [if_pos touched, same n touched]
      · rw [if_neg touched, if_neg fun eq => touched (Or.inl eq)]
    | none =>
      dsimp only
      split
      · refine ⟨rfl, fun n => ?_⟩
        dsimp only
        rw [Function.update_apply, Function.update_apply]
        by_cases touched : IgnoreName pid n
        · rw [if_pos touched, same n touched]
        · rw [if_neg touched, if_neg fun eq => touched (Or.inl eq)]
      · refine ⟨rfl, fun n => ?_⟩
        dsimp only
        simp only [Function.update_apply]
        by_cases touched : IgnoreName pid n
        · rw [if_pos touched, same n touched]
        · rw [if_neg touched, if_neg fun eq => touched (Or.inr eq),
            if_neg fun eq => touched (Or.inl eq), if_neg fun eq => touched (Or.inl eq)]

variable {f pid} {d staged : Disk} {m : Moves}

/-- Written over a swap under way, the self-ignore reads as if it had been there before. -/
theorem Journal.ignored (j : Journal f d staged m)
    (clear : ∀ n, IgnoreName pid n → n ∉ m.placed ∧ n ∉ m.kept) :
    Journal f (writeSelfIgnore f pid d).1 staged { m with
      files := { m.files with live := (writeSelfIgnore f pid m.files.live).1 } } := by
  have same : ∀ n, IgnoreName pid n → m.files.live n = d n :=
    fun n touched => j.apart n (clear n touched).1 (clear n touched).2
  have now := (writeSelfIgnore_local f pid same).2
  have base := (writeSelfIgnore_local f pid (d := d) (fun _ _ => rfl)).2
  have placedApart : ∀ n ∈ m.placed, ¬IgnoreName pid n := fun n mem touched =>
    (clear n touched).1 mem
  have keptApart : ∀ n ∈ m.kept, ¬IgnoreName pid n := fun n mem touched => (clear n touched).2 mem
  constructor
  · intro n placed
    dsimp only
    rw [now, if_neg (placedApart n placed), j.placed_live n placed]
  · intro n unplaced unkept
    dsimp only
    rw [now, base n]
    split
    · rfl
    · exact j.apart n unplaced unkept
  · intro n kept unplaced shard
    dsimp only
    rw [now, if_neg (keptApart n kept), j.gone n kept unplaced shard]
  · intro n kept
    rw [base n, if_neg (keptApart n kept)]
    exact j.kept_old n kept
  · intro n placed
    rw [j.kept_iff n placed, isFile, isFile, base n, if_neg (placedApart n placed)]
  · exact j.once
  · exact j.waiting

end SelfIgnore

section RollBack

structure Faults.RollsBack (f : Faults) : Prop where
  remove : ∀ n, f.remove n = false
  restore : ∀ n, f.restore n = false
  dropStage : f.dropStage = none

variable {f : Faults} {d staged : Disk} {m : Moves}

theorem removePlaced_ok (works : ∀ n, f.remove n = false) (d : Disk) (placed : List String) :
    removePlaced f d placed = (removeAll d placed, []) := by
  rw [removePlaced]
  induction placed generalizing d with
  | nil => rfl
  | cons name rest ih =>
    rw [List.foldl_cons, works name]
    exact ih (Function.update d name none)

theorem restoreKept_ok (works : ∀ n, f.restore n = false) {old live : Disk} {kept : List String}
    (once : kept.Nodup) (there : ∀ n ∈ kept, (old n).isSome) :
    restoreKept f old live kept = (moveAll (old, live) kept, []) := by
  rw [restoreKept]
  induction kept generalizing old live with
  | nil => rfl
  | cons name rest ih =>
    obtain ⟨fresh, once⟩ := List.nodup_cons.mp once
    obtain ⟨bytes, held⟩ := Option.isSome_iff_exists.mp (there name List.mem_cons_self)
    have rest' : ∀ n ∈ rest, (Function.update old name none n).isSome := by
      intro n mem
      have ne : n ≠ name := fun same => fresh (same ▸ mem)
      rw [Function.update_of_ne ne]
      exact there n (List.mem_cons_of_mem name mem)
    have first : moveTo old live name = some _ := moveTo_some held
    rw [List.foldl_cons, works name, if_neg Bool.false_ne_true]
    dsimp only
    rw [first, show moveAll (old, live) (name :: rest) = moveAll _ rest from
      congrArg (fun q => moveAll (Option.getD q (old, live)) rest) first]
    exact ih once rest'

/-- The directory a roll-back leaves: a file that was replaced unseen is lost. -/
def restored (f : Faults) (placed : List String) (d : Disk) : Disk := fun n =>
  if n ∈ placed ∧ f.query n = true then none else d n

theorem Journal.rollBack (j : Journal f d staged m) (works : f.RollsBack) :
    m.rollBack f = (⟨restored f m.placed d, fun _ => none, fun _ => none⟩, .ok ()) := by
  have there : ∀ n ∈ m.kept, (m.files.old n).isSome := fun n kept => by
    rw [(j.kept_old n kept).1]
    exact (j.kept_old n kept).2
  have back : (moveAll (m.files.old, removeAll m.files.live m.placed) m.kept).2 =
      restored f m.placed d := by
    funext n
    rw [moveAll_snd j.once there, removeAll_apply, restored]
    by_cases kept : n ∈ m.kept
    · have seen : ¬(n ∈ m.placed ∧ f.query n = true) := by
        intro lost
        have is := (j.kept_iff n lost.1).mp kept
        rw [isFile, lost.2, Bool.not_true, Bool.and_false] at is
        cases is
      rw [if_pos kept, if_neg seen, (j.kept_old n kept).1]
    · rw [if_neg kept]
      by_cases placed : n ∈ m.placed
      · rw [if_pos placed]
        split
        · rfl
        · rename_i seen
          have unseen := mt (j.kept_iff n placed).mpr kept
          rw [not_and, Bool.not_eq_true] at seen
          rw [isFile, seen placed, Bool.not_false, Bool.and_true, Option.not_isSome_iff_eq_none]
            at unseen
          exact unseen.symm
      · rw [if_neg placed, if_neg fun lost => placed lost.1, j.apart n placed kept]
  rw [Moves.rollBack, removePlaced_ok works.remove, restoreKept_ok works.restore j.once there]
  dsimp only
  rw [back, works.dropStage]
  rfl

theorem restored_eq_iff {placed : List String} :
    restored f placed d = d ↔ ∀ n ∈ placed, f.query n = true → d n = none := by
  constructor
  · intro same n mem unseen
    have at_ := congrFun same n
    rw [restored, if_pos ⟨mem, unseen⟩] at at_
    exact at_.symm
  · intro safe
    funext n
    rw [restored]
    split
    · rename_i lost
      exact (safe n lost.1 lost.2).symm
    · rfl

end RollBack

end Glia.Store.Install
