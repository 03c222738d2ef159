import Glia.Store.LayoutRollback
import Mathlib.Data.List.Dedup
import Mathlib.Data.List.TakeWhile

/-! An install swaps a layout in full or leaves the directory as it was, exactly when no failure
follows its writing of the self-ignore and no file it replaces goes unseen. -/
namespace Glia.Store.Install

section Ignore
variable (f : Faults) (pid : Nat) (d : Disk)

def IgnoreWritten : Prop :=
  (d selfIgnoreName = some selfIgnore ∧ f.readIgnore = false) ∨
    (f.writeIgnore = none ∧ f.placeIgnore = false)

inductive IgnoreUntouched : Prop where
  | present (there : d selfIgnoreName = some selfIgnore) (read : f.readIgnore = false)
  | unopened (fails : f.writeIgnore = some none)
  | sameTmp (bytes : Bytes) (fails : f.writeIgnore = some (some bytes))
      (there : d (selfIgnoreTmp pid) = some bytes)
  | unmoved (writes : f.writeIgnore = none) (fails : f.placeIgnore = true)
      (there : d (selfIgnoreTmp pid) = some selfIgnore)
  | again (writes : f.writeIgnore = none) (places : f.placeIgnore = false)
      (there : d selfIgnoreName = some selfIgnore) (clear : d (selfIgnoreTmp pid) = none)

variable {f pid d}

theorem writeSelfIgnore_ok : (writeSelfIgnore f pid d).2 = true ↔ IgnoreWritten f d := by
  unfold writeSelfIgnore IgnoreWritten
  split
  · rename_i exact_
    exact iff_of_true rfl (Or.inl exact_)
  · rename_i apart
    rw [or_iff_right apart]
    cases f.writeIgnore with
    | some left => exact iff_of_false Bool.false_ne_true fun h => nomatch h.1
    | none =>
      dsimp only
      cases f.placeIgnore with
      | true => exact iff_of_false Bool.false_ne_true fun h => nomatch h.2
      | false => exact iff_of_true rfl ⟨rfl, rfl⟩

theorem update_eq_self_iff {n : String} {v : Option Bytes} :
    Function.update d n v = d ↔ d n = v := by
  rw [Function.update_eq_self_iff, eq_comm]

theorem writeSelfIgnore_same : (writeSelfIgnore f pid d).1 = d ↔ IgnoreUntouched f pid d := by
  unfold writeSelfIgnore
  split
  · rename_i there
    exact iff_of_true rfl (.present there.1 there.2)
  · rename_i apart
    cases write : f.writeIgnore with
    | some left =>
      cases left with
      | none => exact iff_of_true rfl (.unopened write)
      | some bytes =>
        refine update_eq_self_iff.trans ⟨fun there => .sameTmp bytes write there, fun h => ?_⟩
        cases h with
        | present there read => exact absurd ⟨there, read⟩ apart
        | unopened fails => rw [write] at fails; cases fails
        | sameTmp bytes' fails there =>
          rw [write] at fails
          cases fails
          exact there
        | unmoved writes => rw [write] at writes; cases writes
        | again writes => rw [write] at writes; cases writes
    | none =>
      dsimp only
      cases place : f.placeIgnore with
      | true =>
        refine update_eq_self_iff.trans ⟨fun there => .unmoved write place there, fun h => ?_⟩
        cases h with
        | present there read => exact absurd ⟨there, read⟩ apart
        | unopened fails => rw [write] at fails; cases fails
        | sameTmp bytes fails there => rw [write] at fails; cases fails
        | unmoved writes fails there => exact there
        | again writes places => rw [place] at places; cases places
      | false =>
        rw [if_neg Bool.false_ne_true, Function.update_idem]
        constructor
        · intro same
          have ne := selfIgnoreTmp_ne pid
          have own := congrFun same selfIgnoreName
          have tmp := congrFun same (selfIgnoreTmp pid)
          dsimp only at own tmp
          rw [Function.update_self] at own
          rw [Function.update_of_ne ne, Function.update_self] at tmp
          exact .again write place own.symm tmp.symm
        · intro h
          cases h with
          | present there read => exact absurd ⟨there, read⟩ apart
          | unopened fails => rw [write] at fails; cases fails
          | sameTmp bytes fails there => rw [write] at fails; cases fails
          | unmoved writes fails there => rw [place] at fails; cases fails
          | again writes places there clear =>
            dsimp only
            rw [update_eq_self_iff.mpr clear, update_eq_self_iff.mpr there]

end Ignore

section Outcome
variable (f : Faults) (site : Site) (entries : List (String × Bytes)) (manifest : Bytes)

def newLayout (d : Disk) : Disk := fun n =>
  match offered entries manifest n with
  | some bytes => some bytes
  | none =>
    if n ∈ oldNamedFiles {} site d then none
    else if n = selfIgnoreName then some selfIgnore else d n

/-- The new layout, and every other file as it was; the self-ignore's own temporary file may have
gone. -/
structure InFull (before after : Files) : Prop where
  files : ∀ n, n ≠ selfIgnoreTmp site.pid →
    after.live n = newLayout site entries manifest before.live n
  tmp : after.live (selfIgnoreTmp site.pid) = none ∨
    after.live (selfIgnoreTmp site.pid) = before.live (selfIgnoreTmp site.pid)

structure AsItWas (before after : Files) : Prop where
  live : after.live = before.live
  new : ∀ n, after.new n = none ∨ after.new n = before.new n
  old : ∀ n, after.old n = none ∨ after.old n = before.old n

def InFullOrNotAtAll (localKey : Except String LayoutKey) (key : String) (fs : Files) : Prop :=
  match installLayout f site localKey key entries fs with
  | (after, .ok (.installed _ _ _)) =>
    ∀ manifest, checkOffer site entries = .ok manifest → InFull site entries manifest fs after
  | (after, _) => f.RollsBack → AsItWas fs after

structure Faults.Stages : Prop where
  makeDir : f.makeDir = false
  makeStage : f.makeStage = false
  write : ∀ e ∈ entries, f.write e.1 = none

def orderOf : List String := shardOrder entries ++ [manifestName]

def orphansOf (d : Disk) : List String :=
  (oldNamedFiles f site d).filter fun n => !(shardOrder entries).contains n && isFile f d n

def Faults.Moves (d : Disk) : Prop :=
  (orderOf entries).all (f.gets d) = true ∧
    ((orphansOf f site entries d).all fun n => !f.setAside n) = true

/-- The directory once every move is made and the self-ignore written. -/
def swapped (d : Disk) : Disk := fun n =>
  match offered entries manifest n with
  | some bytes => some bytes
  | none =>
    if n ∈ orphansOf f site entries d then none else (writeSelfIgnore f site.pid d).1 n

structure Faults.Lands (d : Disk) : Prop where
  ignore : IgnoreWritten f d
  date : f.date = false
  verify : site.verify (swapped f site entries manifest d) = none

def Faults.SeesAll (d : Disk) (names : List String) : Prop :=
  ∀ n ∈ names, f.query n = true → d n = none

/-- When an install of a good offer keeps to all or nothing. -/
structure Safe (d : Disk) : Prop where
  /-- Where everything works, no file the old manifest names goes unseen. -/
  lands : f.Stages entries → f.Moves site entries d → f.Lands site entries manifest d →
    ∀ n ∈ oldNamedFiles {} site d, n ∉ orderOf entries → (d n).isSome →
      n ∈ orphansOf f site entries d
  /-- Where something after the moves fails, the self-ignore was left alone. -/
  late : f.Stages entries → f.Moves site entries d → ¬f.Lands site entries manifest d →
    f.RollsBack → IgnoreUntouched f site.pid d ∧ f.SeesAll d (orderOf entries)
  /-- Where a move fails, no file replaced before it went unseen. -/
  early : f.Stages entries → ¬f.Moves site entries d → f.RollsBack →
    f.SeesAll d ((orderOf entries).takeWhile (f.gets d))

end Outcome

section Names
variable {f : Faults} {site : Site} {entries : List (String × Bytes)} {d : Disk} {n : String}

theorem mem_shardOrder : n ∈ shardOrder entries ↔ n ∈ entries.map Prod.fst ∧ n ≠ manifestName := by
  rw [shardOrder, List.mem_insertionSort, List.mem_filter, bne_iff_ne]

theorem mem_orderOf (good : Admitted entries) :
    n ∈ orderOf entries ↔ n ∈ entries.map Prod.fst := by
  rw [orderOf, List.mem_append, List.mem_singleton, mem_shardOrder]
  constructor
  · intro mem
    rcases mem with shard | own
    · exact shard.1
    · exact own ▸ good.manifest
  · intro mem
    by_cases own : n = manifestName
    · exact Or.inr own
    · exact Or.inl ⟨mem, own⟩

theorem orderOf_nodup (good : Admitted entries) : (orderOf entries).Nodup := by
  refine List.Nodup.append ?_ (List.nodup_singleton _) fun n shard own => ?_
  · exact (List.perm_insertionSort _ _).nodup_iff.mpr (good.once.filter _)
  · exact (mem_shardOrder.mp shard).2 (List.mem_singleton.mp own)

theorem oldNamedFiles_plain (mem : n ∈ oldNamedFiles f site d) :
    n ≠ manifestName ∧ badName n = none := by
  unfold oldNamedFiles at mem
  split at mem
  · cases mem
  · split at mem
    · cases mem
    · rw [List.mem_dedup, List.mem_insertionSort, List.mem_filter, Bool.and_eq_true,
        bne_iff_ne, Option.isNone_iff_eq_none] at mem
      exact mem.2

theorem oldNamedFiles_nodup : (oldNamedFiles f site d).Nodup := by
  unfold oldNamedFiles
  split
  · exact List.nodup_nil
  · split
    · exact List.nodup_nil
    · exact List.nodup_dedup _

theorem oldNamedFiles_mem (mem : n ∈ oldNamedFiles f site d) : n ∈ oldNamedFiles {} site d := by
  unfold oldNamedFiles at mem ⊢
  split at mem
  · cases mem
  · exact mem

theorem mem_orphansOf : n ∈ orphansOf f site entries d ↔
    n ∈ oldNamedFiles f site d ∧ n ∉ shardOrder entries ∧ isFile f d n = true := by
  rw [orphansOf, List.mem_filter, Bool.and_eq_true, Bool.not_eq_true', ← Bool.not_eq_true,
    List.contains_iff_mem]

theorem orphansOf_apart (mem : n ∈ orphansOf f site entries d) : n ∉ orderOf entries := by
  rw [mem_orphansOf] at mem
  rw [orderOf, List.mem_append, not_or, List.mem_singleton]
  exact ⟨mem.2.1, (oldNamedFiles_plain mem.1).1⟩

theorem orphansOf_nodup : (orphansOf f site entries d).Nodup := oldNamedFiles_nodup.filter _

theorem badName_not_ignore (ok : badName n = none) (pid : Nat) : ¬IgnoreName pid n := by
  intro touched
  rcases touched with tmp | own
  · exact badName_ne_tmp ok pid tmp
  · exact badName_ne_selfIgnore ok own

end Names

section Stage
variable {f : Faults} {site : Site} {entries : List (String × Bytes)} {manifest : Bytes}
  {fs : Files}

theorem removeStage_asItWas (fault : Option Survivors) (fs : Files) :
    AsItWas fs (removeStage fault fs) := by
  cases fault with
  | none => exact ⟨rfl, fun _ => Or.inl rfl, fun _ => Or.inl rfl⟩
  | some left =>
    refine ⟨rfl, fun n => ?_, fun n => ?_⟩
    · dsimp only [removeStage]
      split
      · exact Or.inr rfl
      · exact Or.inl rfl
    · dsimp only [removeStage]
      split
      · exact Or.inr rfl
      · exact Or.inl rfl

theorem stage_ok (stages : f.Stages entries) (good : Admitted entries) :
    ∃ new old, Swap.stage f site fs entries manifest =
        (⟨fs.live, new, old⟩, .ok ⟨orderOf entries, orphansOf f site entries fs.live⟩) ∧
      ∀ n, (offered entries manifest n).isSome → new n = offered entries manifest n := by
  obtain ⟨new, run, holds⟩ := @writeStaged_ok f manifest entries (removeStage f.clearStage fs)
    good.once stages.write
  have live : (removeStage f.clearStage fs).live = fs.live :=
    (removeStage_asItWas f.clearStage fs).live
  refine ⟨new, (removeStage f.clearStage fs).old, ?_, fun n there => ?_⟩
  · rw [Swap.stage, stages.makeDir, if_neg Bool.false_ne_true]
    dsimp only
    rw [stages.makeStage, if_neg Bool.false_ne_true, run]
    dsimp only
    rw [live]
    rfl
  · rw [holds n, Option.or_of_isSome there]

theorem stage_fails (fails : ¬f.Stages entries) :
    ∃ after r, Swap.stage f site fs entries manifest = (after, .error r) ∧
      (f.dropStage = none → AsItWas fs after) := by
  rw [Swap.stage]
  cases dir : f.makeDir with
  | true => exact ⟨fs, _, rfl, fun _ => ⟨rfl, fun _ => Or.inr rfl, fun _ => Or.inr rfl⟩⟩
  | false =>
    rw [if_neg Bool.false_ne_true]
    dsimp only
    cases sub : f.makeStage with
    | true => exact ⟨_, _, rfl, fun _ => removeStage_asItWas f.clearStage fs⟩
    | false =>
      rw [if_neg Bool.false_ne_true]
      have torn : ¬∀ e ∈ entries, f.write e.1 = none := fun works => fails ⟨dir, sub, works⟩
      obtain ⟨new, name, run⟩ :=
        @writeStaged_fails f manifest entries (removeStage f.clearStage fs) torn
      rw [run]
      refine ⟨_, _, rfl, fun drops => ?_⟩
      rw [drops]
      exact ⟨(removeStage_asItWas f.clearStage fs).live, fun _ => Or.inl rfl, fun _ => Or.inl rfl⟩

end Stage

section Apply
variable {f : Faults} {site : Site} {entries : List (String × Bytes)} {manifest : Bytes}
  {d staged : Disk} {m : Moves}

/-- The swap's moves, before the self-ignore. -/
def moves (f : Faults) (order orphans : List String) (m : Moves) : Step :=
  (order.foldlM (install f) m).bind fun m =>
    orphans.foldlM (fun m name => setAside f "remove" name m) m

theorem apply_eq (swap : Swap) (pid : Nat) :
    swap.apply f pid m = (moves f swap.order swap.orphans m).bind (ignoreAndDate f pid) := by
  rw [moves, Swap.apply]
  cases swap.order.foldlM (install f) m <;> rfl

structure Moved (f : Faults) (site : Site) (entries : List (String × Bytes)) (d staged : Disk)
    (m : Moves) : Prop where
  journal : Journal f d staged m
  placed : m.placed = orderOf entries
  within : ∀ n ∈ m.kept, n ∈ orderOf entries ∨ n ∈ orphansOf f site entries d
  orphans : ∀ n ∈ orphansOf f site entries d, n ∈ m.kept

theorem orderOf_not_ignore (good : Admitted entries) (pid : Nat) {n : String}
    (mem : n ∈ orderOf entries) : ¬IgnoreName pid n :=
  badName_not_ignore (good.plain n ((mem_orderOf good).mp mem)) pid

theorem orphansOf_not_ignore (pid : Nat) {n : String} (mem : n ∈ orphansOf f site entries d) :
    ¬IgnoreName pid n :=
  badName_not_ignore (oldNamedFiles_plain (mem_orphansOf.mp mem).1).2 pid

theorem Moved.clear (moved : Moved f site entries d staged m) (good : Admitted entries) (pid : Nat)
    {n : String} (touched : IgnoreName pid n) : n ∉ m.placed ∧ n ∉ m.kept := by
  constructor
  · intro mem
    exact orderOf_not_ignore good pid (moved.placed ▸ mem) touched
  · intro mem
    rcases moved.within n mem with inside | orphan
    · exact orderOf_not_ignore good pid inside touched
    · exact orphansOf_not_ignore pid orphan touched

theorem Moved.same (moved : Moved f site entries d staged m) (good : Admitted entries) (pid : Nat)
    (n : String) (touched : IgnoreName pid n) : m.files.live n = d n :=
  moved.journal.apart n (moved.clear good pid touched).1 (moved.clear good pid touched).2

/-- The moves all work and touch the order and the orphans alone, or stop with the names before the
first failure placed. -/
theorem moves_run (good : Admitted entries) (j : Journal f d staged m) (none_ : m.placed = [])
    (kept : m.kept = []) (has : ∀ n ∈ orderOf entries, (staged n).isSome) :
    (f.Moves site entries d →
      ∃ m', moves f (orderOf entries) (orphansOf f site entries d) m = .ok m' ∧
        Moved f site entries d staged m') ∧
    (¬f.Moves site entries d →
      ∃ r m', moves f (orderOf entries) (orphansOf f site entries d) m = .error (r, m') ∧
        Journal f d staged m' ∧ m'.placed = (orderOf entries).takeWhile (f.gets d)) := by
  have run := install_run j (orderOf_nodup good)
    (fun n _ => ⟨by rw [none_]; exact List.not_mem_nil, by rw [kept]; exact List.not_mem_nil⟩) has
  rw [none_, kept] at run
  rw [moves, Faults.Moves]
  cases all : (orderOf entries).all (f.gets d) with
  | false =>
    rw [all] at run
    obtain ⟨r, m', eq, j', placed⟩ := run
    rw [eq]
    exact ⟨fun h => absurd h.1 Bool.false_ne_true, fun _ => ⟨r, m', rfl, j', placed⟩⟩
  | true =>
    rw [all] at run
    obtain ⟨m', eq, j', placed, within⟩ := run
    rw [List.nil_append] at placed
    have within' : ∀ n ∈ m'.kept, n ∈ orderOf entries := fun n mem =>
      (within n mem).resolve_left List.not_mem_nil
    have fresh : ∀ n ∈ orphansOf f site entries d, n ∉ m'.placed ∧ n ∉ m'.kept := fun n mem =>
      ⟨placed ▸ orphansOf_apart mem, fun mem' => orphansOf_apart mem (within' n mem')⟩
    have there : ∀ n ∈ orphansOf f site entries d, (d n).isSome := fun n mem =>
      isFile_isSome (mem_orphansOf.mp mem).2.2
    have aside := orphans_run j' orphansOf_nodup fresh there
    rw [eq]
    cases clean : (orphansOf f site entries d).all fun n => !f.setAside n with
    | true =>
      rw [clean] at aside
      obtain ⟨m'', eq', j'', placed', list⟩ := aside
      refine ⟨fun _ => ⟨m'', eq', j'', placed'.trans placed, fun n mem => ?_, fun n mem => ?_⟩,
        fun h => absurd ⟨rfl, rfl⟩ h⟩
      · rw [list, List.mem_append] at mem
        exact mem.imp_left (within' n)
      · rw [list]
        exact List.mem_append_right _ mem
    | false =>
      rw [clean] at aside
      obtain ⟨r, m'', eq', j'', placed'⟩ := aside
      refine ⟨fun h => absurd h.2 Bool.false_ne_true, fun _ => ⟨r, m'', eq', j'', ?_⟩⟩
      rw [placed', placed]
      exact (List.takeWhile_eq_self_iff.mpr (List.all_eq_true.mp all)).symm

theorem Moved.live (moved : Moved f site entries d staged m) (good : Admitted entries)
    (holds : ∀ n, (offered entries manifest n).isSome → staged n = offered entries manifest n) :
    (writeSelfIgnore f site.pid m.files.live).1 = swapped f site entries manifest d := by
  have now := (writeSelfIgnore_local f site.pid (moved.same good site.pid)).2
  have base := (writeSelfIgnore_local f site.pid (d := d) (fun _ _ => rfl)).2
  have placed := moved.placed
  funext n
  rw [now n, swapped]
  cases there : offered entries manifest n with
  | some bytes =>
    have is : (offered entries manifest n).isSome := by rw [there]; rfl
    have mem : n ∈ orderOf entries := (mem_orderOf good).mpr (offered_isSome.mp is)
    rw [if_neg (orderOf_not_ignore good site.pid mem), moved.journal.placed_live n (placed ▸ mem),
      holds n is, there]
  | none =>
    have out : n ∉ orderOf entries := fun mem => by
      have is := (@offered_isSome entries manifest n).mpr ((mem_orderOf good).mp mem)
      rw [there] at is
      cases is
    dsimp only
    by_cases orphan : n ∈ orphansOf f site entries d
    · rw [if_pos orphan, if_neg (orphansOf_not_ignore site.pid orphan)]
      refine moved.journal.gone n (moved.orphans n orphan) (placed ▸ out) fun own => out ?_
      rw [own]
      exact List.mem_append_right _ List.mem_cons_self
    · have unkept : n ∉ m.kept := fun mem => (moved.within n mem).elim out orphan
      rw [if_neg orphan, moved.journal.apart n (placed ▸ out) unkept, base n]
      split <;> rfl

theorem swapped_manifest (good : Admitted entries) :
    (swapped f site entries manifest d manifestName).isNone = false := by
  have is := (@offered_isSome entries manifest manifestName).mpr good.manifest
  rw [swapped]
  cases there : offered entries manifest manifestName with
  | some bytes => rfl
  | none => rw [there] at is; cases is

/-- The last steps of a swap: the self-ignore, the manifest's date and the check. -/
def finishSwap (f : Faults) (site : Site) (m : Moves) : Step :=
  (ignoreAndDate f site.pid m).bind fun m =>
    match site.verify m.files.live with
    | none => .ok m
    | some why => .error (Reason.verify why, m)

theorem finish_run (moved : Moved f site entries d staged m) (good : Admitted entries)
    (holds : ∀ n, (offered entries manifest n).isSome → staged n = offered entries manifest n) :
    (f.Lands site entries manifest d →
      ∃ m', finishSwap f site m = .ok m' ∧
        m'.files.live = swapped f site entries manifest d) ∧
    (¬f.Lands site entries manifest d →
      ∃ r m', finishSwap f site m = .error (r, m') ∧
        Journal f (writeSelfIgnore f site.pid d).1 staged m' ∧ m'.placed = orderOf entries) := by
  have written := (writeSelfIgnore_local f site.pid (moved.same good site.pid)).1
  have live := moved.live good holds
  have ignored := moved.journal.ignored fun n touched => moved.clear good site.pid touched
  have wrote_iff : (writeSelfIgnore f site.pid d).2 = true ↔ IgnoreWritten f d :=
    writeSelfIgnore_ok
  rw [live] at ignored
  rw [finishSwap, ignoreAndDate, written, live]
  dsimp only
  rw [swapped_manifest good, Bool.or_false]
  cases wrote : (writeSelfIgnore f site.pid d).2 with
  | false =>
    rw [if_pos rfl]
    refine ⟨fun lands => ?_, fun _ => ⟨_, _, rfl, ignored, moved.placed⟩⟩
    have works := wrote_iff.mpr lands.ignore
    rw [wrote] at works
    cases works
  | true =>
    rw [if_neg (Ne.symm Bool.false_ne_true)]
    cases dates : f.date with
    | true =>
      rw [if_pos rfl]
      refine ⟨fun lands => ?_, fun _ => ⟨_, _, rfl, ignored, moved.placed⟩⟩
      have works := lands.date
      rw [dates] at works
      cases works
    | false =>
      rw [if_neg Bool.false_ne_true]
      dsimp only [Except.bind]
      cases loads : site.verify (swapped f site entries manifest d) with
      | none =>
        exact ⟨fun _ => ⟨_, rfl, rfl⟩,
          fun fails => absurd ⟨wrote_iff.mp wrote, dates, loads⟩ fails⟩
      | some why =>
        refine ⟨fun lands => ?_, fun _ => ⟨_, _, rfl, ignored, moved.placed⟩⟩
        have works := lands.verify
        rw [loads] at works
        cases works

end Apply

section Exact
variable {f : Faults} {site : Site} {entries : List (String × Bytes)} {manifest : Bytes}
  {d : Disk} {fs : Files} {tree : String}

theorem writeSelfIgnore_written {pid : Nat} (written : IgnoreWritten f d) :
    (writeSelfIgnore f pid d).1 selfIgnoreName = some selfIgnore ∧
      ((writeSelfIgnore f pid d).1 (selfIgnoreTmp pid) = none ∨
        (writeSelfIgnore f pid d).1 (selfIgnoreTmp pid) = d (selfIgnoreTmp pid)) := by
  unfold writeSelfIgnore
  split
  · rename_i there
    exact ⟨there.1, Or.inr rfl⟩
  · rename_i apart
    obtain ⟨writes, places⟩ := written.resolve_left apart
    rw [writes, places]
    dsimp only
    rw [if_neg Bool.false_ne_true]
    dsimp only
    rw [Function.update_self, Function.update_of_ne (selfIgnoreTmp_ne pid), Function.update_self]
    exact ⟨rfl, Or.inl rfl⟩

/-- The directory everything worked on is the new layout exactly when no orphan went unseen. -/
theorem swapped_inFull_iff (good : Admitted entries) (written : IgnoreWritten f fs.live)
    {after : Files} (live : after.live = swapped f site entries manifest fs.live) :
    InFull site entries manifest fs after ↔
      ∀ n ∈ oldNamedFiles {} site fs.live, n ∉ orderOf entries → (fs.live n).isSome →
        n ∈ orphansOf f site entries fs.live := by
  have base := (writeSelfIgnore_local f site.pid (d := fs.live) (fun _ _ => rfl)).2
  obtain ⟨own, tmp⟩ := @writeSelfIgnore_written f fs.live site.pid written
  have unoffered : ∀ n, n ∉ orderOf entries → offered entries manifest n = none := fun n out => by
    rw [← Option.not_isSome_iff_eq_none, offered_isSome, ← mem_orderOf good]
    exact out
  constructor
  · intro full n named out there
    by_contra unseen
    have plain := (oldNamedFiles_plain named).2
    have at_ := full.files n (badName_ne_tmp plain site.pid)
    rw [live, swapped, newLayout, unoffered n out] at at_
    dsimp only at at_
    rw [if_neg unseen, if_pos named, base n, if_neg (badName_not_ignore plain site.pid)] at at_
    rw [at_] at there
    cases there
  · intro seen
    constructor
    · intro n apart
      rw [live, swapped, newLayout]
      cases there : offered entries manifest n with
      | some bytes => rfl
      | none =>
        have out : n ∉ orderOf entries := fun mem => by
          have is := (@offered_isSome entries manifest n).mpr ((mem_orderOf good).mp mem)
          rw [there] at is
          cases is
        dsimp only
        by_cases orphan : n ∈ orphansOf f site entries fs.live
        · rw [if_pos orphan, if_pos (oldNamedFiles_mem (mem_orphansOf.mp orphan).1)]
        · rw [if_neg orphan]
          by_cases named : n ∈ oldNamedFiles {} site fs.live
          · have plain := (oldNamedFiles_plain named).2
            rw [if_pos named, base n, if_neg (badName_not_ignore plain site.pid)]
            by_contra held
            exact orphan (seen n named out (Option.isSome_iff_ne_none.mpr held))
          · rw [if_neg named]
            by_cases self : n = selfIgnoreName
            · rw [if_pos self, self, own]
            · rw [if_neg self, base n, if_neg fun touched => touched.elim apart self]
    · have unoffered' := unoffered (selfIgnoreTmp site.pid) fun mem =>
        orderOf_not_ignore good site.pid mem (Or.inl rfl)
      have unorphaned : selfIgnoreTmp site.pid ∉ orphansOf f site entries fs.live := fun mem =>
        orphansOf_not_ignore site.pid mem (Or.inl rfl)
      rw [live, swapped, unoffered']
      dsimp only
      rw [if_neg unorphaned]
      exact tmp

theorem restored_ignored_iff (good : Admitted entries) {pid : Nat} :
    restored f (orderOf entries) (writeSelfIgnore f pid d).1 = d ↔
      IgnoreUntouched f pid d ∧ f.SeesAll d (orderOf entries) := by
  have base := (writeSelfIgnore_local f pid (d := d) (fun _ _ => rfl)).2
  rw [← writeSelfIgnore_same]
  constructor
  · intro same
    have alone : (writeSelfIgnore f pid d).1 = d := by
      funext n
      rw [base n]
      split
      · rename_i touched
        have at_ := congrFun same n
        rw [restored, if_neg fun lost => orderOf_not_ignore good pid lost.1 touched] at at_
        exact at_
      · rfl
    rw [alone] at same
    exact ⟨alone, restored_eq_iff.mp same⟩
  · intro safe
    rw [safe.1]
    exact restored_eq_iff.mpr safe.2

theorem asItWas_restored {placed : List String} {d' : Disk} :
    AsItWas fs ⟨restored f placed d', fun _ => none, fun _ => none⟩ ↔
      restored f placed d' = fs.live :=
  ⟨AsItWas.live, fun live => ⟨live, fun _ => Or.inl rfl, fun _ => Or.inl rfl⟩⟩

theorem swapIn_eq {new old : Disk} (staged : Swap.stage f site fs entries manifest =
      (⟨fs.live, new, old⟩, .ok ⟨orderOf entries, orphansOf f site entries fs.live⟩)) :
    swapIn f site tree entries manifest fs =
      match (moves f (orderOf entries) (orphansOf f site entries fs.live)
          ⟨⟨fs.live, new, old⟩, [], []⟩).bind (finishSwap f site) with
      | .ok m => (removeStage f.dropStage m.files,
          .ok (.installed tree entries.length (entries.map (·.2.length)).sum))
      | .error (r, m) =>
        match m.rollBack f with
        | (fs, .ok ()) => (fs, .ok (.rejected (.swap r)))
        | (fs, .error failed) => (fs, .error (.restore r failed)) := by
  rw [swapIn, staged]
  dsimp only
  rw [apply_eq]
  cases moves f (orderOf entries) (orphansOf f site entries fs.live)
    ⟨⟨fs.live, new, old⟩, [], []⟩ <;> rfl

/-- What the swap of a good offer leaves: nothing where it is not staged; the new layout; or what
its roll-back restores. -/
inductive Ends (f : Faults) (site : Site) (entries : List (String × Bytes)) (manifest : Bytes)
    (fs : Files) : Files × Except InstallError LayoutInstall → Prop where
  | unstaged (after : Files) (r : Reason) (fails : ¬f.Stages entries)
      (same : f.dropStage = none → AsItWas fs after) :
      Ends f site entries manifest fs (after, .error (.stage r))
  | landed (after : Files) (tree : String) (count bytes : Nat) (stages : f.Stages entries)
      (moves : f.Moves site entries fs.live) (lands : f.Lands site entries manifest fs.live)
      (live : after.live = swapped f site entries manifest fs.live) :
      Ends f site entries manifest fs (after, .ok (.installed tree count bytes))
  | early (m : Moves) (new : Disk) (r : Reason) (stages : f.Stages entries)
      (fails : ¬f.Moves site entries fs.live) (journal : Journal f fs.live new m)
      (placed : m.placed = (orderOf entries).takeWhile (f.gets fs.live)) :
      Ends f site entries manifest fs (match m.rollBack f with
        | (fs, .ok ()) => (fs, .ok (.rejected (.swap r)))
        | (fs, .error failed) => (fs, .error (.restore r failed)))
  | late (m : Moves) (new : Disk) (r : Reason) (stages : f.Stages entries)
      (moves : f.Moves site entries fs.live) (fails : ¬f.Lands site entries manifest fs.live)
      (journal : Journal f (writeSelfIgnore f site.pid fs.live).1 new m)
      (placed : m.placed = orderOf entries) :
      Ends f site entries manifest fs (match m.rollBack f with
        | (fs, .ok ()) => (fs, .ok (.rejected (.swap r)))
        | (fs, .error failed) => (fs, .error (.restore r failed)))

theorem swapIn_ends (good : Admitted entries) :
    Ends f site entries manifest fs (swapIn f site tree entries manifest fs) := by
  by_cases stages : f.Stages entries
  · obtain ⟨new, old, staged, holds⟩ := @stage_ok f site entries manifest fs stages good
    have has : ∀ n ∈ orderOf entries, (new n).isSome := fun n mem => by
      have is := (@offered_isSome entries manifest n).mpr ((mem_orderOf good).mp mem)
      rw [holds n is]
      exact is
    have start : Journal f fs.live new ⟨⟨fs.live, new, old⟩, [], []⟩ :=
      @Journal.start f new ⟨fs.live, new, old⟩ fun _ => rfl
    obtain ⟨works, stops⟩ := @moves_run f site entries fs.live new _ good start rfl rfl has
    rw [swapIn_eq staged]
    by_cases moved : f.Moves site entries fs.live
    · obtain ⟨m, run, done⟩ := works moved
      obtain ⟨lands, fails⟩ := finish_run done good holds
      rw [run]
      by_cases landed : f.Lands site entries manifest fs.live
      · obtain ⟨m', last, live⟩ := lands landed
        rw [show (Except.ok m : Step).bind (finishSwap f site) = .ok m' from last]
        refine .landed _ _ _ _ stages moved landed ?_
        rw [← live]
        exact (removeStage_asItWas f.dropStage m'.files).live
      · obtain ⟨r, m', last, journal, placed⟩ := fails landed
        rw [show (Except.ok m : Step).bind (finishSwap f site) = .error (r, m') from last]
        exact .late m' new r stages moved landed journal placed
    · obtain ⟨r, m, run, journal, placed⟩ := stops moved
      rw [run]
      exact .early m new r stages moved journal placed
  · obtain ⟨after, r, staged, same⟩ := @stage_fails f site entries manifest fs stages
    rw [swapIn, staged]
    exact .unstaged after r stages same

theorem rolledBack_iff {m : Moves} {r : Reason} {d' new : Disk} {P : Files → Prop}
    (journal : Journal f d' new m) :
    (match (match m.rollBack f with
        | (fs, .ok ()) => (fs, (.ok (.rejected (.swap r)) : Except InstallError LayoutInstall))
        | (fs, .error failed) => (fs, .error (.restore r failed))) with
      | (after, .ok (.installed _ _ _)) => P after
      | (after, _) => f.RollsBack → AsItWas fs after) ↔
      (f.RollsBack → restored f m.placed d' = fs.live) := by
  by_cases works : f.RollsBack
  · rw [journal.rollBack works]
    exact imp_congr_right fun _ => asItWas_restored
  · rw [iff_true_right fun h => absurd h works]
    rcases m.rollBack f with ⟨after, failed | _⟩
    · exact fun h => absurd h works
    · exact fun h => absurd h works

theorem swapIn_iff (good : Admitted entries) :
    (match swapIn f site tree entries manifest fs with
      | (after, .ok (.installed _ _ _)) => InFull site entries manifest fs after
      | (after, _) => f.RollsBack → AsItWas fs after) ↔ Safe f site entries manifest fs.live := by
  have ends : Ends f site entries manifest fs (swapIn f site tree entries manifest fs) :=
    swapIn_ends good
  generalize swapIn f site tree entries manifest fs = out at ends ⊢
  cases ends with
  | unstaged after r fails same =>
    refine iff_of_true (fun works => same works.dropStage) ⟨?_, ?_, ?_⟩
    · exact fun stages => absurd stages fails
    · exact fun stages => absurd stages fails
    · exact fun stages => absurd stages fails
  | landed after tree count bytes stages moves lands live =>
    refine (swapped_inFull_iff good lands.ignore live).trans ⟨fun seen => ⟨?_, ?_, ?_⟩, ?_⟩
    · exact fun _ _ _ => seen
    · exact fun _ _ fails => absurd lands fails
    · exact fun _ fails => absurd moves fails
    · exact fun safe => safe.lands stages moves lands
  | early m new r stages fails journal placed =>
    refine (rolledBack_iff journal).trans ?_
    rw [placed, restored_eq_iff]
    refine ⟨fun seen => ⟨?_, ?_, fun _ _ => seen⟩, fun safe => safe.early stages fails⟩
    · exact fun _ moves => absurd moves fails
    · exact fun _ moves => absurd moves fails
  | late m new r stages moves fails journal placed =>
    refine (rolledBack_iff journal).trans ?_
    rw [placed, restored_ignored_iff good]
    refine ⟨fun seen => ⟨?_, fun _ _ _ => seen, ?_⟩, fun safe => safe.late stages moves fails⟩
    · exact fun _ _ lands => absurd lands fails
    · exact fun _ fails' => absurd moves fails'

theorem install_inFullOrNotAtAll_iff (f : Faults) (site : Site)
    (localKey : Except String LayoutKey) (key : String) (entries : List (String × Bytes))
    (fs : Files) :
    InFullOrNotAtAll f site entries localKey key fs ↔
      ∀ tree manifest, localKey = .ok (.clean key tree) → checkOffer site entries = .ok manifest →
        Safe f site entries manifest fs.live := by
  have untouched : AsItWas fs fs := ⟨rfl, fun _ => Or.inr rfl, fun _ => Or.inr rfl⟩
  unfold InFullOrNotAtAll
  rcases localKey with path | why | ⟨own, tree⟩
  · exact iff_of_true (fun _ => untouched) fun _ _ same => nomatch same
  · exact iff_of_true (fun _ => untouched) fun _ _ same => nomatch same
  · rw [installLayout]
    by_cases same : own = key
    · rw [if_neg (not_not.mpr same)]
      cases checked : checkOffer site entries with
      | error e => exact iff_of_true (fun _ => untouched) fun _ _ _ ok => nomatch ok
      | ok manifest =>
        have exactly : _ ↔ Safe f site entries manifest fs.live :=
          @swapIn_iff f site entries manifest fs tree (checkOffer_admitted checked)
        constructor
        · intro all tree' manifest' _ eq
          cases eq
          refine exactly.mp ?_
          dsimp only at all
          split at all
          · rename_i after _ _ _ out
            exact all manifest rfl
          · rename_i after _ _ _
            exact all
        · intro safe
          have all := exactly.mpr (safe tree manifest (by rw [same]) rfl)
          dsimp only
          split at all
          · intro manifest' eq
            cases eq
            exact all
          · exact all
    · rw [if_pos same]
      refine iff_of_true (fun _ => untouched) fun tree' manifest' eq => ?_
      cases eq
      exact absurd rfl same

end Exact

namespace Sample

def bare : Manifest where
  schemaVersion := manifestVersion
  engineVersion := "0.9"
  buildStamp := "stamp"
  shards := []
  cross := none
  repos := [⟨1, "repo", some "../..", none⟩]

def site : Site where
  json :=
    { probe b := if b = [1] then .ok manifestVersion else .error "expected value"
      read b := if b = [1] then .ok bare else .error "expected value"
      print m := if m = bare then .ok [1] else .error "unprintable" }
  buildStamp := "stamp"
  repoId := 1
  repos := [⟨1, "repo", some "../..", none⟩]
  pid := 7
  lenientPaths _ := []
  verify d := if d manifestName = some [1] then none else some "does not load"

def fresh : Files := ⟨fun _ => none, fun _ => none, fun _ => none⟩

/-- Only the dating of the manifest fails: the self-ignore outlives the roll-back. -/
theorem selfIgnore_left : ¬InFullOrNotAtAll { date := true } site [(manifestName, [1])]
    (.ok (.clean "key" "tree")) "key" fresh := by
  have left : (match installLayout { date := true } site (.ok (.clean "key" "tree")) "key"
        [(manifestName, [1])] fresh with
      | (_, .ok (.installed _ _ _)) => false
      | (after, _) => (after.live selfIgnoreName).isSome) = true := by decide +kernel
  intro all
  unfold InFullOrNotAtAll at all
  split at left
  · cases left
  · rename_i after result failed out
    rw [out] at all
    split at all
    · rename_i tree count bytes eq
      cases eq
      exact failed _ _ _ rfl
    · rename_i after' result' _ eq
      cases eq
      have same := (all ⟨fun _ => rfl, fun _ => rfl, rfl⟩).live
      rw [same] at left
      cases left

end Sample

end Glia.Store.Install
