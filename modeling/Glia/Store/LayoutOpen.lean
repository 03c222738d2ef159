import Glia.CodeDomain
import Glia.Store.Layout

/-! What an open layout holds: the files its manifest lists, each read at its own accesses. -/
namespace Glia.Store

section Held
variable {r : Rkyv Container} {json : ManifestJson} {view : View} {t : Nat} {e : ShardEntry}

theorem MmapContainer.open_bytes {b : Bytes} {m : MmapContainer} (ok : open_ r b = .ok m) :
    m.bytes = b := by
  rw [open_] at ok
  cases split : splitFile b with
  | error err =>
    rw [split] at ok
    cases ok
  | ok core =>
    rw [split] at ok
    dsimp only [bind, Except.bind] at ok
    cases archived : archivedIn r b core with
    | error err =>
      rw [archived] at ok
      cases ok
    | ok c =>
      rw [archived] at ok
      dsimp only at ok
      cases head : validateHeader c.header with
      | error err =>
        rw [head] at ok
        cases ok
      | ok u =>
        rw [head] at ok
        dsimp only at ok
        cases resolved : resolveFrom core.start [] preambleLen c.sections with
        | error err =>
          rw [resolved] at ok
          cases ok
        | ok sections =>
          rw [resolved] at ok
          cases ok
          rfl

theorem MmapContainer.openPath_ok {d : Disk} {path : String} {m : MmapContainer} :
    openPath r d path = .ok m ↔ ∃ b, d path = some b ∧ open_ r b = .ok m := by
  rw [openPath]
  cases d path with
  | none =>
    apply iff_of_false
    · intro ok
      cases ok
    · rintro ⟨b, held, _⟩
      cases held
  | some bytes =>
    constructor
    · intro ok
      exact ⟨bytes, rfl, ok⟩
    · rintro ⟨b, held, ok⟩
      cases held
      exact ok

theorem verifyHash_ok {seen read : Disk} :
    verifyHash e seen read = .ok () ↔
      (seen e.path).isSome ∧ ∃ b, read e.path = some b ∧ hexXxhash64 b = e.contentHash := by
  rw [verifyHash, verifiedBytes]
  cases seen e.path with
  | none =>
    apply iff_of_false
    · intro ok
      cases ok
    · rintro ⟨none, _⟩
      cases none
  | some _ =>
    rw [if_neg (by simp)]
    cases read e.path with
    | none =>
      apply iff_of_false
      · intro ok
        cases ok
      · rintro ⟨_, b, held, _⟩
        cases held
    | some bytes =>
      dsimp only
      by_cases same : hexXxhash64 bytes = e.contentHash
      · rw [if_neg (not_not.mpr same)]
        exact ⟨fun _ => ⟨rfl, bytes, rfl, same⟩, fun _ => rfl⟩
      · rw [if_pos same]
        apply iff_of_false
        · intro ok
          cases ok
        · rintro ⟨_, b, held, eq⟩
          cases held
          exact same eq

theorem openEntry_ok {m : MmapContainer} :
    openEntry r view t e = .ok m ↔ verifyHash e (view t) (view (t + 1)) = .ok () ∧
      ∃ b, view (t + 2) e.path = some b ∧ MmapContainer.open_ r b = .ok m := by
  rw [openEntry, ← MmapContainer.openPath_ok]
  cases verifyHash e (view t) (view (t + 1)) with
  | error err =>
    apply iff_of_false
    · intro ok
      cases ok
    · rintro ⟨ok, _⟩
      cases ok
  | ok u => exact (and_iff_right rfl).symm

/-- The code shards of a list of entries, each with the reader's first access to it, and the
count of accesses made. -/
def codeReads (t : Nat) : List ShardEntry → List (Nat × ShardEntry) × Nat
  | [] => ([], t)
  | e :: rest =>
    if e.isCode then
      let (reads, t') := codeReads (t + 3) rest
      ((t, e) :: reads, t')
    else codeReads (t + 2) rest

theorem codeReads_entries (t : Nat) (entries : List ShardEntry) :
    (codeReads t entries).1.map (·.2) = entries.filter (·.isCode) := by
  induction entries generalizing t with
  | nil => rfl
  | cons e rest ih =>
    rw [codeReads]
    split
    · rename_i code
      rw [List.map_cons, ih, List.filter_cons_of_pos code]
    · rename_i foreign
      rw [ih, List.filter_cons_of_neg foreign]

theorem openShards_ok {entries : List ShardEntry} {ms : List (String × MmapContainer)} {t' : Nat}
    (ok : openShards r view t entries = .ok (ms, t')) :
    t' = (codeReads t entries).2 ∧
      List.Forall₂ (fun p m => m.1 = p.2.name ∧ openEntry r view p.1 p.2 = .ok m.2)
        (codeReads t entries).1 ms := by
  induction entries generalizing t ms t' with
  | nil =>
    cases ok
    exact ⟨rfl, .nil⟩
  | cons e rest ih =>
    rw [openShards] at ok
    rw [codeReads]
    split at ok
    · rename_i code
      rw [if_pos code]
      cases entry : openEntry r view t e with
      | error err =>
        rw [entry] at ok
        cases ok
      | ok m =>
        rw [entry] at ok
        dsimp only at ok
        cases tail : openShards r view (t + 3) rest with
        | error err =>
          rw [tail] at ok
          cases ok
        | ok result =>
          rw [tail] at ok
          cases ok
          have next := ih tail
          exact ⟨next.1, .cons ⟨rfl, entry⟩ next.2⟩
    · rename_i foreign
      rw [if_neg foreign]
      cases checked : verifyHash e (view t) (view (t + 1)) with
      | error err =>
        rw [checked] at ok
        cases ok
      | ok u =>
        rw [checked] at ok
        exact ih ok

/-- The files of a manifest the reader opens, each with the reader's first access to it. -/
def Manifest.reads (m : Manifest) : List (Nat × ShardEntry) :=
  (codeReads 1 m.shards).1 ++ m.cross.toList.map fun e => ((codeReads 1 m.shards).2, e)

/-- The files an open layout holds, in manifest order. -/
def ShardedMmap.held (s : ShardedMmap) : List MmapContainer :=
  s.shards.map (·.2) ++ s.cross.toList

theorem openDuring_ok {s : ShardedMmap} (ok : ShardedMmap.openDuring r json view = .ok s) :
    readManifest json (view 0) = .ok s.manifest ∧
      s.shards.map (·.1) = (s.manifest.shards.filter (·.isCode)).map (·.name) ∧
      s.cross.isSome = s.manifest.cross.isSome ∧
      List.Forall₂ (fun p m => openEntry r view p.1 p.2 = .ok m) s.manifest.reads s.held := by
  rw [ShardedMmap.openDuring] at ok
  cases read : readManifest json (view 0) with
  | error err =>
    rw [read] at ok
    cases ok
  | ok manifest =>
    rw [read] at ok
    dsimp only at ok
    cases opened : openShards r view 1 manifest.shards with
    | error err =>
      rw [opened] at ok
      cases ok
    | ok result =>
      obtain ⟨shards, t⟩ := result
      rw [opened] at ok
      dsimp only at ok
      obtain ⟨rfl, held⟩ := openShards_ok opened
      have names : shards.map (·.1) = (manifest.shards.filter (·.isCode)).map (·.name) := by
        have named : List.Forall₂ (· = ·) (shards.map (·.1))
            ((codeReads 1 manifest.shards).1.map fun p => p.2.name) :=
          List.forall₂_map_left_iff.mpr (List.forall₂_map_right_iff.mpr
            (held.flip.imp fun _ _ both => both.1))
        rw [List.forall₂_eq_eq_eq] at named
        rw [named, ← codeReads_entries 1, List.map_map]
        rfl
      have files : List.Forall₂ (fun p m => openEntry r view p.1 p.2 = .ok m)
          (codeReads 1 manifest.shards).1 (shards.map (·.2)) :=
        List.forall₂_map_right_iff.mpr (held.imp fun _ _ both => both.2)
      cases cross : manifest.cross with
      | none =>
        rw [cross] at ok
        cases ok
        refine ⟨rfl, names, ?_, ?_⟩
        · rw [cross]
          rfl
        · rw [Manifest.reads, ShardedMmap.held, cross, Option.toList_none, List.map_nil,
            List.append_nil, Option.toList_none, List.append_nil]
          exact files
      | some e =>
        rw [cross] at ok
        dsimp only at ok
        cases entry : openEntry r view (codeReads 1 manifest.shards).2 e with
        | error err =>
          rw [entry] at ok
          cases ok
        | ok m =>
          rw [entry] at ok
          cases ok
          refine ⟨rfl, names, ?_, ?_⟩
          · rw [cross]
            rfl
          · rw [Manifest.reads, ShardedMmap.held, cross]
            exact List.rel_append files (.cons entry .nil)

theorem Manifest.reads_entries (m : Manifest) :
    m.reads.map (·.2) = m.shards.filter (·.isCode) ++ m.cross.toList := by
  rw [reads, List.map_append, codeReads_entries, List.map_map]
  congr 1
  exact List.map_id' _

def ShardedMmap.Matches (s : ShardedMmap) : Prop :=
  List.Forall₂ (fun (e : ShardEntry) (m : MmapContainer) => hexXxhash64 m.bytes = e.contentHash)
    (s.manifest.shards.filter (·.isCode) ++ s.manifest.cross.toList) s.held

instance (s : ShardedMmap) : Decidable s.Matches :=
  inferInstanceAs (Decidable (List.Forall₂ _ _ _))

end Held

namespace Sample

def core (id : NodeId) : Container where
  header := .new Header.codeGraphType
  repo := 1
  nodes := [⟨id, 1, .strong, []⟩]
  edges := []
  nodeKinds := [(id, NodeKind.module)]

def rkyv : Rkyv Container where
  toBytes c := if c = core 1 then some [1] else if c = core 2 then some [2] else none
  access b := if b = [1] then some (core 1) else if b = [2] then some (core 2) else none

theorem rkyv_lossless : rkyv.Lossless := by
  intro c b archived
  rw [rkyv] at archived ⊢
  dsimp only at archived ⊢
  split at archived
  · rename_i one
    cases archived
    rw [if_pos rfl, one]
  · split at archived
    · rename_i two
      cases archived
      rw [if_neg (by decide), if_pos rfl, two]
    · cases archived

def codec : ShardCodec rkyv NodeId where
  repo _ := 1
  encode id := encodeFile rkyv (core id) []
  encodeCross _ := .error .rkyv
  encode_opens id b ok := by
    obtain ⟨m, _, opened, _⟩ := open_encodeFile rkyv_lossless rfl ok
    exact ⟨m, opened⟩
  encodeCross_opens _ _ ok := by cases ok

def manifest (id : NodeId) : Manifest :=
  manifestOf {} {} [shardEntry "repo-1" Header.codeGraphType
    (preamble preambleLen 1 ++ [UInt8.ofNat id])] none

def json : ManifestJson where
  probe b := if b = [1] ∨ b = [2] then .ok manifestVersion else .error "expected value"
  read b :=
    if b = [1] then .ok (manifest 1) else if b = [2] then .ok (manifest 2)
    else .error "expected value"
  print m :=
    if m = manifest 1 then .ok [1] else if m = manifest 2 then .ok [2] else .error "unprintable"

def write (id : NodeId) (d : Disk) : Write × Except StoreError Manifest :=
  writeMergedWith codec json ⟨[id], [], []⟩ {} {} d

/-- The directory once the first graph's layout is written. -/
def disk : Disk := (write 1 fun _ => none).1.disk

end Sample

end Glia.Store

/-! One reader of a layout against one writer that replaces its files under it. -/
namespace Glia.Store

open Glia.Kit.Replay

/-- A write's replacements among a reader's accesses: how many have landed at each access. -/
structure Race where
  start : Disk
  log : List (String × Bytes)
  landed : Nat → Nat
  landed_mono : Monotone landed

namespace Race
variable {r : Rkyv Container} {json : ManifestJson}

def view (x : Race) : View := fun t => after x.start (x.log.take (x.landed t))

/-- What lands between two of the reader's accesses. -/
def window (x : Race) (t t' : Nat) : List (String × Bytes) :=
  (x.log.take (x.landed t')).drop (x.landed t)

/-- No replacement of the entry's file that changes its content lands between the read the
reader verifies it by and the open that follows. -/
def Undisturbed (x : Race) (t : Nat) (e : ShardEntry) : Prop :=
  ∀ bytes, lastTo (x.window (t + 1) (t + 2)) e.path = some bytes →
    hexXxhash64 bytes = e.contentHash

theorem view_window (x : Race) {t t' : Nat} (le : t ≤ t') (path : String) :
    x.view t' path = (lastTo (x.window t t') path).or (x.view t path) :=
  after_take x.start x.log (x.landed_mono le) path

theorem openEntry_matches (x : Race) {t : Nat} {e : ShardEntry} {m : MmapContainer}
    (ok : openEntry r x.view t e = .ok m) :
    hexXxhash64 m.bytes = e.contentHash ↔ x.Undisturbed t e := by
  obtain ⟨checked, b, held, opened⟩ := openEntry_ok.mp ok
  obtain ⟨_, read, there, same⟩ := verifyHash_ok.mp checked
  rw [x.view_window (Nat.le_succ (t + 1)), there] at held
  rw [MmapContainer.open_bytes opened, Undisturbed]
  cases last : lastTo (x.window (t + 1) (t + 2)) e.path with
  | none =>
    rw [last] at held
    cases held
    exact ⟨fun _ _ none => (nomatch none), fun _ => same⟩
  | some bytes =>
    rw [last] at held
    cases held
    exact ⟨fun eq _ some => Option.some.inj some ▸ eq, fun h => h b rfl⟩

/-- An open that succeeds holds what its manifest lists exactly when no file it holds was
replaced by other content between its verifying read and its open. -/
theorem open_matches_iff (x : Race) {s : ShardedMmap}
    (ok : ShardedMmap.openDuring r json x.view = .ok s) :
    s.Matches ↔ ∀ p ∈ s.manifest.reads, x.Undisturbed p.1 p.2 := by
  have held := (openDuring_ok ok).2.2.2
  rw [ShardedMmap.Matches, ← Manifest.reads_entries, List.forall₂_map_left_iff]
  generalize s.manifest.reads = reads at held ⊢
  generalize s.held = files at held ⊢
  induction held with
  | nil => exact ⟨fun _ _ mem => (nomatch mem), fun _ => .nil⟩
  | @cons p m reads files opened _ ih =>
    rw [List.forall₂_cons, List.forall_mem_cons]
    exact and_congr (x.openEntry_matches opened) ih

/-- The second graph's layout lands whole after the reader verified the first one's shard. -/
def sample : Race where
  start := Sample.disk
  log := (Sample.write 2 Sample.disk).1.log
  landed t := if t < 3 then 0 else 2
  landed_mono := by
    intro t t' le
    dsimp only
    split <;> split <;> omega

theorem sample_mixes :
    ∃ s, ShardedMmap.openDuring Sample.rkyv Sample.json sample.view = .ok s ∧ ¬s.Matches := by
  have mixed : (match ShardedMmap.openDuring Sample.rkyv Sample.json sample.view with
      | .ok s => decide ¬s.Matches
      | .error _ => false) = true := by decide +kernel
  split at mixed
  · rename_i s opened
    exact ⟨s, opened, of_decide_eq_true mixed⟩
  · cases mixed

theorem sample_matches_iff :
    ∃ s, ShardedMmap.openDuring Sample.rkyv Sample.json sample.view = .ok s ∧
      (s.Matches ↔ ∀ p ∈ s.manifest.reads, sample.Undisturbed p.1 p.2) := by
  have opens : (ShardedMmap.openDuring Sample.rkyv Sample.json sample.view).toOption.isSome := by
    decide +kernel
  cases opened : ShardedMmap.openDuring Sample.rkyv Sample.json sample.view with
  | error err =>
    rw [opened] at opens
    cases opens
  | ok s => exact ⟨s, rfl, sample.open_matches_iff opened⟩

end Race

end Glia.Store
