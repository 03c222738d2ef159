import Glia.Store.LayoutWrite
import Mathlib.Data.Set.Function

/-! A layout write stopped anywhere: what a later open is served. -/
namespace Glia.Store

open Glia.Kit.Replay

/-- An open layout that holds exactly these graphs and cross edges under this manifest. -/
structure Serves {r : Rkyv Container} {G : Type} (codec : ShardCodec r G)
    (shards : List (String × G)) (crossEdges : List Edge) (m : Manifest) (s : ShardedMmap) :
    Prop where
  manifest : s.manifest = m
  shards : List.Forall₂ (fun g p => p.1 = g.1 ∧ ∃ b, codec.encode g.2 = .ok b ∧
    MmapContainer.open_ r b = .ok p.2) shards s.shards
  cross : (crossEdges = [] ∧ s.cross = none) ∨ ∃ b c, crossEdges ≠ [] ∧
    codec.encodeCross crossEdges = .ok b ∧ MmapContainer.open_ r b = .ok c ∧ s.cross = some c

section Steady
variable {r : Rkyv Container} {json : ManifestJson} {d : Disk}

theorem openEntry_steady {t : Nat} {e : ShardEntry} {m : MmapContainer} :
    openEntry r (fun _ => d) t e = .ok m ↔
      ∃ b, d e.path = some b ∧ hexXxhash64 b = e.contentHash ∧
        MmapContainer.open_ r b = .ok m := by
  rw [openEntry_ok, verifyHash_ok]
  constructor
  · rintro ⟨⟨_, b, held, same⟩, b', held', opened⟩
    rw [held] at held'
    cases held'
    exact ⟨b, held, same, opened⟩
  · rintro ⟨b, held, same, opened⟩
    exact ⟨⟨by rw [held]; rfl, b, held, same⟩, b, held, opened⟩

theorem openShards_total (t : Nat) {entries : List ShardEntry}
    (there : ∀ e ∈ entries, ∃ b, d e.path = some b ∧ hexXxhash64 b = e.contentHash ∧
      (e.isCode → ∃ m, MmapContainer.open_ r b = .ok m)) :
    ∃ ms t', openShards r (fun _ => d) t entries = .ok (ms, t') := by
  induction entries generalizing t with
  | nil => exact ⟨[], t, rfl⟩
  | cons e rest ih =>
    rw [List.forall_mem_cons] at there
    obtain ⟨⟨b, held, same, opens⟩, tail⟩ := there
    rw [openShards]
    split
    · rename_i code
      obtain ⟨m, opened⟩ := opens code
      obtain ⟨ms, t', rest⟩ := ih (t + 3) tail
      rw [openEntry_steady.mpr ⟨b, held, same, opened⟩]
      dsimp only
      rw [rest]
      exact ⟨_, _, rfl⟩
    · obtain ⟨ms, t', rest⟩ := ih (t + 2) tail
      have checked : verifyHash e d d = .ok () :=
        verifyHash_ok.mpr ⟨by rw [held]; rfl, b, held, same⟩
      rw [checked]
      exact ⟨_, _, rest⟩

def contents (d : Disk) : Set Bytes := {b | ∃ path, d path = some b}

/-- Two directories under one manifest serve one layout, when no two of their files collide. -/
theorem open_unique {d' : Disk} {s s' : ShardedMmap}
    (apart : Set.InjOn hexXxhash64 (contents d ∪ contents d'))
    (opened : ShardedMmap.open_ r json d = .ok s) (opened' : ShardedMmap.open_ r json d' = .ok s')
    (same : s.manifest = s'.manifest) : s = s' := by
  obtain ⟨_, names, crossed, held⟩ := openDuring_ok opened
  obtain ⟨_, names', crossed', held'⟩ := openDuring_ok opened'
  rw [← same] at names' crossed' held'
  have equal : s.held = s'.held := by
    generalize s.held = files at held ⊢
    generalize s'.held = files' at held' ⊢
    generalize s.manifest.reads = reads at held held'
    induction held generalizing files' with
    | nil =>
      cases held'
      rfl
    | cons one _ ih =>
      cases held' with
      | cons one' rest' =>
        obtain ⟨b, here, hash, opens⟩ := openEntry_steady.mp one
        obtain ⟨b', here', hash', opens'⟩ := openEntry_steady.mp one'
        have bytes := apart (.inl ⟨_, here⟩) (.inr ⟨_, here'⟩) (hash.trans hash'.symm)
        rw [bytes, opens'] at opens
        rw [Except.ok.inj opens, ih _ rest']
  have lengths : (s.shards.map (·.2)).length = (s'.shards.map (·.2)).length := by
    have counted := congrArg List.length (names.trans names'.symm)
    rw [List.length_map, List.length_map] at counted ⊢
    exact counted
  obtain ⟨shards, cross⟩ := List.append_inj equal lengths
  have pairs : s.shards = s'.shards := by
    rw [← List.zip_unzip s.shards, ← List.zip_unzip s'.shards, List.unzip_eq_map,
      List.unzip_eq_map]
    dsimp only
    rw [names.trans names'.symm, shards]
  have options : s.cross = s'.cross := by
    revert cross
    cases s.cross <;> cases s'.cross <;> simp
  cases s
  cases s'
  cases same
  cases pairs
  cases options
  rfl

end Steady

section Written
variable {r : Rkyv Container} {G : Type} {codec : ShardCodec r G} {json : ManifestJson}
  {shards : List (String × G)} {crossEdges : List Edge} {layoutMeta : LayoutMeta}
  {recorded : Recorded} {d : Disk} {w : Write} {res : Except StoreError Manifest}

structure Write.ManifestLast (d : Disk) (w : Write) (res : Except StoreError Manifest) : Prop where
  tracks : w.disk = after d w.log
  last : (∀ p ∈ w.log, p.1 ≠ manifestName) ∨ ∃ front b, w.log = front ++ [(manifestName, b)] ∧
    (∀ p ∈ front, p.1 ≠ manifestName) ∧ ∃ m, res = .ok m

theorem Write.Unpublished.manifestLast (h : w.Unpublished d) : w.ManifestLast d res :=
  ⟨h.tracks, .inl h.files⟩

theorem writeManifest_last (h : w.Unpublished d) (m : Manifest) :
    (writeManifest json w m).1.ManifestLast d (writeManifest json w m).2 := by
  rw [writeManifest]
  cases json.print m with
  | error e => exact h.manifestLast
  | ok bytes =>
    dsimp only
    rcases w.settle_eq true manifestName bytes with ⟨eq, _⟩ | eq
    · rw [eq]
      exact h.manifestLast
    · rw [eq]
      constructor
      · rw [Write.replace, h.tracks, ← after_concat]
      · exact .inr ⟨w.log, bytes, rfl, h.files, m, rfl⟩

theorem writeShardedWith_last (shards : List (String × G)) (crossEdges : List Edge)
    (layoutMeta : LayoutMeta) (recorded : Recorded) (d : Disk) :
    (writeShardedWith codec json shards crossEdges layoutMeta recorded d).1.ManifestLast d
      (writeShardedWith codec json shards crossEdges layoutMeta recorded d).2 := by
  rw [writeShardedWith]
  split
  · exact (Write.start_unpublished d).manifestLast
  · have code := writeCode_unpublished codec (readManifest json d).toOption
      (Write.start_unpublished d) shards
    dsimp only
    split
    · rename_i eq
      rw [eq] at code
      exact code.manifestLast
    · rename_i w entries eq
      rw [eq] at code
      have foreign := code.shards (readManifest json d).toOption
        (recorded.foreign.map fun f => (f.name, f.bytes))
      rw [← writeForeign_eq] at foreign
      have crossed := writeCross_unpublished codec (readManifest json d).toOption foreign crossEdges
      split
      · rename_i eq
        rw [eq] at crossed
        exact crossed.manifestLast
      · rename_i eq
        rw [eq] at crossed
        exact writeManifest_last crossed _

theorem Write.ManifestLast.stopped (h : w.ManifestLast d res) (k : Nat) :
    after d (w.log.take k) manifestName = d manifestName ∨
      after d (w.log.take k) = w.disk ∧ ∃ m, res = .ok m := by
  rcases h.last with none | ⟨front, b, eq, none, done⟩
  · exact .inl (after_apart d fun p mem => none p (List.mem_of_mem_take mem))
  · by_cases whole : w.log.length ≤ k
    · rw [List.take_of_length_le whole, ← h.tracks]
      exact .inr ⟨rfl, done⟩
    · left
      rw [eq, List.length_append, List.length_singleton] at whole
      rw [eq, List.take_append_of_le_length (by omega)]
      exact after_apart d fun p mem => none p (List.mem_of_mem_take mem)

structure Completed (codec : ShardCodec r G) (json : ManifestJson) (shards : List (String × G))
    (crossEdges : List Edge) (recorded : Recorded) (d : Disk) (m : Manifest) : Prop where
  schema : m.schemaVersion = manifestVersion
  manifest : ∃ b, json.print m = .ok b ∧ d manifestName = some b
  code : ∃ files, Encodes codec shards files ∧
    m.shards = files.map (fun f => shardEntry f.1 Header.codeGraphType f.2) ++
      foreignEntries recorded.foreign ∧ ∀ f ∈ files, d (fileName f.1) = some f.2
  foreign : ∀ f ∈ recorded.foreign,
    d (fileName f.name) = some f.bytes ∧ f.graphType ≠ Header.codeGraphType
  cross : (crossEdges = [] ∧ m.cross = none) ∨ ∃ b, crossEdges ≠ [] ∧
    codec.encodeCross crossEdges = .ok b ∧ m.cross = some (crossEntry b) ∧
    d crossStackName = some b

theorem writeManifest_ok {m m' : Manifest} {w' : Write}
    (ok : writeManifest json w m = (w', .ok m')) :
    m' = m ∧ ∃ b, json.print m = .ok b ∧
      w'.disk = Function.update w.disk manifestName (some b) := by
  rw [writeManifest] at ok
  cases printed : json.print m with
  | error e =>
    rw [printed] at ok
    cases ok
  | ok bytes =>
    rw [printed] at ok
    cases ok
    exact ⟨rfl, bytes, rfl, w.settle_disk _ _ _⟩

theorem writeShardedWith_completed (distinct : (shards.map (·.1)).Nodup)
    (apart : ∀ s ∈ shards, fileName s.1 ≠ crossStackName) {m : Manifest}
    (ok : writeShardedWith codec json shards crossEdges layoutMeta recorded d = (w, .ok m)) :
    Completed codec json shards crossEdges recorded w.disk m := by
  rw [writeShardedWith] at ok
  split at ok
  · cases ok
  · rename_i checked
    dsimp only at ok
    split at ok
    · cases ok
    · rename_i w₁ entries code
      split at ok
      · cases ok
      · rename_i w₂ cross crossed
        obtain ⟨rfl, b, printed, last⟩ := writeManifest_ok ok
        obtain ⟨files, encodes, rfl, rfl⟩ := writeCode_ok code
        obtain ⟨nodup, foreign⟩ := checkForeigns_ok checked distinct
        rw [writeForeign_eq, writeShards, writeShards, ← List.foldl_append, ← writeShards] at crossed
        have names : (files ++ recorded.foreign.map fun f => (f.name, f.bytes)).map (·.1) =
            shards.map (·.1) ++ recorded.foreign.map (·.name) := by
          rw [List.map_append, encodes.names, List.map_map]
          rfl
        have written := writeShards_disk (readManifest json d).toOption (Write.start d)
          (names ▸ nodup)
        have away : ∀ f ∈ files ++ recorded.foreign.map fun f => (f.name, f.bytes),
            fileName f.1 ≠ crossStackName := by
          intro f mem
          rcases List.mem_append.mp mem with mem | mem
          · have named : f.1 ∈ shards.map (·.1) := encodes.names ▸ List.mem_map_of_mem mem
            obtain ⟨s, held, eq⟩ := List.mem_map.mp named
            rw [← eq]
            exact apart s held
          · obtain ⟨g, held, rfl⟩ := List.mem_map.mp mem
            exact (foreign g held).1
        have file : ∀ f ∈ files ++ recorded.foreign.map fun f => (f.name, f.bytes),
            w.disk (fileName f.1) = some f.2 := by
          intro f mem
          rw [last, Function.update_of_ne (fileName_ne_manifest f.1), ← written.1 f mem]
          rcases writeCross_ok crossed with ⟨_, rfl, _⟩ | ⟨_, _, _, _, eq⟩
          · rfl
          · rw [eq, Function.update_of_ne (away f mem)]
        refine ⟨rfl, ⟨b, printed, ?_⟩, ⟨files, encodes, rfl, fun f mem =>
          file f (List.mem_append_left _ mem)⟩, ?_, ?_⟩
        · rw [last, Function.update_self]
        · intro f mem
          exact ⟨file (f.name, f.bytes) (List.mem_append_right _ (List.mem_map.mpr ⟨f, mem, rfl⟩)),
            (foreign f mem).2⟩
        · rcases writeCross_ok crossed with ⟨empty, _, rfl⟩ | ⟨c, some_, encoded, rfl, eq⟩
          · exact .inl ⟨empty, rfl⟩
          · refine .inr ⟨c, some_, encoded, rfl, ?_⟩
            rw [last, Function.update_of_ne (by decide), eq, Function.update_self]

theorem Encodes.mem {files : List (String × Bytes)} (h : Encodes codec shards files)
    {f : String × Bytes} (mem : f ∈ files) : ∃ g, codec.encode g = .ok f.2 := by
  induction h with
  | nil => cases mem
  | @cons s f' _ _ one _ ih =>
    rcases List.mem_cons.mp mem with rfl | mem
    · exact ⟨s.2, one.2⟩
    · exact ih mem

theorem filter_code_entries (files : List (String × Bytes)) {foreign : List ForeignShard}
    (typed : ∀ f ∈ foreign, f.graphType ≠ Header.codeGraphType) :
    (files.map (fun f => shardEntry f.1 Header.codeGraphType f.2) ++
      foreignEntries foreign).filter (·.isCode) =
      files.map fun f => shardEntry f.1 Header.codeGraphType f.2 := by
  rw [List.filter_append, List.filter_eq_self.mpr, List.filter_eq_nil_iff.mpr, List.append_nil]
  · intro e mem
    obtain ⟨f, held, rfl⟩ := List.mem_map.mp mem
    rw [ShardEntry.isCode, shardEntry, beq_iff_eq]
    exact typed f held
  · intro e mem
    obtain ⟨f, _, rfl⟩ := List.mem_map.mp mem
    rfl

theorem Encodes.opened {files : List (String × Bytes)} (h : Encodes codec shards files)
    (there : ∀ f ∈ files, d (fileName f.1) = some f.2) {ms : List (String × MmapContainer)}
    (held : List.Forall₂ (fun (e : ShardEntry) q => q.1 = e.name ∧ ∃ b, d e.path = some b ∧
      MmapContainer.open_ r b = .ok q.2)
      (files.map fun f => shardEntry f.1 Header.codeGraphType f.2) ms) :
    List.Forall₂ (fun g q => q.1 = g.1 ∧ ∃ b, codec.encode g.2 = .ok b ∧
      MmapContainer.open_ r b = .ok q.2) shards ms := by
  induction h generalizing ms with
  | nil =>
    cases held
    exact .nil
  | @cons s f _ files one _ ih =>
    rw [List.forall_mem_cons] at there
    cases held with
    | cons first rest =>
      obtain ⟨named, b, here, opens⟩ := first
      have content : b = f.2 := Option.some.inj (here.symm.trans there.1)
      rw [content] at opens
      exact .cons ⟨named.trans one.1, f.2, one.2, opens⟩ (ih there.2 rest)

theorem Completed.opens (lossless : json.Lossless) {m : Manifest}
    (h : Completed codec json shards crossEdges recorded d m) :
    ∃ s, ShardedMmap.open_ r json d = .ok s ∧ Serves codec shards crossEdges m s := by
  obtain ⟨files, encodes, listed, held⟩ := h.code
  obtain ⟨b, printed, there⟩ := h.manifest
  have read : readManifest json d = .ok m := by
    rw [readManifest, there]
    dsimp only
    rw [lossless.probe m b printed]
    dsimp only
    rw [if_neg (not_not.mpr h.schema), lossless.read m b printed]
  have present : ∀ e ∈ m.shards, ∃ b, d e.path = some b ∧ hexXxhash64 b = e.contentHash ∧
      (e.isCode → ∃ c, MmapContainer.open_ r b = .ok c) := by
    rw [listed, List.forall_mem_append]
    constructor
    · intro e mem
      obtain ⟨f, file, rfl⟩ := List.mem_map.mp mem
      obtain ⟨g, encoded⟩ := encodes.mem file
      exact ⟨f.2, held f file, rfl, fun _ => codec.encode_opens g f.2 encoded⟩
    · intro e mem
      obtain ⟨f, file, rfl⟩ := List.mem_map.mp mem
      refine ⟨f.bytes, (h.foreign f file).1, rfl, fun code => ?_⟩
      rw [ShardEntry.isCode, shardEntry, beq_iff_eq] at code
      exact absurd code (h.foreign f file).2
  obtain ⟨ms, t, opened⟩ := openShards_total (r := r) 1 present
  have files_ : List.Forall₂ (fun (e : ShardEntry) q => q.1 = e.name ∧ ∃ b, d e.path = some b ∧
      MmapContainer.open_ r b = .ok q.2) (m.shards.filter (·.isCode)) ms := by
    rw [← codeReads_entries 1, List.forall₂_map_left_iff]
    apply (openShards_ok opened).2.imp
    intro p q both
    obtain ⟨b, here, _, opens⟩ := openEntry_steady.mp both.2
    exact ⟨both.1, b, here, opens⟩
  rw [listed, filter_code_entries files fun f mem => (h.foreign f mem).2] at files_
  rcases h.cross with ⟨empty, alone⟩ | ⟨c, some_, encoded, listedCross, crossHeld⟩
  · refine ⟨⟨m, ms, none⟩, ?_, rfl, encodes.opened held files_, .inl ⟨empty, rfl⟩⟩
    rw [ShardedMmap.open_, ShardedMmap.openDuring, read]
    dsimp only
    rw [opened]
    dsimp only
    rw [alone]
  · obtain ⟨k, opens⟩ := codec.encodeCross_opens _ _ encoded
    refine ⟨⟨m, ms, some k⟩, ?_, rfl, encodes.opened held files_,
      .inr ⟨c, k, some_, encoded, opens, rfl⟩⟩
    have entry : openEntry r (fun _ => d) t (crossEntry c) = .ok k :=
      openEntry_steady.mpr ⟨c, crossHeld, rfl, opens⟩
    rw [ShardedMmap.open_, ShardedMmap.openDuring, read]
    dsimp only
    rw [opened]
    dsimp only
    rw [listedCross]
    dsimp only
    rw [entry]

end Written

section Merged
variable {r : Rkyv Container} {G : Type} {codec : ShardCodec r G} {json : ManifestJson}

def written (log : List (String × Bytes)) : Set Bytes := {b | ∃ path, (path, b) ∈ log}

theorem contents_after (d : Disk) (log : List (String × Bytes)) (k : Nat) :
    contents (after d (log.take k)) ⊆ contents d ∪ written log := by
  rintro b ⟨path, held⟩
  rw [after_apply] at held
  cases last : lastTo (log.take k) path with
  | none =>
    rw [last] at held
    exact .inl ⟨path, held⟩
  | some b' =>
    rw [last] at held
    cases held
    exact .inr ⟨path, List.mem_of_mem_take (lastTo_mem last)⟩

/-- A write of a merged graph, stopped after any of its replacements, leaves a directory that
fails to open, or is served as the layout it held before, or as the new one; and a write that
completes is served as the new one. -/
theorem writeMerged_served (lossless : json.Lossless) (merged : Merged G)
    (layoutMeta : LayoutMeta) (recorded : Recorded) (d : Disk) :
    let out := writeMergedWith codec json merged layoutMeta recorded d
    let new := Serves codec (namedShards codec merged.graphs) merged.crossEdges
    (∀ k s, ShardedMmap.open_ r json (after d (out.1.log.take k)) = .ok s →
      (∃ m, out.2 = .ok m ∧ new m s) ∨ readManifest json d = .ok s.manifest ∧
        ∀ old before, old manifestName = d manifestName →
          ShardedMmap.open_ r json old = .ok before →
          Set.InjOn hexXxhash64 (contents d ∪ written out.1.log ∪ contents old) → s = before) ∧
    ∀ m, out.2 = .ok m → ∃ s, ShardedMmap.open_ r json (after d out.1.log) = .ok s ∧ new m s := by
  intro out new
  have last : out.1.ManifestLast d out.2 := writeShardedWith_last _ _ _ _ d
  have done : ∀ m, out.2 = .ok m →
      ∃ s, ShardedMmap.open_ r json (after d out.1.log) = .ok s ∧ new m s := by
    intro m ok
    rw [← last.tracks]
    exact (writeShardedWith_completed (namedShards_nodup _) (fun s => namedShards_ne_cross)
      (Prod.ext rfl ok)).opens lossless
  refine ⟨fun k s opened => ?_, done⟩
  rcases last.stopped k with kept | ⟨whole, m, ok⟩
  · right
    have read := (openDuring_ok opened).1
    rw [readManifest, kept, ← readManifest] at read
    refine ⟨read, fun old before same opened' apart => ?_⟩
    have read' := (openDuring_ok opened').1
    rw [readManifest, same, ← readManifest, read] at read'
    apply open_unique (apart.mono _) opened opened' (Except.ok.inj read')
    exact Set.union_subset_union_left _ (contents_after d out.1.log k)
  · left
    obtain ⟨s', opened', serves⟩ := done m ok
    rw [whole, last.tracks, opened'] at opened
    exact ⟨m, ok, Except.ok.inj opened ▸ serves⟩

end Merged

theorem Sample.json_lossless : Sample.json.Lossless := by
  have apart : Sample.manifest 2 ≠ Sample.manifest 1 := by decide +kernel
  constructor <;> intro m b printed <;> rw [json] at printed ⊢ <;> dsimp only at printed ⊢ <;>
    split at printed
  · rename_i one
    cases printed
    rw [one]
    rfl
  · split at printed
    · rename_i two
      cases printed
      rw [two]
      rfl
    · cases printed
  · rename_i one
    cases printed
    rw [one]
    rfl
  · split at printed
    · rename_i two
      cases printed
      rw [two]
      rfl
    · cases printed

/-- The second graph's layout, written where the first one's was. -/
theorem sample_served :
    ∃ s, ShardedMmap.open_ Sample.rkyv Sample.json
        (after Sample.disk (Sample.write 2 Sample.disk).1.log) = .ok s ∧
      Serves Sample.codec (namedShards Sample.codec [2]) [] (Sample.manifest 2) s :=
  (writeMerged_served Sample.json_lossless ⟨[2], [], []⟩ {} {} Sample.disk).2 (Sample.manifest 2)
    (by decide +kernel)

end Glia.Store
