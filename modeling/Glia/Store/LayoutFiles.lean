import Glia.Store.LayoutPrefix

/-! The files of a layout: which ones a write replaces, and whether the timeline sidecar beside
them is one. -/
namespace Glia.Store

def timelineFile : String := "timeline.gmap"
def parseCacheFile : String := "parse_cache.bin"

section Names
variable {G : Type}

def layoutFiles (shards : List (String × G)) (foreign : List ForeignShard)
    (crossEdges : List Edge) : List String :=
  (shards.map fun s => fileName s.1) ++ (foreign.map fun f => fileName f.name) ++
    (if crossEdges.isEmpty then [] else [crossStackName]) ++ [manifestName]

theorem fileName_timeline {name : String} : fileName name = timelineFile ↔ name = "timeline" := by
  constructor
  · intro same
    have own : timelineFile = fileName "timeline" := by decide
    exact fileName_inj (same.trans own)
  · intro eq
    rw [eq]
    decide

theorem fileName_ne_parseCache (name : String) : fileName name ≠ parseCacheFile := by
  intro same
  have last := congrArg (fun s : String => s.toList.getLast?) same
  have suffix : ".gmap".toList = ".gma".toList ++ ['p'] := by decide
  have other : parseCacheFile.toList.getLast? = some 'n' := by decide
  rw [other, fileName, String.toList_append, suffix, ← List.append_assoc,
    List.getLast?_concat] at last
  cases last

theorem shardName_ne_timeline (count repo i : Nat) : shardName count repo i ≠ "timeline" := by
  intro same
  have starts := congrArg (fun s : String => s.toList.head?) same
  have first : "repo-".toList = 'r' :: "epo-".toList := by decide
  have other : "timeline".toList.head? = some 't' := by decide
  rw [other, shardName] at starts
  split at starts <;>
    simp only [String.toList_append, List.append_assoc, first, List.cons_append,
      List.head?_cons] at starts <;>
    cases starts

end Names

section Replaced

/-- A stretch of a write: it replaces some of `files`, each at most once, and nothing else. -/
structure Write.Within (files : List String) (w w' : Write) : Prop where
  log : ∃ more, w'.log = w.log ++ more ∧ (more.map Prod.fst).Sublist files
  frame : ∀ path, path ∉ files → w'.disk path = w.disk path

namespace Write.Within
variable {files more : List String} {w w' w'' : Write}

theorem refl (w : Write) : Within [] w w where
  log := ⟨[], by rw [List.append_nil], List.nil_sublist _⟩
  frame _ _ := rfl

theorem trans (h : Within files w w') (h' : Within more w' w'') :
    Within (files ++ more) w w'' where
  log := by
    obtain ⟨l, eq, sub⟩ := h.log
    obtain ⟨l', eq', sub'⟩ := h'.log
    refine ⟨l ++ l', by rw [eq', eq, List.append_assoc], ?_⟩
    rw [List.map_append]
    exact sub.append sub'
  frame path out := by
    rw [List.mem_append, not_or] at out
    rw [h'.frame path out.2, h.frame path out.1]

theorem mono (h : Within files w w') (sub : files.Sublist more) : Within more w w' where
  log := by
    obtain ⟨l, eq, inside⟩ := h.log
    exact ⟨l, eq, inside.trans sub⟩
  frame path out := h.frame path fun mem => out (sub.subset mem)

theorem settle (w : Write) (listed : Bool) (path : String) (bytes : Bytes) :
    Within [path] w (w.settle listed path bytes) where
  log := by
    rcases w.settle_eq listed path bytes with ⟨eq, _⟩ | eq
    · exact ⟨[], by rw [eq, List.append_nil], List.nil_sublist _⟩
    · exact ⟨[(path, bytes)], by rw [eq, Write.replace], List.Sublist.refl _⟩
  frame other out := by
    rw [List.mem_singleton] at out
    rw [Write.settle_disk, Function.update_of_ne out]

end Write.Within

variable {r : Rkyv Container} {G : Type} (codec : ShardCodec r G) (json : ManifestJson)
  (prior : Option Manifest)

theorem writeCode_within (w : Write) (shards : List (String × G)) :
    w.Within (shards.map fun s => fileName s.1) (writeCode codec prior w shards).1 := by
  induction shards generalizing w with
  | nil => exact .refl w
  | cons s rest ih =>
    rw [writeCode]
    cases codec.encode s.2 with
    | error err => exact (Write.Within.refl w).mono (List.nil_sublist _)
    | ok bytes =>
      have step := (Write.Within.settle w (listedShard prior s.1 (hexXxhash64 bytes))
        (fileName s.1) bytes).trans (ih _)
      dsimp only
      split
      · rename_i w' err eq
        rw [show w' = (writeCode codec prior (writeShard prior w s.1 bytes) rest).1 by rw [eq]]
        exact step
      · rename_i w' entries eq
        rw [show w' = (writeCode codec prior (writeShard prior w s.1 bytes) rest).1 by rw [eq]]
        exact step

theorem writeForeign_within (w : Write) (foreign : List ForeignShard) :
    w.Within (foreign.map fun f => fileName f.name) (writeForeign prior w foreign) := by
  induction foreign generalizing w with
  | nil => exact .refl w
  | cons f rest ih => exact (Write.Within.settle w _ _ _).trans (ih _)

theorem writeCross_within (w : Write) (edges : List Edge) :
    w.Within (if edges.isEmpty then [] else [crossStackName])
      (writeCross codec prior w edges).1 := by
  unfold writeCross
  split
  · exact .refl w
  · cases codec.encodeCross edges with
    | error err => exact (Write.Within.refl w).mono (List.nil_sublist _)
    | ok bytes => exact .settle w _ _ _

theorem writeManifest_within (w : Write) (m : Manifest) :
    w.Within [manifestName] (writeManifest json w m).1 := by
  unfold writeManifest
  cases json.print m with
  | error err => exact (Write.Within.refl w).mono (List.nil_sublist _)
  | ok bytes => exact .settle w _ _ _

/-- A write, finished or stopped by an error, replaces files of the layout only, each once. -/
theorem writeShardedWith_within (shards : List (String × G)) (crossEdges : List Edge)
    (layoutMeta : LayoutMeta) (recorded : Recorded) (d : Disk) :
    (Write.start d).Within (layoutFiles shards recorded.foreign crossEdges)
      (writeShardedWith codec json shards crossEdges layoutMeta recorded d).1 := by
  unfold writeShardedWith layoutFiles
  cases checkForeigns (shards.map (·.1)) recorded.foreign with
  | error err => exact (Write.Within.refl _).mono (List.nil_sublist _)
  | ok u =>
    dsimp only
    have code := writeCode_within codec (readManifest json d).toOption (.start d) shards
    cases coded : writeCode codec (readManifest json d).toOption (.start d) shards with
    | mk w res =>
      rw [coded] at code
      cases res with
      | error err =>
        apply code.mono
        rw [List.append_assoc, List.append_assoc]
        exact List.sublist_append_left _ _
      | ok entries =>
        have foreign := code.trans
          (writeForeign_within (readManifest json d).toOption w recorded.foreign)
        have cross := foreign.trans (writeCross_within codec (readManifest json d).toOption
          (writeForeign (readManifest json d).toOption w recorded.foreign) crossEdges)
        dsimp only
        cases crossed : writeCross codec (readManifest json d).toOption
            (writeForeign (readManifest json d).toOption w recorded.foreign) crossEdges with
        | mk w' res' =>
          rw [crossed] at cross
          cases res' with
          | error err => exact cross.mono (List.sublist_append_left _ _)
          | ok c => exact cross.trans (writeManifest_within json w' _)

end Replaced

section Apart
variable {r : Rkyv Container} {G : Type} (codec : ShardCodec r G) (json : ManifestJson)

/-- The layout's files are distinct, none is a sidecar's, a write replaces only them, each at
most once, and it leaves the timeline as it was. -/
structure ArtifactsApart (merged : Merged G) (layoutMeta : LayoutMeta) (recorded : Recorded)
    (d : Disk) : Prop where
  distinct : (layoutFiles (namedShards codec merged.graphs) recorded.foreign
    merged.crossEdges).Nodup
  noTimeline : timelineFile ∉ layoutFiles (namedShards codec merged.graphs) recorded.foreign
    merged.crossEdges
  noParseCache : parseCacheFile ∉ layoutFiles (namedShards codec merged.graphs)
    recorded.foreign merged.crossEdges
  replaced : ((writeMergedWith codec json merged layoutMeta recorded d).1.log.map
    Prod.fst).Sublist (layoutFiles (namedShards codec merged.graphs) recorded.foreign
      merged.crossEdges)
  timeline : (writeMergedWith codec json merged layoutMeta recorded d).1.disk timelineFile =
    d timelineFile

theorem layoutFiles_nodup {graphs : List G} {foreign : List ForeignShard}
    (accepted : checkForeigns ((namedShards codec graphs).map (·.1)) foreign = .ok ())
    (crossEdges : List Edge) :
    (layoutFiles (namedShards codec graphs) foreign crossEdges).Nodup := by
  obtain ⟨names, typed⟩ := checkForeigns_ok accepted (namedShards_nodup graphs)
  have shards : ((namedShards codec graphs).map (fun s => fileName s.1) ++
      foreign.map fun f => fileName f.name).Nodup := by
    have files := names.map (f := fileName) fun _ _ same => fileName_inj same
    rw [List.map_append, List.map_map, List.map_map] at files
    exact files
  have others : ∀ path ∈ (namedShards codec graphs).map (fun s => fileName s.1) ++
      foreign.map fun f => fileName f.name, path ≠ crossStackName ∧ path ≠ manifestName := by
    intro path mem
    rcases List.mem_append.mp mem with code | added
    · obtain ⟨s, inside, rfl⟩ := List.mem_map.mp code
      exact ⟨namedShards_ne_cross inside, fileName_ne_manifest _⟩
    · obtain ⟨f, inside, rfl⟩ := List.mem_map.mp added
      exact ⟨(typed f inside).1, fileName_ne_manifest _⟩
  have fixed : crossStackName ≠ manifestName := by decide
  unfold layoutFiles
  split
  · rw [List.append_nil, List.nodup_append]
    refine ⟨shards, List.nodup_singleton _, fun path mem last at' eq => ?_⟩
    rw [List.mem_singleton] at at'
    exact (others path mem).2 (eq.trans at')
  · rw [List.append_assoc, List.nodup_append]
    refine ⟨shards, by simpa using fixed, fun path mem last at' eq => ?_⟩
    rw [List.singleton_append, List.mem_cons, List.mem_singleton] at at'
    rcases at' with cross | whole
    · exact (others path mem).1 (eq.trans cross)
    · exact (others path mem).2 (eq.trans whole)

theorem timeline_mem_layoutFiles {graphs : List G} {foreign : List ForeignShard}
    {crossEdges : List Edge} :
    timelineFile ∈ layoutFiles (namedShards codec graphs) foreign crossEdges ↔
      ∃ f ∈ foreign, f.name = "timeline" := by
  constructor
  · intro mem
    unfold layoutFiles at mem
    rw [List.mem_append, List.mem_append, List.mem_append] at mem
    rcases mem with ((code | added) | cross) | whole
    · obtain ⟨s, inside, eq⟩ := List.mem_map.mp code
      obtain ⟨i, lt, rfl⟩ := List.mem_mapIdx.mp inside
      exact absurd (fileName_timeline.mp eq) (shardName_ne_timeline _ _ _)
    · obtain ⟨f, inside, eq⟩ := List.mem_map.mp added
      exact ⟨f, inside, fileName_timeline.mp eq⟩
    · split at cross
      · cases cross
      · exact absurd (List.mem_singleton.mp cross) (by decide)
    · exact absurd (List.mem_singleton.mp whole) (by decide)
  · intro ⟨f, inside, eq⟩
    have there := List.mem_map_of_mem (f := fun f : ForeignShard => fileName f.name) inside
    rw [fileName_timeline.mpr eq] at there
    unfold layoutFiles
    rw [List.mem_append, List.mem_append, List.mem_append]
    exact .inl (.inl (.inr there))

theorem parseCache_notMem_layoutFiles {shards : List (String × G)} {foreign : List ForeignShard}
    {crossEdges : List Edge} : parseCacheFile ∉ layoutFiles shards foreign crossEdges := by
  intro mem
  unfold layoutFiles at mem
  rw [List.mem_append, List.mem_append, List.mem_append] at mem
  rcases mem with ((code | added) | cross) | whole
  · obtain ⟨s, _, eq⟩ := List.mem_map.mp code
    exact fileName_ne_parseCache _ eq
  · obtain ⟨f, _, eq⟩ := List.mem_map.mp added
    exact fileName_ne_parseCache _ eq
  · split at cross
    · cases cross
    · exact absurd (List.mem_singleton.mp cross) (by decide)
  · exact absurd (List.mem_singleton.mp whole) (by decide)

/-- With foreign shards the writer accepts, the artifacts are apart just when none of those is
named `timeline`. -/
theorem artifactsApart_iff (merged : Merged G) (layoutMeta : LayoutMeta) (recorded : Recorded)
    (d : Disk)
    (accepted : checkForeigns ((namedShards codec merged.graphs).map (·.1)) recorded.foreign =
      .ok ()) :
    ArtifactsApart codec json merged layoutMeta recorded d ↔
      ∀ f ∈ recorded.foreign, f.name ≠ "timeline" := by
  constructor
  · intro apart f inside named
    exact apart.noTimeline ((timeline_mem_layoutFiles codec).mpr ⟨f, inside, named⟩)
  · intro unnamed
    have within := writeShardedWith_within codec json (namedShards codec merged.graphs)
      merged.crossEdges layoutMeta
      { recorded with passUndo := passUndoEntries merged.passUndo } d
    have none : timelineFile ∉ layoutFiles (namedShards codec merged.graphs) recorded.foreign
        merged.crossEdges := by
      intro mem
      obtain ⟨f, inside, named⟩ := (timeline_mem_layoutFiles codec).mp mem
      exact unnamed f inside named
    obtain ⟨more, eq, sub⟩ := within.log
    refine ⟨layoutFiles_nodup codec accepted _, none, parseCache_notMem_layoutFiles, ?_,
      within.frame timelineFile none⟩
    rw [writeMergedWith, eq]
    exact sub

end Apart

namespace Sample

/-- A shard of another domain, of the sidecar's name. -/
def renamed : Recorded where
  foreign := [⟨"timeline", "docs", [5]⟩]

def renamedManifest : Manifest :=
  manifestOf {} renamed [shardEntry "repo-1" Header.codeGraphType
    (preamble preambleLen 1 ++ [1]), shardEntry "timeline" "docs" [5]] none

def renamedJson : ManifestJson where
  probe b := if b = [1] then .ok manifestVersion else .error "expected value"
  read b := if b = [1] then .ok renamedManifest else .error "expected value"
  print m := if m = renamedManifest then .ok [1] else .error "unprintable"

def historied : Disk := fun path => if path = timelineFile then some [9] else none

/-- The one graph's layout, with no shard of another domain, leaves the timeline. -/
theorem artifactsApart_plain : ArtifactsApart codec json ⟨[1], [], []⟩ {} {} historied :=
  (artifactsApart_iff codec json ⟨[1], [], []⟩ {} {} historied rfl).mpr fun _ mem =>
    (nomatch mem)

/-- A shard the writer accepts takes the timeline's file, and a write that succeeds puts its
bytes there. -/
theorem timeline_overwritten :
    checkForeigns ((namedShards codec [1]).map (·.1)) renamed.foreign = .ok () ∧
      (writeMergedWith codec renamedJson ⟨[1], [], []⟩ {} renamed historied).2 =
        .ok renamedManifest ∧
      (writeMergedWith codec renamedJson ⟨[1], [], []⟩ {} renamed historied).1.disk
        timelineFile = some [5] ∧
      historied timelineFile = some [9] ∧
      ¬ ArtifactsApart codec renamedJson ⟨[1], [], []⟩ {} renamed historied := by
  have moved : (writeMergedWith codec renamedJson ⟨[1], [], []⟩ {} renamed historied).1.disk
      timelineFile = some [5] := by decide +kernel
  have before : historied timelineFile = some [9] := by decide
  refine ⟨by decide +kernel, by decide +kernel, moved, before, fun apart => ?_⟩
  have kept := apart.timeline
  rw [moved, before] at kept
  exact absurd kept (by decide)

end Sample

end Glia.Store
