import Glia.Kit.Replay
import Glia.Store.ContainerOpens

/-! A sharded layout: a manifest, one file a shard and one for the edges between them; how it is
written and how it is opened. -/
namespace Glia.Store

open Glia.Kit.Replay

def manifestVersion : Nat := 2
def manifestName : String := "manifest.json"
def crossStackName : String := "cross_stack.gmap"

section Manifest

structure ShardEntry where
  name : String
  path : String
  contentHash : String
  graphType : String
  deriving DecidableEq, Repr

def ShardEntry.isCode (e : ShardEntry) : Bool := e.graphType == Header.codeGraphType

structure RepoMeta where
  id : Nat
  label : String
  root : Option String := none
  rev : Option String := none
  deriving DecidableEq, Repr

structure PassUndo where
  node : Nat
  confidence : String
  deriving DecidableEq, Repr

structure MemberMeta where
  name : String
  source : String
  buildStamp : String := ""
  deriving DecidableEq, Repr

abbrev Inputs := List (String × String)

structure Manifest where
  schemaVersion : Nat
  engineVersion : String
  buildStamp : String
  shards : List ShardEntry
  cross : Option ShardEntry
  repos : List RepoMeta := []
  parseErrors : List String := []
  externalInputs : Inputs := []
  passUndo : List PassUndo := []
  externalInputsByRepo : List (Nat × Inputs) := []
  members : List MemberMeta := []
  deriving DecidableEq, Repr

/-- What the JSON library does for a manifest: the probe of its schema number, the whole parse
and the pretty print. -/
structure ManifestJson where
  probe : Bytes → Except String Nat
  read : Bytes → Except String Manifest
  print : Manifest → Except String Bytes

structure ManifestJson.Lossless (json : ManifestJson) : Prop where
  probe : ∀ m b, json.print m = .ok b → json.probe b = .ok m.schemaVersion
  read : ∀ m b, json.print m = .ok b → json.read b = .ok m

end Manifest

abbrev Disk := String → Option Bytes

/-- The directory at each of a reader's accesses to it, in order. -/
abbrev View := Nat → Disk

section Open
variable (r : Rkyv Container) (json : ManifestJson)

def readManifest (d : Disk) : Except StoreError Manifest :=
  match d manifestName with
  | none => .error (.io "not found")
  | some bytes =>
    match json.probe bytes with
    | .error e => .error (.manifestJson e)
    | .ok version =>
      if version ≠ manifestVersion then .error (.manifestSchemaVersion version)
      else match json.read bytes with
        | .error e => .error (.manifestJson e)
        | .ok m => .ok m

/-- The shard's bytes once they match the manifest; the two accesses are the existence check and
the read. -/
def verifiedBytes (e : ShardEntry) (exists_ read : Disk) : Except StoreError Bytes :=
  if (exists_ e.path).isNone then .error (.shardMissing e.name)
  else match read e.path with
    | none => .error (.io "not found")
    | some bytes =>
      let got := hexXxhash64 bytes
      if got ≠ e.contentHash then .error (.contentHashMismatch e.name e.contentHash got)
      else .ok bytes

def verifyHash (e : ShardEntry) (exists_ read : Disk) : Except StoreError Unit :=
  (verifiedBytes e exists_ read).map fun _ => ()

def MmapContainer.openPath (d : Disk) (path : String) : Except StoreError MmapContainer :=
  match d path with
  | none => .error (.io "not found")
  | some bytes => open_ r bytes

structure ShardedMmap where
  manifest : Manifest
  shards : List (String × MmapContainer)
  cross : Option MmapContainer
  deriving DecidableEq, Repr

/-- Verify a file, then open it again by its path, from the reader's `t`-th access on. -/
def openEntry (view : View) (t : Nat) (e : ShardEntry) : Except StoreError MmapContainer :=
  match verifyHash e (view t) (view (t + 1)) with
  | .error err => .error err
  | .ok () => MmapContainer.openPath r (view (t + 2)) e.path

/-- The code shards in manifest order, and the count of accesses made; a shard of another domain
is verified only. -/
def openShards (view : View) (t : Nat) :
    List ShardEntry → Except StoreError (List (String × MmapContainer) × Nat)
  | [] => .ok ([], t)
  | e :: rest =>
    if e.isCode then
      match openEntry r view t e with
      | .error err => .error err
      | .ok m =>
        match openShards view (t + 3) rest with
        | .error err => .error err
        | .ok (ms, t') => .ok ((e.name, m) :: ms, t')
    else
      match verifyHash e (view t) (view (t + 1)) with
      | .error err => .error err
      | .ok () => openShards view (t + 2) rest

/-- Open a layout whose directory may change between the reader's accesses. -/
def ShardedMmap.openDuring (view : View) : Except StoreError ShardedMmap :=
  match readManifest json (view 0) with
  | .error err => .error err
  | .ok manifest =>
    match openShards r view 1 manifest.shards with
    | .error err => .error err
    | .ok (shards, t) =>
      match manifest.cross with
      | none => .ok ⟨manifest, shards, none⟩
      | some e =>
        match openEntry r view t e with
        | .error err => .error err
        | .ok m => .ok ⟨manifest, shards, some m⟩

def ShardedMmap.open_ (d : Disk) : Except StoreError ShardedMmap := openDuring r json fun _ => d

end Open

section Write

/-- What a shard's graph is to a layout writer. Every file it encodes opens. -/
structure ShardCodec (r : Rkyv Container) (G : Type) where
  repo : G → Nat
  encode : G → Except StoreError Bytes
  encodeCross : List Edge → Except StoreError Bytes
  encode_opens : ∀ g b, encode g = .ok b → ∃ m, MmapContainer.open_ r b = .ok m
  encodeCross_opens : ∀ es b, encodeCross es = .ok b → ∃ m, MmapContainer.open_ r b = .ok m

structure ForeignShard where
  name : String
  graphType : String
  bytes : Bytes
  deriving DecidableEq, Repr

structure LayoutMeta where
  repos : List RepoMeta := []
  parseErrors : List String := []
  deriving DecidableEq, Repr

structure Recorded where
  engineVersion : String := ""
  buildStamp : String := ""
  externalInputs : Inputs := []
  externalInputsByRepo : List (Nat × Inputs) := []
  passUndo : List PassUndo := []
  foreign : List ForeignShard := []
  members : List MemberMeta := []
  deriving DecidableEq, Repr

def plainChar (c : Char) : Bool :=
  c.isAlphanum || c == '-' || c == '_' || c == '.'

def fileName (name : String) : String := name ++ ".gmap"

def checkForeign (f : ForeignShard) (taken : List String) : Except StoreError Unit :=
  let bad (why : String) : Except StoreError Unit := .error (.io
    s!"foreign shard {f.name.quote} (graph_type {f.graphType.quote}): {why}")
  if f.name.isEmpty || f.name.toList.head? == some '.' || !f.name.toList.all plainChar then
    bad "the name must be a plain file stem ([A-Za-z0-9._-], no leading '.')"
  else if f.graphType.isEmpty || f.graphType == Header.codeGraphType then
    bad "a foreign shard's graph_type must be set and not the code domain's"
  else if fileName f.name == crossStackName || taken.contains f.name then
    bad "another shard of the layout already has this name"
  else .ok ()

def checkForeigns (taken : List String) : List ForeignShard → Except StoreError Unit
  | [] => .ok ()
  | f :: rest =>
    match checkForeign f taken with
    | .error err => .error err
    | .ok () => checkForeigns (taken ++ [f.name]) rest

/-- A write under way: the directory, and every file replaced so far, in order. -/
structure Write where
  disk : Disk
  log : List (String × Bytes)

def Write.start (d : Disk) : Write := ⟨d, []⟩

def Write.replace (w : Write) (path : String) (bytes : Bytes) : Write :=
  ⟨Function.update w.disk path (some bytes), w.log ++ [(path, bytes)]⟩

def onDiskIs (d : Disk) (path : String) (bytes : Bytes) : Bool := d path == some bytes

/-- Leave a file that the prior manifest lists with this hash and that still holds these bytes. -/
def Write.settle (w : Write) (listed : Bool) (path : String) (bytes : Bytes) : Write :=
  if listed && onDiskIs w.disk path bytes then w else w.replace path bytes

def listedShard (prior : Option Manifest) (name hash : String) : Bool :=
  prior.any fun m => m.shards.any fun e => e.name == name && e.contentHash == hash

def listedCross (prior : Option Manifest) (hash : String) : Bool :=
  (prior.bind (·.cross)).any fun e => e.contentHash == hash

def shardEntry (name graphType : String) (bytes : Bytes) : ShardEntry where
  name := name
  path := fileName name
  contentHash := hexXxhash64 bytes
  graphType := graphType

def crossEntry (bytes : Bytes) : ShardEntry where
  name := "cross_stack"
  path := crossStackName
  contentHash := hexXxhash64 bytes
  graphType := Header.codeGraphType

variable {r : Rkyv Container} {G : Type} (codec : ShardCodec r G) (json : ManifestJson)

def writeShard (prior : Option Manifest) (w : Write) (name : String) (bytes : Bytes) : Write :=
  w.settle (listedShard prior name (hexXxhash64 bytes)) (fileName name) bytes

def writeCode (prior : Option Manifest) (w : Write) :
    List (String × G) → Write × Except StoreError (List ShardEntry)
  | [] => (w, .ok [])
  | (name, g) :: rest =>
    match codec.encode g with
    | .error err => (w, .error err)
    | .ok bytes =>
      match writeCode prior (writeShard prior w name bytes) rest with
      | (w, .error err) => (w, .error err)
      | (w, .ok entries) => (w, .ok (shardEntry name Header.codeGraphType bytes :: entries))

def writeForeign (prior : Option Manifest) (w : Write) (foreign : List ForeignShard) : Write :=
  foreign.foldl (fun w f => writeShard prior w f.name f.bytes) w

def foreignEntries (foreign : List ForeignShard) : List ShardEntry :=
  foreign.map fun f => shardEntry f.name f.graphType f.bytes

def writeCross (prior : Option Manifest) (w : Write) (edges : List Edge) :
    Write × Except StoreError (Option ShardEntry) :=
  if edges.isEmpty then (w, .ok none)
  else
    match codec.encodeCross edges with
    | .error err => (w, .error err)
    | .ok bytes =>
      (w.settle (listedCross prior (hexXxhash64 bytes)) crossStackName bytes,
        .ok (some (crossEntry bytes)))

def manifestOf (layoutMeta : LayoutMeta) (recorded : Recorded) (shards : List ShardEntry)
    (cross : Option ShardEntry) : Manifest where
  schemaVersion := manifestVersion
  engineVersion := recorded.engineVersion
  buildStamp := recorded.buildStamp
  shards := shards
  cross := cross
  repos := layoutMeta.repos.mergeSort fun a b => a.id < b.id || (a.id == b.id && a.label ≤ b.label)
  parseErrors := layoutMeta.parseErrors
  externalInputs := recorded.externalInputs
  passUndo := recorded.passUndo
  externalInputsByRepo := recorded.externalInputsByRepo
  members := recorded.members

/-- The manifest, last; one that is already on disk is left. -/
def writeManifest (w : Write) (m : Manifest) : Write × Except StoreError Manifest :=
  match json.print m with
  | .error e => (w, .error (.manifestJson e))
  | .ok bytes => (w.settle true manifestName bytes, .ok m)

def writeShardedWith (shards : List (String × G)) (crossEdges : List Edge)
    (layoutMeta : LayoutMeta) (recorded : Recorded) (d : Disk) :
    Write × Except StoreError Manifest :=
  match checkForeigns (shards.map (·.1)) recorded.foreign with
  | .error err => (.start d, .error err)
  | .ok () =>
    let prior := (readManifest json d).toOption
    match writeCode codec prior (.start d) shards with
    | (w, .error err) => (w, .error err)
    | (w, .ok entries) =>
      match writeCross codec prior (writeForeign prior w recorded.foreign) crossEdges with
      | (w, .error err) => (w, .error err)
      | (w, .ok cross) => writeManifest json w
          (manifestOf layoutMeta recorded (entries ++ foreignEntries recorded.foreign) cross)

structure Merged (G : Type) where
  graphs : List G
  crossEdges : List Edge := []
  passUndo : List (NodeId × Confidence) := []

def confidenceName : Confidence → String
  | .strong => "strong"
  | .medium => "medium"
  | .weak => "weak"

def passUndoEntries (undo : List (NodeId × Confidence)) : List PassUndo :=
  (undo.map fun p => PassUndo.mk p.1 (confidenceName p.2)).mergeSort fun a b => a.node ≤ b.node

def twoDigits (i : Nat) : String := if i < 10 then "0" ++ toString i else toString i

def shardName (count repo i : Nat) : String :=
  if count = 1 then "repo-" ++ toString repo
  else "repo-" ++ toString repo ++ "-" ++ twoDigits i

def namedShards (graphs : List G) : List (String × G) :=
  graphs.mapIdx fun i g => (shardName graphs.length (codec.repo g) i, g)

def writeMergedWith (merged : Merged G) (layoutMeta : LayoutMeta) (recorded : Recorded)
    (d : Disk) : Write × Except StoreError Manifest :=
  writeShardedWith codec json (namedShards codec merged.graphs) merged.crossEdges layoutMeta
    { recorded with passUndo := passUndoEntries merged.passUndo } d

end Write

end Glia.Store
