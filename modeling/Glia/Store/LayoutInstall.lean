import Glia.Kit.Replay
import Glia.Store.LayoutFiles
import Mathlib

/-! Installing a layout built elsewhere: the checks on an offer, the staged swap of its files and
the swap's roll-back, with the file operations that fail given by a plan. -/
namespace Glia.Store.Install

open Glia.Kit.FileMoves

def layoutMaxBytes : Nat := 2 ^ 30
def layoutMaxEntryBytes : Nat := 512 * 2 ^ 20
def layoutMaxEntries : Nat := 4096
def layoutMaxName : Nat := 128

def selfIgnoreName : String := ".gitignore"
def selfIgnore : Bytes := "# written by glia - this directory is regenerated\n*\n".toUTF8.toList

def selfIgnoreTmp (pid : Nat) : String := selfIgnoreName ++ "." ++ toString pid ++ ".tmp"

section Offer

inductive OfferError where
  | tooManyFiles (count : Nat)
  | badName (name why : String)
  | twice (name : String)
  | overCaps
  | noManifest
  | manifestJson (why : String)
  | otherBuild (stamp : String)
  | otherRepo
  | stray (name : String)
  deriving DecidableEq, Repr

def plainChar (c : Char) : Bool :=
  c.isAlphanum || c == '.' || c == '_' || c == '+' || c == '-'

def badName (name : String) : Option String :=
  if name.isEmpty || layoutMaxName < name.utf8ByteSize || !name.toList.all plainChar ||
      name == "." || name == ".." then
    some "not a plain file name"
  else if name != manifestName &&
      (!".gmap".toList.isSuffixOf name.toList || name == timelineFile) then
    some "not manifest.json or a shard"
  else none

def namedFiles (m : Manifest) : List String := (m.shards ++ m.cross.toList).map (·.path)

def checkEntries (seen : List String) (total : Nat) :
    List (String × Bytes) → Except OfferError Unit
  | [] => .ok ()
  | (name, bytes) :: rest =>
    match badName name with
    | some why => .error (.badName name why)
    | none =>
      if seen.contains name then .error (.twice name)
      else if layoutMaxEntryBytes < bytes.length || layoutMaxBytes < total + bytes.length then
        .error .overCaps
      else checkEntries (name :: seen) (total + bytes.length) rest

structure Site where
  json : ManifestJson
  buildStamp : String
  repoId : Nat
  /-- What a local build of this checkout records for its repos. -/
  repos : List RepoMeta
  pid : Nat
  /-- The `path` texts of a manifest's shards and cross shard, whatever its schema; none where it
  is not JSON. -/
  lenientPaths : Bytes → List String
  /-- Why the layout does not load as it is. -/
  verify : Disk → Option String

def checkOffer (site : Site) (entries : List (String × Bytes)) : Except OfferError Bytes :=
  if layoutMaxEntries < entries.length then .error (.tooManyFiles entries.length)
  else
    match checkEntries [] 0 entries with
    | .error e => .error e
    | .ok () =>
      match entries.lookup manifestName with
      | none => .error .noManifest
      | some bytes =>
        match site.json.read bytes with
        | .error e => .error (.manifestJson e)
        | .ok m =>
          if m.buildStamp ≠ site.buildStamp then .error (.otherBuild m.buildStamp)
          else if m.repos.map (·.id) ≠ [site.repoId] ∨ m.members ≠ [] then .error .otherRepo
          else
            match ((entries.map Prod.fst).insertionSort (· ≤ ·)).find? fun n =>
                n != manifestName && !(namedFiles m).contains n with
            | some name => .error (.stray name)
            | none => (site.json.print { m with repos := site.repos }).mapError .manifestJson

end Offer

section Swap

/-- The layout directory and the two halves of the staging directory beside it. -/
structure Files where
  live : Disk
  new : Disk
  old : Disk

/-- Which files survive the removal of the staging directory that stops half-way. -/
structure Survivors where
  new : String → Bool
  old : String → Bool

/-- The file operations that fail. A write that fails may leave part of its bytes behind; a query
that fails answers that there is no file. -/
structure Faults where
  makeDir : Bool := false
  clearStage : Option Survivors := none
  makeStage : Bool := false
  write : String → Option (Option Bytes) := fun _ => none
  readOld : Bool := false
  query : String → Bool := fun _ => false
  copyOld : Option (Option Bytes) := none
  setAside : String → Bool := fun _ => false
  place : String → Bool := fun _ => false
  readIgnore : Bool := false
  writeIgnore : Option (Option Bytes) := none
  placeIgnore : Bool := false
  date : Bool := false
  remove : String → Bool := fun _ => false
  restore : String → Bool := fun _ => false
  dropStage : Option Survivors := none

inductive Reason where
  | io (what name : String)
  | verify (why : String)
  deriving DecidableEq, Repr

/-- What a write that failed leaves under its name. -/
def torn (d : Disk) (name : String) : Option Bytes → Disk
  | none => d
  | some bytes => Function.update d name (some bytes)

def removeStage (fault : Option Survivors) (fs : Files) : Files :=
  match fault with
  | none => { fs with new := fun _ => none, old := fun _ => none }
  | some left =>
    { fs with
      new := fun n => if left.new n then fs.new n else none
      old := fun n => if left.old n then fs.old n else none }

variable (f : Faults)

def writeStaged (manifest : Bytes) (fs : Files) : List (String × Bytes) → Files × Option String
  | [] => (fs, none)
  | (name, bytes) :: rest =>
    match f.write name with
    | some left => ({ fs with new := torn fs.new name left }, some name)
    | none =>
      let bytes := if name = manifestName then manifest else bytes
      writeStaged manifest { fs with new := Function.update fs.new name (some bytes) } rest

def isFile (d : Disk) (name : String) : Bool := (d name).isSome && !f.query name

def oldNamedFiles (site : Site) (d : Disk) : List String :=
  if f.readOld then []
  else
    match d manifestName with
    | none => []
    | some bytes =>
      (((site.lenientPaths bytes).filter fun n => n != manifestName && (badName n).isNone
        ).insertionSort (· ≤ ·)).dedup

structure Swap where
  order : List String
  orphans : List String

def shardOrder (entries : List (String × Bytes)) : List String :=
  ((entries.map Prod.fst).filter (· != manifestName)).insertionSort (· ≤ ·)

def Swap.stage (site : Site) (fs : Files) (entries : List (String × Bytes)) (manifest : Bytes) :
    Files × Except Reason Swap :=
  if f.makeDir then (fs, .error (.io "stage" ""))
  else
    let fs := removeStage f.clearStage fs
    if f.makeStage then (fs, .error (.io "stage" ""))
    else
      match writeStaged f manifest fs entries with
      | (fs, some name) => (removeStage f.dropStage fs, .error (.io "stage" name))
      | (fs, none) =>
        let shards := shardOrder entries
        let orphans := (oldNamedFiles f site fs.live).filter fun n =>
          !shards.contains n && isFile f fs.live n
        (fs, .ok ⟨shards ++ [manifestName], orphans⟩)

/-- A swap under way: the files, and the names placed in the layout directory and kept in `old`. -/
structure Moves where
  files : Files
  placed : List String := []
  kept : List String := []

abbrev Step := Except (Reason × Moves) Moves

def setAside (what name : String) (m : Moves) : Step :=
  if f.setAside name then .error (.io what name, m)
  else
    match moveTo m.files.live m.files.old name with
    | none => .error (.io what name, m)
    | some (live, old) =>
      .ok { m with files := { m.files with live := live, old := old }, kept := m.kept ++ [name] }

def keep (m : Moves) (name : String) : Step :=
  if isFile f m.files.live name then
    if name = manifestName then
      match f.copyOld with
      | some left =>
        .error (.io "keep" name, { m with files := { m.files with old := torn m.files.old name left } })
      | none =>
        .ok { m with
          files := { m.files with old := Function.update m.files.old name (m.files.live name) }
          kept := m.kept ++ [name] }
    else setAside f "keep" name m
  else .ok m

def placeStaged (name : String) (m : Moves) : Step :=
  if f.place name then .error (.io "install" name, m)
  else
    match moveTo m.files.new m.files.live name with
    | none => .error (.io "install" name, m)
    | some (new, live) =>
      .ok { m with files := { m.files with live := live, new := new }, placed := m.placed ++ [name] }

def install (m : Moves) (name : String) : Step := (keep f m name).bind (placeStaged f name)

def writeSelfIgnore (pid : Nat) (d : Disk) : Disk × Bool :=
  if d selfIgnoreName = some selfIgnore ∧ f.readIgnore = false then (d, true)
  else
    match f.writeIgnore with
    | some left => (torn d (selfIgnoreTmp pid) left, false)
    | none =>
      let d := Function.update d (selfIgnoreTmp pid) (some selfIgnore)
      if f.placeIgnore then (d, false)
      else
        (Function.update (Function.update d (selfIgnoreTmp pid) none) selfIgnoreName
          (some selfIgnore), true)

def ignoreAndDate (pid : Nat) (m : Moves) : Step :=
  let m' := { m with files := { m.files with live := (writeSelfIgnore f pid m.files.live).1 } }
  if (writeSelfIgnore f pid m.files.live).2 = false then
    .error (.io "write the self-ignore in" "", m')
  else if f.date || (m'.files.live manifestName).isNone then .error (.io "date" manifestName, m')
  else .ok m'

def Swap.apply (swap : Swap) (pid : Nat) (m : Moves) : Step := do
  let m ← swap.order.foldlM (install f) m
  let m ← swap.orphans.foldlM (fun m name => setAside f "remove" name m) m
  ignoreAndDate f pid m

def removePlaced (d : Disk) (placed : List String) : Disk × List String :=
  placed.foldl (fun p name =>
    if f.remove name then (p.1, p.2 ++ [name]) else (Function.update p.1 name none, p.2)) (d, [])

/-- The halves `old` and `live` after the kept files are moved back, and the names that failed. -/
def restoreKept (old live : Disk) (kept : List String) : (Disk × Disk) × List String :=
  kept.foldl (fun p name =>
    match if f.restore name then none else moveTo p.1.1 p.1.2 name with
    | none => (p.1, p.2 ++ [name])
    | some q => (q, p.2)) ((old, live), [])

def Moves.rollBack (m : Moves) : Files × Except (List String) Unit :=
  let removed := removePlaced f m.files.live m.placed
  let restored := restoreKept f m.files.old removed.1 m.kept
  let fs := { m.files with live := restored.1.2, old := restored.1.1 }
  if removed.2 ++ restored.2 = [] then (removeStage f.dropStage fs, .ok ())
  else (fs, .error (removed.2 ++ restored.2))

end Swap

section Install

inductive LayoutKey where
  | dirty (why : String)
  | clean (key tree : String)
  deriving DecidableEq, Repr

inductive Refusal where
  | keyMismatch
  | offer (e : OfferError)
  | swap (r : Reason)
  deriving DecidableEq, Repr

inductive LayoutInstall where
  | dirty (why : String)
  | rejected (why : Refusal)
  | installed (tree : String) (entries bytes : Nat)
  deriving DecidableEq, Repr

inductive InstallError where
  | notADirectory (path : String)
  | stage (r : Reason)
  | restore (r : Reason) (failed : List String)
  deriving DecidableEq, Repr

variable (f : Faults)

def swapIn (site : Site) (tree : String) (entries : List (String × Bytes)) (manifest : Bytes)
    (fs : Files) : Files × Except InstallError LayoutInstall :=
  match Swap.stage f site fs entries manifest with
  | (fs, .error r) => (fs, .error (.stage r))
  | (fs, .ok swap) =>
    let applied := (swap.apply f site.pid ⟨fs, [], []⟩).bind fun m =>
      match site.verify m.files.live with
      | none => .ok m
      | some why => .error (Reason.verify why, m)
    match applied with
    | .ok m => (removeStage f.dropStage m.files,
        .ok (.installed tree entries.length (entries.map (·.2.length)).sum))
    | .error (r, m) =>
      match m.rollBack f with
      | (fs, .ok ()) => (fs, .ok (.rejected (.swap r)))
      | (fs, .error failed) => (fs, .error (.restore r failed))

def installLayout (site : Site) (localKey : Except String LayoutKey) (key : String)
    (entries : List (String × Bytes)) (fs : Files) : Files × Except InstallError LayoutInstall :=
  match localKey with
  | .error path => (fs, .error (.notADirectory path))
  | .ok (.dirty why) => (fs, .ok (.dirty why))
  | .ok (.clean own tree) =>
    if own ≠ key then (fs, .ok (.rejected .keyMismatch))
    else
      match checkOffer site entries with
      | .error e => (fs, .ok (.rejected (.offer e)))
      | .ok manifest => swapIn f site tree entries manifest fs

end Install

end Glia.Store.Install
