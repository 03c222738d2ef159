import Mathlib

/-! The language groups a watch session keeps built between updates, and how an update takes,
re-stitches or rebuilds each. -/
namespace Glia.Engine.Groups

section Inputs

structure GroupInput (Parse : Type) where
  key : String
  parses : List Parse

structure GroupCtx (Input : Type) where
  repo : UInt64
  rustCrates : Input
  tsAliases : Input
  cIncludes : Input
  dartPackages : Input
  goModuleDirs : Input

structure RepoInputs (Parse Overlay Input : Type) where
  ctx : GroupCtx Input
  overlay : Overlay
  groups : List (GroupInput Parse)

structure Update (n : Nat) (Parse Overlay Services Input : Type) where
  services : Services
  fastPath : Bool
  repos : Fin n → RepoInputs Parse Overlay Input

def tsGroup : String := "typescript"

def tsFamily : List String := ["angular", "react", "typescript", "vue"]

/-- Whether a key has a re-stitch of edited bodies. -/
def fastPathFor (key : String) : Bool := key = "python" || key = "go" || key = tsGroup

/-- The repo-level input a key's builder reads. -/
def hidden {Input : Type} (key : String) (ctx : GroupCtx Input) : Option Input :=
  if key = "rust" then some ctx.rustCrates
  else if key = "c_cpp" then some ctx.cIncludes
  else if key = "dart" then some ctx.dartPackages
  else if key = "go" then some ctx.goModuleDirs
  else if key ∈ tsFamily then some ctx.tsAliases
  else none

/-- Everything one group's build or its cache key is made from. -/
structure Inputs (Parse Overlay Services Input : Type) where
  key : String
  repo : UInt64
  overlay : Overlay
  services : Services
  hidden : Option Input
  parses : List Parse

structure BuildInputs (Parse Services Input : Type) where
  key : String
  repo : UInt64
  services : Services
  hidden : Option Input
  parses : List Parse

variable {Parse Overlay Services Input : Type}

def Inputs.toBuild (i : Inputs Parse Overlay Services Input) : BuildInputs Parse Services Input :=
  ⟨i.key, i.repo, i.services, i.hidden, i.parses⟩

def RepoInputs.inputsOf (at_ : RepoInputs Parse Overlay Input) (services : Services)
    (g : GroupInput Parse) : Inputs Parse Overlay Services Input :=
  ⟨g.key, at_.ctx.repo, at_.overlay, services, hidden g.key at_.ctx, g.parses⟩

def Update.inputs {n : Nat} (u : Update n Parse Overlay Services Input) (r : Fin n) :
    List (Inputs Parse Overlay Services Input) :=
  (u.repos r).groups.map ((u.repos r).inputsOf u.services)

end Inputs

section Build

structure LangBuild (Graph : Type) where
  lang : String
  graph : Except String Graph

def LangBuild.key {Graph : Type} (b : LangBuild Graph) : String := b.lang

/-- The builders of the graph crate: a group's build from its inputs, and the re-stitch of
edited parses into a built graph, `none` when it refuses or panics. -/
structure Builders (Parse Services Input Graph : Type) where
  build : BuildInputs Parse Services Input → Except String Graph
  restitch : String → Graph → List Parse → List Parse → GroupCtx Input → Option Graph

/-- A build to take as it is, or one whose parses at the given slots moved. -/
inductive Seed (Graph : Type) where
  | reuse (build : LangBuild Graph)
  | rebody (cached : LangBuild Graph) (edited : List Nat)

def Seed.build {Graph : Type} : Seed Graph → LangBuild Graph
  | reuse b => b
  | rebody b _ => b

variable {Parse Overlay Services Input Graph : Type} (B : Builders Parse Services Input Graph)

def Builders.buildOf (i : Inputs Parse Overlay Services Input) : LangBuild Graph :=
  ⟨i.key, B.build i.toBuild⟩

def rebodyGroup (cached : LangBuild Graph) (edits group : List Parse) (ctx : GroupCtx Input) :
    Option (LangBuild Graph) :=
  if !fastPathFor cached.lang || edits.isEmpty then none
  else
    match cached.graph with
    | .error _ => none
    | .ok g => (B.restitch cached.lang g edits group ctx).map fun g => ⟨cached.lang, .ok g⟩

def buildSeeded (at_ : RepoInputs Parse Overlay Input) (services : Services)
    (g : GroupInput Parse) (seed : Option (Seed Graph)) : LangBuild Graph :=
  let built := B.buildOf (at_.inputsOf services g)
  match seed.filter fun s => s.build.key = g.key with
  | some (.reuse b) => b
  | some (.rebody cached edited) =>
    let edits := edited.filterMap fun slot => g.parses[slot]?
    if edits.length ≠ edited.length then built
    else (rebodyGroup B cached edits g.parses at_.ctx).getD built
  | none => built

end Build

section Prints

/-- The fingerprints a session takes of what its groups read. -/
structure Hashing (Parse Overlay Services Input : Type) where
  xxh64 : List UInt8 → UInt64
  parsePath : Parse → Option String
  parse : Parse → Option UInt64
  surface : Parse → Option UInt64
  overlay : Overlay → UInt64
  services : Services → UInt64
  hidden : Input → UInt64

structure FileFp where
  path : String
  parse : UInt64
  surface : UInt64
  deriving DecidableEq

/-- A group's fingerprints: the whole key, `none` when a parse has none; what it reads besides
its parses, with the overlay; and its files. -/
structure GroupPrint where
  fingerprint : Option UInt64
  context : UInt64
  files : Option (List FileFp)

structure CachedGroup (Graph : Type) where
  key : String
  fingerprint : UInt64
  context : UInt64
  files : Option (List FileFp)
  build : LangBuild Graph
  lastUsed : Nat

def word (n : UInt64) : List UInt8 :=
  (List.range 8).map fun i => UInt8.ofNat (n.toNat / 256 ^ i)

def keyBytes (key : String) : List UInt8 := key.toUTF8.data.toList ++ [0]

variable {Parse Overlay Services Input Graph : Type}
  (H : Hashing Parse Overlay Services Input)

/-- The fingerprint of what a builder reads of the repo, 0 when nothing. -/
def hiddenFp (x : Option Input) : UInt64 := (x.map H.hidden).getD 0

def contextBytes (key : String) (repo overlay services hidden : UInt64) : List UInt8 :=
  keyBytes key ++ (word repo ++ (word overlay ++ (word services ++ word hidden)))

/-- What the whole key hashes of a group with these parse fingerprints. -/
def wholeBytes (key : String) (repo services hidden : UInt64) (fps : List UInt64) : List UInt8 :=
  keyBytes key ++ (word repo ++ (word services ++ (word hidden ++
    (word (UInt64.ofNat fps.length) ++ fps.flatMap word))))

/-- The surface of the parse at a slot: the cached entry's, when its slot holds an equal parse. -/
def surfaceAt (old : Option (List FileFp)) (slot : Nat) (path : String) (parse : UInt64)
    (p : Parse) : Option UInt64 :=
  match old.bind (·[slot]?) with
  | some o => if o.path = path ∧ o.parse = parse then some o.surface else H.surface p
  | none => H.surface p

/-- Every parse's file, in plan order; none when one has no file, no fingerprint or a file named
before. -/
def fileFps (old : Option (List FileFp)) : Nat → List String → List Parse → Option (List FileFp)
  | _, _, [] => some []
  | slot, seen, p :: ps =>
    (H.parsePath p).bind fun path => (H.parse p).bind fun parse =>
      if path ∈ seen then none
      else
        (surfaceAt H old slot path parse p).bind fun surface =>
          (fileFps old (slot + 1) (path :: seen) ps).map (⟨path, parse, surface⟩ :: ·)

def groupPrint (at_ : RepoInputs Parse Overlay Input) (services : Services) (fastPath : Bool)
    (cached : List (CachedGroup Graph)) (g : GroupInput Parse) : GroupPrint :=
  let servicesFp := H.services services
  let hiddenFp := hiddenFp H (hidden g.key at_.ctx)
  let fps := g.parses.mapM H.parse
  { fingerprint := fps.map fun fps => H.xxh64 (wholeBytes g.key at_.ctx.repo servicesFp hiddenFp fps)
    context :=
      H.xxh64 (contextBytes g.key at_.ctx.repo (H.overlay at_.overlay) servicesFp hiddenFp)
    files :=
      if fastPath && fps.isSome && fastPathFor g.key then
        fileFps H ((cached.find? fun c => c.key = g.key).bind CachedGroup.files) 0 [] g.parses
      else none }

def editedSlots : Nat → List FileFp → List FileFp → Option (List Nat)
  | slot, o :: old, n :: new =>
    if o.path ≠ n.path ∨ o.surface ≠ n.surface then none
    else (editedSlots (slot + 1) old new).map fun rest =>
      if o.parse ≠ n.parse then slot :: rest else rest
  | _, _, _ => some []

def rebodySeed (key : String) (print : GroupPrint) (cached : List (CachedGroup Graph)) :
    Option (Seed Graph) :=
  if !fastPathFor key then none
  else
    (cached.find? fun c => c.key = key).bind fun entry =>
      entry.files.bind fun old => print.files.bind fun new =>
        if entry.context ≠ print.context ∨ old.length ≠ new.length then none
        else (editedSlots 0 old new).bind fun edited =>
          if edited = [] then none else some (.rebody entry.build edited)

/-- The entry a group's whole key matches, the last of its key, and its index. -/
def reuseSlot (key : String) (print : GroupPrint) (cached : List (CachedGroup Graph)) :
    Option (CachedGroup Graph × Nat) :=
  print.fingerprint.bind fun fp =>
    (cached.zipIdx.filter fun c => c.1.key = key).getLast?.filter fun c => c.1.fingerprint = fp

end Prints

section Session

inductive Slot (Graph : Type) where
  | kept (i : Nat)
  | fresh (group : CachedGroup Graph)

structure Stage (Graph : Type) where
  print : GroupPrint
  kept : Option Nat
  build : LangBuild Graph

variable {n : Nat} {Parse Overlay Services Input Graph : Type}
  (H : Hashing Parse Overlay Services Input) (B : Builders Parse Services Input Graph)

def stageGroup (at_ : RepoInputs Parse Overlay Input) (services : Services) (fastPath : Bool)
    (cached : List (CachedGroup Graph)) (g : GroupInput Parse) : Stage Graph :=
  let print := groupPrint H at_ services fastPath cached g
  let hit := reuseSlot g.key print cached
  let seed :=
    match hit with
    | some c => some (.reuse c.1.build)
    | none => if fastPath then rebodySeed g.key print cached else none
  ⟨print, hit.map Prod.snd, buildSeeded B at_ services g seed⟩

def Stage.slot (s : Stage Graph) : Option (Slot Graph) :=
  match s.kept with
  | some i => some (.kept i)
  | none => s.print.fingerprint.map fun fp =>
    .fresh ⟨s.build.key, fp, s.print.context, s.print.files, s.build, 0⟩

def buildRepo (u : Update n Parse Overlay Services Input) (r : Fin n)
    (cached : List (CachedGroup Graph)) : List (Stage Graph) :=
  (u.repos r).groups.map (stageGroup H B (u.repos r) u.services u.fastPath cached)

/-- Fill the slots, each kept one with the entry it moves out. -/
def takeSlots : List (Option (CachedGroup Graph)) → List (Slot Graph) → List (CachedGroup Graph)
  | _, [] => []
  | old, .kept i :: slots => old[i]?.join.toList ++ takeSlots (old.set i none) slots
  | old, .fresh g :: slots => g :: takeSlots old slots

def refreshGroups (old : List (CachedGroup Graph)) (slots : List (Slot Graph)) (seq : Nat) :
    List (CachedGroup Graph) :=
  (takeSlots (old.map some) slots).map fun g => { g with lastUsed := seq }

structure WatchSession (n : Nat) (Graph : Type) where
  groups : Fin n → List (CachedGroup Graph)
  seq : Nat

def usedBuilds (cached : Fin n → List (CachedGroup Graph))
    (u : Update n Parse Overlay Services Input) (r : Fin n) : List (LangBuild Graph) :=
  (buildRepo H B u r (cached r)).map Stage.build

def openSession (u : Update n Parse Overlay Services Input) : WatchSession n Graph where
  groups r := refreshGroups [] ((buildRepo H B u r []).filterMap Stage.slot) 0
  seq := 0

def WatchSession.apply (s : WatchSession n Graph) (u : Update n Parse Overlay Services Input) :
    WatchSession n Graph where
  groups r :=
    refreshGroups (s.groups r) ((buildRepo H B u r (s.groups r)).filterMap Stage.slot) (s.seq + 1)
  seq := s.seq + 1

def WatchSession.evict (s : WatchSession n Graph) (r : Fin n) (i : Nat) : WatchSession n Graph :=
  { s with groups := fun r' => if r' = r then (s.groups r).eraseIdx i else s.groups r' }

/-- The lowest `lastUsed`, then repo order, then plan order. -/
def WatchSession.oldestGroup (s : WatchSession n Graph) : Option (Fin n × Nat) :=
  let listed : List (Nat ×ₗ Fin n ×ₗ Nat) := (List.finRange n).flatMap fun r =>
    (s.groups r).zipIdx.map fun e => toLex (e.1.lastUsed, toLex (r, e.2))
  listed.min?.map fun e => ofLex (ofLex e).2

def WatchSession.enforceBudget (s : WatchSession n Graph) : List Bool → WatchSession n Graph
  | true :: readings =>
    match s.oldestGroup with
    | some (r, i) => (s.evict r i).enforceBudget readings
    | none => s
  | _ => s

inductive Event (n : Nat) (Parse Overlay Services Input : Type) where
  | update (u : Update n Parse Overlay Services Input)
  | evict (r : Fin n) (i : Nat)
  | budget (readings : List Bool)

def WatchSession.run (s : WatchSession n Graph) : List (Event n Parse Overlay Services Input) →
    WatchSession n Graph ×
      List (Update n Parse Overlay Services Input × (Fin n → List (LangBuild Graph)))
  | [] => (s, [])
  | .update u :: es =>
    let rest := (s.apply H B u).run es
    (rest.1, (u, usedBuilds H B s.groups u) :: rest.2)
  | .evict r i :: es => (s.evict r i).run es
  | .budget readings :: es => (s.enforceBudget readings).run es

end Session

end Glia.Engine.Groups
