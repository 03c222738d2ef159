import Glia.CodeDomain
import Glia.Graph.Types
import Mathlib.Data.Finset.Insert
import Mathlib.Data.List.Sort
import Mathlib.Data.Prod.Lex

/-! Which files and declarations moved between two builds. -/
namespace Glia.Graph

open Glia.Kit (OrdMap gather)

inductive MoveTier where
  | declared
  | identical
  | sameName
  deriving DecidableEq, Repr

structure FileMove where
  oldPath : String
  newPath : String
  tier : MoveTier
  deriving DecidableEq

structure NodeMove where
  kind : Nat
  oldId : NodeId
  oldQname : String
  newId : NodeId
  newQname : String
  deriving DecidableEq

structure MoveMap where
  files : List FileMove
  nodes : List NodeMove
  rejected : Nat

/-- What a node's cells say of where it is and what its body is. The moves found rest on
these readings; that both ends of a move changed does not. -/
structure NodeReader where
  positionFile : Node → Option String
  /-- The hash of the node's code, 0 for none or too little of it. -/
  bodyHash : Node → UInt64

/-- `(kind, local name)` of a declaration inside its module. -/
abbrev DeclKey := Nat ×ₗ String

structure ModuleInfo where
  repo : Nat
  id : NodeId
  qname : String
  path : String
  body : UInt64
  desc : OrdMap DeclKey (List (NodeId × String)) := ∅

/-- The `(repo, kind, qname)` of every node. -/
abbrev Present := Finset (Nat × Nat × String)

def lastPart (isCut : Char → Bool) (s : String) : String :=
  String.ofList (s.toList.reverse.takeWhile fun c => !isCut c).reverse

def basename (path : String) : String := lastPart (fun c => c = '/' || c = '\\') path

def normPath (p : String) : String :=
  let slashed := (Text.trim p).toList.map fun c => if c = '\\' then '/' else c
  String.ofList (dropDots slashed)
where
  dropDots : List Char → List Char
    | '.' :: '/' :: s => dropDots s
    | s => s

section Collect
variable (read : NodeReader)

def firstNodes (nodes : List Node) : List Node :=
  (nodes.foldl (fun (acc : List Node × Finset NodeId) n =>
    if n.id ∈ acc.2 then acc else (acc.1 ++ [n], insert n.id acc.2)) ([], ∅)).1

def nodeOf (g : RepoGraph) (id : NodeId) : Option Node := g.nodes.find? fun n => n.id == id

def climb (nav : CodeNav) : Nat → NodeId → List String → Option (NodeId × List String)
  | budget, cur, names => do
    let kind ← nav.kindById[cur]?
    if kind = NodeKind.module then pure (cur, names)
    else
      let name ← nav.nameById[cur]?
      match budget with
      | 0 => none
      | budget + 1 => climb nav budget (← nav.parentOf[cur]?) (name :: names)

structure Identity where
  kind : Nat
  file : String
  localName : String
  body : UInt64
  deriving DecidableEq

def derive (g : RepoGraph) (id : NodeId) : Option (NodeId × Identity) := do
  let kind ← g.nav.kindById[id]?
  let (mod, names) ← climb g.nav (g.nav.parentOf.size + 1) id []
  let own := nodeOf g id
  let path ← (own.bind read.positionFile).orElse fun _ =>
    (nodeOf g mod).bind read.positionFile
  pure (mod,
    { kind := kind
      file := basename path
      localName := String.intercalate "::" names
      body := ((own.map read.bodyHash).getD 0) })

structure Declared where
  repo : Nat
  module : NodeId
  kind : Nat
  localName : String
  id : NodeId
  qname : String

structure Collected where
  present : Present := ∅
  mods : OrdMap (Nat ×ₗ NodeId) ModuleInfo := ∅
  desc : List Declared := []

def collectNode (g : RepoGraph) (s : Collected) (n : Node) : Collected :=
  match g.nav.qnameById[n.id]?, g.nav.kindById[n.id]? with
  | some qname, some kind =>
    let s := { s with present := insert (g.repo, kind, qname) s.present }
    match derive read g n.id with
    | none => s
    | some (mod, ident) =>
      if mod ≠ n.id then
        { s with desc := s.desc ++ [⟨g.repo, mod, ident.kind, ident.localName, n.id, qname⟩] }
      else
        match read.positionFile n with
        | none => s
        | some path =>
          let info : ModuleInfo := { repo := g.repo, id := n.id, qname, path, body := ident.body }
          let keepFirst := fun seen : Option ModuleInfo => some (seen.getD info)
          { s with mods := s.mods.alter (toLex (g.repo, n.id)) keepFirst }
  | _, _ => s

def collectGraph (s : Collected) (g : RepoGraph) : Collected :=
  (firstNodes g.nodes).foldl (collectNode read g) s

def ModuleInfo.addDeclared (d : Declared) (m : ModuleInfo) : ModuleInfo :=
  let append := fun seen : Option (List (NodeId × String)) =>
    some (seen.getD [] ++ [(d.id, d.qname)])
  { m with desc := m.desc.alter (toLex (d.kind, d.localName)) append }

def sortDeclared (l : List (NodeId × String)) : List (NodeId × String) :=
  l.insertionSort fun a b => toLex (a.2, a.1) ≤ toLex (b.2, b.1)

def ModuleInfo.sorted (m : ModuleInfo) : ModuleInfo :=
  { m with desc := m.desc.map fun _ l => sortDeclared l }

def ModuleInfo.rank (m : ModuleInfo) : Nat ×ₗ String ×ₗ String :=
  toLex (m.repo, toLex (m.path, m.qname))

def collectModules (m : MergedGraph) : List ModuleInfo × Present :=
  let s := m.graphs.foldl (collectGraph read) {}
  let mods := s.desc.foldl (fun (mods : OrdMap (Nat ×ₗ NodeId) ModuleInfo) d =>
    mods.alter (toLex (d.repo, d.module)) (Option.map (ModuleInfo.addDeclared d))) s.mods
  (((mods.toList.map Prod.snd).map ModuleInfo.sorted).insertionSort fun a b => a.rank ≤ b.rank,
    s.present)

end Collect

section Pair

def sharesDeclarations (old new : ModuleInfo) : Bool :=
  let hits := (old.desc.toList.filter fun e => new.desc.contains e.1).length
  1 ≤ hits && old.desc.size ≤ hits * 2

def single (l : List Nat) : Option Nat :=
  match l with
  | [only] => some only
  | _ => none

def unique (mods : List ModuleInfo) (used : Finset Nat) (pred : ModuleInfo → Bool) :
    Option Nat :=
  single ((mods.zipIdx.filter fun e => e.2 ∉ used ∧ pred e.1).map Prod.snd)

abbrev GroupKey := Nat ×ₗ String

def group (mods : List ModuleInfo) (used : Finset Nat) (key : ModuleInfo → Option GroupKey) :
    OrdMap GroupKey (List Nat) :=
  gather (fun e : GroupKey × Nat => e.1) (fun e seen => some (seen.getD [] ++ [e.2])) ∅
    ((mods.zipIdx.filter fun e => e.2 ∉ used).filterMap fun e =>
      (key e.1).map fun k => (k, e.2))

structure Pairing where
  usedOld : Finset Nat := ∅
  usedNew : Finset Nat := ∅
  pairs : List (Nat × Nat × MoveTier) := []
  rejected : Nat := 0

def Pairing.add (s : Pairing) (o n : Nat) (tier : MoveTier) : Pairing :=
  { s with
    usedOld := insert o s.usedOld
    usedNew := insert n s.usedNew
    pairs := s.pairs ++ [(o, n, tier)] }

variable (removed added : List ModuleInfo)

def pairDeclared (s : Pairing) (d : String × String) : Pairing :=
  let repos := ((removed.filter fun m => m.path = d.1).map ModuleInfo.repo).dedup.insertionSort
    (· ≤ ·)
  repos.foldl (fun s repo =>
    match unique removed s.usedOld fun m => m.repo = repo ∧ m.path = d.1,
      unique added s.usedNew fun m => m.repo = repo ∧ m.path = d.2 with
    | some o, some n => s.add o n .declared
    | _, _ => s) s

def tierKey (tier : MoveTier) (m : ModuleInfo) : Option GroupKey :=
  match tier with
  | .identical => if m.body ≠ 0 then some (toLex (m.repo, toString m.body)) else none
  | .sameName => some (toLex (m.repo, basename m.path))
  | .declared => none

def pairGroup (tier : MoveTier) (news : OrdMap GroupKey (List Nat)) (s : Pairing)
    (e : GroupKey × List Nat) : Pairing :=
  match (news[e.1]?).bind single, single e.2 with
  | some n, some o =>
    match removed[o]?, added[n]? with
    | some old, some new =>
      if tier = .sameName ∧ !sharesDeclarations old new then
        { s with rejected := s.rejected + 1 }
      else s.add o n tier
    | _, _ => s
  | _, _ => s

def pairTier (s : Pairing) (tier : MoveTier) : Pairing :=
  (group removed s.usedOld (tierKey tier)).toList.foldl
    (pairGroup removed added tier (group added s.usedNew (tierKey tier))) s

variable (oldPresent newPresent : Present)

/-- The declarations two paired modules share one to one, neither qname on the other side. -/
def declMoves (old new : ModuleInfo) : List NodeMove :=
  old.desc.toList.filterMap fun e =>
    match new.desc[e.1]?, e.2 with
    | some [(newId, newQname)], [(oldId, oldQname)] =>
      if (old.repo, (ofLex e.1).1, oldQname) ∈ newPresent ∨
          (new.repo, (ofLex e.1).1, newQname) ∈ oldPresent then none
      else some ⟨(ofLex e.1).1, oldId, oldQname, newId, newQname⟩
    | _, _ => none

def movesOf (p : Nat × Nat × MoveTier) : List (FileMove × List NodeMove) :=
  match removed[p.1]?, added[p.2.1]? with
  | some old, some new =>
    [(⟨old.path, new.path, p.2.2⟩,
      ⟨NodeKind.module, old.id, old.qname, new.id, new.qname⟩ ::
        declMoves oldPresent newPresent old new)]
  | _, _ => []

end Pair

def NodeMove.rank (m : NodeMove) : String ×ₗ Nat ×ₗ String ×ₗ NodeId :=
  toLex (m.oldQname, toLex (m.kind, toLex (m.newQname, m.oldId)))

def MoveTier.rank : MoveTier → Nat
  | declared => 0
  | identical => 1
  | sameName => 2

def FileMove.rank (m : FileMove) : String ×ₗ String ×ₗ Nat :=
  toLex (m.oldPath, toLex (m.newPath, m.tier.rank))

def detectMovesWith (read : NodeReader) (prior current : MergedGraph)
    (declared : List (String × String)) : MoveMap :=
  let (oldMods, oldPresent) := collectModules read prior
  let (newMods, newPresent) := collectModules read current
  let removed := oldMods.filter fun m => (m.repo, NodeKind.module, m.qname) ∉ newPresent
  let added := newMods.filter fun m => (m.repo, NodeKind.module, m.qname) ∉ oldPresent
  let decl := ((declared.map fun d => (normPath d.1, normPath d.2)).dedup.insertionSort
    fun a b => toLex a ≤ toLex b)
  let s := [MoveTier.identical, MoveTier.sameName].foldl (pairTier removed added)
    (decl.foldl (pairDeclared removed added) {})
  let found := s.pairs.flatMap (movesOf removed added oldPresent newPresent)
  { files := ((found.map Prod.fst).insertionSort fun a b => a.rank ≤ b.rank).dedup
    nodes := (found.flatMap Prod.snd).insertionSort fun a b => a.rank ≤ b.rank
    rejected := s.rejected }

end Glia.Graph
