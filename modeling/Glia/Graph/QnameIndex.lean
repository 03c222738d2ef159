import Glia.Graph.NodeRead
import Glia.Kit.Dedup

/-! Where a stored `(qname, kind, hint)` binds: the identity index over a whole graph and the
qname index over one repo's nodes. -/
namespace Glia.Graph

open Glia.Kit (OrdMap gather)

section Hint

def hintVersion : String := "v1"

/-- `%25` and `%7C` decoded; any other escape is none. -/
def unescape : List Char → Option (List Char)
  | [] => some []
  | '%' :: '2' :: '5' :: s => ('%' :: ·) <$> unescape s
  | '%' :: '7' :: 'C' :: s => ('|' :: ·) <$> unescape s
  | '%' :: _ => none
  | c :: s => (c :: ·) <$> unescape s

/-- A decimal number that fits 32 bits, a leading `+` taken. -/
def parseU32 (s : List Char) : Option Nat :=
  let digits := match s with
    | '+' :: rest => rest
    | s => s
  if digits ≠ [] ∧ digits.all Char.isDigit then
    let n := Nat.ofDigitChars 10 digits 0
    if n < 2 ^ 32 then some n else none
  else none

def parseHint (s : String) : Option Identity :=
  match s.toList.splitOn '|' with
  | [version, kind, file, body, local'] =>
    if version ≠ hintVersion.toList ∨ body.length ≠ 16 then none
    else do
      pure
        { kind := ← parseU32 kind
          file := String.ofList (← unescape file)
          localName := String.ofList (← unescape local')
          body := (← hexValue body).toUInt64 }
  | _ => none

end Hint

inductive Rebind where
  | exact (id : NodeId)
  | moved (id : NodeId) (tier : MoveTier)
  | ambiguous (ids : List NodeId)
  | orphan
  deriving DecidableEq

/-- `(kind, file, local name)`. -/
abbrev IdentityKey := Nat ×ₗ String ×ₗ String

def Identity.key (i : Identity) : IdentityKey := toLex (i.kind, toLex (i.file, i.localName))

structure IdentityIndex where
  byKey : OrdMap IdentityKey (List NodeId)
  byBody : OrdMap (Nat ×ₗ Nat) (List NodeId)
  byQname : OrdMap String (List (Nat × NodeId))

def sortIds (ids : List NodeId) : List NodeId := (ids.insertionSort (· ≤ ·)).dedup

section Build
variable (read : NodeReader)

def firstInstances (graphs : List RepoGraph) : List (RepoGraph × NodeId) :=
  Kit.firsts Prod.snd (graphs.flatMap fun g => g.nodes.map fun n => (g, n.id))

/-- Each item's id pushed under its key. -/
def pushAll {κ β : Type} [LinearOrder κ] (items : List (κ × β)) : OrdMap κ (List β) :=
  gather Prod.fst (fun e seen => some (seen.getD [] ++ [e.2])) ∅ items

def named (e : RepoGraph × NodeId) : Option (String × Nat × NodeId) := do
  let qname ← e.1.nav.qnameById[e.2]?
  let kind ← e.1.nav.kindById[e.2]?
  pure (qname, kind, e.2)

def identified (e : RepoGraph × NodeId) : Option (Identity × NodeId) :=
  (derive read e.1 e.2).map fun d => (d.2, e.2)

def IdentityIndex.build (m : MergedGraph) : IdentityIndex :=
  let nodes := firstInstances m.graphs
  let idents := nodes.filterMap (identified read)
  { byKey := (pushAll (idents.map fun e => (e.1.key, e.2))).map fun _ => sortIds
    byBody := (pushAll ((idents.filter fun e => e.1.body ≠ 0).map fun e =>
      (toLex (e.1.kind, e.1.body.toNat), e.2))).map fun _ => sortIds
    byQname := (pushAll (nodes.filterMap named)).map fun _ l =>
      l.insertionSort fun a b => toLex (a.2, a.1) ≤ toLex (b.2, b.1) }

namespace IdentityIndex
variable (idx : IdentityIndex)

def keyHits (h : Identity) : List NodeId := (idx.byKey[h.key]?).getD []

def bodyHits (h : Identity) : List NodeId :=
  if h.body = 0 then [] else (idx.byBody[(toLex (h.kind, h.body.toNat) : Nat ×ₗ Nat)]?).getD []

def exactHits (qname : String) (kind : Option Nat) : List NodeId :=
  (((idx.byQname[qname]?).getD []).filter fun e => kind.all fun k => k = e.1).map Prod.snd

def usableHint (kind : Option Nat) (hint : Option String) : Option Identity :=
  (hint.bind parseHint).filter fun h => kind.all fun k => k = h.kind

/-- The hint's hits when no node carries the qname: one by key, else one by body, else one by
both. -/
def rebindMoved (h : Identity) : Rebind :=
  let keyHits := idx.keyHits h
  let bodyHits := idx.bodyHits h
  match keyHits, bodyHits, keyHits.filter fun id => id ∈ bodyHits with
  | [only], _, _ => .moved only .sameName
  | _, [only], _ => .moved only .identical
  | _, _, [only] => .moved only .identical
  | _, _, _ =>
    let all := sortIds (keyHits ++ bodyHits)
    if all = [] then .orphan else .ambiguous all

/-- Bind a stored node again: its exact qname first, then by its hint. -/
def rebind (qname : String) (kind : Option Nat) (hint : Option String) : Rebind :=
  let exact := idx.exactHits qname kind
  match exact, usableHint kind hint with
  | [only], _ => .exact only
  | [], none => .orphan
  | _, none => .ambiguous exact
  | [], some h => idx.rebindMoved h
  | _, some h =>
    match exact.filter fun id => id ∈ idx.keyHits h with
    | [only] => .exact only
    | _ => .ambiguous exact

end IdentityIndex

end Build

inductive CellTarget where
  | bound (id : NodeId)
  | rekeyed (id : NodeId) (tier : MoveTier)
  | ambiguous (id : NodeId)
  | orphaned
  | rejected (message : String)
  deriving DecidableEq

structure QnameIndex where
  byQname : OrdMap String (List (NodeId × Nat))
  places : IdMap (List (Nat × Nat))
  identity : IdentityIndex

def inScope (repo : Option Nat) (g : RepoGraph) : Bool := repo.all fun r => r = g.repo

def instances (graphs : List RepoGraph) (repo : Option Nat) : List (NodeId × Nat × Nat) :=
  (graphs.zipIdx.filter fun e => inScope repo e.1).flatMap fun e =>
    e.1.nodes.zipIdx.map fun n => (n.1.id, e.2, n.2)

def QnameIndex.build (read : NodeReader) (m : MergedGraph) (repo : Option Nat) : QnameIndex :=
  let own := firstInstances (m.graphs.filter (inScope repo))
  { identity := .build read m
    places := pushAll (instances m.graphs repo)
    byQname := (pushAll ((own.filterMap named).map fun e => (e.1, e.2.2, e.2.1))).map
      fun _ l => l.insertionSort fun a b => a.2 ≤ b.2 }

namespace QnameIndex
variable (idx : QnameIndex)

def exactHits (qname : String) (kind : Option Nat) : List NodeId :=
  (((idx.byQname[qname]?).getD []).filter fun e => kind.all fun k => k = e.2).map Prod.fst

def resolveId (qname : String) (kind : Option Nat) (hint : Option String) : CellTarget :=
  let exact := idx.exactHits qname kind
  let unbound : CellTarget := match exact with
    | [] => .orphaned
    | first :: _ => .ambiguous first
  match exact with
  | [only] => .bound only
  | _ =>
    if hint.isNone then unbound
    else
      match idx.identity.rebind qname kind hint with
      | .exact id => if id ∈ exact then .bound id else unbound
      | .moved id tier => if exact = [] ∧ idx.places.contains id then .rekeyed id tier else unbound
      | _ => unbound

def kindId (name : String) : Option Nat := (NodeKind.all.find? fun e => e.2 = name).map Prod.fst

def resolve (debug : String → String) (qname : String) (kind hint : Option String) :
    CellTarget :=
  match kind with
  | none => idx.resolveId qname none hint
  | some name =>
    match kindId name with
    | none => .rejected ("unknown node kind " ++ debug name)
    | some id => idx.resolveId qname (some id) hint

end QnameIndex

end Glia.Graph
