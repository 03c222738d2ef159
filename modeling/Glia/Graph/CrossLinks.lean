import Glia.Algo.Classes
import Glia.CodeDomain
import Glia.Graph.Types
import Mathlib.Data.Finset.Card
import Mathlib.Data.Prod.Lex
import Mathlib.Data.String.Basic

/-! The service-level view of the cross edges: every edge between one pair of service
keys, over one mechanism and channel, is one row. -/
namespace Glia.Graph

open Glia.Algo (Classes leader)
open Glia.Kit (OrdMap gather)

/-- Mechanisms whose pair a resolver emits once, either way round. -/
def symmetric : List EdgeCategoryId :=
  [EdgeCategory.sharesSchema, EdgeCategory.sharesDataEntity, EdgeCategory.sharesCronSchedule,
    EdgeCategory.sharesConfig, EdgeCategory.sharesInfraRef, EdgeCategory.sharesDependency,
    EdgeCategory.coChanges, EdgeCategory.sameAs]

def cochangeChannel : String := "history"

structure CrossLink where
  source : String
  target : String
  mechanism : String
  channel : String
  count : Nat
  confidence : Confidence
  exampleFromQname : String
  exampleToQname : String
  deriving DecidableEq

/-- A row's key, in the order rows are listed: from, to, mechanism, channel. -/
abbrev LinkKey := String ×ₗ String ×ₗ String ×ₗ String

def linkKey (source target mechanism channel : String) : LinkKey :=
  toLex (source, toLex (target, toLex (mechanism, channel)))

/-- The two example qnames of a row, compared from end first. -/
abbrev Examples := String ×ₗ String

section Channel
variable (upper : Char → List Char)

def parseEndpointQname (qname : String) : Option (String × String) := do
  let rest ← Text.stripPrefix "endpoint:" (splitOwner qname).1
  let (method, path) ← Text.splitOnce ":" rest
  pure (Text.toUppercase upper method, path)

def suffixPrefixes : List String :=
  ["queue_producer:", "queue_consumer:", "grpc_client:", "grpc:", "graphql_op:",
    "graphql_resolver:", "ws_client:", "event_emit:", "cli_invoke:", "data_entity:", "config:",
    "cron:", "infra:", "route:"]

/-- The identifying literal a link travels over. -/
def channelOf (qname name : String) : String :=
  let base := (splitOwner qname).1
  match parseEndpointQname upper base with
  | some (method, path) => method ++ " " ++ path
  | none =>
    match suffixPrefixes.findSome? (Text.stripPrefix · base) with
    | some rest => rest
    | none => if name.toList = [] then base else name

end Channel

/-- Every node's qname and name, the first graph holding it deciding. -/
def describedNodes (m : MergedGraph) : IdMap (String × String) :=
  m.graphs.foldl (fun acc g => gather (fun n : Node => n.id) (fun n seen => some (seen.getD
    (g.nav.qnameById[n.id]?.getD "", g.nav.nameById[n.id]?.getD ""))) acc g.nodes) ∅

structure Agg where
  count : Nat
  confidence : Confidence
  examples : Examples
  /-- The distinct class-mapped pairs counted. -/
  pairs : Finset (NodeId × NodeId)
  deriving DecidableEq

structure Link where
  key : LinkKey
  confidence : Confidence
  examples : Examples
  pair : Option (NodeId × NodeId)
  deriving DecidableEq

namespace Agg

def count1 (a : Agg) : Option (NodeId × NodeId) → Agg
  | none => { a with count := a.count + 1 }
  | some p => if p ∈ a.pairs then a else { a with count := a.count + 1, pairs := insert p a.pairs }

def addLink (l : Link) (seen : Option Agg) : Option Agg :=
  let a := seen.getD ⟨0, l.confidence, l.examples, ∅⟩
  some ({ a with confidence := a.confidence.weakest l.confidence }.count1 l.pair)

end Agg

section Pass
variable (upper : Char → List Char) (m : MergedGraph) (keyOf : NodeId → Option String)
  (sameAs collapse : Option Classes)

def describe (id : NodeId) : String × String := (describedNodes m)[id]?.getD ("", "")

def ofClass (e : Edge) : Bool :=
  e.category == EdgeCategory.sameAs &&
    sameAs.any fun c => (c.classOf e.fromId).isSome && c.same e.fromId e.toId

def classPair (e : Edge) : Option (NodeId × NodeId) :=
  (collapse.filter fun c => (c.classOf e.fromId).isSome || (c.classOf e.toId).isSome).map fun c =>
    let a := c.rep e.fromId
    let b := c.rep e.toId
    if e.category ∈ symmetric ∧ b < a then (b, a) else (a, b)

def edgeChannel (e : Edge) : String :=
  let source := describe m e.fromId
  let target := describe m e.toId
  let channel :=
    if e.category = EdgeCategory.coChanges then cochangeChannel
    else channelOf upper source.1 source.2
  if channel.toList = [] then channelOf upper target.1 target.2 else channel

/-- The bucket entry of an edge whose two ends `keyOf` places. -/
def linkOf (e : Edge) (fromKey toKey : String) : Link :=
  let source := (describe m e.fromId).1
  let target := (describe m e.toId).1
  let swap := e.category ∈ symmetric ∧ toKey < fromKey
  { key :=
      if swap then linkKey toKey fromKey (EdgeCategory.name e.category) (edgeChannel upper m e)
      else linkKey fromKey toKey (EdgeCategory.name e.category) (edgeChannel upper m e)
    confidence := e.confidence
    examples := if swap then toLex (target, source) else toLex (source, target)
    pair := classPair collapse e }

structure EdgePass where
  buckets : OrdMap LinkKey Agg := ∅
  unplaced : Nat := 0
  /-- The weakest SAME_AS confidence inside a class, by its representative. -/
  classConfidence : IdMap Confidence := ∅

def EdgePass.edge (s : EdgePass) (e : Edge) : EdgePass :=
  if ofClass sameAs e then
    let weaken := fun seen : Option Confidence =>
      some ((seen.map (·.weakest e.confidence)).getD e.confidence)
    { s with
      classConfidence :=
        s.classConfidence.alter ((sameAs.map (·.rep e.fromId)).getD 0) weaken }
  else
    match keyOf e.fromId, keyOf e.toId with
    | some fromKey, some toKey =>
      let l := linkOf upper m collapse e fromKey toKey
      { s with buckets := s.buckets.alter l.key (Agg.addLink l) }
    | _, _ => { s with unplaced := s.unplaced + 1 }

def edgePass (edges : List Edge) : EdgePass :=
  edges.foldl (EdgePass.edge upper m keyOf sameAs collapse) {}

/-- The lesser of a new value and the one held. -/
def keepLeast {α : Type} [LinearOrder α] (x : α) (seen : Option α) : Option α :=
  some ((seen.map fun y => if x < y then x else y).getD x)

/-- One row of a class: an unordered pair of its members' service keys. -/
structure ClassRow where
  key : LinkKey
  confidence : Confidence
  examples : Examples
  deriving DecidableEq

def classChannel (members : List NodeId) : String :=
  ((((members.map fun id => channelOf upper (describe m id).1 (describe m id).2).filter
    fun c => c.toList ≠ []).foldl (fun least c => keepLeast c least) none).getD "")

def classKeys (members : List NodeId) : OrdMap String String :=
  gather (fun p : String × String => p.1) (fun p least => keepLeast p.2 least) ∅
    (members.filterMap fun id => (keyOf id).map fun key => (key, (describe m id).1))

def allPairs {α : Type} : List α → List (α × α)
  | [] => []
  | x :: xs => xs.map (fun y => (x, y)) ++ allPairs xs

/-- The key pairs a class links: all of them, a single key with itself. -/
def keyPairs {α : Type} : List α → List (α × α)
  | [x] => [(x, x)]
  | xs => allPairs xs

def classRows (members : List NodeId) (confidence : Confidence) : List ClassRow :=
  (keyPairs (classKeys m keyOf members).toList).map fun p =>
    { key := linkKey p.1.1 p.2.1 (EdgeCategory.name EdgeCategory.sameAs)
        (classChannel upper m members)
      confidence := confidence
      examples := toLex (p.1.2, p.2.2) }

def Agg.addRow (r : ClassRow) (seen : Option Agg) : Option Agg :=
  some <| match seen with
  | none => ⟨1, r.confidence, r.examples, ∅⟩
  | some a =>
    { a with
      count := a.count + 1
      confidence := a.confidence.weakest r.confidence
      examples := if r.examples < a.examples then r.examples else a.examples }

def formedClasses (confidences : IdMap Confidence) : List (List NodeId × Confidence) :=
  ((sameAs.map Classes.sets).getD []).filterMap fun s =>
    confidences[leader s]?.map fun c => (s, c)

def classPass (s : EdgePass) : OrdMap LinkKey Agg × Nat :=
  (formedClasses sameAs s.classConfidence).foldl (fun acc entry =>
    (gather ClassRow.key Agg.addRow acc.1 (classRows upper m keyOf entry.1 entry.2),
      acc.2 + (entry.1.filter fun id => (keyOf id).isNone).length)) (s.buckets, s.unplaced)

def linkRow (e : LinkKey × Agg) : CrossLink where
  source := (ofLex e.1).1
  target := (ofLex (ofLex e.1).2).1
  mechanism := (ofLex (ofLex (ofLex e.1).2).2).1
  channel := (ofLex (ofLex (ofLex e.1).2).2).2
  count := e.2.count
  confidence := e.2.confidence
  exampleFromQname := (ofLex e.2.examples).1
  exampleToQname := (ofLex e.2.examples).2

/-- The rows and how many edges or class members no key placed. -/
def crossLinksWith : List CrossLink × Nat :=
  let done := classPass upper m keyOf sameAs
    (edgePass upper m keyOf sameAs collapse m.crossEdges)
  (done.1.toList.map linkRow, done.2)

end Pass

end Glia.Graph
