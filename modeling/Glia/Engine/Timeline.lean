import Glia.Store.Timeline
import Glia.Text

/-! The stored timeline of a fold, and the graph it gives back at one of its revisions. -/
namespace Glia.Engine

open Glia.Algo (maxRev NodeSpan EdgeSpan Timeline)
open Glia.Graph (IdMap)
open Glia.Kit (OrdMap gather)
open Glia.Store

structure RevInfo where
  sha : String
  time : Int
  subject : String

/-- A node as one revision's build saw it; line 0 for none. -/
structure NodeInfo where
  kind : Nat
  qname : String
  file : Option String
  line : Nat

section ToStore

structure Strings where
  list : List String := []
  index : OrdMap String Nat := ∅

def Strings.intern (st : Strings) (s : String) : Nat × Strings :=
  match st.index[s]? with
  | some ix => (ix, st)
  | none =>
    let ix := min st.list.length maxRev
    (ix, ⟨st.list ++ [s], st.index.insert s ix⟩)

/-- The qname a span's node is stored under. -/
def qnameOf (infos : IdMap NodeInfo) (id : NodeId) : String :=
  match infos[id]? with
  | some i => i.qname
  | none => "(unknown:" ++ toString id ++ ")"

def internFile (st : Strings) : Option String → Nat × Strings
  | none => (0, st)
  | some f =>
    let ix := st.intern f
    (min (ix.1 + 1) maxRev, ix.2)

def storeNode (infos : IdMap NodeInfo) (st : Strings) (s : NodeSpan) : TimelineNode × Strings :=
  let info := infos[s.id]?
  let qname := st.intern (qnameOf infos s.id)
  let file := internFile qname.2 (info.bind NodeInfo.file)
  let node : TimelineNode :=
    { id := s.id
      kind := (info.map NodeInfo.kind).getD 0
      qname := qname.1
      file := file.1
      line := (info.map NodeInfo.line).getD 0
      fromRev := s.fromRev
      untilRev := s.untilRev.getD timelineOpen
      prior := s.priorIds }
  (node, file.2)

def storeNodes (infos : IdMap NodeInfo) : Strings → List NodeSpan → List TimelineNode × Strings
  | st, [] => ([], st)
  | st, s :: spans =>
    let node := storeNode infos st s
    let rest := storeNodes infos node.2 spans
    (node.1 :: rest.1, rest.2)

def storeEdge (s : EdgeSpan) : TimelineEdge where
  source := s.key.source
  target := s.key.target
  category := s.key.category
  fromRev := s.fromRev
  untilRev := s.untilRev.getD timelineOpen

def storeRev (r : RevInfo) : TimelineRev where
  sha := r.sha
  time := r.time
  subject := timelineSubject r.subject

/-- The store of a finished fold: the built revisions, and the spans in the fold's order. -/
def toStore (repo : Nat) (built : List RevInfo) (tl : Timeline) (infos : IdMap NodeInfo) :
    TimelineStore :=
  let nodes := storeNodes infos {} tl.nodes
  { repo := repo
    revs := built.map storeRev
    strings := nodes.2.list
    nodes := nodes.1
    edges := tl.edges.map storeEdge }

end ToStore

section Ids

def idSegments (i start : Nat) : List (Nat × NodeId) → NodeId → Nat →
    List (NodeId × Nat × Nat × Nat)
  | [], id, until_ => [(id, i, start, until_)]
  | p :: prior, id, until_ => (p.2, i, start, p.1) :: idSegments i p.1 prior id until_

/-- Each id a span ever had to the spans it was the id of, with the revisions. -/
def idIndex (store : TimelineStore) : IdMap (List (Nat × Nat × Nat)) :=
  gather Prod.fst (fun (e : NodeId × Nat × Nat × Nat) seen => some (seen.getD [] ++ [e.2])) ∅
    (store.nodes.zipIdx.flatMap fun e =>
      idSegments e.2 e.1.fromRev e.1.prior e.1.id e.1.untilRev)

def spanAt (index : IdMap (List (Nat × Nat × Nat))) (id : NodeId) (rev : Nat) : Option Nat :=
  (index[id]?.bind fun l => l.find? fun e => e.2.1 ≤ rev && rev < e.2.2).map Prod.fst

def idAt (n : TimelineNode) (rev : Nat) : NodeId :=
  match n.prior.find? fun p => rev < p.1 with
  | some p => p.2
  | none => n.id

def lastRev (e : TimelineEdge) (revs : Nat) : Nat :=
  match e.gone with
  | some u => u - 1
  | none => min revs maxRev - 1

end Ids

structure RevRef where
  index : Nat
  sha : String
  time : Int
  subject : String
  deriving DecidableEq

/-- The graph at one revision, in the ids that revision's build had. -/
structure AsOfView where
  rev : RevRef
  nodes : List NodeId
  qnames : List String
  edges : List Edge
  deriving DecidableEq

/-- Why a revision's name gives no graph. -/
inductive RevFault where
  | noRevs
  | ambiguous (name : String) (hits : Nat)
  | unknown (name : String)
  | outside (rev : Nat)
  deriving DecidableEq

section AsOf

def isHexDigit (c : Char) : Bool :=
  c.isDigit || ('a' ≤ c && c ≤ 'f') || ('A' ≤ c && c ≤ 'F')

/-- A decimal number, with or without a plus. -/
def parseIndex (t : List Char) : Option Nat :=
  let digits := if t.head? = some '+' then t.tail else t
  if digits ≠ [] ∧ digits.all Char.isDigit then
    some (digits.foldl (fun n c => 10 * n + (c.toNat - '0'.toNat)) 0)
  else none

/-- The index `rev` names: a commit id's first 7 or more hex characters, else an index. -/
def revIndex (store : TimelineStore) (rev : String) : Except RevFault Nat :=
  let t := Text.trimChars rev.toList
  if store.revs.length = 0 then .error .noRevs
  else if t.length ≥ 7 && t.all isHexDigit then
    let lower := t.map Char.toLower
    let hits := (store.revs.zipIdx.filter fun e => lower.isPrefixOf e.1.sha.toList).map Prod.snd
    match hits with
    | [i] => .ok i
    | [] => .error (.unknown (String.ofList t))
    | _ => .error (.ambiguous (String.ofList t) hits.length)
  else
    match parseIndex t with
    | some i => if i < store.revs.length then .ok i else .error (.unknown (String.ofList t))
    | none => .error (.unknown (String.ofList t))

def revRef (store : TimelineStore) (i : Nat) : Option RevRef :=
  if i ≤ maxRev then store.revs[i]?.map fun r => ⟨i, r.sha, r.time, r.subject⟩ else none

/-- The nodes valid at `r`, each id once, with its qname as last seen. -/
def nodesAt (store : TimelineStore) (r : Nat) : List (NodeId × String) :=
  ((store.nodes.filter fun n => n.covers r).foldl (fun s n =>
    if idAt n r ∈ s.1 then s
    else (insert (idAt n r) s.1, s.2 ++ [(idAt n r, store.strings[n.qname]?.getD "")]))
    ((∅ : Finset NodeId), [])).2

def endAt (store : TimelineStore) (r : Nat) (id : NodeId) (t : Nat) : NodeId :=
  match ((spanAt (idIndex store) id t).bind fun s => store.nodes[s]?).filter fun n => n.covers r with
  | some n => idAt n r
  | none => id

def edgesAt (store : TimelineStore) (r : Nat) : List Edge :=
  (store.edges.filter fun e => e.covers r).map fun e =>
    let t := lastRev e store.revs.length
    { fromId := endAt store r e.source t
      toId := endAt store r e.target t
      category := e.category
      confidence := .strong }

def asOfAt (store : TimelineStore) (r : Nat) : Except RevFault AsOfView :=
  match revRef store r with
  | none => .error (.outside r)
  | some rev =>
    .ok
      { rev := rev
        nodes := (nodesAt store r).map Prod.fst
        qnames := (nodesAt store r).map Prod.snd
        edges := edgesAt store r }

def asOf (store : TimelineStore) (rev : String) : Except RevFault AsOfView :=
  (revIndex store rev).bind (asOfAt store)

end AsOf

end Glia.Engine
