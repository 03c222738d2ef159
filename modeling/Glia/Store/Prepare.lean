import Glia.CodeDomain
import Glia.Kit.Chunks
import Glia.Store.Payloads

/-! A shard's core made ready to write: its EVIDENCE interned and its CODE texts stored as spans,
cell by cell on a pool. -/
namespace Glia.Store

open Glia.Engine (Basis Evidence)
open Glia.Kit (Chunk PoolCall parChunks partOf)

section Encode

def putVarint (v : Nat) : Bytes :=
  if v < 128 then [UInt8.ofNat v] else UInt8.ofNat (v % 128 + 128) :: putVarint (v / 128)

def internString (table : List String) (s : String) : Nat × List String :=
  match table.idxOf? s with
  | some i => (i, table)
  | none => (table.length, table ++ [s])

def internOptional (table : List String) : Option String → Nat × List String
  | none => (0, table)
  | some s =>
    let (i, table) := internString table s
    (i + 1, table)

def basisByte : Basis → UInt8
  | .absent => 0
  | .site => 1
  | .fromNode => 2
  | .toNode => 3
  | .file => 4

def encodeEvidence (table : List String) (ev : Evidence) : Bytes × List String :=
  let (emitter, table) := internString table ev.emitter
  let (rule, table) := internOptional table ev.rule
  let (file, table) := internOptional table ev.file
  (evidenceTag :: putVarint emitter ++ putVarint rule ++ putVarint file ++
    putVarint ((ev.line.map (· + 1)).getD 0) ++ [basisByte ev.basis], table)

def CodeSpan.of (file : String) (start : Nat) (text : Bytes) : CodeSpan where
  file := file
  start := start
  stop := min (start + text.length) (Kit.Attempt.wordLimit - 1)
  xxh64 := (Kit.XxHash.xxh64 0 text).toNat

def CodeSpan.encode (span : CodeSpan) (fileIx : Nat) : Bytes :=
  codeSpanTag :: putVarint fileIx ++ putVarint span.start ++ putVarint (span.stop - span.start) ++
    Kit.Wire.le 8 span.xxh64

end Encode

section Source

structure CellText where
  readEvidence : String → Option Evidence
  printEvidence : Evidence → String
  /-- The `file` text and the `start_line` number of a JSON text. -/
  position : String → Option (Option String × Option Nat)

inductive WriteSource where
  | local (read : Nat → String → Option Bytes)
  | shared (read : Nat → String → Option Bytes)

def lineStarts (bytes : Bytes) : List Nat :=
  0 :: (bytes.zipIdx.filter fun e => e.1 = 10).map fun e => e.2 + 1

def findOnLine (bytes : Bytes) (line : Nat) (text : Bytes) : Option Nat := do
  let start ← (lineStarts bytes)[line]?
  let stop := (((lineStarts bytes)[line + 1]?).map (· - 1)).getD bytes.length
  let first ← text.head?
  (List.range' start (stop + 1 - start)).find? fun k =>
    bytes[k]? = some first ∧ k + text.length ≤ bytes.length ∧
      Kit.Wire.slice bytes k text.length = text

def textBytes (s : String) : Bytes := s.toUTF8.data.toList

end Source

section Cells
variable (json : CellText)

/-- The evidence a payload holds when interning it loses nothing. -/
def canonicalEvidence : CellPayload → Option Evidence
  | .json s => do
    let ev ← json.readEvidence s
    if CellPayload.json (json.printEvidence ev) = .json s then some ev else none
  | _ => none

def firstPosition (cells : List Cell) : Option (String × Nat) :=
  (cells.filter fun c => c.kind = CellType.position).findSome? fun c =>
    match c.payload with
    | .json s | .text s => do
      let (file, line) ← json.position s
      let file ← file.filter (· ≠ "")
      let line ← line
      some (file, line)
    | .bytes _ => none

def isInternedEvidence : CellPayload → Bool
  | .bytes b => b.head? = some evidenceTag
  | _ => false

def isSpanBytes : CellPayload → Bool
  | .bytes b => b.head? = some codeSpanTag
  | _ => false

def isText : CellPayload → Bool
  | .text _ => true
  | _ => false

def cellsOf (kind : CellTypeId) (cells : List Cell) : List Cell :=
  cells.filter fun c => c.kind = kind

/-- A chunk of the edges: the copy, each EVIDENCE cell's canonical form, and the first edge with
an interned payload. -/
structure EdgeChunk where
  edges : List Edge
  evidence : List (Option Evidence) := []
  raw : Option Nat := none

def edgeCell (intern : Bool) (ix : Nat) (s : EdgeChunk) (c : Cell) : EdgeChunk :=
  let s := if s.raw.isNone ∧ isInternedEvidence c.payload then { s with raw := some ix } else s
  if intern then { s with evidence := s.evidence ++ [canonicalEvidence json c.payload] } else s

def edgeChunk (edges : List Edge) (intern : Bool) (range : Chunk) : EdgeChunk :=
  ((partOf edges range).zipIdx range.start).foldl
    (fun s e => (cellsOf CellType.evidence e.1.cells).foldl (edgeCell json intern e.2) s)
    { edges := partOf edges range }

/-- A chunk of the nodes: the copy, each node's first POSITION, and the first node with a span
payload. -/
structure NodeChunk where
  nodes : List Node
  positions : List (Option (String × Nat)) := []
  raw : Option Nat := none

def nodeCell (ix : Nat) (s : NodeChunk × Bool) (c : Cell) : NodeChunk × Bool :=
  (if s.1.raw.isNone ∧ isSpanBytes c.payload then { s.1 with raw := some ix } else s.1,
    s.2 || isText c.payload)

def nodeStep (span : Bool) (s : NodeChunk) (e : Node × Nat) : NodeChunk :=
  let (s, texts) := (cellsOf CellType.code e.1.cells).foldl (nodeCell e.2) (s, false)
  if span then
    { s with positions := s.positions ++ [if texts then firstPosition json e.1.cells else none] }
  else s

def nodeChunk (nodes : List Node) (span : Bool) (range : Chunk) : NodeChunk :=
  ((partOf nodes range).zipIdx range.start).foldl (nodeStep json span)
    { nodes := partOf nodes range }

end Cells

section InOrder

structure InternStats where
  interned : Nat := 0
  keptJson : Nat := 0
  deriving DecidableEq

structure CodeSpanStats where
  spanned : Nat := 0
  inline : Nat := 0
  savedBytes : Int := 0
  rehydrated : Nat := 0
  unresolved : Nat := 0
  deriving DecidableEq

/-- Each item in order, with what is carried from one to the next. -/
def passOver {S α β : Type} (f : S → α → S × β) : S → List α → S × List β
  | s, [] => (s, [])
  | s, a :: l =>
    let (s, b) := f s a
    let (s, rest) := passOver f s l
    (s, b :: rest)

structure Applying (D C : Type) where
  decisions : List (Option D)
  table : List String
  stats : C

def evidenceCell (s : Applying Evidence InternStats) (c : Cell) :
    Applying Evidence InternStats × Cell :=
  if c.kind ≠ CellType.evidence then (s, c)
  else
    match s.decisions.head?.join with
    | some ev =>
      let (bytes, table) := encodeEvidence s.table ev
      ({ s with decisions := s.decisions.tail, table
                stats := { s.stats with interned := s.stats.interned + 1 } },
        { c with payload := .bytes bytes })
    | none =>
      ({ s with decisions := s.decisions.tail
                stats := { s.stats with keptJson := s.stats.keptJson + 1 } }, c)

def applyEvidence (edges : List Edge) (decisions : List (Option Evidence))
    (table : List String) : Applying Evidence InternStats × List Edge :=
  passOver (fun s (e : Edge) =>
    let (s, cells) := passOver evidenceCell s e.cells
    (s, { e with cells })) ⟨decisions, table, {}⟩ edges

def spanCell (s : Applying CodeSpan CodeSpanStats) (c : Cell) :
    Applying CodeSpan CodeSpanStats × Cell :=
  if c.kind ≠ CellType.code then (s, c)
  else
    match s.decisions.head?.join, c.payload with
    | some span, .text text =>
      let (ix, table) := internString s.table span.file
      let bytes := span.encode ix
      let saved := ((textBytes text).length : Int) - (bytes.length : Int)
      ({ s with decisions := s.decisions.tail, table
                stats := { s.stats with
                  spanned := s.stats.spanned + 1
                  savedBytes := s.stats.savedBytes + saved } },
        { c with payload := .bytes bytes })
    | _, _ =>
      ({ s with decisions := s.decisions.tail
                stats := { s.stats with inline := s.stats.inline + 1 } }, c)

def applySpans (nodes : List Node) (decisions : List (Option CodeSpan)) (table : List String) :
    Applying CodeSpan CodeSpanStats × List Node :=
  passOver (fun s (n : Node) =>
    let (s, cells) := passOver spanCell s n.cells
    (s, { n with cells })) ⟨decisions, table, {}⟩ nodes

end InOrder

section Pooled

def cellChunkFloor : Nat := 2048
def fileChunkFloor : Nat := 16

abbrev PersistPool := Nat → PoolCall

def readSourceFiles (files : List String) (source : WriteSource) (repo : Nat)
    (pool : Option PoolCall) : List (Option Bytes) :=
  match source with
  | .shared read =>
    (parChunks files.length fileChunkFloor pool fun range =>
      (partOf files range).map (read repo)).flatten
  | .local read => files.map (read repo)

def spanDecisions (nodes : List Node) (positions : List (Option (String × Nat)))
    (files : List (String × Bytes)) : List (Option CodeSpan) :=
  nodes.zipIdx.flatMap fun e => (cellsOf CellType.code e.1.cells).map fun c =>
    match c.payload, positions[e.2]?.join with
    | .text text, some (file, line) => do
      let bytes ← files.lookup file
      let found ← findOnLine bytes line (textBytes text)
      some (CodeSpan.of file found (textBytes text))
    | _, _ => none

/-- Every CODE text found in its POSITION file stored as a span; the pool's calls are `read`
for the files and `decide` for the cells. -/
def spanCodeCells (nodes : List Node) (positions : List (Option (String × Nat)))
    (source : WriteSource) (repo : Nat) (table : List String)
    (read decide_ : Option PoolCall) : Applying CodeSpan CodeSpanStats × List Node :=
  let wanted := ((positions.filterMap id).map Prod.fst).dedup.insertionSort (· ≤ ·)
  let files := (wanted.zip (readSourceFiles wanted source repo read)).filterMap fun e =>
    e.2.map fun bytes => (e.1, bytes)
  let decisions := (parChunks nodes.length cellChunkFloor decide_ fun range =>
    spanDecisions (partOf nodes range) (partOf positions range) files).flatten
  applySpans nodes decisions table

structure PreparedCore where
  core : Container
  strings : Option EncodedSection
  evidence : InternStats
  spans : CodeSpanStats
  deriving DecidableEq

def stringsSection : String := "strings"

def codeCells (nodes : List Node) : Nat :=
  (nodes.flatMap fun n => cellsOf CellType.code n.cells).length

def evidenceCells (edges : List Edge) : Nat :=
  (edges.flatMap fun e => cellsOf CellType.evidence e.cells).length

def rawEdge (i : Nat) : String :=
  s!"edge {i} carries an EVIDENCE cell in the store's interned Bytes form (tag 0x01); " ++
    "EVIDENCE is JSON in memory (code-domain evidence.rs), and " ++
    "read_to_owned's raw form is only written back through its own file"

def rawNode (i : Nat) : String :=
  s!"node {i} carries a CODE cell in the store's span Bytes form (tag 0x02); " ++
    "CODE is text (or code_span JSON) in memory, and " ++
    "read_to_owned's raw form is only written back through its own file"

def prepareCore (json : CellText) (tables : Rkyv (List String)) (core : Container)
    (nodes : List Node) (edges : List Edge) (intern : Bool) (source : Option WriteSource)
    (pool : Option PersistPool) : Except StoreError PreparedCore :=
  let call (i : Nat) : Option PoolCall := pool.map fun p => p i
  let span := intern && source.isSome
  let edgeChunks := parChunks edges.length cellChunkFloor (call 0) (edgeChunk json edges intern)
  let nodeChunks := parChunks nodes.length cellChunkFloor (call 1) (nodeChunk json nodes span)
  match edgeChunks.findSome? (·.raw), nodeChunks.findSome? (·.raw) with
  | some i, _ => .error (.invalid (rawEdge i))
  | none, some i => .error (.invalid (rawNode i))
  | none, none =>
    let copied := edgeChunks.flatMap (·.edges)
    let decisions := edgeChunks.flatMap (·.evidence)
    let own := nodeChunks.flatMap (·.nodes)
    let positions := nodeChunks.flatMap (·.positions)
    if !intern then
      .ok { core := { core with edges := copied, nodes := own }
            strings := none
            evidence := { interned := 0, keptJson := evidenceCells copied }
            spans := { inline := codeCells own } }
    else
      let (interned, copied) := applyEvidence copied decisions []
      let (spans, own, table) := match source with
        | some source =>
          let (s, own) := spanCodeCells own positions source core.repo interned.table
            (call 2) (call 3)
          (s.stats, own, s.table)
        | none => (({ inline := codeCells own } : CodeSpanStats), own, interned.table)
      let ready (strings : Option EncodedSection) : PreparedCore :=
        { core := { core with edges := copied, nodes := own }
          strings, evidence := interned.stats, spans }
      if table.isEmpty then .ok (ready none)
      else
        match tables.toBytes table with
        | some bytes => .ok (ready (some ⟨stringsSection, bytes⟩))
        | none => .error .rkyv

end Pooled

end Glia.Store
