import Glia.Core
import Glia.Kit.Wire
import Mathlib.Data.List.Sort

/-! The container file: a fixed preamble, the sections every domain writes, and the archived core
that locates them. -/
namespace Glia.Store

open Glia.Kit.Wire

abbrev Bytes := List UInt8

/-- What the archiver does for one type: it writes a value, and checks and reads one back. -/
structure Rkyv (α : Type) where
  toBytes : α → Option Bytes
  access : Bytes → Option α

def Rkyv.Lossless {α : Type} (r : Rkyv α) : Prop :=
  ∀ a b, r.toBytes a = some b → r.access b = some a

inductive StoreError where
  | io (detail : String)
  | rkyv
  | badMagic (got : Bytes)
  | unsupportedVersion (got : Nat)
  | oldFormat (found : Option Nat)
  | futureFormat (found : Nat)
  | corrupt (detail : String)
  | manifestJson (detail : String)
  | manifestSchemaVersion (got : Nat)
  | contentHashMismatch (shard expected got : String)
  | shardMissing (shard : String)
  | invalid (detail : String)
  -- Not a value of the source's: a file past the largest allocation stops the process.
  | capacityOverflow
  deriving DecidableEq, Repr

def magic : Bytes := ['G', 'M', 'A', 'P'].map Char.toUInt8
def formatVersion : Nat := 3
def preambleMagic : Bytes := ['G', 'L', 'I', 'A', 'G', 'M', 'A', 'P'].map Char.toUInt8
def preambleLen : Nat := 32
def coreAlign : Nat := 16
def archiveInvalid : String :=
  "archive does not validate (same format version, different layout: a dev build from another commit, or a damaged file)"

/-- The first size a `usize` does not hold, and the first one no buffer has. -/
def usizeLimit : Nat := 2 ^ 64
def allocationLimit : Nat := 2 ^ 63

section Shape

structure RegistryEntry where
  id : Nat
  name : String
  deriving DecidableEq, Repr

structure Header where
  magic : Bytes
  version : Nat
  graphType : String
  cellRegistry : List RegistryEntry := []
  edgeCategoryRegistry : List RegistryEntry := []
  nodeKindRegistry : List RegistryEntry := []
  deriving DecidableEq, Repr

structure Node where
  id : NodeId
  repo : Nat
  confidence : Confidence
  cells : List Cell := []
  deriving DecidableEq, Repr

structure SectionEntry where
  name : String
  offset : Nat
  len : Nat
  deriving DecidableEq, Repr

structure Container where
  header : Header
  repo : Nat
  nodes : List Node
  edges : List Edge
  nodeKinds : List (NodeId × Nat)
  sections : List SectionEntry := []
  deriving DecidableEq, Repr

structure EncodedSection where
  name : String
  bytes : Bytes
  deriving DecidableEq, Repr

end Shape

namespace Header

def new (graphType : String) : Header where
  magic := Store.magic
  version := formatVersion
  graphType := graphType

def registry (table : String) (pairs : List (Nat × String)) :
    Except StoreError (List RegistryEntry) :=
  let out := (pairs.map fun p => RegistryEntry.mk p.1 p.2).mergeSort fun a b => a.id ≤ b.id
  match (out.zip out.tail).find? fun w => w.1.id == w.2.id with
  | some (a, b) => .error (.corrupt
      s!"duplicate registry id {a.id} in the {table} table ({a.name} and {b.name})")
  | none => .ok out

def forDomain (graphType : String) (r : Registries) : Except StoreError Header := do
  let kinds ← registry "node_kind" r.nodeKinds
  let categories ← registry "edge_category" r.edgeCategories
  let cells ← registry "cell_type" r.cellTypes
  return { new graphType with
    nodeKindRegistry := kinds, edgeCategoryRegistry := categories, cellRegistry := cells }

def codeGraphType : String := "code"

/-- The code domain's header; with a repeated id its registries are empty. -/
def forCode (r : Registries) : Header :=
  match forDomain codeGraphType r with
  | .ok h => h
  | .error _ => new codeGraphType

end Header

section Encode

def alignUp (at_ : Nat) : Except StoreError Nat :=
  let up := (at_ + (coreAlign - 1)) / coreAlign * coreAlign
  if up < usizeLimit then .ok up else .error (.corrupt s!"file layout overflows at offset {at_}")

def layoutFrom (table : List SectionEntry) (at_ : Nat) :
    List EncodedSection → Except StoreError (List SectionEntry × Nat)
  | [] => do
    let core ← alignUp at_
    return (table, core)
  | s :: rest =>
    if table.any fun e => e.name == s.name then
      .error (.corrupt s!"duplicate section name '{s.name}' in one file")
    else do
      let start ← alignUp at_
      if start + s.bytes.length < usizeLimit then
        layoutFrom (table ++ [⟨s.name, start, s.bytes.length⟩]) (start + s.bytes.length) rest
      else .error (.corrupt s!"section '{s.name}' overflows the file layout")

def layoutSections (sections : List EncodedSection) :
    Except StoreError (List SectionEntry × Nat) :=
  layoutFrom [] preambleLen sections

def preamble (coreOffset coreLen : Nat) : Bytes :=
  preambleMagic ++ le 4 formatVersion ++ le 4 0 ++ le 8 coreOffset ++ le 8 coreLen

def writeSections (out : Bytes) (table : List SectionEntry) (sections : List EncodedSection) :
    Bytes :=
  (table.zip sections).foldl (fun out p => resize 0 out p.1.offset ++ p.2.bytes) out

def Container.settled (core : Container) (table : List SectionEntry) : Container :=
  { core with
    sections := table
    nodeKinds := core.nodeKinds.mergeSort fun a b => a.1 ≤ b.1 }

def encodeFile (r : Rkyv Container) (core : Container) (sections : List EncodedSection) :
    Except StoreError Bytes := do
  let (table, coreOffset) ← layoutSections sections
  match r.toBytes (core.settled table) with
  | none => .error .rkyv
  | some archive =>
    if coreOffset + archive.length < allocationLimit then
      let out := writeSections (preamble coreOffset archive.length) table sections
      return resize 0 out coreOffset ++ archive
    else .error .capacityOverflow

end Encode

section Read

structure ByteRange where
  start : Nat
  stop : Nat
  deriving DecidableEq, Repr

def ByteRange.of (range : ByteRange) (bytes : Bytes) : Bytes :=
  slice bytes range.start (range.stop - range.start)

def splitFile (bytes : Bytes) : Except StoreError ByteRange :=
  if bytes.take 8 ≠ preambleMagic then .error (.oldFormat none)
  else if bytes.length < preambleLen then
    .error (.corrupt s!"truncated preamble ({bytes.length} of {preambleLen} bytes)")
  else
    let version := word (slice bytes 8 4)
    if version < formatVersion then .error (.oldFormat (some version))
    else if version > formatVersion then .error (.futureFormat version)
    else
      let start := word (slice bytes 16 8)
      let len := word (slice bytes 24 8)
      -- A sum past the largest `usize` is past the end of every file too.
      if start < preambleLen ∨ start + len > bytes.length then
        .error (.corrupt s!"core range {start}+{len} lies outside the {bytes.length}-byte file")
      else if start % coreAlign ≠ 0 then
        .error (.corrupt s!"core offset {start} is not {coreAlign}-byte aligned")
      else .ok ⟨start, start + len⟩

structure MmapContainer where
  bytes : Bytes
  core : ByteRange
  sections : List (String × ByteRange)
  deriving DecidableEq, Repr

def archivedIn (r : Rkyv Container) (bytes : Bytes) (core : ByteRange) :
    Except StoreError Container :=
  match r.access (core.of bytes) with
  | some c => .ok c
  | none => .error (.corrupt archiveInvalid)

def validateHeader (h : Header) : Except StoreError Unit :=
  if h.magic ≠ magic then .error (.badMagic h.magic)
  else if h.version ≠ formatVersion then .error (.unsupportedVersion h.version)
  else .ok ()

def resolveFrom (coreStart : Nat) (out : List (String × ByteRange)) (prevEnd : Nat) :
    List SectionEntry → Except StoreError (List (String × ByteRange))
  | [] => .ok out
  | e :: rest =>
    if usizeLimit ≤ e.offset + e.len then
      .error (.corrupt s!"section '{e.name}' at {e.offset}+{e.len} lies outside the file")
    else if e.offset < prevEnd ∨ e.offset + e.len > coreStart then
      .error (.corrupt s!"section '{e.name}' at {e.offset}+{e.len} is not between the previous section (ending {prevEnd}) and the core (at {coreStart})")
    else if e.offset % coreAlign ≠ 0 then
      .error (.corrupt s!"section '{e.name}' at {e.offset}+{e.len} is not {coreAlign}-byte aligned")
    else if out.any fun p => p.1 == e.name then
      .error (.corrupt s!"section '{e.name}' at {e.offset}+{e.len} repeats a section name")
    else resolveFrom coreStart (out ++ [(e.name, ⟨e.offset, e.offset + e.len⟩)])
      (e.offset + e.len) rest

namespace MmapContainer

def open_ (r : Rkyv Container) (bytes : Bytes) : Except StoreError MmapContainer := do
  let core ← splitFile bytes
  let archived ← archivedIn r bytes core
  validateHeader archived.header
  let sections ← resolveFrom core.start [] preambleLen archived.sections
  return ⟨bytes, core, sections⟩

def archived (r : Rkyv Container) (m : MmapContainer) : Except StoreError Container :=
  archivedIn r m.bytes m.core

def sectionBytes (m : MmapContainer) (name : String) : Option Bytes :=
  (m.sections.find? fun p => p.1 == name).map fun p => p.2.of m.bytes

end MmapContainer

end Read

/-- The shard content hash, as 16 lowercase hex characters. -/
def hexXxhash64 (bytes : Bytes) : String :=
  let digits := Nat.toDigits 16 (Glia.Kit.XxHash.xxh64 0 bytes).toNat
  String.ofList (List.replicate (16 - digits.length) '0' ++ digits)

end Glia.Store
