import Glia.Kit.Grouping
import Mathlib

/-! The stat poll of a watch session over one repository: its file table, its watched inputs and
the racy watermark, with every stat and read of a scan or an update a step of its own. A session
over several moves the watermark to the start of the first one's scan; that is left out. -/
namespace Glia.Engine.Poll

open Glia.Kit (OrdMap)

section Disk

def racyWindow : Nat := 2000000000

structure FileStamp where
  len : Nat
  mtime : Option Nat
  deriving DecidableEq

/-- A file as its last write left it, stamped with that write's time rounded down. -/
structure File where
  bytes : List UInt8
  mtime : Nat
  written : Nat
  notAfter : mtime ≤ written
  within : written < mtime + racyWindow

abbrev Disk := String → Option File

def stampOf (f : Option File) : Option FileStamp :=
  f.map fun f => ⟨f.bytes.length, some f.mtime⟩

def bytesOf (f : Option File) : Option (List UInt8) := f.map File.bytes

end Disk

section Read

inductive PendingClass where
  | markdown (sourceFallback : Bool)
  | jsonSniff
  | nginxSniff
  | source
  deriving DecidableEq

inductive Read where
  | md (text : String)
  | json (overCap : Bool) (admitted : Option String)
  | src (text : String)
  | conf (admitted : Option String)
  | unreadable
  deriving DecidableEq

structure Env where
  xxh64 : List UInt8 → UInt64
  dotnetSettings : String → Bool
  jsonContract : String → Bool
  jsonSchema : String → Bool
  nginx : String → Bool

def markdownCap : Nat := 500000
def jsonContractCap : Nat := 512000
def confCap : Nat := 1024 * 1024

def readToString (bytes : Option (List UInt8)) : Option String :=
  bytes.bind fun b => String.fromUTF8? ⟨b.toArray⟩

variable (env : Env)

def readOne (rel : String) (cls : PendingClass) (f : Option File) : Read :=
  let len := f.map fun f => f.bytes.length
  let text := readToString (bytesOf f)
  match cls with
  | .markdown sourceFallback =>
    match text with
    | some t =>
      if len.any (· ≤ markdownCap) then .md t
      else if sourceFallback then .src t
      else .unreadable
    | none => .unreadable
  | .jsonSniff =>
    match len with
    | some n =>
      if jsonContractCap < n then .json true none
      else .json false (text.filter fun t =>
        env.dotnetSettings rel || env.jsonContract t || env.jsonSchema t)
    | none => .json false none
  | .nginxSniff =>
    .conf ((len.filter (· ≤ confCap)).bind fun _ => text.filter env.nginx)
  | .source => text.elim .unreadable .src

/-- The content fingerprint of a watched input. -/
def bytesFp (bytes : Option (List UInt8)) : UInt64 :=
  env.xxh64 (bytes.elim [0] fun b => 1 :: b)

end Read

section Session

inductive Input where
  | walk
  | includes
  | glia
  | identity
  deriving DecidableEq

structure Watched where
  cls : Input
  stamp : Option FileStamp

structure Consumed where
  walk : Bool
  includes : Bool
  glia : Bool
  identity : Bool

def Consumed.has (c : Consumed) : Input → Bool
  | .walk => c.walk
  | .includes => c.includes
  | .glia => c.glia
  | .identity => c.identity

structure ReadRecord where
  cls : PendingClass
  read : Read
  stamp : Option FileStamp

/-- The racy rule's span of mtimes. -/
structure Window where
  lo : Nat
  hi : Nat

def Window.between (scannedAt now : Nat) : Window := ⟨scannedAt - racyWindow, now + racyWindow⟩

def Window.racy (w : Window) (mtime : Option Nat) : Bool :=
  mtime.all fun m => w.lo ≤ m && m ≤ w.hi

/-- A repo's file table, watched inputs and baselines, and the racy watermark. -/
structure Session where
  table : OrdMap String ReadRecord
  watched : OrdMap String Watched
  baselines : OrdMap String (Input × UInt64)
  scannedAt : Nat

/-- How far a scan is with one file: its stat still to take, its content to read, or neither. -/
inductive Check where
  | todo
  | racy
  | done
  deriving DecidableEq

structure Scan where
  scanned : Nat
  started : Nat
  files : OrdMap String Check
  inputs : OrdMap String Check
  found : List String
  touched : List String

def Scan.window (sc : Scan) : Window := .between sc.scanned sc.started

def Scan.complete (sc : Scan) : Bool :=
  sc.files.toList.all (fun e => e.2 = .done) && sc.inputs.toList.all fun e => e.2 = .done

/-- An update's reads: the baselines captured, the stamps taken, the table's fresh records, the
bytes read of watched inputs, and the files written since it started. -/
structure Work where
  replan : Bool
  scanned : Nat
  capturing : OrdMap String Input
  captured : OrdMap String (Input × UInt64)
  stamps : OrdMap String (Option FileStamp)
  fresh : OrdMap String ReadRecord
  inputs : OrdMap String (Option (List UInt8))
  touched : List String

inductive Phase where
  | idle
  | scan (sc : Scan)
  | work (w : Work)
  /-- The committed update's watched inputs, the ones to stat last. -/
  | refresh (inputs : OrdMap String (Option (List UInt8))) (todo : List (String × Input))

/-- `lastRead` is what the last update that read a watched input's class read of it. -/
structure State where
  clock : Nat
  disk : Disk
  session : Session
  phase : Phase
  lastRead : String → Option (List UInt8)

end Session

section Step

inductive Event where
  | tick (now : Nat)
  | write (rel : String) (bytes : List UInt8) (mtime : Nat)
  | scanStart
  | scanStat (rel : String)
  | scanRead (rel : String) (read : Read)
  | inputStat (rel : String)
  | inputFp (rel : String) (fp : UInt64)
  /-- A directory that moved, or a new file under `.glia`. -/
  | scanOther (rel : String)
  | scanEnd
  | updateStart (replan : Bool)
  | captureStat (rel : String) (cls : Input)
  | captureFp (rel : String) (fp : UInt64)
  | fileStamp (rel : String)
  | fileRead (rel : String) (cls : PendingClass) (read : Read)
  | inputRead (rel : String) (bytes : Option (List UInt8))
  | commit (plan : OrdMap String PendingClass) (consumed : Consumed)
      (todo : List (String × Input))
  | refreshInput
  | updateEnd

def Phase.touch (rel : String) : Phase → Phase
  | scan sc => .scan { sc with touched := rel :: sc.touched }
  | work w => .work { w with touched := rel :: w.touched }
  | p => p

variable (env : Env)

def planned (session : Session) (w : Work) (rel : String) (cls : PendingClass) :
    Option ReadRecord :=
  (w.fresh[rel]?.or session.table[rel]?).filter fun r => r.cls = cls

def Session.commit (session : Session) (w : Work) (plan : OrdMap String PendingClass)
    (consumed : Consumed) : Session where
  table := plan.filterMap (planned session w)
  watched := session.watched.filter fun _ v => !consumed.has v.cls
  baselines := session.baselines.filter (fun _ b => !consumed.has b.1) ∪
    w.captured.filter fun _ b => consumed.has b.1
  scannedAt := session.scannedAt

/-- One step, `none` where it cannot happen. A read or fingerprint that a write fell into is
whatever it is. -/
def step (s : State) : Event → Option State
  | .tick now => if s.clock ≤ now then some { s with clock := now } else none
  | .write rel bytes mtime =>
    if h : mtime ≤ s.clock ∧ s.clock < mtime + racyWindow then
      some { s with
        disk := Function.update s.disk rel (some ⟨bytes, mtime, s.clock, h.1, h.2⟩)
        phase := s.phase.touch rel }
    else none
  | .scanStart =>
    match s.phase with
    | .idle => some { s with phase := .scan {
        scanned := s.session.scannedAt
        started := s.clock
        files := s.session.table.map fun _ _ => .todo
        inputs := s.session.watched.map fun _ _ => .todo
        found := []
        touched := [] } }
    | _ => none
  | .scanStat rel =>
    match s.phase, s.session.table[rel]? with
    | .scan sc, some r =>
      if sc.files[rel]? ≠ some .todo then none
      else if stampOf (s.disk rel) ≠ r.stamp then
        some { s with phase := .scan { sc with
          files := sc.files.insert rel .done, found := rel :: sc.found } }
      else if r.stamp.any fun st => sc.window.racy st.mtime then
        some { s with phase := .scan { sc with files := sc.files.insert rel .racy } }
      else some { s with phase := .scan { sc with files := sc.files.insert rel .done } }
    | _, _ => none
  | .scanRead rel read =>
    match s.phase, s.session.table[rel]? with
    | .scan sc, some r =>
      if sc.files[rel]? ≠ some .racy ∨
          ¬(read = readOne env rel r.cls (s.disk rel) ∨ rel ∈ sc.touched) then none
      else
        some { s with phase := .scan { sc with
          files := sc.files.insert rel .done
          found := if read = r.read then sc.found else rel :: sc.found } }
    | _, _ => none
  | .inputStat rel =>
    match s.phase, s.session.watched[rel]? with
    | .scan sc, some v =>
      if sc.inputs[rel]? ≠ some .todo then none
      else if stampOf (s.disk rel) ≠ v.stamp then
        some { s with phase := .scan { sc with
          inputs := sc.inputs.insert rel .done, found := rel :: sc.found } }
      else if v.stamp.any fun st => sc.window.racy st.mtime then
        some { s with phase := .scan { sc with inputs := sc.inputs.insert rel .racy } }
      else some { s with phase := .scan { sc with inputs := sc.inputs.insert rel .done } }
    | _, _ => none
  | .inputFp rel fp =>
    match s.phase with
    | .scan sc =>
      if sc.inputs[rel]? ≠ some .racy ∨
          ¬(fp = bytesFp env (bytesOf (s.disk rel)) ∨ rel ∈ sc.touched) then none
      else
        some { s with phase := .scan { sc with
          inputs := sc.inputs.insert rel .done
          found :=
            if (s.session.baselines[rel]?).map Prod.snd = some fp then sc.found
            else rel :: sc.found } }
    | _ => none
  | .scanOther rel =>
    match s.phase with
    | .scan sc => some { s with phase := .scan { sc with found := rel :: sc.found } }
    | _ => none
  | .scanEnd =>
    match s.phase with
    | .scan sc =>
      if sc.complete then
        some { s with
          phase := .idle
          session := { s.session with
            scannedAt :=
              if sc.found = [] then max s.session.scannedAt sc.started
              else s.session.scannedAt } }
      else none
    | _ => none
  | .updateStart replan =>
    match s.phase with
    | .idle => some { s with phase := .work {
        replan
        scanned := s.session.scannedAt
        capturing := ∅
        captured := ∅
        stamps := ∅
        fresh := ∅
        inputs := ∅
        touched := [] } }
    | _ => none
  | .captureStat rel cls =>
    match s.phase with
    | .work w =>
      if ((s.session.watched[rel]?).map Watched.cls).getD .glia = cls ∧
          (stampOf (s.disk rel)).any fun st => (Window.between w.scanned s.clock).racy st.mtime then
        some { s with phase := .work { w with capturing := w.capturing.insert rel cls } }
      else none
    | _ => none
  | .captureFp rel fp =>
    match s.phase with
    | .work w =>
      match w.capturing[rel]? with
      | some cls =>
        if fp = bytesFp env (bytesOf (s.disk rel)) ∨ rel ∈ w.touched then
          some { s with phase := .work { w with captured := w.captured.insert rel (cls, fp) } }
        else none
      | none => none
    | _ => none
  | .fileStamp rel =>
    match s.phase with
    | .work w => some { s with phase := .work { w with
        stamps := w.stamps.insert rel (stampOf (s.disk rel)) } }
    | _ => none
  | .fileRead rel cls read =>
    match s.phase with
    | .work w =>
      match w.stamps[rel]? with
      | some stamp =>
        if ¬(read = readOne env rel cls (s.disk rel) ∨ rel ∈ w.touched) then none
        else
          match s.session.table[rel]? with
          | some old =>
            if w.replan = false ∧ old.cls = cls ∧ old.read = read then
              some { s with session := { s.session with
                table := s.session.table.insert rel { old with stamp } } }
            else some { s with phase := .work { w with
              fresh := w.fresh.insert rel ⟨cls, read, stamp⟩ } }
          | none => some { s with phase := .work { w with
              fresh := w.fresh.insert rel ⟨cls, read, stamp⟩ } }
      | none => none
    | _ => none
  | .inputRead rel bytes =>
    match s.phase with
    | .work w =>
      if bytes = bytesOf (s.disk rel) ∨ rel ∈ w.touched then
        some { s with phase := .work { w with inputs := w.inputs.insert rel bytes } }
      else none
    | _ => none
  | .commit plan consumed todo =>
    match s.phase with
    | .work w =>
      if plan.toList.all (fun e => (planned s.session w e.1 e.2).isSome) ∧
          todo.all fun e => consumed.has e.2 && w.inputs.contains e.1 then
        some { s with
          session := s.session.commit w plan consumed
          phase := .refresh w.inputs todo }
      else none
    | _ => none
  | .refreshInput =>
    match s.phase with
    | .refresh inputs ((rel, cls) :: todo) =>
      if s.session.watched.contains rel then
        some { s with phase := .refresh inputs todo }
      else
        some { s with
          session := { s.session with
            watched := s.session.watched.insert rel ⟨cls, stampOf (s.disk rel)⟩ }
          lastRead := Function.update s.lastRead rel (inputs[rel]?).join
          phase := .refresh inputs todo }
    | _ => none
  | .updateEnd =>
    match s.phase with
    | .work _ => some { s with phase := .idle }
    | .refresh _ [] => some { s with phase := .idle }
    | _ => none

/-- The state after the events, `none` where one cannot happen. -/
def run (s : State) : List Event → Option State
  | [] => some s
  | e :: es => (step env s e).bind fun s => run s es

/-- A session that opens now: the watermark before any read, and nothing read yet. -/
def opening (clock : Nat) (disk : Disk) : State where
  clock
  disk
  session := ⟨∅, ∅, ∅, clock⟩
  phase := .work ⟨true, clock, ∅, ∅, ∅, ∅, ∅, []⟩
  lastRead _ := none

end Step

end Glia.Engine.Poll
