import Glia.Engine.Delta
import Glia.Kit.Checked
import Glia.Store.Container
import Mathlib.Data.Nat.Bitwise

/-! The interned EVIDENCE and CODE span payloads, and that reading one never leaves it. -/
namespace Glia.Store

open Glia.Engine (Basis Evidence)
open Glia.Kit (Attempt)
open Glia.Kit.Attempt (plus minus index exactly wordLimit Ends)

section Varint

def varintShifts : List Nat := (List.range 10).map (· * 7)

def takeVarintFrom (bytes : Bytes) (what : String) : List Nat → Nat → Nat → Attempt String (Nat × Nat)
  | [], _, _ => throw s!"varint ({what}) overflows u64"
  | shift :: shifts, v, at_ =>
    match bytes[at_]? with
    | none => throw s!"truncated varint ({what}) at byte {at_}"
    | some b => do
      let next ← plus at_ 1
      let low := b.toNat % 128
      if shift = 63 ∧ 1 < low then throw s!"varint ({what}) overflows u64"
      else
        let v := v ||| (low <<< shift) % wordLimit
        if b.toNat < 128 then pure (v, next) else takeVarintFrom bytes what shifts v next

def takeVarint (bytes : Bytes) (at_ : Nat) (what : String) : Attempt String (Nat × Nat) :=
  takeVarintFrom bytes what varintShifts 0 at_

theorem takeVarintFrom_ends {bytes : Bytes} (small : bytes.length < allocationLimit)
    (what : String) (shifts : List Nat) {v : Nat} (fits : v < wordLimit) (at_ : Nat) :
    Ends (takeVarintFrom bytes what shifts v at_)
      fun p => p.1 < wordLimit ∧ at_ < p.2 ∧ p.2 ≤ bytes.length := by
  induction shifts generalizing v at_ with
  | nil => exact .throw _
  | cons shift shifts ih =>
    rw [takeVarintFrom]
    split
    · exact .throw _
    · rename_i b read
      have inside : at_ < bytes.length := (List.getElem?_eq_some_iff.mp read).1
      have limits : allocationLimit ≤ wordLimit := by decide
      refine (Ends.plus (by omega)).bind ?_
      rintro next rfl
      dsimp only
      split
      · exact .throw _
      · have grown : v ||| (b.toNat % 128) <<< shift % wordLimit < wordLimit :=
          Nat.or_lt_two_pow fits (Nat.mod_lt _ (by decide))
        split
        · exact .pure ⟨grown, Nat.lt_succ_self _, inside⟩
        · refine (ih grown (at_ + 1)).mono ?_
          rintro p ⟨bound, after, within⟩
          exact ⟨bound, (Nat.lt_succ_self _).trans after, within⟩

theorem takeVarint_ends {bytes : Bytes} (small : bytes.length < allocationLimit) (at_ : Nat)
    (what : String) : Ends (takeVarint bytes at_ what)
      fun p => p.1 < wordLimit ∧ at_ < p.2 ∧ p.2 ≤ bytes.length :=
  takeVarintFrom_ends small what _ (by decide) at_

end Varint

section Evidence

def evidenceTag : UInt8 := 1

def basisOf : Nat → Option Basis
  | 0 => some .absent
  | 1 => some .site
  | 2 => some .fromNode
  | 3 => some .toNode
  | 4 => some .file
  | _ => none

variable (tableLen : Nat) (string : Nat → Option String)

def lookupString (what : String) (ix : Nat) : Attempt String String :=
  match string ix with
  | some s => pure s
  | none => throw s!"{what} index {ix} outside the {tableLen}-entry strings table"

def lookupOptional (what : String) (ix : Nat) : Attempt String (Option String) :=
  if ix = 0 then pure none
  else do
    let i ← minus ix 1
    let s ← lookupString tableLen string what i
    pure (some s)

def takeBasis (bytes : Bytes) (at_ : Nat) : Attempt String Basis :=
  match bytes[at_]? with
  | none => throw s!"truncated payload: no basis byte at byte {at_}"
  | some b =>
    match basisOf b.toNat with
    | none => throw s!"unknown basis byte {b.toNat}"
    | some basis => do
      let next ← plus at_ 1
      if next ≠ bytes.length then
        let past ← minus bytes.length at_
        let rest ← minus past 1
        throw s!"{rest} trailing byte(s)"
      else pure basis

def takeLine (bytes : Bytes) (at_ : Nat) : Attempt String (Option Nat × Nat) := do
  let (l, next) ← takeVarint bytes at_ "line"
  if l = 0 then pure (none, next)
  else
    let n ← minus l 1
    if n < 4294967296 then pure (some n, next) else throw s!"line {n} past u32"

def decodeEvidence (bytes : Bytes) : Attempt String Evidence := do
  let (emitterIx, at_) ← takeVarint bytes 1 "emitter"
  let emitter ← lookupString tableLen string "emitter" emitterIx
  let (ruleIx, at_) ← takeVarint bytes at_ "rule"
  let rule ← lookupOptional tableLen string "rule" ruleIx
  let (fileIx, at_) ← takeVarint bytes at_ "file"
  let file ← lookupOptional tableLen string "file" fileIx
  let (line, at_) ← takeLine bytes at_
  let basis ← takeBasis bytes at_
  pure { emitter, rule, file, line, basis }

theorem lookupString_ends (what : String) (ix : Nat) :
    Ends (lookupString tableLen string what ix) fun _ => True := by
  rw [lookupString]
  cases string ix with
  | none => exact .throw _
  | some s => exact .pure trivial

theorem lookupOptional_ends (what : String) (ix : Nat) :
    Ends (lookupOptional tableLen string what ix) fun _ => True := by
  rw [lookupOptional]
  split
  · exact .pure trivial
  · refine (Ends.minus (by omega)).bind fun i _ => ?_
    exact (lookupString_ends tableLen string what i).bind fun _ _ => .pure trivial

variable {bytes : Bytes} (small : bytes.length < allocationLimit)
include small

theorem takeBasis_ends (at_ : Nat) : Ends (takeBasis bytes at_) fun _ => True := by
  rw [takeBasis]
  split
  · exact .throw _
  · rename_i b read
    have inside : at_ < bytes.length := (List.getElem?_eq_some_iff.mp read).1
    have limits : allocationLimit ≤ wordLimit := by decide
    split
    · exact .throw _
    · refine (Ends.plus (by omega)).bind ?_
      rintro next rfl
      split
      · refine (Ends.minus inside.le).bind ?_
        rintro past rfl
        exact (Ends.minus (by omega)).bind fun rest _ => .throw _
      · exact .pure trivial

theorem takeLine_ends (at_ : Nat) : Ends (takeLine bytes at_) fun _ => True := by
  refine (takeVarint_ends small at_ "line").bind ?_
  rintro ⟨l, next⟩ -
  dsimp only
  split
  · exact .pure trivial
  · refine (Ends.minus (by omega)).bind fun n _ => ?_
    split
    · exact .pure trivial
    · exact .throw _

theorem decodeEvidence_ends : Ends (decodeEvidence tableLen string bytes) fun _ => True := by
  refine (takeVarint_ends small 1 "emitter").bind ?_
  rintro ⟨emitterIx, at1⟩ -
  refine (lookupString_ends tableLen string "emitter" emitterIx).bind fun emitter _ => ?_
  refine (takeVarint_ends small at1 "rule").bind ?_
  rintro ⟨ruleIx, at2⟩ -
  refine (lookupOptional_ends tableLen string "rule" ruleIx).bind fun rule _ => ?_
  refine (takeVarint_ends small at2 "file").bind ?_
  rintro ⟨fileIx, at3⟩ -
  refine (lookupOptional_ends tableLen string "file" fileIx).bind fun file _ => ?_
  refine (takeLine_ends small at3).bind ?_
  rintro ⟨line, at4⟩ -
  exact (takeBasis_ends small at4).bind fun basis _ => .pure trivial

end Evidence

section Span

def codeSpanTag : UInt8 := 2

structure CodeSpan where
  file : String
  start : Nat
  stop : Nat
  xxh64 : Nat
  deriving DecidableEq

def showTag : Option UInt8 → String
  | none => "None"
  | some b => s!"Some({b.toNat})"

def takeHash (bytes : Bytes) (at_ : Nat) : Attempt String Nat := do
  let stop_ ← plus at_ 8
  if bytes.length < stop_ then throw s!"truncated payload: no 8-byte xxh64 at byte {at_}"
  else
    let hash ← index bytes at_ stop_
    let copy ← exactly hash 8
    if stop_ ≠ bytes.length then
      let past ← minus bytes.length at_
      let rest ← minus past 8
      throw s!"{rest} trailing byte(s)"
    else pure (Kit.Wire.word copy)

def CodeSpan.decode (tableLen : Nat) (file : Nat → Option String) (bytes : Bytes) :
    Attempt String CodeSpan :=
  if bytes[0]? ≠ some codeSpanTag then
    throw s!"not a CODE span payload (tag {showTag bytes[0]?})"
  else do
    let (ix, at_) ← takeVarint bytes 1 "file"
    let file ← lookupString tableLen file "file" ix
    let (start, at_) ← takeVarint bytes at_ "start"
    let (len, at_) ← takeVarint bytes at_ "len"
    if wordLimit ≤ start + len then throw s!"range {start}+{len} past u64"
    else
      let xxh64 ← takeHash bytes at_
      pure { file, start, stop := start + len, xxh64 }

variable {bytes : Bytes} (small : bytes.length < allocationLimit)
include small

theorem takeHash_ends {at_ : Nat} (inside : at_ ≤ bytes.length) :
    Ends (takeHash bytes at_) fun _ => True := by
  have limits : allocationLimit + 8 ≤ wordLimit := by decide
  refine (Ends.plus (by omega)).bind ?_
  rintro stop_ rfl
  split
  · exact .throw _
  · rename_i whole
    refine (Ends.index (by omega) (by omega)).bind ?_
    rintro hash rfl
    have long : (Kit.Wire.slice bytes at_ (at_ + 8 - at_)).length = 8 := by
      rw [Kit.Wire.length_slice (by omega)]
      omega
    refine (Ends.exactly long).bind fun copy _ => ?_
    split
    · refine (Ends.minus (by omega)).bind ?_
      rintro past rfl
      exact (Ends.minus (by omega)).bind fun rest _ => .throw _
    · exact .pure trivial

theorem CodeSpan.decode_ends (tableLen : Nat) (file : Nat → Option String) :
    Ends (CodeSpan.decode tableLen file bytes) fun _ => True := by
  rw [CodeSpan.decode]
  split
  · exact .throw _
  · refine (takeVarint_ends small 1 "file").bind ?_
    rintro ⟨ix, at1⟩ -
    refine (lookupString_ends tableLen file "file" ix).bind fun name _ => ?_
    refine (takeVarint_ends small at1 "start").bind ?_
    rintro ⟨start, at2⟩ -
    refine (takeVarint_ends small at2 "len").bind ?_
    rintro ⟨len, at3⟩ ⟨-, -, within⟩
    dsimp only
    split
    · exact .throw _
    · exact (takeHash_ends small within).bind fun xxh64 _ => .pure trivial

end Span

end Glia.Store
