import Glia.Graph.HttpRoutes
import Mathlib.Data.List.TakeWhile

/-! The spelling of a project path as the owner segment of a qname, and the table that numbers the
owners of a build's targets. -/
namespace Glia.Graph.Host

open Glia.Kit (OrdMap)
open Text (isWhitespace)

section Spelling

def hexUpper (n : Nat) : Char := Char.ofNat (if n < 10 then 48 + n else 55 + n)

def percentByte (b : UInt8) : List Char := ['%', hexUpper (b.toNat / 16), hexUpper (b.toNat % 16)]

def escaped (c : Char) : Bool := isWhitespace c || c = '%'

def escapeChar (c : Char) : List Char :=
  if escaped c then (String.utf8EncodeChar c).flatMap percentByte else [c]

def ownerSpelling (rel : String) : String :=
  if rel.toList.any escaped = false then rel else String.ofList (rel.toList.flatMap escapeChar)

/-- A project path as the owner pass writes it into a qname. -/
def ownerSegment (rel : String) : String :=
  if rel.toList.any escaped = false then rel else String.ofList (rel.toList.flatMap escapeChar)

def withOwner (qname owner : String) : String :=
  if owner = "" then qname else qname ++ " @" ++ owner

theorem spelling_eq_segment (rel : String) : ownerSpelling rel = ownerSegment rel := rfl

def Plain (s : String) : Prop := s.toList.any escaped = false

instance (s : String) : Decidable (Plain s) := inferInstanceAs (Decidable (_ = _))

end Spelling

section Split

end Split

section Table

/-- The largest table: an owner's number is a `u32`. -/
def ownerLimit : Nat := 2 ^ 32

structure Owners where
  names : List String := []
  byName : OrdMap String Nat := ∅
  tied : ∀ (s : String) (i : Nat), byName[s]? = some i ↔ names[i]? = some s := by simp

namespace Owners

def idOfSegment (o : Owners) (segment : String) : Option Nat := o.byName[segment]?

def idOf (o : Owners) (rel : String) : Option Nat := o.byName[ownerSpelling rel]?

theorem fresh {o : Owners} {s : String} (new : o.byName[s]? = none) (i : Nat) :
    o.names[i]? ≠ some s := by
  rw [Ne, ← o.tied, new]
  exact nofun

/-- A segment seen first takes the next number. -/
def push (o : Owners) (s : String) (new : o.byName[s]? = none) : Owners where
  names := o.names ++ [s]
  byName := o.byName.insert s o.names.length
  tied := by
    intro t i
    simp only [Std.ExtTreeMap.getElem?_insert, compare_eq_iff_eq]
    by_cases same : s = t
    · subst same
      rw [if_pos rfl, Option.some_inj]
      have here := fresh new
      grind
    · rw [if_neg same, o.tied]
      grind

/-- The number of an owner, its next one on first sight while there is one. -/
def intern (o : Owners) (owner : String) : Option Nat × Owners :=
  match h : o.byName[owner]? with
  | some i => (some i, o)
  | none => if o.names.length < ownerLimit then (some o.names.length, o.push owner h) else (none, o)

theorem intern_known {o : Owners} {s : String} {i : Nat} (known : o.idOfSegment s = some i) :
    o.intern s = (some i, o) := by
  unfold intern
  split
  · next j held => rw [Option.some_inj.mp (held.symm.trans known)]
  · next none_ => cases none_.symm.trans known

theorem intern_new {o : Owners} {s : String} (new : o.idOfSegment s = none)
    (room : o.names.length < ownerLimit) :
    o.intern s = (some o.names.length, o.push s new) := by
  unfold intern
  split
  · next held => cases held.symm.trans new
  · exact if_pos room

def seeAlso (seen : List String) (s : String) : List String := if s ∈ seen then seen else seen ++ [s]

def firstSeen (l : List String) : List String := l.foldl seeAlso []

end Owners

end Table

end Glia.Graph.Host
