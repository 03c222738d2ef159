import Mathlib.Data.List.Sort
import Mathlib.Data.Prod.Lex
import Mathlib.Data.String.Basic

/-! JSON values as the program holds them, and the library that writes and reads their text. -/
namespace Glia

inductive Json where
  | null
  | bool (b : Bool)
  | posInt (n : UInt64)
  | negInt (n : Int64)
  | float (bits : UInt64)
  | str (s : String)
  | arr (items : List Json)
  | obj (fields : List (String × Json))

namespace Json

def asStr : Json → Option String
  | str s => some s
  | _ => none

def asArray : Json → Option (List Json)
  | arr items => some items
  | _ => none

def asObject : Json → Option (List (String × Json))
  | obj fields => some fields
  | _ => none

def asU64 : Json → Option UInt64
  | posInt n => some n
  | _ => none

def get (v : Json) (key : String) : Option Json := (v.asObject.getD []).lookup key

section Canonical

def sortFields (fields : List (String × Json)) : List (String × Json) :=
  fields.insertionSort fun a b => a.1 ≤ b.1

mutual

/-- The value with every object's keys in order. -/
def canonical : Json → Json
  | arr items => arr (canonicalItems items)
  | obj fields => obj (sortFields (canonicalFields fields))
  | v => v

def canonicalItems : List Json → List Json
  | [] => []
  | v :: vs => canonical v :: canonicalItems vs

def canonicalFields : List (String × Json) → List (String × Json)
  | [] => []
  | (key, v) :: fields => (key, canonical v) :: canonicalFields fields

end

mutual

/-- How deep arrays and objects lie inside one another. -/
def nesting : Json → Nat
  | arr items => nestingItems items + 1
  | obj fields => nestingFields fields + 1
  | _ => 0

def nestingItems : List Json → Nat
  | [] => 0
  | v :: vs => max (nesting v) (nestingItems vs)

def nestingFields : List (String × Json) → Nat
  | [] => 0
  | (_, v) :: fields => max (nesting v) (nestingFields fields)

end

mutual

/-- The value but for which floats it holds: reading a float back may round it. -/
def blurFloats : Json → Json
  | float _ => float 0
  | arr items => arr (blurItems items)
  | obj fields => obj (blurFields fields)
  | v => v

def blurItems : List Json → List Json
  | [] => []
  | v :: vs => blurFloats v :: blurItems vs

def blurFields : List (String × Json) → List (String × Json)
  | [] => []
  | (key, v) :: fields => (key, blurFloats v) :: blurFields fields

end

end Canonical

end Json

/-- The JSON library: a value's compact text, and the value a text holds. -/
structure Serde where
  toText : Json → String
  fromStr : String → Option Json

/-- Containers nested deeper than this are refused when read. -/
def Serde.maxNesting : Nat := 127

/-- A value's text reads back as it, floats rounded, unless it is nested too deep. -/
def Serde.ReadsBack (serde : Serde) (v : Json) : Prop :=
  (serde.fromStr (serde.toText v)).map Json.blurFloats =
    if v.nesting ≤ Serde.maxNesting then some v.blurFloats else none

end Glia
