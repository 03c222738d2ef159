import Glia.Graph.Identity

/-! What a node's cells say: its POSITION file, and the hash of its code. -/
namespace Glia.Graph

def fnvOffset : UInt64 := 0xcbf29ce484222325

def fnvPrime : UInt64 := 0x00000100000001b3

/-- Bodies of fewer characters, whitespace collapsed, carry no hash. -/
def minBodyChars : Nat := 40

def fnv1a (state : UInt64) (bytes : List UInt8) : UInt64 :=
  bytes.foldl (fun s b => (s ^^^ b.toUInt64) * fnvPrime) state

def words : List Char → List Char → List (List Char)
  | word, [] => if word = [] then [] else [word.reverse]
  | word, c :: s =>
    if Text.isWhitespace c then if word = [] then words [] s else word.reverse :: words [] s
    else words (c :: word) s

/-- The hash of the text's words joined by one space, 0 when that is too short. -/
def bodyHash (code : String) : UInt64 :=
  let joined := String.ofList ([' '].intercalate (words [] code.toList))
  if joined.length < minBodyChars then 0
  else
    let h := fnv1a fnvOffset joined.toUTF8.data.toList
    if h = 0 then 1 else h

def hexValue (l : List Char) : Option Nat :=
  l.foldlM (fun n c =>
    let d := c.toNat
    if 48 ≤ d ∧ d ≤ 57 then some (n * 16 + (d - 48))
    else if 97 ≤ d ∧ d ≤ 102 then some (n * 16 + (d - 87))
    else if 65 ≤ d ∧ d ≤ 70 then some (n * 16 + (d - 55))
    else none) 0

/-- A radix-16 number as the standard library parses it: a leading `+` is taken. -/
def hexNumber : List Char → Option Nat
  | '+' :: s => if s = [] then none else hexValue s
  | s => if s = [] then none else hexValue s

/-- The characters up to the closing quote, escapes decoded. -/
def jsonString : List Char → Option (List Char)
  | [] => none
  | '"' :: _ => some []
  | '\\' :: 'u' :: a :: b :: c :: d :: s => do
    let code ← hexNumber [a, b, c, d]
    if code < 0xD800 ∨ 0xDFFF < code then (Char.ofNat code :: ·) <$> jsonString s else none
  | '\\' :: 'u' :: _ => none
  | '\\' :: c :: s =>
    let decoded := match c with
      | 'n' => '\n'
      | 't' => '\t'
      | 'r' => '\r'
      | 'b' => '\x08'
      | 'f' => '\x0c'
      | other => other
    (decoded :: ·) <$> jsonString s
  | ['\\'] => none
  | c :: s => (c :: ·) <$> jsonString s

def stripChar (c : Char) : List Char → Option (List Char)
  | d :: s => if d = c then some s else none
  | [] => none

def jsonStringField (json key : String) : Option String := do
  let (_, rest) ← Text.cutFirst ('"' :: key.toList ++ ['"']) json.toList
  let rest ← stripChar ':' (rest.dropWhile Text.isWhitespace)
  let rest ← stripChar '"' (rest.dropWhile Text.isWhitespace)
  String.ofList <$> jsonString rest

def positionFile (n : Node) : Option String :=
  ((n.cells.filter fun c => c.kind = CellType.position).findSome? fun c =>
    match c.payload with
    | .json s | .text s => jsonStringField s "file"
    | .bytes _ => none).filter fun f => f ≠ ""

def codeText (isSpan : CellPayload → Bool) (n : Node) : Option String :=
  (n.cells.find? fun c => c.kind = CellType.code).bind fun c =>
    if isSpan c.payload then none
    else
      match c.payload with
      | .text s | .json s => some s
      | .bytes _ => none

def nodeReader (isSpan : CellPayload → Bool) : NodeReader where
  positionFile := positionFile
  bodyHash n := ((codeText isSpan n).map bodyHash).getD 0

end Glia.Graph
