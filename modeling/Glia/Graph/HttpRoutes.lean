import Glia.CodeDomain
import Glia.Graph.Types
import Glia.Text
import Mathlib.Data.Prod.Lex
import Mathlib.Data.String.Basic

/-! The texts identity keys and routes are spelled with. -/
namespace Glia.SameAs

def asciiLower (s : String) : String := String.ofList (s.toList.map Char.toLower)

def payloadStr : CellPayload → Option String
  | .text s | .json s => some s
  | .bytes _ => none

/-- The text without the leading and trailing `/`. -/
def trimSlashes (s : List Char) : List Char :=
  ((s.dropWhile (· = '/')).reverse.dropWhile (· = '/')).reverse

end Glia.SameAs

/-! The normal form of a route's path. -/
namespace Glia.Graph.HttpRoutes

open Glia.SameAs (trimSlashes payloadStr)

section Paths

/-- `:id`, an id in braces, or a segment that holds an interpolation. -/
def isClassicParam (seg : List Char) : Bool :=
  [':'].isPrefixOf seg || (['\x7b'].isPrefixOf seg && ['\x7d'].isSuffixOf seg) ||
    (Text.cutFirst ['$', '\x7b'] seg).isSome

inductive PlaceholderFold where
  | angle
  | splat
  | bracket
  deriving DecidableEq

def isIdentChar (c : Char) : Bool := c.isAlphanum || c = '_'

def foldKind (seg : List Char) : Option PlaceholderFold :=
  if 2 < seg.length ∧ ['<'].isPrefixOf seg ∧ ['>'].isSuffixOf seg ∧ seg ≠ "<unresolved>".toList then
    some .angle
  else if 2 < seg.length ∧ ['['].isPrefixOf seg ∧ [']'].isSuffixOf seg then some .bracket
  else
    match seg with
    | '*' :: c :: name =>
      if (c.isAlpha || c = '_') && name.all isIdentChar then some .splat else none
    | _ => none

def normaliseSegment (seg : List Char) : List Char :=
  if isClassicParam seg || (foldKind seg).isSome then ['\x7b', '\x7d'] else seg

def segments (path : List Char) : List (List Char) := (path.splitOn '/').filter (· ≠ [])

def joinSegments (segs : List (List Char)) : String :=
  String.ofList ('/' :: ['/'].intercalate segs)

/-- One leading `/`, no trailing one, no empty segment, each parameter the same. -/
def normaliseHttpPath (raw : String) : String :=
  joinSegments ((segments (trimSlashes (Text.trimChars raw.toList))).map normaliseSegment)

def isNavRoute (cells : List Cell) : Bool :=
  cells.any fun c => c.kind = CellType.origin &&
    (payloadStr c.payload).any fun j => Text.contains j "\"provenance\":\"nav_route\""

end Paths

end Glia.Graph.HttpRoutes
