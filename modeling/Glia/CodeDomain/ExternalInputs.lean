import Glia.CodeDomain
import Glia.Json
import Mathlib.Data.Option.Basic

/-! A CONSTRAINT cell's entries: what a writer may store, how an entry is merged into the
stored array, and the rules a checker reads from it. -/
namespace Glia.ExternalInputs

open Glia (Json Serde)

def entrySources : List String := ["api", "overlay", "adr"]

def maxIdChars : Nat := 128

def maxRuleChars : Nat := 16384

def constraintKinds : List String := ["forbid_edge", "no_cycle", "invariant", "allow"]

def modelKinds : List String := ["component", "layer"]

def minTiers : List String := ["fact", "derived"]

def ruleIsOverlayOnly : String :=
  "`rule` (Datalog text) is declared only in .glia/overlay.toml [[constraint]] (0.5.2 Q9); " ++
    "the cell API cannot write one"

def transitiveOnlyForbid : String := "`transitive` is a forbid_edge field"

def viaOnlyTransitive : String :=
  "`via` names facades of a transitive forbid_edge; set `transitive = true`"

def ruleOnlyInvariant : String := "`rule` is an invariant field"

abbrev Fields := List (String × Json)

/-- An optional string field: absent and `null` are `none`, any other type errs. -/
def stringField (obj : Fields) (key : String) : Except String (Option String) :=
  match obj.lookup key with
  | none | some .null => .ok none
  | some (.str s) => .ok (some s)
  | some _ => .error ("`" ++ key ++ "` must be a string")

def trimmed (s : String) : Option String :=
  let t := Text.trim s
  if t.toList = [] then none else some t

def stringList (obj : Fields) (key : String) : Option (List String) := do
  let items ← (← obj.lookup key).asArray
  let out ← items.mapM fun v => v.asStr.bind trimmed
  if out = [] then none else some out

def nullable : Option Json → Bool
  | none | some .null => true
  | _ => false

def flag : Option Json → Option Bool
  | none | some .null => some false
  | some (.bool b) => some b
  | some _ => none

def isBlank (s : String) : Bool := (Text.trim s).toList = []

/-- The tier a word spells, ASCII case ignored. -/
def parseTier (s : String) : Option Tier :=
  [("fact", Tier.fact), ("derived", Tier.derived), ("heuristic", Tier.heuristic)].findSome?
    fun t => if t.1.toList.map Char.toLower = s.toList.map Char.toLower then some t.2 else none

def tierName : Tier → String
  | .fact => "fact"
  | .derived => "derived"
  | .heuristic => "heuristic"

def checkRuleText (rule : String) : Except String Unit :=
  if isBlank rule || maxRuleChars < rule.length then
    .error ("`rule` must be 1..=" ++ toString maxRuleChars ++
      " chars of Datalog text, not blank (got " ++ toString rule.length ++ ")")
  else .ok ()

def checkMinTier (tier : String) : Except String Unit :=
  if (parseTier tier).any fun t => tierName t = tier ∧ t ≠ .heuristic then .ok ()
  else
    .error ("`min_tier` must be " ++ String.intercalate " | " minTiers ++
      " (a heuristic violation is reported and never fails CI, 0.5.2 Q2)")

def checkMinTierOn (kind : String) (hasRule : Bool) : Except String Unit :=
  if kind = "forbid_edge" ∨ kind = "no_cycle" then .ok ()
  else if kind = "invariant" then
    if hasRule then .ok ()
    else
      .error ("`min_tier` on an invariant needs `rule` (an unchecked statement has no " ++
        "violations)")
  else if kind = "allow" then
    .error "`min_tier` is not taken by kind allow (a divergence's gate is the default)"
  else
    .error ("`min_tier` is not taken by kind " ++ kind ++
      " (a model declaration has no violations of its own)")

/-- How the standard library prints a string and a JSON value inside a message. -/
structure Printing where
  debug : String → String
  display : Json → String

section Check
variable (print : Printing)

def refuseIf (bad : Bool) (message : String) : Except String Unit :=
  if bad then .error message else .ok ()

def present (obj : Fields) (key : String) : Except String Bool := do
  let s ← stringField obj key
  pure (s.any fun s => !isBlank s)

/-- Both fields are there and not blank; the second is looked at only after the first. -/
def presentBoth (obj : Fields) (key key' : String) : Except String Bool := do
  if ← present obj key then present obj key' else pure false

def u32Of (v : Option Json) : Option UInt64 :=
  (v.bind Json.asU64).filter fun n => n.toNat < 2 ^ 32

def kindChecks (obj : Fields) (kind : String) : Except String Unit := do
  if kind = "forbid_edge" ∨ kind = "allow" then
    refuseIf (!(← presentBoth obj "from" "to")) ("kind " ++ kind ++ " needs `from` and `to`")
  if kind = "invariant" then
    refuseIf (!(← present obj "text")) "kind invariant needs `text`"
  if kind = "component" ∨ kind = "layer" then
    refuseIf (!(← present obj "name")) ("kind " ++ kind ++ " needs `name`")
  if kind = "component" then
    refuseIf (stringList obj "paths").isNone
      "kind component needs `paths`: a non-empty array of non-empty strings"
  if kind = "layer" then
    refuseIf (u32Of (obj.lookup "rank")).isNone
      "kind layer needs `rank`: an integer 0..=4294967295"
    refuseIf (stringList obj "components").isNone
      "kind layer needs `components`: a non-empty array of non-empty strings"
    refuseIf (flag (obj.lookup "strict")).isNone "`strict` must be a bool"

def isCategoryName (v : Json) : Bool :=
  v.asStr.any fun n => EdgeCategory.all.any fun e => e.2 == n

def categoriesCheck (obj : Fields) : Except String Unit :=
  match obj.lookup "categories" with
  | none | some .null => .ok ()
  | some (.arr names) =>
    match names.find? fun name => !isCategoryName name with
    | some name => .error ("category " ++ print.display name ++ " is not an edge category name")
    | none => .ok ()
  | some _ => .error "`categories` must be an array of edge category names"

/-- Whether the entry holds a rule; only a declared one may. -/
def ruleCheck (obj : Fields) (kind : String) (allowRule : Bool) : Except String Bool :=
  match obj.lookup "rule" with
  | none => .ok false
  | some v =>
    if !allowRule then .error ruleIsOverlayOnly
    else
      match v with
      | .str rule => do
        refuseIf (kind ≠ "invariant") ruleOnlyInvariant
        checkRuleText rule
        let source := (← stringField obj "source").getD ""
        refuseIf (source ≠ "overlay")
          ("`rule` is written only with source `overlay`, not " ++ print.debug source ++
            " (0.5.2 Q9)")
        pure true
      | _ => .error "`rule` must be a string of Datalog text"

def viaCheck (obj : Fields) (transitive : Bool) : Except String Unit := do
  if nullable (obj.lookup "via") then pure ()
  else
    refuseIf (stringList obj "via").isNone
      "`via` must be a non-empty array of non-empty strings"
    refuseIf (!transitive) viaOnlyTransitive

def minTierCheck (obj : Fields) (kind : String) (hasRule : Bool) : Except String Unit :=
  match obj.lookup "min_tier" with
  | none | some .null => .ok ()
  | some (.str tier) => do
    checkMinTier tier
    checkMinTierOn kind hasRule
  | some _ => .error ("`min_tier` must be a string: " ++ String.intercalate " | " minTiers)

/-- A CONSTRAINT entry's rules; `allowRule` admits a `rule` on an overlay invariant. -/
def constraintChecks (obj : Fields) (allowRule : Bool) : Except String Unit := do
  let kind := (← stringField obj "kind").getD ""
  refuseIf (!(constraintKinds ++ modelKinds).contains kind)
    ("`kind` " ++ print.debug kind ++ " is not one of " ++
      String.intercalate " | " (constraintKinds ++ modelKinds))
  kindChecks obj kind
  let _ ← stringField obj "scope"
  categoriesCheck print obj
  let hasRule ← ruleCheck print obj kind allowRule
  match flag (obj.lookup "transitive") with
  | none => .error "`transitive` must be a bool"
  | some transitive =>
    refuseIf (transitive && kind ≠ "forbid_edge") transitiveOnlyForbid
    viaCheck obj transitive
    minTierCheck obj kind hasRule

def debugOption : Option String → String
  | none => "None"
  | some s => "Some(" ++ print.debug s ++ ")"

/-- The check of a CONSTRAINT entry, written (`allowRule` false) or declared (true). -/
def checkEntry (v : Json) (allowRule : Bool) : Except String Unit :=
  match v.asObject with
  | none => .error "entry must be a JSON object"
  | some obj => do
    let source ← stringField obj "source"
    refuseIf (!source.any entrySources.contains)
      ("`source` " ++ debugOption print source ++ " is not one of " ++
        String.intercalate " | " entrySources)
    match ← stringField obj "id" with
    | none => .error "`id` is required"
    | some id =>
      refuseIf (id.length = 0 || maxIdChars < id.length || id.toList.any Text.isControl)
        ("`id` " ++ print.debug id ++ " must be 1..=" ++ toString maxIdChars ++
          " chars with no control chars")
      constraintChecks print obj allowRule

def validateEntry (v : Json) : Except String Unit := checkEntry print v false

def validateDeclaredEntry (v : Json) : Except String Unit := checkEntry print v true

end Check

section Merge
variable (serde : Serde) (lower : String → String)

def entryArray : CellPayload → Option (List Json)
  | .json s => (serde.fromStr s).bind Json.asArray
  | _ => none

abbrev EntryKey := String ×ₗ String

def entryKey (e : Json) : EntryKey :=
  toLex (((e.get "source").bind Json.asStr).getD "", ((e.get "id").bind Json.asStr).getD "")

def sortEntries (entries : List Json) : List Json :=
  entries.insertionSort fun a b => entryKey a ≤ entryKey b

def entriesPayload (entries : List Json) : CellPayload :=
  .json (serde.toText (Json.arr (sortEntries entries)).canonical)

def mapText (f : String → String) (key : String) : Fields → Fields
  | [] => []
  | (k, v) :: fields =>
    if k = key then
      match v with
      | .str s => (k, .str (f s)) :: fields
      | v => (k, v) :: fields
    else (k, v) :: mapText f key fields

def storedEntry (v : Json) : Json :=
  match v.canonical with
  | .obj fields => .obj (mapText lower "status" fields)
  | entry => entry

/-- The array's entries but for the one `v` replaces. -/
def others (entries : List Json) (v : Json) : List Json :=
  entries.filter fun e => entryKey e ≠ entryKey (storedEntry lower v)

def mergeEntry (existing : Option CellPayload) (v : Json) : Except String CellPayload :=
  match existing with
  | none => .ok (entriesPayload serde (others lower [] v ++ [storedEntry lower v]))
  | some p =>
    match entryArray serde p with
    | none => .error "the existing cell is not an entry array"
    | some entries => .ok (entriesPayload serde (others lower entries v ++ [storedEntry lower v]))

end Merge

inductive ConstraintKind where
  | forbidEdge (source target : String) (transitive : Bool) (via : List String)
  | noCycle (scope : Option String)
  | invariant (text : String) (rule : Option String)
  | component (name : String) (paths : List String)
  | layer (name : String) (rank : UInt32) (components : List String) (strict : Bool)
  | allow (source target : String)
  deriving DecidableEq, Repr

structure ConstraintRule where
  id : String
  kind : ConstraintKind
  categories : List String
  source : String
  decl : Option String
  minTier : Option String
  deriving DecidableEq, Repr

section Read

def field (obj : Fields) (key : String) : Option (Option String) :=
  (stringField obj key).toOption

def required (obj : Fields) (key : String) : Option String :=
  (field obj key).join.bind trimmed

def viaOf (obj : Fields) : Option (List String) :=
  if nullable (obj.lookup "via") then some [] else stringList obj "via"

def ruleOf (obj : Fields) : Option (Option String) :=
  match field obj "rule" with
  | none => none
  | some none => some none
  | some (some r) => if isBlank r then none else some (some r)

def kindOf (obj : Fields) : String → Option ConstraintKind
  | "forbid_edge" => do
    pure (.forbidEdge (← required obj "from") (← required obj "to")
      (← flag (obj.lookup "transitive")) (← viaOf obj))
  | "no_cycle" => do pure (.noCycle (← field obj "scope"))
  | "invariant" => do pure (.invariant (← required obj "text") (← ruleOf obj))
  | "allow" => do pure (.allow (← required obj "from") (← required obj "to"))
  | "component" => do pure (.component (← required obj "name") (← stringList obj "paths"))
  | "layer" => do
    let name ← required obj "name"
    let rank ← u32Of (obj.lookup "rank")
    pure (.layer name rank.toUInt32 (← stringList obj "components")
      (← flag (obj.lookup "strict")))
  | _ => none

def categoriesOf (obj : Fields) : Option (List String) :=
  match obj.lookup "categories" with
  | none | some .null => some []
  | some (.arr names) => names.mapM Json.asStr
  | some _ => none

def minTierOf (obj : Fields) : Option (Option String) :=
  match field obj "min_tier" with
  | none => none
  | some none => some none
  | some (some t) => if minTiers.contains t then some (some t) else none

def constraintRule (v : Json) : Option ConstraintRule := do
  let obj ← v.asObject
  let kind ← kindOf obj (← (← field obj "kind"))
  let categories ← categoriesOf obj
  let minTier ← minTierOf obj
  pure
    { id := ← required obj "id"
      kind := kind
      categories := categories
      source := ← required obj "source"
      decl := ← field obj "decl"
      minTier := minTier }

/-- Every well-formed rule of a payload, in stored order. -/
def parseConstraints (serde : Serde) (payload : CellPayload) : List ConstraintRule :=
  ((entryArray serde payload).getD []).filterMap constraintRule

end Read

end Glia.ExternalInputs

/-! An external cell write: what it puts on its node, and the checks it passes first. -/
namespace Glia.ExternalInputs

open Glia (Json)

def maxVectorBytes : Nat := 65536

def maxNoteChars : Nat := 4096

def writable : List CellTypeId :=
  [CellType.constraint, CellType.decision, CellType.conv, CellType.vector]

def conventionKind : String := "convention"

inductive WritePayload where
  | entry (v : Json)
  | vector (bytes : List UInt8) (model : Option String) (dims : Option UInt32)

structure CellWrite where
  qname : String
  kind : Option String
  hint : Option String
  cell : CellTypeId
  payload : WritePayload

def cellName (c : CellTypeId) : String := (nameOf CellType.all c).getD (toString c)

def checkVector (bytes : List UInt8) (dims : Option UInt32) : Except String Unit := do
  if bytes = [] ∨ maxVectorBytes < bytes.length then
    .error ("vector is " ++ toString bytes.length ++ " bytes; must be 1..=" ++
      toString maxVectorBytes)
  match dims with
  | some d =>
    if d.toNat * 4 ≠ bytes.length then
      .error ("vector is " ++ toString bytes.length ++ " bytes but dims=" ++ toString d ++
        " needs " ++ toString (d.toNat * 4) ++ " (f32)")
  | none => pure ()

section Check
variable (print : Printing)

def conventionChecks (obj : Fields) : Except String Unit := do
  refuseIf (!(← present obj "scope")) "a CONV convention needs `scope`: a non-empty path"
  let _ ← stringField obj "scope_raw"
  let _ ← stringField obj "component"
  refuseIf (!nullable (obj.lookup "paths") && (stringList obj "paths").isNone)
    "`paths` must be a non-empty array of non-empty strings"

def decisionChecks (obj : Fields) : Except String Unit := do
  let _ ← stringField obj "status"
  let titled ← present obj "title"
  let texted ← if titled then pure true else present obj "text"
  refuseIf (!texted) "a DECISION needs `title` or `text`"

def convChecks (obj : Fields) : Except String Unit := do
  let t := (← stringField obj "text").getD ""
  refuseIf (isBlank t || maxNoteChars < t.length)
    ("`text` must be 1..=" ++ toString maxNoteChars ++ " chars (got " ++ toString t.length ++
      ")")
  let _ ← stringField obj "by"
  let _ ← stringField obj "at"
  match ← stringField obj "kind" with
  | none => pure ()
  | some kind =>
    if kind = conventionKind then conventionChecks obj
    else .error ("CONV kind must be absent or \"" ++ conventionKind ++ "\"")

def headChecks (v : Json) : Except String Fields :=
  match v.asObject with
  | none => .error "entry must be a JSON object"
  | some obj => do
    let source ← stringField obj "source"
    refuseIf (!source.any entrySources.contains)
      ("`source` " ++ debugOption print source ++ " is not one of " ++
        String.intercalate " | " entrySources)
    match ← stringField obj "id" with
    | none => .error "`id` is required"
    | some id =>
      refuseIf (id.length = 0 || maxIdChars < id.length || id.toList.any Text.isControl)
        ("`id` " ++ print.debug id ++ " must be 1..=" ++ toString maxIdChars ++
          " chars with no control chars")
      pure obj

/-- One written entry against its cell type's rules. -/
def validateCellEntry (cell : CellTypeId) (v : Json) : Except String Unit := do
  let obj ← headChecks print v
  if cell = CellType.constraint then constraintChecks print obj false
  else if cell = CellType.decision then decisionChecks obj
  else if cell = CellType.conv then convChecks obj
  else if cell = CellType.vector then .error "VECTOR takes a vector payload, not an entry"
  else .error ("cell type " ++ toString cell ++ " takes no external entries")

theorem validateCellEntry_constraint (v : Json) :
    validateCellEntry print CellType.constraint v = validateEntry print v := by
  unfold validateCellEntry headChecks validateEntry checkEntry
  cases v.asObject with
  | none => rfl
  | some obj =>
    simp only [bind, Except.bind, pure, Except.pure, if_true]
    cases stringField obj "source" with
    | error e => rfl
    | ok source =>
      dsimp only
      cases refuseIf (!source.any entrySources.contains) _ with
      | error e => rfl
      | ok _ =>
        dsimp only
        cases stringField obj "id" with
        | error e => rfl
        | ok id =>
          cases id with
          | none => rfl
          | some id =>
            dsimp only
            cases refuseIf _ _ with
            | error e => rfl
            | ok _ => rfl

/-- What is refused before a node is looked for: the cell type, the payload's shape and the
payload. -/
def checkWrite (w : CellWrite) : Except String Unit :=
  if w.cell ∉ writable then
    .error ("cell type " ++ cellName w.cell ++ " is not externally writable")
  else
    match w.payload, decide (w.cell = CellType.vector) with
    | .entry v, false => validateCellEntry print w.cell v
    | .vector bytes _ dims, true => checkVector bytes dims
    | _, _ =>
      .error ("cell type " ++ cellName w.cell ++
        " does not take this payload (VECTOR takes a vector, the others an entry)")

end Check

end Glia.ExternalInputs
