import Glia.Algo.Adjacency
import Glia.Rules.Ir
import Mathlib.Data.List.Sort
import Mathlib.Data.Prod.Lex

/-! The fact seam: what a rule reads of a domain, its builtins, and the rows of each EDB
predicate. -/
namespace Glia.Rules

open Algo

structure BuiltinRow where
  values : Row
  tier : Tier
  deriving DecidableEq, Repr

/-- One call of a native predicate: `none` marks an unbound column. -/
abbrev Builtin := List (Option Value) → Except String (List BuiltinRow)

structure DomainBuiltin where
  decl : BuiltinDecl
  call : Builtin

structure FactSource extends GraphSource where
  tables : DomainTables
  nodeKind : NodeId → Option Nat
  nodeCells : NodeId → List Cell
  renderNode : NodeId → String
  attributes : List AttrDecl := []
  attrRows : Nat → List (NodeId × Value) := fun _ => []
  edgeTier : Nat → Edge → Tier := fun _ _ => .derived
  builtins : List DomainBuiltin := []

def stringCall (test : List Char → List Char → Bool) : Builtin
  | [some (.str a), some (.str b)] =>
    .ok (if test a.toList b.toList then [⟨[.str a, .str b], .fact⟩] else [])
  | [some _, some _] => .ok []
  | [none, _] => .error "argument 1 is unbound"
  | [some _, none] => .error "argument 2 is unbound"
  | args => .error ("takes 2 arguments, got " ++ toString args.length)

def stringBuiltin : BuiltinKind → Option Builtin
  | .startsWith => some (stringCall fun s p => p.isPrefixOf s)
  | .endsWith => some (stringCall fun s p => p.isSuffixOf s)
  | .contains => some (stringCall fun s p => s.tails.any fun t => p.isPrefixOf t)
  | .reaches => none
  | .scc => none
  | .domain => none

structure Declared where
  catalog : Catalog
  impls : List (Option Builtin)

def addBuiltin (d : Declared) (b : DomainBuiltin) : Declared :=
  let decl := { b.decl with kind := .domain }
  if decl.bind.length ≠ decl.cols.length then d
  else
    let cat := d.catalog.withBuiltin decl
    ⟨cat, if d.catalog.builtins.length < cat.builtins.length then d.impls ++ [some b.call] else d.impls⟩

def declare (src : FactSource) : Declared :=
  let cat := (Catalog.core src.tables.registries src.tables.carryEdges).withAttrs src.attributes
  src.builtins.foldl addBuiltin ⟨cat, cat.builtins.map fun d => stringBuiltin d.kind⟩

theorem declare_catalog (src : FactSource) :
    (declare src).catalog =
      Catalog.declare src.tables src.attributes (src.builtins.map DomainBuiltin.decl) := by
  have fold : ∀ (bs : List DomainBuiltin) (d : Declared), (bs.foldl addBuiltin d).catalog =
      d.catalog.withBuiltins (((bs.map DomainBuiltin.decl).map fun d =>
        { d with kind := .domain }).filter fun d => d.bind.length = d.cols.length) := by
    intro bs
    induction bs with
    | nil => exact fun d => rfl
    | cons b rest ih =>
      intro d
      rw [List.foldl_cons, ih]
      simp only [addBuiltin, List.map_cons, List.filter_cons]
      by_cases wide : b.decl.bind.length = b.decl.cols.length
      · simp [wide, Catalog.withBuiltins]
      · simp [wide]
  exact fold src.builtins _

def noOrdinal : Nat := 4294967295

/-- An edge position as a row column. -/
def ordinal (i : Nat) : Nat := min i (noOrdinal - 1)

structure EdbRow where
  row : Row
  level : Tier
  ordinal : Nat
  deriving DecidableEq, Repr

structure Restrict where
  categories : Option (List EdgeCategoryId) := none
  cellTypes : Option (List CellTypeId) := none
  deriving DecidableEq, Repr

namespace Restrict

def category (r : Restrict) (c : EdgeCategoryId) : Bool :=
  match r.categories with
  | none => true
  | some cs => cs.contains c

def cellType (r : Restrict) (t : CellTypeId) : Bool :=
  match r.cellTypes with
  | none => true
  | some ts => ts.contains t

end Restrict

def edgeTiers (src : FactSource) : List Tier :=
  src.edges.zipIdx.map fun e => src.edgeTier e.2 e.1

def EdbRow.le (a b : EdbRow) : Prop :=
  toLex (a.row, toLex (a.level, a.ordinal)) ≤ toLex (b.row, toLex (b.level, b.ordinal))

instance : DecidableRel EdbRow.le := fun _ _ =>
  inferInstanceAs (Decidable (toLex _ ≤ toLex _))

def firstOf {α : Type} (key : α → Row) : List α → List α
  | [] => []
  | a :: rest => a :: (firstOf key rest).filter fun b => key b ≠ key a

/-- Keep each row at its best level and, there, its first ordinal. -/
def finish (rows : List EdbRow) : List EdbRow :=
  firstOf EdbRow.row (rows.insertionSort EdbRow.le)

def textOr (name : Option String) (id : Nat) : Value :=
  match name with
  | some n => .str n
  | none => .str ("#" ++ toString id)

section Load

variable (src : FactSource) (restrict : Restrict)

def kindValue (k : Nat) : Value := textOr (src.tables.registries.kindName k) k

def categoryValue (c : EdgeCategoryId) : Value := textOr (src.tables.registries.categoryName c) c

def cellTypeValue (t : CellTypeId) : Value := textOr (src.tables.registries.cellName t) t

def cellText (c : Cell) : Option String :=
  match c.payload with
  | .text s => some s
  | .json s => some s
  | .bytes _ => none

def confidenceName : Confidence → String
  | .strong => "strong"
  | .medium => "medium"
  | .weak => "weak"

/-- The column of the source's attributes behind the catalog's EDB entry `index`. -/
def attrColumn (index : Nat) : Option Nat :=
  let core := Catalog.core src.tables.registries src.tables.carryEdges
  if index < core.edb.length then none
  else
    ((core.withAttrs src.attributes).edb[index]?).bind fun d =>
      src.attributes.findIdx? fun a => a.name == d.name

def keptText (c : Cell) : Option String := (cellText c).filter fun _ => restrict.cellType c.kind

def keptEdgeRows : List (Edge × Nat) :=
  src.edges.zipIdx.filter fun e => restrict.category e.1.category

def rawRows : EdbPred → List EdbRow
  | .node =>
    src.nodeIds.filterMap fun id =>
      (src.nodeKind id).map fun k => ⟨[.node id, kindValue src k], .fact, noOrdinal⟩
  | .edge =>
    (keptEdgeRows src restrict).map fun e =>
      ⟨[.node e.1.fromId, .node e.1.toId, categoryValue src e.1.category], src.edgeTier e.2 e.1,
        ordinal e.2⟩
  | .edgeConf =>
    (keptEdgeRows src restrict).map fun e =>
      ⟨[.node e.1.fromId, .node e.1.toId, categoryValue src e.1.category,
        .str (confidenceName e.1.confidence)], src.edgeTier e.2 e.1, ordinal e.2⟩
  | .edgeCell =>
    (keptEdgeRows src restrict).flatMap fun e =>
      e.1.cells.filterMap fun c =>
        (keptText restrict c).map fun text =>
          ⟨[.node e.1.fromId, .node e.1.toId, categoryValue src e.1.category,
            cellTypeValue src c.kind, .str text], src.edgeTier e.2 e.1, ordinal e.2⟩
  | .cell =>
    src.nodeIds.flatMap fun id =>
      (src.nodeCells id).filterMap fun c =>
        (keptText restrict c).map fun text =>
          ⟨[.node id, cellTypeValue src c.kind, .str text], .fact, noOrdinal⟩
  | .kind =>
    src.tables.registries.nodeKinds.map fun k => ⟨[kindValue src k.1], .fact, noOrdinal⟩
  | .category =>
    src.tables.registries.edgeCategories.map fun c =>
      ⟨[categoryValue src c.1], .fact, noOrdinal⟩
  | .carryCategory =>
    src.tables.carryEdges.map fun c => ⟨[categoryValue src c], .fact, noOrdinal⟩
  | .attr d =>
    match attrColumn src d with
    | none => []
    | some col => (src.attrRows col).map fun r => ⟨[.node r.1, r.2], .fact, noOrdinal⟩

def loadEdb (pred : EdbPred) : List EdbRow := finish (rawRows src restrict pred)

end Load

end Glia.Rules
