import Glia.Store.Prepare

/-! A core made ready on a pool is the core made ready in one pass. -/
namespace Glia.Store

open Glia.Engine (Evidence)
open Glia.Kit (Chunk PoolCall parChunks parChunks_eq partOf partOf_length partOf_getElem? eachOf
  eachOf_append eachOf_self eachOf_singleton eachOf_local flatMap_eachOf findSome?_eachOf)

theorem cellChunkFloor_pos : 0 < cellChunkFloor := by decide

theorem fileChunkFloor_pos : 0 < fileChunkFloor := by decide

section Edges
variable (json : CellText) (intern : Bool)

def edgeEvidence (e : Edge) : List (Option Evidence) :=
  if intern then
    (cellsOf CellType.evidence e.cells).map fun c => canonicalEvidence json c.payload
  else []

def edgeRaw (ix : Nat) (e : Edge) : List Nat :=
  ((cellsOf CellType.evidence e.cells).filter fun c => isInternedEvidence c.payload).map
    fun _ => ix

theorem edgeCell_fold (ix : Nat) (s : EdgeChunk) (cells : List Cell) :
    cells.foldl (edgeCell json intern ix) s =
      { edges := s.edges
        evidence := s.evidence ++
          if intern then cells.map fun c => canonicalEvidence json c.payload else []
        raw := s.raw.or
          ((cells.filter fun c => isInternedEvidence c.payload).map fun _ => ix).head? } := by
  induction cells generalizing s with
  | nil => simp
  | cons c cells ih =>
    rw [List.foldl_cons, ih]
    unfold edgeCell
    cases intern <;> cases raw : s.raw <;> cases tagged : isInternedEvidence c.payload <;>
      simp [raw, tagged]

theorem edgeStep_fold (l : List (Edge × Nat)) (s : EdgeChunk) :
    l.foldl (fun s e => (cellsOf CellType.evidence e.1.cells).foldl
      (edgeCell json intern e.2) s) s =
      { edges := s.edges
        evidence := s.evidence ++ l.flatMap fun e => edgeEvidence json intern e.1
        raw := s.raw.or (l.flatMap fun e => edgeRaw e.2 e.1).head? } := by
  induction l generalizing s with
  | nil => simp
  | cons e l ih =>
    rw [List.foldl_cons, ih, edgeCell_fold]
    simp only [List.flatMap_cons, List.append_assoc, List.head?_append, Option.or_assoc]
    rfl

theorem edgeChunk_eq (edges : List Edge) (c : Chunk) :
    edgeChunk json edges intern c =
      { edges := partOf edges c
        evidence := eachOf edges (fun _ e => edgeEvidence json intern e) c
        raw := (eachOf edges edgeRaw c).head? } := by
  rw [edgeChunk, edgeStep_fold]
  rfl

end Edges

section Nodes
variable (json : CellText) (span : Bool)

def nodePosition (n : Node) : List (Option (String × Nat)) :=
  if span then
    [if (cellsOf CellType.code n.cells).any fun c => isText c.payload then
      firstPosition json n.cells else none]
  else []

def nodeRaw (ix : Nat) (n : Node) : List Nat :=
  ((cellsOf CellType.code n.cells).filter fun c => isSpanBytes c.payload).map fun _ => ix

theorem nodeCell_fold (ix : Nat) (s : NodeChunk) (texts : Bool) (cells : List Cell) :
    cells.foldl (nodeCell ix) (s, texts) =
      ({ s with
          raw := s.raw.or
            ((cells.filter fun c => isSpanBytes c.payload).map fun _ => ix).head? },
        texts || cells.any fun c => isText c.payload) := by
  induction cells generalizing s texts with
  | nil => simp
  | cons c cells ih =>
    rw [List.foldl_cons, nodeCell, ih]
    cases raw : s.raw <;> cases tagged : isSpanBytes c.payload <;>
      simp [raw, tagged, Bool.or_assoc]

theorem nodeStep_fold (l : List (Node × Nat)) (s : NodeChunk) :
    l.foldl (nodeStep json span) s =
      { nodes := s.nodes
        positions := s.positions ++ l.flatMap fun e => nodePosition json span e.1
        raw := s.raw.or (l.flatMap fun e => nodeRaw e.2 e.1).head? } := by
  induction l generalizing s with
  | nil => simp
  | cons e l ih =>
    rw [List.foldl_cons, ih]
    unfold nodeStep
    rw [nodeCell_fold]
    simp only [List.flatMap_cons, List.head?_append, nodePosition, Bool.false_or]
    cases span <;> simp [nodeRaw, Option.or_assoc]

theorem nodeChunk_eq (nodes : List Node) (c : Chunk) :
    nodeChunk json nodes span c =
      { nodes := partOf nodes c
        positions := eachOf nodes (fun _ n => nodePosition json span n) c
        raw := (eachOf nodes nodeRaw c).head? } := by
  rw [nodeChunk, nodeStep_fold]
  rfl

theorem positions_length (nodes : List Node) :
    (eachOf nodes (fun _ n => nodePosition json true n) ⟨0, nodes.length⟩).length =
      nodes.length := by
  unfold eachOf
  rw [Kit.partOf_whole]
  simp [nodePosition]

end Nodes

section Pooled

theorem edgeChunks_eq (json : CellText) (edges : List Edge) (intern : Bool)
    (pool : Option PoolCall) :
    ((parChunks edges.length cellChunkFloor pool (edgeChunk json edges intern)).flatMap (·.edges) =
      edges) ∧
    (parChunks edges.length cellChunkFloor pool (edgeChunk json edges intern)).flatMap
        (·.evidence) =
      eachOf edges (fun _ e => edgeEvidence json intern e) ⟨0, edges.length⟩ ∧
    (parChunks edges.length cellChunkFloor pool (edgeChunk json edges intern)).findSome?
        (·.raw) =
      (eachOf edges edgeRaw ⟨0, edges.length⟩).head? := by
  refine ⟨?_, ?_, ?_⟩
  · rw [flatMap_eachOf edges (fun _ e => [e]) cellChunkFloor_pos, eachOf_singleton,
      Kit.partOf_whole]
    intro c _ _
    rw [edgeChunk_eq, eachOf_singleton]
  · apply flatMap_eachOf edges _ cellChunkFloor_pos
    intro c _ _
    rw [edgeChunk_eq]
  · apply findSome?_eachOf edges _ cellChunkFloor_pos
    intro c
    rw [edgeChunk_eq]

theorem nodeChunks_eq (json : CellText) (nodes : List Node) (span : Bool)
    (pool : Option PoolCall) :
    ((parChunks nodes.length cellChunkFloor pool (nodeChunk json nodes span)).flatMap (·.nodes) =
      nodes) ∧
    (parChunks nodes.length cellChunkFloor pool (nodeChunk json nodes span)).flatMap
        (·.positions) =
      eachOf nodes (fun _ n => nodePosition json span n) ⟨0, nodes.length⟩ ∧
    (parChunks nodes.length cellChunkFloor pool (nodeChunk json nodes span)).findSome?
        (·.raw) =
      (eachOf nodes nodeRaw ⟨0, nodes.length⟩).head? := by
  refine ⟨?_, ?_, ?_⟩
  · rw [flatMap_eachOf nodes (fun _ n => [n]) cellChunkFloor_pos, eachOf_singleton,
      Kit.partOf_whole]
    intro c _ _
    rw [nodeChunk_eq, eachOf_singleton]
  · apply flatMap_eachOf nodes _ cellChunkFloor_pos
    intro c _ _
    rw [nodeChunk_eq]
  · apply findSome?_eachOf nodes _ cellChunkFloor_pos
    intro c
    rw [nodeChunk_eq]

theorem readSourceFiles_eq (files : List String) (source : WriteSource) (repo : Nat)
    (pool : Option PoolCall) :
    readSourceFiles files source repo pool = readSourceFiles files source repo none := by
  cases source with
  | «local» read => rfl
  | shared read =>
    have each (pool : Option PoolCall) := flatMap_eachOf files (fun _ f => [read repo f])
      fileChunkFloor_pos pool (fun range => (partOf files range).map (read repo)) id (by
        intro c _ _
        rw [id, eachOf, ← List.map_eq_flatMap, ← List.zipIdx_map_fst c.start (partOf files c),
          List.map_map, List.zipIdx_map_fst]
        rfl)
    unfold readSourceFiles
    dsimp only
    rw [← List.flatMap_id, each, ← List.flatMap_id, each]

def decideCells (files : List (String × Bytes)) (pos : Option (String × Nat)) (n : Node) :
    List (Option CodeSpan) :=
  (cellsOf CellType.code n.cells).map fun c =>
    match c.payload, pos with
    | .text text, some (file, line) => do
      let bytes ← files.lookup file
      let found ← findOnLine bytes line (textBytes text)
      some (CodeSpan.of file found (textBytes text))
    | _, _ => none

theorem spanDecisions_part (nodes : List Node) (positions : List (Option (String × Nat)))
    (aligned : positions.length = nodes.length) (files : List (String × Bytes)) {c : Chunk}
    (le : c.start ≤ c.stop) (inside : c.stop ≤ nodes.length) :
    spanDecisions (partOf nodes c) (partOf positions c) files =
      eachOf nodes (fun i n => decideCells files positions[i]?.join n) c := by
  apply eachOf_local nodes (fun i n => decideCells files positions[i]?.join n) le inside
    (H := fun i n => decideCells files (partOf positions c)[i]?.join n)
  intro i n below
  have same := partOf_getElem? (l := positions) le (aligned ▸ inside) below
  rw [same]

theorem spanCodeCells_eq (nodes : List Node) (positions : List (Option (String × Nat)))
    (aligned : positions.length = nodes.length) (source : WriteSource) (repo : Nat)
    (table : List String) (read decide_ : Option PoolCall) :
    spanCodeCells nodes positions source repo table read decide_ =
      spanCodeCells nodes positions source repo table none none := by
  unfold spanCodeCells
  dsimp only
  rw [readSourceFiles_eq]
  congr 1
  rw [← List.flatMap_id, ← List.flatMap_id, flatMap_eachOf nodes _ cellChunkFloor_pos,
    flatMap_eachOf nodes _ cellChunkFloor_pos]
  · intro c le inside
    exact spanDecisions_part nodes positions aligned _ le inside
  · intro c le inside
    exact spanDecisions_part nodes positions aligned _ le inside

/-- The core, the strings, the payloads, the counts and the error are those of a run with no
pool, whatever the pool's size and the jobs it runs, at every call. -/
theorem prepareCore_pool (json : CellText) (tables : Rkyv (List String)) (core : Container)
    (nodes : List Node) (edges : List Edge) (intern : Bool) (source : Option WriteSource)
    (pool : PersistPool) :
    prepareCore json tables core nodes edges intern source (some pool) =
      prepareCore json tables core nodes edges intern source none := by
  have copiedEdges := edgeChunks_eq json edges intern
  have copiedNodes := nodeChunks_eq json nodes (intern && source.isSome)
  unfold prepareCore
  dsimp only
  simp only [copiedEdges, copiedNodes]
  cases intern with
  | false => rfl
  | true =>
    cases source with
    | none => rfl
    | some source =>
      have aligned := positions_length json nodes
      simp only [Option.isSome_some, Bool.and_true] at aligned ⊢
      rw [spanCodeCells_eq _ _ aligned]
      rfl

end Pooled

end Glia.Store
