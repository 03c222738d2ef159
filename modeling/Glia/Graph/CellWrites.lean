import Glia.CodeDomain.ExternalInputs
import Glia.Graph.QnameIndex
import Mathlib.Data.List.TakeWhile

/-! One external cell write, applied to every in-scope instance of the node it binds to. -/
namespace Glia.Graph

open Glia.ExternalInputs (CellWrite Printing checkWrite mergeEntry)

/-- The first cell of a type takes the payload; with none, one is appended. -/
def putCell (kind : CellTypeId) (p : CellPayload) : List Cell → List Cell
  | [] => [⟨kind, p⟩]
  | c :: rest => if c.kind = kind then { c with payload := p } :: rest else c :: putCell kind p rest

def nodeAt (m : MergedGraph) (p : Nat × Nat) : Option Node :=
  (m.graphs[p.1]?).bind fun g => g.nodes[p.2]?

def setNode (m : MergedGraph) (p : Nat × Nat) (n : Node) : MergedGraph :=
  { m with graphs := m.graphs.modify p.1 fun g => { g with nodes := g.nodes.set p.2 n } }

/-- The libraries a write goes through: how messages print, JSON, and lower-casing. -/
structure WriteLib where
  print : Printing
  serde : Serde
  lower : String → String

section Apply
variable (lib : WriteLib) (w : CellWrite)

def newPayload (existing : Option CellPayload) : Except String CellPayload :=
  match w.payload with
  | .entry v => mergeEntry lib.serde lib.lower existing v
  | .vector bytes _ _ => .ok (.bytes bytes)

def nodePayload (n : Node) : Except String CellPayload :=
  newPayload lib w ((n.cells.find? fun c => c.kind = w.cell).map Cell.payload)

/-- Write the node's instances one by one: the graph so far, and the first refusal of a
merge; an error when a place does not hold the node. -/
def writePlaces (id : NodeId) :
    List (Nat × Nat) → MergedGraph → MergedGraph × Except String (Option String)
  | [], m => (m, .ok none)
  | p :: rest, m =>
    match (nodeAt m p).filter fun n => n.id = id with
    | none =>
      (m, .error ("stale QnameIndex: node " ++ toString id ++ " is not at graph " ++
        toString p.1 ++ " node " ++ toString p.2))
    | some n =>
      match nodePayload lib w n with
      | .error e => (m, .ok (some e))
      | .ok payload =>
        writePlaces id rest (setNode m p { n with cells := putCell w.cell payload n.cells })

def CellTarget.node : CellTarget → Option NodeId
  | .bound id | .rekeyed id _ => some id
  | _ => none

def applyCellWrite (m : MergedGraph) (idx : QnameIndex) : MergedGraph × Except String CellTarget :=
  match checkWrite lib.print w with
  | .error e => (m, .ok (.rejected e))
  | .ok _ =>
    let target := idx.resolve lib.print.debug w.qname w.kind w.hint
    match target.node with
    | none => (m, .ok target)
    | some id =>
      let written := writePlaces lib w id ((idx.places[id]?).getD []) m
      (written.1, match written.2 with
        | .error e => .error e
        | .ok (some e) => .ok (.rejected e)
        | .ok none => .ok target)

end Apply

end Glia.Graph

/-! When a cell write is all or nothing: it is written to every in-scope instance of its node,
or the graph stays as it was. -/
namespace Glia.Graph

open Glia.ExternalInputs (CellWrite checkWrite)

section Places

def RepoGraph.frame (g : RepoGraph) : RepoGraph := { g with nodes := [] }

structure SameFrame (m m' : MergedGraph) : Prop where
  cross : m'.crossEdges = m.crossEdges
  frames : m'.graphs.map RepoGraph.frame = m.graphs.map RepoGraph.frame
  sizes : m'.graphs.map (fun g => g.nodes.length) = m.graphs.map fun g => g.nodes.length

theorem sameFrame_refl (m : MergedGraph) : SameFrame m m := ⟨rfl, rfl, rfl⟩

theorem SameFrame.trans {a b c : MergedGraph} (h : SameFrame a b) (h' : SameFrame b c) :
    SameFrame a c :=
  ⟨h'.cross.trans h.cross, h'.frames.trans h.frames, h'.sizes.trans h.sizes⟩

theorem RepoGraph.eq_of_frame {g g' : RepoGraph} (frame : g'.frame = g.frame)
    (nodes : g'.nodes = g.nodes) : g' = g := by
  cases g
  cases g'
  cases frame
  cases nodes
  rfl

theorem SameFrame.eq {m m' : MergedGraph} (h : SameFrame m m')
    (same : ∀ p, nodeAt m' p = nodeAt m p) : m' = m := by
  have graphs : m'.graphs = m.graphs := by
    apply List.ext_getElem
    · simpa using congrArg List.length h.frames
    · intro a lt' lt
      have frame : (m'.graphs[a]).frame = (m.graphs[a]).frame := by
        have at' := congrArg (fun l => l[a]?) h.frames
        simpa [lt, lt'] using at'
      apply RepoGraph.eq_of_frame frame
      apply List.ext_getElem?
      intro b
      have here := same (a, b)
      simpa [nodeAt, lt, lt'] using here
  cases m
  cases m'
  cases graphs
  cases h.cross
  rfl

theorem setNode_frame (m : MergedGraph) (p : Nat × Nat) (n : Node) :
    SameFrame m (setNode m p n) := by
  refine ⟨rfl, ?_, ?_⟩
  · apply List.ext_getElem?
    intro a
    simp only [setNode, List.getElem?_map, List.getElem?_modify]
    cases m.graphs[a]? with
    | none => rfl
    | some g => by_cases here : p.1 = a <;> simp [here, RepoGraph.frame]
  · apply List.ext_getElem?
    intro a
    simp only [setNode, List.getElem?_map, List.getElem?_modify]
    cases m.graphs[a]? with
    | none => rfl
    | some g => by_cases here : p.1 = a <;> simp [here]

theorem nodeAt_setNode (m : MergedGraph) {p : Nat × Nat} {old : Node} (there : nodeAt m p = some old)
    (n : Node) (q : Nat × Nat) :
    nodeAt (setNode m p n) q = if q = p then some n else nodeAt m q := by
  obtain ⟨g, atG, atN⟩ := Option.bind_eq_some_iff.mp there
  have inside := (List.getElem?_eq_some_iff.mp atN).1
  unfold nodeAt setNode
  simp only [List.getElem?_modify]
  by_cases graph : p.1 = q.1
  · rw [← graph, atG]
    simp only [if_true, Option.map_eq_map, Option.map_some, Option.bind_some, List.getElem?_set]
    by_cases node : p.2 = q.2
    · rw [if_pos node, if_pos inside, if_pos (Prod.ext graph.symm node.symm)]
    · rw [if_neg node, if_neg fun eq => node (congrArg Prod.snd eq).symm]
  · rw [if_neg fun eq => graph (congrArg Prod.fst eq).symm]
    simp [graph]

end Places

section Write
variable (lib : WriteLib) (w : CellWrite)

def written (n : Node) : Node :=
  match nodePayload lib w n with
  | .ok p => { n with cells := putCell w.cell p n.cells }
  | .error _ => n

def takes (n : Node) : Bool := (nodePayload lib w n).toOption.isSome

def writeOne (m : MergedGraph) (p : Nat × Nat) : MergedGraph :=
  match nodeAt m p with
  | some n => setNode m p (written lib w n)
  | none => m

theorem writeOne_frame (m : MergedGraph) (p : Nat × Nat) : SameFrame m (writeOne lib w m p) := by
  unfold writeOne
  split
  · exact setNode_frame m p _
  · exact sameFrame_refl m

theorem nodeAt_writeOne (m : MergedGraph) (p q : Nat × Nat) : nodeAt (writeOne lib w m p) q =
    if q = p then (nodeAt m q).map (written lib w) else nodeAt m q := by
  unfold writeOne
  cases at' : nodeAt m p with
  | some n =>
    rw [nodeAt_setNode m at']
    by_cases same : q = p
    · rw [if_pos same, if_pos same, same, at']
      rfl
    · rw [if_neg same, if_neg same]
  | none =>
    by_cases same : q = p
    · rw [if_pos same, same]
      simp only [at', Option.map_none]
    · rw [if_neg same]

theorem foldl_writeOne {places : List (Nat × Nat)} (once : places.Nodup) (m : MergedGraph) :
    SameFrame m (places.foldl (writeOne lib w) m) ∧ ∀ q,
      nodeAt (places.foldl (writeOne lib w) m) q =
        if q ∈ places then (nodeAt m q).map (written lib w) else nodeAt m q := by
  induction places generalizing m with
  | nil => exact ⟨sameFrame_refl m, by simp⟩
  | cons p rest ih =>
    rw [List.nodup_cons] at once
    obtain ⟨frame, each⟩ := ih once.2 (writeOne lib w m p)
    refine ⟨(writeOne_frame lib w m p).trans frame, fun q => ?_⟩
    rw [List.foldl_cons, each q, nodeAt_writeOne]
    by_cases first : q = p
    · subst first
      simp [once.1]
    · simp [first]

variable {lib w}

theorem writePlaces_step {id : NodeId} {m : MergedGraph} {p : Nat × Nat} {rest : List (Nat × Nat)}
    {n : Node} (there : nodeAt m p = some n) (own : n.id = id) (taken : takes lib w n = true) :
    writePlaces lib w id (p :: rest) m = writePlaces lib w id rest (writeOne lib w m p) := by
  unfold takes at taken
  rw [writePlaces, there, Option.filter_some, if_pos (by simpa using own), writeOne, there]
  dsimp only
  unfold written
  cases eq : nodePayload lib w n with
  | ok payload => rfl
  | error e =>
    rw [eq] at taken
    cases taken

theorem writePlaces_eq {id : NodeId} {taken rest : List (Nat × Nat)} (once : (taken ++ rest).Nodup)
    {m : MergedGraph}
    (fine : ∀ p ∈ taken, ∃ n, nodeAt m p = some n ∧ n.id = id ∧ takes lib w n = true) :
    writePlaces lib w id (taken ++ rest) m =
      writePlaces lib w id rest (taken.foldl (writeOne lib w) m) := by
  induction taken generalizing m with
  | nil => rfl
  | cons p taken ih =>
    rw [List.cons_append, List.nodup_cons] at once
    obtain ⟨n, there, own, takesIt⟩ := fine p List.mem_cons_self
    rw [List.cons_append, writePlaces_step there own takesIt, List.foldl_cons]
    apply ih once.2
    intro q mem
    obtain ⟨n', there', fine'⟩ := fine q (List.mem_cons_of_mem _ mem)
    refine ⟨n', ?_, fine'⟩
    have other : q ≠ p := by
      rintro rfl
      exact once.1 (List.mem_append_left _ mem)
    rw [nodeAt_writeOne, if_neg other, there']

theorem writePlaces_stop {id : NodeId} {m : MergedGraph} {p : Nat × Nat} {rest : List (Nat × Nat)}
    {n : Node} (there : nodeAt m p = some n) (own : n.id = id) (refused : takes lib w n = false) :
    ∃ e, writePlaces lib w id (p :: rest) m = (m, .ok (some e)) := by
  unfold takes at refused
  rw [writePlaces, there, Option.filter_some, if_pos (by simpa using own)]
  dsimp only
  cases eq : nodePayload lib w n with
  | ok payload =>
    rw [eq] at refused
    cases refused
  | error e => exact ⟨e, rfl⟩

end Write

section Instances
variable {m : MergedGraph} {repo : Option Nat}

def placesOf (m : MergedGraph) (repo : Option Nat) (id : NodeId) : List (Nat × Nat) :=
  ((instances m.graphs repo).filter fun e => e.1 = id).map Prod.snd

theorem places_eq (read : NodeReader) (m : MergedGraph) (repo : Option Nat) (id : NodeId) :
    ((QnameIndex.build read m repo).places[id]?).getD [] = placesOf m repo id :=
  Kit.getElem?_gather_push (instances m.graphs repo) id

theorem mem_instances {id : NodeId} {p : Nat × Nat} : (id, p) ∈ instances m.graphs repo ↔
    ∃ g n, m.graphs[p.1]? = some g ∧ inScope repo g = true ∧ g.nodes[p.2]? = some n ∧ n.id = id := by
  unfold instances
  simp only [List.mem_flatMap, List.mem_filter, List.mem_map, Prod.exists, List.mem_zipIdx_iff_getElem?]
  constructor
  · rintro ⟨g, a, ⟨atG, own⟩, n, b, atN, eq⟩
    cases eq
    exact ⟨g, n, atG, own, atN, rfl⟩
  · rintro ⟨g, n, atG, own, atN, rfl⟩
    exact ⟨g, p.1, ⟨atG, own⟩, n, p.2, atN, rfl⟩

theorem mem_placesOf {id : NodeId} {p : Nat × Nat} : p ∈ placesOf m repo id ↔
    ∃ g n, m.graphs[p.1]? = some g ∧ inScope repo g = true ∧ g.nodes[p.2]? = some n ∧ n.id = id := by
  rw [← mem_instances]
  simp [placesOf]

theorem zipIdx_once {α : Type} (l : List α) : (l.zipIdx.map Prod.snd).Nodup := by
  rw [List.zipIdx_map_snd]
  exact List.nodup_range'

theorem instances_once : ((instances m.graphs repo).map Prod.snd).Nodup := by
  unfold instances
  rw [List.map_flatMap, List.nodup_flatMap]
  constructor
  · intro e _
    rw [List.map_map]
    have second := (zipIdx_once e.1.nodes).map (f := fun b => (e.2, b))
      fun a b same => congrArg Prod.snd same
    rw [List.map_map] at second
    exact second
  · have graphs := List.pairwise_map.mp (zipIdx_once m.graphs)
    refine (graphs.filter _).imp fun {e e'} apart => ?_
    intro p mem mem'
    simp only [List.map_map] at mem mem'
    obtain ⟨n, _, rfl⟩ := List.mem_map.mp mem
    obtain ⟨n', _, eq⟩ := List.mem_map.mp mem'
    exact apart (congrArg Prod.fst eq).symm

theorem placesOf_once (id : NodeId) : (placesOf m repo id).Nodup := by
  have sub : (placesOf m repo id).Sublist ((instances m.graphs repo).map Prod.snd) :=
    List.filter_sublist.map Prod.snd
  exact instances_once.sublist sub

end Instances

section Whole
variable (read : NodeReader) (lib : WriteLib) (w : CellWrite) (m : MergedGraph) (repo : Option Nat)

/-- Every in-scope instance of the node took the write, and nothing else changed. -/
structure Written (id : NodeId) (m' : MergedGraph) : Prop where
  frame : SameFrame m m'
  each : ∀ p ∈ placesOf m repo id, ∃ n payload, nodeAt m p = some n ∧
    nodePayload lib w n = .ok payload ∧
    nodeAt m' p = some { n with cells := putCell w.cell payload n.cells }
  others : ∀ p, p ∉ placesOf m repo id → nodeAt m' p = nodeAt m p

def AllOrNothing (out : MergedGraph × Except String CellTarget) : Prop :=
  match out.2.toOption.bind CellTarget.node with
  | some id => Written lib w m repo id out.1
  | none => out.1 = m

def takesAt (p : Nat × Nat) : Bool := (nodeAt m p).all (takes lib w)

/-- Of a node's in-scope instances, the merge takes all, or changes none of those before the
first it refuses. -/
def Unsplit (id : NodeId) : Prop :=
  (∀ p ∈ placesOf m repo id, takesAt lib w m p = true) ∨
    ∀ p ∈ (placesOf m repo id).takeWhile (takesAt lib w m),
      (nodeAt m p).map (written lib w) = nodeAt m p

variable {lib w m repo}

theorem placesOf_node {id : NodeId} {p : Nat × Nat} (mem : p ∈ placesOf m repo id) :
    ∃ n, nodeAt m p = some n ∧ n.id = id := by
  obtain ⟨g, n, atG, _, atN, own⟩ := mem_placesOf.mp mem
  exact ⟨n, by rw [nodeAt, atG]; exact atN, own⟩

theorem writtenAll {id : NodeId} (all : ∀ p ∈ placesOf m repo id, takesAt lib w m p = true) :
    ∃ m', writePlaces lib w id (placesOf m repo id) m = (m', .ok none) ∧
      Written lib w m repo id m' := by
  have once : (placesOf m repo id).Nodup := placesOf_once id
  have fine : ∀ p ∈ placesOf m repo id, ∃ n, nodeAt m p = some n ∧ n.id = id ∧
      takes lib w n = true := by
    intro p mem
    obtain ⟨n, there, own⟩ := placesOf_node mem
    have takesIt := all p mem
    rw [takesAt, there] at takesIt
    exact ⟨n, there, own, takesIt⟩
  obtain ⟨frame, each⟩ := foldl_writeOne lib w once m
  refine ⟨(placesOf m repo id).foldl (writeOne lib w) m, ?_, frame, fun p mem => ?_,
    fun p out => ?_⟩
  · have done := @writePlaces_eq lib w id _ [] (by simpa using once) m fine
    rw [List.append_nil] at done
    exact done
  · obtain ⟨n, there, _, takesIt⟩ := fine p mem
    unfold takes at takesIt
    cases eq : nodePayload lib w n with
    | error e =>
      rw [eq] at takesIt
      cases takesIt
    | ok payload =>
      refine ⟨n, payload, there, eq, ?_⟩
      rw [each p, if_pos mem, there, Option.map_some, written, eq]
  · rw [each p, if_neg out]

/-- When the merge refuses an instance, the write stops at the first such. -/
theorem writtenSome {id : NodeId} (some' : ¬ ∀ p ∈ placesOf m repo id, takesAt lib w m p = true) :
    ∃ e, writePlaces lib w id (placesOf m repo id) m =
      (((placesOf m repo id).takeWhile (takesAt lib w m)).foldl (writeOne lib w) m,
        .ok (some e)) := by
  have once : (placesOf m repo id).Nodup := placesOf_once id
  have split := List.takeWhile_append_dropWhile (p := takesAt lib w m) (l := placesOf m repo id)
  have stop : (placesOf m repo id).dropWhile (takesAt lib w m) ≠ [] := by
    intro none
    exact some' (List.dropWhile_eq_nil_iff.mp none)
  obtain ⟨p, rest, cut⟩ := List.exists_cons_of_ne_nil stop
  have refusedAt : takesAt lib w m p = false := by
    have head := List.head_dropWhile_not (takesAt lib w m) stop
    simpa [cut] using head
  have memP : p ∈ placesOf m repo id := by
    rw [← split, cut]
    exact List.mem_append_right _ List.mem_cons_self
  have apart : p ∉ (placesOf m repo id).takeWhile (takesAt lib w m) := by
    intro mem
    rw [List.mem_takeWhile_imp mem] at refusedAt
    cases refusedAt
  obtain ⟨n, there, own⟩ := placesOf_node memP
  have refused : takes lib w n = false := by
    rw [takesAt, there] at refusedAt
    exact refusedAt
  have fine : ∀ q ∈ (placesOf m repo id).takeWhile (takesAt lib w m), ∃ n, nodeAt m q = some n ∧
      n.id = id ∧ takes lib w n = true := by
    intro q mem
    have inside : q ∈ placesOf m repo id := (List.takeWhile_sublist _).subset mem
    obtain ⟨n', there', own'⟩ := placesOf_node inside
    have takesIt := List.mem_takeWhile_imp mem
    rw [takesAt, there'] at takesIt
    exact ⟨n', there', own', takesIt⟩
  rw [cut] at split
  have later : nodeAt (((placesOf m repo id).takeWhile (takesAt lib w m)).foldl (writeOne lib w) m)
      p = some n := by
    rw [(foldl_writeOne lib w (once.sublist (List.takeWhile_sublist _)) m).2 p, if_neg apart, there]
  obtain ⟨e, stopped⟩ := writePlaces_stop later own refused
  refine ⟨e, ?_⟩
  have whole := @writePlaces_eq lib w id _ (p :: rest) (split.symm ▸ once) m fine
  rw [split, stopped] at whole
  exact whole

theorem taken_unchanged {places : List (Nat × Nat)} (once : places.Nodup) :
    places.foldl (writeOne lib w) m = m ↔
      ∀ p ∈ places, (nodeAt m p).map (written lib w) = nodeAt m p := by
  obtain ⟨frame, each⟩ := foldl_writeOne lib w once m
  constructor
  · intro same p mem
    have here := each p
    rw [same, if_pos mem] at here
    exact here.symm
  · intro same
    apply frame.eq
    intro p
    rw [each p]
    split
    · rename_i mem
      exact same p mem
    · rfl

/-- A write through an index built over the graph is all or nothing just when the merge does
not refuse an instance of its node after changing another. -/
theorem cell_write_whole (read : NodeReader) (lib : WriteLib) (w : CellWrite) (m : MergedGraph)
    (repo : Option Nat) :
    let idx := QnameIndex.build read m repo
    AllOrNothing lib w m repo (applyCellWrite lib w m idx) ↔
      (checkWrite lib.print w = .ok () →
        ∀ id, (idx.resolve lib.print.debug w.qname w.kind w.hint).node = some id →
          Unsplit lib w m repo id) := by
  intro idx
  unfold applyCellWrite
  cases checked : checkWrite lib.print w with
  | error e => simp [AllOrNothing, Except.toOption, CellTarget.node]
  | ok _ =>
    dsimp only
    cases target : (idx.resolve lib.print.debug w.qname w.kind w.hint).node with
    | none => simp [AllOrNothing, Except.toOption, target]
    | some id =>
      dsimp only
      have places : (idx.places[id]?).getD [] = placesOf m repo id := places_eq read m repo id
      rw [places]
      have only : (() = () → ∀ id', some id = some id' → Unsplit lib w m repo id') ↔
          Unsplit lib w m repo id :=
        ⟨fun h => h rfl id rfl, fun h _ id' eq => Option.some.inj eq ▸ h⟩
      by_cases all : ∀ p ∈ placesOf m repo id, takesAt lib w m p = true
      · obtain ⟨m', done, whole⟩ := writtenAll all
        rw [done]
        simp only [AllOrNothing, Except.toOption, Option.bind_some, target]
        exact ⟨fun _ _ id' eq => Option.some.inj eq ▸ .inl all, fun _ => whole⟩
      · obtain ⟨e, stopped⟩ := writtenSome all
        rw [stopped]
        simp only [AllOrNothing, Except.toOption, Option.bind_some, CellTarget.node]
        rw [taken_unchanged ((placesOf_once id).sublist (List.takeWhile_sublist _))]
        constructor
        · intro same _ id' eq
          rw [← Option.some.inj eq]
          exact .inr same
        · intro cond
          rcases cond trivial id rfl with takesAll | same
          · exact absurd takesAll all
          · exact same

end Whole

section Split

def sharedNode : MergedGraph :=
  let nav : CodeNav :=
    { qnameById := (∅ : IdMap String).insert 1 "m::a", kindById := (∅ : IdMap Nat).insert 1 3 }
  { graphs := [{ repo := 7, nodes := [⟨1, .strong, []⟩], nav := nav },
      { repo := 7, nodes := [⟨1, .strong, [⟨CellType.conv, .text "extracted"⟩]⟩], nav := nav }] }

def noteWrite : CellWrite where
  qname := "m::a"
  kind := none
  hint := none
  cell := CellType.conv
  payload := .entry (.obj [("source", .str "api"), ("id", .str "n1"), ("text", .str "t")])

def noteLib : WriteLib where
  print := ⟨fun s => "\"" ++ s ++ "\"", fun _ => ""⟩
  serde := ⟨fun _ => "[\x7b\"id\":\"n1\",\"source\":\"api\",\"text\":\"t\"\x7d]", fun _ => none⟩
  lower := id

def cellCounts (m : MergedGraph) : List (List Nat) :=
  m.graphs.map fun g => g.nodes.map fun n => n.cells.length

def noted : MergedGraph × Except String CellTarget :=
  applyCellWrite noteLib noteWrite sharedNode
    (QnameIndex.build (nodeReader fun _ => false) sharedNode (some 7))

/-- The note is refused at the second instance and stays on the first. -/
theorem note_half_written : ¬ AllOrNothing noteLib noteWrite sharedNode (some 7) noted := by
  have refused : noted.2.toOption.bind CellTarget.node = none := by decide +kernel
  have counts : cellCounts noted.1 ≠ cellCounts sharedNode := by decide +kernel
  unfold AllOrNothing
  rw [refused]
  exact fun same => counts (congrArg cellCounts same)

end Split

end Glia.Graph
