import Glia.Engine.Cycles

/-! Every loop and import cycle is told once, and its witness is a walk round it. -/
namespace Glia.Engine.Cycles

open Relation Glia.Algo Glia.Kit
open Glia.Graph (MergedGraph)

section Tree
variable {adj : Adjacency} {y : NodeId} {rows : List Reached}

/-- The start stands at depth 0, a node reached where its row says. -/
def AtDepth (y : NodeId) (rows : List Reached) (x : NodeId) (d : Nat) : Prop :=
  x = y ∧ d = 0 ∨ ∃ r ∈ rows, r.id = x ∧ r.depth = d

structure Tree (adj : Adjacency) (y : NodeId) (rows : List Reached) : Prop where
  once : (rows.map Reached.id).Nodup
  root : ∀ r ∈ rows, r.id ≠ y
  hangs : ∀ r ∈ rows, ∃ d, AtDepth y rows r.parent d ∧ r.depth = d + 1 ∧
    adj.KeepsHop ⟨r.parent, r.via, r.id⟩
  low : ∀ r ∈ rows, r.depth ≤ adj.len

theorem Tree.row_eq (tree : Tree adj y rows) {r r' : Reached} (mem : r ∈ rows) (mem' : r' ∈ rows)
    (same : r.id = r'.id) : r = r' :=
  List.inj_on_of_nodup_map tree.once mem mem' same

theorem Tree.depth_eq (tree : Tree adj y rows) {x : NodeId} {d d' : Nat} (h : AtDepth y rows x d)
    (h' : AtDepth y rows x d') : d = d' := by
  cases h with
  | inl start =>
    cases h' with
    | inl start' => rw [start.2, start'.2]
    | inr told =>
      obtain ⟨r, mem, rfl, rfl⟩ := told
      exact absurd start.1 (tree.root r mem)
  | inr told =>
    obtain ⟨r, mem, rfl, rfl⟩ := told
    cases h' with
    | inl start' => exact absurd start'.1 (tree.root r mem)
    | inr told' =>
      obtain ⟨r', mem', same, rfl⟩ := told'
      rw [tree.row_eq mem' mem same]

theorem Tree.parentIn_eq (tree : Tree adj y rows) {r : Reached} (mem : r ∈ rows) :
    parentIn rows r.id = some (r.parent, r.via) := by
  unfold parentIn
  cases found : rows.find? fun r' => r'.id = r.id with
  | none => exact absurd (List.find?_eq_none.mp found r mem) (by simp)
  | some r' =>
    have same : r'.id = r.id := by simpa using List.find?_some found
    rw [tree.row_eq (List.mem_of_find?_eq_some found) mem same]
    rfl

structure SimplePath (adj : Adjacency) (y x : NodeId) (path : List Hop) : Prop where
  leads : Leads Hop.fromId Hop.toId path y x
  kept : ∀ h ∈ path, adj.KeepsHop h
  once : (path.map Hop.fromId).Nodup
  ends : x ∉ path.map Hop.fromId

/-- Following the parents back from a node that stands gives a path to it, each hop of it leaving a
node nearer than it. -/
theorem Tree.pathBack_eq (tree : Tree adj y rows) (d : Nat) :
    ∀ (x : NodeId) (fuel : Nat) (hops : List Hop), AtDepth y rows x d → d < fuel →
      ∃ path, pathBack (parentIn rows) y fuel hops x = path ++ hops ∧ SimplePath adj y x path ∧
        ∀ h ∈ path, ∃ n < d, AtDepth y rows h.fromId n := by
  induction d with
  | zero =>
    intro x fuel hops at' enough
    obtain ⟨fuel, rfl⟩ := Nat.exists_eq_add_of_lt enough
    have start : x = y := by
      cases at' with
      | inl start => exact start.1
      | inr told =>
        obtain ⟨r, mem, _, zero⟩ := told
        obtain ⟨d, _, eq, _⟩ := tree.hangs r mem
        omega
    refine ⟨[], ?_, ⟨start.symm, by simp, by simp, by simp⟩, by simp⟩
    rw [Nat.zero_add, pathBack, if_pos start, List.nil_append]
  | succ d ih =>
    intro x fuel hops at' enough
    cases fuel with
    | zero => omega
    | succ fuel =>
      cases at' with
      | inl start => exact absurd start.2 (Nat.succ_ne_zero d)
      | inr told =>
        obtain ⟨r, mem, rfl, depth⟩ := told
        obtain ⟨d', up, deeper, kept⟩ := tree.hangs r mem
        obtain rfl : d' = d := by omega
        obtain ⟨path, eq, simple, nearer⟩ := ih r.parent fuel
          (⟨r.parent, r.via, r.id⟩ :: hops) up (by omega)
        have here : AtDepth y rows r.id (d' + 1) := .inr ⟨r, mem, rfl, depth⟩
        have apart : ∀ n ≤ d', ¬AtDepth y rows r.id n := by
          intro n le other
          have := tree.depth_eq here other
          omega
        refine ⟨path ++ [⟨r.parent, r.via, r.id⟩], ?_, ⟨?_, fun h held => ?_, ?_, ?_⟩, fun h held => ?_⟩
        · rw [pathBack, if_neg (tree.root r mem), tree.parentIn_eq mem]
          dsimp only
          rw [eq, List.append_assoc, List.singleton_append]
        · exact leads_concat.mpr ⟨simple.leads, rfl⟩
        · cases List.mem_append.mp held with
          | inl old => exact simple.kept h old
          | inr last => exact List.mem_singleton.mp last ▸ kept
        · rw [List.map_append, List.map_singleton, List.nodup_append]
          refine ⟨simple.once, List.nodup_singleton _, fun a inside b last eq => simple.ends ?_⟩
          have same : a = r.parent := eq.trans (List.mem_singleton.mp last)
          exact same ▸ inside
        · intro inside
          obtain ⟨h, held, eq⟩ := List.mem_map.mp inside
          cases List.mem_append.mp held with
          | inl old =>
            obtain ⟨n, lt, at'⟩ := nearer h old
            exact apart n lt.le (eq ▸ at')
          | inr last =>
            rw [List.mem_singleton.mp last] at eq
            exact apart d' le_rfl (eq ▸ up)
        · cases List.mem_append.mp held with
          | inl old =>
            obtain ⟨n, lt, at'⟩ := nearer h old
            exact ⟨n, by omega, at'⟩
          | inr last => exact ⟨d', by omega, List.mem_singleton.mp last ▸ up⟩

end Tree

section Paths
variable {adj : Adjacency}

theorem seedIndexes_single {u : Nat} (hu : u < adj.len) : seedIndexes adj [adj.id u] = {u} := by
  ext v
  simp [seedIndexes, adj.indexOf_id hu, eq_comm]

theorem bfs_tree {u : Nat} (hu : u < adj.len) (maxDepth : Nat) :
    Tree adj (adj.id u) (bfs adj [adj.id u] .forward maxDepth).reached := by
  obtain ⟨rows, _, exact', told⟩ := bfs_rows adj [adj.id u] .forward maxDepth
  rw [seedIndexes_single hu] at exact'
  have row : ∀ r ∈ (bfs adj [adj.id u] .forward maxDepth).reached, ∃ v, adj.id v = r.id ∧
      1 ≤ r.depth ∧ Kit.Dist (Steps adj .forward) {u} v r.depth := by
    intro r mem
    have held := List.mem_map_of_mem (f := fun r : Reached => (r.id, r.depth)) mem
    rw [told] at held
    obtain ⟨e, memE, eq⟩ := List.mem_map.mp held
    obtain ⟨pos, _, dist⟩ := (exact' e.1 e.2).mp memE
    rw [show e.2 = r.depth from congrArg Prod.snd eq] at pos dist
    exact ⟨e.1, congrArg Prod.fst eq, pos, dist⟩
  refine ⟨bfs_nodup adj _ _ _, fun r mem eq => ?_, fun r mem => ?_, fun r mem => ?_⟩
  · obtain ⟨v, idV, pos, dist⟩ := row r mem
    obtain rfl := adj.id_injective (dist_lt pos dist) hu (idV.trans eq)
    have := dist.unique (dist_zero.mpr rfl)
    omega
  · obtain ⟨v, inc, out, d, stands, rfl⟩ := bfs_rooted adj [adj.id u] .forward maxDepth r mem
    rw [seedIndexes_single hu] at stands
    refine ⟨d, stands.imp_left fun seed => ⟨congrArg adj.id seed.1, seed.2⟩, rfl, ?_⟩
    exact ⟨_, List.mem_of_getElem? ((adj.mem_outgoing v inc).mp out), rfl, rfl, rfl⟩
  · obtain ⟨v, _, _, dist⟩ := row r mem
    exact dist_le dist

theorem shortestPath_simple (small : adj.len ≤ usizeMax) {y x : NodeId}
    (way : TransGen adj.Joins y x) : SimplePath adj y x (shortestPath adj y x) := by
  obtain ⟨u, w, hu, hw, rfl, rfl, arcs⟩ := (Adjacency.way_iff y x).mp way
  unfold shortestPath
  split
  · rename_i same
    exact ⟨same, by simp, by simp, by simp⟩
  · rename_i apart
    obtain ⟨n, _, walk⟩ := (transGen_iff_hops _ _ _).mp arcs
    have out : w ∉ seedIndexes adj [adj.id u] := by
      rw [seedIndexes_single hu]
      exact fun eq => apart (congrArg adj.id eq).symm
    obtain ⟨r, mem, same⟩ := @bfs_tells adj .forward [adj.id u] usizeMax n w small
      ⟨u, by rw [seedIndexes_single hu]; rfl, walk⟩ out
    have tree := bfs_tree hu usizeMax
    obtain ⟨path, eq, simple, _⟩ := tree.pathBack_eq r.depth (adj.id w) (adj.len + 1) []
      (.inr ⟨r, mem, same, rfl⟩) (Nat.lt_succ_of_le (tree.low r mem))
    rw [eq, List.append_nil]
    exact simple

variable {c : List NodeId}

theorem KeepsHop.joins {h : Hop} (kept : adj.KeepsHop h) : adj.Joins h.fromId h.toId := by
  obtain ⟨k, mem, src, _, dst⟩ := kept
  exact ⟨k, mem, src, dst⟩

theorem SimplePath.inside (comp : c ∈ stronglyConnected adj) {y x : NodeId} (hasY : y ∈ c)
    (hasX : x ∈ c) {path : List Hop} (simple : SimplePath adj y x path) :
    ∀ h ∈ path, adj.KeepsHop h ∧ h.fromId ∈ c ∧ h.toId ∈ c := by
  intro h mem
  have joins : ∀ h ∈ path, adj.Joins h.fromId h.toId := fun h mem => KeepsHop.joins (simple.kept h mem)
  obtain ⟨before, after⟩ := simple.leads.through joins mem
  exact ⟨simple.kept h mem, member_between comp hasY hasX before (.head (joins h mem) after),
    member_between comp hasY hasX (before.tail (joins h mem)) after⟩

theorem way_of_members (comp : c ∈ stronglyConnected adj) {y x : NodeId} (hasY : y ∈ c)
    (hasX : x ∈ c) : TransGen adj.Joins y x :=
  ((stronglyConnected_iff y x).mp ⟨c, comp, hasY, hasX⟩).1

theorem cycleThrough_closed (small : adj.len ≤ usizeMax) (comp : c ∈ stronglyConnected adj)
    {edge : Hop} (kept : adj.KeepsHop edge) (hasFrom : edge.fromId ∈ c) (hasTo : edge.toId ∈ c) :
    ClosedWalk adj.KeepsHop c (cycleThrough adj edge) ∧
      ((cycleThrough adj edge).map Hop.fromId).Nodup := by
  have simple := shortestPath_simple small (way_of_members comp hasTo hasFrom)
  unfold cycleThrough
  refine ⟨⟨by simp, fun h mem => ?_, edge.fromId, leads_cons.mpr ⟨rfl, simple.leads⟩⟩, ?_⟩
  · cases List.mem_cons.mp mem with
    | inl eq => exact eq ▸ ⟨kept, hasFrom, hasTo⟩
    | inr later => exact simple.inside comp hasTo hasFrom h later
  · exact List.nodup_cons.mpr ⟨simple.ends, simple.once⟩

theorem SimplePath.starts {y x : NodeId} {path : List Hop} (simple : SimplePath adj y x path)
    (apart : y ≠ x) : ∃ h ∈ path, h.fromId = y := by
  cases path with
  | nil => exact absurd simple.leads apart
  | cons h rest => exact ⟨h, List.mem_cons_self, simple.leads.1⟩

/-- Placed members in two services: the walk goes from one to one of another service and back. -/
theorem crossingWalk_closed (small : adj.len ≤ usizeMax) (comp : c ∈ stronglyConnected adj)
    {placed : List (NodeId × String)} (inside : ∀ p ∈ placed, p.1 ∈ c)
    (two : ∃ p ∈ placed, ∃ q ∈ placed, p.2 ≠ q.2) (func : ∀ p ∈ placed, ∀ q ∈ placed,
      p.1 = q.1 → p.2 = q.2) :
    ClosedWalk adj.KeepsHop c (crossingWalk adj placed) ∧
      ∃ p ∈ placed, ∃ q ∈ placed, p.2 ≠ q.2 ∧
        (∃ h ∈ crossingWalk adj placed, h.fromId = p.1) ∧
        ∃ h ∈ crossingWalk adj placed, h.fromId = q.1 := by
  cases placed with
  | nil =>
    obtain ⟨p, mem, _⟩ := two
    cases mem
  | cons p rest =>
    obtain ⟨u, su⟩ := p
    unfold crossingWalk
    dsimp only
    cases found : ((u, su) :: rest).find? fun p => p.2 ≠ su with
    | none =>
      have same : ∀ p ∈ (u, su) :: rest, p.2 = su := fun p mem => by
        simpa using List.find?_eq_none.mp found p mem
      obtain ⟨p, memP, q, memQ, apart⟩ := two
      exact absurd ((same p memP).trans (same q memQ).symm) apart
    | some q =>
      obtain ⟨v, sv⟩ := q
      have memV := List.mem_of_find?_eq_some found
      have other : sv ≠ su := by simpa using List.find?_some found
      have memU : (u, su) ∈ (u, su) :: rest := List.mem_cons_self
      have apart : u ≠ v := fun eq => other (func _ memV _ memU eq.symm)
      have hasU := inside _ memU
      have hasV := inside _ memV
      have out := shortestPath_simple small (way_of_members comp hasU hasV)
      have back := shortestPath_simple small (way_of_members comp hasV hasU)
      obtain ⟨h, memH, startH⟩ := out.starts apart
      obtain ⟨h', memH', startH'⟩ := back.starts apart.symm
      dsimp only
      refine ⟨⟨fun none' => ?_, fun g mem => ?_, u, leads_append.mpr ⟨v, out.leads, back.leads⟩⟩,
        _, memU, _, memV, other.symm, ⟨h, List.mem_append_left _ memH, startH⟩,
        h', List.mem_append_right _ memH', startH'⟩
      · rw [List.append_eq_nil_iff] at none'
        rw [none'.1] at memH
        cases memH
      · cases List.mem_append.mp mem with
        | inl first => exact out.inside comp hasU hasV g first
        | inr last => exact back.inside comp hasV hasU g last

end Paths

section Ordered

theorem ordered_sorted (l : List String) : (ordered l).Pairwise (· < ·) := by
  have sorted : (l.insertionSort (· ≤ ·)).Pairwise fun a b => id a ≤ id b :=
    List.pairwise_insertionSort _ l
  have := Ranking.dedup_keys_sorted sorted
  rwa [List.map_id] at this

theorem mem_ordered {l : List String} {s : String} : s ∈ ordered l ↔ s ∈ l := by
  rw [ordered, Ranking.mem_dedup, List.mem_insertionSort]

theorem sorted_ext {l l' : List String} (h : l.Pairwise (· < ·)) (h' : l'.Pairwise (· < ·))
    (same : ∀ s, s ∈ l ↔ s ∈ l') : l = l' :=
  ((List.perm_ext_iff_of_nodup (h.imp fun lt => lt.ne) (h'.imp fun lt => lt.ne)).mpr
    same).eq_of_pairwise (fun _ _ _ _ lt lt' => absurd lt' lt.not_gt) h h'

theorem two_le_ordered {l : List String} :
    2 ≤ (ordered l).length ↔ ∃ a ∈ l, ∃ b ∈ l, a ≠ b := by
  have sorted := ordered_sorted l
  constructor
  · intro two
    cases held : ordered l with
    | nil => simp [held] at two
    | cons a rest =>
      cases rest with
      | nil => simp [held] at two
      | cons b rest =>
        rw [held] at sorted
        have inside : ∀ s ∈ a :: b :: rest, s ∈ l := fun s mem => mem_ordered.mp (held ▸ mem)
        exact ⟨a, inside a (by simp), b, inside b (by simp),
          ((List.pairwise_cons.mp sorted).1 b (by simp)).ne⟩
  · intro found
    obtain ⟨a, memA, b, memB, apart⟩ := found
    cases held : ordered l with
    | nil =>
      have := mem_ordered.mpr memA
      simp [held] at this
    | cons x rest =>
      cases rest with
      | nil =>
        have ha := mem_ordered.mpr memA
        have hb := mem_ordered.mpr memB
        rw [held, List.mem_singleton] at ha hb
        exact absurd (ha.trans hb.symm) apart
      | cons y rest => simp

end Ordered

section Flow
variable (ctx : Ctx)

def Flows (m : MergedGraph) (a b : NodeId) : Prop :=
  ∃ e ∈ m.allEdges, e.category ∈ flowCausal ∧ e.fromId = a ∧ e.toId = b

/-- The hop is an edge a runtime loop can travel. -/
def FlowEdge (m : MergedGraph) (h : Hop) : Prop :=
  ∃ e ∈ m.allEdges, e.category ∈ flowCausal ∧ e.fromId = h.fromId ∧ e.category = h.category ∧
    e.toId = h.toId

def Apart (a b : NodeId) : Prop :=
  ∃ s t, ctx.service a = some s ∧ ctx.service b = some t ∧ s ≠ t

/-- Some members sit in two services. -/
def Spans (c : List NodeId) : Prop := ∃ a ∈ c, ∃ b ∈ c, Apart ctx a b

/-- An edge between two members that joins two services directly. -/
def Crosses (c : List NodeId) (h : Hop) : Prop :=
  FlowEdge ctx.merged h ∧ h.fromId ∈ c ∧ h.toId ∈ c ∧ Apart ctx h.fromId h.toId

def crossingAt (h : Hop) : Crossing :=
  ⟨crossingRank h.category, (ctx.locate h.fromId).qname, (ctx.locate h.toId).qname, h⟩

variable {ctx}

theorem Apart.ne {a b : NodeId} (h : Apart ctx a b) : a ≠ b := by
  obtain ⟨s, t, hs, ht, apart⟩ := h
  exact fun eq => apart (Option.some.inj (hs.symm.trans (eq ▸ ht)))

theorem two_le_services (c : List NodeId) : 2 ≤ (ctx.servicesOf c).length ↔ Spans ctx c := by
  rw [Ctx.servicesOf, two_le_ordered]
  simp only [List.mem_filterMap, Spans, Apart]
  constructor
  · intro found
    obtain ⟨s, ⟨a, memA, hs⟩, t, ⟨b, memB, ht⟩, apart⟩ := found
    exact ⟨a, memA, b, memB, s, t, hs, ht, apart⟩
  · intro found
    obtain ⟨a, memA, b, memB, s, t, hs, ht, apart⟩ := found
    exact ⟨s, ⟨a, memA, hs⟩, t, ⟨b, memB, ht⟩, apart⟩

theorem mem_keptFlow {m : MergedGraph} {e : Edge} :
    e ∈ (mergedSource m).keptEdges (.of flowCausal) ↔ e ∈ m.allEdges ∧ e.category ∈ flowCausal := by
  rw [GraphSource.keptEdges, List.mem_filter, CategorySet.contains, List.contains_iff_mem]
  rfl

theorem stepAlong_flow (m : MergedGraph) :
    StepAlong (mergedSource m) (.of flowCausal) .forward = Flows m := by
  ext a b
  simp only [StepAlong, mem_keptFlow, Follows, Flows, and_assoc]

theorem keepsHop_flow {m : MergedGraph} (fits : (mergedSource m).Fits (.of flowCausal) indexLimit)
    (h : Hop) : (Adjacency.build (mergedSource m) (.of flowCausal)).KeepsHop h ↔ FlowEdge m h := by
  rw [keepsHop_build fits]
  simp only [mem_keptFlow, FlowEdge, and_assoc]

theorem flowIndex_small : (flowIndex ctx).len ≤ usizeMax :=
  (build_len_le _ _).trans (by decide)

theorem mem_spanning {s : Spanning} : s ∈ spanning ctx ↔
    (stronglyConnected (flowIndex ctx))[s.index]? = some s.members ∧
      s.services = ctx.servicesOf s.members ∧ Spans ctx s.members := by
  rw [← two_le_services, spanning, List.mem_filter, List.mem_map]
  constructor
  · intro found
    obtain ⟨⟨⟨c, i⟩, mem, rfl⟩, two⟩ := found
    exact ⟨List.mem_zipIdx_iff_getElem?.mp mem, rfl, of_decide_eq_true two⟩
  · intro h
    obtain ⟨at', eq, two⟩ := h
    exact ⟨⟨(s.members, s.index), List.mem_zipIdx_iff_getElem?.mpr at', by rw [← eq]⟩,
      decide_eq_true (eq ▸ two)⟩

theorem spanning_comp {s : Spanning} (mem : s ∈ spanning ctx) :
    s.members ∈ stronglyConnected (flowIndex ctx) := List.mem_of_getElem? (mem_spanning.mp mem).1

theorem stronglyConnected_nodup (adj : Adjacency) : (stronglyConnected adj).Nodup := by
  apply stronglyConnected_strict.imp
  intro a b lt eq
  exact lt_irrefl _ (eq ▸ lt)

theorem compOf_iff {s : Spanning} (mem : s ∈ spanning ctx) (x : NodeId) :
    compOf ctx x = some s.index ↔ x ∈ s.members := by
  have index : ∀ s' ∈ spanning ctx, s'.members = s.members ↔ s'.index = s.index := by
    intro s' mem'
    have at' := (mem_spanning.mp mem').1
    have at'' := (mem_spanning.mp mem).1
    constructor
    · intro eq
      rw [eq] at at'
      have lt := (List.getElem?_eq_some_iff.mp at').1
      exact (List.getElem?_inj lt (stronglyConnected_nodup _)).mp (at'.trans at''.symm)
    · intro eq
      rw [eq, at''] at at'
      exact (Option.some.inj at').symm
  unfold compOf
  cases found : (spanning ctx).find? fun s => s.members.contains x with
  | none =>
    have out := List.find?_eq_none.mp found s mem
    simp only [List.contains_iff_mem] at out
    simp [out]
  | some s' =>
    have mem' := List.mem_of_find?_eq_some found
    have inside : x ∈ s'.members := by simpa using List.find?_some found
    rw [Option.map_some, Option.some.injEq, ← index s' mem']
    constructor
    · exact fun eq => eq ▸ inside
    · exact fun here => stronglyConnected_unique (spanning_comp mem') (spanning_comp mem) inside here

theorem crossingOf_iff {s : Spanning} (mem : s ∈ spanning ctx) (e : Edge) (cand : Crossing) :
    crossingOf ctx e = some (s.index, cand) ↔ e.category ∈ flowCausal ∧ e.fromId ∈ s.members ∧
      e.toId ∈ s.members ∧ Apart ctx e.fromId e.toId ∧
        cand = crossingAt ctx ⟨e.fromId, e.category, e.toId⟩ := by
  rw [← compOf_iff mem, ← compOf_iff mem]
  unfold crossingOf Apart crossingAt
  by_cases flows : e.category ∈ flowCausal
  · rw [if_neg (by simpa using flows)]
    cases compOf ctx e.fromId with
    | none => simp
    | some a =>
      cases compOf ctx e.toId with
      | none => simp
      | some b =>
        cases ctx.service e.fromId with
        | none => simp
        | some sa =>
          cases ctx.service e.toId with
          | none => simp
          | some sb =>
            by_cases same : a = b
            · subst same
              by_cases eq : sa = sb
              · simp [eq]
              · simp [eq, flows, eq_comm]
            · simp only [ne_eq, same, not_false_eq_true, if_true, reduceCtorEq, false_iff,
                Option.some.injEq]
              intro h
              exact same (h.2.1.trans h.2.2.1.symm)
  · rw [if_pos (by simpa using flows)]
    simp [flows]

/-- After the edges `seen` each component keeps the least of its crossing edges. -/
structure BestOf (ctx : Ctx) (seen : List Edge) (best : Nat → Option Crossing) : Prop where
  some' : ∀ i c, best i = some c → (∃ e ∈ seen, crossingOf ctx e = some (i, c)) ∧
    ∀ e ∈ seen, ∀ c', crossingOf ctx e = some (i, c') → c.key ≤ c'.key
  none' : ∀ i, best i = none → ∀ e ∈ seen, ∀ c, crossingOf ctx e ≠ some (i, c)

theorem BestOf.keep {seen : List Edge} {best : Nat → Option Crossing} (h : BestOf ctx seen best)
    {e : Edge} (old : ∀ i c, crossingOf ctx e = some (i, c) →
      ∃ held, best i = some held ∧ held.key ≤ c.key) : BestOf ctx (seen ++ [e]) best := by
  refine ⟨fun i c at' => ⟨?_, fun f mem c' is => ?_⟩, fun i none' f mem c is => ?_⟩
  · obtain ⟨f, mem, is⟩ := (h.some' i c at').1
    exact ⟨f, List.mem_append_left _ mem, is⟩
  · cases List.mem_append.mp mem with
    | inl early => exact (h.some' i c at').2 f early c' is
    | inr last =>
      obtain ⟨held, at'', le⟩ := old i c' (List.mem_singleton.mp last ▸ is)
      rw [at', Option.some.injEq] at at''
      exact at'' ▸ le
  · cases List.mem_append.mp mem with
    | inl early => exact h.none' i none' f early c is
    | inr last =>
      obtain ⟨held, at'', _⟩ := old i c (List.mem_singleton.mp last ▸ is)
      rw [none'] at at''
      cases at''

theorem BestOf.put {seen : List Edge} {best : Nat → Option Crossing} (h : BestOf ctx seen best)
    {e : Edge} {ci : Nat} {cand : Crossing} (is : crossingOf ctx e = some (ci, cand))
    (least : ∀ c, best ci = some c → cand.key ≤ c.key) :
    BestOf ctx (seen ++ [e]) (Function.update best ci (some cand)) := by
  have own : ∀ i c', crossingOf ctx e = some (i, c') → i = ci ∧ c' = cand := by
    intro i c' is'
    rw [is, Option.some.injEq, Prod.mk.injEq] at is'
    exact ⟨is'.1.symm, is'.2.symm⟩
  refine ⟨fun i c at' => ⟨?_, fun f mem c' is' => ?_⟩, fun i none' f mem c is' => ?_⟩
  · by_cases here : i = ci
    · subst here
      rw [Function.update_self, Option.some.injEq] at at'
      exact ⟨e, by simp, at' ▸ is⟩
    · rw [Function.update_of_ne here] at at'
      obtain ⟨f, mem, is'⟩ := (h.some' i c at').1
      exact ⟨f, List.mem_append_left _ mem, is'⟩
  · by_cases here : i = ci
    · subst here
      rw [Function.update_self, Option.some.injEq] at at'
      subst at'
      cases List.mem_append.mp mem with
      | inl early =>
        cases held : best i with
        | none => exact absurd is' (h.none' i held f early c')
        | some c => exact (least c held).trans ((h.some' i c held).2 f early c' is')
      | inr last => exact (own i c' (List.mem_singleton.mp last ▸ is')).2 ▸ le_rfl
    · rw [Function.update_of_ne here] at at'
      cases List.mem_append.mp mem with
      | inl early => exact (h.some' i c at').2 f early c' is'
      | inr last => exact absurd (own i c' (List.mem_singleton.mp last ▸ is')).1 here
  · by_cases here : i = ci
    · subst here
      simp at none'
    · rw [Function.update_of_ne here] at none'
      cases List.mem_append.mp mem with
      | inl early => exact h.none' i none' f early c is'
      | inr last => exact absurd (own i c (List.mem_singleton.mp last ▸ is')).1 here

theorem keepCrossing_best {seen : List Edge} {best : Nat → Option Crossing}
    (h : BestOf ctx seen best) (e : Edge) : BestOf ctx (seen ++ [e]) (keepCrossing ctx best e) := by
  unfold keepCrossing
  cases is : crossingOf ctx e with
  | none => exact h.keep fun i c is' => by simp [is] at is'
  | some found =>
    obtain ⟨ci, cand⟩ := found
    dsimp only
    cases held : best ci with
    | none => exact h.put is fun c at' => by simp [held] at at'
    | some c =>
      dsimp only
      split
      · rename_i lt
        exact h.put is fun c' at' => by
          rw [held, Option.some.injEq] at at'
          exact at' ▸ lt.le
      · rename_i le
        refine h.keep fun i c' is' => ?_
        rw [is, Option.some.injEq, Prod.mk.injEq] at is'
        exact ⟨c, is'.1 ▸ held, is'.2 ▸ not_lt.mp le⟩

theorem crossings_best : BestOf ctx ctx.merged.allEdges (crossings ctx) := by
  have run : ∀ (rest seen : List Edge) (best : Nat → Option Crossing), BestOf ctx seen best →
      BestOf ctx (seen ++ rest) (rest.foldl (keepCrossing ctx) best) := by
    intro rest
    induction rest with
    | nil =>
      intro seen best h
      rwa [List.append_nil]
    | cons e rest ih =>
      intro seen best h
      have := ih (seen ++ [e]) _ (keepCrossing_best h e)
      rwa [List.append_assoc] at this
  exact run ctx.merged.allEdges [] _ ⟨by simp, by simp⟩

theorem crossings_some {s : Spanning} (mem : s ∈ spanning ctx) {best : Crossing}
    (at' : crossings ctx s.index = some best) : Crosses ctx s.members best.edge ∧
      ∀ h, Crosses ctx s.members h →
        (crossingAt ctx best.edge).key ≤ (crossingAt ctx h).key := by
  obtain ⟨⟨e, edge, is⟩, least⟩ := crossings_best.some' s.index best at'
  obtain ⟨flows, hasFrom, hasTo, apart, rfl⟩ := (crossingOf_iff mem e best).mp is
  refine ⟨⟨⟨e, edge, flows, rfl, rfl, rfl⟩, hasFrom, hasTo, apart⟩, fun h crosses => ?_⟩
  obtain ⟨⟨f, edge', flows', src, cat, dst⟩, hasFrom', hasTo', apart'⟩ := crosses
  rw [← src] at hasFrom' apart'
  rw [← dst] at hasTo' apart'
  have hop : (⟨f.fromId, f.category, f.toId⟩ : Hop) = h := by rw [src, cat, dst]
  exact least f edge' _ ((crossingOf_iff mem f _).mpr
    ⟨flows', hasFrom', hasTo', apart', by rw [hop]⟩)

theorem crossings_none {s : Spanning} (mem : s ∈ spanning ctx)
    (at' : crossings ctx s.index = none) (h : Hop) : ¬Crosses ctx s.members h := by
  intro crosses
  obtain ⟨⟨e, edge, flows, src, cat, dst⟩, hasFrom, hasTo, apart⟩ := crosses
  rw [← src] at hasFrom apart
  rw [← dst] at hasTo apart
  exact crossings_best.none' s.index at' e edge _
    ((crossingOf_iff mem e _).mpr ⟨flows, hasFrom, hasTo, apart, rfl⟩)

structure Shows (ctx : Ctx) (c : List NodeId) (hops : List Hop) (row : CycleRow) : Prop where
  witness : row.witness = hops.map (flowHop ctx)
  closed : ClosedWalk (FlowEdge ctx.merged) c hops
  visits : ∃ h ∈ hops, ∃ h' ∈ hops, Apart ctx h.fromId h'.fromId
  /-- Where an edge joins two services directly the walk takes a least one, and leaves no node
  twice. -/
  crosses : (∃ h, Crosses ctx c h) → (hops.map Hop.fromId).Nodup ∧
    ∃ h ∈ hops, Crosses ctx c h ∧ ∀ h', Crosses ctx c h' →
      (crossingAt ctx h).key ≤ (crossingAt ctx h').key
  kind : row.kind = .eventLoop ∧ (∃ h ∈ hops, h.category ∈ asyncFlows) ∨
    row.kind = .callLoop ∧ ∀ h ∈ hops, h.category ∉ asyncFlows
  services : row.services = ctx.servicesOf c

theorem mem_placed {c : List NodeId} {p : NodeId × String} :
    p ∈ placed ctx c ↔ p.1 ∈ c ∧ ctx.service p.1 = some p.2 := by
  unfold placed Ctx.byQname
  simp only [List.mem_filterMap, List.mem_insertionSort, List.mem_map, Option.map_eq_some_iff]
  constructor
  · intro found
    obtain ⟨_, ⟨x, mem, rfl⟩, s, at', rfl⟩ := found
    exact ⟨mem, at'⟩
  · intro h
    exact ⟨_, ⟨p.1, h.1, rfl⟩, p.2, h.2, rfl⟩

/-- The walk of a spanning component goes round it and visits two services. -/
theorem flowHops_closed {s : Spanning} (mem : s ∈ spanning ctx) :
    ClosedWalk (FlowEdge ctx.merged) s.members (flowHops ctx s) ∧
      (∃ h ∈ flowHops ctx s, ∃ h' ∈ flowHops ctx s, Apart ctx h.fromId h'.fromId) ∧
      ((∃ h, Crosses ctx s.members h) → ((flowHops ctx s).map Hop.fromId).Nodup ∧
        ∃ h ∈ flowHops ctx s, Crosses ctx s.members h ∧ ∀ h', Crosses ctx s.members h' →
          (crossingAt ctx h).key ≤ (crossingAt ctx h').key) := by
  have comp := spanning_comp mem
  have fits := fits_of_component comp
  have kept := keepsHop_flow fits
  unfold flowHops
  cases at' : crossings ctx s.index with
  | some best =>
    obtain ⟨crosses, least⟩ := crossings_some mem at'
    have edge := (kept best.edge).mpr crosses.1
    obtain ⟨walk, once⟩ := cycleThrough_closed flowIndex_small comp edge crosses.2.1 crosses.2.2.1
    have here : best.edge ∈ cycleThrough (flowIndex ctx) best.edge := List.mem_cons_self
    obtain ⟨h, back, start⟩ := (shortestPath_simple flowIndex_small
      (way_of_members comp crosses.2.2.1 crosses.2.1)).starts crosses.2.2.2.ne.symm
    exact ⟨walk.mono fun h => (kept h).mp,
      ⟨best.edge, here, h, List.mem_cons_of_mem _ back, start ▸ crosses.2.2.2⟩,
      fun _ => ⟨once, best.edge, here, crosses, least⟩⟩
  | none =>
    have two : ∃ p ∈ placed ctx s.members, ∃ q ∈ placed ctx s.members, p.2 ≠ q.2 := by
      obtain ⟨a, memA, b, memB, u, v, hu, hv, apart⟩ := (mem_spanning.mp mem).2.2
      exact ⟨(a, u), mem_placed.mpr ⟨memA, hu⟩, (b, v), mem_placed.mpr ⟨memB, hv⟩, apart⟩
    obtain ⟨walk, p, memP, q, memQ, apart, ⟨h, memH, startH⟩, h', memH', startH'⟩ :=
      crossingWalk_closed flowIndex_small comp (fun p memP => (mem_placed.mp memP).1) two
        (fun p memP q memQ same => Option.some.inj (by
          rw [← (mem_placed.mp memP).2, ← (mem_placed.mp memQ).2, same]))
    refine ⟨walk.mono fun h => (kept h).mp, ⟨h, memH, h', memH', p.2, q.2, ?_, ?_, apart⟩, ?_⟩
    · exact startH ▸ (mem_placed.mp memP).2
    · exact startH' ▸ (mem_placed.mp memQ).2
    · exact fun found => found.elim fun h crosses => absurd crosses (crossings_none mem at' h)

theorem flowRow_shows {s : Spanning} (mem : s ∈ spanning ctx) :
    Shows ctx s.members (flowHops ctx s) (flowRow ctx s).row := by
  obtain ⟨closed, visits, crosses⟩ := flowHops_closed mem
  refine ⟨rfl, closed, visits, crosses, ?_, (mem_spanning.mp mem).2.1⟩
  show (if (flowHops ctx s).any fun h => asyncFlows.contains h.category then CycleKind.eventLoop
    else .callLoop) = _ ∧ _ ∨ (if _ then CycleKind.eventLoop else .callLoop) = _ ∧ _
  by_cases rides : ((flowHops ctx s).any fun h => asyncFlows.contains h.category) = true
  · rw [if_pos rides]
    simp only [List.any_eq_true, List.contains_iff_mem] at rides
    exact .inl ⟨rfl, rides⟩
  · rw [if_neg rides]
    simp only [List.any_eq_true, List.contains_iff_mem, not_exists, not_and] at rides
    exact .inr ⟨rfl, rides⟩

/-- The node-level rows are of the loops that span two services, each once. -/
theorem flowLoops_ids : ((flowLoops ctx).map Pending.scopeIds).Nodup ∧
    ∀ c, c ∈ (flowLoops ctx).map Pending.scopeIds ↔
      (mergedSource ctx.merged).Fits (.of flowCausal) indexLimit ∧
        IsLoop (Flows ctx.merged) c ∧ Spans ctx c := by
  have ids : (flowLoops ctx).map Pending.scopeIds = (spanning ctx).map Spanning.members := by
    rw [flowLoops, List.map_map]
    rfl
  rw [ids]
  constructor
  · have sub : ((spanning ctx).map Spanning.members).Sublist (stronglyConnected (flowIndex ctx)) := by
      have := (List.filter_sublist (p := fun s : Spanning => decide (2 ≤ s.services.length))
        (l := (stronglyConnected (flowIndex ctx)).zipIdx.map fun c =>
          ⟨c.2, c.1, ctx.servicesOf c.1⟩)).map Spanning.members
      rwa [List.map_map, show Spanning.members ∘ (fun c : List NodeId × Nat =>
        (⟨c.2, c.1, ctx.servicesOf c.1⟩ : Spanning)) = Prod.fst from rfl,
        List.zipIdx_map_fst] at this
    exact (stronglyConnected_nodup _).sublist sub
  · intro c
    rw [← and_assoc, ← stepAlong_flow, ← mem_stronglyConnected_build, List.mem_map]
    constructor
    · intro found
      obtain ⟨s, mem, rfl⟩ := found
      exact ⟨spanning_comp mem, (mem_spanning.mp mem).2.2⟩
    · intro h
      obtain ⟨i, at'⟩ := List.mem_iff_getElem?.mp h.1
      exact ⟨⟨i, c, ctx.servicesOf c⟩, mem_spanning.mpr ⟨at', rfl, h.2⟩, rfl⟩

end Flow

section Possible
variable {ctx : Ctx}

theorem nameIx_lt {s : String} (mem : s ∈ linkNames ctx) : nameIx ctx s < (linkNames ctx).length := by
  rw [nameIx, if_pos mem]
  exact List.idxOf_lt_length_of_mem mem

theorem link_places {comp : List NodeId}
    (mem : comp ∈ stronglyConnected (Adjacency.build (serviceGraph ctx) .all)) {i : NodeId}
    (hi : i ∈ comp) : i < (linkNames ctx).length := by
  have fits := fits_of_component mem
  obtain ⟨_, step, _⟩ := TransGen.head'_iff.mp (way_of_members mem hi hi)
  rw [joins_build fits] at step
  obtain ⟨e, kept, rfl, _⟩ := step
  obtain ⟨l, link, rfl⟩ := List.mem_map.mp (List.mem_filter.mp kept).1
  exact nameIx_lt (mem_ordered.mpr (List.mem_flatMap.mpr ⟨l, link, by simp⟩))

theorem possibleLoops_services {covered : List (List String)} {p : Pending}
    (mem : p ∈ possibleLoops ctx covered) : p.row.kind = .possibleLoop ∧
      p.row.services.Pairwise (· < ·) ∧ p.row.services ∉ covered := by
  obtain ⟨comp, isComp, told⟩ := List.mem_filterMap.mp mem
  dsimp only at told
  split at told
  · cases told
  · rename_i uncovered
    obtain ⟨start, _, rfl⟩ := Option.map_eq_some_iff.mp told
    refine ⟨rfl, ?_, fun held => uncovered (List.contains_iff_mem.mpr held)⟩
    show (comp.map fun ix => (linkNames ctx).getD ix "").Pairwise (· < ·)
    have names : (linkNames ctx).Pairwise (· < ·) := ordered_sorted _
    rw [List.pairwise_map]
    refine (stronglyConnected_sorted isComp).imp_of_mem fun {i j} hi hj lt => ?_
    have ltI := link_places isComp hi
    have ltJ := link_places isComp hj
    simp only [List.getD_eq_getElem?_getD, List.getElem?_eq_getElem ltI,
      List.getElem?_eq_getElem ltJ, Option.getD_some]
    exact List.pairwise_iff_getElem.mp names i j ltI ltJ lt

end Possible

section Imports
variable (ctx : Ctx)

/-- Some import goes from a file of module `a` to one of another module `b`. -/
def ImportsAcross (m : MergedGraph) (a b : NodeId) : Prop :=
  ∃ e ∈ m.allEdges, Projects (moduleOf m) e a b

def ImportEdge (m : MergedGraph) (h : Hop) : Prop :=
  h.category = EdgeCategory.imports ∧ ImportsAcross m h.fromId h.toId

variable {ctx}

theorem keptImports : (imports ctx).source.keptEdges (.of [EdgeCategory.imports]) =
    (imports ctx).edges := by
  rw [GraphSource.keptEdges]
  refine List.filter_eq_self.mpr fun e mem => ?_
  rw [(moduleImportGraph_projected ctx.why ctx.merged).category e mem]
  decide

theorem stepAlong_imports : StepAlong (imports ctx).source (.of [EdgeCategory.imports]) .forward =
    ImportsAcross ctx.merged := by
  ext a b
  rw [StepAlong, keptImports]
  exact (moduleImportGraph_projected ctx.why ctx.merged).pairs a b

theorem keepsHop_imports
    (fits : (imports ctx).source.Fits (.of [EdgeCategory.imports]) indexLimit) {h : Hop}
    (kept : (importIndex ctx).KeepsHop h) : ImportEdge ctx.merged h := by
  have projected := moduleImportGraph_projected ctx.why ctx.merged
  obtain ⟨e, mem, src, cat, dst⟩ := (keepsHop_build fits h).mp kept
  rw [keptImports] at mem
  exact ⟨cat ▸ projected.category e mem, (projected.pairs _ _).mp ⟨e, mem, src, dst⟩⟩

theorem importCycles_row {p : Pending} (mem : p ∈ importCycles ctx) :
    ∃ c ∈ stronglyConnected (importIndex ctx), ∃ start ∈ c, p = importRow ctx c start := by
  obtain ⟨c, comp, told⟩ := List.mem_filterMap.mp mem
  obtain ⟨q, first, rfl⟩ := Option.map_eq_some_iff.mp told
  have held := List.mem_of_head? first
  rw [Ctx.byQname, List.mem_insertionSort, List.mem_map] at held
  obtain ⟨x, hx, rfl⟩ := held
  exact ⟨c, comp, x, hx, rfl⟩

theorem importCycles_ids : ((importCycles ctx).map Pending.scopeIds).Nodup ∧
    ∀ c, c ∈ (importCycles ctx).map Pending.scopeIds ↔
      (imports ctx).source.Fits (.of [EdgeCategory.imports]) indexLimit ∧
        IsLoop (ImportsAcross ctx.merged) c := by
  have ids : (importCycles ctx).map Pending.scopeIds = stronglyConnected (importIndex ctx) := by
    rw [importCycles, List.map_filterMap]
    have all : ∀ c ∈ stronglyConnected (importIndex ctx),
        (((ctx.byQname c).head?.map fun q => importRow ctx c (ofLex q).2).map
          Pending.scopeIds) = some c := by
      intro c comp
      cases first : (ctx.byQname c).head? with
      | some q => rfl
      | none =>
        have length := (List.perm_insertionSort (· ≤ ·)
          (c.map fun id => toLex ((ctx.locate id).qname, id))).length_eq
        rw [← Ctx.byQname, List.head?_eq_none_iff.mp first, List.length_map] at length
        exact absurd (List.length_eq_zero_iff.mp length.symm) (stronglyConnected_nonempty comp)
    rw [List.filterMap_congr all, List.filterMap_some]
  rw [ids]
  refine ⟨stronglyConnected_nodup _, fun c => ?_⟩
  rw [← stepAlong_imports]
  exact mem_stronglyConnected_build c

theorem importCycles_closed {p : Pending} (mem : p ∈ importCycles ctx) :
    p.row.kind = .importCycle ∧ ∃ hops, p.row.witness = hops.map (importHop ctx) ∧
      ClosedWalk (ImportEdge ctx.merged) p.scopeIds hops := by
  obtain ⟨c, comp, start, hx, rfl⟩ := importCycles_row mem
  exact ⟨rfl, _, rfl, (witnessCycle_closed comp hx).mono fun h =>
    keepsHop_imports (fits_of_component comp)⟩

end Imports

section Answer
variable {ctx : Ctx} {args : CycleArgs}

theorem cycles_perm : (cycles ctx args).Perm (((pending ctx args).filter
    (Pending.within ctx args)).map fun p => p.row.listed args) := by
  have sorted := (List.perm_insertionSort (fun a b : CycleRow => a.sortKey ≤ b.sortKey)
    (((pending ctx args).filter (Pending.within ctx args)).map Pending.row)).map
      (CycleRow.listed args)
  rwa [List.map_map] at sorted

theorem mem_cycles {r : CycleRow} (mem : r ∈ cycles ctx args) :
    ∃ p ∈ pending ctx args, r.kind = p.row.kind ∧ r.services = p.row.services := by
  obtain ⟨p, held, rfl⟩ := List.mem_map.mp (cycles_perm.mem_iff.mp mem)
  refine ⟨p, (List.mem_filter.mp held).1, ?_⟩
  unfold CycleRow.listed
  split <;> exact ⟨rfl, rfl⟩

theorem flowLoops_kind {p : Pending} (mem : p ∈ flowLoops ctx) :
    (p.row.kind = .eventLoop ∨ p.row.kind = .callLoop) ∧ p.row.services.Pairwise (· < ·) := by
  obtain ⟨s, held, rfl⟩ := List.mem_map.mp mem
  have shows := flowRow_shows held
  refine ⟨shows.kind.imp And.left And.left, ?_⟩
  rw [shows.services]
  exact ordered_sorted _

theorem possible_apart {r r' : CycleRow} (mem : r ∈ cycles ctx args) (mem' : r' ∈ cycles ctx args)
    (possible : r.kind = .possibleLoop) (level : r'.kind = .eventLoop ∨ r'.kind = .callLoop) :
    ¬∀ s, s ∈ r.services ↔ s ∈ r'.services := by
  have sorted : ∀ p ∈ pending ctx args, p ∈ flowLoops ctx ∨
      p ∈ possibleLoops ctx ((flowLoops ctx).map fun p => p.row.services) ∨
        p ∈ importCycles ctx := by
    intro p held
    cases List.mem_append.mp held with
    | inl event =>
      split at event
      · exact (List.mem_append.mp event).imp_right .inl
      · cases event
    | inr import' =>
      split at import'
      · exact .inr (.inr import')
      · cases import'
  obtain ⟨p, held, kind, services⟩ := mem_cycles mem
  obtain ⟨p', held', kind', services'⟩ := mem_cycles mem'
  rw [kind] at possible
  rw [kind'] at level
  have isPossible : p ∈ possibleLoops ctx ((flowLoops ctx).map fun p => p.row.services) := by
    rcases sorted p held with flow | possible' | import'
    · have := (flowLoops_kind flow).1
      simp [possible] at this
    · exact possible'
    · have := (importCycles_closed import').1
      simp [possible] at this
  have isFlow : p' ∈ flowLoops ctx := by
    rcases sorted p' held' with flow | possible' | import'
    · exact flow
    · have := (possibleLoops_services possible').1
      simp [this] at level
    · have := (importCycles_closed import').1
      simp [this] at level
  obtain ⟨_, ordered', apart⟩ := possibleLoops_services isPossible
  intro same
  rw [services, services'] at same
  exact apart (sorted_ext ordered' (flowLoops_kind isFlow).2 same ▸ List.mem_map_of_mem isFlow)

end Answer

/-- For every merged graph and keying: the node-level rows are of the loops of the flow graph with
members in two services, and the import rows of the loops of the module projection, each once, while
the index of each holds; every witness goes round its members; what is answered is these rows and the
possible loops, no one of which has the service set of a node-level row. -/
theorem cycles_exact (ctx : Ctx) (args : CycleArgs) :
    (((flowLoops ctx).map Pending.scopeIds).Nodup ∧
      ∀ c, c ∈ (flowLoops ctx).map Pending.scopeIds ↔
        (mergedSource ctx.merged).Fits (.of flowCausal) indexLimit ∧
          IsLoop (Flows ctx.merged) c ∧ Spans ctx c) ∧
    (∀ p ∈ flowLoops ctx, ∃ hops, Shows ctx p.scopeIds hops p.row) ∧
    (((importCycles ctx).map Pending.scopeIds).Nodup ∧
      ∀ c, c ∈ (importCycles ctx).map Pending.scopeIds ↔
        (imports ctx).source.Fits (.of [EdgeCategory.imports]) indexLimit ∧
          IsLoop (ImportsAcross ctx.merged) c) ∧
    (∀ p ∈ importCycles ctx, p.row.kind = .importCycle ∧
      ∃ hops, p.row.witness = hops.map (importHop ctx) ∧
        ClosedWalk (ImportEdge ctx.merged) p.scopeIds hops) ∧
    (cycles ctx args).Perm (((pending ctx args).filter (Pending.within ctx args)).map fun p =>
      p.row.listed args) ∧
    ∀ r ∈ cycles ctx args, ∀ r' ∈ cycles ctx args, r.kind = .possibleLoop →
      (r'.kind = .eventLoop ∨ r'.kind = .callLoop) → ¬∀ s, s ∈ r.services ↔ s ∈ r'.services := by
  refine ⟨flowLoops_ids, fun p mem => ?_, importCycles_ids, fun p => importCycles_closed,
    cycles_perm, fun r mem r' mem' => possible_apart mem mem'⟩
  obtain ⟨s, held, rfl⟩ := List.mem_map.mp mem
  exact ⟨flowHops ctx s, flowRow_shows held⟩

def crowdedLoop : Ctx where
  merged := ⟨[], List.replicate (indexLimit + 1) ⟨1, 2, EdgeCategory.calls, .strong, []⟩ ++
    [⟨2, 1, EdgeCategory.calls, .strong, []⟩]⟩
  locate id := ⟨"", "", some (if id = 1 then "orders" else "billing"), none⟩
  serviceOf file _ := file
  why := ⟨fun _ => none, fun _ _ => (.derived, none)⟩
  inScope _ _ := true
  links := []
  upper c := [c]

/-- Past the index limit a loop through two services has no row. -/
theorem crowdedLoop_missed : IsLoop (Flows crowdedLoop.merged) [1, 2] ∧
    Spans crowdedLoop [1, 2] ∧ flowLoops crowdedLoop = [] := by
  have edges : crowdedLoop.merged.allEdges =
      List.replicate (indexLimit + 1) ⟨1, 2, EdgeCategory.calls, .strong, []⟩ ++
        [⟨2, 1, EdgeCategory.calls, .strong, []⟩] := List.nil_append _
  have steps : ∀ a b, Flows crowdedLoop.merged a b ↔ a = 1 ∧ b = 2 ∨ a = 2 ∧ b = 1 := by
    intro a b
    unfold Flows
    rw [edges]
    simp only [List.mem_append, List.mem_replicate, List.mem_singleton, or_and_right, exists_or]
    constructor
    · intro found
      cases found with
      | inl out =>
        obtain ⟨e, ⟨_, rfl⟩, _, rfl, rfl⟩ := out
        exact .inl ⟨rfl, rfl⟩
      | inr back =>
        obtain ⟨e, rfl, _, rfl, rfl⟩ := back
        exact .inr ⟨rfl, rfl⟩
    · intro found
      cases found with
      | inl out =>
        obtain ⟨rfl, rfl⟩ := out
        exact .inl ⟨_, ⟨Nat.succ_ne_zero _, rfl⟩, by decide, rfl, rfl⟩
      | inr back =>
        obtain ⟨rfl, rfl⟩ := back
        exact .inr ⟨_, rfl, by decide, rfl, rfl⟩
  have out : Flows crowdedLoop.merged 1 2 := (steps 1 2).mpr (.inl ⟨rfl, rfl⟩)
  have back : Flows crowdedLoop.merged 2 1 := (steps 2 1).mpr (.inr ⟨rfl, rfl⟩)
  have ends : ∀ a b, TransGen (Flows crowdedLoop.merged) a b → b ∈ [1, 2] := by
    intro a b way
    obtain ⟨c, _, last⟩ := TransGen.tail'_iff.mp way
    cases (steps c b).mp last with
    | inl h => simp [h.2]
    | inr h => simp [h.2]
  have round : ∀ a ∈ [1, 2], ∀ b ∈ [1, 2], TransGen (Flows crowdedLoop.merged) a b := by
    intro a ha b hb
    simp only [List.mem_cons, List.not_mem_nil, or_false] at ha hb
    rcases ha with rfl | rfl <;> rcases hb with rfl | rfl
    · exact .tail (.single out) back
    · exact .single out
    · exact .single back
    · exact .tail (.single back) out
  refine ⟨⟨by simp, by decide, fun x hx y => ?_⟩, ?_, ?_⟩
  · exact ⟨fun hy => ⟨round x hx y hy, round y hy x hx⟩, fun both => ends x y both.1⟩
  · exact ⟨1, by simp, 2, by simp, "orders", "billing", rfl, rfl, by decide⟩
  · have past : ¬(mergedSource crowdedLoop.merged).Fits (.of flowCausal) indexLimit := by
      intro fits
      have few := fits.2
      have kept : (mergedSource crowdedLoop.merged).keptEdges (.of flowCausal) =
          List.replicate (indexLimit + 1) ⟨1, 2, EdgeCategory.calls, .strong, []⟩ ++
            [⟨2, 1, EdgeCategory.calls, .strong, []⟩] := by
        show (crowdedLoop.merged.allEdges.filter _) = _
        rw [edges, List.filter_append, List.filter_replicate_of_pos (by decide)]
        rfl
      rw [kept, List.length_append, List.length_replicate] at few
      omega
    rw [← List.map_eq_nil_iff (f := Pending.scopeIds), List.eq_nil_iff_forall_not_mem]
    exact fun c mem => past ((flowLoops_ids.2 c).mp mem).1

end Glia.Engine.Cycles
