import Glia.Algo.Bfs

/-! The walk that scans the source's edges for each node it expands, and that the walk over an
index is that walk. -/
namespace Glia.Algo

def Walk.fwd : Walk → Bool
  | .forward => true
  | .backward => false
  | .both => true

def Walk.bwd : Walk → Bool
  | .forward => false
  | .backward => true
  | .both => true

section Scan

structure ScanState where
  visited : NodeId → Bool
  queue : List (NodeId × Nat)
  order : List Reached

def scanNext (fwd bwd : Bool) (node : NodeId) (e : Edge) : Option NodeId :=
  if fwd && e.fromId == node then some e.toId
  else if bwd && e.toId == node then some e.fromId
  else none

def scanVisit (node : NodeId) (depth : Nat) (s : ScanState) (n : NodeId × EdgeCategoryId) :
    ScanState :=
  if s.visited n.1 then s
  else
    { visited := Function.update s.visited n.1 true
      queue := s.queue ++ [(n.1, depth + 1)]
      order := s.order ++ [⟨n.1, depth + 1, n.2, node⟩] }

variable (keep : CategorySet) (fwd bwd : Bool)

def scanEdge (node : NodeId) (depth : Nat) (s : ScanState) (e : Edge) : ScanState :=
  if keep.contains e.category then
    match scanNext fwd bwd node e with
    | none => s
    | some next => scanVisit node depth s (next, e.category)
  else s

/-- Take nodes off the queue until it is empty, scanning every edge for each. -/
def blastLoop (edges : List Edge) (maxDepth : Nat) : Nat → ScanState → ScanState
  | 0, s => s
  | fuel + 1, s =>
    match s.queue with
    | [] => s
    | (node, depth) :: rest =>
      let s := { s with queue := rest }
      if maxDepth ≤ depth then blastLoop edges maxDepth fuel s
      else blastLoop edges maxDepth fuel (edges.foldl (scanEdge keep fwd bwd node depth) s)

/-- The loop's end; each seed is taken off once and each end of an edge once. -/
def blastRun (g : GraphSource) (seeds : List NodeId) (maxDepth : Nat) : ScanState :=
  blastLoop keep fwd bwd g.edges maxDepth
    (seeds.length + (g.nodeIds.length + 2 * g.edges.length))
    ⟨fun x => seeds.contains x, seeds.map (·, 0), []⟩

def blast (g : GraphSource) (seeds : List NodeId) (maxDepth : Nat) : List Reached :=
  (blastRun keep fwd bwd g seeds maxDepth).order

def nexts (kept : List Edge) (node : NodeId) : List (NodeId × EdgeCategoryId) :=
  kept.filterMap fun e => (scanNext fwd bwd node e).map (·, e.category)

theorem nexts_cons (e : Edge) (kept : List Edge) (node : NodeId) :
    nexts fwd bwd (e :: kept) node = match scanNext fwd bwd node e with
      | none => nexts fwd bwd kept node
      | some next => (next, e.category) :: nexts fwd bwd kept node := by
  rw [nexts, List.filterMap_cons]
  cases scanNext fwd bwd node e with
  | none => rfl
  | some next => rfl

theorem foldl_scanEdge (edges : List Edge) (node : NodeId) (depth : Nat) (s : ScanState) :
    edges.foldl (scanEdge keep fwd bwd node depth) s =
      (nexts fwd bwd (edges.filter fun e => keep.contains e.category) node).foldl
        (scanVisit node depth) s := by
  induction edges generalizing s with
  | nil => rfl
  | cons e edges ih =>
    rw [List.foldl_cons, ih]
    by_cases kept : keep.contains e.category = true
    · rw [List.filter_cons_of_pos (by exact kept), scanEdge, if_pos kept, nexts_cons]
      cases scanNext fwd bwd node e with
      | none => rfl
      | some next => rfl
    · rw [List.filter_cons_of_neg (by exact kept), scanEdge, if_neg kept]

theorem scanVisit_visited (node : NodeId) (depth : Nat) (l : List (NodeId × EdgeCategoryId))
    (s : ScanState) (x : NodeId) : (l.foldl (scanVisit node depth) s).visited x =
      (s.visited x || decide (x ∈ l.map Prod.fst)) := by
  induction l generalizing s with
  | nil => simp
  | cons n l ih =>
    have either : decide (x ∈ (n :: l).map Prod.fst) =
        (decide (x = n.1) || decide (x ∈ l.map Prod.fst)) := by
      rw [← Bool.decide_or, List.map_cons]
      exact decide_eq_decide.mpr List.mem_cons
    rw [List.foldl_cons, ih, scanVisit, either, ← Bool.or_assoc]
    congr 1
    by_cases seen : s.visited n.1 = true
    · rw [if_pos seen]
      by_cases here : x = n.1
      · rw [here, seen, Bool.true_or]
      · rw [decide_eq_false here, Bool.or_false]
    · rw [if_neg seen]
      dsimp only
      by_cases here : x = n.1
      · rw [here, Function.update_self, decide_eq_true rfl, Bool.or_true]
      · rw [Function.update_of_ne here, decide_eq_false here, Bool.or_false]

theorem scanVisit_idle {node : NodeId} {depth : Nat} {l : List (NodeId × EdgeCategoryId)}
    {s : ScanState} (seen : ∀ n ∈ l, s.visited n.1 = true) :
    l.foldl (scanVisit node depth) s = s := by
  induction l with
  | nil => rfl
  | cons n l ih =>
    rw [List.foldl_cons, scanVisit, if_pos (seen n List.mem_cons_self)]
    exact ih fun m mem => seen m (List.mem_cons_of_mem n mem)

end Scan

section Arcs
variable {adj : Adjacency} {ix : Nat}

def arcAt (walk : Walk) (ix : Nat) (p : Kept × Nat) : Option Inc :=
  if walk.fwd && p.1.src == ix then some ⟨p.2, p.1.dst, p.1.category⟩
  else if walk.bwd && p.1.dst == ix then some ⟨p.2, p.1.src, p.1.category⟩
  else none

theorem mergeIncidences_nil (outs : List Inc) : mergeIncidences outs [] = outs := by
  cases outs with
  | nil => rw [mergeIncidences]
  | cons out outs => rw [mergeIncidences]

theorem mergeIncidences_cons {out : Inc} {outs ins : List Inc}
    (before : ∀ inn ∈ ins, out.edge < inn.edge) :
    mergeIncidences (out :: outs) ins = out :: mergeIncidences outs ins := by
  cases ins with
  | nil => rw [mergeIncidences_nil, mergeIncidences_nil]
  | cons inn ins => rw [mergeIncidences, if_pos (before inn List.mem_cons_self)]

theorem mergeIncidences_cons_right {inn : Inc} {outs ins : List Inc}
    (before : ∀ out ∈ outs, inn.edge < out.edge) :
    mergeIncidences outs (inn :: ins) = inn :: mergeIncidences outs ins := by
  cases outs with
  | nil => rw [mergeIncidences, mergeIncidences]
  | cons out outs =>
    have lt := before out List.mem_cons_self
    rw [mergeIncidences, if_neg (by omega), if_neg (by omega)]

theorem arcAt_edge {walk : Walk} {p : Kept × Nat} {inc : Inc} (h : arcAt walk ix p = some inc) :
    inc.edge = p.2 := by
  unfold arcAt at h
  split at h
  · cases h
    rfl
  · split at h
    · cases h
      rfl
    · cases h

/-- Merging a node's two lists takes each edge once, in its place. -/
theorem merge_arcs {l : List (Kept × Nat)} (order : l.Pairwise fun p q => p.2 < q.2) :
    mergeIncidences (l.filterMap (arcAt .forward ix)) (l.filterMap (arcAt .backward ix)) =
      l.filterMap (arcAt .both ix) := by
  induction l with
  | nil => rw [List.filterMap_nil, List.filterMap_nil, List.filterMap_nil, mergeIncidences]
  | cons p l ih =>
    obtain ⟨above, rest⟩ := List.pairwise_cons.mp order
    have later : ∀ {walk : Walk} {inc : Inc}, inc ∈ l.filterMap (arcAt walk ix) →
        p.2 < inc.edge := by
      intro walk inc mem
      obtain ⟨q, held, eq⟩ := List.mem_filterMap.mp mem
      rw [arcAt_edge eq]
      exact above q held
    rw [List.filterMap_cons, List.filterMap_cons, List.filterMap_cons, ← ih rest]
    by_cases src : p.1.src = ix
    · by_cases dst : p.1.dst = ix
      · have out : arcAt .forward ix p = some ⟨p.2, p.1.dst, p.1.category⟩ := by
          simp [arcAt, Walk.fwd, src]
        have inn : arcAt .backward ix p = some ⟨p.2, p.1.src, p.1.category⟩ := by
          simp [arcAt, Walk.fwd, Walk.bwd, dst]
        have both : arcAt .both ix p = some ⟨p.2, p.1.dst, p.1.category⟩ := by
          simp [arcAt, Walk.fwd, src]
        rw [out, inn, both]
        dsimp only
        rw [mergeIncidences, if_neg (Nat.lt_irrefl _), if_pos rfl]
      · have out : arcAt .forward ix p = some ⟨p.2, p.1.dst, p.1.category⟩ := by
          simp [arcAt, Walk.fwd, src]
        have inn : arcAt .backward ix p = none := by simp [arcAt, Walk.fwd, Walk.bwd, dst]
        have both : arcAt .both ix p = some ⟨p.2, p.1.dst, p.1.category⟩ := by
          simp [arcAt, Walk.fwd, src]
        rw [out, inn, both]
        exact mergeIncidences_cons fun _ mem => later mem
    · by_cases dst : p.1.dst = ix
      · have out : arcAt .forward ix p = none := by simp [arcAt, Walk.fwd, Walk.bwd, src]
        have inn : arcAt .backward ix p = some ⟨p.2, p.1.src, p.1.category⟩ := by
          simp [arcAt, Walk.fwd, Walk.bwd, dst]
        have both : arcAt .both ix p = some ⟨p.2, p.1.src, p.1.category⟩ := by
          simp [arcAt, Walk.fwd, Walk.bwd, src, dst]
        rw [out, inn, both]
        exact mergeIncidences_cons_right fun _ mem => later mem
      · have none : ∀ walk, arcAt walk ix p = none := fun walk => by simp [arcAt, src, dst]
        rw [none, none, none]

theorem zipIdx_ascending (l : List Kept) (n : Nat) :
    (l.zipIdx n).Pairwise fun p q => p.2 < q.2 := by
  induction l generalizing n with
  | nil => exact List.Pairwise.nil
  | cons k l ih =>
    rw [List.zipIdx_cons]
    refine List.pairwise_cons.mpr ⟨fun q mem => ?_, ih (n + 1)⟩
    exact List.le_snd_of_mem_zipIdx mem

theorem incidences_arcs (adj : Adjacency) (ix : Nat) (walk : Walk) :
    incidences adj ix walk = adj.kept.zipIdx.filterMap (arcAt walk ix) := by
  have out : adj.outgoing ix = adj.kept.zipIdx.filterMap (arcAt .forward ix) := by
    refine List.filterMap_congr fun p _ => ?_
    simp [arcAt, Walk.fwd, Walk.bwd]
  have inn : adj.incoming ix = adj.kept.zipIdx.filterMap (arcAt .backward ix) := by
    refine List.filterMap_congr fun p _ => ?_
    simp [arcAt, Walk.fwd, Walk.bwd]
  cases walk with
  | forward => exact out
  | backward => exact inn
  | both =>
    rw [incidences, out, inn]
    exact merge_arcs (zipIdx_ascending adj.kept 0)

def told (adj : Adjacency) (inc : Inc) : NodeId × EdgeCategoryId :=
  (adj.id inc.other, inc.category)

theorem arc_next {walk : Walk} {k : Kept} {e : Edge} {n : Nat} (inside : ix < adj.len)
    (src : adj.ids[k.src]? = some e.fromId) (dst : adj.ids[k.dst]? = some e.toId)
    (category : k.category = e.category) :
    (arcAt walk ix (k, n)).map (told adj) =
      (scanNext walk.fwd walk.bwd (adj.id ix) e).map (·, e.category) := by
  obtain ⟨srcIn, srcId⟩ := id_eq_iff.mp src
  obtain ⟨dstIn, dstId⟩ := id_eq_iff.mp dst
  have place : ∀ {i : Nat}, i < adj.len → (i == ix) = (adj.id i == adj.id ix) := by
    intro i lt
    rw [Bool.eq_iff_iff, beq_iff_eq, beq_iff_eq]
    exact ⟨congrArg adj.id, fun eq => adj.id_injective lt inside eq⟩
  unfold arcAt scanNext
  dsimp only
  rw [place srcIn, place dstIn, srcId, dstId]
  split
  · rw [Option.map_some, Option.map_some, told, dstId, category]
  · split
    · rw [Option.map_some, Option.map_some, told, srcId, category]
    · rfl

theorem arcs_nexts {kept : List Kept} {es : List Edge} (walk : Walk)
    (holds : Adjacency.Holds adj.ids kept es) (inside : ix < adj.len) (n : Nat) :
    ((kept.zipIdx n).filterMap (arcAt walk ix)).map (told adj) =
      nexts walk.fwd walk.bwd es (adj.id ix) := by
  induction holds generalizing n with
  | nil => rfl
  | @cons k e kept es ends _ ih =>
    obtain ⟨src, dst, category⟩ := ends
    have here := @arc_next adj ix walk k e n inside src dst category
    rw [List.zipIdx_cons, List.filterMap_cons, nexts_cons, ← ih (n + 1)]
    cases found : arcAt walk ix (k, n) with
    | none =>
      rw [found, Option.map_none, eq_comm, Option.map_eq_none_iff] at here
      rw [here]
    | some inc =>
      rw [found, Option.map_some, eq_comm, Option.map_eq_some_iff] at here
      obtain ⟨next, at_, eq⟩ := here
      rw [at_, List.map_cons, ← eq]

theorem nexts_absent {kept : List Kept} {es : List Edge} (fwd bwd : Bool) {x : NodeId}
    (holds : Adjacency.Holds adj.ids kept es) (absent : x ∉ adj.ids) :
    nexts fwd bwd es x = [] := by
  induction holds with
  | nil => rfl
  | @cons k e kept es ends _ ih =>
    obtain ⟨src, dst, _⟩ := ends
    have apart : ∀ {i : Nat} {y : NodeId}, adj.ids[i]? = some y → (y == x) = false := by
      intro i y at_
      rw [beq_eq_false_iff_ne]
      exact fun same => absent (same ▸ List.mem_of_getElem? at_)
    have none : scanNext fwd bwd x e = none := by
      rw [scanNext, apart src, apart dst, Bool.and_false, Bool.and_false]
      rfl
    rw [nexts_cons, none, ih]

end Arcs

section Shadows
variable {adj : Adjacency}

/-- A queue of indices beside a queue of ids: the ids may hold more nodes, with nothing left to
do for them. -/
inductive Shadows (adj : Adjacency) :
    (NodeId → Prop) → List (Nat × Nat) → List (NodeId × Nat) → Prop
  | nil {spent : NodeId → Prop} : Shadows adj spent [] []
  | both {spent : NodeId → Prop} {ix depth : Nat} {tq : List (Nat × Nat)}
      {sq : List (NodeId × Nat)} (inside : ix < adj.len)
      (rest : Shadows adj (fun x => spent x ∨ depth = 0 ∧ x = adj.id ix) tq sq) :
      Shadows adj spent ((ix, depth) :: tq) ((adj.id ix, depth) :: sq)
  | idle {spent : NodeId → Prop} {x : NodeId} {depth : Nat} {tq : List (Nat × Nat)}
      {sq : List (NodeId × Nat)} (done : spent x) (rest : Shadows adj spent tq sq) :
      Shadows adj spent tq ((x, depth) :: sq)

theorem Shadows.mono {spent spent' : NodeId → Prop} {tq : List (Nat × Nat)}
    {sq : List (NodeId × Nat)} (h : Shadows adj spent tq sq) (le : ∀ x, spent x → spent' x) :
    Shadows adj spent' tq sq := by
  induction h generalizing spent' with
  | nil => exact .nil
  | both inside _ ih => exact .both inside (ih fun x => Or.imp_left (le x))
  | idle done _ ih => exact .idle (le _ done) (ih le)

theorem Shadows.snoc {spent : NodeId → Prop} {tq : List (Nat × Nat)} {sq : List (NodeId × Nat)}
    (h : Shadows adj spent tq sq) {ix : Nat} (inside : ix < adj.len) (depth : Nat) :
    Shadows adj spent (tq ++ [(ix, depth)]) (sq ++ [(adj.id ix, depth)]) := by
  induction h with
  | nil => exact .both inside .nil
  | both inside' _ ih => exact .both inside' ih
  | idle done _ ih => exact .idle done ih

theorem Shadows.length_le {spent : NodeId → Prop} {tq : List (Nat × Nat)}
    {sq : List (NodeId × Nat)} (h : Shadows adj spent tq sq) : tq.length ≤ sq.length := by
  induction h with
  | nil => exact le_rfl
  | both _ _ ih => exact Nat.succ_le_succ ih
  | idle _ _ ih => exact Nat.le_succ_of_le ih

theorem Shadows.eq_nil {spent : NodeId → Prop} {tq : List (Nat × Nat)}
    (h : Shadows adj spent tq []) : tq = [] := List.eq_nil_of_length_eq_zero
      (Nat.le_zero.mp h.length_le)

structure Matches (adj : Adjacency) (spent : NodeId → Prop) (t : BfsState) (s : ScanState) :
    Prop where
  visited : ∀ ix, ix < adj.len → s.visited (adj.id ix) = t.visited ix
  queue : Shadows adj spent t.queue s.queue
  order : t.out.reached = s.order

theorem Matches.visit {spent : NodeId → Prop} {t : BfsState} {s : ScanState}
    (h : Matches adj spent t s) {node depth : Nat} {inc : Inc} (here : inc.other < adj.len) :
    Matches adj spent (Algo.follow adj depth node t inc)
        (scanVisit (adj.id node) depth s (told adj inc)) ∧
      (Algo.follow adj depth node t inc).queue.length + s.queue.length =
        (scanVisit (adj.id node) depth s (told adj inc)).queue.length + t.queue.length := by
  have same := h.visited inc.other here
  unfold Algo.follow scanVisit told
  dsimp only
  rw [same]
  by_cases seen : t.visited inc.other = true
  · rw [if_pos seen, if_pos seen]
    exact ⟨⟨h.visited, h.queue, h.order⟩, Nat.add_comm _ _⟩
  · rw [if_neg seen, if_neg seen]
    refine ⟨⟨fun ix lt => ?_, h.queue.snoc here (depth + 1), ?_⟩, ?_⟩
    · dsimp only
      by_cases at_ : ix = inc.other
      · rw [at_, Function.update_self, Function.update_self]
      · rw [Function.update_of_ne at_,
          Function.update_of_ne fun eq => at_ (adj.id_injective lt here eq)]
        exact h.visited ix lt
    · dsimp only
      rw [h.order]
    · dsimp only
      rw [List.length_append, List.length_append, List.length_singleton, List.length_singleton]
      omega

theorem Matches.follow {spent : NodeId → Prop} {t : BfsState} {s : ScanState}
    (h : Matches adj spent t s) {node depth : Nat} {incs : List Inc}
    (inside : ∀ inc ∈ incs, inc.other < adj.len) :
    Matches adj spent (incs.foldl (Algo.follow adj depth node) t)
        ((incs.map (told adj)).foldl (scanVisit (adj.id node) depth) s) ∧
      (incs.foldl (Algo.follow adj depth node) t).queue.length + s.queue.length =
        ((incs.map (told adj)).foldl (scanVisit (adj.id node) depth) s).queue.length +
          t.queue.length := by
  induction incs generalizing t s with
  | nil => exact ⟨h, Nat.add_comm _ _⟩
  | cons inc incs ih =>
    obtain ⟨visited, length⟩ := @Matches.visit _ _ t s h node depth inc
      (inside inc List.mem_cons_self)
    obtain ⟨rest, length'⟩ := ih visited fun inc' mem => inside inc' (List.mem_cons_of_mem inc mem)
    refine ⟨rest, ?_⟩
    rw [List.foldl_cons, List.map_cons, List.foldl_cons]
    omega

end Shadows

section Same
variable {g : GraphSource} {keep : CategorySet} {cap : Nat} {walk : Walk} {maxDepth : Nat}

def Spent (g : GraphSource) (keep : CategorySet) (walk : Walk) (maxDepth : Nat)
    (visited : NodeId → Bool) (x : NodeId) : Prop :=
  maxDepth = 0 ∨ ∀ n ∈ nexts walk.fwd walk.bwd (g.keptEdges keep) x, visited n.1 = true

variable (fits : g.Fits keep cap)
include fits

theorem incidences_nexts {ix : Nat} (inside : ix < (Adjacency.buildCapped g keep cap).len) :
    (incidences (Adjacency.buildCapped g keep cap) ix walk).map
        (told (Adjacency.buildCapped g keep cap)) =
      nexts walk.fwd walk.bwd (g.keptEdges keep) ((Adjacency.buildCapped g keep cap).id ix) := by
  rw [incidences_arcs]
  exact arcs_nexts walk (Adjacency.build_holds fits).1 inside 0

theorem Matches.expand {spent : NodeId → Prop} {t : BfsState} {s : ScanState} {node depth : Nat}
    (h : Matches (Adjacency.buildCapped g keep cap) spent t s)
    (inside : node < (Adjacency.buildCapped g keep cap).len) :
    let t' := (incidences (Adjacency.buildCapped g keep cap) node walk).foldl
      (Algo.follow (Adjacency.buildCapped g keep cap) depth node) t
    let s' := g.edges.foldl (scanEdge keep walk.fwd walk.bwd
      ((Adjacency.buildCapped g keep cap).id node) depth) s
    Matches (Adjacency.buildCapped g keep cap) spent t' s' ∧
      t'.queue.length + s.queue.length = s'.queue.length + t.queue.length := by
  intro t' s'
  have followed := @Matches.follow _ spent t s h node depth
    (incidences (Adjacency.buildCapped g keep cap) node walk)
    fun inc mem => incidences_lt _ mem
  rw [incidences_nexts fits inside] at followed
  have scanned : s' = _ := foldl_scanEdge keep walk.fwd walk.bwd g.edges
    ((Adjacency.buildCapped g keep cap).id node) depth s
  rw [scanned]
  exact followed

omit fits in
theorem scan_visited (node : NodeId) (depth : Nat) (s : ScanState) (x : NodeId) :
    (g.edges.foldl (scanEdge keep walk.fwd walk.bwd node depth) s).visited x = (s.visited x ||
      decide (x ∈ (nexts walk.fwd walk.bwd (g.keptEdges keep) node).map Prod.fst)) := by
  rw [foldl_scanEdge]
  exact scanVisit_visited node depth _ s x

/-- The two loops find the same nodes in the same order, and both take every node off. -/
theorem bfsLoop_blastLoop (fuel : Nat) {fuel' : Nat} {t : BfsState} {s : ScanState}
    (h : Matches (Adjacency.buildCapped g keep cap) (Spent g keep walk maxDepth s.visited) t s)
    (enough : (unseen (Adjacency.buildCapped g keep cap) t.visited).card + t.queue.length ≤ fuel')
    (enough' : (unseen (Adjacency.buildCapped g keep cap) t.visited).card + s.queue.length ≤
      fuel) :
    (blastLoop keep walk.fwd walk.bwd g.edges maxDepth fuel s).queue = [] ∧
      (bfsLoop (Adjacency.buildCapped g keep cap) walk maxDepth fuel' t).out.reached =
        (blastLoop keep walk.fwd walk.bwd g.edges maxDepth fuel s).order := by
  have stop : ∀ {fuel' : Nat} {t : BfsState}, t.queue = [] →
      bfsLoop (Adjacency.buildCapped g keep cap) walk maxDepth fuel' t = t := by
    intro fuel' t empty
    cases fuel' with
    | zero => rfl
    | succ fuel' => rw [bfsLoop, empty]
  induction fuel generalizing fuel' t s with
  | zero =>
    have empty : s.queue = [] := List.eq_nil_of_length_eq_zero (by omega)
    have shadow := h.queue
    rw [empty] at shadow
    rw [stop shadow.eq_nil]
    exact ⟨empty, h.order⟩
  | succ fuel ih =>
    cases sq : s.queue with
    | nil =>
      have shadow := h.queue
      rw [sq] at shadow
      rw [stop shadow.eq_nil, blastLoop, sq]
      exact ⟨sq, h.order⟩
    | cons item rest =>
      have shadow := h.queue
      obtain ⟨x, depth⟩ := item
      rw [sq] at shadow
      generalize tq : t.queue = waiting at shadow
      rw [sq, List.length_cons] at enough'
      rw [blastLoop, sq]
      dsimp only
      cases shadow with
      | idle done shadow =>
        -- the node was expanded before, or has no edge: its turn changes nothing
        by_cases far : maxDepth ≤ depth
        · rw [if_pos far]
          exact ih ⟨h.visited, tq ▸ shadow, h.order⟩ enough (by dsimp only; omega)
        · rw [if_neg far, foldl_scanEdge]
          have seen := done.resolve_left fun zero => far (by omega)
          have same := @scanVisit_idle x depth _ { s with queue := rest } seen
          rw [GraphSource.keptEdges] at same
          rw [same]
          exact ih ⟨h.visited, tq ▸ shadow, h.order⟩ enough (by dsimp only; omega)
      | @both _ ix _ waiting _ inside shadow =>
        rw [tq, List.length_cons] at enough
        obtain ⟨fuel', rfl⟩ : ∃ n, fuel' = n + 1 := ⟨fuel' - 1, by omega⟩
        rw [bfsLoop, tq]
        dsimp only
        by_cases far : maxDepth ≤ depth
        · rw [if_pos far, if_pos far]
          refine ih ⟨h.visited, shadow.mono fun x done => ?_, h.order⟩ (by dsimp only; omega)
            (by dsimp only; omega)
          rcases done with done | ⟨start, _⟩
          · exact done
          · exact .inl (by omega)
        · rw [if_neg far, if_neg far]
          have start : Matches (Adjacency.buildCapped g keep cap)
              (fun x => Spent g keep walk maxDepth s.visited x ∨
                depth = 0 ∧ x = (Adjacency.buildCapped g keep cap).id ix)
              { t with queue := waiting } { s with queue := rest } :=
            ⟨h.visited, shadow, h.order⟩
          obtain ⟨grown, length⟩ := @Matches.expand g keep cap walk fits _ _ _ ix depth start inside
          have fewer := @expand_unseen (Adjacency.buildCapped g keep cap) walk ix depth waiting t
          have seen := @scan_visited g keep walk ((Adjacency.buildCapped g keep cap).id ix) depth
            { s with queue := rest }
          refine ih ⟨grown.visited, grown.queue.mono fun x done => ?_, grown.order⟩
            (fewer.trans (by omega)) ?_
          · rcases done with (zero | done) | ⟨_, here⟩
            · exact .inl zero
            · refine .inr fun n mem => ?_
              rw [seen, done n mem, Bool.true_or]
            · refine .inr fun n mem => ?_
              rw [here] at mem
              rw [seen, decide_eq_true (List.mem_map_of_mem mem), Bool.or_true]
          · dsimp only at fewer length ⊢
            omega

/-- Each indexed seed is queued once; the others are spent when their turn comes. -/
theorem seedQueue_shadows (seeds : List NodeId) (visited : NodeId → Bool) {q : List (Nat × Nat)}
    {seen : Nat → Bool} :
    ∃ q', (seeds.foldl (fun (s : List (Nat × Nat) × (Nat → Bool)) seed =>
        match (Adjacency.buildCapped g keep cap).indexOf seed with
        | none => s
        | some ix => if s.2 ix then s else (s.1 ++ [(ix, 0)], Function.update s.2 ix true))
        (q, seen)).1 = q ++ q' ∧
      Shadows (Adjacency.buildCapped g keep cap) (fun x => Spent g keep walk maxDepth visited x ∨
        ∃ ix, seen ix = true ∧ x = (Adjacency.buildCapped g keep cap).id ix) q'
        (seeds.map (·, 0)) := by
  induction seeds generalizing q seen with
  | nil => exact ⟨[], (List.append_nil q).symm, .nil⟩
  | cons seed seeds ih =>
    rw [List.foldl_cons, List.map_cons]
    cases at_ : (Adjacency.buildCapped g keep cap).indexOf seed with
    | none =>
      obtain ⟨q', eq, shadow⟩ := @ih q seen
      refine ⟨q', eq, .idle (.inl (.inr fun n mem => ?_)) shadow⟩
      have absent : seed ∉ (Adjacency.buildCapped g keep cap).ids := by
        intro held
        rw [Adjacency.indexOf, if_pos held] at at_
        cases at_
      rw [nexts_absent _ _ (Adjacency.build_holds fits).1 absent] at mem
      cases mem
    | some ix =>
      have inside := Adjacency.indexOf_lt _ at_
      have named := Adjacency.id_of_indexOf _ at_
      dsimp only
      by_cases again : seen ix = true
      · rw [if_pos again]
        obtain ⟨q', eq, shadow⟩ := @ih q seen
        exact ⟨q', eq, .idle (.inr ⟨ix, again, named.symm⟩) shadow⟩
      · rw [if_neg again]
        obtain ⟨q', eq, shadow⟩ := @ih (q ++ [(ix, 0)]) (Function.update seen ix true)
        refine ⟨(ix, 0) :: q', ?_, ?_⟩
        · rw [eq, List.append_assoc]
          rfl
        · rw [← named]
          refine .both inside (shadow.mono fun x done => ?_)
          rcases done with done | ⟨ix', was, here⟩
          · exact .inl (.inl done)
          · by_cases same : ix' = ix
            · exact .inr ⟨rfl, here.trans (congrArg _ same)⟩
            · rw [Function.update_of_ne same] at was
              exact .inl (.inr ⟨ix', was, here⟩)

theorem start_matches (seeds : List NodeId) :
    Matches (Adjacency.buildCapped g keep cap)
      (Spent g keep walk maxDepth fun x => seeds.contains x)
      ⟨(seedQueue (Adjacency.buildCapped g keep cap) seeds).2,
        (seedQueue (Adjacency.buildCapped g keep cap) seeds).1, ⟨[], 0⟩⟩
      ⟨fun x => seeds.contains x, seeds.map (·, 0), []⟩ := by
  obtain ⟨l, _, _, visited, mem⟩ := seedQueue_spec (Adjacency.buildCapped g keep cap) seeds
  refine ⟨fun ix inside => ?_, ?_, rfl⟩
  · rw [Bool.eq_iff_iff, visited, mem, List.contains_iff_mem]
    constructor
    · exact fun held => ⟨_, held, Adjacency.indexOf_id _ inside⟩
    · rintro ⟨seed, held, at_⟩
      rw [Adjacency.id_of_indexOf _ at_]
      exact held
  · obtain ⟨q, eq, shadow⟩ := @seedQueue_shadows g keep cap walk maxDepth fits seeds
      (fun x => seeds.contains x) [] fun _ => false
    have queued : (seedQueue (Adjacency.buildCapped g keep cap) seeds).1 = q := eq
    rw [queued]
    refine shadow.mono fun x done => ?_
    rcases done with done | ⟨_, was, _⟩
    · exact done
    · cases was

theorem len_le : (Adjacency.buildCapped g keep cap).len ≤
    g.nodeIds.length + 2 * g.edges.length := by
  have same : (Adjacency.buildCapped g keep cap).ids.toFinset = g.indexed keep := by
    ext x
    rw [List.mem_toFinset]
    exact (Adjacency.build_holds fits).2 x
  have few : (g.indexed keep).card ≤ (g.nodeIds ++ (g.keptEdges keep).flatMap
      fun e => [e.fromId, e.toId]).length := List.toFinset_card_le _
  have ends : ((g.keptEdges keep).flatMap fun e => [e.fromId, e.toId]).length =
      2 * (g.keptEdges keep).length := by
    induction g.keptEdges keep with
    | nil => rfl
    | cons e es ih =>
      rw [List.flatMap_cons, List.length_append, ih, List.length_cons, List.length_cons,
        List.length_cons, List.length_nil]
      omega
  have kept : (g.keptEdges keep).length ≤ g.edges.length := List.length_filter_le _ _
  rw [List.length_append, ends] at few
  rw [Adjacency.len, ← List.toFinset_card_of_nodup (Adjacency.ids_nodup _), same]
  omega

theorem bfs_scan (seeds : List NodeId) :
    (blastRun keep walk.fwd walk.bwd g seeds maxDepth).queue = [] ∧
      (bfs (Adjacency.buildCapped g keep cap) seeds walk maxDepth).reached =
        blast keep walk.fwd walk.bwd g seeds maxDepth := by
  have few := seedQueue_few (Adjacency.buildCapped g keep cap) seeds
  refine bfsLoop_blastLoop fits _ (start_matches fits seeds) (few.trans (Nat.le_succ _)) ?_
  have small := len_le fits
  dsimp only
  rw [List.length_map]
  omega

end Same

end Glia.Algo
