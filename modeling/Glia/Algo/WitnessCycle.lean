import Glia.Algo.Bfs
import Glia.Algo.Components
import Glia.Kit.Layers

/-! A shortest cycle through one node of a component, by a breadth-first walk among the members. -/
namespace Glia.Algo

open Relation Glia.Kit

structure Hop where
  fromId : NodeId
  category : EdgeCategoryId
  toId : NodeId
  deriving DecidableEq, Repr

structure CycleWalk where
  parent : Nat → Option (Nat × EdgeCategoryId)
  seen : Nat → Bool
  queue : List Nat

section Witness
variable (adj : Adjacency)

def hopsBack (parent : Nat → Option (Nat × EdgeCategoryId)) : Nat → Nat → List Hop
  | 0, _ => []
  | fuel + 1, ix =>
    match parent ix with
    | none => []
    | some (u, c) => ⟨adj.id u, c, adj.id ix⟩ :: hopsBack parent fuel u

/-- Look at one edge leaving `v`; one into the start `s` ends the walk with the cycle it closes. -/
def examine (member : Nat → Bool) (s v : Nat) (walk : CycleWalk) (inc : Inc) :
    Except (List Hop) CycleWalk :=
  if !member inc.other then .ok walk
  else if inc.other = s then
    .error (⟨adj.id v, inc.category, adj.id s⟩ :: hopsBack adj walk.parent adj.len v).reverse
  else if walk.seen inc.other then .ok walk
  else
    .ok ⟨Function.update walk.parent inc.other (some (v, inc.category)),
      Function.update walk.seen inc.other true, walk.queue ++ [inc.other]⟩

/-- Take nodes off the queue until an edge closes a cycle; each node is on it once. -/
def cycleLoop (member : Nat → Bool) (s : Nat) : Nat → CycleWalk → List Hop
  | 0, _ => []
  | fuel + 1, walk =>
    match walk.queue with
    | [] => []
    | v :: rest =>
      match (adj.outgoing v).foldlM (examine adj member s v) { walk with queue := rest } with
      | .error hops => hops
      | .ok walk => cycleLoop member s fuel walk

def witnessCycle (component : List NodeId) (start : NodeId) : List Hop :=
  let member := fun ix => (component.filterMap adj.indexOf).contains ix
  match adj.indexOf start with
  | none => []
  | some s =>
    if member s then
      cycleLoop adj member s (adj.len + 1)
        ⟨fun _ => none, Function.update (fun _ => false) s true, [s]⟩
    else []

end Witness

def Adjacency.KeepsHop (adj : Adjacency) (h : Hop) : Prop :=
  ∃ k ∈ adj.kept, adj.id k.src = h.fromId ∧ k.category = h.category ∧ adj.id k.dst = h.toId

/-- A closed walk among `members`: each hop is kept and starts where the one before ends, and the
last ends where the first starts. -/
structure ClosedWalk (keeps : Hop → Prop) (members : List NodeId) (hops : List Hop) : Prop where
  some' : hops ≠ []
  held : ∀ h ∈ hops, keeps h ∧ h.fromId ∈ members ∧ h.toId ∈ members
  closed : ∃ x, Leads Hop.fromId Hop.toId hops x x

theorem ClosedWalk.mono {keeps keeps' : Hop → Prop} (sub : ∀ h, keeps h → keeps' h)
    {members : List NodeId} {hops : List Hop} (walk : ClosedWalk keeps members hops) :
    ClosedWalk keeps' members hops :=
  ⟨walk.some', fun h mem => ⟨sub h (walk.held h mem).1, (walk.held h mem).2⟩, walk.closed⟩

/-- The nodes, in order, that go round together: each reaches exactly the others and itself, and is
reached by them. -/
structure IsLoop (R : NodeId → NodeId → Prop) (members : List NodeId) : Prop where
  some' : members ≠ []
  sorted : members.Pairwise (· < ·)
  whole : ∀ x ∈ members, ∀ y, y ∈ members ↔ TransGen R x y ∧ TransGen R y x

section Exact
variable {adj : Adjacency} {member : Nat → Bool} {s : Nat}

def InsideHop (adj : Adjacency) (member : Nat → Bool) (h : Hop) : Prop :=
  ∃ u, ∃ inc ∈ adj.outgoing u, member u = true ∧ member inc.other = true ∧
    h = ⟨adj.id u, inc.category, adj.id inc.other⟩

structure Closing (adj : Adjacency) (member : Nat → Bool) (s : Nat) (hops : List Hop) : Prop where
  some' : hops ≠ []
  inside : ∀ h ∈ hops, InsideHop adj member h
  leads : Leads Hop.fromId Hop.toId hops (adj.id s) (adj.id s)

/-- `v`, the `i`-th node seen, is the start, or hangs by an edge of an earlier one. -/
def Hangs (adj : Adjacency) (s : Nat) (order : List Nat)
    (parent : Nat → Option (Nat × EdgeCategoryId)) (i v : Nat) : Prop :=
  v = s ∧ parent v = none ∨
    ∃ j < i, ∃ u, order[j]? = some u ∧ ∃ inc ∈ adj.outgoing u, inc.other = v ∧
      parent v = some (u, inc.category)

structure Grown (adj : Adjacency) (member : Nat → Bool) (s : Nat) (done : List Nat)
    (walk : CycleWalk) : Prop where
  seen : ∀ v, walk.seen v = true ↔ v ∈ done ++ walk.queue
  once : (done ++ walk.queue).Nodup
  inside : ∀ v ∈ done ++ walk.queue, member v = true
  start : s ∈ done ++ walk.queue
  hangs : ∀ (i v : Nat), (done ++ walk.queue)[i]? = some v →
    Hangs adj s (done ++ walk.queue) walk.parent i v

/-- The edge leads, among the members, to a node seen that is not the start. -/
def Shut (member : Nat → Bool) (s : Nat) (walk : CycleWalk) (inc : Inc) : Prop :=
  member inc.other = true → inc.other ≠ s ∧ walk.seen inc.other = true

theorem Hangs.push {order : List Nat} {parent : Nat → Option (Nat × EdgeCategoryId)} {i v w : Nat}
    (h : Hangs adj s order parent i v) (other : v ≠ w) (to' : Option (Nat × EdgeCategoryId)) :
    Hangs adj s (order ++ [w]) (Function.update parent w to') i v := by
  unfold Hangs
  rw [Function.update_of_ne other]
  cases h with
  | inl first => exact .inl first
  | inr later =>
    obtain ⟨j, lt, u, at', edge⟩ := later
    exact .inr ⟨j, lt, u, (List.getElem?_append_left (List.getElem?_eq_some_iff.mp at').1).trans at',
      edge⟩

/-- The hops back from a node seen lead to it from the start, each between members. -/
theorem Grown.leads {done : List Nat} {walk : CycleWalk} (h : Grown adj member s done walk)
    (i : Nat) : ∀ (v fuel : Nat), (done ++ walk.queue)[i]? = some v → i ≤ fuel →
      Leads Hop.fromId Hop.toId (hopsBack adj walk.parent fuel v).reverse (adj.id s) (adj.id v) ∧
        ∀ hop ∈ hopsBack adj walk.parent fuel v, InsideHop adj member hop := by
  induction i using Nat.strong_induction_on with
  | _ i ih =>
    intro v fuel at' enough
    cases h.hangs i v at' with
    | inl first =>
      have stop : hopsBack adj walk.parent fuel v = [] := by
        cases fuel with
        | zero => rfl
        | succ fuel => simp only [hopsBack, first.2]
      rw [stop, first.1]
      simp
    | inr later =>
      obtain ⟨j, lt, u, before, inc, out, rfl, told⟩ := later
      cases fuel with
      | zero => omega
      | succ fuel =>
        obtain ⟨leads, inside⟩ := ih j lt u fuel before (by omega)
        have back : hopsBack adj walk.parent (fuel + 1) inc.other =
            ⟨adj.id u, inc.category, adj.id inc.other⟩ :: hopsBack adj walk.parent fuel u := by
          simp only [hopsBack, told]
        rw [back, List.reverse_cons]
        refine ⟨leads_concat.mpr ⟨leads, rfl⟩, fun hop mem => ?_⟩
        cases List.mem_cons.mp mem with
        | inl eq =>
          exact ⟨u, inc, out, h.inside u (List.mem_of_getElem? before),
            h.inside _ (List.mem_of_getElem? at'), eq⟩
        | inr old => exact inside hop old

theorem Grown.length_le {done : List Nat} {walk : CycleWalk} (h : Grown adj member s done walk)
    (indexed : ∀ v, member v = true → v < adj.len) : (done ++ walk.queue).length ≤ adj.len := by
  have inside : (done ++ walk.queue).toFinset ⊆ Finset.range adj.len := fun v mem =>
    Finset.mem_range.mpr (indexed v (h.inside v (List.mem_toFinset.mp mem)))
  have few := Finset.card_le_card inside
  rwa [List.toFinset_card_of_nodup h.once, Finset.card_range] at few

/-- A new member is queued, hanging by the edge that met it. -/
theorem Grown.push {done : List Nat} {walk : CycleWalk} (h : Grown adj member s done walk)
    {v : Nat} {inc : Inc} (seenV : v ∈ done ++ walk.queue) (out : inc ∈ adj.outgoing v)
    (inside : member inc.other = true) (fresh : walk.seen inc.other = false) :
    Grown adj member s done ⟨Function.update walk.parent inc.other (some (v, inc.category)),
      Function.update walk.seen inc.other true, walk.queue ++ [inc.other]⟩ := by
  have out' : inc.other ∉ done ++ walk.queue := by
    rw [← h.seen, fresh]
    simp
  refine ⟨fun x => ?_, ?_, fun x mem => ?_, ?_, fun i x at' => ?_⟩
  · rw [← List.append_assoc, List.mem_append, ← h.seen, List.mem_singleton]
    by_cases here : x = inc.other
    · simp [here]
    · simp [here]
  · rw [← List.append_assoc, List.nodup_append]
    exact ⟨h.once, List.nodup_singleton _, fun a memA b memB eq =>
      out' (List.mem_singleton.mp memB ▸ eq ▸ memA)⟩
  · rw [← List.append_assoc, List.mem_append, List.mem_singleton] at mem
    exact mem.elim (h.inside x) fun eq => eq ▸ inside
  · rw [← List.append_assoc]
    exact List.mem_append_left _ h.start
  · rw [← List.append_assoc] at at' ⊢
    rw [List.getElem?_append] at at'
    split at at'
    · exact (h.hangs i x at').push (fun eq : x = inc.other => out' (eq ▸ List.mem_of_getElem? at')) _
    · rename_i late
      have last : x = inc.other := by
        rw [List.getElem?_singleton] at at'
        split at at' <;> simp_all
      subst last
      obtain ⟨j, lt, eq⟩ := List.getElem_of_mem seenV
      have at'' := List.getElem?_eq_some_iff.mpr ⟨lt, eq⟩
      exact .inr ⟨j, by omega, v, (List.getElem?_append_left lt).trans at'', inc, out, rfl,
        Function.update_self ..⟩

variable (indexed : ∀ v, member v = true → v < adj.len)
include indexed

theorem examine_grown {done : List Nat} {walk : CycleWalk} (h : Grown adj member s done walk)
    {v : Nat} {inc : Inc} (seenV : v ∈ done ++ walk.queue) (out : inc ∈ adj.outgoing v) :
    match examine adj member s v walk inc with
    | .ok next => Grown adj member s done next ∧ Shut member s next inc ∧
        (∀ x, walk.seen x = true → next.seen x = true)
    | .error hops => Closing adj member s hops := by
  unfold examine
  by_cases inside : member inc.other = true
  · rw [if_neg (by simp [inside])]
    by_cases back : inc.other = s
    · rw [if_pos back]
      obtain ⟨i, lt, eq⟩ := List.getElem_of_mem seenV
      obtain ⟨leads, hops⟩ := h.leads i v adj.len (List.getElem?_eq_some_iff.mpr ⟨lt, eq⟩)
        (lt.le.trans (h.length_le indexed))
      refine ⟨by simp, fun hop mem => ?_, ?_⟩
      · cases List.mem_cons.mp (List.mem_reverse.mp mem) with
        | inl eq => exact ⟨v, inc, out, h.inside v seenV, inside, by rw [eq, back]⟩
        | inr old => exact hops hop old
      · rw [List.reverse_cons]
        exact leads_concat.mpr ⟨leads, rfl⟩
    · rw [if_neg back]
      by_cases old : walk.seen inc.other = true
      · rw [if_pos old]
        exact ⟨h, fun _ => ⟨back, old⟩, fun _ => id⟩
      · rw [if_neg old]
        refine ⟨h.push seenV out inside (by simpa using old), fun _ => ⟨back, ?_⟩, fun x held => ?_⟩
        · simp
        · by_cases here : x = inc.other <;> simp [here, held]
  · rw [if_pos (by simpa using inside)]
    exact ⟨h, fun yes => absurd yes inside, fun _ => id⟩

/-- Looking at some edges of a node seen shuts each, or closes a cycle. -/
theorem foldlM_examine {done : List Nat} {v : Nat} (incs : List Inc)
    (out : ∀ inc ∈ incs, inc ∈ adj.outgoing v) : ∀ (walk : CycleWalk),
      Grown adj member s done walk → v ∈ done →
      match incs.foldlM (examine adj member s v) walk with
      | .ok next => Grown adj member s done next ∧ (∀ inc ∈ incs, Shut member s next inc) ∧
          (∀ x, walk.seen x = true → next.seen x = true)
      | .error hops => Closing adj member s hops := by
  induction incs with
  | nil =>
    intro walk h _
    exact ⟨h, by simp, fun _ => id⟩
  | cons inc rest ih =>
    intro walk h seenV
    have first := examine_grown indexed h (List.mem_append_left _ seenV)
      (out inc List.mem_cons_self)
    rw [List.foldlM_cons]
    cases step : examine adj member s v walk inc with
    | error hops =>
      rw [step] at first
      exact first
    | ok next =>
      rw [step] at first
      obtain ⟨grown, shut, kept⟩ := first
      have later := ih (fun inc mem => out inc (List.mem_cons_of_mem _ mem)) next grown seenV
      show match rest.foldlM (examine adj member s v) next with
        | .ok next => _
        | .error hops => _
      cases run : rest.foldlM (examine adj member s v) next with
      | error hops =>
        rw [run] at later
        exact later
      | ok last =>
        rw [run] at later
        refine ⟨later.1, fun inc' mem => ?_, fun x held => later.2.2 x (kept x held)⟩
        cases List.mem_cons.mp mem with
        | inl eq => exact eq ▸ fun inside => ⟨(shut inside).1, later.2.2 _ (shut inside).2⟩
        | inr old => exact later.2.1 inc' old

def MemberArc (adj : Adjacency) (member : Nat → Bool) (u w : Nat) : Prop :=
  member u = true ∧ member w = true ∧ adj.Arc u w

theorem cycleLoop_closing (cycle : TransGen (MemberArc adj member) s s) (fuel : Nat) :
    ∀ (done : List Nat) (walk : CycleWalk), Grown adj member s done walk →
      (∀ u ∈ done, ∀ inc ∈ adj.outgoing u, Shut member s walk inc) →
      adj.len < done.length + fuel → Closing adj member s (cycleLoop adj member s fuel walk) := by
  induction fuel with
  | zero =>
    intro done walk h _ enough
    have few := h.length_le indexed
    rw [List.length_append] at few
    omega
  | succ fuel ih =>
    intro done walk h shut enough
    unfold cycleLoop
    cases queue : walk.queue with
    | nil =>
      -- nothing waits: what the start reaches is shut, so no edge leads back into it
      exfalso
      have seen : ∀ v, walk.seen v = true ↔ v ∈ done := by
        intro v
        rw [h.seen, queue, List.append_nil]
      have reach : ∀ v, ReflTransGen (MemberArc adj member) s v → v ∈ done := by
        intro v way
        induction way with
        | refl => simpa [queue] using h.start
        | tail _ step ih =>
          obtain ⟨_, inside, inc, out, rfl⟩ := step
          exact (seen _).mp (shut _ ih inc out inside).2
      obtain ⟨u, way, _, inside, inc, out, eq⟩ := TransGen.tail'_iff.mp cycle
      exact (shut u (reach u way) inc out (eq ▸ inside)).1 eq
    | cons v rest =>
      have moved : done ++ [v] ++ rest = done ++ walk.queue := by simp [queue]
      have popped : Grown adj member s (done ++ [v]) { walk with queue := rest } := by
        constructor <;> dsimp only <;> rw [moved]
        · exact h.seen
        · exact h.once
        · exact h.inside
        · exact h.start
        · exact h.hangs
      have run := foldlM_examine indexed (adj.outgoing v) (fun _ => id) _ popped (by simp)
      dsimp only
      cases step : (adj.outgoing v).foldlM (examine adj member s v) { walk with queue := rest } with
      | error hops =>
        rw [step] at run
        exact run
      | ok next =>
        rw [step] at run
        refine ih (done ++ [v]) next run.1 (fun u mem inc out inside => ?_) ?_
        · cases List.mem_append.mp mem with
          | inl old =>
            have was := shut u old inc out inside
            exact ⟨was.1, run.2.2 _ was.2⟩
          | inr last =>
            rw [List.mem_singleton.mp last] at out
            exact run.2.1 inc out inside
        · rw [List.length_append, List.length_singleton]
          omega

end Exact

section Component
variable {adj : Adjacency} {c : List NodeId}

theorem member_between (comp : c ∈ stronglyConnected adj) {x y z : NodeId} (hasX : x ∈ c)
    (hasY : y ∈ c) (before : ReflTransGen adj.Joins x z) (after : ReflTransGen adj.Joins z y) :
    z ∈ c := by
  obtain ⟨way, back⟩ := (stronglyConnected_iff x y).mp ⟨c, comp, hasX, hasY⟩
  obtain ⟨d, comp', hasX', hasZ⟩ := (stronglyConnected_iff x z).mpr
    ⟨(way.trans back).trans_left before, TransGen.trans_right after back⟩
  exact stronglyConnected_unique comp comp' hasX hasX' ▸ hasZ

theorem witnessCycle_closed (comp : c ∈ stronglyConnected adj) {start : NodeId} (mem : start ∈ c) :
    ClosedWalk adj.KeepsHop c (witnessCycle adj c start) := by
  obtain ⟨members, isComp, rfl⟩ := stronglyConnected_sound adj comp
  obtain ⟨s, hs, rfl⟩ := List.mem_map.mp ((List.mem_insertionSort _).mp mem)
  have member : ∀ v, (((members.map adj.id).insertionSort (· ≤ ·)).filterMap
      adj.indexOf).contains v = true ↔ v ∈ members := by
    intro v
    simp only [List.contains_iff_mem, List.mem_filterMap, List.mem_insertionSort, List.mem_map]
    constructor
    · intro found
      obtain ⟨x, ⟨u, hu, rfl⟩, at'⟩ := found
      rw [adj.indexOf_id (isComp.lt hu)] at at'
      exact Option.some.inj at' ▸ hu
    · exact fun hv => ⟨adj.id v, ⟨v, hv, rfl⟩, adj.indexOf_id (isComp.lt hv)⟩
  have cycle : TransGen (MemberArc adj fun ix => (((members.map adj.id).insertionSort
      (· ≤ ·)).filterMap adj.indexOf).contains ix) s s := by
    obtain ⟨n, pos, walk⟩ := (transGen_iff_hops _ _ _).mp (isComp.cyclic s hs)
    refine (transGen_iff_hops _ _ _).mpr ⟨n, pos, walk.between fun v before after => ?_⟩
    exact (member v).mpr ((isComp.whole s hs v).mpr ⟨before, after⟩)
  have found := cycleLoop_closing (fun v yes => isComp.lt ((member v).mp yes)) cycle (adj.len + 1) []
    ⟨fun _ => none, Function.update (fun _ => false) s true, [s]⟩
    ⟨fun v => by simp [Function.update_apply], by simp, by simpa using (member s).mpr hs, by simp, by
      intro i v at'
      cases i with
      | zero => exact .inl ⟨by simpa using at'.symm, rfl⟩
      | succ i => simp at at'⟩
    (by simp) (by simp)
  unfold witnessCycle
  rw [adj.indexOf_id (isComp.lt hs)]
  dsimp only
  rw [if_pos ((member s).mpr hs)]
  refine ⟨found.some', fun h inside => ?_, adj.id s, found.leads⟩
  obtain ⟨u, inc, out, hasU, hasW, rfl⟩ := found.inside h inside
  have ids : ∀ v ∈ members, adj.id v ∈ (members.map adj.id).insertionSort (· ≤ ·) :=
    fun v hv => (List.mem_insertionSort _).mpr (List.mem_map_of_mem hv)
  exact ⟨⟨_, List.mem_of_getElem? ((adj.mem_outgoing u inc).mp out), rfl, rfl, rfl⟩,
    ids u ((member u).mp hasU), ids inc.other ((member inc.other).mp hasW)⟩

theorem IsLoop.eq {R : NodeId → NodeId → Prop} {d : List NodeId} (hc : IsLoop R c)
    (hd : IsLoop R d) {x : NodeId} (xc : x ∈ c) (xd : x ∈ d) : c = d := by
  have same : ∀ y, y ∈ c ↔ y ∈ d := fun y => (hc.whole x xc y).trans (hd.whole x xd y).symm
  have perm := (List.perm_ext_iff_of_nodup (hc.sorted.imp fun lt => lt.ne)
    (hd.sorted.imp fun lt => lt.ne)).mpr same
  exact perm.eq_of_pairwise (fun _ _ _ _ lt lt' => absurd lt' lt.not_gt) hc.sorted hd.sorted

theorem mem_stronglyConnected : c ∈ stronglyConnected adj ↔ IsLoop adj.Joins c := by
  have listed : ∀ d ∈ stronglyConnected adj, IsLoop adj.Joins d := by
    intro d comp
    refine ⟨stronglyConnected_nonempty comp, stronglyConnected_sorted comp, fun x hx y => ?_⟩
    rw [← stronglyConnected_iff]
    constructor
    · exact fun hy => ⟨d, comp, hx, hy⟩
    · intro found
      obtain ⟨e, comp', hx', hy⟩ := found
      exact stronglyConnected_unique comp comp' hx hx' ▸ hy
  refine ⟨listed c, fun h => ?_⟩
  obtain ⟨x, hx⟩ := List.exists_mem_of_ne_nil c h.some'
  obtain ⟨d, comp, hx', _⟩ := (stronglyConnected_iff x x).mpr ((h.whole x hx x).mp hx)
  exact h.eq (listed d comp) hx hx' ▸ comp

end Component

section Source
variable {g : GraphSource} {keep : CategorySet}

theorem joins_build (fits : g.Fits keep indexLimit) :
    (Adjacency.build g keep).Joins = StepAlong g keep .forward := by
  ext x y
  constructor
  · intro joins
    obtain ⟨u, w, _, _, rfl, rfl, arc⟩ := joins.indexed
    exact ((steps_iff fits .forward u w).mp arc).2.2
  · intro step
    obtain ⟨⟨u, hu, rfl⟩, w, hw, rfl⟩ := stepAlong_indexed fits step
    exact Adjacency.Arc.joins ((steps_iff fits .forward u w).mpr ⟨hu, hw, step⟩)

theorem fits_of_component {c : List NodeId} (comp : c ∈ stronglyConnected (Adjacency.build g keep)) :
    g.Fits keep indexLimit := by
  by_contra unfit
  rw [Adjacency.build, Adjacency.build_unfit unfit] at comp
  obtain ⟨x, hx⟩ := List.exists_mem_of_ne_nil c (stronglyConnected_nonempty comp)
  have way := ((stronglyConnected_iff x x).mp ⟨c, comp, hx, hx⟩).1
  obtain ⟨_, ⟨k, mem, _⟩, _⟩ := TransGen.head'_iff.mp way
  cases mem

theorem mem_stronglyConnected_build (c : List NodeId) :
    c ∈ stronglyConnected (Adjacency.build g keep) ↔
      g.Fits keep indexLimit ∧ IsLoop (StepAlong g keep .forward) c := by
  constructor
  · intro comp
    have fits := fits_of_component comp
    exact ⟨fits, joins_build fits ▸ mem_stronglyConnected.mp comp⟩
  · exact fun h => mem_stronglyConnected.mpr (joins_build h.1 ▸ h.2)

theorem keepsHop_build (fits : g.Fits keep indexLimit) (h : Hop) :
    (Adjacency.build g keep).KeepsHop h ↔ ∃ e ∈ g.keptEdges keep,
      e.fromId = h.fromId ∧ e.category = h.category ∧ e.toId = h.toId := by
  constructor
  · intro kept
    obtain ⟨k, mem, src, cat, dst⟩ := kept
    obtain ⟨j, at'⟩ := List.mem_iff_getElem?.mp mem
    obtain ⟨e, edge, eq, atSrc, atDst⟩ := (kept_iff fits k.src k.dst j k.category).mp at'
    exact ⟨e, List.mem_of_getElem? edge, (id_eq_iff.mp atSrc).2.symm.trans src, eq.trans cat,
      (id_eq_iff.mp atDst).2.symm.trans dst⟩
  · intro edge
    obtain ⟨e, mem, src, cat, dst⟩ := edge
    have step : StepAlong g keep .forward e.fromId e.toId := ⟨e, mem, rfl, rfl⟩
    obtain ⟨⟨u, hu, eqU⟩, w, hw, eqW⟩ := stepAlong_indexed fits step
    obtain ⟨j, at'⟩ := List.mem_iff_getElem?.mp mem
    have kept := (kept_iff fits u w j e.category).mpr
      ⟨e, at', rfl, id_eq_iff.mpr ⟨hu, eqU⟩, id_eq_iff.mpr ⟨hw, eqW⟩⟩
    exact ⟨_, List.mem_of_getElem? kept, eqU.trans src, cat, eqW.trans dst⟩

theorem build_len_le (g : GraphSource) (keep : CategorySet) :
    (Adjacency.build g keep).len ≤ indexLimit := by
  by_cases fits : g.Fits keep indexLimit
  · have mem := (Adjacency.build_holds fits).2
    refine le_trans ?_ fits.1
    rw [Adjacency.len, ← List.toFinset_card_of_nodup (Adjacency.build g keep).ids_nodup]
    exact Finset.card_le_card fun x hx => (mem x).mp (List.mem_toFinset.mp hx)
  · rw [Adjacency.build, Adjacency.build_unfit fits]
    exact Nat.zero_le _

end Source

end Glia.Algo
