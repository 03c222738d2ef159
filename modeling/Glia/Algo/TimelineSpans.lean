import Glia.Algo.DeltaExact
import Glia.Algo.Timeline
import Glia.Kit.Tracks

/-! The spans a timeline keeps are those of the nodes and edges followed through the moves
the deltas apply. -/
namespace Glia.Algo

open Glia.Graph (IdMap)
open Glia.Kit (OrdMap gather getElem?_gather Track Fresh Lives Spans)

section Sides

def HasNode (s : DeltaSide) (id : NodeId) : Prop := ∃ n ∈ s.nodes, n.id = id

def HasEdge (s : DeltaSide) (k : EdgeKey) : Prop := ∃ e ∈ s.edges, EdgeKey.of e = k

def Named (s : DeltaSide) (id : NodeId) : Prop :=
  HasNode s id ∨ ∃ k, HasEdge s k ∧ (k.source = id ∨ k.target = id)

theorem Named.names {s : DeltaSide} {id : NodeId} (h : Named s id) : s.Names id := by
  obtain node | ⟨k, ⟨e, mem, rfl⟩, ends⟩ := h
  · exact .inl node
  · exact .inr ⟨e, mem, ends⟩

end Sides

section Moves
variable (prev next : DeltaSide) (moves : List (NodeId × NodeId))

def appliedMoves : IdMap NodeId :=
  (acceptMoves moves prev (content prev []) (content next [])).1

def stepId : NodeId → NodeId := remap (appliedMoves prev next moves)

def stepKey : EdgeKey → EdgeKey := EdgeKey.map (stepId prev next moves)

theorem moved_away {x a : NodeId} (taken : Named prev a)
    (moved : (appliedMoves prev next moves)[x]? = some a) :
    ∃ c : NodeId, (appliedMoves prev next moves)[a]? = some c := by
  apply (acceptMoves_applied moves prev (content prev []) (content next [])).away x a moved
  rw [content_contains]
  exact taken.names

theorem stepId_injective {x y : NodeId} (hx : Named prev x) (hy : Named prev y)
    (same : stepId prev next moves x = stepId prev next moves y) : x = y :=
  @remap_apart prev next { moves := moves } x y hx.names hy.names same

theorem stepKey_injective {k k' : EdgeKey} (hk : HasEdge prev k) (hk' : HasEdge prev k')
    (same : stepKey prev next moves k = stepKey prev next moves k') : k = k' := by
  apply EdgeKey.ext_ends
  · exact stepId_injective prev next moves (.inr ⟨k, hk, .inl rfl⟩) (.inr ⟨k', hk', .inl rfl⟩)
      (congrArg EdgeKey.source same)
  · exact stepId_injective prev next moves (.inr ⟨k, hk, .inr rfl⟩) (.inr ⟨k', hk', .inr rfl⟩)
      (congrArg EdgeKey.target same)
  · show (stepKey prev next moves k).category = (stepKey prev next moves k').category
    rw [same]

theorem movedNodes_eq : (graphDelta prev next { moves := moves }).movedNodes =
    (appliedMoves prev next moves).toList := rfl

theorem mem_addedNodes (a : NodeId) : a ∈ (graphDelta prev next { moves := moves }).addedNodes ↔
    HasNode next a ∧ ∀ b, HasNode prev b → stepId prev next moves b ≠ a := by
  rw [addedNodes_iff]
  apply and_congr_right
  intro there
  simp only [keepsNode_iff]
  constructor
  · exact fun fresh b held named => fresh b ⟨held, named, there⟩
  · exact fun fresh b keeps => fresh b keeps.1 keeps.2.1

theorem mem_removedNodes (b : NodeId) :
    b ∈ (graphDelta prev next { moves := moves }).removedNodes ↔
      HasNode prev b ∧ ¬HasNode next (stepId prev next moves b) := removedNodes_iff b

theorem mem_addedEdges (k : EdgeKey) :
    k ∈ (graphDelta prev next { moves := moves }).addedEdges ↔
      HasEdge next k ∧ ∀ k', HasEdge prev k' → stepKey prev next moves k' ≠ k := by
  rw [addedEdges_iff]
  apply and_congr_right
  intro _
  rw [not_exists]
  exact forall_congr' fun k' => not_and

theorem mem_removedEdges (k : EdgeKey) :
    k ∈ (graphDelta prev next { moves := moves }).removedEdges ↔
      HasEdge prev k ∧ ¬HasEdge next (stepKey prev next moves k) := removedEdges_iff k

end Moves

section Maps
variable {κ β : Type} [LinearOrder κ]

theorem closeSpans_spec (removed : List κ) (m : OrdMap κ β) :
    (∀ k : κ, (closeSpans removed m).1[k]? = if k ∈ removed then none else m[k]?) ∧
      ∀ (k : κ) (v : β), (k, v) ∈ (closeSpans removed m).2 ↔ k ∈ removed ∧ m[k]? = some v := by
  have folded : ∀ step : OrdMap κ β × List (κ × β) → κ → OrdMap κ β × List (κ × β),
      (∀ s k, s.1[k]? = none → step s k = s) →
      (∀ s k v, s.1[k]? = some v → step s k = (s.1.erase k, s.2 ++ [(k, v)])) →
      ∀ (removed : List κ) (m : OrdMap κ β) (acc : List (κ × β)),
      (∀ k : κ, (removed.foldl step (m, acc)).1[k]? = if k ∈ removed then none else m[k]?) ∧
        ∀ (k : κ) (v : β), (k, v) ∈ (removed.foldl step (m, acc)).2 ↔
          (k, v) ∈ acc ∨ k ∈ removed ∧ m[k]? = some v := by
    intro step misses hits removed
    induction removed with
    | nil => simp
    | cons r removed ih =>
      intro m acc
      rw [List.foldl_cons]
      cases found : m[r]? with
      | none =>
        rw [misses (m, acc) r found]
        obtain ⟨gets, closed⟩ := ih m acc
        refine ⟨fun k => ?_, fun k v => ?_⟩
        · rw [gets k]
          by_cases same : k = r
          · subst same
            simp [found]
          · simp [same]
        · rw [closed k v]
          by_cases same : k = r
          · subst same
            simp [found]
          · simp [same]
      | some w =>
        rw [hits (m, acc) r w found]
        obtain ⟨gets, closed⟩ := ih (m.erase r) (acc ++ [(r, w)])
        have erased : ∀ k : κ, (m.erase r)[k]? = if k = r then none else m[k]? := by
          intro k
          rw [Std.ExtTreeMap.getElem?_erase]
          by_cases same : k = r
          · simp [same]
          · have apart : compare r k ≠ .eq := fun e => same (compare_eq_iff_eq.mp e).symm
            rw [if_neg apart, if_neg same]
        refine ⟨fun k => ?_, fun k v => ?_⟩
        · rw [gets k, erased k]
          by_cases same : k = r
          · simp [same]
          · simp [same]
        · rw [closed k v, erased k, List.mem_append, List.mem_singleton, Prod.mk.injEq]
          by_cases same : k = r
          · subst same
            simp [found, eq_comm]
          · simp [same]
  unfold closeSpans
  refine (folded _ (fun s k held => ?_) (fun s k v held => ?_) removed m []).imp_right
    fun closed k v => (closed k v).trans (by simp)
  · rw [held]
  · rw [held]

theorem carryOpen_get {next : κ × β → κ × β} {m : OrdMap κ β}
    (inj : ∀ e ∈ m.toList, ∀ e' ∈ m.toList, (next e).1 = (next e').1 → e = e') (z : κ) (b : β) :
    (carryOpen next m)[z]? = some b ↔ ∃ e ∈ m.toList, next e = (z, b) := by
  rw [carryOpen, getElem?_gather, foldl_keep_last, Std.ExtTreeMap.getElem?_empty,
    Option.or_none]
  constructor
  · intro last
    obtain ⟨e, mem, named⟩ := List.mem_map.mp (List.mem_of_getLast? last)
    rw [List.mem_filter, decide_eq_true_eq] at mem
    exact ⟨e, mem.1, Prod.ext mem.2 named⟩
  · rintro ⟨e, mem, named⟩
    have keyed : (next e).1 = z := congrArg Prod.fst named
    have passed : e ∈ m.toList.filter fun e => (next e).1 = z :=
      List.mem_filter.mpr ⟨mem, decide_eq_true keyed⟩
    cases last : ((m.toList.filter fun e => (next e).1 = z).map fun e => (next e).2).getLast? with
    | none =>
      rw [List.getLast?_eq_none_iff, List.map_eq_nil_iff] at last
      rw [last] at passed
      cases passed
    | some b' =>
      obtain ⟨e', mem', named'⟩ := List.mem_map.mp (List.mem_of_getLast? last)
      rw [List.mem_filter, decide_eq_true_eq] at mem'
      rw [← inj e mem e' mem'.1 (keyed.trans mem'.2.symm)] at named'
      rw [← named', named]

theorem openSpans_get (added : List κ) (init : β) (m : OrdMap κ β) (k : κ) :
    (openSpans added init m)[k]? = if k ∈ added then some (m[k]?.getD init) else m[k]? := by
  rw [openSpans, getElem?_gather]
  have folded : ∀ (l : List κ) (o : Option β),
      l.foldl (fun o _ => some (o.getD init)) o = if l = [] then o else some (o.getD init) := by
    intro l
    induction l with
    | nil => simp
    | cons x l ih =>
      intro o
      rw [List.foldl_cons, ih]
      split <;> simp
  rw [folded]
  by_cases listed : k ∈ added
  · rw [if_pos listed, if_neg]
    intro empty
    rw [List.filter_eq_nil_iff] at empty
    simpa using empty k listed
  · rw [if_neg listed, if_pos]
    rw [List.filter_eq_nil_iff]
    intro k' mem
    rw [decide_eq_true_eq]
    rintro rfl
    exact listed mem

theorem push_get {removed added : List κ} {live : OrdMap κ β} {carry : κ × β → κ × β}
    {stays : Bool} {init : β} (step : κ → κ) {advance : κ → β → β} (now later : κ → Prop)
    (carried : ∀ y b, carry (y, b) = (step y, advance y b))
    (still : stays = true → ∀ e, carry e = e)
    (gone : ∀ y, y ∈ removed ↔ now y ∧ ¬later (step y))
    (opened : ∀ z, z ∈ added ↔ later z ∧ ∀ y, now y → step y ≠ z)
    (keys : ∀ y : κ, (∃ b, live[y]? = some b) ↔ now y)
    (inj : ∀ y y', now y → now y' → step y = step y' → y = y') (z : κ) (b' : β) :
    (openSpans added init (if stays then (closeSpans removed live).1
      else carryOpen carry (closeSpans removed live).1))[z]? = some b' ↔
      later z ∧ ((∃ (y : κ) (b : β), live[y]? = some b ∧ step y = z ∧ b' = advance y b) ∨
        ((∀ y, now y → step y ≠ z) ∧ b' = init)) := by
  have kept := (closeSpans_spec removed live).1
  have entry : ∀ (k : κ) (v : β), (if stays then (closeSpans removed live).1
      else carryOpen carry (closeSpans removed live).1)[k]? = some v ↔
        ∃ (y : κ) (b : β), live[y]? = some b ∧ later (step y) ∧ step y = k ∧ v = advance y b := by
    have held : ∀ (y : κ) (b : β), (closeSpans removed live).1[y]? = some b ↔
        live[y]? = some b ∧ later (step y) := by
      intro y b
      rw [kept y]
      by_cases shut : y ∈ removed
      · rw [if_pos shut]
        simp [((gone y).mp shut).2]
      · rw [if_neg shut]
        constructor
        · intro there
          refine ⟨there, ?_⟩
          by_contra out
          exact shut ((gone y).mpr ⟨(keys y).mp ⟨b, there⟩, out⟩)
        · exact And.left
    intro k v
    by_cases quiet : stays = true
    · rw [if_pos quiet, held]
      constructor
      · rintro ⟨there, later_⟩
        have same := (carried k v).symm.trans (still quiet (k, v))
        exact ⟨k, v, there, later_, congrArg Prod.fst same, (congrArg Prod.snd same).symm⟩
      · rintro ⟨y, b, there, later_, rfl, rfl⟩
        have same := (carried y b).symm.trans (still quiet (y, b))
        have stepped : step y = y := congrArg Prod.fst same
        have value : advance y b = b := congrArg Prod.snd same
        rw [stepped] at later_ ⊢
        rw [stepped, value]
        exact ⟨there, later_⟩
    · rw [if_neg quiet, carryOpen_get]
      · constructor
        · rintro ⟨⟨y, b⟩, mem, named⟩
          obtain ⟨there, later_⟩ := (held y b).mp (OrdMap.mem_toList.mp mem)
          rw [carried] at named
          exact ⟨y, b, there, later_, congrArg Prod.fst named, (congrArg Prod.snd named).symm⟩
        · rintro ⟨y, b, there, later_, rfl, rfl⟩
          exact ⟨(y, b), OrdMap.mem_toList.mpr ((held y b).mpr ⟨there, later_⟩), carried y b⟩
      · rintro ⟨y, b⟩ mem ⟨y', b'⟩ mem' same
        have there := ((held y b).mp (OrdMap.mem_toList.mp mem)).1
        have there' := ((held y' b').mp (OrdMap.mem_toList.mp mem')).1
        rw [carried, carried] at same
        obtain rfl := inj y y' ((keys y).mp ⟨b, there⟩) ((keys y').mp ⟨b', there'⟩) same
        rw [there, Option.some.injEq] at there'
        rw [there']
  rw [openSpans_get]
  by_cases listed : z ∈ added
  · obtain ⟨there, fresh⟩ := (opened z).mp listed
    have empty : (if stays then (closeSpans removed live).1
        else carryOpen carry (closeSpans removed live).1)[z]? = none := by
      rw [Option.eq_none_iff_forall_ne_some]
      intro v held
      obtain ⟨y, b, was, -, named, -⟩ := (entry z v).mp held
      exact fresh y ((keys y).mp ⟨b, was⟩) named
    rw [if_pos listed, empty, Option.getD_none, Option.some.injEq]
    constructor
    · rintro rfl
      exact ⟨there, .inr ⟨fresh, rfl⟩⟩
    · rintro ⟨-, ⟨y, b, was, named, -⟩ | ⟨-, rfl⟩⟩
      · exact absurd named (fresh y ((keys y).mp ⟨b, was⟩))
      · rfl
  · rw [if_neg listed, entry]
    constructor
    · rintro ⟨y, b, was, there, rfl, rfl⟩
      exact ⟨there, .inl ⟨y, b, was, rfl, rfl⟩⟩
    · rintro ⟨there, ⟨y, b, was, rfl, rfl⟩ | ⟨fresh, -⟩⟩
      · exact ⟨y, b, was, there, rfl, rfl⟩
      · exact absurd ((opened z).mpr ⟨there, fresh⟩) listed

theorem gather_toList (m : OrdMap κ β) :
    gather Prod.fst (fun (p : κ × β) _ => some p.2) ∅ m.toList = m := by
  have carried : gather Prod.fst (fun (p : κ × β) _ => some p.2) ∅ m.toList = carryOpen id m :=
    rfl
  apply OrdMap.ext_get
  intro k
  rw [carried]
  apply Option.ext
  intro v
  rw [carryOpen_get]
  · simp
  · rintro ⟨y, b⟩ mem ⟨y', b'⟩ mem' same
    obtain rfl : y = y' := same
    have there := OrdMap.mem_toList.mp mem
    rw [OrdMap.mem_toList.mp mem', Option.some.injEq] at there
    rw [there]

end Maps

structure Snapshots where
  first : DeltaSide
  pushes : List TimelineBuilder.Push

namespace Snapshots
variable (h : Snapshots)

/-- Snapshot `r`; empty past the last. -/
def side : Nat → DeltaSide
  | 0 => h.first
  | r + 1 => (h.pushes[r]?.map TimelineBuilder.Push.next).getD {}

def movesFrom (r : Nat) : List (NodeId × NodeId) :=
  (h.pushes[r]?.map TimelineBuilder.Push.moves).getD []

def nodeAt (r : Nat) (id : NodeId) : Prop := HasNode (h.side r) id

def edgeAt (r : Nat) (k : EdgeKey) : Prop := HasEdge (h.side r) k

def stepNode (r : Nat) : NodeId → NodeId := stepId (h.side r) (h.side (r + 1)) (h.movesFrom r)

def stepEdge (r : Nat) : EdgeKey → EdgeKey := stepKey (h.side r) (h.side (r + 1)) (h.movesFrom r)

def builder : TimelineBuilder := (TimelineBuilder.new h.first).pushAll h.first h.pushes

def timeline : Timeline := h.builder.finish

end Snapshots

def priorAt (prior : List (Nat × NodeId)) (id : NodeId) (r : Nat) : NodeId :=
  match prior.find? fun p => r < p.1 with
  | some p => p.2
  | none => id

section Priors

theorem priorAt_past {prior : List (Nat × NodeId)} {r : Nat} (past : ∀ p ∈ prior, p.1 ≤ r)
    (id : NodeId) : priorAt prior id r = id := by
  have none_later : (prior.find? fun p => decide (r < p.1)) = none := by
    rw [List.find?_eq_none]
    intro p mem later
    exact absurd (of_decide_eq_true later) (Nat.not_lt.mpr (past p mem))
  rw [priorAt, none_later]

theorem priorAt_append {prior : List (Nat × NodeId)} {r n : Nat} (below : r < n) (id to_ : NodeId) :
    priorAt (prior ++ [(n, id)]) to_ r = priorAt prior id r := by
  rw [priorAt, priorAt, List.find?_append]
  cases found : prior.find? fun p => decide (r < p.1) with
  | some p => rfl
  | none => simp [below]

structure Told (h : Snapshots) (t : Nat) (id : NodeId) (e : NodeEntry) : Prop where
  started : e.1 ≤ t
  ordered : e.2.Pairwise fun p q => p.1 < q.1
  inside : ∀ p ∈ e.2, e.1 < p.1 ∧ p.1 ≤ t
  path : ∀ r, e.1 ≤ r → r ≤ t → Track h.nodeAt h.stepNode r (priorAt e.2 id r) t id

def advanceNode (moved : IdMap NodeId) (rev : Nat) (id : NodeId) (e : NodeEntry) : NodeEntry :=
  match moved[id]? with
  | some _ => (e.1, e.2 ++ [(rev, id)])
  | none => e

theorem advanceNode_start (moved : IdMap NodeId) (rev : Nat) (id : NodeId) (e : NodeEntry) :
    (advanceNode moved rev id e).1 = e.1 := by
  rw [advanceNode]
  split <;> rfl

theorem Told.advance {h : Snapshots} {n : Nat} {id : NodeId} {e : NodeEntry} (told : Told h n id e)
    (there : h.nodeAt (n + 1) (h.stepNode n id)) :
    Told h (n + 1) (h.stepNode n id)
      (advanceNode (appliedMoves (h.side n) (h.side (n + 1)) (h.movesFrom n)) (n + 1) id e) := by
  cases moved : (appliedMoves (h.side n) (h.side (n + 1)) (h.movesFrom n))[id]? with
  | none =>
    have stays : h.stepNode n id = id := by
      rw [Snapshots.stepNode, stepId, remap, moved]
      rfl
    have inside : ∀ p ∈ e.2, e.1 < p.1 ∧ p.1 ≤ n + 1 := fun p mem =>
      ⟨(told.inside p mem).1, Nat.le_succ_of_le (told.inside p mem).2⟩
    rw [advanceNode, moved]
    refine ⟨Nat.le_succ_of_le told.started, told.ordered, inside, fun r lower upper => ?_⟩
    obtain rfl | below := Nat.eq_or_lt_of_le upper
    · rw [priorAt_past fun p mem => (inside p mem).2]
      exact .here there
    · have before := (told.path r lower (Nat.le_of_lt_succ below)).next there
      rw [stays] at before ⊢
      exact before
  | some to_ =>
    rw [advanceNode, moved]
    refine ⟨Nat.le_succ_of_le told.started, ?_, ?_, fun r lower upper => ?_⟩
    · rw [List.pairwise_append]
      refine ⟨told.ordered, List.pairwise_singleton _ _, fun p mem q mem' => ?_⟩
      rw [List.mem_singleton.mp mem']
      exact Nat.lt_succ_of_le (told.inside p mem).2
    · intro p mem
      obtain mem | mem := List.mem_append.mp mem
      · exact ⟨(told.inside p mem).1, Nat.le_succ_of_le (told.inside p mem).2⟩
      · rw [List.mem_singleton.mp mem]
        exact ⟨Nat.lt_succ_of_le told.started, Nat.le_refl _⟩
    · obtain rfl | below := Nat.eq_or_lt_of_le upper
      · rw [priorAt_past]
        · exact .here there
        · intro p mem
          obtain mem | mem := List.mem_append.mp mem
          · exact Nat.le_succ_of_le (told.inside p mem).2
          · rw [List.mem_singleton.mp mem]
      · rw [priorAt_append below]
        exact (told.path r lower (Nat.le_of_lt_succ below)).next there

end Priors

section Builder
variable (h : Snapshots)

structure BuilderSpans (n : Nat) (b : TimelineBuilder) : Prop where
  rev : b.rev = n
  edges : Spans h.edgeAt h.stepEdge id (fun _ _ _ => True) n b.openEdges
    fun t k r => ⟨k, r, some (t + 1)⟩ ∈ b.closedEdges
  nodes : Spans h.nodeAt h.stepNode Prod.fst (Told h) n b.openNodes
    fun t id e => ⟨id, e.1, some (t + 1), e.2⟩ ∈ b.closedNodes
  edgesClosed : ∀ s ∈ b.closedEdges, ∃ t, s.untilRev = some (t + 1)
  nodesClosed : ∀ s ∈ b.closedNodes, ∃ t, s.untilRev = some (t + 1)

variable {h}

theorem stepEdge_injective (r : Nat) (k k' : EdgeKey) (hk : h.edgeAt r k) (hk' : h.edgeAt r k')
    (same : h.stepEdge r k = h.stepEdge r k') : k = k' :=
  stepKey_injective _ _ _ hk hk' same

theorem stepNode_injective (r : Nat) (x y : NodeId) (hx : h.nodeAt r x) (hy : h.nodeAt r y)
    (same : h.stepNode r x = h.stepNode r y) : x = y :=
  stepId_injective _ _ _ (.inl hx) (.inl hy) same

theorem spans_first {α β : Type} [LinearOrder α] {items : Nat → α → Prop} {step : Nat → α → α}
    {start : β → Nat} {told : Nat → α → β → Prop} {added : List α} {init : β}
    (initStart : start init = 0) (opened : ∀ z, z ∈ added ↔ items 0 z)
    (tellInit : ∀ z, items 0 z → told 0 z init) :
    Spans items step start told 0 (openSpans added init ∅) fun _ _ _ => False := by
  have get : ∀ (y : α) (b : β), (openSpans added init ∅)[y]? = some b ↔ items 0 y ∧ b = init := by
    intro y b
    rw [openSpans_get, ← opened]
    by_cases listed : y ∈ added
    · simp [listed, eq_comm]
    · simp [listed]
  refine ⟨?_, ?_, fun _ _ _ shut => shut.elim, ?_⟩
  · intro y
    simp [get]
  · intro y b held
    obtain ⟨there, rfl⟩ := (get y b).mp held
    refine ⟨⟨Nat.le_refl 0, ⟨y, ?_, ?_⟩, fun below => absurd below (Nat.lt_irrefl 0)⟩,
      tellInit y there⟩
    · rw [initStart]
      exact .here there
    · intro q same
      rw [initStart] at same
      exact absurd same (Nat.succ_ne_zero q).symm
  · intro r x below there
    obtain rfl := Nat.le_zero.mp below
    exact .inl ⟨x, init, (get x init).mpr ⟨there, rfl⟩, Nat.le_of_eq initStart, .here there⟩

theorem Told.opened {n : Nat} {id : NodeId} (there : h.nodeAt n id) : Told h n id (n, []) := by
  refine ⟨Nat.le_refl n, List.Pairwise.nil, by simp, fun r lower upper => ?_⟩
  obtain rfl := Nat.le_antisymm lower upper
  exact .here there

theorem new_spans : BuilderSpans h 0 (TimelineBuilder.new h.first) where
  rev := rfl
  edges := by
    have opened : ∀ k : EdgeKey,
        k ∈ (graphDelta {} h.first { moves := [] }).addedEdges ↔ h.edgeAt 0 k := by
      intro k
      rw [mem_addedEdges]
      exact and_iff_left (by rintro k' ⟨e, mem, _⟩; cases mem)
    have first : Spans h.edgeAt h.stepEdge id (fun _ _ _ => True) 0 (openSpans _ 0 ∅) _ :=
      spans_first rfl opened fun _ _ => trivial
    simpa [TimelineBuilder.new] using first
  nodes := by
    have opened : ∀ id : NodeId,
        id ∈ (graphDelta {} h.first { moves := [] }).addedNodes ↔ h.nodeAt 0 id := by
      intro id
      rw [mem_addedNodes]
      exact and_iff_left (by rintro b ⟨n, mem, _⟩; cases mem)
    have first : Spans h.nodeAt h.stepNode Prod.fst (Told h) 0 (openSpans _ (0, []) ∅) _ :=
      spans_first rfl opened fun _ there => Told.opened there
    simpa [TimelineBuilder.new] using first
  edgesClosed := by simp [TimelineBuilder.new]
  nodesClosed := by simp [TimelineBuilder.new]

theorem still_of_isEmpty {m : IdMap NodeId} (quiet : m.toList.isEmpty = true) (id : NodeId) :
    m[id]? = none := by
  rw [List.isEmpty_iff] at quiet
  rw [Option.eq_none_iff_forall_ne_some]
  intro a held
  have mem := OrdMap.mem_toList.mpr held
  rw [quiet] at mem
  cases mem

section Push
variable {n : Nat} {b : TimelineBuilder} (spans : BuilderSpans h n b) (fits : n + 1 ≤ maxRev)

def TimelineBuilder.pushFrom (h : Snapshots) (n : Nat) (b : TimelineBuilder) : TimelineBuilder :=
  b.push (h.side n) (h.side (n + 1)) (h.movesFrom n)

theorem moved_eq (h : Snapshots) (n : Nat) :
    gather Prod.fst (fun (p : NodeId × NodeId) _ => some p.2) ∅
      (graphDelta (h.side n) (h.side (n + 1)) { moves := h.movesFrom n }).movedNodes =
        appliedMoves (h.side n) (h.side (n + 1)) (h.movesFrom n) := by
  rw [movedNodes_eq, gather_toList]

include spans fits

theorem BuilderSpans.nextRev_eq : nextRev b.rev = n + 1 := by
  rw [nextRev, spans.rev, Nat.min_eq_left fits]

theorem BuilderSpans.pushEdges :
    Spans h.edgeAt h.stepEdge id (fun _ _ _ => True) (n + 1) (b.pushFrom h n).openEdges
      fun t k r => ⟨k, r, some (t + 1)⟩ ∈ (b.pushFrom h n).closedEdges := by
  have rev := spans.nextRev_eq fits
  have closed := (closeSpans_spec
    (graphDelta (h.side n) (h.side (n + 1)) { moves := h.movesFrom n }).removedEdges
    b.openEdges).2
  apply spans.edges.push (fun _ r => r) (n + 1) (fun _ _ => rfl) rfl
    (fun _ _ _ _ => trivial) (fun _ _ => trivial)
  · intro k r
    show (openSpans _ (nextRev b.rev) (if _ then _ else carryOpen
      (TimelineBuilder.carryEdge (gather _ _ _ _)) _))[k]? = some r ↔ _
    rw [rev, moved_eq]
    apply push_get (h.stepEdge n) (h.edgeAt n) (h.edgeAt (n + 1))
    · exact fun _ _ => rfl
    · intro quiet e
      rw [movedNodes_eq] at quiet
      have unmoved : remap (appliedMoves (h.side n) (h.side (n + 1)) (h.movesFrom n)) = id := by
        funext x
        rw [remap, still_of_isEmpty quiet]
        rfl
      rw [TimelineBuilder.carryEdge, unmoved]
      rfl
    · exact mem_removedEdges _ _ _
    · exact mem_addedEdges _ _ _
    · exact spans.edges.keys
    · exact stepEdge_injective n
  · intro t k r
    show _ ∈ b.closedEdges ++ _ ↔ _
    rw [List.mem_append, List.mem_map]
    apply or_congr_right
    constructor
    · rintro ⟨⟨k', r'⟩, mem, same⟩
      obtain ⟨shut, held⟩ := (closed k' r').mp mem
      rw [rev, EdgeSpan.mk.injEq, Option.some.injEq, Nat.add_right_cancel_iff] at same
      obtain ⟨rfl, rfl, rfl⟩ := same
      exact ⟨rfl, held, ((mem_removedEdges _ _ _ _).mp shut).2⟩
    · rintro ⟨rfl, held, gone⟩
      have present := (spans.edges.keys k).mp ⟨r, held⟩
      have shut := (mem_removedEdges _ _ (h.movesFrom t) _).mpr ⟨present, gone⟩
      exact ⟨(k, r), (closed k r).mpr ⟨shut, held⟩, by rw [rev]⟩

theorem BuilderSpans.pushNodes :
    Spans h.nodeAt h.stepNode Prod.fst (Told h) (n + 1) (b.pushFrom h n).openNodes
      fun t id e => ⟨id, e.1, some (t + 1), e.2⟩ ∈ (b.pushFrom h n).closedNodes := by
  have rev := spans.nextRev_eq fits
  have closed := (closeSpans_spec
    (graphDelta (h.side n) (h.side (n + 1)) { moves := h.movesFrom n }).removedNodes
    b.openNodes).2
  apply spans.nodes.push
    (advanceNode (appliedMoves (h.side n) (h.side (n + 1)) (h.movesFrom n)) (n + 1)) (n + 1, [])
    (fun _ _ => advanceNode_start _ _ _ _) rfl (fun _ _ told there => told.advance there)
    fun _ there => Told.opened there
  · intro id e
    show (openSpans _ (nextRev b.rev, []) (if _ then _ else carryOpen
      (TimelineBuilder.carryNode (gather _ _ _ _) (nextRev b.rev)) _))[id]? = some e ↔ _
    rw [rev, moved_eq]
    apply push_get (h.stepNode n) (h.nodeAt n) (h.nodeAt (n + 1))
    · intro y e
      rw [TimelineBuilder.carryNode, advanceNode, Snapshots.stepNode, stepId, remap]
      cases (appliedMoves (h.side n) (h.side (n + 1)) (h.movesFrom n))[y]? <;> rfl
    · intro quiet e
      rw [movedNodes_eq] at quiet
      rw [TimelineBuilder.carryNode, still_of_isEmpty quiet]
    · exact mem_removedNodes _ _ _
    · exact mem_addedNodes _ _ _
    · exact spans.nodes.keys
    · exact stepNode_injective n
  · intro t id e
    show _ ∈ b.closedNodes ++ _ ↔ _
    rw [List.mem_append, List.mem_map]
    apply or_congr_right
    constructor
    · rintro ⟨⟨id', e'⟩, mem, same⟩
      obtain ⟨shut, held⟩ := (closed id' e').mp mem
      rw [rev, NodeSpan.mk.injEq, Option.some.injEq, Nat.add_right_cancel_iff] at same
      obtain ⟨rfl, start, rfl, prior⟩ := same
      obtain rfl : e' = e := Prod.ext start prior
      exact ⟨rfl, held, ((mem_removedNodes _ _ _ _).mp shut).2⟩
    · rintro ⟨rfl, held, gone⟩
      have present := (spans.nodes.keys id).mp ⟨e, held⟩
      have shut := (mem_removedNodes _ _ (h.movesFrom t) _).mpr ⟨present, gone⟩
      exact ⟨(id, e), (closed id e).mpr ⟨shut, held⟩, by rw [rev]⟩

theorem BuilderSpans.push : BuilderSpans h (n + 1) (b.pushFrom h n) := by
  have rev := spans.nextRev_eq fits
  refine ⟨rev, spans.pushEdges fits, spans.pushNodes fits, ?_, ?_⟩
  · intro s mem
    obtain old | mem := List.mem_append.mp mem
    · exact spans.edgesClosed s old
    · obtain ⟨e, -, rfl⟩ := List.mem_map.mp mem
      exact ⟨n, congrArg some rev⟩
  · intro s mem
    obtain old | mem := List.mem_append.mp mem
    · exact spans.nodesClosed s old
    · obtain ⟨e, -, rfl⟩ := List.mem_map.mp mem
      exact ⟨n, congrArg some rev⟩

end Push

theorem pushAll_spans (rest : List TimelineBuilder.Push) {n : Nat} {b : TimelineBuilder}
    (left : h.pushes.drop n = rest) (spans : BuilderSpans h n b)
    (fits : h.pushes.length ≤ maxRev) :
    BuilderSpans h (n + rest.length) (b.pushAll (h.side n) rest) := by
  induction rest generalizing n b with
  | nil => exact spans
  | cons p rest ih =>
    have at_ : h.pushes[n]? = some p := by
      rw [← List.head?_drop, left]
      rfl
    have bound : n < h.pushes.length := (List.getElem?_eq_some_iff.mp at_).1
    have next : h.side (n + 1) = p.next := by rw [Snapshots.side, at_]; rfl
    have moves : h.movesFrom n = p.moves := by rw [Snapshots.movesFrom, at_]; rfl
    have pushed := spans.push (Nat.le_trans bound fits)
    have left' : h.pushes.drop (n + 1) = rest := by
      rw [← List.tail_drop, left]
      rfl
    have rest_ := ih left' pushed
    rw [TimelineBuilder.pushFrom, next, moves, Nat.succ_add_eq_add_succ] at rest_
    exact rest_

theorem builder_spans (fits : h.pushes.length ≤ maxRev) :
    BuilderSpans h h.pushes.length h.builder := by
  have all := pushAll_spans h.pushes rfl (new_spans (h := h)) fits
  rwa [Nat.zero_add] at all

end Builder

/-- A span with this end is last there at `t`, of snapshots up to `n`. -/
def EndsAt (n t : Nat) : Option Nat → Prop
  | none => t = n
  | some u => u = t + 1 ∧ t < n

section Finished
variable {h : Snapshots} (fits : h.pushes.length ≤ maxRev)

theorem mem_timeline_edges {s : EdgeSpan} : s ∈ h.timeline.edges ↔
    s ∈ h.builder.closedEdges ∨
      ∃ (k : EdgeKey) (r : Nat), h.builder.openEdges[k]? = some r ∧ s = ⟨k, r, none⟩ := by
  rw [Snapshots.timeline, TimelineBuilder.finish, (List.perm_insertionSort _ _).mem_iff,
    List.mem_append, List.mem_map]
  apply or_congr_right
  constructor
  · rintro ⟨⟨k, r⟩, mem, rfl⟩
    exact ⟨k, r, OrdMap.mem_toList.mp mem, rfl⟩
  · rintro ⟨k, r, held, rfl⟩
    exact ⟨(k, r), OrdMap.mem_toList.mpr held, rfl⟩

theorem mem_timeline_nodes {s : NodeSpan} : s ∈ h.timeline.nodes ↔
    s ∈ h.builder.closedNodes ∨ ∃ (id : NodeId) (e : NodeEntry),
      h.builder.openNodes[id]? = some e ∧ s = ⟨id, e.1, none, e.2⟩ := by
  rw [Snapshots.timeline, TimelineBuilder.finish, (List.perm_insertionSort _ _).mem_iff,
    List.mem_append, List.mem_map]
  apply or_congr_right
  constructor
  · rintro ⟨⟨id, e⟩, mem, rfl⟩
    exact ⟨id, e, OrdMap.mem_toList.mp mem, rfl⟩
  · rintro ⟨id, e, held, rfl⟩
    exact ⟨(id, e), OrdMap.mem_toList.mpr held, rfl⟩

include fits

theorem edgeSpan_lives {s : EdgeSpan} (mem : s ∈ h.timeline.edges) :
    ∃ t, EndsAt h.pushes.length t s.untilRev ∧
      Lives h.edgeAt h.stepEdge h.pushes.length s.fromRev t s.key := by
  have spans := builder_spans fits
  obtain closed | ⟨k, r, held, rfl⟩ := mem_timeline_edges.mp mem
  · obtain ⟨t, ends⟩ := spans.edgesClosed s closed
    obtain ⟨k, r, u⟩ := s
    obtain rfl : u = some (t + 1) := ends
    obtain ⟨below, lives, -⟩ := spans.edges.closedLives t k r closed
    exact ⟨t, ⟨rfl, below⟩, lives⟩
  · exact ⟨_, rfl, (spans.edges.liveLives k r held).1⟩

theorem nodeSpan_lives {s : NodeSpan} (mem : s ∈ h.timeline.nodes) :
    ∃ t, EndsAt h.pushes.length t s.untilRev ∧
      Lives h.nodeAt h.stepNode h.pushes.length s.fromRev t s.id ∧
        Told h t s.id (s.fromRev, s.priorIds) := by
  have spans := builder_spans fits
  obtain closed | ⟨id, e, held, rfl⟩ := mem_timeline_nodes.mp mem
  · obtain ⟨t, ends⟩ := spans.nodesClosed s closed
    obtain ⟨id, r, u, prior⟩ := s
    obtain rfl : u = some (t + 1) := ends
    obtain ⟨below, lives, told⟩ := spans.nodes.closedLives t id (r, prior) closed
    exact ⟨t, ⟨rfl, below⟩, lives, told⟩
  · exact ⟨_, rfl, spans.nodes.liveLives id e held⟩

theorem edge_covered {r : Nat} {k : EdgeKey} (below : r ≤ h.pushes.length) (there : h.edgeAt r k) :
    ∃ s ∈ h.timeline.edges, ∃ t, EndsAt h.pushes.length t s.untilRev ∧ s.fromRev ≤ r ∧
      Track h.edgeAt h.stepEdge r k t s.key := by
  have spans := builder_spans fits
  obtain ⟨y, r', held, started, track⟩ | ⟨t, y, r', closed, started, track⟩ :=
    spans.edges.covered r k below there
  · exact ⟨_, mem_timeline_edges.mpr (.inr ⟨y, r', held, rfl⟩), _, rfl, started, track⟩
  · exact ⟨_, mem_timeline_edges.mpr (.inl closed), t,
      ⟨rfl, (spans.edges.closedLives t y r' closed).1⟩, started, track⟩

theorem node_covered {r : Nat} {id : NodeId} (below : r ≤ h.pushes.length)
    (there : h.nodeAt r id) :
    ∃ s ∈ h.timeline.nodes, ∃ t, EndsAt h.pushes.length t s.untilRev ∧ s.fromRev ≤ r ∧
      Track h.nodeAt h.stepNode r id t s.id := by
  have spans := builder_spans fits
  obtain ⟨y, e, held, started, track⟩ | ⟨t, y, e, closed, started, track⟩ :=
    spans.nodes.covered r id below there
  · exact ⟨_, mem_timeline_nodes.mpr (.inr ⟨y, e, held, rfl⟩), _, rfl, started, track⟩
  · exact ⟨_, mem_timeline_nodes.mpr (.inl closed), t,
      ⟨rfl, (spans.nodes.closedLives t y e closed).1⟩, started, track⟩

end Finished

end Glia.Algo
