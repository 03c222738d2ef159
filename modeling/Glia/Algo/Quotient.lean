import Glia.Algo.Bfs
import Glia.Algo.ClassTableExact
import Glia.Kit.Dedup

/-! A graph with every class contracted to its representative, and the walks over it. -/
namespace Glia.Algo

open Kit

def firstOccurrences (ids : List NodeId) : List NodeId :=
  let order := ids.zipIdx.insertionSort fun a b => toLex a ≤ toLex b
  let keep := (dedupBy Prod.fst order).map Prod.snd
  (ids.zipIdx.filter fun e => e.2 ∈ keep).map Prod.fst

/-- The contracted graph, with the number of edges that fell inside a class. -/
structure Quotient where
  source : GraphSource
  collapsed : Nat

/-- Both ends in one class, and no self-loop before the contraction. -/
def intraClass (c : Classes) (e : Edge) : Bool :=
  c.rep e.fromId = c.rep e.toId ∧ e.fromId ≠ e.toId

/-- An edge between representatives, without its cells. -/
def contract (c : Classes) (e : Edge) : Edge :=
  { fromId := c.rep e.fromId, toId := c.rep e.toId, category := e.category,
    confidence := e.confidence }

def Quotient.new (inner : GraphSource) (c : Classes) : Quotient :=
  let s := inner.edges.foldl (fun s e =>
    if intraClass c e then (s.1, s.2 + 1) else (s.1 ++ [contract c e], s.2)) ([], 0)
  { source := { nodeIds := firstOccurrences (inner.nodeIds.map c.rep), edges := s.1 }
    collapsed := s.2 }

section First

instance : IsTrans (NodeId × Nat) fun a b => toLex a ≤ toLex b := ⟨fun _ _ _ h h' => h.trans h'⟩

instance : Std.Total fun a b : NodeId × Nat => toLex a ≤ toLex b :=
  ⟨fun a b => le_total (toLex a) (toLex b)⟩

theorem mem_keep {l : List (NodeId × Nat)} (e : NodeId × Nat) :
    e ∈ dedupBy Prod.fst (l.insertionSort fun a b => toLex a ≤ toLex b) ↔
      e ∈ l ∧ ∀ b ∈ l, b.1 = e.1 → e.2 ≤ b.2 := by
  have anti : ∀ a b : NodeId × Nat, toLex a ≤ toLex b → toLex b ≤ toLex a → a = b :=
    fun a b h h' => toLex.injective (le_antisymm h h')
  have byId : ∀ a b : NodeId × Nat, toLex a ≤ toLex b → Prod.fst a ≤ Prod.fst b :=
    fun a b h => (Prod.Lex.le_iff.mp h).elim le_of_lt fun same => same.1.le
  rw [mem_dedup_sorted anti byId]
  apply and_congr_right
  intro _
  apply forall_congr'
  intro b
  apply forall_congr'
  intro _
  constructor
  · intro h same
    rcases Prod.Lex.le_iff.mp (h same) with lt | ⟨_, le⟩
    · exact absurd same.symm lt.ne
    · exact le
  · intro h same
    exact Prod.Lex.le_iff.mpr (.inr ⟨same.symm, h same⟩)

theorem firstsAfter_zipIdx (seen : Finset NodeId) (l : List NodeId) (k : Nat) :
    firstsAfter id seen l = ((l.zipIdx k).filter fun e =>
      e.1 ∉ seen ∧ ∀ b ∈ l.zipIdx k, b.1 = e.1 → e.2 ≤ b.2).map Prod.fst := by
  induction l generalizing seen k with
  | nil => rfl
  | cons a rest ih =>
    have later : ∀ e ∈ rest.zipIdx (k + 1), k < e.2 := by
      intro e mem
      have := List.le_snd_of_mem_zipIdx mem
      omega
    have first : ∀ b ∈ (a, k) :: rest.zipIdx (k + 1), b.1 = a → k ≤ b.2 := by
      intro b mem _
      rcases List.mem_cons.mp mem with rfl | mem
      · exact le_rfl
      · exact (later b mem).le
    have tail : ∀ e ∈ rest.zipIdx (k + 1),
        ((e.1 ∉ seen ∧ ∀ b ∈ (a, k) :: rest.zipIdx (k + 1), b.1 = e.1 → e.2 ≤ b.2) ↔
          e.1 ∉ insert a seen ∧ ∀ b ∈ rest.zipIdx (k + 1), b.1 = e.1 → e.2 ≤ b.2) := by
      intro e mem
      have lt := later e mem
      rw [List.forall_mem_cons, Finset.mem_insert, not_or]
      constructor
      · rintro ⟨out, head, rest'⟩
        refine ⟨⟨fun same => ?_, out⟩, rest'⟩
        have := head same.symm
        dsimp only at this
        omega
      · rintro ⟨⟨other, out⟩, rest'⟩
        exact ⟨out, fun same => absurd same.symm other, rest'⟩
    have tailFilter : (rest.zipIdx (k + 1)).filter (fun e =>
        e.1 ∉ seen ∧ ∀ b ∈ (a, k) :: rest.zipIdx (k + 1), b.1 = e.1 → e.2 ≤ b.2) =
        (rest.zipIdx (k + 1)).filter fun e =>
          e.1 ∉ insert a seen ∧ ∀ b ∈ rest.zipIdx (k + 1), b.1 = e.1 → e.2 ≤ b.2 := by
      apply List.filter_congr
      intro e mem
      exact decide_eq_decide.mpr (tail e mem)
    rw [List.zipIdx_cons, firstsAfter]
    dsimp only [id_eq]
    by_cases held : a ∈ seen
    · have same : insert a seen = seen := Finset.insert_eq_self.mpr held
      rw [same] at tailFilter
      rw [if_pos held, ih seen (k + 1), List.filter_cons_of_neg (by simp [held]), tailFilter]
    · rw [if_neg held, ih (insert a seen) (k + 1),
        List.filter_cons_of_pos (by
          apply decide_eq_true
          exact ⟨held, first⟩), tailFilter]
      rfl

theorem firstOccurrences_eq (ids : List NodeId) : firstOccurrences ids = firsts id ids := by
  unfold firstOccurrences firsts
  rw [firstsAfter_zipIdx ∅ ids 0]
  dsimp only
  congr 1
  apply List.filter_congr
  intro e mem
  apply decide_eq_decide.mpr
  have kept := mem_keep (l := ids.zipIdx)
  constructor
  · intro held
    obtain ⟨e', memE, same⟩ := List.mem_map.mp held
    obtain ⟨there, least⟩ := (kept e').mp memE
    have one : e' = e := by
      have at' := List.mem_zipIdx_iff_getElem?.mp there
      have at'' := List.mem_zipIdx_iff_getElem?.mp mem
      rw [same, at''] at at'
      exact Prod.ext (Option.some.inj at').symm same
    exact ⟨Finset.notMem_empty _, one ▸ least⟩
  · rintro ⟨_, least⟩
    exact List.mem_map_of_mem ((kept e).mpr ⟨mem, least⟩)

end First

section New
variable (inner : GraphSource) (c : Classes)

/-- The contraction keeps the edges outside classes, in order, and counts the rest. -/
theorem new_edges : (Quotient.new inner c).source.edges =
      (inner.edges.filter fun e => !intraClass c e).map (contract c) ∧
    (Quotient.new inner c).collapsed = (inner.edges.filter (intraClass c)).length := by
  have fold : ∀ (es kept : List Edge) (n : Nat), es.foldl (fun s e =>
      if intraClass c e then (s.1, s.2 + 1) else (s.1 ++ [contract c e], s.2)) (kept, n) =
      (kept ++ (es.filter fun e => !intraClass c e).map (contract c),
        n + (es.filter (intraClass c)).length) := by
    intro es
    induction es with
    | nil => simp
    | cons e rest ih =>
      intro kept n
      rw [List.foldl_cons]
      cases inside : intraClass c e with
      | true =>
        rw [if_pos rfl, ih, List.filter_cons_of_pos inside,
          List.filter_cons_of_neg (by simp [inside]), List.length_cons, Nat.add_assoc,
          Nat.add_comm 1]
      | false =>
        have out : ¬ intraClass c e = true := by rw [inside]; exact Bool.false_ne_true
        rw [if_neg Bool.false_ne_true, ih, List.filter_cons_of_neg out]
        simp [inside]
  unfold Quotient.new
  dsimp only
  rw [fold]
  exact ⟨rfl, Nat.zero_add _⟩

theorem new_nodes : (Quotient.new inner c).source.nodeIds = firsts id (inner.nodeIds.map c.rep) :=
  firstOccurrences_eq _

end New

section Walks
variable (inner : GraphSource) (c : Classes) (keep : CategorySet) (walk : Walk)

/-- A walk of `n` edges along which moving between members of one class is free. -/
inductive Crossing : Nat → NodeId → NodeId → Prop where
  | start (a : NodeId) : Crossing 0 a a
  | cross {n : Nat} {a b d : NodeId} {s : List NodeId} : Crossing n a b → s ∈ c.sets → b ∈ s →
      d ∈ s → Crossing n a d
  | edge {n : Nat} {a b d : NodeId} : Crossing n a b → StepAlong inner keep walk b d →
      Crossing (n + 1) a d

variable {inner c keep walk}

theorem Crossing.same {n : Nat} {a b d : NodeId} (way : Crossing inner c keep walk n a b)
    (one : c.rep b = c.rep d) : Crossing inner c keep walk n a d := by
  rcases (c.rep_eq_iff b d).mp one with rfl | ⟨s, mem, memB, memD⟩
  · exact way
  · exact way.cross mem memB memD

theorem follows_contract {e : Edge} {a b : NodeId} (h : Follows walk e a b) :
    Follows walk (contract c e) (c.rep a) (c.rep b) := by
  unfold Follows contract at *
  cases walk with
  | forward =>
    obtain ⟨rfl, rfl⟩ := h
    exact ⟨rfl, rfl⟩
  | backward =>
    obtain ⟨rfl, rfl⟩ := h
    exact ⟨rfl, rfl⟩
  | both =>
    rcases h with ⟨rfl, rfl⟩ | ⟨rfl, rfl⟩
    · exact .inl ⟨rfl, rfl⟩
    · exact .inr ⟨rfl, rfl⟩

theorem of_follows_contract {e : Edge} {x y : NodeId} (h : Follows walk (contract c e) x y) :
    ∃ a b, c.rep a = x ∧ c.rep b = y ∧ Follows walk e a b := by
  unfold Follows contract at *
  cases walk with
  | forward =>
    obtain ⟨rfl, rfl⟩ := h
    exact ⟨_, _, rfl, rfl, rfl, rfl⟩
  | backward =>
    obtain ⟨rfl, rfl⟩ := h
    exact ⟨_, _, rfl, rfl, rfl, rfl⟩
  | both =>
    rcases h with ⟨rfl, rfl⟩ | ⟨rfl, rfl⟩
    · exact ⟨_, _, rfl, rfl, .inl ⟨rfl, rfl⟩⟩
    · exact ⟨_, _, rfl, rfl, .inr ⟨rfl, rfl⟩⟩

theorem mem_keptEdges_new {e' : Edge} : e' ∈ (Quotient.new inner c).source.keptEdges keep ↔
    ∃ e ∈ inner.keptEdges keep, intraClass c e = false ∧ contract c e = e' := by
  unfold GraphSource.keptEdges
  rw [(new_edges inner c).1, List.mem_filter, List.mem_map]
  constructor
  · rintro ⟨⟨e, mem, rfl⟩, kept⟩
    obtain ⟨given, outside⟩ := List.mem_filter.mp mem
    exact ⟨e, List.mem_filter.mpr ⟨given, kept⟩, by simpa using outside, rfl⟩
  · rintro ⟨e, mem, outside, rfl⟩
    obtain ⟨given, kept⟩ := List.mem_filter.mp mem
    exact ⟨⟨e, List.mem_filter.mpr ⟨given, by simpa using outside⟩, rfl⟩, kept⟩

theorem step_contract {a b : NodeId} (h : StepAlong inner keep walk a b) :
    c.rep a = c.rep b ∨
      StepAlong (Quotient.new inner c).source keep walk (c.rep a) (c.rep b) := by
  obtain ⟨e, mem, follows⟩ := h
  cases inside : intraClass c e with
  | true =>
    have one : c.rep e.fromId = c.rep e.toId := (of_decide_eq_true inside).1
    left
    unfold Follows at follows
    cases walk with
    | forward =>
      obtain ⟨rfl, rfl⟩ := follows
      exact one
    | backward =>
      obtain ⟨rfl, rfl⟩ := follows
      exact one.symm
    | both =>
      rcases follows with ⟨rfl, rfl⟩ | ⟨rfl, rfl⟩
      · exact one
      · exact one.symm
  | false =>
    exact .inr ⟨contract c e, mem_keptEdges_new.mpr ⟨e, mem, inside, rfl⟩,
      follows_contract follows⟩

theorem crossing_of_hops {n : Nat} {a y : NodeId}
    (way : Hops (StepAlong (Quotient.new inner c).source keep walk) n (c.rep a) (c.rep y)) :
    Crossing inner c keep walk n a y := by
  induction n generalizing y with
  | zero => exact (Crossing.start a).same way
  | succ n ih =>
    obtain ⟨z, before, e', mem, follows⟩ := way
    obtain ⟨e, memE, _, rfl⟩ := mem_keptEdges_new.mp mem
    obtain ⟨b, d, rfl, last, step⟩ := of_follows_contract follows
    exact ((ih before).edge ⟨e, memE, step⟩).same last

theorem hops_of_crossing {n : Nat} {a y : NodeId} (way : Crossing inner c keep walk n a y) :
    ∃ m ≤ n, Hops (StepAlong (Quotient.new inner c).source keep walk) m (c.rep a) (c.rep y) := by
  induction way with
  | start a => exact ⟨0, le_rfl, rfl⟩
  | cross _ mem memB memD ih =>
    obtain ⟨m, le, hops⟩ := ih
    have one := (c.rep_eq_iff _ _).mpr (.inr ⟨_, mem, memB, memD⟩)
    exact ⟨m, le, one ▸ hops⟩
  | edge _ step ih =>
    obtain ⟨m, le, hops⟩ := ih
    rcases step_contract step with one | next
    · exact ⟨m, by omega, one ▸ hops⟩
    · exact ⟨m + 1, by omega, _, hops, next⟩

theorem dist_contract (seeds : List NodeId) (y : NodeId) (k : Nat) :
    Kit.Dist (StepAlong (Quotient.new inner c).source keep walk) {s | s ∈ seeds.map c.rep} (c.rep y) k ↔
      IsLeast {n | ∃ s ∈ seeds, Crossing inner c keep walk n s y} k := by
  have toCrossing : ∀ n, (∃ s ∈ {s | s ∈ seeds.map c.rep},
      Hops (StepAlong (Quotient.new inner c).source keep walk) n s (c.rep y)) →
      ∃ s ∈ seeds, Crossing inner c keep walk n s y := by
    rintro n ⟨s, mem, way⟩
    obtain ⟨a, memA, rfl⟩ := List.mem_map.mp mem
    exact ⟨a, memA, crossing_of_hops way⟩
  have toHops : ∀ n, (∃ s ∈ seeds, Crossing inner c keep walk n s y) →
      ∃ m ≤ n, ∃ s ∈ {s | s ∈ seeds.map c.rep},
        Hops (StepAlong (Quotient.new inner c).source keep walk) m s (c.rep y) := by
    rintro n ⟨s, mem, way⟩
    obtain ⟨m, le, hops⟩ := hops_of_crossing way
    exact ⟨m, le, c.rep s, List.mem_map_of_mem mem, hops⟩
  constructor
  · rintro ⟨reached, least⟩
    refine ⟨toCrossing k reached, fun n way => ?_⟩
    obtain ⟨m, le, hops⟩ := toHops n way
    exact (least hops).trans le
  · rintro ⟨reached, least⟩
    obtain ⟨m, le, hops⟩ := toHops k reached
    have same : m = k := le_antisymm le (least (toCrossing m hops))
    exact ⟨same ▸ hops, fun n way => least (toCrossing n way)⟩

end Walks

end Glia.Algo
