import Glia.Algo.ReachParents
import Glia.Rules.ClosurePath
import Glia.Rules.SccExact

/-! An explained walk is a shortest one: the parents a layered walk reports lead back to a
seed, and each hop between a node and its parent is an edge walkable at the level. -/
namespace Glia.Rules

open Algo Kit

def HopsMeet : List Hop → NodeId → NodeId → Prop
  | [], x, y => x = y
  | h :: rest, x, y => h.fromId = x ∧ HopsMeet rest h.toId y

theorem hopsMeet_append_single (hops : List Hop) (h : Hop) (x y : NodeId) :
    HopsMeet (hops ++ [h]) x y ↔ HopsMeet hops x h.fromId ∧ h.toId = y := by
  induction hops generalizing x with
  | nil => exact Iff.and eq_comm Iff.rfl
  | cons a rest ih => simp only [List.cons_append, HopsMeet, ih, and_assoc]

section Record

variable {ix : CatIndex}

def noteReport (ix : CatIndex) (table : List (Option Nat)) (r : LevelReached × Nat) :
    List (Option Nat) :=
  match ix.adj.indexOf r.1.id with
  | some at' => table.set at' (some r.2)
  | none => table

theorem noteReport_length (table : List (Option Nat)) (r : LevelReached × Nat) :
    (noteReport ix table r).length = table.length := by
  unfold noteReport
  split <;> simp

theorem noteReport_other {table : List (Option Nat)} {r : LevelReached × Nat} {v : Nat}
    (ne : ix.adj.indexOf r.1.id ≠ some v) : (noteReport ix table r)[v]? = table[v]? := by
  unfold noteReport
  split
  · rename_i at' found
    rw [List.getElem?_set_ne]
    rintro rfl
    exact ne found
  · rfl

theorem noteReports_other {reports : List (LevelReached × Nat)} {v : Nat}
    (none' : ∀ r ∈ reports, ix.adj.indexOf r.1.id ≠ some v) (table : List (Option Nat)) :
    (reports.foldl (noteReport ix) table)[v]? = table[v]? := by
  induction reports generalizing table with
  | nil => rfl
  | cons r rest ih =>
    rw [List.foldl_cons, ih fun r mem => none' r (List.mem_cons_of_mem _ mem)]
    exact noteReport_other (none' r List.mem_cons_self)

theorem noteReports_at {reports : List (LevelReached × Nat)} {v i : Nat}
    (some' : ∃ r ∈ reports, ix.adj.indexOf r.1.id = some v)
    (only : ∀ r ∈ reports, ix.adj.indexOf r.1.id = some v → r.2 = i) {table : List (Option Nat)}
    (lt : v < table.length) : (reports.foldl (noteReport ix) table)[v]? = some (some i) := by
  induction reports generalizing table with
  | nil =>
    obtain ⟨r, mem, _⟩ := some'
    cases mem
  | cons r rest ih =>
    rw [List.foldl_cons]
    by_cases later : ∃ r ∈ rest, ix.adj.indexOf r.1.id = some v
    · refine ih later (fun r mem => only r (List.mem_cons_of_mem _ mem)) ?_
      rwa [noteReport_length]
    · simp only [not_exists, not_and] at later
      rw [noteReports_other later]
      obtain ⟨r', mem, found⟩ := some'
      rcases List.mem_cons.mp mem with rfl | mem
      · unfold noteReport
        rw [found]
        simp only
        rw [List.getElem?_set_self lt, only r' List.mem_cons_self found]
      · exact absurd found (later r' mem)

theorem record_report {reached : List LevelReached}
    (once : (reached.map LevelReached.id).Nodup) {r : LevelReached} (mem : r ∈ reached) {v : Nat}
    (lt : v < ix.adj.len) (eq : r.id = ix.adj.id v) :
    ((ix.record reached)[v]?.bind id).bind (fun i => reached[i]?) = some r := by
  obtain ⟨i, at'⟩ := List.mem_iff_getElem?.mp mem
  have found : ix.adj.indexOf r.id = some v := by rw [eq, ix.adj.indexOf_id lt]
  have table : (ix.record reached)[v]? = some (some i) := by
    refine noteReports_at ⟨(r, i), List.mem_zipIdx_iff_getElem?.mpr at', found⟩ ?_
      (by rwa [List.length_replicate])
    rintro ⟨r', j⟩ there found'
    have at'' := List.mem_zipIdx_iff_getElem?.mp there
    have same : r'.id = r.id := by
      rw [← ix.adj.id_of_indexOf found', ← ix.adj.id_of_indexOf found]
    obtain ⟨ltJ, eqJ⟩ := List.getElem?_eq_some_iff.mp at''
    obtain ⟨ltI, eqI⟩ := List.getElem?_eq_some_iff.mp at'
    have ltJ' : j < (reached.map LevelReached.id).length := by simpa using ltJ
    have ltI' : i < (reached.map LevelReached.id).length := by simpa using ltI
    have same' : (reached.map LevelReached.id)[j] = (reached.map LevelReached.id)[i] := by
      rw [List.getElem_map, List.getElem_map, eqJ, eqI, same]
    exact once.getElem_inj_iff.mp same'
  rw [table]
  exact at'

end Record

section Hop

instance : IsTrans Pair Pair.le := ⟨fun _ _ _ h h' => le_trans h h'⟩

instance : Std.Total Pair.le := ⟨fun _ _ => le_total _ _⟩

theorem head_dropWhile_le {α : Type*} {r : α → α → Prop} {l : List α} (sorted : l.Pairwise r)
    {f : α → Bool} {q : α} (mem : q ∈ l) (stop : f q = false) :
    ∃ p, (l.dropWhile f).head? = some p ∧ f p = false ∧ (p = q ∨ r p q) := by
  induction l with
  | nil => cases mem
  | cons a rest ih =>
    rw [List.pairwise_cons] at sorted
    rw [List.dropWhile_cons]
    by_cases go : f a = true
    · rw [if_pos go]
      rcases List.mem_cons.mp mem with rfl | mem
      · rw [go] at stop
        cases stop
      · exact ih sorted.2 mem
    · rw [if_neg go]
      refine ⟨a, rfl, by simpa using go, ?_⟩
      rcases List.mem_cons.mp mem with rfl | mem
      · exact .inl rfl
      · exact .inr (sorted.1 q mem)

variable {src : FactSource} {cats : CatSet}

theorem mem_sortedPairs {p : Pair} (mem : p ∈ (setIndex src cats).sortedPairs src) :
    ∃ e, (src.keptEdges (keepOf src cats))[p.kept]? = some e ∧
      (setIndex src cats).adj.indexOf e.fromId = some p.fromIx ∧
      (setIndex src cats).adj.indexOf e.toId = some p.toIx ∧
      p.level = (setIndex src cats).keptLevel.getD p.kept never ∧ p.category = e.category := by
  simp only [CatIndex.sortedPairs, List.mem_insertionSort, List.mem_map] at mem
  obtain ⟨q, mem, rfl⟩ := mem
  simp only [CatIndex.rawPairs, List.mem_filterMap, Option.bind_eq_some_iff,
    Option.map_eq_some_iff] at mem
  obtain ⟨⟨e, j⟩, there, a, hasA, b, hasB, rfl⟩ := mem
  exact ⟨e, List.mem_zipIdx_iff_getElem?.mp there, hasA, hasB, rfl, rfl⟩

theorem exists_sortedPair {j : Nat} {e : Edge} {a b : Nat}
    (at' : (src.keptEdges (keepOf src cats))[j]? = some e)
    (hasA : (setIndex src cats).adj.indexOf e.fromId = some a)
    (hasB : (setIndex src cats).adj.indexOf e.toId = some b) :
    ∃ p ∈ (setIndex src cats).sortedPairs src, p.fromIx = a ∧ p.toIx = b ∧
      p.level = (setIndex src cats).keptLevel.getD j never := by
  have raw : (⟨a, b, (setIndex src cats).keptLevel.getD j never, 0, j, e.category⟩ : Pair) ∈
      (setIndex src cats).rawPairs src := by
    simp only [CatIndex.rawPairs, List.mem_filterMap, Option.bind_eq_some_iff,
      Option.map_eq_some_iff]
    exact ⟨(e, j), List.mem_zipIdx_iff_getElem?.mpr at', a, hasA, b, hasB, rfl⟩
  exact ⟨_, (List.mem_insertionSort _).mpr (List.mem_map_of_mem raw), rfl, rfl, rfl⟩

variable (src cats) in
def Hop.Kept (h : Hop) : Prop :=
  ∃ i e, src.edges[i]? = some e ∧ (keepOf src cats).contains e.category = true ∧
    e.fromId = h.fromId ∧ e.toId = h.toId ∧ e.category = h.category ∧
    src.edgeTier i e = h.tier ∧ h.ordinal = min i indexLimit

theorem hop_kept {a b : Nat} {level : Tier} {h : Hop}
    (hop : (setIndex src cats).hop src a b level.level = some h) :
    h.Kept src cats ∧ h.tier ≤ level ∧ h.fromId = (setIndex src cats).adj.id a ∧
      h.toId = (setIndex src cats).adj.id b := by
  simp only [CatIndex.hop, Option.bind_eq_some_iff, Option.filter_eq_some_iff,
    Option.map_eq_some_iff, decide_eq_true_eq, tierOfLevel_eq_some] at hop
  obtain ⟨p, ⟨first, rfl, rfl, low⟩, tier, eq, rfl⟩ := hop
  have mem : p ∈ (setIndex src cats).sortedPairs src :=
    (List.dropWhile_sublist _).subset (List.mem_of_mem_head? first)
  obtain ⟨e, at', hasA, hasB, level', cat⟩ := mem_sortedPairs mem
  obtain ⟨i, kept, tier'⟩ := (kept_level_iff src cats p.kept p.level e).mp ⟨at', level'.symm⟩
  have inside := List.mem_of_getElem? kept
  simp only [keptWithOrdinal, List.mem_filter, List.mem_zipIdx_iff_getElem?] at inside
  refine ⟨⟨i, e, inside.1, inside.2, ?_, ?_, cat.symm, ?_, ?_⟩, ?_, rfl, rfl⟩
  · exact ((setIndex src cats).adj.id_of_indexOf hasA).symm
  · exact ((setIndex src cats).adj.id_of_indexOf hasB).symm
  · rw [edgeTiers_getElem?, inside.1] at tier'
    simp only [Option.map_some, Option.getD_some] at tier'
    exact Tier.level_injective (tier'.trans eq)
  · show ((keptWithOrdinal src.toGraphSource (keepOf src cats)).map
      fun e => min e.2 indexLimit).getD p.kept indexLimit = min i indexLimit
    rw [List.getD_eq_getElem?_getD, List.getElem?_map, kept]
    rfl
  · rw [Tier.le_iff_level, ← eq]
    exact low

theorem exists_hop {a b : Nat} (ltA : a < (setIndex src cats).adj.len)
    (ltB : b < (setIndex src cats).adj.len) {level : Tier}
    (joins : Link src cats level ((setIndex src cats).adj.id a) ((setIndex src cats).adj.id b)) :
    ∃ h, (setIndex src cats).hop src a b level.level = some h := by
  obtain ⟨j, e, at', eqA, eqB, low⟩ := (joins_iff src cats level _ _).mpr joins
  obtain ⟨q, mem, qa, qb, ql⟩ := exists_sortedPair at'
    (by rw [eqA, (setIndex src cats).adj.indexOf_id ltA])
    (by rw [eqB, (setIndex src cats).adj.indexOf_id ltB])
  have sorted : ((setIndex src cats).sortedPairs src).Pairwise Pair.le :=
    List.pairwise_insertionSort _ _
  obtain ⟨p, first, stop, least⟩ := head_dropWhile_le sorted mem
    (f := fun p => decide (toLex (p.fromIx, p.toIx) < toLex (a, b)))
    (by rw [qa, qb]; exact decide_eq_false (lt_irrefl _))
  have below : Pair.le p q := least.elim (fun eq => eq ▸ le_refl _) id
  have ends : toLex (p.fromIx, p.toIx) ≤ toLex (a, b) := by
    rw [← qa, ← qb]
    exact (Prod.Lex.toLex_le_toLex.mp below).elim le_of_lt fun eq => eq.1.le
  have same : toLex (p.fromIx, p.toIx) = toLex (a, b) :=
    ends.eq_of_not_lt (of_decide_eq_false stop)
  obtain ⟨rfl, rfl⟩ := Prod.mk.inj (toLex.injective same)
  have low' : p.level ≤ level.level := by
    refine le_trans ?_ (ql.trans_le low)
    rcases Prod.Lex.toLex_le_toLex.mp below with lt | ⟨_, rest⟩
    · simp only at lt
      rw [qa, qb] at lt
      exact absurd lt (lt_irrefl _)
    · exact (Prod.Lex.toLex_le_toLex.mp rest).elim le_of_lt fun eq => eq.1.le
  obtain ⟨t, ht⟩ := exists_tier_of_lt (low'.trans_lt (tier_level_lt level))
  unfold CatIndex.hop
  dsimp only
  rw [first, Option.filter_some, if_pos (by simpa using low'), Option.bind_some,
    (tierOfLevel_eq_some p.level t).mpr ht.symm, Option.map_some]
  exact ⟨_, rfl⟩

end Hop

section Chase

variable (src : FactSource) (cats : CatSet) (level : Tier) (backward : Bool)

def rankedHow : LevelWalk :=
  { LevelWalk.new (direction backward) 1 with
    plus := true, parentRank := some ((setIndex src cats).rank src) }

def admitted : List Nat :=
  (setIndex src cats).keptLevel.map fun l => if l ≤ level.level then 0 else never

variable {src cats level backward}

theorem admitted_joins (a b : NodeId) :
    Joins src.toGraphSource (keepOf src cats) (admitted src cats level) 0 a b ↔
      Link src cats level a b := by
  have low := tier_level_lt level
  rw [← joins_iff]
  refine exists_congr fun j => exists_congr fun e => ?_
  refine and_congr_right fun _ => and_congr_right fun _ => and_congr_right fun _ => ?_
  unfold admitted
  rw [List.getD_eq_getElem?_getD, List.getD_eq_getElem?_getD, List.getElem?_map]
  cases (setIndex src cats).keptLevel[j]? with
  | none =>
    simp only [Option.map_none, Option.getD_none, never]
    omega
  | some l =>
    simp only [Option.map_some, Option.getD_some, never]
    split <;> omega

theorem admitted_along (a b : NodeId) :
    JoinsAlong src.toGraphSource (keepOf src cats) (admitted src cats level) (direction backward)
        0 a b ↔ if backward then Link src cats level b a else Link src cats level a b := by
  cases backward
  · exact admitted_joins a b
  · exact admitted_joins b a

theorem rankedHow_oneWay : (rankedHow src cats backward).walk ≠ .both := by
  show direction backward ≠ .both
  cases backward <;> decide

theorem rankedHow_agree (fits : Indexable src cats) :
    lengthsAgree (setIndex src cats).adj (admitted src cats level)
      (rankedHow src cats backward) = true := by
  have holds := (Adjacency.build_holds fits).1.length_eq
  have levels := @keptLevel_length src cats
  simp only [lengthsAgree, rankedHow, LevelWalk.new, Adjacency.keptEdges, Bool.and_true,
    Bool.and_eq_true, beq_iff_eq, admitted, List.length_map]
  exact ⟨levels.trans holds.symm, by simp [CatIndex.rank]⟩

abbrev Steps (src : FactSource) (cats : CatSet) (level : Tier) (backward : Bool) : Nat → Nat → Prop :=
  Walkable (setIndex src cats).adj (admitted src cats level) (rankedHow src cats backward) 0

theorem steps_iff (fits : Indexable src cats) (u v : Nat) : Steps src cats level backward u v ↔
    u < (setIndex src cats).adj.len ∧ v < (setIndex src cats).adj.len ∧
      if backward then Link src cats level ((setIndex src cats).adj.id v) ((setIndex src cats).adj.id u)
      else Link src cats level ((setIndex src cats).adj.id u) ((setIndex src cats).adj.id v) := by
  rw [← admitted_along]
  exact walkable_iff fits rfl rankedHow_oneWay 0 u v

theorem exists_stepHop (fits : Indexable src cats) {u v : Nat}
    (step : Steps src cats level backward u v) :
    ∃ h : Hop, (if backward then (setIndex src cats).hop src v u level.level
      else (setIndex src cats).hop src u v level.level) = some h ∧
      h.Kept src cats ∧ h.tier ≤ level ∧
      if backward then h.fromId = (setIndex src cats).adj.id v ∧ h.toId = (setIndex src cats).adj.id u
      else h.fromId = (setIndex src cats).adj.id u ∧ h.toId = (setIndex src cats).adj.id v := by
  obtain ⟨ltU, ltV, link⟩ := (steps_iff fits u v).mp step
  cases backward
  · obtain ⟨h, eq⟩ := exists_hop ltU ltV link
    obtain ⟨kept, low, ends⟩ := hop_kept eq
    exact ⟨h, eq, kept, low, ends⟩
  · obtain ⟨h, eq⟩ := exists_hop ltV ltU link
    obtain ⟨kept, low, ends⟩ := hop_kept eq
    exact ⟨h, eq, kept, low, ends⟩

theorem setIndex_len (fits : Indexable src cats) :
    (setIndex src cats).adj.len ≤ indexLimit := by
  have holds := (Adjacency.build_holds fits).2
  refine le_trans ?_ fits.1
  rw [Adjacency.len, ← List.toFinset_card_of_nodup (setIndex src cats).adj.ids_nodup]
  exact Finset.card_le_card fun x hx => (holds x).mp (List.mem_toFinset.mp hx)

/-- The reports an explanation reads its parents off. -/
abbrev pathReached (src : FactSource) (cats : CatSet) (level : Tier) (backward : Bool)
    (seeds : List NodeId) : List LevelReached :=
  (bfsLevels (setIndex src cats).adj (admitted src cats level) (rankedHow src cats backward)
    (seeds.map fun s => (s, 0))).reached

abbrev pathStart (src : FactSource) (cats : CatSet) (backward : Bool) (seeds : List NodeId) : Set Nat :=
  Started (startSeeds (setIndex src cats).adj (rankedHow src cats backward)
    (seeds.map fun s => (s, 0))) 0

theorem mem_pathStart (seeds : List NodeId) (v : Nat) :
    v ∈ pathStart src cats backward seeds ↔
      ∃ s ∈ seeds, (setIndex src cats).adj.indexOf s = some v := by
  refine (startSeeds_started (rankedHow src cats backward) _ (by decide : 0 < 1) v).trans ?_
  simp only [List.mem_map, Prod.mk.injEq]
  constructor
  · rintro ⟨_, _, ⟨s, mem, rfl, rfl⟩, at', _⟩
    exact ⟨s, mem, at'⟩
  · rintro ⟨s, mem, at'⟩
    exact ⟨s, 0, ⟨s, mem, rfl, rfl⟩, at', rfl, le_rfl⟩

theorem pathReached_front (fits : Indexable src cats) {seeds : List NodeId} {n v : Nat}
    (front : v ∈ Front (Steps src cats level backward) (pathStart src cats backward seeds) (n + 1)) :
    v < (setIndex src cats).adj.len ∧ ∃ r ∈ pathReached src cats level backward seeds,
      r.id = (setIndex src cats).adj.id v ∧ r.depth = n + 1 ∧ ∃ u,
        (setIndex src cats).adj.indexOf r.parent = some u ∧
        u ∈ Front (Steps src cats level backward) (pathStart src cats backward seeds) n ∧
        Steps src cats level backward u v := by
  have lt : v < (setIndex src cats).adj.len := within_indexes _ _ _ _ _ front.1
  have deep : (setIndex src cats).adj.len ≤ (rankedHow src cats backward).maxDepth :=
    (setIndex_len fits).trans (by show indexLimit ≤ usizeMax; decide)
  obtain ⟨r, there, eqId, _, depth, u, parent, frontU, step⟩ :=
    exists_report (rankedHow_agree fits) Nat.one_pos deep _ front (.inl rfl)
  refine ⟨lt, r, there, eqId, depth, u, ?_, frontU, step⟩
  rw [parent, (setIndex src cats).adj.indexOf_id ((steps_iff fits u v).mp step).1]

/-- Following the parents of a node first reached at depth `n + 1` shows a walk of `n + 1`
hops from a seed. -/
theorem chase_walk (fits : Indexable src cats) {seeds : List NodeId} (n : Nat) {v : Nat}
    (front : v ∈ Front (Steps src cats level backward) (pathStart src cats backward seeds) (n + 1))
    {fuel : Nat} (enough : n + 1 ≤ fuel) {hops : List Hop}
    (room : hops.length + (n + 1) ≤ (setIndex src cats).adj.len) :
    ∃ s ∈ pathStart src cats backward seeds, ∃ more,
      (setIndex src cats).chase src (pathReached src cats level backward seeds) level.level backward
        fuel hops v = some (hops ++ more) ∧ more.length = n + 1 ∧
      (∀ h ∈ more, h.Kept src cats ∧ h.tier ≤ level) ∧
      if backward then HopsMeet more ((setIndex src cats).adj.id v) ((setIndex src cats).adj.id s)
      else HopsMeet more.reverse ((setIndex src cats).adj.id s) ((setIndex src cats).adj.id v) := by
  induction n generalizing v fuel hops with
  | zero =>
    obtain ⟨fuel, rfl⟩ := Nat.exists_eq_add_of_le' enough
    obtain ⟨lt, r, mem, eqId, depth, u, parent, seed, step⟩ := pathReached_front fits front
    obtain ⟨h, isHop, kept, low, ends⟩ := exists_stepHop fits step
    refine ⟨u, seed, [h], ?_, rfl, ?_, ?_⟩
    · unfold CatIndex.chase
      rw [record_report (bfsLevels_nodup _ _ _) mem lt eqId, Option.bind_some, parent,
        Option.bind_some, isHop, Option.bind_some, if_pos depth.le]
    · intro h' mem'
      cases List.mem_singleton.mp mem'
      exact ⟨kept, low⟩
    · cases backward
      · exact ends
      · exact ends
  | succ n ih =>
    obtain ⟨fuel, rfl⟩ := Nat.exists_eq_add_of_le' enough
    obtain ⟨lt, r, mem, eqId, depth, u, parent, before, step⟩ := pathReached_front fits front
    obtain ⟨h, isHop, kept, low, ends⟩ := exists_stepHop fits step
    have enough' : n + 1 ≤ fuel + (n + 1) := by omega
    have room' : (hops ++ [h]).length + (n + 1) ≤ (setIndex src cats).adj.len := by
      rw [List.length_append, List.length_singleton]
      omega
    obtain ⟨s, seed, more, eq, len, all, walks⟩ := ih before enough' room'
    refine ⟨s, seed, h :: more, ?_, by simp [len], ?_, ?_⟩
    · rw [show fuel + (n + 1 + 1) = fuel + (n + 1) + 1 from rfl]
      unfold CatIndex.chase
      rw [record_report (bfsLevels_nodup _ _ _) mem lt eqId, Option.bind_some, parent,
        Option.bind_some, isHop, Option.bind_some, if_neg (by omega), if_neg (by simp; omega), eq,
        List.append_assoc]
      rfl
    · intro h' mem'
      rcases List.mem_cons.mp mem' with rfl | mem'
      · exact ⟨kept, low⟩
      · exact all h' mem'
    · cases backward
      · show HopsMeet (h :: more).reverse _ _
        obtain ⟨isFrom, isTo⟩ : h.fromId = _ ∧ h.toId = _ := ends
        rw [List.reverse_cons, hopsMeet_append_single, isFrom]
        exact ⟨walks, isTo⟩
      · obtain ⟨isFrom, isTo⟩ : h.fromId = _ ∧ h.toId = _ := ends
        exact ⟨isFrom, isTo ▸ walks⟩

variable (src cats level backward) in
/-- A walk of `k` edges of the level between a seed and `y`, in that direction. -/
def WalkOf (k : Nat) (s y : NodeId) : Prop :=
  if backward then Hops (Link src cats level) k y s else Hops (Link src cats level) k s y

theorem admitted_hops (k : Nat) (s y : NodeId) :
    Hops (JoinsAlong src.toGraphSource (keepOf src cats) (admitted src cats level)
      (direction backward) 0) k s y ↔ WalkOf src cats level backward k s y := by
  have same : JoinsAlong src.toGraphSource (keepOf src cats) (admitted src cats level)
      (direction backward) 0 =
      if backward then Function.swap (Link src cats level) else Link src cats level := by
    funext a b
    rw [admitted_along]
    cases backward <;> rfl
  rw [same]
  cases backward
  · rfl
  · exact hops_swap (Link src cats level) k s y

theorem pathHops_iff (fits : Indexable src cats) (k : Nat) {u : Nat}
    (lt : u < (setIndex src cats).adj.len) (y : NodeId) :
    (∃ v < (setIndex src cats).adj.len, (setIndex src cats).adj.id v = y ∧
      Hops (Steps src cats level backward) k u v) ↔
    Hops (JoinsAlong src.toGraphSource (keepOf src cats) (admitted src cats level)
      (direction backward) 0) k ((setIndex src cats).adj.id u) y := by
  have unmasked : (rankedHow src cats backward).within = none := rfl
  exact hops_iff fits unmasked rankedHow_oneWay 0 k lt y

theorem pathWithin_iff (fits : Indexable src cats) (seeds : List NodeId) (n : Nat) {v : Nat}
    (lt : v < (setIndex src cats).adj.len) :
    v ∈ Within (Steps src cats level backward) (pathStart src cats backward seeds) n ↔
      ∃ k, 1 ≤ k ∧ k ≤ n ∧ ∃ s ∈ seeds,
        WalkOf src cats level backward k s ((setIndex src cats).adj.id v) := by
  rw [mem_within_iff]
  refine exists_congr fun k => and_congr_right fun pos => and_congr_right fun _ => ?_
  constructor
  · rintro ⟨u, started, walk⟩
    obtain ⟨s, mem, at'⟩ := (mem_pathStart seeds u).mp started
    refine ⟨s, mem, (admitted_hops k s _).mp ?_⟩
    rw [← (setIndex src cats).adj.id_of_indexOf at']
    exact (pathHops_iff fits k ((setIndex src cats).adj.indexOf_lt at') _).mp ⟨v, lt, rfl, walk⟩
  · rintro ⟨s, mem, walk⟩
    have walk := (admitted_hops k s _).mpr walk
    obtain ⟨j, rfl⟩ := Nat.exists_eq_add_of_le' pos
    obtain ⟨z, first, _⟩ := (hops_succ_left _ j s _).mp walk
    obtain ⟨⟨u, ltU, rfl⟩, _⟩ := joinsAlong_indexed fits first
    obtain ⟨w, ltW, eq, inner⟩ := (pathHops_iff fits (j + 1) ltU _).mpr walk
    obtain rfl := (setIndex src cats).adj.id_injective ltW lt eq
    exact ⟨u, (mem_pathStart seeds u).mpr ⟨_, mem, (setIndex src cats).adj.indexOf_id ltU⟩, inner⟩

end Chase

section Path

variable {src : FactSource} {cats : CatSet} {level : Tier} {backward : Bool}

structure ShortestWalk (src : FactSource) (cats : CatSet) (level : Tier) (x y : NodeId)
    (hops : List Hop) : Prop where
  walks : HopsMeet hops x y
  kept : ∀ h ∈ hops, h.Kept src cats ∧ h.tier ≤ level
  some_hop : 1 ≤ hops.length
  least : ∀ k, 1 ≤ k → Hops (Link src cats level) k x y → hops.length ≤ k

theorem Hop.Kept.link {h : Hop} (kept : h.Kept src cats) (low : h.tier ≤ level) :
    Link src cats level h.fromId h.toId := by
  obtain ⟨i, e, at', keep, isFrom, isTo, _, tier, _⟩ := kept
  exact ⟨i, e, at', keep, isFrom, isTo, tier ▸ low⟩

theorem hops_of_meet {hops : List Hop} (kept : ∀ h ∈ hops, h.Kept src cats ∧ h.tier ≤ level)
    {x y : NodeId} (walk : HopsMeet hops x y) : Hops (Link src cats level) hops.length x y := by
  induction hops generalizing x with
  | nil => exact walk
  | cons h rest ih =>
    obtain ⟨rfl, walk⟩ := walk
    obtain ⟨isKept, low⟩ := kept h List.mem_cons_self
    rw [List.length_cons, hops_succ_left]
    exact ⟨h.toId, isKept.link low, ih (fun h mem => kept h (List.mem_cons_of_mem _ mem)) walk⟩

theorem chase_unreached {seeds : List NodeId} {goal : Nat}
    (lt : goal < (setIndex src cats).adj.len)
    (unreached : ∀ n, goal ∉ Front (Steps src cats level backward)
      (pathStart src cats backward seeds) (n + 1)) (fuel : Nat) (hops : List Hop) :
    (setIndex src cats).chase src (pathReached src cats level backward seeds) level.level backward
      fuel hops goal = none := by
  have single : ∀ r ∈ pathReached src cats level backward seeds, r.level = 0 := by
    intro r mem
    by_cases agree : lengthsAgree (setIndex src cats).adj (admitted src cats level)
        (rankedHow src cats backward) = true
    · have listed := (mem_bfsLevels (admitted src cats level) (rankedHow src cats backward) agree rfl
        (seeds.map fun s => (s, 0)) (r.id, r.level)).mp (List.mem_map_of_mem mem)
      obtain ⟨_, _, low, _⟩ := listed
      exact Nat.lt_one_iff.mp low
    · unfold pathReached bfsLevels at mem
      rw [if_neg agree] at mem
      cases mem
  have empty : ((setIndex src cats).record (pathReached src cats level backward seeds))[goal]? =
      some none := by
    refine (noteReports_other ?_ _).trans ?_
    · rintro ⟨r, i⟩ there found
      have mem := List.mem_of_getElem? (List.mem_zipIdx_iff_getElem?.mp there)
      obtain ⟨n, u, w, _, isW, _, _, front, step⟩ := bfsLevels_told _ r mem
      rw [single r mem] at front step
      have ltW := within_indexes _ _ _ _ _ front.1
      rw [isW, (setIndex src cats).adj.indexOf_id ltW] at found
      exact unreached n (Option.some.inj found ▸ front)
    · rw [List.getElem?_replicate, if_pos lt]
  cases fuel with
  | zero => rfl
  | succ fuel =>
    unfold CatIndex.chase
    rw [empty]
    rfl

theorem setIndex_indexOf (fits : Indexable src cats) {y : NodeId}
    (mem : y ∈ src.toGraphSource.indexed (keepOf src cats)) :
    ∃ v, (setIndex src cats).adj.indexOf y = some v := by
  obtain ⟨v, at'⟩ := List.mem_iff_getElem?.mp (((Adjacency.build_holds fits).2 y).mpr mem)
  exact ⟨v, ((setIndex src cats).adj.indexOf_eq_some y v).mpr at'⟩

theorem rankedPath_exact (fits : Indexable src cats) (seeds : List NodeId) (target : NodeId) :
    ((setIndex src cats).rankedPath src seeds target level.level backward none = none ∧
      ∀ s ∈ seeds, ∀ k, 1 ≤ k → ¬ WalkOf src cats level backward k s target) ∨
    ∃ hops, (setIndex src cats).rankedPath src seeds target level.level backward none = some hops ∧
      (∃ s ∈ seeds, if backward then HopsMeet hops target s else HopsMeet hops s target) ∧
      (∀ h ∈ hops, h.Kept src cats ∧ h.tier ≤ level) ∧ 1 ≤ hops.length ∧
      ∀ s ∈ seeds, ∀ k, 1 ≤ k → WalkOf src cats level backward k s target → hops.length ≤ k := by
  have ended : ∀ s k, 1 ≤ k → WalkOf src cats level backward k s target →
      target ∈ src.toGraphSource.indexed (keepOf src cats) := by
    intro s k pos walk
    obtain ⟨j, rfl⟩ := Nat.exists_eq_add_of_le' pos
    unfold WalkOf at walk
    cases backward
    · obtain ⟨z, _, last⟩ := walk
      exact (link_indexed last).2
    · obtain ⟨z, first, _⟩ := (hops_succ_left _ j _ _).mp walk
      exact (link_indexed first).1
  unfold CatIndex.rankedPath
  cases at' : (setIndex src cats).adj.indexOf target with
  | none =>
    refine .inl ⟨rfl, fun s _ k pos walk => ?_⟩
    obtain ⟨v, there⟩ := setIndex_indexOf fits (ended s k pos walk)
    rw [at'] at there
    cases there
  | some goal =>
    have lt := (setIndex src cats).adj.indexOf_lt at'
    have isTarget := (setIndex src cats).adj.id_of_indexOf at'
    dsimp only [Option.bind_some]
    by_cases reached : ∃ n, goal ∈ Front (Steps src cats level backward)
        (pathStart src cats backward seeds) (n + 1)
    · right
      obtain ⟨n, front⟩ := reached
      have sub := @within_indexes (setIndex src cats).adj (admitted src cats level)
        (rankedHow src cats backward) 0 (pathStart src cats backward seeds)
      have few : n + 1 ≤ (setIndex src cats).adj.len := by
        rw [← ncard_indexes]
        exact (card_of_front _ _ (indexes_finite _) sub ⟨goal, front⟩).trans
          (Set.ncard_le_ncard (sub _) (indexes_finite _))
      have enough : n + 1 ≤ (setIndex src cats).adj.len + 1 := by omega
      have room : ([] : List Hop).length + (n + 1) ≤ (setIndex src cats).adj.len := by
        simpa using few
      obtain ⟨v, started, more, eq, len, kept, walks⟩ := chase_walk fits n front enough room
      obtain ⟨s, mem, isSeed⟩ := (mem_pathStart seeds v).mp started
      have isSeed := (setIndex src cats).adj.id_of_indexOf isSeed
      rw [isTarget, isSeed] at walks
      have fewest : ∀ s ∈ seeds, ∀ k, 1 ≤ k → WalkOf src cats level backward k s target →
          n + 1 ≤ k := by
        intro s mem k pos walk
        by_contra short
        refine front.2 ((pathWithin_iff fits seeds n lt).mpr ⟨k, pos, by omega, s, mem, ?_⟩)
        rwa [isTarget]
      refine ⟨_, congrArg _ eq, ?_, ?_, ?_, ?_⟩
      · refine ⟨s, mem, ?_⟩
        cases backward
        · exact walks
        · exact walks
      · cases backward
        · exact fun h there => kept h (List.mem_reverse.mp there)
        · exact kept
      · cases backward
        · simp [len]
        · simp [len]
      · cases backward
        · simpa [len] using fewest
        · simpa [len] using fewest
    · left
      simp only [not_exists] at reached
      refine ⟨?_, fun s mem k pos walk => ?_⟩
      · exact congrArg _ (chase_unreached lt reached _ [])
      · have within := (pathWithin_iff fits seeds k lt).mpr
          ⟨k, pos, le_rfl, s, mem, isTarget.symm ▸ walk⟩
        obtain ⟨m, _, front⟩ := exists_front _ _ within
        exact reached m front

end Path

end Glia.Rules
