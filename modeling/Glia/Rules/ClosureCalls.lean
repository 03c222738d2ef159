import Glia.Rules.PathExact

/-! What the closure builtins answer after any run of calls: the rows of `scc` and the
walks of an explanation, against the edges alone. -/
namespace Glia.Rules

open Algo Kit

section Served

variable {src : FactSource} {c : Closure}

theorem Closure.Coherent.path (h : c.Coherent src) (cats : CatSet) (seeds : List NodeId)
    (target : NodeId) (level : Tier) (backward : Bool) :
    (c.path src (edgeTiers src) cats seeds target level backward).1.Coherent src ∧
      (c.path src (edgeTiers src) cats seeds target level backward).2 =
        if (setIndex src cats).ok then
          (setIndex src cats).rankedPath src seeds target level.level backward none
        else none := by
  obtain ⟨coherent, at'⟩ := h.set cats
  unfold Closure.path
  simp only [at']
  exact ⟨coherent, trivial⟩

theorem Closure.Coherent.cycle (h : c.Coherent src) (cats : CatSet) (x rep : NodeId)
    (level : Tier) : (c.cycle src (edgeTiers src) cats x rep level).1.Coherent src := by
  obtain ⟨coherent, at'⟩ := h.set cats
  unfold Closure.cycle
  simp only [at']
  exact coherent

theorem Closure.Coherent.serve (h : c.Coherent src) (r : Closure.Request) :
    (c.serve src (edgeTiers src) r).Coherent src := by
  cases r with
  | reachFrom cats seeds backward depth => exact (h.reachFrom cats seeds backward depth).1
  | reach cats source backward depth => exact (h.reach cats source backward depth).1
  | reachAll cats depth limit => exact (h.reachAll cats depth limit).1
  | scc cats => exact h.sccRows cats
  | path cats seeds target level backward => exact (h.path cats seeds target level backward).1
  | cycle cats x rep level => exact h.cycle cats x rep level

theorem served_coherent (src : FactSource) (requests : List Closure.Request) :
    (Closure.served src (edgeTiers src) requests).Coherent src :=
  List.foldlRecOn requests _ Closure.Coherent.new fun _ h r _ => h.serve r

theorem rankedPath_unfit {cats : CatSet} (unfit : ¬ Indexable src cats) (seeds : List NodeId)
    (target : NodeId) (level : Nat) (backward : Bool) :
    (setIndex src cats).rankedPath src seeds target level backward none = none := by
  have missing : (setIndex src cats).adj.indexOf target = none := by
    rw [setIndex_adj, Adjacency.build_unfit unfit]
    rfl
  unfold CatIndex.rankedPath
  rw [missing]
  rfl

end Served

def crowdedLoop : FactSource where
  nodeIds := [1]
  edges := List.replicate (indexLimit + 1) ⟨1, 1, 1, .strong, []⟩
  tables := ⟨⟨[], [], []⟩, []⟩
  nodeKind := fun _ => none
  nodeCells := fun _ => []
  renderNode := fun _ => "a"

theorem crowdedLoop_unfit : ¬ Indexable crowdedLoop .all := by
  rintro ⟨_, few⟩
  have whole : crowdedLoop.toGraphSource.keptEdges (keepOf crowdedLoop .all) =
      crowdedLoop.edges := List.filter_eq_self.mpr fun _ _ => rfl
  rw [whole, show crowdedLoop.edges.length = indexLimit + 1 from List.length_replicate] at few
  omega

theorem crowdedLoop_cycle {level : Tier} (le : Tier.derived ≤ level) :
    Reaches crowdedLoop .all none level 1 1 := by
  have first : crowdedLoop.edges[0]? = some ⟨1, 1, 1, .strong, []⟩ := by
    show (List.replicate (indexLimit + 1) _)[0]? = _
    rw [List.getElem?_replicate, if_pos (Nat.succ_pos _)]
  exact ⟨1, le_rfl, (by simp), (hops_one _ _ _).mpr ⟨0, _, first, rfl, rfl, rfl, le⟩⟩

/-- After any calls and for every edge set with its tiers and every category set within the
index limit, `scc` lists one row for each node on a cycle: its component's first node by
rendered key, then id, and the first tier at which the two reach each other. Over the limit it
lists none. -/
theorem scc_rows_exact (src : FactSource) (requests : List Closure.Request) (cats : CatSet) :
    (Indexable src cats → SccRows src cats
      ((Closure.served src (edgeTiers src) requests).sccRows src (edgeTiers src) cats).2) ∧
    (¬ Indexable src cats →
      ((Closure.served src (edgeTiers src) requests).sccRows src (edgeTiers src) cats).2 = []) :=
  (served_coherent src requests).scc_listed cats

/-- Past the index limit the rows leave out a node that lies on a cycle. -/
theorem scc_rows_past_limit : ¬ SccRows crowdedLoop .all
    ((Closure.served crowdedLoop (edgeTiers crowdedLoop) []).sccRows crowdedLoop
      (edgeTiers crowdedLoop) .all).2 := by
  rw [((served_coherent crowdedLoop []).scc_listed .all).2 crowdedLoop_unfit]
  intro rows
  have listed := (rows.cyclic 1).mpr (crowdedLoop_cycle (by decide))
  cases listed

/-- After any calls, the walk explained from `x` to `y`, searched from either end, is missing
exactly when no edges of the level join them, and is otherwise a shortest one; over the index
limit it is missing. -/
theorem explained_path_shortest (src : FactSource) (requests : List Closure.Request) (cats : CatSet)
    (level : Tier) (backward : Bool) (x y : NodeId) :
    let shown := ((Closure.served src (edgeTiers src) requests).path src (edgeTiers src) cats
      [if backward then y else x] (if backward then x else y) level backward).2
    (Indexable src cats → (shown = none ↔ ¬ Reaches src cats none level x y) ∧
      ∀ hops, shown = some hops → ShortestWalk src cats level x y hops) ∧
    (¬ Indexable src cats → shown = none) := by
  intro shown
  have isShown : shown = if (setIndex src cats).ok then
      (setIndex src cats).rankedPath src [if backward then y else x]
        (if backward then x else y) level.level backward none
      else none := ((served_coherent src requests).path cats _ _ level backward).2
  constructor
  · intro fits
    rw [isShown, if_pos (setIndex_ok fits)]
    have walkOf : ∀ k, WalkOf src cats level backward k (if backward then y else x)
        (if backward then x else y) ↔ Hops (Link src cats level) k x y := by
      intro k
      cases backward <;> exact Iff.rfl
    have reaches : Reaches src cats none level x y ↔
        ∃ k, 1 ≤ k ∧ Hops (Link src cats level) k x y := by
      simp [Reaches]
    rcases @rankedPath_exact src cats level backward fits
        [if backward then y else x] (if backward then x else y) with
      ⟨missing, unreached⟩ | ⟨hops, found, ⟨s, mem, walks⟩, kept, pos, least⟩
    · rw [missing, reaches]
      refine ⟨⟨fun _ => ?_, fun _ => rfl⟩, fun hops eq => by cases eq⟩
      rintro ⟨k, pos, walk⟩
      exact unreached _ List.mem_cons_self k pos ((walkOf k).mpr walk)
    · cases List.mem_singleton.mp mem
      have walk : HopsMeet hops x y := by
        cases backward
        · exact walks
        · exact walks
      rw [found, reaches]
      constructor
      · refine ⟨fun missing => (by cases missing), fun unreached => absurd ?_ unreached⟩
        exact ⟨hops.length, pos, hops_of_meet kept walk⟩
      · intro hops' eq
        cases eq
        exact ⟨walk, kept, pos, fun k pos there =>
          least _ List.mem_cons_self k pos ((walkOf k).mpr there)⟩
  · intro unfit
    rw [isShown, rankedPath_unfit unfit]
    split <;> rfl

/-- Past the index limit no walk is shown although an edge joins the two ends. -/
theorem explained_path_past_limit :
    ((Closure.served crowdedLoop (edgeTiers crowdedLoop) []).path crowdedLoop
      (edgeTiers crowdedLoop) .all [1] 1 .derived false).2 = none ∧
    Reaches crowdedLoop .all none .derived 1 1 := by
  constructor
  · rw [((served_coherent crowdedLoop []).path .all [1] 1 .derived false).2,
      rankedPath_unfit crowdedLoop_unfit]
    split <;> rfl
  · exact crowdedLoop_cycle le_rfl

end Glia.Rules
