import Glia.Algo.Ppr

/-! The index ranks as every call did before it: the same operations on the same operands, in the
same order. -/
namespace Glia.Algo.Ppr

open Glia.Kit (OrdMap)
open Glia.Kit.CountingSort (starts filled rowOf rowOf_append filled_row)

section Slots

theorem foldl_insert_get {κ β : Type} [LinearOrder κ] (l : List (κ × β)) (m : OrdMap κ β) {k : κ}
    {v : β} (held : (l.foldl (fun m p => m.insert p.1 p.2) m)[k]? = some v) :
    m[k]? = some v ∨ (k, v) ∈ l := by
  induction l generalizing m with
  | nil => exact .inl held
  | cons p l ih =>
    rcases ih _ held with before | later
    · rw [Std.ExtTreeMap.getElem?_insert] at before
      split at before
      · rename_i same
        cases Option.some.inj before
        cases compare_eq_iff_eq.mp same
        exact .inr List.mem_cons_self
      · exact .inl before
    · exact .inr (List.mem_cons_of_mem p later)

theorem idToIdx_get {nodeIds : List NodeId} {id : NodeId} {i : Nat}
    (held : (idToIdx nodeIds)[id]? = some i) : nodeIds[i]? = some id := by
  rcases foldl_insert_get _ _ held with absent | listed
  · rw [show (∅ : OrdMap NodeId Nat)[id]? = none from Std.ExtTreeMap.getElem?_empty] at absent
    cases absent
  · exact List.mem_zipIdx_iff_getElem?.mp listed

theorem idToIdx_lt {nodeIds : List NodeId} {id : NodeId} {i : Nat}
    (held : (idToIdx nodeIds)[id]? = some i) : i < nodeIds.length :=
  (List.getElem?_eq_some_iff.mp (idToIdx_get held)).1

theorem foldl_set_range {α : Type} (f : Nat → α) (buffer : List α) :
    (List.range buffer.length).foldl (fun b i => b.set i (f i)) buffer =
      (List.range buffer.length).map f := by
  have upTo : ∀ k ≤ buffer.length, (List.range k).foldl (fun b i => b.set i (f i)) buffer =
      (List.range k).map f ++ buffer.drop k := by
    intro k le
    induction k with
    | zero => rfl
    | succ k ih =>
      have split : buffer.drop k = buffer[k] :: buffer.drop (k + 1) := List.drop_eq_getElem_cons le
      rw [List.range_succ, List.foldl_append, ih (Nat.le_of_succ_le le), List.foldl_cons,
        List.foldl_nil, List.map_append, List.append_assoc, split]
      rw [List.set_append_right _ _ (by rw [List.length_map, List.length_range]),
        List.length_map, List.length_range, Nat.sub_self, List.set_cons_zero]
      rfl
  rw [upTo _ le_rfl, List.drop_length, List.append_nil]

end Slots

section Incidences
variable {F : Type} (o : Scalar F) (config : ActivationConfig F) (nodeIds : List NodeId)

structure Alike (n : Nat) (s : Incidences F) (t : Incoming F) : Prop where
  outW : t.outWeight = s.outW
  rows : t.incoming = (List.range n).map (rowOf s.events)
  targets : ∀ e ∈ s.events, e.1 < n

theorem pushIncoming_rows (n : Nat) (events : List (Nat × Nat × F)) (target : Nat) (inc : Nat × F) :
    pushIncoming ((List.range n).map (rowOf events)) target inc =
      (List.range n).map (rowOf (events ++ [(target, inc)])) := by
  unfold pushIncoming
  ext1 i
  rw [List.getElem?_modify, List.getElem?_map, List.getElem?_map, Option.map_eq_map]
  by_cases lt : i < n
  · rw [List.getElem?_range lt, Option.map_some, Option.map_some, Option.map_some, rowOf_append]
    by_cases here : target = i
    · simp [here, rowOf]
    · simp [here, rowOf]
  · rw [List.getElem?_eq_none (by rw [List.length_range]; omega)]
    rfl

theorem addEdge_alike {s : Incidences F} {t : Incoming F} (alike : Alike nodeIds.length s t)
    (e : Edge) : Alike nodeIds.length (addEdge o config (idToIdx nodeIds) s e)
      (addIncoming o config (idToIdx nodeIds) t e) := by
  unfold addEdge addIncoming
  dsimp only
  split
  · exact alike
  · cases here : (idToIdx nodeIds)[e.fromId]? with
    | none => exact alike
    | some fi =>
      cases there : (idToIdx nodeIds)[e.toId]? with
      | none => exact alike
      | some ti =>
        have ltF := idToIdx_lt here
        have ltT := idToIdx_lt there
        dsimp only
        cases config.direction with
        | forward =>
          dsimp only
          refine ⟨by rw [alike.outW], by rw [alike.rows, pushIncoming_rows], fun e mem => ?_⟩
          rcases List.mem_append.mp mem with held | new
          · exact alike.targets e held
          · rw [List.mem_singleton.mp new]
            exact ltT
        | backward =>
          dsimp only
          refine ⟨by rw [alike.outW], by rw [alike.rows, pushIncoming_rows], fun e mem => ?_⟩
          rcases List.mem_append.mp mem with held | new
          · exact alike.targets e held
          · rw [List.mem_singleton.mp new]
            exact ltF
        | undirected =>
          dsimp only
          refine ⟨by rw [alike.outW], ?_, fun e mem => ?_⟩
          · rw [alike.rows, pushIncoming_rows, pushIncoming_rows, List.append_assoc]
            rfl
          · rcases List.mem_append.mp mem with held | new
            · exact alike.targets e held
            · rcases List.mem_cons.mp new with rfl | new
              · exact ltT
              · rw [List.mem_singleton.mp new]
                exact ltF

theorem edges_alike (edges : List Edge) {s : Incidences F} {t : Incoming F}
    (alike : Alike nodeIds.length s t) :
    Alike nodeIds.length (edges.foldl (addEdge o config (idToIdx nodeIds)) s)
      (edges.foldl (addIncoming o config (idToIdx nodeIds)) t) := by
  induction edges generalizing s t with
  | nil => exact alike
  | cons e edges ih => exact ih (addEdge_alike o config nodeIds alike e)

end Incidences

section Rounds
variable {F : Type} (o : Scalar F) (config : ActivationConfig F) (nodeIds : List NodeId)
  (edges : List Edge)

def incidencesOf : Incidences F :=
  edges.foldl (addEdge o config (idToIdx nodeIds)) { outW := List.replicate nodeIds.length o.zero }

def incomingOf : Incoming F :=
  edges.foldl (addIncoming o config (idToIdx nodeIds))
    ⟨List.replicate nodeIds.length [], List.replicate nodeIds.length o.zero⟩

theorem read_alike : Alike nodeIds.length (incidencesOf o config nodeIds edges)
    (incomingOf o config nodeIds edges) := by
  refine edges_alike o config nodeIds edges ⟨rfl, ?_, nofun⟩
  refine List.ext_getElem (by simp) fun i _ _ => ?_
  simp [rowOf]

theorem build_row {i : Nat} (lt : i < nodeIds.length) :
    (PprIndex.build o nodeIds edges config).row i =
      (incomingOf o config nodeIds edges).incoming.getD i [] := by
  have alike := read_alike o config nodeIds edges
  rw [alike.rows, List.getD_eq_getElem?_getD, List.getElem?_map, List.getElem?_range lt]
  exact filled_row _ _ _ alike.targets lt

theorem round_map (ix : PprIndex F) {buffer : List F} (length : buffer.length = ix.nodeIds.length)
    (d : F) (personalization scores : List F) :
    ix.round o d personalization scores buffer = (List.range ix.nodeIds.length).map fun i =>
      nextScore o d (personalization.getD i o.zero)
        (o.sum ((ix.row i).map (propagates o scores ix.outW)))
        (o.sum (ix.dangling.map fun j => scores.getD j o.zero)) := by
  unfold PprIndex.round
  rw [← length]
  exact foldl_set_range _ buffer

theorem headRound_map (n : Nat) (s : Incoming F) (d : F) (personalization scores : List F) :
    headRound o n s d personalization scores = (List.range n).map fun i =>
      nextScore o d (personalization.getD i o.zero)
        (o.sum ((s.incoming.getD i []).map (propagates o scores s.outWeight)))
        (o.sum (((List.range n).filter fun j => o.eq (s.outWeight.getD j o.zero) o.zero).map
          fun j => scores.getD j o.zero)) := by
  have zeros := foldl_set_range (fun i => nextScore o d (personalization.getD i o.zero)
    (o.sum ((s.incoming.getD i []).map (propagates o scores s.outWeight)))
    (o.sum (((List.range n).filter fun j => o.eq (s.outWeight.getD j o.zero) o.zero).map
      fun j => scores.getD j o.zero))) (List.replicate n o.zero)
  rw [List.length_replicate] at zeros
  exact zeros

theorem round_eq {buffer : List F} (length : buffer.length = nodeIds.length)
    (d : F) (personalization scores : List F) :
    (PprIndex.build o nodeIds edges config).round o d personalization scores buffer =
      headRound o nodeIds.length (incomingOf o config nodeIds edges) d personalization scores := by
  have alike := read_alike o config nodeIds edges
  rw [round_map o (PprIndex.build o nodeIds edges config) length, headRound_map]
  refine List.map_congr_left fun i mem => ?_
  rw [build_row o config nodeIds edges (List.mem_range.mp mem), alike.outW]
  rfl

theorem headRound_length (n : Nat) (s : Incoming F) (d : F) (personalization scores : List F) :
    (headRound o n s d personalization scores).length = n := by
  rw [headRound_map, List.length_map, List.length_range]

theorem rounds_eq (d : F) (personalization : List F) (left : Nat) {scores buffer : List F}
    (iterations : Nat) (whole : scores.length = nodeIds.length)
    (length : buffer.length = nodeIds.length) :
    (PprIndex.build o nodeIds edges config).rounds o d personalization left scores buffer
        iterations =
      headRounds o nodeIds.length (incomingOf o config nodeIds edges) d config.epsilon
        personalization left scores iterations := by
  induction left generalizing scores buffer iterations with
  | zero => rfl
  | succ left ih =>
    rw [PprIndex.rounds, headRounds, round_eq o config nodeIds edges length]
    have next := headRound_length o nodeIds.length (incomingOf o config nodeIds edges) d
      personalization scores
    rw [ih (iterations + 1) next whole]
    rfl

theorem personalise_length (n : Nat) (ids : OrdMap NodeId Nat) (seeds : List NodeId) :
    (personalise o n ids seeds).length = n := by
  unfold personalise
  dsimp only
  generalize o.div o.one _ = w
  have keep : ∀ step : List F → NodeId → List F, (∀ p s, (step p s).length = p.length) →
      ∀ (l : List NodeId) (p : List F), (l.foldl step p).length = p.length := by
    intro step same l
    induction l with
    | nil => exact fun p => rfl
    | cons s l ih =>
      intro p
      rw [List.foldl_cons, ih, same]
  refine (keep _ (fun p s => ?_) _ _).trans List.length_replicate
  cases ids[s]? with
  | none => rfl
  | some idx => exact List.length_set ..

/-- The index gives what each call gave, whatever the scalars' operations do. -/
theorem vector_eq_head (seeds : List NodeId) :
    (PprIndex.build o nodeIds edges config).vector o seeds =
      pprVectorHead o nodeIds edges seeds config := by
  unfold PprIndex.vector pprVectorHead
  dsimp only
  refine if_congr Iff.rfl rfl (if_congr Iff.rfl rfl ?_)
  exact rounds_eq o config nodeIds edges _ _ _ 0 (personalise_length o _ _ _)
    List.length_replicate

end Rounds

end Glia.Algo.Ppr
