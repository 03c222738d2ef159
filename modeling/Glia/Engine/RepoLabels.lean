import Glia.Engine.Arch
import Glia.Kit.Dedup
import Mathlib.Data.List.DropRight
import Mathlib.Logic.Function.Iterate

/-! Repo labels: the shortest end of a path no other repo shares, up to a bound, numbered where
that is taken. -/
namespace Glia.Engine.Arch

open Glia.Kit (OrdMap)

section Code

def pathComponents (path : String) : List String :=
  (((path.toList.rdropWhile (· = '/')).splitOn '/').map String.ofList).filter fun c =>
    c ≠ "" && c ≠ "." && c ≠ ".."

def labelAt (comps : List String) (depth : Nat) : String :=
  if comps = [] then "repo"
  else "/".intercalate (comps.drop (comps.length - max 1 (min depth comps.length)))

structure RepoRow where
  id : Nat
  comps : List String
  depth : Nat := 1
  deriving DecidableEq

def RepoRow.label (r : RepoRow) : String := labelAt r.comps r.depth

def widenOnce (rows : List RepoRow) : List RepoRow :=
  rows.map fun r =>
    if 1 < (rows.map RepoRow.label).count r.label ∧ r.depth < r.comps.length then
      { r with depth := r.depth + 1 }
    else r

/-- Widen until no two labels are one, nothing changes or the rounds are over. -/
def widen : Nat → List RepoRow → List RepoRow
  | 0, rows => rows
  | rounds + 1, rows =>
    if (rows.map RepoRow.label).Nodup then rows
    else
      let next := widenOnce rows
      if next = rows then rows else widen rounds next

/-- A label with its repo's number. -/
def suffixed (e : Nat × String) : String := e.2 ++ "#" ++ toString (e.1 % 1000)

def nameRepo (s : OrdMap Nat String × OrdMap String Nat) (e : Nat × String) :
    OrdMap Nat String × OrdMap String Nat :=
  let label := if (s.2[e.2]?).any (· ≠ e.1) then suffixed e else e.2
  (s.1.insert e.1 label, s.2.insert label e.1)

def repoLabelMap (entries : List (Nat × List String)) : OrdMap Nat String :=
  let order := (Kit.firsts Prod.fst entries).map fun e => { id := e.1, comps := e.2 }
  (((widen 16 order).map fun r => (r.id, r.label)).foldl nameRepo (∅, ∅)).1

/-- Keep a stored label, numbered when one given already is the same. -/
def storeLabel (labels : OrdMap Nat String) (e : Nat × String) : OrdMap Nat String :=
  labels.insert e.1 (if labels.toList.any fun l => l.2 = e.2 then suffixed e else e.2)

def unionLabels (inputs : List (Nat × List String)) (stored : List (Nat × String)) :
    OrdMap Nat String := stored.foldl storeLabel (repoLabelMap inputs)

end Code

section Tails

def wholePath (comps : List String) : List String := if comps = [] then ["repo"] else comps

def tailOf (k : Nat) (comps : List String) : List String := (wholePath comps).rtake k

variable {k m : Nat} {c c' : List String}

theorem tailOf_eq_of_le (le : k ≤ m) (same : tailOf m c = tailOf m c') :
    tailOf k c = tailOf k c' := by
  have inner (l : List String) : (l.rtake m).rtake k = l.rtake k := by
    rw [List.rtake_eq_reverse_take_reverse, List.rtake_eq_reverse_take_reverse,
      List.reverse_reverse, List.take_take, min_eq_left le, List.rtake_eq_reverse_take_reverse]
  rw [tailOf, tailOf, ← inner, ← inner (wholePath c')]
  exact congrArg (List.rtake · k) same

theorem tailOf_length : (tailOf k c).length = min k (wholePath c).length := by
  rw [tailOf, List.rtake_eq_reverse_take_reverse]
  simp

theorem tailOf_whole (long : (wholePath c).length ≤ k) : tailOf k c = wholePath c := by
  simp [tailOf, List.rtake, Nat.sub_eq_zero_of_le long]

theorem tailOf_of_length (length : (tailOf m c).length = k) : tailOf k c = tailOf m c := by
  rw [tailOf_length] at length
  rcases Nat.le_total m (wholePath c).length with short | long
  · rw [← length, min_eq_left short]
  · rw [tailOf_whole long, tailOf_whole (by omega)]

theorem wholePath_pos (c : List String) : 0 < (wholePath c).length := by
  unfold wholePath
  split_ifs with none'
  · simp
  · exact List.length_pos_of_ne_nil none'

def Plain (comps : List String) : Prop := ∀ c ∈ comps, '/' ∉ c.toList

instance (comps : List String) : Decidable (Plain comps) :=
  inferInstanceAs (Decidable (∀ c ∈ comps, '/' ∉ c.toList))

theorem notMem_splitOn {sep : Char} {s part : List Char} (mem : part ∈ s.splitOn sep) :
    sep ∉ part := by
  induction s generalizing part with
  | nil =>
    rw [List.splitOn_nil, List.mem_singleton] at mem
    simp [mem]
  | cons x s ih =>
    rw [List.splitOn_cons_eq_if_modifyHead] at mem
    split_ifs at mem with here
    · rcases List.mem_cons.mp mem with empty | later
      · simp [empty]
      · exact ih later
    · cases parts : s.splitOn sep with
      | nil => exact absurd parts (List.splitOn_ne_nil sep s)
      | cons first rest =>
        rw [parts] at ih
        rw [parts, List.modifyHead_cons] at mem
        rcases List.mem_cons.mp mem with grown | later
        · have apart : sep ≠ x := fun same => here (by simp [same])
          simp [grown, apart, ih List.mem_cons_self]
        · exact ih (List.mem_cons_of_mem _ later)

theorem pathComponents_plain (path : String) : Plain (pathComponents path) := by
  intro x mem
  have ⟨part, listed, same⟩ := List.mem_map.mp (List.mem_filter.mp mem).1
  rw [← same, String.toList_ofList]
  exact notMem_splitOn listed

theorem Plain.wholePath (plain : Plain c) : Plain (wholePath c) := by
  unfold Arch.wholePath
  split_ifs
  · intro x mem
    obtain rfl : x = "repo" := by simpa using mem
    decide
  · exact plain

theorem Plain.tailOf (plain : Plain c) (k : Nat) : Plain (tailOf k c) :=
  fun x mem => plain.wholePath x (List.mem_of_mem_drop mem)

theorem join_inj {a b : List String} (aPlain : Plain a) (bPlain : Plain b) (aSome : a ≠ [])
    (bSome : b ≠ []) (same : "/".intercalate a = "/".intercalate b) : a = b := by
  have back {l : List String} (plain : Plain l) (some' : l ≠ []) :
      ("/".intercalate l).toList.splitOn '/' = l.map String.toList := by
    rw [String.toList_intercalate]
    refine List.splitOn_intercalate '/' (fun x mem => ?_) (by simpa using some')
    have ⟨y, listed, eq⟩ := List.mem_map.mp mem
    exact eq ▸ plain y listed
  have lists := congrArg (fun s : String => s.toList.splitOn '/') same
  simp only [back aPlain aSome, back bPlain bSome] at lists
  exact List.map_injective_iff.mpr (fun _ _ => String.toList_injective) lists

theorem tailOf_ne_nil (pos : 1 ≤ k) : tailOf k c ≠ [] := by
  intro none'
  have length := tailOf_length (k := k) (c := c)
  have := wholePath_pos c
  rw [none', List.length_nil] at length
  omega

theorem labelAt_eq (pos : 1 ≤ k) : labelAt c k = "/".intercalate (tailOf k c) := by
  unfold labelAt tailOf wholePath
  split_ifs with none'
  · rw [List.rtake, Nat.sub_eq_zero_of_le (by simpa using pos)]
    simp
  · have some' := List.length_pos_of_ne_nil none'
    rw [List.rtake]
    congr 2
    omega

end Tails

section Widen
variable {paths : List (List String)} {rows : List RepoRow} {r q : RepoRow} {c c' : List String}
  {k m t : Nat}

/-- Another path of `paths` ends in the same `k` components. -/
def Shared (paths : List (List String)) (k : Nat) (c : List String) : Prop :=
  1 < (paths.map (tailOf k)).count (tailOf k c)

instance (paths : List (List String)) (k : Nat) (c : List String) : Decidable (Shared paths k c) :=
  inferInstanceAs (Decidable (_ < _))

theorem Shared.congr (same : tailOf k c = tailOf k c') (h : Shared paths k c) :
    Shared paths k c' := by
  rw [Shared, ← same]
  exact h

theorem shared_iff_countP : Shared paths k c ↔
    1 < paths.countP fun x => tailOf k x = tailOf k c := by
  have test : ((fun x => x == tailOf k c) ∘ tailOf k) =
      fun x => decide (tailOf k x = tailOf k c) := by
    funext x
    rw [Bool.eq_iff_iff]
    simp
  rw [Shared, List.count, List.countP_map, test]

theorem Shared.mono (le : k ≤ m) (h : Shared paths m c) : Shared paths k c := by
  rw [shared_iff_countP] at *
  refine lt_of_lt_of_le h (List.countP_mono_left fun x _ same => ?_)
  simp only [decide_eq_true_eq] at *
  exact tailOf_eq_of_le le same

/-- A row after `t` rounds: as wide as its tails were shared, up to its length or `t + 1`. -/
structure Widened (paths : List (List String)) (t : Nat) (r : RepoRow) : Prop where
  pos : 1 ≤ r.depth
  most : r.depth ≤ t + 1
  before : ∀ k, 1 ≤ k → k < r.depth → Shared paths k r.comps
  stop : r.depth = t + 1 ∨ ¬Shared paths r.depth r.comps ∨ r.comps.length ≤ r.depth

theorem Widened.label_eq (h : Widened paths t r) :
    r.label = "/".intercalate (tailOf r.depth r.comps) := labelAt_eq h.pos

theorem tailOf_saturated (pos : 1 ≤ k) (long : c.length ≤ k) : tailOf k c = wholePath c := by
  refine tailOf_whole ?_
  unfold wholePath
  split_ifs
  · simpa using pos
  · exact long

theorem tails_of_labels (rPlain : Plain r.comps) (qPlain : Plain q.comps)
    (rWide : Widened paths t r) (qWide : Widened paths t q) (same : q.label = r.label) :
    tailOf q.depth q.comps = tailOf r.depth r.comps := by
  rw [rWide.label_eq, qWide.label_eq] at same
  exact join_inj (qPlain.tailOf _) (rPlain.tailOf _) (tailOf_ne_nil qWide.pos)
    (tailOf_ne_nil rWide.pos) same

/-- A row not yet at its full length has another's label exactly when it was widened every round
and shares its end still. -/
theorem duplicated_iff (plain : ∀ r ∈ rows, Plain r.comps)
    (wide : ∀ r ∈ rows, Widened (rows.map RepoRow.comps) t r) (mem : r ∈ rows)
    (short : r.depth < r.comps.length) :
    1 < (rows.map RepoRow.label).count r.label ↔
      r.depth = t + 1 ∧ Shared (rows.map RepoRow.comps) r.depth r.comps := by
  have rWide := wide r mem
  have full : (tailOf r.depth r.comps).length = r.depth := by
    rw [tailOf_length, wholePath, if_neg (List.ne_nil_of_length_pos (by omega))]
    omega
  rw [shared_iff_countP, List.count, List.countP_map, List.countP_map]
  constructor
  · intro many
    have more : 1 < rows.countP
        ((fun x => decide (tailOf r.depth x = tailOf r.depth r.comps)) ∘ RepoRow.comps) := by
      refine lt_of_lt_of_le many (List.countP_mono_left fun q qMem same => ?_)
      simp only [Function.comp_apply, beq_iff_eq, decide_eq_true_eq] at *
      have tails := tails_of_labels (plain r mem) (plain q qMem) rWide (wide q qMem) same
      rw [← tails]
      exact tailOf_of_length (tails ▸ full)
    refine ⟨?_, more⟩
    rcases rWide.stop with last | alone | whole
    · exact last
    · exact absurd (shared_iff_countP.mpr (by rwa [List.countP_map])) alone
    · omega
  · intro ⟨last, many⟩
    refine lt_of_lt_of_le many (List.countP_mono_left fun q qMem same => ?_)
    simp only [Function.comp_apply, beq_iff_eq, decide_eq_true_eq] at *
    have qWide := wide q qMem
    have qShared : Shared (rows.map RepoRow.comps) r.depth q.comps :=
      Shared.congr same.symm (shared_iff_countP.mpr (by rwa [List.countP_map]))
    rw [rWide.label_eq, qWide.label_eq, ← same]
    congr 1
    rcases qWide.stop with last' | alone | whole
    · rw [last', last]
    · exact absurd (qShared.mono (last ▸ qWide.most)) alone
    · rw [tailOf_saturated qWide.pos whole,
        tailOf_saturated rWide.pos (whole.trans (last ▸ qWide.most))]

def RepoRow.key (r : RepoRow) : Nat × List String := (r.id, r.comps)

theorem widenOnce_keys (rows : List RepoRow) :
    (widenOnce rows).map RepoRow.key = rows.map RepoRow.key := by
  rw [widenOnce, List.map_map]
  refine List.map_congr_left fun r _ => ?_
  simp only [Function.comp_apply]
  split_ifs <;> rfl

theorem comps_of_keys {rows rows' : List RepoRow}
    (same : rows.map RepoRow.key = rows'.map RepoRow.key) :
    rows.map RepoRow.comps = rows'.map RepoRow.comps := by
  have snd := congrArg (List.map Prod.snd) same
  rwa [List.map_map, List.map_map] at snd

theorem widenOnce_wide (plain : ∀ r ∈ rows, Plain r.comps)
    (wide : ∀ r ∈ rows, Widened (rows.map RepoRow.comps) t r) :
    ∀ r ∈ widenOnce rows, Widened (rows.map RepoRow.comps) (t + 1) r := by
  intro r' mem
  have ⟨r, rMem, grown⟩ := List.mem_map.mp mem
  have old := wide r rMem
  split_ifs at grown with more
  · have ⟨last, shared⟩ := (duplicated_iff plain wide rMem more.2).mp more.1
    rw [← grown]
    refine ⟨by simp, by simp only; omega, fun k pos before => ?_, .inl (by simp only; omega)⟩
    rcases Nat.lt_succ_iff_lt_or_eq.mp before with earlier | here
    · exact old.before k pos earlier
    · exact here ▸ shared
  · rw [← grown]
    refine ⟨old.pos, old.most.trans (Nat.le_succ _), old.before, .inr ?_⟩
    rw [or_iff_not_imp_right, Nat.not_le]
    intro short shared
    rcases old.stop with last | alone | whole
    · exact more ⟨(duplicated_iff plain wide rMem short).mpr ⟨last, shared⟩, short⟩
    · exact alone shared
    · omega

theorem widen_eq (rounds : Nat) (rows : List RepoRow) :
    widen rounds rows = widenOnce^[rounds] rows := by
  induction rounds generalizing rows with
  | zero => rfl
  | succ rounds ih =>
    have still (fixed : widenOnce rows = rows) : rows = widenOnce^[rounds + 1] rows :=
      (Function.iterate_fixed fixed _).symm
    change (if (rows.map RepoRow.label).Nodup then rows
      else if widenOnce rows = rows then rows else widen rounds (widenOnce rows)) = _
    split_ifs with apart fixed
    · refine still ((List.map_congr_left fun r _ => if_neg ?_).trans (List.map_id rows))
      exact fun more => absurd more.1 (Nat.not_lt.mpr (List.nodup_iff_count_le_one.mp apart _))
    · exact still fixed
    · rw [ih, Function.iterate_succ_apply]

theorem widen_keys (rounds : Nat) (rows : List RepoRow) :
    (widen rounds rows).map RepoRow.key = rows.map RepoRow.key := by
  rw [widen_eq]
  induction rounds with
  | zero => rfl
  | succ rounds ih => rw [Function.iterate_succ_apply', widenOnce_keys, ih]

theorem widen_wide (plain : ∀ r ∈ rows, Plain r.comps) (fresh : ∀ r ∈ rows, r.depth = 1)
    (rounds : Nat) :
    ∀ r ∈ widen rounds rows, Widened (rows.map RepoRow.comps) rounds r := by
  rw [widen_eq]
  induction rounds with
  | zero =>
    intro r mem
    have one := fresh r mem
    exact ⟨one.ge, one.le, fun k pos before => by omega, .inl one⟩
  | succ rounds ih =>
    have same : (widenOnce^[rounds] rows).map RepoRow.comps = rows.map RepoRow.comps :=
      comps_of_keys (widen_eq rounds rows ▸ widen_keys rounds rows)
    have plain' : ∀ r ∈ widenOnce^[rounds] rows, Plain r.comps := fun r mem => by
      have listed := List.mem_map_of_mem (f := RepoRow.comps) mem
      rw [same] at listed
      have ⟨r', mem', eq⟩ := List.mem_map.mp listed
      exact eq ▸ plain r' mem'
    rw [Function.iterate_succ_apply', ← same]
    exact widenOnce_wide plain' (same ▸ ih)

/-- The least depth, up to 17, at which no other path ends alike. -/
def baseDepth (paths : List (List String)) (c : List String) : Nat :=
  ((List.range' 1 16).find? fun k => ¬Shared paths k c).getD 17

/-- A repo's label before it is numbered. -/
def baseLabel (paths : List (List String)) (c : List String) : String :=
  "/".intercalate (tailOf (baseDepth paths c) c)

theorem baseDepth_spec (paths : List (List String)) (c : List String) :
    1 ≤ baseDepth paths c ∧ baseDepth paths c ≤ 17 ∧
      (∀ k, 1 ≤ k → k < baseDepth paths c → Shared paths k c) ∧
      (baseDepth paths c = 17 ∨ ¬Shared paths (baseDepth paths c) c) := by
  unfold baseDepth
  cases found : (List.range' 1 16).find? fun k => ¬Shared paths k c with
  | none =>
    rw [List.find?_range'_eq_none] at found
    refine ⟨by simp, by simp, fun k pos before => ?_, .inl rfl⟩
    simpa using found k pos (by simpa using before)
  | some b =>
    rw [List.find?_range'_eq_some] at found
    have ⟨alone, mem, before⟩ := found
    have ⟨pos, small⟩ := List.mem_range'_1.mp mem
    refine ⟨pos, by simp only [Option.getD_some]; omega, fun k pos earlier => ?_,
      .inr (by simpa using alone)⟩
    simpa using before k pos earlier

theorem Widened.label_base (h : Widened paths 16 r) : r.label = baseLabel paths r.comps := by
  have ⟨pos, small, before, stop⟩ := baseDepth_spec paths r.comps
  have most := h.most
  rw [h.label_eq, baseLabel]
  congr 1
  rcases Nat.lt_trichotomy r.depth (baseDepth paths r.comps) with less | same | more
  · have shared := before _ h.pos less
    rcases h.stop with last | alone | whole
    · omega
    · exact absurd shared alone
    · rw [tailOf_saturated h.pos whole, tailOf_saturated pos (whole.trans less.le)]
  · rw [same]
  · have shared := h.before _ pos more
    rcases stop with full | alone
    · omega
    · exact absurd shared alone

end Widen

end Glia.Engine.Arch
