import Glia.Rules.IndexesKept
import Mathlib.Data.List.Dedup
import Mathlib.Data.List.GetD
import Mathlib.Data.List.Perm.Basic

/-! A relation over whole runs: its indexes represent a map from each row to the level of the
call that first added it, with the least provenance that call gave it. -/
namespace Glia.Rules.Storage

open Batch

structure Held where
  level : Tier
  prov : RowMeta
  ordinal : Nat
  deriving DecidableEq, Repr

abbrev Contents := Handles → Option Held

def bestLoaded (rows : List Loaded) (row : Handles) : Option Loaded :=
  Kit.best Loaded.row (fun r => toLex (r.level, toLex (r.height, r.ordinal))) rows row

def bestCandidate (cands : List Candidate) (row : Handles) : Option Candidate :=
  Kit.best Candidate.row (fun c => toLex (c.prov.height, c.prov.rule)) cands row

def Loaded.held (r : Loaded) : Held := ⟨r.level, ⟨r.height, edbRule⟩, r.ordinal⟩

def Contents.after (arity : Nat) (held : Contents) : Op → Contents
  | .load rows heights =>
    if rows.arity ≠ arity then held
    else fun row => (held row).or ((bestLoaded (Relation.given rows heights) row).map Loaded.held)
  | .insertRound level toAdd metas => fun row =>
    (held row).or ((bestCandidate (Relation.candidates arity toAdd metas) row).map fun c =>
      ⟨level, c.prov, noOrdinal⟩)
  | .advance | .sealRuns | .ensureIndex _ => held

def heldAfter (arity : Nat) (ops : List Op) : Contents :=
  ops.foldl (Contents.after arity) fun _ => none

structure Sound (arity : Nat) (held : Contents) (rel : Relation) : Prop extends Coherent rel where
  arity_eq : rel.arity = arity
  items : ∀ l r p o, (r, p, o) ∈ (rel.identity.parts l).items ↔ held r = some ⟨l, p, o⟩
  once : ∀ l, ((rel.identity.parts l).items.map Prod.fst).Nodup
  len_eq : rel.len = (Tier.all.map fun l => (rel.identity.parts l).items.length).sum

variable {arity : Nat} {held held' : Contents} {rel rel' : Relation}

theorem Sound.of_same (h : Sound arity held rel) (coherent : Coherent rel')
    (same : SameItems rel rel') : Sound arity held rel' := by
  refine ⟨coherent, same.arity.trans h.arity_eq, fun l r p o => ?_, fun l => ?_, ?_⟩
  · rw [(same.items l).mem_iff]
    exact h.items l r p o
  · exact ((same.items l).map Prod.fst).nodup_iff.mpr (h.once l)
  · rw [same.len, h.len_eq]
    congr 1
    exact List.map_congr_left fun l _ => (same.items l).length_eq.symm

theorem Sound.store (h : Sound arity held rel) (level : Tier) {batch : Batch}
    (ordered : Ordered arity batch) {recent : Bool}
    (spare : recent = true → (rel.identity.parts level).recent.items = [])
    (once : batch.rows.Nodup) (absent : ∀ r ∈ batch.rows, held r = none)
    (added : ∀ r p o, (r, p, o) ∈ batch.items → held' r = some ⟨level, p, o⟩)
    (kept : ∀ r, r ∉ batch.rows → held' r = held r) :
    Sound arity held' (rel.store level batch recent) := by
  have ordered' : Ordered rel.arity batch := h.arity_eq.symm ▸ ordered
  have stored := h.toCoherent.store_items level ordered' spare
  have rows : batch.items.map Prod.fst = batch.rows := ordered.items_rows
  refine ⟨h.toCoherent.store level ordered' recent, h.arity_eq, fun l r p o => ?_, fun l => ?_, ?_⟩
  · rw [(stored l).mem_iff, List.mem_append, h.items]
    by_cases mem : r ∈ batch.rows
    · obtain ⟨⟨r, p', o'⟩, there, rfl⟩ := List.mem_map.mp (rows.symm ▸ mem)
      rw [absent r mem, added r p' o' there]
      constructor
      · rintro (old | new)
        · cases old
        · split at new
          · rename_i same
            rw [same, ← added r p o new, added r p' o' there]
          · cases new
      · intro eq
        cases eq
        rw [if_pos rfl]
        exact .inr there
    · rw [kept r mem]
      refine ⟨?_, .inl⟩
      rintro (old | new)
      · exact old
      · split at new
        · exact absurd (rows ▸ List.mem_map_of_mem new) mem
        · cases new
  · rw [((stored l).map Prod.fst).nodup_iff, List.map_append, List.nodup_append]
    refine ⟨h.once l, ?_, ?_⟩
    · split
      · rw [rows]
        exact once
      · exact List.nodup_nil
    · intro r old s new
      split at new
      · rw [rows] at new
        obtain ⟨⟨r, p, o⟩, there, rfl⟩ := List.mem_map.mp old
        rintro rfl
        have := (h.items l r p o).mp there
        rw [absent r new] at this
        cases this
      · cases new
  · have lens : ∀ l, ((rel.store level batch recent).identity.parts l).items.length =
        (rel.identity.parts l).items.length + if l = level then batch.len else 0 := by
      intro l
      rw [(stored l).length_eq, List.length_append]
      split
      · rw [ordered.items_length]
      · rfl
    have len : (rel.store level batch recent).len = rel.len + batch.len := rfl
    rw [len, h.len_eq]
    simp only [Tier.all, List.map_cons, List.map_nil, List.sum_cons, List.sum_nil, lens]
    cases level <;> simp <;> omega

theorem sound_new (arity : Nat) (perms : List (List Nat)) :
    Sound arity (fun _ => none) (.new arity perms) := by
  have walk : ∀ (perms : List (List Nat)) (others : List Index) (id : List Nat),
      (∀ ix ∈ others, isPerm ix.perm arity = true ∧ ∃ p, ix = .empty p) →
      ∀ ix ∈ perms.foldl (fun others p =>
        if p = id ∨ others.any (fun ix => ix.perm = p) ∨ !isPerm p arity then others
        else others ++ [.empty p]) others, isPerm ix.perm arity = true ∧ ∃ p, ix = .empty p := by
    intro perms
    induction perms with
    | nil => exact fun _ _ h => h
    | cons p rest ih =>
      intro others id h
      rw [List.foldl_cons]
      apply ih
      split
      · exact h
      · rename_i fresh
        intro ix mem
        rcases List.mem_append.mp mem with old | new
        · exact h ix old
        · rw [List.mem_singleton.mp new]
          refine ⟨?_, p, rfl⟩
          by_contra bad
          exact fresh (.inr (.inr (by simpa [Index.empty] using bad)))
  have all := walk perms [] ((List.range arity).map fun c => min c 255) (by simp)
  refine ⟨⟨indexOk_empty _ _, fun ix mem => (all ix mem).1, ?_, ?_⟩, rfl, ?_, ?_, rfl⟩
  · intro ix mem
    obtain ⟨_, p, rfl⟩ := all ix mem
    exact indexOk_empty _ _
  · intro ix mem
    obtain ⟨_, p, rfl⟩ := all ix mem
    exact mirrors_empty _ _
  · intro l r p o
    exact ⟨fun mem => (by cases mem), by rintro ⟨⟩⟩
  · exact fun l => List.nodup_nil

section Given

theorem flatRow_length {n : Nat} {handles : List Nat} {count i : Nat}
    (lt : i < rowCount n handles.length count) : (flatRow n handles i).length = n := by
  rw [flatRow, List.length_take, List.length_drop]
  unfold rowCount at lt
  split at lt
  · rename_i zero
    rw [zero, Nat.zero_min]
  · have whole : i < handles.length / n := lt.trans_le (min_le_right _ _)
    have fits : (i + 1) * n ≤ handles.length :=
      (Nat.mul_le_mul_right n whole).trans (Nat.div_mul_le_self _ _)
    rw [Nat.add_mul, Nat.one_mul] at fits
    omega

theorem given_wide {rows : EdbRows} {heights : Option (List Nat)} :
    ∀ r ∈ Relation.given rows heights, r.row.length = rows.arity := by
  intro r mem
  obtain ⟨i, lt, rfl⟩ := List.mem_map.mp mem
  exact flatRow_length (List.mem_range.mp lt)

theorem candidates_wide {n : Nat} {toAdd : List Nat} {metas : List RowMeta} :
    ∀ c ∈ Relation.candidates n toAdd metas, c.row.length = n := by
  intro c mem
  obtain ⟨i, lt, rfl⟩ := List.mem_map.mp mem
  exact flatRow_length (List.mem_range.mp lt)

end Given

section Drop

theorem Sound.present (h : Sound arity held rel) (r : Handles) :
    (∃ b ∈ rel.identity.batches, r ∈ b.rows) ↔ held r ≠ none := by
  constructor
  · rintro ⟨b, mem, there⟩
    obtain ⟨l, _, inPart⟩ := List.mem_flatMap.mp mem
    have ordered := (h.identity.parts l).batches b inPart
    rw [← ordered.items_rows] at there
    obtain ⟨⟨r, p, o⟩, item, rfl⟩ := List.mem_map.mp there
    rw [(h.items l r p o).mp (List.mem_flatMap.mpr ⟨b, inPart, item⟩)]
    exact Option.some_ne_none _
  · intro some
    obtain ⟨⟨l, p, o⟩, eq⟩ := Option.ne_none_iff_exists'.mp some
    obtain ⟨b, inPart, item⟩ := List.mem_flatMap.mp ((h.items l r p o).mpr eq)
    refine ⟨b, List.mem_flatMap.mpr ⟨l, by cases l <;> simp [Tier.all], inPart⟩, ?_⟩
    rw [← ((h.identity.parts l).batches b inPart).items_rows]
    exact List.mem_map_of_mem item

theorem Sound.dropPresent (h : Sound arity held rel) {α : Type} {row : α → Handles}
    {items : List α} (ascending : items.Pairwise fun x y => row x ≤ row y)
    (wide : ∀ a ∈ items, (row a).length = arity) :
    rel.dropPresent row items = items.filter fun a => held (row a) = none := by
  have ordered : ∀ b ∈ rel.identity.batches, Ordered arity b := by
    intro b mem
    obtain ⟨l, _, inPart⟩ := List.mem_flatMap.mp mem
    exact h.arity_eq ▸ (h.identity.parts l).batches b inPart
  rw [Relation.dropPresent, foldl_retainAbsent ordered ascending wide]
  apply List.filter_congr
  intro a _
  rw [decide_eq_decide]
  have present := h.present (row a)
  constructor
  · intro absent
    by_contra some
    obtain ⟨b, mem, there⟩ := present.mpr some
    exact absent b mem there
  · intro none b mem there
    exact present.mp ⟨b, mem, there⟩ none

section Fresh

variable {α β : Type} [LinearOrder β] {row : α → Handles} {rank : α → β}

theorem Sound.fresh (h : Sound arity held rel)
    (inj : ∀ a b, row a = row b → rank a = rank b → a = b) (l : List α) (r : α → α → Prop)
    [DecidableRel r] (lex : ∀ a b, r a b ↔ toLex (row a, rank a) ≤ toLex (row b, rank b))
    (wide : ∀ a ∈ l, (row a).length = arity) :
    let fresh := rel.dropPresent row (Kit.dedupBy row (l.insertionSort r))
    (∀ a, a ∈ fresh ↔ Kit.best row rank l (row a) = some a ∧ held (row a) = none) ∧
      fresh.Pairwise fun x y => row x < row y := by
  have trans : IsTrans α r := by
    refine ⟨fun a b c h h' => ?_⟩
    rw [lex] at h h' ⊢
    exact h.trans h'
  have total : Std.Total r := by
    refine ⟨fun a b => ?_⟩
    rw [lex, lex]
    exact le_total _ _
  have ascending : (Kit.dedupBy row (l.insertionSort r)).Pairwise fun x y => row x < row y := by
    apply Kit.dedupBy_ascending
    refine (List.pairwise_insertionSort r l).imp fun {a b} before => ?_
    rcases Prod.Lex.toLex_le_toLex.mp ((lex a b).mp before) with lt | ⟨eq, _⟩
    · exact lt.le
    · exact eq.le
  have wideKept : ∀ a ∈ Kit.dedupBy row (l.insertionSort r), (row a).length = arity :=
    fun a mem => wide a ((List.mem_insertionSort r).mp ((Kit.dedupBy_sublist _).subset mem))
  have kept := h.dropPresent (ascending.imp fun lt => lt.le) wideKept
  refine ⟨fun a => ?_, ?_⟩
  · rw [kept, List.mem_filter, Kit.mem_dedup_best inj l r lex, decide_eq_true_iff]
  · rw [kept]
    exact ascending.filter _

theorem fresh_rows {l fresh : List α} (toHeld : α → Held)
    (inj : ∀ a b, row a = row b → rank a = rank b → a = b)
    (mem : ∀ a, a ∈ fresh ↔ Kit.best row rank l (row a) = some a ∧ held (row a) = none) :
    let next : Contents := fun r => (held r).or ((Kit.best row rank l r).map toHeld)
    (∀ a ∈ fresh, held (row a) = none ∧ next (row a) = some (toHeld a)) ∧
      ∀ r, r ∉ fresh.map row → next r = held r := by
  refine ⟨fun a there => ?_, fun r absent => ?_⟩
  · obtain ⟨best, none⟩ := (mem a).mp there
    refine ⟨none, ?_⟩
    show (held (row a)).or ((Kit.best row rank l (row a)).map toHeld) = _
    rw [none, best]
    rfl
  · show (held r).or ((Kit.best row rank l r).map toHeld) = _
    cases eq : held r with
    | some x => rfl
    | none =>
      cases best : Kit.best row rank l r with
      | none => rfl
      | some a =>
        have same := ((Kit.best_eq_some inj l).mp best).2.1
        subst same
        exact absurd (List.mem_map_of_mem ((mem a).mpr ⟨best, eq⟩)) absent

end Fresh

end Drop

section Load

variable {fresh : List Loaded}

def picked (fresh : List Loaded) (level : Tier) : Batch :=
  Batch.collect ((fresh.filter fun r => r.level = level).map fun r =>
    (r.row, ⟨r.height, edbRule⟩, r.ordinal))

theorem picked_rows (fresh : List Loaded) (level : Tier) :
    (picked fresh level).rows = (fresh.filter fun r => r.level = level).map Loaded.row := by
  rw [picked, collect, List.map_map]
  rfl

theorem picked_items (fresh : List Loaded) (level : Tier) : (picked fresh level).items =
    (fresh.filter fun r => r.level = level).map fun r =>
      (r.row, ⟨r.height, edbRule⟩, r.ordinal) := collect_items

theorem mem_picked {level : Tier} {r : Handles} :
    r ∈ (picked fresh level).rows ↔ ∃ x ∈ fresh, x.level = level ∧ x.row = r := by
  rw [picked_rows, List.mem_map]
  simp only [List.mem_filter, decide_eq_true_iff, and_assoc]

theorem picked_ordered (ascending : fresh.Pairwise fun x y => x.row < y.row)
    (wide : ∀ r ∈ fresh, r.row.length = arity) (level : Tier) :
    Ordered arity (picked fresh level) := by
  apply collect_ordered
  · intro r mem
    obtain ⟨x, there, rfl⟩ := List.mem_map.mp mem
    exact wide x (List.mem_of_mem_filter there)
  · exact List.pairwise_map.mpr ((ascending.filter _).imp fun lt => lt.le)

def partLoaded (held next : Contents) (fresh : List Loaded) (stored : List Tier) : Contents :=
  fun r => if ∃ x ∈ fresh, x.row = r ∧ x.level ∈ stored then next r else held r

theorem Sound.storePicked {next : Contents} {stored : List Tier}
    (h : Sound arity (partLoaded held next fresh stored) rel) (level : Tier)
    (ascending : fresh.Pairwise fun x y => x.row < y.row)
    (wide : ∀ r ∈ fresh, r.row.length = arity)
    (becomes : ∀ x ∈ fresh, held x.row = none ∧ next x.row = some x.held)
    (other : level ∉ stored) :
    Sound arity (partLoaded held next fresh (stored ++ [level]))
      (rel.store level (picked fresh level) false) := by
  have unique : ∀ x ∈ fresh, ∀ y ∈ fresh, x.row = y.row → x = y := by
    have once : (fresh.map Loaded.row).Nodup :=
      List.pairwise_map.mpr (ascending.imp fun lt => lt.ne)
    exact fun x mem y mem' same => List.inj_on_of_nodup_map once mem mem' same
  apply h.store level (picked_ordered ascending wide level) (by simp)
  · rw [picked_rows]
    exact List.pairwise_map.mpr ((ascending.filter _).imp fun lt => lt.ne)
  · intro r mem
    obtain ⟨x, there, here, rfl⟩ := mem_picked.mp mem
    rw [partLoaded, if_neg, (becomes x there).1]
    rintro ⟨y, there', same, earlier⟩
    rw [unique y there' x there same, here] at earlier
    exact other earlier
  · intro r p o mem
    rw [picked_items] at mem
    obtain ⟨x, there, eq⟩ := List.mem_map.mp mem
    cases eq
    rw [List.mem_filter, decide_eq_true_iff] at there
    rw [partLoaded, if_pos ⟨x, there.1, rfl, by simp [there.2]⟩, (becomes x there.1).2,
      Loaded.held, there.2]
  · intro r absent
    rw [partLoaded, partLoaded]
    congr 1
    apply propext
    constructor
    · rintro ⟨x, there, same, among⟩
      rcases List.mem_append.mp among with among | here
      · exact ⟨x, there, same, among⟩
      · exact absurd (mem_picked.mpr ⟨x, there, List.mem_singleton.mp here, same⟩) absent
    · rintro ⟨x, there, same, among⟩
      exact ⟨x, there, same, List.mem_append_left _ among⟩

theorem Sound.load (h : Sound arity held rel) (rows : EdbRows) (heights : Option (List Nat)) :
    Sound arity (held.after arity (.load rows heights)) (rel.load rows heights).1 := by
  by_cases same : rows.arity = arity
  · have inj : ∀ a b : Loaded, a.row = b.row →
        toLex (a.level, toLex (a.height, a.ordinal)) =
          toLex (b.level, toLex (b.height, b.ordinal)) → a = b := by
      rintro ⟨r, l, k, o⟩ ⟨r', l', k', o'⟩ rfl eq
      cases eq
      rfl
    have wideAll : ∀ r ∈ Relation.given rows heights, r.row.length = arity :=
      fun r mem => (given_wide r mem).trans same
    obtain ⟨mem, ascending⟩ := h.fresh inj (Relation.given rows heights) Relation.loadOrder
      (fun _ _ => Iff.rfl) wideAll
    obtain ⟨becomes, others⟩ := fresh_rows Loaded.held inj mem
    rw [Relation.load, if_neg (not_not.mpr (same.trans h.arity_eq.symm)), Contents.after,
      if_neg (not_not.mpr same)]
    generalize rel.dropPresent Loaded.row (Kit.dedupBy Loaded.row
      ((Relation.given rows heights).insertionSort Relation.loadOrder)) = fresh
      at mem ascending becomes others ⊢
    have wide : ∀ r ∈ fresh, r.row.length = arity := fun r there =>
      wideAll r ((Kit.best_eq_some inj _).mp ((mem r).mp there).1).1
    let next : Contents := fun row =>
      (held row).or ((bestLoaded (Relation.given rows heights) row).map Loaded.held)
    have start : partLoaded held next fresh [] = held := by
      funext r
      simp [partLoaded]
    have done : partLoaded held next fresh [.fact, .derived, .heuristic] = next := by
      funext r
      by_cases there : r ∈ fresh.map Loaded.row
      · obtain ⟨x, mem', rfl⟩ := List.mem_map.mp there
        rw [partLoaded, if_pos ⟨x, mem', rfl, by cases x.level <;> simp⟩]
      · rw [partLoaded, if_neg]
        · exact (others r there).symm
        · rintro ⟨x, mem', rfl, _⟩
          exact there (List.mem_map_of_mem mem')
    have empty : Sound arity (partLoaded held next fresh []) rel := start.symm ▸ h
    have facts := empty.storePicked .fact ascending wide becomes (by simp)
    have derived := facts.storePicked .derived ascending wide becomes (by simp)
    have heuristics := derived.storePicked .heuristic ascending wide becomes (by simp)
    rw [show ([] ++ [Tier.fact]) ++ [.derived] ++ [.heuristic] = [.fact, .derived, .heuristic]
      from rfl, done] at heuristics
    exact heuristics
  · rw [Relation.load, if_pos (fun eq => same (eq.trans h.arity_eq)), Contents.after, if_pos same]
    exact h

end Load

section Round

variable (h : Sound arity held rel) (level : Tier) (toAdd : List Nat) (metas : List RowMeta)

def sortedRound (n : Nat) (toAdd : List Nat) (metas : List RowMeta) : List Candidate :=
  Kit.dedupBy Candidate.row
    ((Relation.candidates n toAdd metas).insertionSort Relation.roundOrder)

theorem candidate_inj : ∀ a b : Candidate, a.row = b.row →
    toLex (a.prov.height, a.prov.rule) = toLex (b.prov.height, b.prov.rule) → a = b := by
  rintro ⟨r, k, i⟩ ⟨r', k', i'⟩ rfl eq
  cases eq
  rfl

include h in
theorem Sound.roundFresh :
    let fresh := (rel.advance.dropLowering level (sortedRound arity toAdd metas)).1
    (∀ c, c ∈ fresh ↔ bestCandidate (Relation.candidates arity toAdd metas) c.row = some c ∧
      held c.row = none) ∧ fresh.Pairwise fun x y => x.row < y.row := by
  have advanced := h.toCoherent.advance
  have sound : Sound arity held rel.advance := h.of_same advanced.1 advanced.2
  rw [dropLowering_fst]
  exact sound.fresh candidate_inj (Relation.candidates arity toAdd metas) Relation.roundOrder
    (fun _ _ => Iff.rfl) candidates_wide

/-- The relation before a round's batch is stored. -/
def lowered (rel : Relation) (level : Tier) (toAdd : List Nat) (metas : List RowMeta) : Relation :=
  let rel := rel.advance
  let found := rel.dropLowering level (sortedRound rel.arity toAdd metas)
  if found.2.isEmpty then rel else rel.lowerRows level found.2

include h in
theorem Sound.lowered : Sound arity held (lowered rel level toAdd metas) ∧
    ∀ l, ((Storage.lowered rel level toAdd metas).identity.parts l).recent.items = [] := by
  have advanced := h.toCoherent.advance
  have sound : Sound arity held rel.advance := h.of_same advanced.1 advanced.2
  obtain ⟨sorted, mem⟩ := dropLowering_snd level rel.advance
    (sortedRound rel.advance.arity toAdd metas)
  have wide : ∀ c ∈ (rel.advance.dropLowering level
      (sortedRound rel.advance.arity toAdd metas)).2, c.1.row.length = rel.advance.arity := by
    intro c there
    have among := (Kit.dedupBy_sublist _).subset (mem c there)
    exact candidates_wide c.1 ((List.mem_insertionSort _).mp among)
  unfold Storage.lowered
  dsimp only
  split
  · exact ⟨sound, fun l => rfl⟩
  · obtain ⟨coherent, same⟩ := sound.toCoherent.lowerRows level sorted wide
    refine ⟨sound.of_same coherent same.items, fun l => ?_⟩
    rw [same.recent l]
    rfl

def roundBatch (rel : Relation) (level : Tier) (toAdd : List Nat) (metas : List RowMeta) : Batch :=
  Batch.collect ((rel.advance.dropLowering level (sortedRound rel.arity toAdd metas)).1.map
    fun c => (c.row, c.prov, noOrdinal))

theorem insertRound_eq : rel.insertRound level toAdd metas =
    ((lowered rel level toAdd metas).store level (roundBatch rel level toAdd metas) true,
      ⟨(roundBatch rel level toAdd metas).len,
        (rel.advance.dropLowering level (sortedRound rel.arity toAdd metas)).2.length⟩) := rfl

include h in
theorem Sound.insertRound : Sound arity (held.after arity (.insertRound level toAdd metas))
    (rel.insertRound level toAdd metas).1 := by
  obtain ⟨mem, ascending⟩ := h.roundFresh level toAdd metas
  obtain ⟨sound, spare⟩ := h.lowered level toAdd metas
  have becomes := fresh_rows (fun c => ⟨level, c.prov, noOrdinal⟩) candidate_inj mem
  have batch : roundBatch rel level toAdd metas = Batch.collect
      ((rel.advance.dropLowering level (sortedRound arity toAdd metas)).1.map
        fun c => (c.row, c.prov, noOrdinal)) := by
    rw [roundBatch, h.arity_eq]
  rw [insertRound_eq, batch]
  generalize (rel.advance.dropLowering level (sortedRound arity toAdd metas)).1 = fresh
    at mem ascending becomes
  have rows : (Batch.collect (fresh.map fun c => (c.row, c.prov, noOrdinal))).rows =
      fresh.map Candidate.row := by
    rw [collect, List.map_map]
    rfl
  have items : (Batch.collect (fresh.map fun c => (c.row, c.prov, noOrdinal))).items =
      fresh.map fun c => (c.row, c.prov, noOrdinal) := collect_items
  have ordered : Ordered arity
      (Batch.collect (fresh.map fun c => (c.row, c.prov, noOrdinal))) := by
    apply collect_ordered
    · intro r there
      obtain ⟨c, among, rfl⟩ := List.mem_map.mp there
      exact candidates_wide c ((Kit.best_eq_some candidate_inj _).mp ((mem c).mp among).1).1
    · exact List.pairwise_map.mpr (ascending.imp fun lt => lt.le)
  apply sound.store level ordered (fun _ => spare level)
  · rw [rows]
    exact List.pairwise_map.mpr (ascending.imp fun lt => lt.ne)
  · intro r there
    rw [rows] at there
    obtain ⟨c, among, rfl⟩ := List.mem_map.mp there
    exact (becomes.1 c among).1
  · intro r p o there
    rw [items] at there
    obtain ⟨c, among, eq⟩ := List.mem_map.mp there
    cases eq
    exact (becomes.1 c among).2
  · intro r absent
    rw [rows] at absent
    exact becomes.2 r absent

include h in
theorem Sound.added : (rel.insertRound level toAdd metas).2.added =
    (((Relation.candidates arity toAdd metas).map Candidate.row).dedup.filter fun r =>
      held r = none).length := by
  obtain ⟨mem, ascending⟩ := h.roundFresh level toAdd metas
  have len : (rel.insertRound level toAdd metas).2.added =
      ((rel.advance.dropLowering level (sortedRound arity toAdd metas)).1.map
        Candidate.row).length := by
    rw [insertRound_eq]
    show (roundBatch rel level toAdd metas).len = _
    rw [roundBatch, collect_len, List.length_map, List.length_map, h.arity_eq]
  rw [len]
  generalize (rel.advance.dropLowering level (sortedRound arity toAdd metas)).1 = fresh
    at mem ascending
  apply List.Perm.length_eq
  rw [List.perm_ext_iff_of_nodup (List.pairwise_map.mpr (ascending.imp fun lt => lt.ne))
    ((List.nodup_dedup _).filter _)]
  intro r
  rw [List.mem_filter, List.mem_dedup, decide_eq_true_iff]
  constructor
  · intro there
    obtain ⟨c, among, rfl⟩ := List.mem_map.mp there
    obtain ⟨best, absent⟩ := (mem c).mp among
    exact ⟨List.mem_map_of_mem ((Kit.best_eq_some candidate_inj _).mp best).1, absent⟩
  · rintro ⟨there, absent⟩
    obtain ⟨c, among, rfl⟩ := List.mem_map.mp there
    have given : ∃ b, bestCandidate (Relation.candidates arity toAdd metas) c.row = some b :=
      Kit.exists_best _ among
    obtain ⟨b, best⟩ := given
    have same := ((Kit.best_eq_some candidate_inj _).mp best).2.1
    rw [← same] at best absent ⊢
    exact List.mem_map_of_mem ((mem b).mpr ⟨best, absent⟩)

include h in
theorem Sound.recent_items (r : Handles) (p : RowMeta) (o : Nat) :
    (r, p, o) ∈ ((rel.insertRound level toAdd metas).1.identity.parts level).recent.items ↔
      held r = none ∧ o = noOrdinal ∧
        (⟨r, p⟩ : Candidate) ∈ Relation.candidates arity toAdd metas ∧
        ∀ c ∈ Relation.candidates arity toAdd metas, c.row = r →
          toLex (p.height, p.rule) ≤ toLex (c.prov.height, c.prov.rule) := by
  obtain ⟨mem, _⟩ := h.roundFresh level toAdd metas
  have recent : ((rel.insertRound level toAdd metas).1.identity.parts level).recent =
      roundBatch rel level toAdd metas := by
    rw [insertRound_eq]
    simp only [Relation.store, Index.store, Function.update_self, if_true]
  rw [recent, roundBatch, collect_items, h.arity_eq, List.mem_map]
  constructor
  · rintro ⟨c, there, eq⟩
    cases eq
    obtain ⟨best, absent⟩ := (mem c).mp there
    obtain ⟨among, _, least⟩ := (Kit.best_eq_some candidate_inj _).mp best
    exact ⟨absent, rfl, among, least⟩
  · rintro ⟨absent, rfl, among, least⟩
    refine ⟨⟨r, p⟩, (mem _).mpr ⟨?_, absent⟩, rfl⟩
    exact (Kit.best_eq_some candidate_inj _).mpr ⟨among, rfl, least⟩

end Round

section Run

theorem Sound.apply (h : Sound arity held rel) (op : Op) :
    Sound arity (held.after arity op) (rel.apply op) := by
  cases op with
  | load rows heights => exact h.load rows heights
  | insertRound level toAdd metas => exact h.insertRound level toAdd metas
  | advance =>
    have kept := h.toCoherent.advance
    exact h.of_same kept.1 kept.2
  | sealRuns =>
    have kept := h.toCoherent.sealRuns
    exact h.of_same kept.1 kept.2
  | ensureIndex perm =>
    have kept := h.toCoherent.ensureIndex perm
    exact h.of_same kept.1 kept.2

theorem run_sound (arity : Nat) (perms : List (List Nat)) (ops : List Op) :
    Sound arity (heldAfter arity ops) (Relation.run arity perms ops) := by
  have walk : ∀ (ops : List Op) (held : Contents) (rel : Relation), Sound arity held rel →
      Sound arity (ops.foldl (Contents.after arity) held) (ops.foldl Relation.apply rel) := by
    intro ops
    induction ops with
    | nil => exact fun _ _ h => h
    | cons op rest ih => exact fun held rel h => ih _ _ (h.apply op)
  exact walk ops _ _ (sound_new arity perms)

end Run

section Represents

/-- The indexes represent the contents: strictly sorted batches in shrinking runs, each row
held in one batch of one level of every index, and the same runs in each. -/
structure Represents (held : Contents) (rel : Relation) : Prop where
  strict : ∀ ix ∈ rel.indexes, ∀ l, ∀ b ∈ (ix.parts l).batches, b.rows.Pairwise (· < ·)
  once : ∀ ix ∈ rel.indexes, (ix.batches.flatMap Batch.rows).Nodup
  holds : ∀ l r p o, (∃ b ∈ (rel.identity.parts l).batches, (r, p, o) ∈ b.items) ↔
    held r = some ⟨l, p, o⟩
  stable : ∀ ix ∈ rel.others, ∀ l, List.Forall₂ (AlignedBatch ix.perm)
    (rel.identity.parts l).stable (ix.parts l).stable
  recent : ∀ ix ∈ rel.others, ∀ l,
    AlignedBatch ix.perm (rel.identity.parts l).recent (ix.parts l).recent
  shrink : ∀ ix ∈ rel.indexes, ∀ l,
    (ix.parts l).stable.IsChain fun earlier later => 2 * later.len < earlier.len
  len : rel.len = (rel.identity.batches.flatMap Batch.rows).length

theorem isPerm_iff {perm : List Nat} {n : Nat} :
    isPerm perm n = true ↔ perm.length = n ∧ perm.Nodup ∧ ∀ c ∈ perm, c < n := decide_eq_true_iff

theorem permute_injOn {perm : List Nat} {n : Nat} (valid : isPerm perm n = true) {x y : Handles}
    (wideX : x.length = n) (wideY : y.length = n) (same : permute perm x = permute perm y) :
    x = y := by
  obtain ⟨len, once, below⟩ := isPerm_iff.mp valid
  have all : ∀ c < n, c ∈ perm := by
    intro c lt
    have sub : perm ⊆ List.range n := fun d mem => List.mem_range.mpr (below d mem)
    have perm' : perm.Perm (List.range n) :=
      (List.subperm_of_subset once sub).perm_of_length_le (by rw [List.length_range, len])
    exact perm'.mem_iff.mpr (List.mem_range.mpr lt)
  apply List.ext_getElem (wideX.trans wideY.symm)
  intro c ltX ltY
  have at' := List.map_inj_left.mp same c (all c (wideX ▸ ltX))
  rw [List.getD_eq_getElem _ _ ltX, List.getD_eq_getElem _ _ ltY] at at'
  exact at'

theorem batches_rows {ix : Index} {n : Nat} (h : IndexOk n ix) (l : Tier) :
    (ix.parts l).batches.flatMap Batch.rows = (ix.parts l).items.map Prod.fst := by
  rw [Part.items, List.map_flatMap]
  apply List.flatMap_congr
  intro b mem
  exact ((h.parts l).batches b mem).items_rows.symm

theorem Sound.rows_once (h : Sound arity held rel) :
    (rel.identity.batches.flatMap Batch.rows).Nodup := by
  rw [Index.batches, List.flatMap_assoc, List.nodup_flatMap]
  constructor
  · intro l _
    rw [batches_rows h.identity]
    exact h.once l
  · have apart : ∀ l l', l ≠ l' → List.Disjoint
        ((rel.identity.parts l).batches.flatMap Batch.rows)
        ((rel.identity.parts l').batches.flatMap Batch.rows) := by
      intro l l' ne r here there
      rw [batches_rows h.identity] at here there
      obtain ⟨⟨r, p, o⟩, mem, rfl⟩ := List.mem_map.mp here
      obtain ⟨⟨r', p', o'⟩, mem', eq⟩ := List.mem_map.mp there
      cases eq
      have one := (h.items l r p o).mp mem
      rw [(h.items l' r p' o').mp mem'] at one
      cases one
      exact ne rfl
    have tiers : Tier.all.Nodup := by decide
    exact tiers.imp fun ne => apart _ _ ne

theorem aligned_items {perm : List Nat} {l l' : List Batch}
    (aligned : List.Forall₂ (AlignedBatch perm) l l') :
    (l'.flatMap Batch.items).Perm ((l.flatMap Batch.items).map (permuteItem perm)) := by
  induction aligned with
  | nil => exact .refl _
  | cons first _ ih =>
    rw [List.flatMap_cons, List.flatMap_cons, List.map_append]
    exact List.Perm.append first ih

theorem Mirrors.rows {id ix : Index} {n n' : Nat} (hid : IndexOk n id) (hix : IndexOk n' ix)
    (h : Mirrors id ix) : (ix.batches.flatMap Batch.rows).Perm
      ((id.batches.flatMap Batch.rows).map (permute ix.perm)) := by
  have items : ∀ l, (ix.parts l).items.Perm ((id.parts l).items.map (permuteItem ix.perm)) := by
    intro l
    rw [Part.items_eq, Part.items_eq, List.map_append]
    exact List.Perm.append (aligned_items (h.parts l).stable) (h.parts l).recent
  rw [Index.batches, Index.batches, List.flatMap_assoc, List.flatMap_assoc, List.map_flatMap]
  apply List.Perm.flatMap_left
  intro l _
  rw [batches_rows hix, batches_rows hid, List.map_map]
  refine ((items l).map Prod.fst).trans ?_
  rw [List.map_map]
  exact .refl _

theorem Sound.represents (h : Sound arity held rel) : Represents held rel := by
  have ok : ∀ ix ∈ rel.indexes, ∃ n, IndexOk n ix := by
    intro ix mem
    rcases List.mem_cons.mp mem with rfl | mem
    · exact ⟨_, h.identity⟩
    · exact ⟨_, h.others ix mem⟩
  have once : ∀ ix ∈ rel.indexes, (ix.batches.flatMap Batch.rows).Nodup := by
    intro ix mem
    rcases List.mem_cons.mp mem with rfl | mem
    · exact h.rows_once
    · rw [((h.mirrors ix mem).rows h.identity (h.others ix mem)).nodup_iff]
      have wide : ∀ r ∈ rel.identity.batches.flatMap Batch.rows, r.length = rel.arity := by
        intro r there
        obtain ⟨b, among, here⟩ := List.mem_flatMap.mp there
        obtain ⟨l, _, inPart⟩ := List.mem_flatMap.mp among
        exact ((h.identity.parts l).batches b inPart).wide r here
      exact h.rows_once.map_on fun x memX y memY same =>
        permute_injOn (h.perms ix mem) (wide x memX) (wide y memY) same
  refine ⟨fun ix mem l b there => ?_, once, fun l r p o => ?_, fun ix mem l => ?_,
    fun ix mem l => ?_, fun ix mem l => ?_, ?_⟩
  · obtain ⟨n, okIx⟩ := ok ix mem
    have ordered := (okIx.parts l).batches b there
    have among : b ∈ ix.batches := List.mem_flatMap.mpr ⟨l, by cases l <;> simp [Tier.all], there⟩
    have distinct : b.rows.Nodup := (List.nodup_flatMap.mp (once ix mem)).1 b among
    exact (ordered.ascending.and distinct).imp fun both => lt_of_le_of_ne both.1 both.2
  · rw [← h.items, Part.items, List.mem_flatMap]
  · exact ((h.mirrors ix mem).parts l).stable
  · exact ((h.mirrors ix mem).parts l).recent
  · obtain ⟨n, okIx⟩ := ok ix mem
    exact (okIx.parts l).shrink
  · rw [h.len_eq, Index.batches, List.flatMap_assoc, List.length_flatMap]
    congr 1
    apply List.map_congr_left
    intro l _
    rw [batches_rows h.identity, List.length_map]

/-- Over any run the indexes represent the first additions of each row, and a round reports
and stores exactly the distinct candidates not held, each with its least height and rule. -/
theorem run_represents (arity : Nat) (perms : List (List Nat)) (ops : List Op) :
    Represents (heldAfter arity ops) (Relation.run arity perms ops) ∧
      ∀ level toAdd metas,
        let round := (Relation.run arity perms ops).insertRound level toAdd metas
        let cands := Relation.candidates arity toAdd metas
        round.2.added =
          ((cands.map Candidate.row).dedup.filter fun r => heldAfter arity ops r = none).length ∧
        ∀ r p o, (r, p, o) ∈ (round.1.identity.parts level).recent.items ↔
          heldAfter arity ops r = none ∧ o = noOrdinal ∧ (⟨r, p⟩ : Candidate) ∈ cands ∧
            ∀ c ∈ cands, c.row = r →
              toLex (p.height, p.rule) ≤ toLex (c.prov.height, c.prov.rule) := by
  have sound := run_sound arity perms ops
  refine ⟨sound.represents, fun level toAdd metas => ?_⟩
  refine ⟨sound.added level toAdd metas, fun r p o => ?_⟩
  exact sound.recent_items level toAdd metas r p o

end Represents

end Glia.Rules.Storage
