import Glia.Rules.AggregateExact
import Glia.Rules.Cursor
import Glia.Rules.Facts

/-! The relation an evaluation reads is a list of rows: over any run it holds the rows its
indexes hold, at the level and with the provenance each was added with, those of the last round
as recent. What a row is lowered to at other levels is not compared. -/
namespace Glia.Rules.Storage

open Batch

section First
variable {α γ β κ : Type} [LinearOrder β] [DecidableEq κ] {key : α → κ} {rank : α → β}
  (f : α → γ) (row : γ → Row) (rank' : γ → β)

/-- Sorted by row and rank, the first of each row is the least of those given. -/
theorem mem_firstOf_map (inj : ∀ a b, key a = key b → rank a = rank b → a = b)
    (rows : ∀ a b, row (f a) = row (f b) ↔ key a = key b) (ranks : ∀ a, rank' (f a) = rank a)
    (r : γ → γ → Prop) [DecidableRel r]
    (lex : ∀ a b, r a b ↔ toLex (row a, rank' a) ≤ toLex (row b, rank' b)) (l : List α) (x : γ) :
    x ∈ firstOf row ((l.map f).insertionSort r) ↔
      ∃ a, Kit.best key rank l (key a) = some a ∧ x = f a := by
  have trans : IsTrans γ r := ⟨fun a b c h h' => by
    rw [lex] at h h' ⊢
    exact h.trans h'⟩
  have total : Std.Total r := ⟨fun a b => by
    rw [lex, lex]
    exact le_total _ _⟩
  have sorted : ((l.map f).insertionSort r).Pairwise r := List.pairwise_insertionSort r _
  have least {a b : α} (below : r (f a) (f b)) (same : key a = key b) : rank a ≤ rank b := by
    rcases Prod.Lex.toLex_le_toLex.mp ((lex _ _).mp below) with lt | ⟨_, le⟩
    · rw [(rows a b).mpr same] at lt
      exact absurd lt (lt_irrefl _)
    · rwa [ranks, ranks] at le
  have given {a : α} (mem : a ∈ l) : f a ∈ (l.map f).insertionSort r :=
    (List.mem_insertionSort r).mpr (List.mem_map_of_mem mem)
  constructor
  · intro kept
    obtain ⟨a, mem, rfl⟩ :=
      List.mem_map.mp ((List.mem_insertionSort r).mp ((firstOf_sublist _).subset kept))
    refine ⟨a, (Kit.best_eq_some inj l).mpr ⟨mem, rfl, fun b there same => ?_⟩, rfl⟩
    rcases firstOf_least sorted kept (given there) ((rows b a).mpr same) with eq | below
    · exact (ranks b ▸ ranks a ▸ congrArg rank' eq).ge
    · exact least below same.symm
  · rintro ⟨a, best, rfl⟩
    obtain ⟨mem, _, most⟩ := (Kit.best_eq_some inj l).mp best
    obtain ⟨x, kept, same⟩ := @exists_firstOf _ row _ _ (given mem)
    obtain ⟨b, there, rfl⟩ :=
      List.mem_map.mp ((List.mem_insertionSort r).mp ((firstOf_sublist _).subset kept))
    have sameKey := (rows b a).mp same
    rcases firstOf_least sorted kept (given mem) same.symm with eq | below
    · rwa [eq]
    · rwa [inj a b sameKey.symm (le_antisymm (most b there sameKey) (least below sameKey))]

end First

section Replay
variable (value : Nat → Value)

/-- The values a row's handles stand for. -/
def valuesOf (row : Handles) : Row := row.map value

def Loaded.given (r : Loaded) : EdbRow × Nat :=
  (⟨valuesOf value r.row, r.level, r.ordinal⟩, r.height)

def Candidate.given (c : Candidate) : Rules.Candidate := ⟨valuesOf value c.row, c.prov⟩

def replayOp (list : Rules.Relation) : Op → Rules.Relation
  | .load rows heights =>
    list.load rows.arity ((Relation.given rows heights).map (Loaded.given value))
  | .insertRound level toAdd metas =>
    (list.insertRound level
      ((Relation.candidates list.arity toAdd metas).map (Candidate.given value))).1
  | .advance => list.advance
  | .sealRuns => list.sealed
  | .ensureIndex _ => list

def replay (arity : Nat) (ops : List Op) : Rules.Relation :=
  ops.foldl (replayOp value) (.new arity)

end Replay

/-- A row with its home level, its provenance there and its witness edge. -/
def keptOf (e : Entry) : Row × Held := (e.row, ⟨e.home, e.own, e.ordinal⟩)

variable {value : Nat → Value} {arity : Nat} {held : Contents} {rel : Relation}
  {list : Rules.Relation}

theorem valuesOf_inj (apart : Function.Injective value) {r r' : Handles} :
    valuesOf value r = valuesOf value r' ↔ r = r' := (List.map_injective_iff.mpr apart).eq_iff

/-- The list holds the rows of the indexes, the last round's as recent ones. -/
structure Shows (value : Nat → Value) (arity : Nat) (held : Contents) (rel : Relation)
    (list : Rules.Relation) : Prop extends Sound arity held rel where
  list_arity : list.arity = arity
  rows : ∀ row h, (∃ e ∈ list.rows, keptOf e = (row, h)) ↔
    ∃ r, row = valuesOf value r ∧ held r = some h
  recent : ∀ row h, (∃ e ∈ list.rows, e.recent = true ∧ keptOf e = (row, h)) ↔
    ∃ r, row = valuesOf value r ∧ (r, h.prov, h.ordinal) ∈ (rel.identity.parts h.level).recent.items
  apart : (list.rows.map Entry.row).Nodup

theorem Shows.find_none (h : Shows value arity held rel list) (inj : Function.Injective value)
    (r : Handles) : list.find (valuesOf value r) = none ↔ held r = none := by
  rw [Rules.Relation.find, List.find?_eq_none]
  constructor
  · intro absent
    by_contra some
    obtain ⟨k, at'⟩ := Option.ne_none_iff_exists'.mp some
    obtain ⟨e, mem, same⟩ := (h.rows _ k).mpr ⟨r, rfl, at'⟩
    exact absent e mem (beq_iff_eq.mpr (congrArg Prod.fst same))
  · intro none e mem same
    obtain ⟨r', eq, at'⟩ := (h.rows e.row _).mp ⟨e, mem, rfl⟩
    rw [(valuesOf_inj inj).mp (eq.symm.trans (by simpa using same)), none] at at'
    cases at'

/-- The items kept whose row is not held, as the entries made of them. -/
theorem mem_fresh {α γ : Type} {given : List γ} {f : α → γ} {row : α → Handles}
    {rowOf : γ → Row} {made : γ → Entry} {toHeld : α → Held} {chosen : α → Prop}
    (firsts : ∀ x, x ∈ given ↔ ∃ a, chosen a ∧ x = f a)
    (rows : ∀ a, rowOf (f a) = valuesOf value (row a))
    (kept : ∀ a, keptOf (made (f a)) = (valuesOf value (row a), toHeld a)) (k : Row × Held) :
    (∃ e ∈ (given.filter fun x => (list.find (rowOf x)).isNone).map made, keptOf e = k) ↔
      ∃ a, chosen a ∧ list.find (valuesOf value (row a)) = none ∧
        k = (valuesOf value (row a), toHeld a) := by
  constructor
  · rintro ⟨e, mem, rfl⟩
    obtain ⟨x, there, rfl⟩ := List.mem_map.mp mem
    obtain ⟨inside, absent⟩ := List.mem_filter.mp there
    obtain ⟨a, best, rfl⟩ := (firsts x).mp inside
    rw [rows] at absent
    exact ⟨a, best, Option.isNone_iff_eq_none.mp absent, kept a⟩
  · rintro ⟨a, best, absent, rfl⟩
    refine ⟨_, List.mem_map_of_mem (List.mem_filter.mpr ⟨(firsts _).mpr ⟨a, best, rfl⟩, ?_⟩),
      kept a⟩
    rw [rows]
    exact Option.isNone_iff_eq_none.mpr absent

section Add
variable {α β : Type} [LinearOrder β] {row : α → Handles} {rank : α → β} {l : List α}
  {toHeld : α → Held} {old fresh : List Entry}

/-- The rows held, then the best given of each row not held. -/
theorem Shows.rows_add (h : Shows value arity held rel list) (inj : Function.Injective value)
    (best : ∀ a b, row a = row b → rank a = rank b → a = b)
    (same : old.map keptOf = list.rows.map keptOf)
    (new : ∀ k, (∃ e ∈ fresh, keptOf e = k) ↔ ∃ a, Kit.best row rank l (row a) = some a ∧
      list.find (valuesOf value (row a)) = none ∧ k = (valuesOf value (row a), toHeld a))
    (r : Row) (k : Held) : (∃ e ∈ old ++ fresh, keptOf e = (r, k)) ↔
      ∃ x, r = valuesOf value x ∧
        (held x).or ((Kit.best row rank l x).map toHeld) = some k := by
  have before : (∃ e ∈ old, keptOf e = (r, k)) ↔ ∃ x, r = valuesOf value x ∧ held x = some k := by
    rw [← h.rows, ← List.mem_map, same, List.mem_map]
  simp only [List.mem_append, or_and_right, exists_or, before, new]
  constructor
  · rintro (⟨x, rfl, at'⟩ | ⟨a, least, absent, eq⟩)
    · exact ⟨x, rfl, by rw [at', Option.some_or]⟩
    · cases eq
      refine ⟨row a, rfl, ?_⟩
      rw [(h.find_none inj _).mp absent, Option.none_or, least, Option.map_some]
  · rintro ⟨x, rfl, at'⟩
    cases known : held x with
    | some k' =>
      rw [known, Option.some_or] at at'
      exact .inl ⟨x, rfl, known.trans at'⟩
    | none =>
      rw [known, Option.none_or] at at'
      obtain ⟨a, least, rfl⟩ := Option.map_eq_some_iff.mp at'
      obtain rfl := ((Kit.best_eq_some best l).mp least).2.1
      exact .inr ⟨a, least, (h.find_none inj _).mpr known, rfl⟩

end Add

section Steps

theorem store_recent (rel : Relation) (level : Tier) (batch : Batch) (recent : Bool) (l : Tier) :
    ((rel.store level batch recent).identity.parts l).recent =
      if l = level ∧ recent = true then batch else (rel.identity.parts l).recent := by
  by_cases same : l = level
  · subst same
    simp only [Relation.store, Index.store, Function.update_self, true_and]
    split <;> rfl
  · simp only [Relation.store, Index.store, Function.update_of_ne same, same, false_and, if_false]

theorem load_recent (rel : Relation) (rows : EdbRows) (heights : Option (List Nat)) (l : Tier) :
    ((rel.load rows heights).1.identity.parts l).recent = (rel.identity.parts l).recent := by
  unfold Relation.load
  split
  · rfl
  · simp only [Tier.all, List.foldl_cons, List.foldl_nil, store_recent, Bool.false_eq_true,
      and_false, if_false]

variable (h : Shows value arity held rel list)
include h

theorem Shows.advance : Shows value arity held rel.advance list.advance := by
  have kept := h.toCoherent.advance
  have rows : list.advance.rows.map keptOf = list.rows.map keptOf := by
    simp [Rules.Relation.advance, keptOf]
  refine ⟨h.of_same kept.1 kept.2, h.list_arity, fun row k => ?_, fun row k => ?_, ?_⟩
  · rw [← h.rows, ← List.mem_map, rows, List.mem_map]
  · rw [advance_recent, empty_items]
    constructor
    · rintro ⟨e, mem, recent, _⟩
      obtain ⟨old, _, rfl⟩ := List.mem_map.mp mem
      cases recent
    · rintro ⟨_, _, mem⟩
      cases mem
  · simpa [Rules.Relation.advance, Function.comp_def] using h.apart

theorem Shows.seal : Shows value arity held rel.sealRuns list.sealed := by
  have kept := h.toCoherent.sealRuns
  have advanced := h.advance
  refine ⟨h.of_same kept.1 kept.2, h.list_arity, advanced.rows, fun row k => ?_, advanced.apart⟩
  refine (advanced.recent row k).trans (exists_congr fun r => and_congr_right fun _ => ?_)
  have spare : (rel.sealRuns.identity.parts k.level).recent = .empty := by
    show (((rel.advance.identity.parts k.level)).sealRuns).recent = _
    unfold Part.sealRuns
    split <;> rfl
  rw [spare, advance_recent]

theorem Shows.ensure (perm : List Nat) : Shows value arity held (rel.ensureIndex perm).1 list := by
  have kept := h.toCoherent.ensureIndex perm
  have identity : (rel.ensureIndex perm).1.identity = rel.identity := by
    unfold Relation.ensureIndex
    split
    · rfl
    · split <;> rfl
  refine ⟨h.of_same kept.1 kept.2, h.list_arity, h.rows, fun row k => ?_, h.apart⟩
  rw [identity]
  exact h.recent row k

end Steps

section Fill
variable (h : Shows value arity held rel list)
include h

theorem Shows.apart_add {old fresh : List Entry}
    (same : old.map Entry.row = list.rows.map Entry.row) (once : (fresh.map Entry.row).Nodup)
    (absent : ∀ e ∈ fresh, list.find e.row = none) : ((old ++ fresh).map Entry.row).Nodup := by
  rw [List.map_append, List.nodup_append, same]
  refine ⟨h.apart, once, ?_⟩
  rintro row held row' new rfl
  obtain ⟨e, mem, eq⟩ := List.mem_map.mp held
  obtain ⟨e', mem', rfl⟩ := List.mem_map.mp new
  exact List.find?_eq_none.mp (absent e' mem') e mem (beq_iff_eq.mpr eq)

theorem Shows.load (inj : Function.Injective value) (rows : EdbRows)
    (heights : Option (List Nat)) :
    Shows value arity (held.after arity (.load rows heights)) (rel.load rows heights).1
      (replayOp value list (.load rows heights)) := by
  have sound := h.toSound.load rows heights
  rw [replayOp, Rules.Relation.load, h.list_arity]
  by_cases wide : rows.arity = arity
  · rw [if_neg (not_not.mpr wide)]
    have best : ∀ a b : Loaded, a.row = b.row →
        toLex (a.level, toLex (a.height, a.ordinal)) =
          toLex (b.level, toLex (b.height, b.ordinal)) → a = b := by
      rintro ⟨r, l, k, o⟩ ⟨r', l', k', o'⟩ rfl eq
      cases eq
      rfl
    have firsts := mem_firstOf_map (Loaded.given value) (fun r => r.1.row)
      (fun r => toLex (r.1.level, toLex (r.2, r.1.ordinal))) best (fun _ _ => valuesOf_inj inj)
      (fun _ => rfl) Rules.Relation.loadOrder (fun _ _ => Iff.rfl) (Relation.given rows heights)
    have once := @firstOf_keys_nodup _ (fun r : EdbRow × Nat => r.1.row)
      (((Relation.given rows heights).map (Loaded.given value)).insertionSort
        Rules.Relation.loadOrder)
    generalize firstOf (fun r : EdbRow × Nat => r.1.row)
      (((Relation.given rows heights).map (Loaded.given value)).insertionSort
        Rules.Relation.loadOrder) = given at firsts once
    refine ⟨sound, rfl, fun row k => ?_, fun row k => ?_, h.apart_add rfl ?_ ?_⟩
    · have entry (r : Loaded) : keptOf ⟨valuesOf value r.row, r.level, ⟨r.height, edbRule⟩, [],
          r.ordinal, false⟩ = (valuesOf value r.row, r.held) := rfl
      rw [Contents.after, if_neg (not_not.mpr wide)]
      exact h.rows_add inj best rfl (mem_fresh firsts (fun _ => rfl) entry) row k
    · rw [load_recent, ← h.recent]
      constructor
      · rintro ⟨e, mem, recent, eq⟩
        rcases List.mem_append.mp mem with old | new
        · exact ⟨e, old, recent, eq⟩
        · obtain ⟨x, _, rfl⟩ := List.mem_map.mp new
          cases recent
      · rintro ⟨e, mem, recent, eq⟩
        exact ⟨e, List.mem_append_left _ mem, recent, eq⟩
    · rw [List.map_map]
      exact once.sublist (List.filter_sublist.map _)
    · intro e mem
      obtain ⟨x, there, rfl⟩ := List.mem_map.mp mem
      exact Option.isNone_iff_eq_none.mp (List.mem_filter.mp there).2
  · rw [if_pos wide]
    rw [Contents.after, if_pos wide] at sound ⊢
    refine ⟨sound, h.list_arity, h.rows, fun row k => ?_, h.apart⟩
    rw [load_recent]
    exact h.recent row k

theorem Shows.round (inj : Function.Injective value) (level : Tier) (toAdd : List Nat)
    (metas : List RowMeta) :
    Shows value arity (held.after arity (.insertRound level toAdd metas))
      (rel.insertRound level toAdd metas).1
      (replayOp value list (.insertRound level toAdd metas)) := by
  have sound := h.toSound.insertRound level toAdd metas
  have advanced := h.advance
  have firsts := mem_firstOf_map (Candidate.given value) Rules.Candidate.row
    (fun c => toLex (c.prov.height, c.prov.rule)) candidate_inj (fun _ _ => valuesOf_inj inj)
    (fun _ => rfl) Rules.Relation.Candidate.order (fun _ _ => Iff.rfl)
    (Relation.candidates arity toAdd metas)
  have once := @firstOf_keys_nodup _ Rules.Candidate.row
    (((Relation.candidates arity toAdd metas).map (Candidate.given value)).insertionSort
      Rules.Relation.Candidate.order)
  rw [replayOp, Rules.Relation.insertRound, h.list_arity]
  simp only [Rules.Relation.distinct]
  generalize firstOf Rules.Candidate.row
    (((Relation.candidates arity toAdd metas).map (Candidate.given value)).insertionSort
      Rules.Relation.Candidate.order) = cands at firsts once
  have same : (list.advance.rows.map (Rules.Relation.loweredTo level cands)).map keptOf =
      list.advance.rows.map keptOf := by
    rw [List.map_map]
    refine List.map_congr_left fun e _ => ?_
    simp only [Function.comp_apply, Rules.Relation.loweredTo]
    split
    · rfl
    · split <;> rfl
  have stable : ∀ e ∈ list.advance.rows.map (Rules.Relation.loweredTo level cands),
      e.recent = false := by
    intro e mem
    obtain ⟨old, there, rfl⟩ := List.mem_map.mp mem
    obtain ⟨_, _, rfl⟩ := List.mem_map.mp there
    unfold Rules.Relation.loweredTo
    split
    · rfl
    · split <;> rfl
  have new : ∀ k, (∃ e ∈ (cands.filter fun c => (list.advance.find c.row).isNone).map
      fun c => (⟨c.row, level, c.prov, [], noOrdinal, true⟩ : Entry), keptOf e = k) ↔
        ∃ a, Kit.best Candidate.row (fun c => toLex (c.prov.height, c.prov.rule))
          (Relation.candidates arity toAdd metas) a.row = some a ∧
            list.advance.find (valuesOf value a.row) = none ∧
              k = (valuesOf value a.row, ⟨level, a.prov, noOrdinal⟩) :=
    mem_fresh firsts (fun _ => rfl) fun _ => rfl
  refine ⟨sound, h.list_arity, fun row k => ?_, fun row k => ?_, advanced.apart_add ?_ ?_ ?_⟩
  · dsimp only
    exact advanced.rows_add inj candidate_inj same new row k
  · have found : (∃ e ∈ list.advance.rows.map (Rules.Relation.loweredTo level cands) ++
        (cands.filter fun c => (list.advance.find c.row).isNone).map
          fun c => (⟨c.row, level, c.prov, [], noOrdinal, true⟩ : Entry),
        e.recent = true ∧ keptOf e = (row, k)) ↔
          ∃ a, Kit.best Candidate.row (fun c => toLex (c.prov.height, c.prov.rule))
            (Relation.candidates arity toAdd metas) a.row = some a ∧
              list.advance.find (valuesOf value a.row) = none ∧
                (row, k) = (valuesOf value a.row, ⟨level, a.prov, noOrdinal⟩) := by
      rw [← new]
      constructor
      · rintro ⟨e, mem, recent, eq⟩
        rcases List.mem_append.mp mem with old | new'
        · exact absurd ((stable e old).symm.trans recent) Bool.false_ne_true
        · exact ⟨e, new', eq⟩
      · rintro ⟨e, mem, eq⟩
        obtain ⟨x, _, rfl⟩ := List.mem_map.mp mem
        exact ⟨_, List.mem_append_right _ mem, rfl, eq⟩
    refine found.trans ?_
    by_cases here : k.level = level
    · simp only [here, h.toSound.recent_items level toAdd metas]
      constructor
      · rintro ⟨a, least, absent, eq⟩
        obtain ⟨among, _, least⟩ := (Kit.best_eq_some candidate_inj _).mp least
        cases eq
        exact ⟨a.row, rfl, (advanced.find_none inj _).mp absent, rfl, among, least⟩
      · rintro ⟨r, rfl, absent, ordinal, among, least⟩
        refine ⟨⟨r, k.prov⟩, (Kit.best_eq_some candidate_inj _).mpr ⟨among, rfl, least⟩,
          (advanced.find_none inj r).mpr absent, ?_⟩
        rw [← here, ← ordinal]
    · rw [insertRound_eq, store_recent, if_neg fun both => here both.1,
        (h.toSound.lowered level toAdd metas).2]
      constructor
      · rintro ⟨a, _, _, eq⟩
        cases eq
        exact absurd rfl here
      · rintro ⟨_, _, mem⟩
        cases mem
  · have rows := congrArg (List.map Prod.fst) same
    simp only [List.map_map] at rows ⊢
    exact rows
  · rw [List.map_map]
    exact once.sublist (List.filter_sublist.map _)
  · intro e mem
    obtain ⟨x, there, rfl⟩ := List.mem_map.mp mem
    exact Option.isNone_iff_eq_none.mp (List.mem_filter.mp there).2

end Fill

section Runs

theorem Shows.apply (h : Shows value arity held rel list) (inj : Function.Injective value)
    (op : Op) : Shows value arity (held.after arity op) (rel.apply op) (replayOp value list op) := by
  cases op with
  | load rows heights => exact h.load inj rows heights
  | insertRound level toAdd metas => exact h.round inj level toAdd metas
  | advance => exact h.advance
  | sealRuns => exact h.seal
  | ensureIndex perm => exact h.ensure perm

theorem run_shows (inj : Function.Injective value) (arity : Nat) (perms : List (List Nat))
    (ops : List Op) : Shows value arity (heldAfter arity ops) (Relation.run arity perms ops)
      (replay value arity ops) := by
  have walk : ∀ (ops : List Op) (held : Contents) (rel : Relation) (list : Rules.Relation),
      Shows value arity held rel list →
      Shows value arity (ops.foldl (Contents.after arity) held) (ops.foldl Relation.apply rel)
        (ops.foldl (replayOp value) list) := by
    intro ops
    induction ops with
    | nil => exact fun _ _ _ h => h
    | cons op rest ih => exact fun held rel list h => ih _ _ _ (h.apply inj op)
  refine walk ops _ _ _ ⟨sound_new arity perms, rfl, fun row k => ?_, fun row k => ?_,
    List.nodup_nil⟩
  · simp [Rules.Relation.new]
  · constructor
    · rintro ⟨e, mem, _⟩
      cases mem
    · rintro ⟨_, _, mem⟩
      cases mem

theorem rows_len (sound : Sound arity held rel) (inj : Function.Injective value)
    (rows : ∀ row h, (∃ e ∈ list.rows, keptOf e = (row, h)) ↔
      ∃ r, row = valuesOf value r ∧ held r = some h)
    (apart : (list.rows.map Entry.row).Nodup) : list.len = rel.len := by
  rw [sound.represents.len, Rules.Relation.len, ← List.length_map Entry.row,
    ← List.length_map (valuesOf value)]
  refine List.Perm.length_eq ((List.perm_ext_iff_of_nodup apart
    (sound.rows_once.map (List.map_injective_iff.mpr inj))).mpr fun row => ?_)
  simp only [List.mem_map, List.mem_flatMap]
  constructor
  · rintro ⟨e, mem, rfl⟩
    obtain ⟨r, eq, at'⟩ := (rows _ _).mp ⟨e, mem, rfl⟩
    exact ⟨r, (sound.present r).mpr (at' ▸ Option.some_ne_none _), eq.symm⟩
  · rintro ⟨r, there, rfl⟩
    obtain ⟨k, at'⟩ := Option.ne_none_iff_exists'.mp ((sound.present r).mp there)
    obtain ⟨e, mem, eq⟩ := (rows _ k).mpr ⟨r, rfl, at'⟩
    exact ⟨e, mem, congrArg Prod.fst eq⟩

/-- Over any run the list has as many rows as the indexes, and a round adds as many to both. -/
theorem replay_counts (inj : Function.Injective value) (arity : Nat) (perms : List (List Nat))
    (ops : List Op) : (replay value arity ops).len = (Relation.run arity perms ops).len ∧
      ∀ level toAdd metas, ((replay value arity ops).insertRound level
        ((Relation.candidates arity toAdd metas).map (Candidate.given value))).2.added =
          ((Relation.run arity perms ops).insertRound level toAdd metas).2.added := by
  have h := run_shows inj arity perms ops
  generalize replay value arity ops = list at h ⊢
  generalize Relation.run arity perms ops = rel at h ⊢
  refine ⟨rows_len h.toSound inj h.rows h.apart, fun level toAdd metas => ?_⟩
  have before := rows_len (h.toSound.lowered level toAdd metas).1 inj h.rows h.apart
  have next := h.round inj level toAdd metas
  have after := rows_len next.toSound inj next.rows next.apart
  have stored : (rel.insertRound level toAdd metas).1.len =
      (lowered rel level toAdd metas).len + (rel.insertRound level toAdd metas).2.added := rfl
  have listed : (replayOp value list (.insertRound level toAdd metas)).len = list.len +
      (list.insertRound level
        ((Relation.candidates arity toAdd metas).map (Candidate.given value))).2.added := by
    rw [replayOp, h.list_arity]
    simp [Rules.Relation.len, Rules.Relation.insertRound, Rules.Relation.advance]
  omega

/-- A copy is of a row held at its home, and lowered there or above. -/
def CopiesHeld (list : Rules.Relation) : Prop := ∀ c ∈ list.copies,
  c.home ≤ c.level ∧ ∃ e ∈ list.rows, e.row = c.row ∧ e.home = c.home

theorem CopiesHeld.advance (h : CopiesHeld list) : CopiesHeld list.advance := by
  intro c mem
  obtain ⟨old, there, rfl⟩ := List.mem_map.mp mem
  obtain ⟨below, e, held, same⟩ := h old there
  exact ⟨below, _, List.mem_map_of_mem held, same⟩

theorem CopiesHeld.insertRound (h : CopiesHeld list) (level : Tier)
    (cands : List Rules.Candidate) : CopiesHeld (list.insertRound level cands).1 := by
  have moved (e : Entry) (mem : e ∈ list.advance.rows) :
      ∃ e' ∈ (list.insertRound level cands).1.rows, e'.row = e.row ∧ e'.home = e.home := by
    refine ⟨_, List.mem_append_left _ (List.mem_map_of_mem mem), ?_⟩
    unfold Rules.Relation.loweredTo
    split
    · exact ⟨rfl, rfl⟩
    · split <;> exact ⟨rfl, rfl⟩
  intro c mem
  rcases List.mem_append.mp mem with old | new
  · obtain ⟨below, e, held, row, home⟩ := h.advance c old
    obtain ⟨e', held', row', home'⟩ := moved e held
    exact ⟨below, e', held', row'.trans row, home'.trans home⟩
  · obtain ⟨x, _, lowers⟩ := List.mem_filterMap.mp new
    obtain ⟨e, lowered, rfl⟩ := Option.map_eq_some_iff.mp lowers
    obtain ⟨found, under⟩ := Option.filter_eq_some_iff.mp lowered
    obtain ⟨e', held', row', home'⟩ := moved e (List.mem_of_find?_eq_some found)
    have same := List.find?_some found
    exact ⟨(of_decide_eq_true under).1, e', held', row'.trans (beq_iff_eq.mp same), home'⟩

theorem replay_tidy (inj : Function.Injective value) (arity : Nat) (ops : List Op) :
    (replay value arity ops).Tidy := by
  refine ⟨(run_shows inj arity [] ops).apart, ?_⟩
  have walk : ∀ (ops : List Op) (list : Rules.Relation), CopiesHeld list →
      CopiesHeld (ops.foldl (replayOp value) list) := by
    intro ops
    induction ops with
    | nil => exact fun _ h => h
    | cons op rest ih =>
      intro list h
      refine ih _ ?_
      cases op with
      | load rows heights =>
        intro c mem
        rw [replayOp, Rules.Relation.load] at mem ⊢
        split at mem
        · rename_i other
          rw [if_pos other]
          exact h c mem
        · rename_i same
          obtain ⟨below, e, held, at'⟩ := h c mem
          rw [if_neg same]
          exact ⟨below, e, List.mem_append_left _ held, at'⟩
      | insertRound level toAdd metas => exact h.insertRound level _
      | advance => exact h.advance
      | sealRuns => exact h.advance
      | ensureIndex => exact h
  exact walk ops _ (by rintro c ⟨⟩)

end Runs

section Scan

/-- The view without a height bound, and without the copies of lowered rows. -/
def View.rows (v : View) : View := ⟨v.low, v.high, v.which, none, none, false⟩

theorem mem_visits {b : Batch} (whole : b.Whole arity) {t l : Tier} {r : Handles} {o : Nat} :
    (∃ s ∈ (List.range b.len).filterMap (b.visit t none none),
      s.row = r ∧ s.tier = l ∧ s.ordinal = o) ↔ t = l ∧ ∃ p, (r, p, o) ∈ b.items := by
  rw [whole.items_eq]
  constructor
  · rintro ⟨s, mem, rfl, rfl, rfl⟩
    obtain ⟨i, inside, seen⟩ := List.mem_filterMap.mp mem
    cases seen
    exact ⟨rfl, b.prov i, List.mem_map_of_mem inside⟩
  · rintro ⟨rfl, p, mem⟩
    obtain ⟨i, inside, eq⟩ := List.mem_map.mp mem
    cases eq
    exact ⟨_, List.mem_filterMap.mpr ⟨i, inside, rfl⟩, rfl, rfl, rfl⟩

theorem mem_pick {part : Part} {t l : Tier} {which : Which} {b : Batch} :
    (b, t) ∈ pick part l which ↔ t = l ∧ (which.reads false = true ∧ b ∈ part.stable ∨
      which.reads true = true ∧ 0 < part.recent.len ∧ b = part.recent) := by
  have old : (b, t) ∈ (if which.reads false then part.stable.map fun b => (b, l) else []) ↔
      t = l ∧ which.reads false = true ∧ b ∈ part.stable := by
    split
    · rename_i reads
      rw [List.mem_map]
      constructor
      · rintro ⟨b, mem, eq⟩
        cases eq
        exact ⟨rfl, reads, mem⟩
      · rintro ⟨rfl, _, mem⟩
        exact ⟨b, mem, rfl⟩
    · rename_i skips
      exact iff_of_false List.not_mem_nil fun h => skips h.2.1
  have new : (b, t) ∈ (if which.reads true ∧ 0 < part.recent.len then [(part.recent, l)] else []) ↔
      t = l ∧ which.reads true = true ∧ 0 < part.recent.len ∧ b = part.recent := by
    split
    · rename_i reads
      rw [List.mem_singleton, Prod.mk.injEq, and_comm]
      exact and_congr_right fun _ => ⟨fun eq => ⟨reads.1, reads.2, eq⟩, fun h => h.2.2⟩
    · rename_i skips
      exact iff_of_false List.not_mem_nil fun h => skips ⟨h.2.1, h.2.2.1⟩
  rw [pick, List.mem_append, old, new, and_or_left]

theorem Sound.mem_scan (h : Sound arity held rel) (v : View) {r : Handles} {l : Tier} {o : Nat} :
    (∃ s ∈ rel.scan 0 v.rows, s.row = r ∧ s.tier = l ∧ s.ordinal = o) ↔
      l ∈ v.levels ∧ ∃ p, v.which.reads false = true ∧
          (r, p, o) ∈ (rel.identity.parts l).stable.flatMap Batch.items ∨
        v.which.reads true = true ∧ (r, p, o) ∈ (rel.identity.parts l).recent.items := by
  have chosen (b : Batch) (t : Tier) : (b, t) ∈ rel.selected 0 v.rows ↔
      t ∈ v.levels ∧ (v.which.reads false = true ∧ b ∈ (rel.identity.parts t).stable ∨
        v.which.reads true = true ∧ 0 < (rel.identity.parts t).recent.len ∧
          b = (rel.identity.parts t).recent) := by
    show (b, t) ∈ (v.levels.flatMap fun l => pick (rel.identity.parts l) l v.which) ++ [] ↔ _
    rw [List.append_nil, List.mem_flatMap]
    simp only [mem_pick]
    constructor
    · rintro ⟨l, among, rfl, which⟩
      exact ⟨among, which⟩
    · rintro ⟨among, which⟩
      exact ⟨t, among, rfl, which⟩
  have visits (b : Batch) (t : Tier) (mem : (b, t) ∈ rel.selected 0 v.rows) :=
    mem_visits (h.toCoherent.selected 0 v.rows (b, t) mem).toWhole
      (t := t) (l := l) (r := r) (o := o)
  constructor
  · rintro ⟨s, mem, shown⟩
    obtain ⟨⟨b, t⟩, picked, visited⟩ := List.mem_flatMap.mp mem
    obtain ⟨rfl, p, item⟩ := (visits b t picked).mp ⟨s, visited, shown⟩
    obtain ⟨among, old | new⟩ := (chosen b t).mp picked
    · exact ⟨among, p, .inl ⟨old.1, List.mem_flatMap.mpr ⟨b, old.2, item⟩⟩⟩
    · exact ⟨among, p, .inr ⟨new.1, new.2.2 ▸ item⟩⟩
  · rintro ⟨among, p, ⟨reads, item⟩ | ⟨reads, item⟩⟩
    · obtain ⟨b, stable, item⟩ := List.mem_flatMap.mp item
      have picked := (chosen b l).mpr ⟨among, .inl ⟨reads, stable⟩⟩
      obtain ⟨s, visited, shown⟩ := (visits b l picked).mpr ⟨rfl, p, item⟩
      exact ⟨s, List.mem_flatMap.mpr ⟨(b, l), picked, visited⟩, shown⟩
    · have whole := (h.identity.parts l).recent.toWhole
      have some : 0 < (rel.identity.parts l).recent.len :=
        Nat.pos_of_ne_zero fun none => by
          rw [whole.items_nil none] at item
          cases item
      have picked := (chosen _ l).mpr ⟨among, .inr ⟨reads, some, rfl⟩⟩
      obtain ⟨s, visited, shown⟩ := (visits _ l picked).mpr ⟨rfl, p, item⟩
      exact ⟨s, List.mem_flatMap.mpr ⟨(_, l), picked, visited⟩, shown⟩

section Batches
variable (h : Shows value arity held rel list) (inj : Function.Injective value) {r : Handles}
  {p : RowMeta} {o : Nat} {l : Tier}
include h inj

theorem Shows.recent_iff : (r, p, o) ∈ (rel.identity.parts l).recent.items ↔
    ∃ e ∈ list.rows, e.recent = true ∧ keptOf e = (valuesOf value r, ⟨l, p, o⟩) := by
  rw [h.recent]
  constructor
  · exact fun mem => ⟨r, rfl, mem⟩
  · rintro ⟨r', same, mem⟩
    rwa [(valuesOf_inj inj).mp same]

theorem Shows.stable_iff : (r, p, o) ∈ (rel.identity.parts l).stable.flatMap Batch.items ↔
    ∃ e ∈ list.rows, e.recent = false ∧ keptOf e = (valuesOf value r, ⟨l, p, o⟩) := by
  have both := h.items l r p o
  have once := h.once l
  rw [Part.items_eq] at both once
  rw [List.map_append, List.nodup_append] at once
  constructor
  · intro stable
    obtain ⟨e, mem, kept⟩ :=
      (h.rows _ _).mpr ⟨r, rfl, both.mp (List.mem_append_left _ stable)⟩
    refine ⟨e, mem, ?_, kept⟩
    by_contra recent
    have again := (h.recent_iff inj).mpr ⟨e, mem, Bool.not_eq_false _ ▸ recent, kept⟩
    exact once.2.2 r (List.mem_map_of_mem stable) r (List.mem_map_of_mem again) rfl
  · rintro ⟨e, mem, stable, kept⟩
    obtain ⟨r', same, at'⟩ := (h.rows _ _).mp ⟨e, mem, kept⟩
    rw [← (valuesOf_inj inj).mp same] at at'
    rcases List.mem_append.mp (both.mpr at') with old | recent
    · exact old
    · obtain ⟨e', mem', recent', kept'⟩ := (h.recent_iff inj).mp recent
      have one := List.inj_on_of_nodup_map h.apart mem mem'
        ((congrArg Prod.fst kept).trans (congrArg Prod.fst kept').symm)
      rw [one, recent'] at stable
      cases stable

end Batches

/-- Over any run a scan of the list shows the rows a scan of the indexes does, each at its level
with its witness edge. -/
theorem scan_shows (inj : Function.Injective value) (arity : Nat) (perms : List (List Nat))
    (ops : List Op) (v : View) (row : Row) (l : Tier) (o : Nat) :
    (∃ s ∈ (replay value arity ops).scan (.rows v.low v.high v.which),
      s.row = row ∧ s.tier = l ∧ s.ordinal = o) ↔
    ∃ s ∈ (Relation.run arity perms ops).scan 0 v.rows,
      row = valuesOf value s.row ∧ s.tier = l ∧ s.ordinal = o := by
  have h := run_shows inj arity perms ops
  generalize replay value arity ops = list at h ⊢
  generalize Relation.run arity perms ops = rel at h ⊢
  have level : l ∈ v.levels ↔ v.low ≤ l.level ∧ l.level ≤ v.high := by
    simp only [View.levels, List.mem_filter, decide_eq_true_iff]
    exact and_iff_right (by cases l <;> decide)
  have seen : (∃ s ∈ list.scan (.rows v.low v.high v.which),
      s.row = row ∧ s.tier = l ∧ s.ordinal = o) ↔
        l ∈ v.levels ∧ ∃ e ∈ list.rows, v.which.reads e.recent = true ∧
          ∃ p, keptOf e = (row, ⟨l, p, o⟩) := by
    unfold Rules.Relation.scan
    simp only [Rules.View.rows, Bool.false_eq_true, if_false, List.append_nil]
    constructor
    · rintro ⟨s, mem, rfl, rfl, rfl⟩
      obtain ⟨e, there, rfl⟩ := List.mem_map.mp (List.mem_filter.mp mem).1
      obtain ⟨mem, sees⟩ := List.mem_filter.mp there
      obtain ⟨inside, reads⟩ := Bool.and_eq_true_iff.mp sees
      exact ⟨level.mpr (of_decide_eq_true inside), e, mem, reads, e.own, rfl⟩
    · rintro ⟨among, e, mem, reads, p, kept⟩
      cases kept
      refine ⟨_, List.mem_filter.mpr ⟨List.mem_map_of_mem (List.mem_filter.mpr ⟨mem, ?_⟩), rfl⟩,
        rfl, rfl, rfl⟩
      exact Bool.and_eq_true_iff.mpr ⟨decide_eq_true (level.mp among), reads⟩
  rw [seen]
  constructor
  · rintro ⟨among, e, mem, reads, p, kept⟩
    obtain ⟨r, rfl, _⟩ := (h.rows _ _).mp ⟨e, mem, kept⟩
    have shown : ∃ s ∈ rel.scan 0 v.rows, s.row = r ∧ s.tier = l ∧ s.ordinal = o := by
      refine (h.toSound.mem_scan v).mpr ⟨among, p, ?_⟩
      cases batch : e.recent with
      | false => exact .inl ⟨batch ▸ reads, (h.stable_iff inj).mpr ⟨e, mem, batch, kept⟩⟩
      | true => exact .inr ⟨batch ▸ reads, (h.recent_iff inj).mpr ⟨e, mem, batch, kept⟩⟩
    obtain ⟨s, there, rfl, tier, ordinal⟩ := shown
    exact ⟨s, there, rfl, tier, ordinal⟩
  · rintro ⟨s, mem, rfl, tier, ordinal⟩
    obtain ⟨among, p, ⟨reads, stable⟩ | ⟨reads, recent⟩⟩ :=
      (h.toSound.mem_scan v).mp ⟨s, mem, rfl, tier, ordinal⟩
    · obtain ⟨e, there, batch, kept⟩ := (h.stable_iff inj).mp stable
      exact ⟨among, e, there, batch ▸ reads, p, kept⟩
    · obtain ⟨e, there, batch, kept⟩ := (h.recent_iff inj).mp recent
      exact ⟨among, e, there, batch ▸ reads, p, kept⟩

end Scan

end Glia.Rules.Storage
