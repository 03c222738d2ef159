import Mathlib.Data.Finset.Lattice.Lemmas
import Mathlib.Data.List.MinMax
import Mathlib.Data.List.Sort
import Mathlib.Data.Prod.Lex

/-! Dropping items of a key met before. Of a list sorted by key first, dropping consecutive
ones keeps the least item of each. -/
namespace Glia.Kit

variable {α κ : Type*} [DecidableEq κ] (key : α → κ)

/-- A list without the items whose key is that of the last item kept. -/
def dedupAfter (last : κ) : List α → List α
  | [] => []
  | a :: rest => if key a = last then dedupAfter last rest else a :: dedupAfter (key a) rest

def dedupBy : List α → List α
  | [] => []
  | a :: rest => a :: dedupAfter key (key a) rest

def firstsAfter (seen : Finset κ) : List α → List α
  | [] => []
  | a :: rest =>
    if key a ∈ seen then firstsAfter seen rest else a :: firstsAfter (insert (key a) seen) rest

def firsts (l : List α) : List α := firstsAfter key ∅ l

variable {key}

theorem firstsAfter_sublist (seen : Finset κ) (l : List α) :
    (firstsAfter key seen l).Sublist l := by
  induction l generalizing seen with
  | nil => exact List.Sublist.refl _
  | cons a rest ih =>
    unfold firstsAfter
    split
    · exact (ih seen).cons a
    · exact (ih _).cons_cons a

theorem firstsAfter_append (seen : Finset κ) (l l' : List α) :
    firstsAfter key seen (l ++ l') =
      firstsAfter key seen l ++ firstsAfter key (seen ∪ (l.map key).toFinset) l' := by
  induction l generalizing seen with
  | nil => rw [List.nil_append, List.map_nil, List.toFinset_nil, Finset.union_empty]; rfl
  | cons a rest ih =>
    rw [List.cons_append, firstsAfter, firstsAfter]
    split
    · rename_i held
      rw [ih, List.map_cons, List.toFinset_cons, Finset.union_insert,
        Finset.insert_eq_self.mpr (Finset.mem_union_left _ held)]
    · rw [ih, List.cons_append, List.map_cons, List.toFinset_cons, Finset.insert_union,
        Finset.union_insert]

theorem firstsAfter_congr {seen seen' : Finset κ} {l : List α}
    (same : ∀ a ∈ l, (key a ∈ seen ↔ key a ∈ seen')) :
    firstsAfter key seen l = firstsAfter key seen' l := by
  induction l generalizing seen seen' with
  | nil => rfl
  | cons a rest ih =>
    have here := same a List.mem_cons_self
    have later : ∀ b ∈ rest, (key b ∈ seen ↔ key b ∈ seen') :=
      fun b mem => same b (List.mem_cons_of_mem _ mem)
    rw [firstsAfter, firstsAfter]
    by_cases held : key a ∈ seen
    · rw [if_pos held, if_pos (here.mp held), ih later]
    · rw [if_neg held, if_neg fun h => held (here.mpr h)]
      congr 1
      apply ih
      intro b mem
      rw [Finset.mem_insert, Finset.mem_insert, later b mem]

theorem firstsAfter_filter {p : α → Bool} {l : List α}
    (whole : ∀ a ∈ l, ∀ b ∈ l, key a = key b → p a = p b) (seen : Finset κ) :
    (firstsAfter key seen l).filter p = firstsAfter key seen (l.filter p) := by
  induction l generalizing seen with
  | nil => rfl
  | cons a rest ih =>
    have later := ih fun b mem c mem' =>
      whole b (List.mem_cons_of_mem _ mem) c (List.mem_cons_of_mem _ mem')
    rw [firstsAfter]
    by_cases held : key a ∈ seen <;> by_cases kept : p a = true
    · rw [if_pos held, later, List.filter_cons_of_pos kept, firstsAfter, if_pos held]
    · rw [if_pos held, later, List.filter_cons_of_neg kept]
    · rw [if_neg held, List.filter_cons_of_pos kept, List.filter_cons_of_pos kept, later,
        firstsAfter, if_neg held]
    · rw [if_neg held, List.filter_cons_of_neg kept, List.filter_cons_of_neg kept, later]
      apply firstsAfter_congr
      intro b mem
      have other : key b ≠ key a := by
        intro same
        obtain ⟨inside, keptB⟩ := List.mem_filter.mp mem
        have agree := whole b (List.mem_cons_of_mem _ inside) a List.mem_cons_self same
        exact kept (agree ▸ keptB)
      rw [Finset.mem_insert, or_iff_right other]

theorem firsts_filter {p : α → Bool} {l : List α}
    (whole : ∀ a ∈ l, ∀ b ∈ l, key a = key b → p a = p b) :
    (firsts key l).filter p = firsts key (l.filter p) := firstsAfter_filter whole ∅

theorem firstsAfter_once (seen : Finset κ) (l : List α) :
    ((firstsAfter key seen l).map key).Nodup ∧ ∀ a ∈ firstsAfter key seen l, key a ∉ seen := by
  induction l generalizing seen with
  | nil => exact ⟨List.nodup_nil, fun a mem => absurd mem List.not_mem_nil⟩
  | cons a rest ih =>
    unfold firstsAfter
    split
    · exact ih seen
    · rename_i fresh
      obtain ⟨apart, out⟩ := ih (insert (key a) seen)
      constructor
      · rw [List.map_cons, List.nodup_cons]
        refine ⟨fun mem => ?_, apart⟩
        obtain ⟨b, inside, same⟩ := List.mem_map.mp mem
        exact out b inside (same ▸ Finset.mem_insert_self _ _)
      · intro b mem
        rcases List.mem_cons.mp mem with rfl | later
        · exact fresh
        · exact fun held => out b later (Finset.mem_insert_of_mem held)

theorem firsts_apart {l : List α} {a b : α} (mem : a ∈ firsts key l) (mem' : b ∈ firsts key l)
    (same : key a = key b) : a = b :=
  List.inj_on_of_nodup_map (firstsAfter_once ∅ l).1 mem mem' same

theorem dedupAfter_sublist (last : κ) (l : List α) : (dedupAfter key last l).Sublist l := by
  induction l generalizing last with
  | nil => exact List.Sublist.refl _
  | cons a rest ih =>
    unfold dedupAfter
    split
    · exact (ih last).cons a
    · exact (ih (key a)).cons_cons a

theorem dedupBy_sublist (l : List α) : (dedupBy key l).Sublist l := by
  cases l with
  | nil => exact List.Sublist.refl _
  | cons a rest => exact (dedupAfter_sublist (key a) rest).cons_cons a

section Ascending

variable [LinearOrder κ]

theorem dedupAfter_ascending {last : κ} {l : List α} (above : ∀ a ∈ l, last ≤ key a)
    (sorted : l.Pairwise fun a b => key a ≤ key b) :
    (dedupAfter key last l).Pairwise (fun a b => key a < key b) ∧
      ∀ a ∈ dedupAfter key last l, last < key a := by
  induction l generalizing last with
  | nil => exact ⟨List.Pairwise.nil, by simp [dedupAfter]⟩
  | cons a rest ih =>
    rw [List.pairwise_cons] at sorted
    unfold dedupAfter
    split
    · exact ih (fun b mem => above b (List.mem_cons_of_mem _ mem)) sorted.2
    · rename_i ne
      obtain ⟨ascending, later⟩ := ih sorted.1 sorted.2
      have first : last < key a :=
        lt_of_le_of_ne (above a List.mem_cons_self) fun eq => ne eq.symm
      refine ⟨List.pairwise_cons.mpr ⟨later, ascending⟩, fun b mem => ?_⟩
      rcases List.mem_cons.mp mem with rfl | mem
      · exact first
      · exact first.trans (later b mem)

theorem dedupBy_ascending {l : List α} (sorted : l.Pairwise fun a b => key a ≤ key b) :
    (dedupBy key l).Pairwise fun a b => key a < key b := by
  cases l with
  | nil => exact List.Pairwise.nil
  | cons a rest =>
    rw [List.pairwise_cons] at sorted
    obtain ⟨ascending, later⟩ := dedupAfter_ascending sorted.1 sorted.2
    exact List.pairwise_cons.mpr ⟨later, ascending⟩

end Ascending

theorem mem_dedupAfter {r : α → α → Prop} {last : κ} {l : List α} (sorted : l.Pairwise r) {a : α}
    (mem : a ∈ l) : key a = last ∨ ∃ b ∈ dedupAfter key last l, key b = key a ∧ (b = a ∨ r b a) := by
  induction l generalizing last with
  | nil => cases mem
  | cons c rest ih =>
    rw [List.pairwise_cons] at sorted
    unfold dedupAfter
    split
    · rename_i same
      rcases List.mem_cons.mp mem with rfl | mem
      · exact .inl same
      · exact ih sorted.2 mem
    · rcases List.mem_cons.mp mem with rfl | mem
      · exact .inr ⟨a, List.mem_cons_self, rfl, .inl rfl⟩
      · rcases @ih (key c) sorted.2 mem with same | ⟨b, kept, same, before⟩
        · exact .inr ⟨c, List.mem_cons_self, same.symm, .inr (sorted.1 a mem)⟩
        · exact .inr ⟨b, List.mem_cons_of_mem _ kept, same, before⟩

theorem mem_dedupBy {r : α → α → Prop} {l : List α} (sorted : l.Pairwise r) {a : α}
    (mem : a ∈ l) : ∃ b ∈ dedupBy key l, key b = key a ∧ (b = a ∨ r b a) := by
  cases l with
  | nil => cases mem
  | cons c rest =>
    rw [List.pairwise_cons] at sorted
    rcases List.mem_cons.mp mem with rfl | mem
    · exact ⟨a, List.mem_cons_self, rfl, .inl rfl⟩
    · rcases @mem_dedupAfter _ _ _ key r (key c) rest sorted.2 a mem with
        same | ⟨b, kept, same, before⟩
      · exact ⟨c, List.mem_cons_self, same.symm, .inr (sorted.1 a mem)⟩
      · exact ⟨b, List.mem_cons_of_mem _ kept, same, before⟩

theorem mem_dedup_sorted [LinearOrder κ] {r : α → α → Prop} [DecidableRel r] [IsTrans α r]
    [Std.Total r] (anti : ∀ a b, r a b → r b a → a = b) (byKey : ∀ a b, r a b → key a ≤ key b)
    (l : List α) (a : α) : a ∈ dedupBy key (l.insertionSort r) ↔
      a ∈ l ∧ ∀ b ∈ l, key b = key a → r a b := by
  have sorted : (l.insertionSort r).Pairwise r := List.pairwise_insertionSort r l
  have ascending := dedupBy_ascending (sorted.imp fun {a b} => byKey a b)
  have refl : ∀ a, r a a := fun a => (Std.Total.total a a).elim id id
  have least : ∀ b ∈ l, ∃ c ∈ dedupBy key (l.insertionSort r), key c = key b ∧ r c b := by
    intro b mem
    obtain ⟨c, kept, same, before⟩ := @mem_dedupBy _ _ _ key r _ sorted b
      ((List.mem_insertionSort r).mpr mem)
    refine ⟨c, kept, same, ?_⟩
    rcases before with rfl | before
    · exact refl c
    · exact before
  have unique : ∀ b ∈ dedupBy key (l.insertionSort r), ∀ c ∈ dedupBy key (l.insertionSort r),
      key b = key c → b = c := by
    have once : ((dedupBy key (l.insertionSort r)).map key).Nodup :=
      List.pairwise_map.mpr (ascending.imp fun {a b} lt => lt.ne)
    exact fun b mem c mem' same => List.inj_on_of_nodup_map once mem mem' same
  constructor
  · intro kept
    have mem := (List.mem_insertionSort r).mp ((dedupBy_sublist _).subset kept)
    refine ⟨mem, fun b there same => ?_⟩
    obtain ⟨c, keptC, sameC, before⟩ := least b there
    rw [unique a kept c keptC (same.symm.trans sameC.symm)]
    exact before
  · rintro ⟨mem, most⟩
    obtain ⟨c, kept, same, before⟩ := least a mem
    have inList := (List.mem_insertionSort r).mp ((dedupBy_sublist _).subset kept)
    rw [anti a c (most c inList same) before]
    exact kept

section Best

variable {β : Type*} [LinearOrder β]

def best (key : α → κ) (rank : α → β) (l : List α) (k : κ) : Option α :=
  (l.filter fun a => key a = k).argmin rank

variable {rank : α → β} (inj : ∀ a b, key a = key b → rank a = rank b → a = b) (l : List α)

include inj in
theorem best_eq_some {k : κ} {a : α} : best key rank l k = some a ↔
    a ∈ l ∧ key a = k ∧ ∀ b ∈ l, key b = k → rank a ≤ rank b := by
  constructor
  · intro eq
    have mem := List.argmin_mem (Option.mem_def.mpr eq)
    rw [List.mem_filter, decide_eq_true_iff] at mem
    refine ⟨mem.1, mem.2, fun b there same => ?_⟩
    exact List.le_of_mem_argmin (List.mem_filter.mpr ⟨there, by simpa using same⟩)
      (Option.mem_def.mpr eq)
  · rintro ⟨mem, same, least⟩
    have here : a ∈ l.filter fun a => key a = k := List.mem_filter.mpr ⟨mem, by simpa using same⟩
    cases eq : best key rank l k with
    | none =>
      rw [List.argmin_eq_none.mp eq] at here
      cases here
    | some b =>
      have memB := List.argmin_mem (Option.mem_def.mpr eq)
      rw [List.mem_filter, decide_eq_true_iff] at memB
      have le : rank b ≤ rank a := List.le_of_mem_argmin here (Option.mem_def.mpr eq)
      rw [inj a b (same.trans memB.2.symm) (le_antisymm (least b memB.1 memB.2) le)]

theorem exists_best {a : α} (mem : a ∈ l) : ∃ b, best key rank l (key a) = some b := by
  cases eq : best key rank l (key a) with
  | some b => exact ⟨b, rfl⟩
  | none =>
    have here : a ∈ l.filter fun b => key b = key a := List.mem_filter.mpr ⟨mem, by simp⟩
    rw [List.argmin_eq_none.mp eq] at here
    cases here

variable [LinearOrder κ]

include inj in
theorem mem_dedup_best (r : α → α → Prop) [DecidableRel r]
    (lex : ∀ a b, r a b ↔ toLex (key a, rank a) ≤ toLex (key b, rank b)) (a : α) :
    a ∈ dedupBy key (l.insertionSort r) ↔ best key rank l (key a) = some a := by
  have trans : IsTrans α r := by
    refine ⟨fun a b c h h' => ?_⟩
    rw [lex] at h h' ⊢
    exact h.trans h'
  have total : Std.Total r := by
    refine ⟨fun a b => ?_⟩
    rw [lex, lex]
    exact le_total _ _
  have anti : ∀ a b, r a b → r b a → a = b := by
    intro a b h h'
    have eq := le_antisymm ((lex a b).mp h) ((lex b a).mp h')
    have pair := Prod.mk.inj (toLex.injective eq)
    exact inj a b pair.1 pair.2
  have byKey : ∀ a b, r a b → key a ≤ key b := by
    intro a b h
    rcases Prod.Lex.toLex_le_toLex.mp ((lex a b).mp h) with lt | ⟨eq, _⟩
    · exact lt.le
    · exact eq.le
  rw [mem_dedup_sorted anti byKey, best_eq_some inj]
  have ranked : ∀ b, key b = key a → (r a b ↔ rank a ≤ rank b) := by
    intro b same
    rw [lex, Prod.Lex.toLex_le_toLex, same]
    simp
  constructor
  · rintro ⟨mem, least⟩
    exact ⟨mem, rfl, fun b there same => (ranked b same).mp (least b there same)⟩
  · rintro ⟨mem, _, least⟩
    exact ⟨mem, fun b there same => (ranked b same).mpr (least b there same)⟩

end Best

section Items
variable [DecidableEq α]

theorem mem_firstsAfter_id {seen : Finset α} {l : List α} {a : α} :
    a ∈ firstsAfter id seen l ↔ a ∈ l ∧ a ∉ seen := by
  induction l generalizing seen with
  | nil => simp [firstsAfter]
  | cons b rest ih =>
    rw [firstsAfter]
    split
    · rename_i held
      rw [ih, List.mem_cons]
      constructor
      · exact fun h => ⟨.inr h.1, h.2⟩
      · rintro ⟨rfl | later, out⟩
        · exact absurd held out
        · exact ⟨later, out⟩
    · rename_i fresh
      rw [List.mem_cons, ih, List.mem_cons, Finset.mem_insert]
      by_cases here : a = b
      · subst here
        simpa using fresh
      · simp [here]

theorem mem_firsts_id {l : List α} {a : α} : a ∈ firsts id l ↔ a ∈ l := by
  unfold firsts
  rw [mem_firstsAfter_id, and_iff_left (Finset.notMem_empty a)]

theorem firstsAfter_ranked (seen : Finset α) (l : List α) :
    (firstsAfter id seen l).Pairwise fun a b => l.idxOf a ≤ l.idxOf b := by
  induction l generalizing seen with
  | nil => exact List.Pairwise.nil
  | cons c rest ih =>
    have shift : ∀ {seen : Finset α}, c ∈ seen → (firstsAfter id seen rest).Pairwise
        fun a b => (c :: rest).idxOf a ≤ (c :: rest).idxOf b := by
      intro seen held
      refine (ih seen).imp_of_mem fun {a b} memA memB le => ?_
      have apart : ∀ x ∈ firstsAfter id seen rest, c ≠ x := by
        rintro x mem rfl
        exact (mem_firstsAfter_id.mp mem).2 held
      rw [List.idxOf_cons_ne _ (apart a memA), List.idxOf_cons_ne _ (apart b memB)]
      exact Nat.succ_le_succ le
    rw [firstsAfter]
    split
    · rename_i held
      exact shift held
    · refine List.pairwise_cons.mpr ⟨fun b _ => ?_, shift (Finset.mem_insert_self _ _)⟩
      rw [List.idxOf_cons_self]
      exact Nat.zero_le _

theorem firsts_ranked (l : List α) :
    (firsts id l).Pairwise fun a b => l.idxOf a ≤ l.idxOf b := firstsAfter_ranked ∅ l

theorem firsts_repeat {l l' : List α} {a : α} (mem : a ∈ l) :
    firsts id (l ++ a :: l') = firsts id (l ++ l') := by
  have seen : id a ∈ (∅ : Finset α) ∪ (l.map id).toFinset := by simp [mem]
  unfold firsts
  rw [firstsAfter_append, firstsAfter_append, firstsAfter, if_pos seen]

end Items

end Glia.Kit
