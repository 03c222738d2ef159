import Glia.Kit.Grouping
import Mathlib.Data.List.Nodup

/-! Items followed through consecutive snapshots, each renamed into the next, and the spans
a fold over the snapshots keeps of them. -/
namespace Glia.Kit

section Track
variable {α : Type*} (items : Nat → α → Prop) (step : Nat → α → α)

inductive Track (r : Nat) (x : α) : Nat → α → Prop where
  | here : items r x → Track r x r x
  | next {t : Nat} {y : α} : Track r x t y → items (t + 1) (step t y) →
      Track r x (t + 1) (step t y)

variable {items step} {r t : Nat} {x y : α}

theorem Track.le (h : Track items step r x t y) : r ≤ t := by
  induction h with
  | here _ => exact Nat.le_refl r
  | next _ _ ih => exact Nat.le_succ_of_le ih

theorem Track.present_end (h : Track items step r x t y) : items t y := by
  cases h with
  | here there => exact there
  | next _ there => exact there

theorem Track.present_start (h : Track items step r x t y) : items r x := by
  induction h with
  | here there => exact there
  | next _ _ ih => exact ih

theorem Track.trans {u : Nat} {z : α} (h : Track items step r x t y)
    (h' : Track items step t y u z) : Track items step r x u z := by
  induction h' with
  | here _ => exact h
  | next _ there ih => exact ih.next there

theorem Track.mono {items' : Nat → α → Prop} (sub : ∀ s z, items s z → items' s z)
    (h : Track items step r x t y) : Track items' step r x t y := by
  induction h with
  | here there => exact .here (sub _ _ there)
  | next _ there ih => exact ih.next (sub _ _ there)

theorem Track.split (h : Track items step r x t y) {s : Nat} (lower : r ≤ s) (upper : s ≤ t) :
    ∃ z, Track items step r x s z ∧ Track items step s z t y := by
  induction h with
  | here there =>
    obtain rfl : s = r := Nat.le_antisymm upper lower
    exact ⟨x, .here there, .here there⟩
  | @next t y before there ih =>
    obtain rfl | below := Nat.eq_or_lt_of_le upper
    · exact ⟨step t y, before.next there, .here there⟩
    · obtain ⟨z, first, rest⟩ := ih (Nat.le_of_lt_succ below)
      exact ⟨z, first, rest.next there⟩

theorem Track.unique_end {y' : α} (h : Track items step r x t y)
    (h' : Track items step r x t y') : y = y' := by
  induction h generalizing y' with
  | here _ =>
    cases h' with
    | here _ => rfl
    | next before _ => exact absurd before.le (Nat.not_succ_le_self _)
  | next before _ ih =>
    cases h' with
    | here _ => exact absurd before.le (Nat.not_succ_le_self _)
    | next before' _ => rw [ih before']

theorem Track.unique_start
    (inj : ∀ s z z', items s z → items s z' → step s z = step s z' → z = z') {x' : α}
    (h : Track items step r x t y) (h' : Track items step r x' t y) : x = x' := by
  induction h with
  | here _ =>
    cases h' with
    | here _ => rfl
    | next before _ => exact absurd before.le (Nat.not_succ_le_self _)
  | @next t y before _ ih =>
    generalize same : step t y = z at h'
    cases h' with
    | here _ => exact absurd before.le (Nat.not_succ_le_self _)
    | next before' _ =>
      rw [← inj _ _ _ before.present_end before'.present_end same] at before'
      exact ih before'

theorem Track.tail (h : Track items step r x t y) (further : r < t) :
    items (r + 1) (step r x) ∧ Track items step (r + 1) (step r x) t y := by
  obtain ⟨z, first, rest⟩ := h.split (Nat.le_succ r) further
  cases first with
  | next before there =>
    cases before with
    | here _ => exact ⟨there, rest⟩
    | next earlier _ => exact absurd earlier.le (Nat.not_succ_le_self _)

end Track

section Lives
variable {α : Type*} (items : Nat → α → Prop) (step : Nat → α → α)

def Fresh (r : Nat) (x : α) : Prop := ∀ q, r = q + 1 → ∀ z, items q z → step q z ≠ x

structure Lives (n start stop : Nat) (y : α) : Prop where
  bound : stop ≤ n
  born : ∃ x, Track items step start x stop y ∧ Fresh items step start x
  died : stop < n → ¬items (stop + 1) (step stop y)

variable {items step} {n start stop : Nat} {y : α}

theorem Lives.start_le (h : Lives items step n start stop y) : start ≤ stop := by
  obtain ⟨x, track, _⟩ := h.born
  exact track.le

theorem Lives.at_rev (h : Lives items step n start stop y) {r : Nat} (lower : start ≤ r)
    (upper : r ≤ stop) : ∃ x, Track items step r x stop y := by
  obtain ⟨x, track, _⟩ := h.born
  obtain ⟨z, _, rest⟩ := track.split lower upper
  exact ⟨z, rest⟩

end Lives

section Spans
variable {α β : Type*} [LinearOrder α] (items : Nat → α → Prop) (step : Nat → α → α)
  (start : β → Nat) (told : Nat → α → β → Prop)

/-- The open and the closed entries of the snapshots up to `n`. A closed entry stops at the
last snapshot its item is in. -/
structure Spans (n : Nat) (live : OrdMap α β) (closed : Nat → α → β → Prop) : Prop where
  keys : ∀ y : α, (∃ b, live[y]? = some b) ↔ items n y
  liveLives : ∀ (y : α) (b : β), live[y]? = some b →
    Lives items step n (start b) n y ∧ told n y b
  closedLives : ∀ t y b, closed t y b → t < n ∧ Lives items step n (start b) t y ∧ told t y b
  covered : ∀ r x, r ≤ n → items r x →
    (∃ (y : α) (b : β), live[y]? = some b ∧ start b ≤ r ∧ Track items step r x n y) ∨
      ∃ t y b, closed t y b ∧ start b ≤ r ∧ Track items step r x t y

variable {items step start told} {n : Nat} {live live' : OrdMap α β}
  {closed closed' : Nat → α → β → Prop}

/-- One more snapshot: what it has no item for closes, what stays goes on under its new key
and what is new opens. -/
theorem Spans.push (h : Spans items step start told n live closed) (advance : α → β → β) (init : β)
    (keepStart : ∀ y b, start (advance y b) = start b) (initStart : start init = n + 1)
    (tell : ∀ y b, told n y b → items (n + 1) (step n y) → told (n + 1) (step n y) (advance y b))
    (tellInit : ∀ z, items (n + 1) z → told (n + 1) z init)
    (opened : ∀ (z : α) (b' : β), live'[z]? = some b' ↔ items (n + 1) z ∧
      ((∃ (y : α) (b : β), live[y]? = some b ∧ step n y = z ∧ b' = advance y b) ∨
        ((∀ y, items n y → step n y ≠ z) ∧ b' = init)))
    (shut : ∀ t y b, closed' t y b ↔ closed t y b ∨
      (t = n ∧ live[y]? = some b ∧ ¬items (n + 1) (step n y))) :
    Spans items step start told (n + 1) live' closed' := by
  refine ⟨?_, ?_, ?_, ?_⟩
  · intro z
    constructor
    · rintro ⟨b', held⟩
      exact ((opened z b').mp held).1
    · intro there
      by_cases old : ∃ y, items n y ∧ step n y = z
      · obtain ⟨y, present, moved⟩ := old
        obtain ⟨b, held⟩ := (h.keys y).mpr present
        exact ⟨advance y b, (opened z _).mpr ⟨there, .inl ⟨y, b, held, moved, rfl⟩⟩⟩
      · have fresh : ∀ y, items n y → step n y ≠ z := fun y present moved =>
          old ⟨y, present, moved⟩
        exact ⟨init, (opened z _).mpr ⟨there, .inr ⟨fresh, rfl⟩⟩⟩
  · intro z b' held
    obtain ⟨there, ⟨y, b, was, rfl, rfl⟩ | ⟨fresh, rfl⟩⟩ := (opened z b').mp held
    · obtain ⟨lives, known⟩ := h.liveLives y b was
      obtain ⟨x, track, first⟩ := lives.born
      refine ⟨⟨Nat.le_refl _, ⟨x, ?_, ?_⟩, ?_⟩, tell y b known there⟩
      · rw [keepStart]
        exact track.next there
      · rw [keepStart]
        exact first
      · exact fun below => absurd below (Nat.lt_irrefl _)
    · refine ⟨⟨Nat.le_refl _, ⟨z, ?_, ?_⟩, ?_⟩, tellInit z there⟩
      · rw [initStart]
        exact .here there
      · intro q same
        rw [initStart, Nat.add_right_cancel_iff] at same
        exact same ▸ fresh
      · exact fun below => absurd below (Nat.lt_irrefl _)
  · intro t y b shutAt
    obtain before | ⟨rfl, held, gone⟩ := (shut t y b).mp shutAt
    · obtain ⟨below, lives, known⟩ := h.closedLives t y b before
      exact ⟨Nat.lt_succ_of_lt below, ⟨Nat.le_succ_of_le lives.bound, lives.born,
        fun _ => lives.died below⟩, known⟩
    · obtain ⟨lives, known⟩ := h.liveLives y b held
      exact ⟨Nat.lt_succ_self t, ⟨Nat.le_succ t, lives.born, fun _ => gone⟩, known⟩
  · intro r x below present
    obtain rfl | below := Nat.eq_or_lt_of_le below
    · obtain ⟨b', held⟩ : ∃ b', live'[x]? = some b' := by
        by_cases old : ∃ y, items n y ∧ step n y = x
        · obtain ⟨y, there, moved⟩ := old
          obtain ⟨b, held⟩ := (h.keys y).mpr there
          exact ⟨advance y b, (opened x _).mpr ⟨present, .inl ⟨y, b, held, moved, rfl⟩⟩⟩
        · exact ⟨init, (opened x _).mpr
            ⟨present, .inr ⟨fun y there moved => old ⟨y, there, moved⟩, rfl⟩⟩⟩
      refine .inl ⟨x, b', held, ?_, .here present⟩
      obtain ⟨_, ⟨y, b, was, _, rfl⟩ | ⟨_, rfl⟩⟩ := (opened x b').mp held
      · rw [keepStart]
        exact Nat.le_succ_of_le (h.liveLives y b was).1.start_le
      · exact Nat.le_of_eq initStart
    · obtain ⟨y, b, held, from_, track⟩ | ⟨t, y, b, shutAt, from_, track⟩ :=
        h.covered r x (Nat.le_of_lt_succ below) present
      · by_cases there : items (n + 1) (step n y)
        · refine .inl ⟨step n y, advance y b, ?_, ?_, track.next there⟩
          · exact (opened _ _).mpr ⟨there, .inl ⟨y, b, held, rfl, rfl⟩⟩
          · rw [keepStart]
            exact from_
        · exact .inr ⟨n, y, b, (shut n y b).mpr (.inr ⟨rfl, held, there⟩), from_, track⟩
      · exact .inr ⟨t, y, b, (shut t y b).mpr (.inl shutAt), from_, track⟩

end Spans

section ReadBack
variable {α σ : Type*} (items : Nat → α → Prop) (step : Nat → α → α) (n : Nat)

/-- Spans listed with the revisions they cover, the key last seen, and what they read back at an
earlier revision. -/
structure Listing (spans : List σ) (start stop : σ → Nat) (key : σ → α) (at_ : σ → Nat → α) :
    Prop where
  lives : ∀ s ∈ spans, Lives items step n (start s) (stop s) (key s)
  path : ∀ s ∈ spans, ∀ r, start s ≤ r → r ≤ stop s → Track items step r (at_ s r) (stop s) (key s)
  covered : ∀ r x, r ≤ n → items r x →
    ∃ s ∈ spans, start s ≤ r ∧ Track items step r x (stop s) (key s)
  distinct : (spans.map fun s => (key s, stop s)).Nodup

/-- At every revision the spans covering it read back its items, one each; a span goes on exactly
while its item is there. -/
structure Reconstructs (spans : List σ) (covers : σ → Nat → Bool) (at_ : σ → Nat → α) :
    Prop where
  once : ∀ r ≤ n, ((spans.filter fun s => covers s r).map fun s => at_ s r).Nodup
  items_iff : ∀ r ≤ n, ∀ x, (∃ s ∈ spans, covers s r = true ∧ at_ s r = x) ↔ items r x
  stays : ∀ s ∈ spans, ∀ r < n, covers s r = true → items (r + 1) (step r (at_ s r)) →
    covers s (r + 1) = true ∧ at_ s (r + 1) = step r (at_ s r)
  leaves : ∀ s ∈ spans, ∀ r < n, covers s r = true → ¬ items (r + 1) (step r (at_ s r)) →
    ∀ q, r < q → q ≤ n → covers s q = false

variable {items step n} {spans : List σ} {start stop : σ → Nat} {key : σ → α} {at_ : σ → Nat → α}

theorem Lives.same_end {r b b' t t' : Nat} {x y y' : α} (h : Lives items step n b t y)
    (h' : Lives items step n b' t' y') (track : Track items step r x t y)
    (track' : Track items step r x t' y') : t = t' ∧ y = y' := by
  have reaches : ∀ {b b' t t' : Nat} {y y' : α}, Lives items step n b t y →
      Lives items step n b' t' y' → Track items step r x t y → Track items step r x t' y' →
      t' ≤ t := by
    intro b b' t t' y y' l l' k k'
    by_contra later
    obtain ⟨z, first, rest⟩ := k'.split k.le (by omega : t ≤ t')
    obtain rfl := k.unique_end first
    exact l.died (by have := l'.bound; omega) (rest.tail (by omega)).1
  have same : t = t' := Nat.le_antisymm (reaches h' h track' track) (reaches h h' track track')
  subst same
  exact ⟨rfl, track.unique_end track'⟩

theorem Listing.reconstructs (h : Listing items step n spans start stop key at_)
    (inj : ∀ s z z', items s z → items s z' → step s z = step s z' → z = z')
    {covers : σ → Nat → Bool}
    (covers_iff : ∀ s ∈ spans, ∀ r ≤ n, covers s r = true ↔ start s ≤ r ∧ r ≤ stop s) :
    Reconstructs items step n spans covers at_ where
  once r below := by
    apply List.Nodup.map_on
    · intro s ms s' ms' same
      rw [List.mem_filter] at ms ms'
      have cov := (covers_iff s ms.1 r below).mp ms.2
      have cov' := (covers_iff s' ms'.1 r below).mp ms'.2
      have ends := (h.lives s ms.1).same_end (h.lives s' ms'.1)
        (h.path s ms.1 r cov.1 cov.2) (same ▸ h.path s' ms'.1 r cov'.1 cov'.2)
      exact List.inj_on_of_nodup_map h.distinct ms.1 ms'.1 (Prod.ext ends.2 ends.1)
    · exact h.distinct.of_map.filter _
  items_iff r below x := by
    apply Iff.intro
    · intro ⟨s, mem, cov, eq⟩
      have cov := (covers_iff s mem r below).mp cov
      exact eq ▸ (h.path s mem r cov.1 cov.2).present_start
    · intro there
      obtain ⟨s, mem, began, track⟩ := h.covered r x below there
      refine ⟨s, mem, (covers_iff s mem r below).mpr ⟨began, track.le⟩, ?_⟩
      exact (h.path s mem r began track.le).unique_start inj track
  stays s mem r below cov there := by
    have cov := (covers_iff s mem r (by omega)).mp cov
    have track := h.path s mem r cov.1 cov.2
    have on : r + 1 ≤ stop s := by
      by_contra past
      have eq : stop s = r := by omega
      rw [eq] at track
      have last := Track.unique_end (.here track.present_start) track
      have died := (h.lives s mem).died
      rw [eq, ← last] at died
      exact died below there
    refine ⟨(covers_iff s mem (r + 1) (by omega)).mpr ⟨by omega, on⟩, ?_⟩
    exact (h.path s mem (r + 1) (by omega) on).unique_start inj (track.tail (by omega)).2
  leaves s mem r below cov gone q later bound := by
    have cov := (covers_iff s mem r (by omega)).mp cov
    rw [← Bool.not_eq_true, covers_iff s mem q bound]
    intro further
    exact gone ((h.path s mem r cov.1 cov.2).tail (by omega)).1

end ReadBack

end Glia.Kit
