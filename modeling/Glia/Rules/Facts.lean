import Glia.Rules.BodyJoin
import Glia.Rules.Eval
import Glia.Rules.Ground

/-! What a state of an evaluation shows: the facts its relations hold and its builtins answer,
and the literals a run sees hold by them. -/
namespace Glia.Rules

open Kit

structure Relation.Tidy (rel : Relation) : Prop where
  once : (rel.rows.map Entry.row).Nodup
  copies : ∀ c ∈ rel.copies, c.home ≤ c.level ∧ ∃ e ∈ rel.rows, e.row = c.row ∧ e.home = c.home

namespace Setting

section State

variable (S : Setting) (s : EvalState)

def ctx : Ctx := ctxOf S.src S.declared (edgeTiers S.src) s

/-- A literal as a run in the state sees it. -/
abbrev Lit := LitHolds (S.ctx s) S.catalog S.preds S.rowsOf

/-- The literals of an order can run as they are reached. -/
abbrev Ready (rule : CRule) := OrderReady S.catalog S.preds rule.body

abbrev steps (rule : CRule) := orderSteps S.catalog S.preds rule.body

/-- The fact is held at the tier, by a row of the last round or by an older one. -/
def FactIn : Ground → Tier → Bool → Prop
  | .row p row, t, recent => ∃ rel e, s.rels[p]? = some rel ∧ e ∈ rel.rows ∧ e.row = row ∧
      e.home = t ∧ e.recent = recent
  | .call b cats depth row, t, recent => S.CallRow b cats depth row t ∧
      recent = false

def shown : Db := fun f t => ∃ recent, S.FactIn s f t recent

def Recent (f : Ground) : Prop := ∃ t, S.FactIn s f t true

structure SccKept (set : CatSet) (rel : Relation) : Prop where
  rows : ∀ row t, (∃ e ∈ rel.rows, e.row = row ∧ e.home = t) ↔
    ∃ x rep, row = [.node x, .node rep] ∧ S.SccRow set x rep t
  stable : ∀ e ∈ rel.rows, e.recent = false
  copies : rel.copies = []

structure Sane : Prop where
  lent : Lent (S.ctx s) S.preds S.rowsOf
  tidy : ∀ (p : PredId) (rel : Relation), s.rels[p]? = some rel → rel.Tidy
  scc : ∀ e ∈ s.scc, S.SccKept e.1 e.2
  counted : ∀ (p : PredId) (rel : Relation), s.rels[p]? = some rel → ∀ e ∈ rel.rows, s.atLevel p e.home ≠ 0

def SetsKept (body : List CLit) : Prop :=
  ∀ (i : Nat) p terms, body[i]? = some (.pos p terms) ∨ body[i]? = some (.neg p terms) →
    ∀ b set, kindOf S.preds p = some (.builtin b) → isReaches S.catalog b = false →
      (S.declared.impls[b]?).join = none → closureSet S.catalog b terms = some set →
      ∃ rel, s.scc.find? (fun e => e.1 == set) = some (set, rel)

end State

end Setting

section View

variable {vis : Vis}

theorem span_high (calm : vis.explain = false) (src : Src) :
    (vis.span src).2.1 ≤ vis.level.level := by
  unfold Vis.span
  rw [calm]
  cases src <;> cases vis.first <;> simp only [Bool.false_eq_true, if_false]
  all_goals try split
  all_goals simp_all

theorem sees_level (calm : vis.explain = false) {src : Src} {t : Tier} {recent : Bool}
    (sees : (vis.view src).sees t recent = true) : t ≤ vis.level := by
  have inside := (Bool.and_eq_true_iff.mp sees).1
  have low : t.level ≤ (vis.span src).2.1 := (of_decide_eq_true inside).2
  exact low.trans (span_high calm src)

/-- A complete-input row is seen as a stable one is. -/
theorem admits_iff (vis : Vis) (src : Src) (t : Tier) :
    vis.admits src t = (vis.view src).sees t false := by
  unfold Vis.admits View.sees Vis.view
  generalize vis.span src = span
  obtain ⟨low, high, which⟩ := span
  cases which <;> simp [Which.reads]

theorem mem_scan {rel : Relation} (copies : ∀ c ∈ rel.copies, c.home ≤ c.level ∧
      ∃ e ∈ rel.rows, e.row = c.row ∧ e.home = c.home) {src : Src} {r : Seen}
    (calm : vis.explain = false) (mem : r ∈ rel.scan (vis.view src)) :
    r.tier ≤ vis.level ∧ ∃ e ∈ rel.rows, e.row = r.row ∧ e.home = r.tier := by
  unfold Relation.scan at mem
  have there := (List.mem_filter.mp mem).1
  rcases List.mem_append.mp there with there | there
  · obtain ⟨e, seen, eq⟩ := List.mem_map.mp there
    obtain ⟨held, sees⟩ := List.mem_filter.mp seen
    subst eq
    exact ⟨sees_level calm sees, e, held, rfl, rfl⟩
  · split at there
    · obtain ⟨c, seen, eq⟩ := List.mem_map.mp there
      obtain ⟨held, sees⟩ := List.mem_filter.mp seen
      subst eq
      obtain ⟨low, e, inRows, same, home⟩ := copies c held
      exact ⟨low.trans (sees_level calm sees), e, inRows, same, home⟩
    · cases there

theorem scan_sees {rel : Relation} {src : Src} {e : Entry} (free : vis.maxHeight = none)
    (mem : e ∈ rel.rows) (sees : (vis.view src).sees e.home e.recent = true) :
    e.seen (vis.view src) ∈ rel.scan (vis.view src) := by
  have any (n : Nat) : (vis.view src).admitsHeight n = true := by
    simp [View.admitsHeight, Vis.view, free]
  unfold Relation.scan
  refine List.mem_filter.mpr ⟨List.mem_append_left _ ?_, any _⟩
  exact List.mem_map_of_mem (List.mem_filter.mpr ⟨mem, sees⟩)

end View

namespace Setting

variable {S : Setting} {s : EvalState} {vis : Vis} {from' : Src}

theorem atomRow_shown (sane : S.Sane s) (calm : vis.explain = false)
    {p : PredId} {terms : List CTerm} {row : Row} {t : Tier} {n : Nat}
    (h : AtomRow (S.ctx s) S.catalog S.preds S.rowsOf vis from' p terms
      row t n) :
    t ≤ vis.level ∧ S.shown s (S.atomFact p terms row) t := by
  have relation (h : ∃ rel r, s.rels[p]? = some rel ∧ r ∈ rel.scan (vis.view from') ∧ row = r.row ∧
      t = r.tier ∧ n = r.prov.height) :
      t ≤ vis.level ∧ S.shown s (.row p row) t := by
    obtain ⟨rel, r, held, mem, sameRow, sameTier, _⟩ := h
    obtain ⟨low, e, inRows, row', home⟩ := mem_scan (sane.tidy p rel held).copies calm mem
    subst sameRow sameTier
    exact ⟨low, e.recent, rel, e, held, inRows, row', home, rfl⟩
  unfold AtomRow at h
  unfold atomFact
  cases kind : kindOf S.preds p with
  | none =>
    rw [kind] at h
    exact relation h
  | some k =>
    rw [kind] at h
    cases k with
    | idb => exact relation h
    | edb e => exact relation h
    | builtin b =>
      dsimp only at h ⊢
      simp only [shown, FactIn, CallRow, exists_eq_right]
      split at h
      · rename_i isReach
        rw [if_pos isReach]
        obtain ⟨admits, _, x, y, eq, row'⟩ := h
        rw [admits_iff] at admits
        exact ⟨sees_level calm admits, x, y, eq, row'⟩
      · rename_i notReach
        rw [if_neg notReach]
        cases imp : (S.declared.impls[b]?).join with
        | some i =>
          have imp' : ((S.ctx s).impls[b]?).join = some i := imp
          rw [imp'] at h
          obtain ⟨admits, _, row'⟩ := h
          rw [admits_iff] at admits
          exact ⟨sees_level calm admits, row'⟩
        | none =>
          have imp' : ((S.ctx s).impls[b]?).join = none := imp
          rw [imp'] at h
          obtain ⟨set, rel, r, cats, found, mem, sameRow, sameTier, _⟩ := h
          have kept := sane.scc _ (List.mem_of_find?_eq_some found)
          obtain ⟨low, e, inRows, row', home⟩ := mem_scan (by rw [kept.copies]; simp) calm mem
          obtain ⟨x, rep, eq, scc⟩ := (kept.rows row t).mp
            ⟨e, inRows, row'.trans sameRow.symm, home.trans sameTier.symm⟩
          exact ⟨sameTier ▸ low, set, x, rep, cats, eq, scc⟩

theorem seen_of_fact (sane : S.Sane s) (free : vis.maxHeight = none)
    {p : PredId} {terms : List CTerm} {row : Row} {t : Tier} {recent : Bool}
    (sets : ∀ b set, kindOf S.preds p = some (.builtin b) → isReaches S.catalog b = false →
      (S.declared.impls[b]?).join = none → closureSet S.catalog b terms = some set →
      ∃ rel, s.scc.find? (fun e => e.1 == set) = some (set, rel))
    (fact : S.FactIn s (S.atomFact p terms row) t recent)
    (sees : (vis.view from').sees t recent = true) :
    ∃ n, AtomRow (S.ctx s) S.catalog S.preds S.rowsOf vis from' p terms
      row t n := by
  have relation (h : S.FactIn s (.row p row) t recent) :
      ∃ n rel r, s.rels[p]? = some rel ∧ r ∈ rel.scan (vis.view from') ∧ row = r.row ∧ t = r.tier ∧
        n = r.prov.height := by
    obtain ⟨rel, e, held, mem, same, home, batch⟩ := h
    subst same home batch
    exact ⟨_, rel, e.seen _, held, scan_sees free mem sees, rfl, rfl, rfl⟩
  unfold AtomRow
  unfold atomFact at fact
  cases kind : kindOf S.preds p with
  | none =>
    rw [kind] at fact
    exact relation fact
  | some k =>
    rw [kind] at fact
    cases k with
    | idb => exact relation fact
    | edb e => exact relation fact
    | builtin b =>
      dsimp only at fact ⊢
      obtain ⟨row', batch⟩ := fact
      subst batch
      rw [← admits_iff] at sees
      cases isReach : isReaches S.catalog b with
      | true =>
        rw [CallRow, if_pos isReach] at row'
        exact ⟨0, by simpa using ⟨sees, row'⟩⟩
      | false =>
        rw [CallRow, if_neg (by simp [isReach])] at row'
        cases imp : (S.declared.impls[b]?).join with
        | some i =>
          have imp' : ((S.ctx s).impls[b]?).join = some i := imp
          rw [imp] at row'
          exact ⟨0, by simpa [imp'] using ⟨sees, row'⟩⟩
        | none =>
          have imp' : ((S.ctx s).impls[b]?).join = none := imp
          rw [imp] at row'
          obtain ⟨set, x, rep, cats, eq, scc⟩ := row'
          obtain ⟨rel, found⟩ := sets b set kind isReach imp cats
          have kept := sane.scc _ (List.mem_of_find?_eq_some found)
          obtain ⟨e, mem, same, home⟩ := (kept.rows row t).mpr ⟨x, rep, eq, scc⟩
          rw [admits_iff, ← home, ← kept.stable e mem] at sees
          refine ⟨(e.seen (vis.view from')).prov.height, ?_⟩
          simp only [Bool.false_eq_true, if_false, imp']
          exact ⟨set, rel, e.seen _, cats, found, scan_sees free mem sees, same.symm, home.symm, rfl⟩

variable {τ : Assignment} {σ : Env} {b : Tier}

def Fills (τ : Assignment) (σ : Env) (terms : List CTerm) : Prop :=
  ∀ v, Mentions terms v → σ v = some (τ v)

theorem Fills.rowIs {terms : List CTerm} (fills : Fills τ σ terms) (tables : DomainTables)
    (row : Row) :
    RowIs tables σ terms row ↔ RowIs tables (fun v => some (τ v)) terms row :=
  rowIs_congr fun v mem => fills v mem

theorem factTerms_mentions {p : PredId} {terms : List CTerm} {v : Nat}
    (h : Mentions (S.factTerms p terms) v) : Mentions terms v := by
  unfold factTerms at h
  split at h
  · split at h
    · exact List.mem_of_mem_take h
    · exact h
  · exact h

theorem lit_shown (sane : S.Sane s) (calm : vis.explain = false)
    {p : PredId} {terms : List CTerm} (fills : Fills τ σ terms) {t : Tier} {n : Nat}
    (h : S.Lit s vis from' σ
      (.pos p terms) t n) :
    t ≤ vis.level ∧ ∃ f, S.AtomFits τ p terms f ∧ S.shown s f t := by
  obtain ⟨row, seen, is⟩ := h
  obtain ⟨low, held⟩ := atomRow_shown sane calm seen
  have fits := (Fills.rowIs (fun v mem => fills v (factTerms_mentions mem)) S.src.tables row).mp is
  exact ⟨low, _, ⟨row, rfl, fits⟩, held⟩

/-- A fact held that fits a positive literal and is seen makes it hold. -/
theorem lit_of_fact (sane : S.Sane s) (free : vis.maxHeight = none)
    {p : PredId} {terms : List CTerm} (fills : Fills τ σ terms) {body : List CLit} {i : Nat}
    (sets : S.SetsKept s body) (here : body[i]? = some (.pos p terms)) {f : Ground}
    (fits : S.AtomFits τ p terms f) {t : Tier} {recent : Bool}
    (fact : S.FactIn s f t recent)
    (sees : (vis.view from').sees t recent = true) :
    ∃ n, S.Lit s vis from' σ
      (.pos p terms) t n := by
  obtain ⟨row, eq, is⟩ := fits
  subst eq
  obtain ⟨n, seen⟩ := seen_of_fact sane free (sets i p terms (.inl here)) fact sees
  refine ⟨n, row, seen, ?_⟩
  exact (Fills.rowIs (fun v mem => fills v (factTerms_mentions mem)) S.src.tables row).mpr is

theorem lit_side (sane : S.Sane s) {body : List CLit} {i : Nat}
    {lit : CLit} (sets : S.SetsKept s body) (here : body[i]? = some lit)
    (fills : Fills τ σ lit.terms) (side : ∀ p terms, lit ≠ .pos p terms) (t : Tier) (n : Nat) :
    S.Lit s vis from' σ lit t n ↔
      t = .fact ∧ n = 0 ∧ S.SideHolds (S.shown s) τ lit := by
  cases lit with
  | pos p terms => exact absurd rfl (side p terms)
  | neg p terms =>
    refine and_congr_right fun _ => and_congr_right fun _ => ⟨fun none' f fits held => ?_, ?_⟩
    · obtain ⟨row, eq, is⟩ := fits
      obtain ⟨t', recent, fact⟩ := held
      subst eq
      have sees : ((Vis.complete vis.count).view .all).sees t' recent = true := by
        cases t' <;> rfl
      obtain ⟨n', seen⟩ := seen_of_fact sane rfl (sets i p terms (.inr here)) fact sees
      refine none' row t' n' seen ?_
      exact (Fills.rowIs (fun v mem => fills v (factTerms_mentions mem)) S.src.tables row).mpr is
    · intro none' row t' n' seen is
      obtain ⟨_, held⟩ := atomRow_shown sane rfl seen
      refine none' _ ⟨row, rfl, ?_⟩ ⟨t', held⟩
      exact (Fills.rowIs (fun v mem => fills v (factTerms_mentions mem)) S.src.tables row).mp is
  | cmp op l r =>
    have same {t : CTerm} (mem : t ∈ [l, r]) (v : Value) :
        TermIs S.src.tables σ t v ↔ TermIs S.src.tables (fun v => some (τ v)) t v := by
      apply termIs_congr
      intro x eq
      subst eq
      exact fills x mem
    have left := same (t := l) (by simp)
    have right := same (t := r) (by simp)
    change _ ∧ _ ∧ (∃ a b, _ ∧ _ ∧ TermIs S.src.tables σ l a ∧ TermIs S.src.tables σ r b ∧ _) ↔ _
    simp only [SideHolds, left, right]
    rfl

def AllHold (S : Setting) (s : EvalState) (b : Tier) (vis : Vis) (srcs : Nat → Src) (rule : CRule)
    (σ : Env) (order : List Nat) : Prop :=
  ∀ i ∈ order, ∀ lit, rule.body[i]? = some lit → ∃ t ≤ b, ∃ n, S.Lit s vis (srcs i) σ lit t n

theorem joined_below {rule : CRule} {srcs : Nat → Src} {order : List Nat} {σ₀ : Env} {l₀ : Tier} {h₀ : Nat} :
    (∃ l ≤ b, ∃ h, Joined (S.ctx s) S.catalog S.preds S.rowsOf vis srcs rule.body order σ₀ l₀ h₀ σ l h) ↔
      l₀ ≤ b ∧ Grows σ₀ (orderTerms rule.body order) σ ∧
        S.AllHold s b vis srcs rule σ order := by
  have fold (parts : List (Tier × Nat)) (l : Tier) :
      parts.foldl (fun l part => l.weakest part.1) l ≤ b ↔ l ≤ b ∧ ∀ part ∈ parts, part.1 ≤ b := by
    induction parts generalizing l with
    | nil => simp
    | cons part parts ih => simp [ih, and_assoc]
  constructor
  · rintro ⟨l, low, h, grows, parts, holds, eq, height⟩
    subst eq
    obtain ⟨first, each⟩ := (fold parts l₀).mp low
    refine ⟨first, grows, ?_⟩
    clear low grows height
    induction holds with
    | nil => simp [AllHold]
    | @cons i part order parts head tail ih =>
      have rest := ih fun part mem => each part (List.mem_cons_of_mem _ mem)
      intro j mem lit here
      rcases List.mem_cons.mp mem with eq | mem
      · subst eq
        exact ⟨part.1, each part List.mem_cons_self, part.2, head lit here⟩
      · exact rest j mem lit here
  · rintro ⟨first, grows, holds⟩
    have parts : ∃ parts : List (Tier × Nat), (∀ part ∈ parts, part.1 ≤ b) ∧
        OrderHolds (S.ctx s) S.catalog S.preds S.rowsOf vis srcs rule.body σ order parts := by
      clear grows
      induction order with
      | nil => exact ⟨[], by simp, .nil⟩
      | cons i order ih =>
        obtain ⟨parts, low, rest⟩ := ih fun j mem => holds j (List.mem_cons_of_mem _ mem)
        cases here : rule.body[i]? with
        | none =>
          refine ⟨(.fact, 0) :: parts, List.forall_mem_cons.mpr ⟨Tier.fact_le b, low⟩, .cons ?_ rest⟩
          intro lit there
          rw [here] at there
          cases there
        | some lit =>
          obtain ⟨t, le, n, holds⟩ := holds i List.mem_cons_self lit here
          refine ⟨(t, n) :: parts, List.forall_mem_cons.mpr ⟨le, low⟩, .cons ?_ rest⟩
          intro lit' there
          rw [here, Option.some.injEq] at there
          exact there ▸ holds
    obtain ⟨parts, low, each⟩ := parts
    exact ⟨_, (fold parts l₀).mpr ⟨first, low⟩, _, grows, parts, each, rfl, rfl⟩

variable {rule : CRule} {srcs : Nat → Src} {order : List Nat}

theorem mem_positives {body : List CLit} {i : Nat} :
    i ∈ positives body ↔ ∃ p terms, body[i]? = some (.pos p terms) := by
  simp only [positives, List.mem_filter, List.mem_range]
  constructor
  · rintro ⟨_, pos⟩
    split at pos
    · exact ⟨_, _, ‹_›⟩
    · cases pos
  · rintro ⟨p, terms, here⟩
    exact ⟨(List.getElem?_eq_some_iff.mp here).1, by rw [here]⟩

theorem mentions_order {body : List CLit} {i : Nat} {lit : CLit} (mem : i ∈ order)
    (here : body[i]? = some lit) {v : Nat} (mentions : Mentions lit.terms v) :
    Mentions (orderTerms body order) v := by
  refine List.mem_flatMap.mpr ⟨i, mem, ?_⟩
  rw [here]
  exact mentions

theorem satisfies_of_holds (sane : S.Sane s)
    (calm : vis.explain = false) (sets : S.SetsKept s rule.body)
    (whole : ∀ i < rule.body.length, i ∈ order) (fills : Fills τ σ (orderTerms rule.body order))
    (holds : S.AllHold s b vis srcs rule σ order) :
    ∃ fs, S.Satisfies (S.shown s) rule τ fs ∧
      ∀ i ∈ positives rule.body, ∃ t ≤ b, t ≤ vis.level ∧ S.shown s (fs i) t := by
  have each (i : Nat) (p : PredId) (terms : List CTerm) (here : rule.body[i]? = some (.pos p terms)) :
      ∃ f, S.AtomFits τ p terms f ∧
        ∃ t ≤ b, t ≤ vis.level ∧ S.shown s f t := by
    have mem := whole i (List.getElem?_eq_some_iff.mp here).1
    obtain ⟨t, low, n, lit⟩ := holds i mem _ here
    obtain ⟨low', f, fits, held⟩ := lit_shown sane calm
      (fun v there => fills v (mentions_order mem here there)) lit
    exact ⟨f, fits, t, low, low', held⟩
  have pick (i : Nat) : ∃ f, ∀ p terms, rule.body[i]? = some (.pos p terms) →
      S.AtomFits τ p terms f ∧
        ∃ t ≤ b, t ≤ vis.level ∧ S.shown s f t := by
    by_cases pos : ∃ p terms, rule.body[i]? = some (.pos p terms)
    · obtain ⟨p, terms, here⟩ := pos
      obtain ⟨f, fits⟩ := each i p terms here
      refine ⟨f, fun p' terms' there => ?_⟩
      rw [here, Option.some.injEq, CLit.pos.injEq] at there
      exact there.1 ▸ there.2 ▸ fits
    · exact ⟨.row 0 [], fun p terms here => absurd ⟨p, terms, here⟩ pos⟩
  choose fs spec using pick
  refine ⟨fs, ⟨fun i p terms here => (spec i p terms here).1, fun lit mem => ?_⟩, ?_⟩
  · obtain ⟨i, here⟩ := List.mem_iff_getElem?.mp mem
    have inOrder := whole i (List.getElem?_eq_some_iff.mp here).1
    obtain ⟨t, _, n, lit'⟩ := holds i inOrder lit here
    by_cases side : ∀ p terms, lit ≠ .pos p terms
    · exact ((lit_side sane sets here
        (fun v there => fills v (mentions_order inOrder here there)) side t n).mp lit').2.2
    · push Not at side
      obtain ⟨p, terms, eq⟩ := side
      subst eq
      trivial
  · intro i mem
    obtain ⟨p, terms, here⟩ := mem_positives.mp mem
    exact (spec i p terms here).2

theorem holds_of_satisfies (sane : S.Sane s)
    (free : vis.maxHeight = none) (sets : S.SetsKept s rule.body)
    (fills : Fills τ σ (orderTerms rule.body order)) {fs : Nat → Ground}
    (sat : S.Satisfies (S.shown s) rule τ fs)
    (seen : ∀ i ∈ order, i ∈ positives rule.body → ∃ t ≤ b, ∃ recent,
      S.FactIn s (fs i) t recent ∧ (vis.view (srcs i)).sees t recent = true) :
    S.AllHold s b vis srcs rule σ order := by
  intro i mem lit here
  have local' : Fills τ σ lit.terms := fun v there => fills v (mentions_order mem here there)
  by_cases side : ∀ p terms, lit ≠ .pos p terms
  · refine ⟨.fact, Tier.fact_le b, 0, ?_⟩
    exact (lit_side sane sets here local' side _ _).mpr
      ⟨rfl, rfl, sat.sides lit (List.mem_of_getElem? here)⟩
  · push Not at side
    obtain ⟨p, terms, eq⟩ := side
    subst eq
    obtain ⟨t, low, recent, fact, sees⟩ := seen i mem (mem_positives.mpr ⟨p, terms, here⟩)
    obtain ⟨n, lit⟩ := lit_of_fact sane free local' sets here (sat.atoms i p terms here) fact sees
    exact ⟨t, low, n, lit⟩

end Setting

end Glia.Rules
