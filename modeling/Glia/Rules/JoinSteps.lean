import Glia.Rules.Columns
import Glia.Rules.ExecExact

/-! The join of a body: the substitutions under which every literal has a row it is shown,
literal by literal, and each planned step's part in it. -/
namespace Glia.Rules

/-- Every call of a builtin answers from one relation `R`, whatever is bound: of the rows
that agree with the bound arguments it returns just those of `R`. -/
def Answers (tiered : Bool) (imp : Builtin) (R : Row → Tier → Prop) : Prop :=
  ∀ key found, imp key = .ok found → ∀ row t,
    List.Forall₂ (fun k v => ∀ w, k = some w → v = w) key row →
      ((row, t) ∈ calledRows tiered key.length found ↔ R row t)

def Relation.Wide (rel : Relation) (n : Nat) : Prop :=
  (∀ e ∈ rel.rows, e.row.length = n) ∧ ∀ c ∈ rel.copies, c.row.length = n

section Join

variable (ctx : Ctx) (catalog : Catalog) (preds : List PredInfo)
-- The rows of each builtin, whatever its call binds.
variable (rowsOf : Nat → Row → Tier → Prop)

/-- A `reaches` or `scc` literal has two columns, the rest of it says what is walked. -/
def atomTerms (p : PredId) (terms : List CTerm) : List CTerm :=
  match kindOf preds p with
  | some (.builtin b) =>
    if isReaches catalog b || (ctx.impls[b]?).join.isNone then terms.take 2 else terms
  | _ => terms

/-- The rows a positive literal is shown under `vis` as source `src`, each with its tier and
height. -/
def AtomRow (vis : Vis) (src : Src) (p : PredId) (terms : List CTerm) (row : Row) (t : Tier)
    (height : Nat) : Prop :=
  match kindOf preds p with
  | some (.builtin b) =>
    if isReaches catalog b then
      vis.admits src t = true ∧ height = 0 ∧ ∃ x y, row = [.node x, .node y] ∧
        ReachRow ctx.src ((closureSet catalog b terms).getD .all) (depth terms) x y t
    else
      match (ctx.impls[b]?).join with
      | some _ => vis.admits src t = true ∧ height = 0 ∧ rowsOf b row t
      | none => ∃ set rel s, closureSet catalog b terms = some set ∧
          (ctx.scc.find? fun e => e.1 == set) = some (set, rel) ∧ s ∈ rel.scan (vis.view src) ∧
          row = s.row ∧ t = s.tier ∧ height = s.prov.height
  | _ => ∃ rel s, ctx.rels[p]? = some rel ∧ s ∈ rel.scan (vis.view src) ∧ row = s.row ∧
      t = s.tier ∧ height = s.prov.height

/-- The literal holds under `σ` by a row of this tier and height. A negation holds when the
complete relation has no instance, and like a comparison weakens nothing. -/
def LitHolds (vis : Vis) (src : Src) (σ : Env) : CLit → Tier → Nat → Prop
  | .pos p terms, t, height => ∃ row, AtomRow ctx catalog preds rowsOf vis src p terms row t height ∧
      RowIs ctx.src.tables σ (atomTerms ctx catalog preds p terms) row
  | .neg p terms, t, height => t = .fact ∧ height = 0 ∧ ∀ row t' height',
      AtomRow ctx catalog preds rowsOf (Vis.complete vis.count) .all p terms row t' height' →
        ¬ RowIs ctx.src.tables σ (atomTerms ctx catalog preds p terms) row
  | .cmp op l r, t, height => t = .fact ∧ height = 0 ∧ ∃ a b, l ≠ .wild ∧ r ≠ .wild ∧
      TermIs ctx.src.tables σ l a ∧ TermIs ctx.src.tables σ r b ∧ compareOp ctx.src op a b = true

structure Lent : Prop where
  rels : ∀ (p : PredId) i rel, preds[p]? = some i → ctx.rels[p]? = some rel → rel.Wide i.arity
  pairs : ∀ e ∈ ctx.scc, e.2.Wide 2
  answers : ∀ (b : Nat) imp, (ctx.impls[b]?).join = some imp →
    Answers ((ctx.decls[b]?.map BuiltinDecl.tiered).getD true) imp (rowsOf b)

/-- The literal has its predicate's arity, and past the ends of a closure builtin only
constants stand. -/
def Shaped (lit : CLit) : Prop :=
  ∀ p terms, lit = .pos p terms ∨ lit = .neg p terms →
    preds[p]?.map PredInfo.arity = some terms.length ∧
    ∀ b, kindOf preds p = some (.builtin b) → (closureSet catalog b terms).isSome = true →
      2 ≤ terms.length ∧
        ∀ c, 2 ≤ c → c < terms.length → predReq catalog preds p c = some .const

/-- Some row the step reads under `σ` leads to `σ'`, with its tier and height. -/
def Takes (heights : Nat → Nat) (vis : Vis) (σ : Env) (step : Step) (σ' : Env) (t : Tier)
    (height : Nat) : Prop :=
  ∃ a, IsAlt ctx heights vis σ step a ∧ σ' = takeRow step σ a.row ∧ t = a.tier ∧
    height = a.prov.height

end Join

end Glia.Rules

/-! One planned step is its literal: the rows it takes under a substitution are those that
extend it to an instance of the literal. -/
namespace Glia.Rules

section Rows

theorem Relation.Wide.scan {rel : Relation} {n : Nat} (h : rel.Wide n) {view : View} {s : Seen}
    (mem : s ∈ rel.scan view) : s.row.length = n := by
  unfold Relation.scan at mem
  rcases List.mem_append.mp (List.mem_filter.mp mem).1 with mem | mem
  · obtain ⟨e, he, rfl⟩ := List.mem_map.mp mem
    exact h.1 e (List.mem_filter.mp he).1
  · split at mem
    · obtain ⟨c, hc, rfl⟩ := List.mem_map.mp mem
      exact h.2 c (List.mem_filter.mp hc).1
    · cases mem

theorem mem_scan_complete (rel : Relation) (count : Bool) (row : Row) :
    (∃ s ∈ rel.scan ((Vis.complete count).view .all), s.row = row) ↔
      ∃ e ∈ rel.rows, e.row = row := by
  have sees : ∀ e : Entry, ((Vis.complete count).view .all).sees e.home e.recent = true := by
    intro e
    cases e.home <;> rfl
  have all : rel.scan ((Vis.complete count).view .all) =
      rel.rows.map fun e => e.seen ((Vis.complete count).view .all) := by
    have lowered : ((Vis.complete count).view .all).lowered = false := rfl
    have heights : ∀ n, ((Vis.complete count).view .all).admitsHeight n = true := fun _ => rfl
    simp only [Relation.scan, lowered, sees, heights, Bool.false_eq_true, if_false,
      List.append_nil, List.filter_true]
  rw [all]
  simp only [List.mem_map, exists_exists_and_eq_and]
  exact Iff.rfl

theorem mem_relationAlts {ws : List (Nat × Want)} {rows : List Seen} {a : Alt} :
    a ∈ relationAlts ws rows ↔ ∃ s ∈ rows, fits ws s.row = true ∧
      a = ⟨s.row, s.tier, s.prov, s.ordinal⟩ := by
  simp only [relationAlts, List.mem_map, List.mem_filter]
  exact exists_congr fun s => by rw [and_assoc, eq_comm (a := a)]

theorem mem_builtinAlts {vis : Vis} {src : Src} {ws : List (Nat × Want)}
    {rows : List (Row × Tier)} {a : Alt} :
    a ∈ builtinAlts vis src ws rows ↔ ∃ row t, (row, t) ∈ rows ∧ vis.admits src t = true ∧
      fits ws row = true ∧ a = ⟨row, t, loaded, noOrdinal⟩ := by
  simp only [builtinAlts, List.mem_map, List.mem_filter, Bool.and_eq_true, Prod.exists]
  exact exists_congr fun row => exists_congr fun t => by
    rw [and_assoc, and_assoc, eq_comm (a := a)]

theorem fits_append (a b : List (Nat × Want)) (row : Row) :
    fits (a ++ b) row = true ↔ fits a row = true ∧ fits b row = true := by
  unfold fits
  rw [List.all_append, Bool.and_eq_true]

theorem fits_argWants (key : List (Option Value)) (row : Row) :
    fits (argWants key) row = true ↔ ∀ (c : Nat) v, key[c]? = some (some v) → row[c]? = some v := by
  unfold fits argWants
  rw [List.all_eq_true]
  simp only [List.mem_filterMap, Option.map_eq_some_iff, Prod.forall, forall_exists_index, and_imp,
    Prod.exists, List.mem_zipIdx_iff_getElem?]
  constructor
  · intro h c v hc
    have := h c (.val v) (some v) c hc v rfl rfl
    simpa using this
  · rintro h c w _ _ hc v rfl ⟨rfl, rfl⟩
    simpa using h c v hc

end Rows

section Keys

variable {tables : DomainTables} {σ : Env} {bound : Bound} {terms : List CTerm}

theorem part_resolves {t : CTerm} {q : KeyPart} (hq : part t = some q)
    (set : ∀ v, t = .var v → (σ v).isSome = true) :
    ∃ x, resolvePart tables σ q = some x ∧ ∀ y, TermIs tables σ t y ↔ y = x := by
  cases t with
  | wild => cases hq
  | const c =>
    cases hq
    exact ⟨_, rfl, fun y => Iff.rfl⟩
  | var v =>
    cases hq
    obtain ⟨x, hx⟩ := Option.isSome_iff_exists.mp (set v rfl)
    refine ⟨x, hx, fun y => ?_⟩
    show σ v = some y ↔ y = x
    rw [hx, Option.some.injEq, eq_comm]

theorem isBound_set {t : CTerm} (hb : isBound bound t = true) (mem : t ∈ terms)
    (agree : ∀ v, Mentions terms v → (bound v = true ↔ (σ v).isSome = true)) :
    ∀ v, t = .var v → (σ v).isSome = true := by
  rintro v rfl
  exact (agree v mem).mp hb

theorem parts_cols {cols : List Nat} {row : Row} (width : row.length = terms.length)
    (bounds : ∀ c ∈ cols, c < terms.length ∧ isBound bound (terms.getD c .wild) = true)
    (agree : ∀ v, Mentions terms v → (bound v = true ↔ (σ v).isSome = true))
    {key : List Value}
    (h : parts tables σ (cols.filterMap fun c => part (terms.getD c .wild)) = some key) :
    key.length = cols.length ∧ (cols.map (fun c => row[c]?) = key.map some ↔
      ∀ c ∈ cols, ∀ v, row[c]? = some v → TermIs tables σ (terms.getD c .wild) v) := by
  induction cols generalizing key with
  | nil =>
    cases h
    simp
  | cons c rest ih =>
    obtain ⟨lt, hb⟩ := bounds c List.mem_cons_self
    obtain ⟨q, hq⟩ := part_of_bound hb
    obtain ⟨x, hx, only⟩ := @part_resolves tables σ _ q hq
      (isBound_set hb (mem_terms_of_getD lt rfl) agree)
    rw [List.filterMap_cons_some (f := fun c => part (terms.getD c .wild)) hq] at h
    unfold parts at h
    split at h
    · rename_i v vs hv hvs
      rw [hx, Option.some.injEq] at hv
      subst hv
      cases h
      obtain ⟨length, cells⟩ := ih (fun c hc => bounds c (List.mem_cons_of_mem _ hc)) hvs
      have lt' : c < row.length := by omega
      refine ⟨by simp [length], ?_⟩
      rw [List.map_cons, List.map_cons, List.cons.injEq, cells, List.forall_mem_cons]
      refine and_congr_left' ⟨fun eq v hv => ?_, fun all => ?_⟩
      · rw [eq, Option.some.injEq] at hv
        exact (only v).mpr hv.symm
      · rw [List.getElem?_eq_getElem lt', Option.some.injEq]
        exact (only _).mp (all _ (List.getElem?_eq_getElem lt'))
    · cases h

theorem keyIs_boundCols {row : Row} :
    KeyIs tables σ bound terms row ↔
      ∀ c ∈ boundCols terms bound, ∀ v, row[c]? = some v → TermIs tables σ (terms.getD c .wild) v := by
  constructor
  · intro h c hc v hv
    obtain ⟨lt, hb⟩ := mem_boundCols.mp hc
    refine h c _ v ?_ hb hv
    rw [List.getD_eq_getElem?_getD, List.getElem?_eq_getElem lt, Option.getD_some]
  · intro h c t v ht hb hv
    obtain ⟨lt, rfl⟩ := List.getElem?_eq_some_iff.mp ht
    have eq : terms.getD c .wild = terms[c] := by
      rw [List.getD_eq_getElem?_getD, ht, Option.getD_some]
    rw [← eq]
    exact h c (mem_boundCols.mpr ⟨lt, by rwa [eq]⟩) v hv

theorem keyOf_resolves
    (agree : ∀ v, Mentions terms v → (bound v = true ↔ (σ v).isSome = true)) :
    ∃ key, parts tables σ (keyOf terms bound) = some key ∧ ∀ row : Row,
      row.length = terms.length →
        (Relation.hasPrefix (permOf terms bound) key row = true ↔ KeyIs tables σ bound terms row) := by
  obtain ⟨key, hk⟩ := Option.isSome_iff_exists.mp
    (@parts_isSome tables σ (fun v => (σ v).isSome) (fun v hv => hv) (keyOf terms bound)
      fun q hq => by
        obtain ⟨t, mem, ht, hb⟩ := mem_keyOf hq
        exact partBound_real (fun v hv => (agree v hv).mp) mem ht hb)
  refine ⟨key, hk, fun row width => ?_⟩
  obtain ⟨length, cells⟩ := parts_cols width (fun c hc => mem_boundCols.mp hc) agree hk
  unfold Relation.hasPrefix permOf
  rw [length, List.take_left', beq_iff_eq, cells, keyIs_boundCols]
  rfl

theorem keyIs_of_noKey (none : keyOf terms bound = []) (row : Row) :
    KeyIs tables σ bound terms row := by
  rw [keyIs_boundCols]
  intro c hc
  obtain ⟨q, hq⟩ := part_of_bound (mem_boundCols.mp hc).2
  have := List.filterMap_eq_nil_iff.mp none c hc
  rw [hq] at this
  cases this

/-- The arguments of a call resolve, each bound one to its term's value. -/
theorem args_resolve
    (agree : ∀ v, Mentions terms v → (bound v = true ↔ (σ v).isSome = true)) :
    ∃ key, opts tables σ (terms.map fun t => boundPart bound (some t)) = some key ∧
      key.length = terms.length ∧ ∀ (c : Nat) t, terms[c]? = some t → ∀ v,
        key[c]? = some (some v) ↔ isBound bound t = true ∧ TermIs tables σ t v := by
  have one : ∀ t ∈ terms, ∃ k, opt tables σ (boundPart bound (some t)) = some k ∧
      ∀ v, k = some v ↔ isBound bound t = true ∧ TermIs tables σ t v := by
    intro t mem
    unfold boundPart
    simp only
    split
    · rename_i hb
      obtain ⟨q, hq⟩ := part_of_bound hb
      obtain ⟨x, hx, only⟩ := @part_resolves tables σ _ q hq (isBound_set hb mem agree)
      refine ⟨some x, by simp [hq, opt, hx], fun v => ?_⟩
      rw [Option.some.injEq, only v]
      simp [hb, eq_comm]
    · rename_i hb
      exact ⟨none, rfl, fun v => by simp [hb]⟩
  clear agree
  induction terms with
  | nil => exact ⟨[], rfl, rfl, by simp⟩
  | cons t rest ih =>
    obtain ⟨k, hk, key⟩ := one t List.mem_cons_self
    obtain ⟨ks, hks, length, keys⟩ := ih fun u hu => one u (List.mem_cons_of_mem _ hu)
    refine ⟨k :: ks, by simp [opts, hk, hks], by simp [length], fun c u hu v => ?_⟩
    cases c with
    | zero =>
      rw [List.getElem?_cons_zero, Option.some.injEq] at hu
      subst hu
      rw [List.getElem?_cons_zero, Option.some.injEq]
      exact key v
    | succ c =>
      rw [List.getElem?_cons_succ] at hu ⊢
      exact keys c u hu v

theorem keyIs_args {key : List (Option Value)} {row : Row} (length : key.length = terms.length)
    (keys : ∀ (c : Nat) t, terms[c]? = some t → ∀ v,
      key[c]? = some (some v) ↔ isBound bound t = true ∧ TermIs tables σ t v)
    (agree : ∀ v, Mentions terms v → (bound v = true ↔ (σ v).isSome = true))
    (width : row.length = terms.length) :
    (∀ (c : Nat) v, key[c]? = some (some v) → row[c]? = some v) ↔
      KeyIs tables σ bound terms row := by
  have only : ∀ {c : Nat} (lt : c < terms.length), isBound bound terms[c] = true →
      ∃ x, ∀ y, TermIs tables σ terms[c] y ↔ y = x := by
    intro c lt hb
    obtain ⟨q, hq⟩ := part_of_bound hb
    obtain ⟨x, _, only⟩ := @part_resolves tables σ _ q hq
      (isBound_set hb (List.getElem_mem lt) agree)
    exact ⟨x, only⟩
  constructor
  · intro h c t v ht hb hv
    obtain ⟨lt, rfl⟩ := List.getElem?_eq_some_iff.mp ht
    obtain ⟨x, is⟩ := only lt hb
    have there := h c x ((keys c _ ht x).mpr ⟨hb, (is x).mpr rfl⟩)
    rw [hv, Option.some.injEq] at there
    exact (is v).mpr there
  · intro h c v hc
    have lt : c < terms.length := by
      rw [← length]
      exact (List.getElem?_eq_some_iff.mp hc).1
    obtain ⟨hb, isV⟩ := (keys c _ (List.getElem?_eq_getElem lt) v).mp hc
    have inRow : c < row.length := by omega
    obtain ⟨x, is⟩ := only lt hb
    have isRow := h c _ _ (List.getElem?_eq_getElem lt) hb (List.getElem?_eq_getElem inRow)
    rw [List.getElem?_eq_getElem inRow, (is _).mp isRow, (is v).mp isV]

theorem keyIs_take {row : Row} {n : Nat} (le : row.length ≤ n) :
    KeyIs tables σ bound (terms.take n) row ↔ KeyIs tables σ bound terms row := by
  have same : ∀ (c : Nat) v, row[c]? = some v → (terms.take n)[c]? = terms[c]? := by
    intro c v hv
    have := (List.getElem?_eq_some_iff.mp hv).1
    exact List.getElem?_take_of_lt (by omega)
  constructor
  · intro h c t v ht hb hv
    exact h c t v ((same c v hv).trans ht) hb hv
  · intro h c t v ht hb hv
    exact h c t v ((same c v hv).symm.trans ht) hb hv

end Keys

section Literals

variable {ctx : Ctx} {catalog : Catalog} {preds : List PredInfo}
variable {rowsOf : Nat → Row → Tier → Prop} {heights : Nat → Nat} {vis : Vis} {σ : Env}
variable {bound : Bound}

def IsRelationKind (preds : List PredInfo) (p : PredId) : Prop :=
  ∀ b, kindOf preds p ≠ some (.builtin b)

theorem atomRow_relation {p : PredId} (kind : IsRelationKind preds p) {src : Src}
    {terms : List CTerm} {row : Row} {t : Tier} {height : Nat} :
    AtomRow ctx catalog preds rowsOf vis src p terms row t height ↔
      ∃ rel s, ctx.rels[p]? = some rel ∧ s ∈ rel.scan (vis.view src) ∧ row = s.row ∧
        t = s.tier ∧ height = s.prov.height := by
  unfold AtomRow
  split
  · exact absurd ‹_› (kind _)
  · exact Iff.rfl

theorem atomTerms_relation {p : PredId} (kind : IsRelationKind preds p) (terms : List CTerm) :
    atomTerms ctx catalog preds p terms = terms := by
  unfold atomTerms
  split
  · exact absurd ‹_› (kind _)
  · rfl

theorem Lent.wide (lent : Lent ctx preds rowsOf) {p : PredId} {rel : Relation} {n : Nat}
    (arity : preds[p]?.map PredInfo.arity = some n) (hr : ctx.rels[p]? = some rel) :
    rel.Wide n := by
  obtain ⟨i, hi, rfl⟩ := Option.map_eq_some_iff.mp arity
  exact lent.rels p i rel hi hr

/-- The rows a relation's step takes: those its view shows that agree with the bound columns
and meet the checks. -/
theorem relationStep_alt {p : PredId} {terms : List CTerm} {src : Src}
    (wide : ∀ rel, ctx.rels[p]? = some rel → rel.Wide terms.length)
    (agree : ∀ v, Mentions terms v → (bound v = true ↔ (σ v).isSome = true))
    {ws : List (Nat × Want)}
    (h : wants ctx.src.tables σ (freeColumns terms (freeCols terms bound)).1
      (freeColumns terms (freeCols terms bound)).2 = some ws) (a : Alt) :
    IsAlt ctx heights vis σ (relationStep p terms bound src) a ↔
      ∃ rel s, ctx.rels[p]? = some rel ∧ s ∈ rel.scan (vis.view src) ∧
        KeyIs ctx.src.tables σ bound terms s.row ∧ fits ws s.row = true ∧
        a = ⟨s.row, s.tier, s.prov, s.ordinal⟩ := by
  unfold relationStep
  simp only
  split
  · rename_i none
    simp only [IsAlt, PlainAlt, h, Option.some.injEq, mem_relationAlts]
    constructor
    · rintro ⟨rel, _, hr, rfl, s, mem, passes, rfl⟩
      exact ⟨rel, s, hr, mem, keyIs_of_noKey none _, passes, rfl⟩
    · rintro ⟨rel, s, hr, mem, _, passes, rfl⟩
      exact ⟨rel, ws, hr, rfl, s, mem, passes, rfl⟩
  · obtain ⟨key, hk, starts⟩ := @keyOf_resolves ctx.src.tables σ bound terms agree
    simp only [IsAlt, PlainAlt, h, hk, Option.some.injEq, mem_relationAlts, Relation.seek,
      List.mem_filter]
    constructor
    · rintro ⟨rel, _, _, hr, rfl, rfl, s, ⟨mem, begins⟩, passes, rfl⟩
      exact ⟨rel, s, hr, mem, (starts s.row ((wide rel hr).scan mem)).mp begins, passes, rfl⟩
    · rintro ⟨rel, s, hr, mem, is, passes, rfl⟩
      exact ⟨rel, key, ws, hr, rfl, rfl, s,
        ⟨mem, (starts s.row ((wide rel hr).scan mem)).mpr is⟩, passes, rfl⟩

theorem eachBind_relationStep (p : PredId) (terms : List CTerm) (src : Src) :
    eachBind (relationStep p terms bound src) = (freeColumns terms (freeCols terms bound)).1 := by
  unfold relationStep
  simp only
  split <;> rfl

theorem relationStep_takes {p : PredId} {terms : List CTerm} {src : Src}
    (lent : Lent ctx preds rowsOf) (kind : IsRelationKind preds p)
    (arity : preds[p]?.map PredInfo.arity = some terms.length)
    (agree : ∀ v, Mentions terms v → (bound v = true ↔ (σ v).isSome = true)) (σ' : Env) (t : Tier)
    (height : Nat) :
    Takes ctx heights vis σ (relationStep p terms bound src) σ' t height ↔
      Grows σ terms σ' ∧
        LitHolds ctx catalog preds rowsOf vis src σ' (.pos p terms) t height := by
  obtain ⟨ws, h⟩ := Option.isSome_iff_exists.mp
    (@wants_isSome ctx.src.tables σ _ _ (freeColumns_spec terms (freeCols terms bound)).2.2)
  have wide := fun rel => @Lent.wide _ _ _ lent p rel _ arity
  have takes : ∀ rel s, ctx.rels[p]? = some rel → s ∈ rel.scan (vis.view src) →
      ((KeyIs ctx.src.tables σ bound terms s.row ∧ fits ws s.row = true ∧
        σ' = (freeColumns terms (freeCols terms bound)).1.foldl (takeBind s.row) σ) ↔
      Grows σ terms σ' ∧ RowIs ctx.src.tables σ' terms s.row) := by
    intro rel s hr mem
    have width : s.row.length = terms.length := (wide rel hr).scan mem
    have cols : ∀ c, c ∈ freeCols terms bound ↔
        c < s.row.length ∧ isBound bound (terms.getD c .wild) = false := fun c => by
      rw [mem_freeCols, width]
    have := takes_iff cols agree
      (fun c v hc => .inl (by rw [width]; exact (List.getElem?_eq_some_iff.mp hc).1)) width.le h σ'
    rwa [width, List.take_length] at this
  unfold Takes takeRow
  rw [eachBind_relationStep]
  simp only [relationStep_alt wide agree h, LitHolds, atomRow_relation kind,
    atomTerms_relation kind]
  constructor
  · rintro ⟨a, ⟨rel, s, hr, mem, key, passes, rfl⟩, eq, rfl, rfl⟩
    obtain ⟨grows, is⟩ := (takes rel s hr mem).mp ⟨key, passes, eq⟩
    exact ⟨grows, s.row, ⟨rel, s, hr, mem, rfl, rfl, rfl⟩, is⟩
  · rintro ⟨grows, _, ⟨rel, s, hr, mem, rfl, rfl, rfl⟩, is⟩
    obtain ⟨key, passes, eq⟩ := (takes rel s hr mem).mpr ⟨grows, is⟩
    exact ⟨_, ⟨rel, s, hr, mem, key, passes, rfl⟩, eq, rfl, rfl⟩

theorem end_resolves {terms : List CTerm} (i : Nat)
    (agree : ∀ v, Mentions terms v → (bound v = true ↔ (σ v).isSome = true)) :
    ∃ e, opt ctx.src.tables σ (boundPart bound terms[i]?) = some e ∧ ∀ x, EndIs e x ↔
      ∀ t, terms[i]? = some t → isBound bound t = true → TermIs ctx.src.tables σ t (.node x) := by
  cases ht : terms[i]? with
  | none => exact ⟨none, rfl, fun x => by simp [endIs_none]⟩
  | some t =>
    unfold boundPart
    simp only
    split
    · rename_i hb
      obtain ⟨q, hq⟩ := part_of_bound hb
      obtain ⟨v, hv, only⟩ := @part_resolves ctx.src.tables σ _ q hq
        (isBound_set hb (List.mem_of_getElem? ht) agree)
      refine ⟨some v, by simp [hq, opt, hv], fun x => ?_⟩
      simp only [endIs_some, Option.some.injEq, forall_eq', hb, only, true_implies]
      exact eq_comm
    · rename_i hb
      refine ⟨none, rfl, fun x => ?_⟩
      simp [endIs_none, hb]

theorem keyIs_ends {terms : List CTerm} {x y : NodeId} :
    KeyIs ctx.src.tables σ bound terms [.node x, .node y] ↔
      (∀ t, terms[0]? = some t → isBound bound t = true → TermIs ctx.src.tables σ t (.node x)) ∧
        ∀ t, terms[1]? = some t → isBound bound t = true → TermIs ctx.src.tables σ t (.node y) := by
  unfold KeyIs
  constructor
  · exact fun h => ⟨fun t ht hb => h 0 t _ ht hb rfl, fun t ht hb => h 1 t _ ht hb rfl⟩
  · intro h c t v ht hb hv
    match c with
    | 0 =>
      cases hv
      exact h.1 t ht hb
    | 1 =>
      cases hv
      exact h.2 t ht hb
    | c + 2 => cases hv

theorem past_bound {p : PredId} {terms : List CTerm}
    (consts : ∀ c, 2 ≤ c → c < terms.length → predReq catalog preds p c = some .const)
    (ready : LitReady catalog preds bound (.pos p terms)) (c : Nat) (two : 2 ≤ c)
    (lt : c < terms.length) : isBound bound (terms.getD c .wild) = true := by
  rw [List.getD_eq_getElem?_getD, List.getElem?_eq_getElem lt, Option.getD_some]
  exact (runnable_iff bound p terms).mp ready c _ (List.getElem?_eq_getElem lt)
    (.inr (consts c two lt))

theorem reachStep_takes {p : PredId} {b : Nat} {terms : List CTerm} {src : Src}
    (kind : kindOf preds p = some (.builtin b)) (isReach : isReaches catalog b = true)
    (two : 2 ≤ terms.length)
    (past : ∀ c, 2 ≤ c → c < terms.length → isBound bound (terms.getD c .wild) = true)
    (agree : ∀ v, Mentions terms v → (bound v = true ↔ (σ v).isSome = true)) (σ' : Env) (t : Tier)
    (height : Nat) :
    Takes ctx heights vis σ (callStep catalog b terms bound src) σ' t height ↔
      Grows σ terms σ' ∧
        LitHolds ctx catalog preds rowsOf vis src σ' (.pos p terms) t height := by
  generalize free : (List.range (min terms.length 2)).filter
    (fun c => !isBound bound (terms.getD c .wild)) = cols
  obtain ⟨ws, h⟩ := Option.isSome_iff_exists.mp
    (@wants_isSome ctx.src.tables σ _ _ (freeColumns_spec terms cols).2.2)
  obtain ⟨s, hs, isS⟩ := @end_resolves ctx σ bound terms 0 agree
  obtain ⟨e, he, isE⟩ := @end_resolves ctx σ bound terms 1 agree
  have takes : ∀ x y, ((KeyIs ctx.src.tables σ bound terms [.node x, .node y] ∧
        fits ws [.node x, .node y] = true ∧
        σ' = (freeColumns terms cols).1.foldl (takeBind [.node x, .node y]) σ) ↔
      Grows σ terms σ' ∧ RowIs ctx.src.tables σ' (terms.take 2) [.node x, .node y]) := by
    intro x y
    have le : (([.node x, .node y] : Row)).length ≤ terms.length := two
    refine takes_iff (fun c => ?_) agree (fun c v hc => ?_) le h σ'
    · subst free
      simp only [List.mem_filter, List.mem_range, Bool.not_eq_true', List.length_cons,
        List.length_nil]
      exact and_congr_left' ⟨fun lt => by omega, fun lt => by omega⟩
    · by_cases near : c < 2
      · exact .inl near
      · have := past c (by omega) (List.getElem?_eq_some_iff.mp hc).1
        rw [isBound_of_getElem hc] at this
        exact .inr this
  have terms' : atomTerms ctx catalog preds p terms = terms.take 2 := by
    simp [atomTerms, kind, isReach]
  unfold Takes takeRow callStep
  simp only [isReach, if_true, free, eachBind, LitHolds, terms', AtomRow, kind, IsAlt, PlainAlt, h,
    hs, he, Option.some.injEq, ReachAlt]
  constructor
  · rintro ⟨a, ⟨_, _, _, rfl, rfl, rfl, x, y, t', reach, isX, isY, admitted, passes, rfl⟩, eq, rfl,
      rfl⟩
    obtain ⟨grows, is⟩ := (takes x y).mp
      ⟨keyIs_ends.mpr ⟨(isS x).mp isX, (isE y).mp isY⟩, passes, eq⟩
    exact ⟨grows, _, ⟨admitted, rfl, x, y, rfl, reach⟩, is⟩
  · rintro ⟨grows, _, ⟨admitted, rfl, x, y, rfl, reach⟩, is⟩
    obtain ⟨key, passes, eq⟩ := (takes x y).mpr ⟨grows, is⟩
    obtain ⟨isX, isY⟩ := keyIs_ends.mp key
    exact ⟨_, ⟨ws, s, e, rfl, rfl, rfl, x, y, t, reach, (isS x).mpr isX, (isE y).mpr isY, admitted,
      passes, rfl⟩, eq, rfl, rfl⟩

theorem closureSet_reaches {b : Nat} (isReach : isReaches catalog b = true) (terms : List CTerm) :
    (closureSet catalog b terms).isSome = true := by
  unfold isReaches at isReach
  split at isReach
  · rename_i d hd
    have kind : d.kind = .reaches := by simpa using isReach
    unfold closureSet
    simp only [hd, kind, true_or, if_true]
    split
    · rfl
    · split <;> rfl
  · cases isReach

theorem mem_calledRows_length {tiered : Bool} {n : Nat} {found : List BuiltinRow} {row : Row}
    {t : Tier} (h : (row, t) ∈ calledRows tiered n found) : row.length = n := by
  simp only [calledRows, List.mem_map, List.mem_filter, decide_eq_true_eq, Prod.mk.injEq] at h
  obtain ⟨r, ⟨_, length⟩, rfl, _⟩ := h
  exact length

theorem mem_sccSeen {rel : Relation} {view : View} {x rep : Option Value} {s : Seen}
    (passes : fits (argWants [x, rep]) s.row = true) :
    s ∈ sccSeen rel view x rep ↔ s ∈ rel.scan view := by
  have cells := (fits_argWants [x, rep] s.row).mp passes
  cases x with
  | none =>
    cases rep with
    | none => exact Iff.rfl
    | some r =>
      have second : s.row[1]? = some r := cells 1 r rfl
      simp [sccSeen, Relation.seek, Relation.hasPrefix, second]
  | some v =>
    have first : s.row[0]? = some v := cells 0 v rfl
    cases rep with
    | none => simp [sccSeen, Relation.seek, Relation.hasPrefix, first]
    | some r =>
      have second : s.row[1]? = some r := cells 1 r rfl
      simp [sccSeen, Relation.seek, Relation.hasPrefix, first, second]

/-- The rows a call takes: those its literal is shown that agree with the bound arguments and
meet the checks. -/
theorem callAlt_iff {p : PredId} {b : Nat} {terms : List CTerm} {src : Src}
    (lent : Lent ctx preds rowsOf) (kind : kindOf preds p = some (.builtin b))
    (isCall : isReaches catalog b = false)
    (two : (closureSet catalog b terms).isSome = true → 2 ≤ terms.length)
    (agree : ∀ v, Mentions terms v → (bound v = true ↔ (σ v).isSome = true))
    (ok : CallOk ctx b (terms.map fun t => boundPart bound (some t)) σ) (ws : List (Nat × Want))
    (row : Row) (t : Tier) (height : Nat) :
    (∃ a, CallAlt ctx b (closureSet catalog b terms)
        (terms.map fun t => boundPart bound (some t)) ws vis src σ a ∧
        a.row = row ∧ a.tier = t ∧ a.prov.height = height) ↔
      AtomRow ctx catalog preds rowsOf vis src p terms row t height ∧
        row.length = (atomTerms ctx catalog preds p terms).length ∧
        KeyIs ctx.src.tables σ bound terms row ∧ fits ws row = true := by
  unfold CallAlt AtomRow atomTerms
  simp only [kind, isCall, Bool.false_eq_true, if_false, Bool.false_or]
  cases himp : (ctx.impls[b]?).join with
  | some imp =>
    obtain ⟨key, hk, length, keys⟩ := @args_resolve ctx.src.tables σ bound terms agree
    obtain ⟨found, called⟩ := ok imp key himp hk
    have agrees : ∀ {row : Row}, row.length = terms.length →
        (fits (argWants key) row = true ↔ KeyIs ctx.src.tables σ bound terms row) := fun width =>
      (fits_argWants key _).trans (keyIs_args length keys agree width)
    have answers : ∀ {row : Row} t, row.length = terms.length →
        KeyIs ctx.src.tables σ bound terms row →
        ((row, t) ∈ calledRows ((ctx.decls[b]?.map BuiltinDecl.tiered).getD true) key.length found ↔
          rowsOf b row t) := by
      intro row t width is
      refine lent.answers b imp himp key found called row t ?_
      rw [List.forall₂_iff_get]
      refine ⟨length.trans width.symm, fun c lt lt' w hw => ?_⟩
      have := (fits_argWants key row).mp ((agrees width).mpr is) c w (by
        rw [List.getElem?_eq_getElem lt]
        exact congrArg some hw)
      rw [List.getElem?_eq_getElem lt', Option.some.injEq] at this
      exact this
    simp only [hk, Option.isNone_some, Bool.false_eq_true, if_false, Option.some.injEq]
    constructor
    · rintro ⟨a, ⟨_, found', rfl, called', mem⟩, rfl, rfl, rfl⟩
      rw [called] at called'
      cases called'
      obtain ⟨row, t, there, admitted, passes, rfl⟩ := mem_builtinAlts.mp mem
      obtain ⟨passes, args⟩ := (fits_append _ _ _).mp passes
      have width := (mem_calledRows_length there).trans length
      have is := (agrees width).mp args
      exact ⟨⟨admitted, rfl, (answers t width is).mp there⟩, width, is, passes⟩
    · rintro ⟨⟨admitted, rfl, holds⟩, width, is, passes⟩
      refine ⟨⟨row, t, loaded, noOrdinal⟩, ⟨key, found, rfl, called, mem_builtinAlts.mpr
        ⟨row, t, (answers t width is).mpr holds, admitted, ?_, rfl⟩⟩, rfl, rfl, rfl⟩
      exact (fits_append _ _ _).mpr ⟨passes, (agrees width).mpr is⟩
  | none =>
    have agree' : ∀ v, Mentions (terms.take 2) v → (bound v = true ↔ (σ v).isSome = true) :=
      fun v mem => agree v (List.mem_of_mem_take mem)
    obtain ⟨key, hk, length, keys⟩ := @args_resolve ctx.src.tables σ bound (terms.take 2) agree'
    rw [List.map_take] at hk
    simp only [hk, Option.isNone_none, if_true, Option.some.injEq]
    have ends : (closureSet catalog b terms).isSome = true → ∃ x rep, key = [x, rep] := by
      intro some'
      have := two some'
      have pair : key.length = 2 := by
        rw [length, List.length_take]
        omega
      exact List.length_eq_two.mp pair
    have agrees : ∀ {row : Row}, row.length = (terms.take 2).length →
        (fits (argWants key) row = true ↔ KeyIs ctx.src.tables σ bound terms row) := fun width =>
      ((fits_argWants key _).trans (keyIs_args length keys agree' width)).trans
        (keyIs_take (by simp [width]))
    have pair : ∀ {set rel}, (ctx.scc.find? fun e => e.1 == set) = some (set, rel) → rel.Wide 2 :=
      fun found => lent.pairs _ (List.mem_of_find?_eq_some found)
    constructor
    · rintro ⟨a, ⟨x, rep, set, rel, rfl, cats, found, mem⟩, rfl, rfl, rfl⟩
      obtain ⟨s, there, passes, rfl⟩ := mem_relationAlts.mp mem
      obtain ⟨passes, args⟩ := (fits_append _ _ _).mp passes
      have there := (mem_sccSeen args).mp there
      have width : s.row.length = (terms.take 2).length := by
        rw [(pair found).scan there, ← length]
        rfl
      exact ⟨⟨set, rel, s, cats, found, there, rfl, rfl, rfl⟩, width, (agrees width).mp args, passes⟩
    · rintro ⟨⟨set, rel, s, cats, found, mem, rfl, rfl, rfl⟩, width, is, passes⟩
      obtain ⟨x, rep, rfl⟩ := ends (by simp [cats])
      have args := (agrees width).mpr is
      refine ⟨⟨s.row, s.tier, s.prov, s.ordinal⟩, ⟨x, rep, set, rel, rfl, cats, found,
        mem_relationAlts.mpr ⟨s, (mem_sccSeen args).mpr mem, ?_, rfl⟩⟩, rfl, rfl, rfl⟩
      exact (fits_append _ _ _).mpr ⟨passes, args⟩

theorem callStep_takes {p : PredId} {b : Nat} {terms : List CTerm} {src : Src}
    (lent : Lent ctx preds rowsOf) (kind : kindOf preds p = some (.builtin b))
    (isCall : isReaches catalog b = false)
    (ends : (closureSet catalog b terms).isSome = true → 2 ≤ terms.length ∧
      ∀ c, 2 ≤ c → c < terms.length → isBound bound (terms.getD c .wild) = true)
    (agree : ∀ v, Mentions terms v → (bound v = true ↔ (σ v).isSome = true))
    (ok : CallOk ctx b (terms.map fun t => boundPart bound (some t)) σ) (σ' : Env) (t : Tier)
    (height : Nat) :
    Takes ctx heights vis σ (callStep catalog b terms bound src) σ' t height ↔
      Grows σ terms σ' ∧
        LitHolds ctx catalog preds rowsOf vis src σ' (.pos p terms) t height := by
  generalize free : (List.range terms.length).filter
    (fun c => !isBound bound (terms.getD c .wild)) = cols
  obtain ⟨ws, h⟩ := Option.isSome_iff_exists.mp
    (@wants_isSome ctx.src.tables σ _ _ (freeColumns_spec terms cols).2.2)
  -- A closure builtin's columns past its ends are bound, so none of them is free.
  have shown : ∀ row, AtomRow ctx catalog preds rowsOf vis src p terms row t height →
      row.length = (atomTerms ctx catalog preds p terms).length →
      atomTerms ctx catalog preds p terms = terms.take row.length ∧ row.length ≤ terms.length ∧
        ∀ c, row.length ≤ c → c < terms.length → isBound bound (terms.getD c .wild) = true := by
    intro row is width
    unfold atomTerms at width ⊢
    simp only [kind, isCall, Bool.false_or] at width ⊢
    cases himp : (ctx.impls[b]?).join with
    | some imp =>
      simp only [himp, Option.isNone_some, Bool.false_eq_true, if_false] at width ⊢
      exact ⟨by rw [width, List.take_length], width.le, fun c le lt => by omega⟩
    | none =>
      unfold AtomRow at is
      simp only [kind, isCall, Bool.false_eq_true, if_false, himp] at is
      obtain ⟨set, _, _, cats, _⟩ := is
      obtain ⟨two, past⟩ := ends (by simp [cats])
      simp only [himp, Option.isNone_none, if_true, List.length_take] at width ⊢
      rw [Nat.min_eq_left two] at width
      exact ⟨by rw [width], by omega, fun c le lt => past c (by omega) lt⟩
  have takes : ∀ row, AtomRow ctx catalog preds rowsOf vis src p terms row t height →
      row.length = (atomTerms ctx catalog preds p terms).length →
      ((KeyIs ctx.src.tables σ bound terms row ∧ fits ws row = true ∧
        σ' = (freeColumns terms cols).1.foldl (takeBind row) σ) ↔
      Grows σ terms σ' ∧ RowIs ctx.src.tables σ' (atomTerms ctx catalog preds p terms) row) := by
    intro row is width
    obtain ⟨eq, le, past⟩ := shown row is width
    rw [eq]
    refine takes_iff (fun c => ?_) agree (fun c v hc => ?_) le h σ'
    · subst free
      simp only [List.mem_filter, List.mem_range, Bool.not_eq_true']
      refine and_congr_left fun unbound => ⟨fun lt => ?_, fun lt => lt.trans_le le⟩
      by_contra far
      rw [past c (not_lt.mp far) lt] at unbound
      cases unbound
    · by_cases near : c < row.length
      · exact .inl near
      · have := past c (not_lt.mp near) (List.getElem?_eq_some_iff.mp hc).1
        rw [isBound_of_getElem hc] at this
        exact .inr this
  have alts := fun row => @callAlt_iff ctx catalog preds rowsOf vis σ bound p b terms src lent kind
    isCall (fun some' => (ends some').1) agree ok ws row t height
  unfold Takes takeRow callStep
  simp only [isCall, Bool.false_eq_true, if_false, free, eachBind, LitHolds, IsAlt, PlainAlt, h,
    Option.some.injEq, exists_eq_left']
  constructor
  · rintro ⟨a, isAlt, eq, rfl, rfl⟩
    obtain ⟨is, width, key, passes⟩ := (alts a.row).mp ⟨a, isAlt, rfl, rfl, rfl⟩
    obtain ⟨grows, row⟩ := (takes a.row is width).mp ⟨key, passes, eq⟩
    exact ⟨grows, a.row, is, row⟩
  · rintro ⟨grows, row, is, fitsRow⟩
    have width := (rowIs_iff.mp fitsRow).1
    obtain ⟨key, passes, eq⟩ := (takes row is width).mpr ⟨grows, fitsRow⟩
    obtain ⟨a, isAlt, rfl, rfl, rfl⟩ := (alts row).mpr ⟨is, width, key, passes⟩
    exact ⟨a, isAlt, eq, rfl, rfl⟩

theorem grows_bound {terms : List CTerm} {σ' : Env}
    (all : ∀ v, Mentions terms v → (σ v).isSome = true) : Grows σ terms σ' ↔ σ' = σ := by
  constructor
  · intro grows
    funext v
    by_cases mem : Mentions terms v
    · exact grows.keeps v (all v mem)
    · exact grows.rest v mem
  · rintro rfl
    exact ⟨all, fun _ _ => rfl, fun _ _ => rfl⟩

theorem rowIs_bound {tables : DomainTables} {terms : List CTerm} {row : Row}
    (all : ∀ v, Mentions terms v → bound v = true) :
    RowIs tables σ terms row ↔ row.length = terms.length ∧ KeyIs tables σ bound terms row := by
  rw [rowIs_iff]
  refine and_congr_right fun _ => ⟨fun h c t v ht _ hv => h c t v ht hv, fun h c t v ht hv => ?_⟩
  cases t with
  | wild => trivial
  | const k => exact h c _ v ht rfl hv
  | var x => exact h c _ v ht (all x (List.mem_of_getElem? ht)) hv

theorem takes_filter {step : Step} {C : Prop} (binds : eachBind step = [])
    (alts : ∀ a, IsAlt ctx heights vis σ step a ↔ a = Alt.unit ∧ C) (σ' : Env) (t : Tier)
    (height : Nat) :
    Takes ctx heights vis σ step σ' t height ↔ σ' = σ ∧ t = .fact ∧ height = 0 ∧ C := by
  unfold Takes takeRow
  simp only [alts, binds, List.foldl_nil]
  constructor
  · rintro ⟨_, ⟨rfl, holds⟩, rfl, rfl, rfl⟩
    exact ⟨rfl, rfl, rfl, holds⟩
  · rintro ⟨rfl, rfl, rfl, holds⟩
    exact ⟨_, ⟨rfl, holds⟩, rfl, rfl, rfl⟩

section Negation

variable {p : PredId} {terms : List CTerm} (lent : Lent ctx preds rowsOf)
variable (shaped : Shaped catalog preds (.neg p terms))
variable (all : ∀ v, Mentions terms v → bound v = true)
variable (agree : ∀ v, Mentions terms v → (bound v = true ↔ (σ v).isSome = true))

include lent shaped all agree

theorem negRelation_iff (kind : IsRelationKind preds p) (a : Alt) :
    IsAlt ctx heights vis σ (.neg p (permOf terms bound) (keyOf terms bound)) a ↔
      a = Alt.unit ∧ ∀ row t' height',
        AtomRow ctx catalog preds rowsOf (Vis.complete vis.count) .all p terms row t' height' →
          ¬ RowIs ctx.src.tables σ (atomTerms ctx catalog preds p terms) row := by
  obtain ⟨key, hk, starts⟩ := @keyOf_resolves ctx.src.tables σ bound terms agree
  have wide := fun rel => @Lent.wide _ _ _ lent p rel _ (shaped p terms (.inr rfl)).1
  simp only [IsAlt, PlainAlt, hk, Option.some.injEq, exists_eq_left', atomRow_relation kind,
    atomTerms_relation kind]
  refine and_congr_right fun _ => ⟨?_, ?_⟩
  · rintro no _ t' height' ⟨rel, s, hr, mem, rfl, rfl, rfl⟩ is
    obtain ⟨e, he, same⟩ := (mem_scan_complete rel vis.count s.row).mp ⟨s, mem, rfl⟩
    have := no rel hr
    unfold Relation.existsPrefix at this
    rw [List.any_eq_false] at this
    obtain ⟨width, key⟩ := (rowIs_bound all).mp is
    exact this e he (by rw [same]; exact (starts s.row width).mpr key)
  · intro no rel hr
    unfold Relation.existsPrefix
    rw [List.any_eq_false]
    intro e he begins
    obtain ⟨s, mem, same⟩ := (mem_scan_complete rel vis.count e.row).mpr ⟨e, he, rfl⟩
    have width := (wide rel hr).1 e he
    refine no s.row _ _ ⟨rel, s, hr, mem, rfl, rfl, rfl⟩ ?_
    rw [same]
    exact (rowIs_bound all).mpr ⟨width, (starts e.row width).mp begins⟩

omit lent in
theorem negReach_iff {b : Nat} (kind : kindOf preds p = some (.builtin b))
    (isReach : isReaches catalog b = true) (set : (closureSet catalog b terms).isSome = true)
    (a : Alt) :
    IsAlt ctx heights vis σ (.negReach ((closureSet catalog b terms).getD .all) (depth terms)
        (boundPart bound terms[0]?) (boundPart bound terms[1]?)) a ↔
      a = Alt.unit ∧ ∀ row t' height',
        AtomRow ctx catalog preds rowsOf (Vis.complete vis.count) .all p terms row t' height' →
          ¬ RowIs ctx.src.tables σ (atomTerms ctx catalog preds p terms) row := by
  obtain ⟨s, hs, isS⟩ := @end_resolves ctx σ bound terms 0 agree
  obtain ⟨e, he, isE⟩ := @end_resolves ctx σ bound terms 1 agree
  have two := ((shaped p terms (.inr rfl)).2 b kind set).1
  have terms' : atomTerms ctx catalog preds p terms = terms.take 2 := by
    simp [atomTerms, kind, isReach]
  have ends : ∀ x y, RowIs ctx.src.tables σ (terms.take 2) [.node x, .node y] ↔
      EndIs s x ∧ EndIs e y := by
    intro x y
    rw [rowIs_bound fun v mem => all v (List.mem_of_mem_take mem), isS, isE, ← keyIs_ends,
      keyIs_take (by simp)]
    simp [two]
  have admits : ∀ t, (Vis.complete vis.count).admits .all t = true := by
    intro t
    cases t <;> rfl
  simp only [IsAlt, PlainAlt, hs, he, Option.some.injEq, ReachAlt, terms', AtomRow, kind, isReach,
    if_true, admits, fits, List.all_nil, true_and]
  refine and_congr_right fun _ => ⟨?_, ?_⟩
  · rintro ⟨_, _, rfl, rfl, no⟩ _ t' height' ⟨_, x, y, rfl, reach⟩ is
    obtain ⟨isX, isY⟩ := (ends x y).mp is
    exact no _ ⟨x, y, t', reach, isX, isY, rfl⟩
  · intro no
    refine ⟨s, e, rfl, rfl, ?_⟩
    rintro _ ⟨x, y, t', reach, isX, isY, rfl⟩
    exact no _ t' 0 ⟨rfl, x, y, rfl, reach⟩ ((ends x y).mpr ⟨isX, isY⟩)

theorem negCall_iff {b : Nat} (kind : kindOf preds p = some (.builtin b))
    (isCall : isReaches catalog b = false)
    (ok : CallOk ctx b (terms.map fun t => boundPart bound (some t)) σ) (a : Alt) :
    IsAlt ctx heights vis σ (.negCall b (closureSet catalog b terms)
        (terms.map fun t => boundPart bound (some t))) a ↔
      a = Alt.unit ∧ ∀ row t' height',
        AtomRow ctx catalog preds rowsOf (Vis.complete vis.count) .all p terms row t' height' →
          ¬ RowIs ctx.src.tables σ (atomTerms ctx catalog preds p terms) row := by
  have two := fun set => ((shaped p terms (.inr rfl)).2 b kind set).1
  have alts := fun row t height => @callAlt_iff ctx catalog preds rowsOf
    (Vis.complete vis.count) σ bound p b terms .all lent kind isCall two agree ok [] row t height
  have atoms : ∀ row, RowIs ctx.src.tables σ (atomTerms ctx catalog preds p terms) row ↔
      row.length = (atomTerms ctx catalog preds p terms).length ∧
        KeyIs ctx.src.tables σ bound terms row := by
    intro row
    unfold atomTerms
    simp only [kind, isCall, Bool.false_or]
    split
    · rw [rowIs_bound fun v mem => all v (List.mem_of_mem_take mem)]
      refine and_congr_right fun width => keyIs_take ?_
      rw [List.length_take] at width
      omega
    · exact rowIs_bound all
  simp only [IsAlt, PlainAlt]
  refine and_congr_right fun _ => ⟨?_, ?_⟩
  · intro no row t' height' is fitsRow
    obtain ⟨width, key⟩ := (atoms row).mp fitsRow
    obtain ⟨a', isAlt, _⟩ := (alts row t' height').mpr ⟨is, width, key, rfl⟩
    exact no a' isAlt
  · intro no a' isAlt
    obtain ⟨is, width, key, _⟩ := (alts a'.row a'.tier a'.prov.height).mp ⟨a', isAlt, rfl, rfl, rfl⟩
    exact no _ _ _ is ((atoms _).mpr ⟨width, key⟩)

end Negation

theorem assign_takes {l r s : CTerm} {v : Nat} {q : KeyPart} (hq : part s = some q)
    (hs : isBound bound s = true) (free : bound v = false)
    (sides : (l = .var v ∧ r = s) ∨ (r = .var v ∧ l = s))
    (agree : ∀ v, Mentions [l, r] v → (bound v = true ↔ (σ v).isSome = true)) {src : Src}
    (σ' : Env) (t : Tier) (height : Nat) :
    Takes ctx heights vis σ (.assign v q) σ' t height ↔
      Grows σ [l, r] σ' ∧
        LitHolds ctx catalog preds rowsOf vis src σ' (.cmp .eq l r) t height := by
  have memS : s ∈ [l, r] := by rcases sides with ⟨_, rfl⟩ | ⟨_, rfl⟩ <;> simp
  have memV : Mentions [l, r] v := by
    unfold Mentions
    rcases sides with ⟨rfl, _⟩ | ⟨rfl, _⟩ <;> simp
  have set := isBound_set hs memS agree
  obtain ⟨x, hx, only⟩ := @part_resolves ctx.src.tables σ _ q hq set
  have unset : σ v = none := by
    have := agree v memV
    rw [free] at this
    simpa using this
  have others : ∀ w, Mentions [l, r] w → w = v ∨ s = .var w := by
    intro w hw
    unfold Mentions at hw
    simp only [List.mem_cons, List.not_mem_nil, or_false] at hw
    rcases sides with ⟨rfl, rfl⟩ | ⟨rfl, rfl⟩ <;> rcases hw with eq | eq
    · exact .inl (by simpa using eq)
    · exact .inr eq.symm
    · exact .inr eq.symm
    · exact .inl (by simpa using eq)
  have grows : Grows σ [l, r] σ' ↔ (σ' v).isSome = true ∧ ∀ w, w ≠ v → σ' w = σ w := by
    constructor
    · intro grows
      refine ⟨grows.binds v memV, fun w ne => ?_⟩
      by_cases mem : Mentions [l, r] w
      · exact grows.keeps w (set w ((others w mem).resolve_left ne))
      · exact grows.rest w mem
    · rintro ⟨some', rest⟩
      refine ⟨fun w mem => ?_, fun w hw => ?_, fun w no => ?_⟩
      · by_cases eq : w = v
        · rwa [eq]
        · rw [rest w eq]
          exact set w ((others w mem).resolve_left eq)
      · refine rest w fun eq => ?_
        rw [eq, unset] at hw
        cases hw
      · exact rest w fun eq => no (eq ▸ memV)
  have sValue : ∀ {σ' : Env}, (∀ w, w ≠ v → σ' w = σ w) → ∀ y,
      TermIs ctx.src.tables σ' s y ↔ y = x := by
    intro σ' rest y
    rw [← only y]
    cases s with
    | const k => exact Iff.rfl
    | wild => exact Iff.rfl
    | var w =>
      have ne : w ≠ v := by
        rintro rfl
        rw [isBound_var, free] at hs
        cases hs
      show σ' w = some y ↔ σ w = some y
      rw [rest w ne]
  have notWild : s ≠ .wild := by
    rintro rfl
    cases hs
  rw [grows]
  simp only [Takes, IsAlt, PlainAlt, hx, Option.some.injEq, exists_eq_left', exists_eq_left,
    takeRow, eachBind, List.foldl_cons, List.foldl_nil, takeBind, List.getElem?_cons_zero, loaded,
    LitHolds, compareOp, beq_iff_eq]
  constructor
  · rintro ⟨rfl, rfl, rfl⟩
    have rest : ∀ w, w ≠ v → Function.update σ v (some x) w = σ w :=
      fun w ne => Function.update_of_ne ne _ _
    refine ⟨⟨by simp, rest⟩, rfl, rfl, x, x, ?_⟩
    rcases sides with ⟨rfl, rfl⟩ | ⟨rfl, rfl⟩
    · exact ⟨by simp, notWild, by simp [TermIs], (sValue rest x).mpr rfl, rfl⟩
    · exact ⟨notWild, by simp, (sValue rest x).mpr rfl, by simp [TermIs], rfl⟩
  · rintro ⟨⟨_, rest⟩, rfl, rfl, a, _, _, _, isL, isR, rfl⟩
    refine ⟨funext fun w => ?_, rfl, rfl⟩
    by_cases eq : w = v
    · subst eq
      rw [Function.update_self]
      rcases sides with ⟨rfl, rfl⟩ | ⟨rfl, rfl⟩
      · rw [← (sValue rest a).mp isR]
        exact isL
      · rw [← (sValue rest a).mp isL]
        exact isR
    · rw [Function.update_of_ne eq, rest w eq]

theorem comparison_takes {op : CmpOp} {l r : CTerm} {src : Src}
    (ready : LitReady catalog preds bound (.cmp op l r))
    (agree : ∀ v, Mentions [l, r] v → (bound v = true ↔ (σ v).isSome = true)) :
    ∃ step, comparison op l r bound = some step ∧ ∀ σ' t height,
      Takes ctx heights vis σ step σ' t height ↔ Grows σ [l, r] σ' ∧
        LitHolds ctx catalog preds rowsOf vis src σ' (.cmp op l r) t height := by
  rcases comparison_cases ready with ⟨lp, rp, hlp, hrp, hl, hr, step⟩ |
      ⟨v, q, rfl, rfl, free, hq, hb, step⟩ | ⟨v, q, rfl, rfl, free, hq, hb, step⟩
  · refine ⟨_, step, fun σ' t height => ?_⟩
    have setL := isBound_set hl (List.mem_cons_self) agree
    have setR := isBound_set hr (List.mem_cons_of_mem _ List.mem_cons_self) agree
    obtain ⟨x, hx, isX⟩ := @part_resolves ctx.src.tables σ _ lp hlp setL
    obtain ⟨y, hy, isY⟩ := @part_resolves ctx.src.tables σ _ rp hrp setR
    have all : ∀ v, Mentions [l, r] v → (σ v).isSome = true := by
      intro v mem
      unfold Mentions at mem
      simp only [List.mem_cons, List.not_mem_nil, or_false] at mem
      exact mem.elim (fun h => setL v h.symm) fun h => setR v h.symm
    have wildL : l ≠ .wild := by
      rintro rfl
      cases hl
    have wildR : r ≠ .wild := by
      rintro rfl
      cases hr
    rw [takes_filter (C := compareOp ctx.src op x y = true) rfl (fun a => by
      simp [IsAlt, PlainAlt, hx, hy]), grows_bound all]
    refine and_congr_right ?_
    rintro rfl
    simp only [LitHolds, isX, isY]
    refine and_congr_right fun _ => and_congr_right fun _ => ⟨fun holds => ?_, ?_⟩
    · exact ⟨x, y, wildL, wildR, rfl, rfl, holds⟩
    · rintro ⟨_, _, _, _, rfl, rfl, holds⟩
      exact holds
  · exact ⟨_, step, assign_takes hq hb free (.inl ⟨rfl, rfl⟩) agree⟩
  · exact ⟨_, step, assign_takes hq hb free (.inr ⟨rfl, rfl⟩) agree⟩

/-- The step of a literal that can run takes the rows that extend the substitution to an
instance of the literal. -/
theorem litStep_takes {lit : CLit} {src : Src} (lent : Lent ctx preds rowsOf)
    (shaped : Shaped catalog preds lit) (ready : LitReady catalog preds bound lit)
    (agree : ∀ v, Mentions lit.terms v → (bound v = true ↔ (σ v).isSome = true)) :
    ∃ step, litStep preds catalog lit bound src = some step ∧
      (StepOk ctx heights vis σ step → ∀ σ' t height,
        Takes ctx heights vis σ step σ' t height ↔ Grows σ lit.terms σ' ∧
          LitHolds ctx catalog preds rowsOf vis src σ' lit t height) := by
  cases lit with
  | cmp op l r =>
    obtain ⟨step, eq, takes⟩ := @comparison_takes ctx catalog preds rowsOf heights vis σ bound
      op l r src ready agree
    exact ⟨step, eq, fun _ => takes⟩
  | pos p terms =>
    obtain ⟨arity, closure⟩ := shaped p terms (.inl rfl)
    unfold litStep
    simp only
    split
    · rename_i b kind
      refine ⟨_, rfl, fun ok σ' t height => ?_⟩
      have ends : (closureSet catalog b terms).isSome = true → 2 ≤ terms.length ∧
          ∀ c, 2 ≤ c → c < terms.length → isBound bound (terms.getD c .wild) = true := fun set =>
        ⟨(closure b kind set).1, past_bound (closure b kind set).2 ready⟩
      cases isReach : isReaches catalog b with
      | true =>
        obtain ⟨two, past⟩ := ends (closureSet_reaches isReach terms)
        exact reachStep_takes kind isReach two past agree σ' t height
      | false =>
        refine callStep_takes lent kind isReach ends agree ?_ σ' t height
        unfold callStep at ok
        simp only [isReach, Bool.false_eq_true, if_false, StepOk] at ok
        exact ok (wants_isSome (freeColumns_spec terms _).2.2)
    · rename_i no
      refine ⟨_, rfl, fun _ σ' t height => ?_⟩
      exact relationStep_takes lent (fun b kind => no b kind) arity agree σ' t height
  | neg p terms =>
    have all := (hasFreeVar_eq_false terms bound).mp ready.2
    have grows : ∀ σ', Grows σ terms σ' ↔ σ' = σ := fun σ' =>
      grows_bound fun v mem => (agree v mem).mp (all v mem)
    have filter : ∀ step, eachBind step = [] → (∀ a, IsAlt ctx heights vis σ step a ↔
        a = Alt.unit ∧ ∀ row t' height',
          AtomRow ctx catalog preds rowsOf (Vis.complete vis.count) .all p terms row t' height' →
            ¬ RowIs ctx.src.tables σ (atomTerms ctx catalog preds p terms) row) →
        ∀ σ' t height, Takes ctx heights vis σ step σ' t height ↔ Grows σ terms σ' ∧
          LitHolds ctx catalog preds rowsOf vis src σ' (.neg p terms) t height := by
      intro step binds alts σ' t height
      rw [takes_filter binds alts, grows]
      refine and_congr_right ?_
      rintro rfl
      rfl
    unfold litStep
    simp only
    split
    · rename_i b kind
      cases isReach : isReaches catalog b with
      | true =>
        refine ⟨_, if_pos rfl, fun _ => filter _ rfl fun a => ?_⟩
        exact negReach_iff shaped all agree kind isReach (closureSet_reaches isReach terms) a
      | false =>
        refine ⟨_, if_neg (by simp), fun ok => filter _ rfl fun a => ?_⟩
        simp only [StepOk] at ok
        exact negCall_iff lent shaped all agree kind isReach ok a
    · rename_i no
      refine ⟨_, rfl, fun _ => filter _ rfl fun a => ?_⟩
      exact negRelation_iff lent shaped all agree (fun b kind => no b kind) a

end Literals

end Glia.Rules
