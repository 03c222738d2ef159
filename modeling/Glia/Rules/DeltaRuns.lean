import Glia.Rules.RuleRuns

/-! Semi-naive rounds of a planned rule: the first new premise of a clause is the delta of a
variant that sees the others, a composite standing for its members. -/
namespace Glia.Rules

section Declared

/-- What some call of the implementation answers that matches it. -/
def CallAnswer (tiered : Bool) (imp : Builtin) (row : Row) (t : Tier) : Prop :=
  ∃ key found, imp key = .ok found ∧
    List.Forall₂ (fun k v => ∀ w, k = some w → v = w) key row ∧
      (row, t) ∈ calledRows tiered key.length found

/-- An implementation that answers from one relation answers from the rows of its calls. -/
theorem answers_callAnswer {tiered : Bool} {imp : Builtin} {R : Row → Tier → Prop}
    (answers : Answers tiered imp R) : Answers tiered imp (CallAnswer tiered imp) := by
  intro key found run row t agrees
  constructor
  · exact fun mem => ⟨key, found, run, agrees, mem⟩
  · rintro ⟨key', found', run', agrees', mem⟩
    exact (answers key found run row t agrees).mpr ((answers key' found' run' row t agrees').mp mem)

/-- Each builtin has a place for its implementation, a core test's or that of one of `bs`. -/
def Declared.Implements (d : Declared) (bs : List DomainBuiltin) : Prop :=
  d.impls.length = d.catalog.builtins.length ∧
    ∀ (b : Nat) imp, (d.impls[b]?).join = some imp → (∃ test, imp = stringCall test) ∨
      ∃ e ∈ bs, imp = e.call ∧ d.catalog.builtins[b]?.map BuiltinDecl.tiered = some e.decl.tiered

theorem Declared.Implements.addBuiltin {d : Declared} {bs : List DomainBuiltin} (known : d.Implements bs)
    {e : DomainBuiltin} (mem : e ∈ bs) : (addBuiltin d e).Implements bs := by
  unfold Rules.addBuiltin
  dsimp only
  split
  · exact known
  · unfold Catalog.withBuiltin
    split
    · rw [if_neg (lt_irrefl _)]
      exact known
    · obtain ⟨size, known⟩ := known
      rw [if_pos (by simp)]
      refine ⟨by simp [size], fun b imp here => ?_⟩
      rw [List.getElem?_append] at here ⊢
      rw [size] at here
      split at here
      · rename_i lt
        rw [if_pos lt]
        exact known b imp here
      · rename_i le
        rw [if_neg le]
        rw [List.getElem?_singleton] at here ⊢
        split at here
        · rename_i last
          cases here
          exact .inr ⟨e, mem, rfl, by rw [if_pos last]; rfl⟩
        · cases here

theorem declare_implements (src : FactSource) : (declare src).Implements src.builtins := by
  have fold (bs : List DomainBuiltin) (d : Declared) (known : d.Implements src.builtins)
      (sub : ∀ e ∈ bs, e ∈ src.builtins) : (bs.foldl addBuiltin d).Implements src.builtins := by
    induction bs generalizing d with
    | nil => exact known
    | cons e rest ih =>
      exact ih _ (known.addBuiltin (sub e List.mem_cons_self)) fun e' mem => sub e' (List.mem_cons_of_mem _ mem)
  refine fold src.builtins _ ⟨List.length_map _, fun b imp here => .inl ?_⟩ fun e mem => mem
  rw [List.getElem?_map] at here
  generalize Catalog.builtins _ = decls at here
  cases is : decls[b]? with
  | none =>
    rw [is] at here
    cases here
  | some decl =>
    rw [is] at here
    change stringBuiltin decl.kind = some imp at here
    generalize decl.kind = kind at here
    cases kind <;> cases here <;> exact ⟨_, rfl⟩

/-- A closure builtin has tiers. -/
theorem declare_tiered {src : FactSource} {d : BuiltinDecl} (mem : d ∈ (declare src).catalog.builtins)
    (closure : d.kind = .reaches ∨ d.kind = .scc) : d.tiered = true := by
  rw [declare_catalog] at mem
  rcases Catalog.mem_withBuiltins mem with mem | mem
  · rw [Catalog.withAttrs_builtins] at mem
    simp only [Catalog.core, List.mem_cons, List.not_mem_nil, or_false] at mem
    rcases mem with rfl | rfl | rfl | rfl | rfl | rfl | rfl | rfl <;> simp_all
  · simp only [List.mem_filter, List.mem_map] at mem
    obtain ⟨⟨e, _, rfl⟩, _⟩ := mem
    rcases closure with kind | kind <;> cases kind

end Declared

namespace Setting

section Deltas

/-- In a first round what stands at the level is new, after it what the last round added. -/
def New (level : Tier) (first : Bool) (t : Tier) (recent : Bool) : Prop :=
  if first then t = level else recent = true

variable {level t : Tier} {first recent : Bool} {i d : Nat}

theorem sees_assign (up : first = true → .fact < level) (low : t ≤ level)
    (at' : first = false → recent = true → t = level)
    (before : i < d → ¬ New level first t recent) (here : i = d → New level first t recent) :
    ((Vis.ofMode (.eval level first)).view (assign i d)).sees t recent = true := by
  unfold assign
  unfold New at before here
  split
  · have old := before ‹_›
    cases first
    · cases recent
      · cases level <;> cases t <;> first | rfl | exact absurd low (by decide)
      · exact absurd rfl old
    · have lt := lt_of_le_of_ne low old
      cases level <;> cases t <;> first | rfl | exact absurd lt (by decide)
  · split
    · have new := here ‹_›
      cases first
      · have new : recent = true := new
        have there := at' rfl new
        subst new there
        cases t <;> rfl
      · have there : t = level := new
        subst there
        cases t <;> rfl
    · exact sees_all low

variable {S : Setting} {s : EvalState} {own : List PredId} {rule : CRule} {fold : Option Fold}
variable {variants : List Variant} {τ : Assignment} {fs : Nat → Ground} {heights : Nat → Nat}

theorem exists_delta (planned : S.Planned s own rule fold variants)
    (up : first = true → .fact < level) {tier : Nat → Tier} {batch : Nat → Bool}
    (low : ∀ i ∈ positives rule.body, Lone fold i → tier i ≤ level)
    (at' : ∀ i ∈ positives rule.body, Lone fold i → first = false → batch i = true → tier i = level)
    (calls : ∀ i ∈ positives rule.body,
      (rule.body[i]?).any (deltaCapable S.preds S.catalog) = false →
        (∀ f, fold = some f → i ∉ f.members) → ¬ New level first (tier i) (batch i))
    (some' : ∃ i, i ∈ positives rule.body ∧ Lone fold i ∧ New level first (tier i) (batch i)) :
    ∃ d ∈ positives rule.body, Lone fold d ∧ New level first (tier d) (batch d) ∧
      (∀ i ∈ positives rule.body, Lone fold i → i < d → ¬ New level first (tier i) (batch i)) ∧
      (∃ v ∈ variants, v.delta = some d) ∧ ∀ i ∈ positives rule.body, Lone fold i →
        ((Vis.ofMode (.eval level first)).view (assign i d)).sees (tier i) (batch i) = true := by
  classical
  obtain ⟨mem, lone, new⟩ := Nat.find_spec some'
  refine ⟨Nat.find some', mem, lone, new, fun i inBody lone' lt new' =>
    Nat.find_min some' lt ⟨inBody, lone', new'⟩, ?_, fun i inBody lone' => ?_⟩
  · generalize Nat.find some' = d at mem lone new
    by_cases folded : ∃ f, fold = some f ∧ d ∈ f.members
    · obtain ⟨f, eq, inFold⟩ := folded
      rw [lone f eq inFold]
      exact (planned.last f eq).1
    · have apart (f : Fold) (eq : fold = some f) : d ∉ f.members := fun inFold =>
        folded ⟨f, eq, inFold⟩
      refine planned.deltas d ?_ apart
      by_contra no
      exact calls d mem (Bool.eq_false_iff.mpr no) apart new
  · exact sees_assign up (low i inBody lone') (at' i inBody lone')
      (fun lt new' => Nat.find_min some' lt ⟨inBody, lone', new'⟩) (fun eq => by subst eq; exact new)

variable (sane : S.Sane s) (sets : S.SetsKept s rule.body) (fit : S.Fit rule)
variable (sat : S.Satisfies (S.shown s) rule τ fs)

variable (S) in
def Untiered : Prop :=
  ∀ b terms row t, ((S.catalog.builtins[b]?).map BuiltinDecl.tiered).getD false = false →
    S.CallRow b (closureSet S.catalog b terms) (depth terms) row t → t = .fact

variable (S s own) in
/-- In a first round no row of the stratum stands at the level, after it only rows the stratum
added there are recent. -/
def Before (level : Tier) (first : Bool) : Prop :=
  ∀ p row t recent, S.FactIn s (.row p row) t recent →
    if first then p ∈ own → t < level else recent = true → p ∈ own ∧ t = level

theorem recent_own (old : S.Before s own level false) {f : Ground}
    (fact : S.FactIn s f t true) : ∃ p row, f = .row p row ∧ p ∈ own ∧ t = level := by
  cases f with
  | row p row => exact ⟨p, row, rfl, old p row t true fact rfl⟩
  | call b cats depth row => cases fact.2

theorem Sane.one (sane : S.Sane s) {f : Ground} {t t' : Tier} {recent recent' : Bool}
    (fact : S.FactIn s f t recent) (fact' : S.FactIn s f t' recent') (row : ∃ p r, f = .row p r) :
    t = t' ∧ recent = recent' := by
  obtain ⟨p, r, rfl⟩ := row
  obtain ⟨rel, e, held, mem, eq, rfl, rfl⟩ := fact
  obtain ⟨rel', e', held', mem', eq', rfl, rfl⟩ := fact'
  rw [held, Option.some.injEq] at held'
  subst held'
  have same : e = e' := List.inj_on_of_nodup_map (sane.tidy p rel held).once mem mem'
    (eq.trans eq'.symm)
  exact ⟨congrArg _ same, congrArg _ same⟩

include fit sat in
/-- A literal no variant has as its delta reads nothing new. -/
theorem incapable_old (untiered : S.Untiered) (up : first = true → .fact < level)
    (mem : i ∈ positives rule.body)
    (no : (rule.body[i]?).any (deltaCapable S.preds S.catalog) = false)
    (fact : S.FactIn s (fs i) t recent) : ¬ New level first t recent := by
  obtain ⟨p, terms, here⟩ := mem_positives.mp mem
  obtain ⟨row, eq, _⟩ := sat.atoms i p terms here
  have arity := (fit.shaped _ (List.mem_of_getElem? here) p terms (.inl rfl)).1
  rw [here, Option.any_some] at no
  rw [eq] at fact
  unfold atomFact at fact
  unfold deltaCapable at no
  cases kind : kindOf S.preds p with
  | none =>
    unfold kindOf at kind
    rw [Option.map_eq_none_iff] at kind
    rw [kind] at arity
    cases arity
  | some k =>
    cases k with
    | idb => simp [kind] at no
    | edb e => simp [kind] at no
    | builtin b =>
      rw [kind] at fact
      obtain ⟨call, stable⟩ := fact
      intro new
      subst stable
      cases first with
      | false => cases new
      | true =>
        have low : t = .fact := by
          refine untiered b terms row t ?_ call
          simp only [kind] at no
          cases decl : S.catalog.builtins[b]? with
          | none => rfl
          | some d =>
            rw [decl] at no
            exact no
        have new : t = level := new
        exact absurd (up rfl) (by rw [← new, low]; exact lt_irrefl _)

include fit sat in
theorem runs_new (sane : S.Sane s) (planned : S.Planned s own rule fold variants)
    (up : first = true → .fact < level) (old : S.Before s own level first) {tier : Nat → Tier}
    {batch : Nat → Bool} (units : S.Units s rule fold τ fs tier batch) (mem : d ∈ positives rule.body)
    (lone : Lone fold d) (new : New level first (tier d) (batch d)) :
    runs S.an s own rule (some d) level first = true := by
  obtain ⟨p, terms, here⟩ := mem_positives.mp mem
  have skip : (first && level == .fact) = false := by
    cases first with
    | false => rfl
    | true => simpa using (up rfl).ne'
  unfold runs
  simp only [skip, Bool.false_eq_true, if_false, Option.bind_some, here]
  by_cases folded : ∃ f, fold = some f ∧ d ∈ f.members
  · obtain ⟨f, eq, inFold⟩ := folded
    have last := lone f eq inFold
    obtain ⟨_, _, q, ts, b, there, kind⟩ := planned.last f eq
    rw [← last, here, Option.some.injEq, CLit.pos.injEq] at there
    cases first with
    | false =>
      have stable := (units.last f eq).1
      rw [← last] at stable
      exact absurd (stable.symm.trans new) Bool.false_ne_true
    | true =>
      rw [there.1]
      simp [kind]
  · have fact := units.alone d mem fun f eq inFold => folded ⟨f, eq, inFold⟩
    obtain ⟨row, eq, _⟩ := sat.atoms d p terms here
    have relation (h : S.FactIn s (.row p row) (tier d) (batch d)) :
        (if first then !mine own p && s.atLevel p level != 0
          else mine own p && (s.rels[p]?).any fun rel => rel.recentLen != 0) = true := by
      have before := old p row _ _ h
      obtain ⟨rel, e, held, inRows, _, home, now⟩ := h
      cases first with
      | true =>
        have new : tier d = level := new
        have foreign : p ∉ own := fun inOwn => (before inOwn).ne new
        have count := sane.counted p rel held e inRows
        rw [home, new] at count
        simp [mine, foreign, count]
      | false =>
        have new : batch d = true := new
        have inOwn : p ∈ own := (before new).1
        have some' : e ∈ rel.rows.filter Entry.recent := List.mem_filter.mpr ⟨inRows, now.trans new⟩
        have count : rel.recentLen ≠ 0 := by
          have pos := List.length_pos_of_mem some'
          unfold Relation.recentLen
          omega
        simp [mine, inOwn, held, count]
    rw [eq] at fact
    unfold atomFact at fact
    cases kind : kindOf S.preds p with
    | none =>
      rw [kind] at fact
      have got := relation fact
      have arity := (fit.shaped _ (List.mem_of_getElem? here) p terms (.inl rfl)).1
      unfold kindOf at kind
      rw [Option.map_eq_none_iff] at kind
      rw [kind] at arity
      cases arity
    | some k =>
      rw [kind] at fact
      cases k with
      | idb =>
        have got := relation fact
        cases first <;> exact got
      | edb e =>
        have got := relation fact
        cases first <;> exact got
      | builtin b =>
        cases first with
        | true => rfl
        | false => exact absurd (fact.2.symm.trans new) Bool.false_ne_true

include sane sets fit sat in
/-- After the first round some variant that runs gives the head of each clause with a premise of
the last round. -/
theorem later_round (untiered : S.Untiered) (planned : S.Planned s own rule fold variants)
    (old : S.Before s own level false)
    (held : ∀ i ∈ positives rule.body, (S.shown s).At level (fs i))
    (now : ∃ i ∈ positives rule.body, S.Recent s (fs i)) :
    ∃ d ∈ positives rule.body, S.Recent s (fs d) ∧
      (∀ i ∈ positives rule.body, i < d → ¬ S.Recent s (fs i)) ∧
      ∃ v ∈ variants, v.delta = some d ∧ runs S.an s own rule v.delta level false = true ∧
        S.Gives s rule (Vis.ofMode (.eval level false)) level v τ := by
  obtain ⟨tier, batch, units, low⟩ := exists_units sane sets sat planned held
  have up : false = true → .fact < level := fun no => by cases no
  have at' (i : Nat) (mem : i ∈ positives rule.body) (lone : Lone fold i) (_ : false = false)
      (recent : batch i = true) : tier i = level := by
    by_cases folded : ∃ f, fold = some f ∧ i ∈ f.members
    · obtain ⟨f, eq, inFold⟩ := folded
      rw [lone f eq inFold, (units.last f eq).1] at recent
      cases recent
    · have fact := units.alone i mem fun f eq inFold => folded ⟨f, eq, inFold⟩
      rw [recent] at fact
      obtain ⟨_, _, _, _, at'⟩ := recent_own old fact
      exact at'
  -- A premise of the last round is read by a literal no composite stands for.
  have alone (i : Nat) (mem : i ∈ positives rule.body) (now : S.Recent s (fs i)) :
      Lone fold i ∧ New level false (tier i) (batch i) := by
    obtain ⟨t, fact⟩ := now
    obtain ⟨p, row, is, inOwn, _⟩ := recent_own old fact
    have apart (f : Fold) (eq : fold = some f) : i ∉ f.members := by
      intro inFold
      obtain ⟨q, terms, here⟩ := mem_positives.mp mem
      obtain ⟨row', is', _⟩ := sat.atoms i q terms here
      refine planned.foreign f eq i inFold q terms here ?_
      rw [is] at is'
      unfold atomFact at is'
      split at is'
      · cases is'
      · cases is'
        exact inOwn
    obtain ⟨_, same⟩ := sane.one fact (units.alone i mem apart) ⟨p, row, is⟩
    exact ⟨fun f eq inFold => absurd inFold (apart f eq), same.symm⟩
  have new : ∃ i, i ∈ positives rule.body ∧ Lone fold i ∧ New level false (tier i) (batch i) := by
    obtain ⟨i, mem, now⟩ := now
    exact ⟨i, mem, alone i mem now⟩
  obtain ⟨d, mem, lone, new, least, ⟨v, inPlan, delta⟩, seen⟩ := exists_delta planned up low at'
    (fun i mem no apart => incapable_old fit sat untiered up mem no (units.alone i mem apart)) new
  have here : S.Recent s (fs d) := by
    by_cases folded : ∃ f, fold = some f ∧ d ∈ f.members
    · obtain ⟨f, eq, inFold⟩ := folded
      have stable := (units.last f eq).1
      rw [← lone f eq inFold] at stable
      exact absurd (stable.symm.trans new) Bool.false_ne_true
    · have fact := units.alone d mem fun f eq inFold => folded ⟨f, eq, inFold⟩
      rw [show batch d = true from new] at fact
      exact ⟨_, fact⟩
  refine ⟨d, mem, here, fun i inBody lt now => ?_, v, inPlan, delta, ?_,
    variant_gives sane sets fit sat rfl rfl planned inPlan units
      fun i mem lone => ⟨low i mem lone, ?_⟩⟩
  · obtain ⟨lone', new'⟩ := alone i inBody now
    exact least i inBody lone' lt new'
  · rw [delta]
    exact runs_new fit sat sane planned up old units mem lone new
  · rw [delta]
    exact seen i mem lone

end Deltas

/-- After a level's first round no clause is lost: where a premise was added by the last round,
the variant whose delta is the first such premise runs, and its run derives the clause's head. -/
theorem recent_clause_derived (S : Setting) (program : Program)
    (ok : analyse program S.catalog = .ok S.an) (rule : CRule) (mem : rule ∈ S.an.rules)
    (own : List PredId) (idb : ∀ p ∈ own, kindOf S.preds p = some .idb)
    (negs : ∀ p terms, CLit.neg p terms ∈ rule.body → p ∉ own) (size : PredId → Option Nat)
    (slots : Nat) (s : EvalState) (sane : S.Sane s) (sets : S.SetsKept s rule.body)
    (untiered : S.Untiered) (level : Tier) (old : S.Before s own level false) (τ : Assignment)
    (fs : Nat → Ground) (sat : S.Satisfies (S.shown s) rule τ fs)
    (held : ∀ i ∈ positives rule.body, (S.shown s).At level (fs i))
    (now : ∃ i ∈ positives rule.body, S.Recent s (fs i)) :
    ∃ d ∈ positives rule.body, S.Recent s (fs d) ∧
      (∀ i ∈ positives rule.body, i < d → ¬ S.Recent s (fs i)) ∧
      ∃ v ∈ (rulePlan S.preds S.catalog own rule size slots).1.variants, v.delta = some d ∧
        runs S.an s own rule v.delta level false = true ∧ ∀ s' cands,
          Coherent (S.ctx s) (hoists v.steps) (fun _ => none) s.exec →
            runVariant S.src S.declared S.an (edgeTiers S.src) s rule rule.index v
              (.eval level false) = .ok (s', cands) →
              ∃ c ∈ cands, c.row = S.headRow (headParts rule) τ := by
  have fit : S.Fit rule := fit_of_analyse ok mem
  obtain ⟨fold, planned, slotted, _⟩ := rulePlan_planned sane fit idb negs size slots
  obtain ⟨d, mem, new, least, v, inPlan, delta, runs', gives⟩ :=
    later_round sane sets fit sat untiered planned old held now
  refine ⟨d, mem, new, least, v, inPlan, delta, runs', fun s' cands coherent run => ?_⟩
  obtain ⟨heights, ran, rows⟩ := planned.run_leads slotted inPlan coherent run
  obtain ⟨σ, ⟨l, _, n, leads⟩, reads⟩ := gives heights ran
  refine (rows _).mpr ⟨σ, ⟨l, le_top, n, leads⟩, ?_⟩
  rw [(planned.laid v inPlan).1]
  exact parts_head reads

section Made

/-- A checked program over a source, each builtin's rows those its calls answer. -/
def made (src : FactSource) (an : Analysis) : Setting :=
  ⟨src, fun b row t => ∃ imp, ((declare src).impls[b]?).join = some imp ∧
    CallAnswer (((declare src).catalog.builtins[b]?.map BuiltinDecl.tiered).getD true) imp row t, an⟩

variable {src : FactSource} {an : Analysis}

theorem made_answers (answers : ∀ e ∈ src.builtins, ∃ R, Answers e.decl.tiered e.call R)
    {b : Nat} {imp : Builtin} (here : ((declare src).impls[b]?).join = some imp) :
    Answers (((declare src).catalog.builtins[b]?.map BuiltinDecl.tiered).getD true) imp
      ((made src an).rowsOf b) := by
  have rows : (made src an).rowsOf b =
      CallAnswer (((declare src).catalog.builtins[b]?.map BuiltinDecl.tiered).getD true) imp := by
    funext row t
    refine propext ⟨?_, fun answer => ⟨imp, here, answer⟩⟩
    rintro ⟨imp', here', answer⟩
    rw [show ((declare src).impls[b]?).join = some imp from here, Option.some.injEq] at here'
    exact here' ▸ answer
  rw [rows]
  rcases (declare_implements src).2 b imp here with ⟨test, rfl⟩ | ⟨e, mem, rfl, tiered⟩
  · exact answers_callAnswer (stringCall_answers _ test)
  · obtain ⟨R, answer⟩ := answers e mem
    change Answers (((declare src).catalog.builtins[b]?.map BuiltinDecl.tiered).getD true) _
      (CallAnswer (((declare src).catalog.builtins[b]?.map BuiltinDecl.tiered).getD true) _)
    rw [tiered]
    exact answers_callAnswer answer

/-- A builtin declared untiered answers facts alone. -/
theorem made_untiered : (made src an).Untiered := by
  intro b terms row t plain call
  have noClosure : ∀ d, (declare src).catalog.builtins[b]? = some d →
      ¬ (d.kind = .reaches ∨ d.kind = .scc) := by
    intro d here closure
    have tiered := declare_tiered (List.mem_of_getElem? here) closure
    rw [show (made src an).catalog.builtins[b]? = some d from here] at plain
    simp [tiered] at plain
  unfold CallRow at call
  split at call
  · rename_i reaches
    unfold isReaches at reaches
    split at reaches
    · rename_i d here
      exact absurd (.inl (by simpa using reaches)) (noClosure d here)
    · cases reaches
  · split at call
    · obtain ⟨imp, here, key, found, _, _, mem⟩ := call
      obtain ⟨size, _⟩ := declare_implements src
      obtain ⟨d, decl⟩ : ∃ d, (declare src).catalog.builtins[b]? = some d := by
        refine ⟨_, List.getElem?_eq_getElem ?_⟩
        rw [← size]
        by_contra past
        rw [List.getElem?_eq_none (not_lt.mp past)] at here
        cases here
      rw [show (made src an).catalog.builtins[b]? = some d from decl] at plain
      rw [decl] at mem
      simp only [Option.map_some, Option.getD_some] at plain mem
      rw [plain] at mem
      obtain ⟨r, _, is⟩ := List.mem_map.mp mem
      exact (Prod.mk.inj is).2.symm
    · obtain ⟨set, _, _, closure, _⟩ := call
      unfold closureSet at closure
      split at closure
      · cases closure
      · rename_i d here
        split at closure
        · rename_i is
          exact absurd is (noClosure d here)
        · cases closure

end Made

def closureSetting : Setting := made callSource closureAnalysis

def closureRule : CRule :=
  ⟨1, 0, [.var 0, .var 1], [],
    [.pos 0 [.var 0, .var 2], .pos 1 [.var 2, .var 1, .const (.str "CALLS")]], 3, ["x", "z", "y"]⟩

def closureState : EvalState :=
  let s := loadAll callSource (declare callSource) closureAnalysis (emptyState closureAnalysis 100)
  { s with
    rels := s.rels.modify 0 fun rel =>
      (rel.insertRound .derived [⟨[.node 0, .node 1], 1, 0⟩, ⟨[.node 1, .node 2], 1, 0⟩]).1
    atLevel := fun p l => if p = 0 ∧ l = .derived then 2 else s.atLevel p l }

theorem closureState_lt {p : PredId} {rel : Relation} (held : closureState.rels[p]? = some rel) : p < 2 :=
  (List.getElem?_eq_some_iff.mp held).1

theorem closureState_lent :
    Lent (closureSetting.ctx closureState) closureAnalysis.preds closureSetting.rowsOf where
  rels p i rel info held := by
    have wide : ∀ p < 2, ∀ i ∈ closureAnalysis.preds[p]?, ∀ rel ∈ closureState.rels[p]?,
        (∀ e ∈ rel.rows, e.row.length = i.arity) ∧ ∀ c ∈ rel.copies, c.row.length = i.arity := by
      decide +kernel
    exact wide p (closureState_lt held) i info rel held
  pairs e mem := by
    have none' : closureState.scc = [] := by decide +kernel
    rw [show (closureSetting.ctx closureState).scc = [] from none'] at mem
    cases mem
  answers _ _ here := made_answers (fun e mem => absurd mem List.not_mem_nil) here

theorem closureSetting_sane : closureSetting.Sane closureState :=
  sane_of_rows closureState_lent (by decide +kernel) (by decide +kernel) (by decide +kernel)

theorem closureRule_sets : closureSetting.SetsKept closureState closureRule.body := by
  have kinds : ∀ p < 2, ∀ b, kindOf closureAnalysis.preds p ≠ some (.builtin b) := by
    intro p lt b
    interval_cases p <;> exact fun is => by cases is
  intro i p terms here b set kind
  refine absurd kind (kinds p ?_ b)
  by_contra past
  rw [kindOf, List.getElem?_eq_none (not_lt.mp past)] at kind
  cases kind

theorem factIn_of_any {S : Setting} {s : EvalState} {p : PredId} {row : Row} {t : Tier} {recent : Bool}
    (h : ((s.rels[p]?).any fun rel => rel.rows.any fun e =>
      e.row = row ∧ e.home = t ∧ e.recent = recent) = true) : S.FactIn s (.row p row) t recent := by
  cases held : s.rels[p]? with
  | none =>
    rw [held] at h
    cases h
  | some rel =>
    rw [held] at h
    obtain ⟨e, mem, is⟩ := List.any_eq_true.mp h
    obtain ⟨row', home, now⟩ := of_decide_eq_true is
    exact ⟨rel, e, held, mem, row', home, now⟩

/-- Two calls in a row are one of the closure, found by the delta of a round. -/
theorem closureRule_derives : ∃ v ∈ (rulePlan closureAnalysis.preds closureSetting.catalog [0]
      closureRule (fun _ => none) 0).1.variants, v.delta = some 0 ∧
    runs closureAnalysis closureState [0] closureRule v.delta .derived false = true ∧ ∃ s' cands,
      runVariant callSource (declare callSource) closureAnalysis (edgeTiers callSource) closureState
        closureRule 1 v (.eval .derived false) = .ok (s', cands) ∧
      ∃ c ∈ cands, c.row = [.node 0, .node 2] := by
  have first : closureSetting.FactIn closureState (.row 0 [.node 0, .node 1]) .derived true :=
    factIn_of_any (by decide +kernel)
  have second : closureSetting.FactIn closureState (.row 1 [.node 1, .node 2, .str "CALLS"])
      .derived false := factIn_of_any (by decide +kernel)
  have fine : ∀ v ∈ (rulePlan closureAnalysis.preds closureSetting.catalog [0] closureRule
      (fun _ => none) 0).1.variants, (runVariant callSource (declare callSource) closureAnalysis
        (edgeTiers callSource) closureState closureRule 1 v (.eval .derived false)).isOk = true := by
    decide +kernel
  have both : positives closureRule.body = [0, 1] := by decide
  obtain ⟨d, mem, _, least, v, inPlan, delta, runs', found⟩ := recent_clause_derived closureSetting closureProgram
    (by decide +kernel) closureRule (List.mem_cons_of_mem _ List.mem_cons_self) [0]
    (by decide +kernel) (by simp [closureRule]) (fun _ => none) 0 closureState closureSetting_sane
    closureRule_sets made_untiered .derived
    (fun p row t recent fact => by
      obtain ⟨rel, e, held, mem, _, home, now⟩ := fact
      have old : ∀ p < 2, ∀ rel ∈ closureState.rels[p]?, ∀ e ∈ rel.rows, e.recent = true →
          p = 0 ∧ e.home = .derived := by decide +kernel
      intro is
      obtain ⟨rfl, at'⟩ := old p (closureState_lt held) rel held e mem (now.trans is)
      exact ⟨List.mem_singleton_self _, home.symm.trans at'⟩)
    (fun v => .node (if v = 0 then 0 else if v = 1 then 2 else 1))
    (fun i => if i = 0 then .row 0 [.node 0, .node 1] else .row 1 [.node 1, .node 2, .str "CALLS"])
    (by
      refine ⟨fun i p terms here => ?_, fun lit mem => ?_⟩
      · rcases i with _ | _ | i
        · cases here
          exact ⟨[.node 0, .node 1], rfl, .cons rfl (.cons rfl .nil)⟩
        · cases here
          exact ⟨[.node 1, .node 2, .str "CALLS"], rfl, .cons rfl (.cons rfl (.cons rfl .nil))⟩
        · cases here
      · simp only [closureRule, List.mem_cons, List.not_mem_nil, or_false] at mem
        rcases mem with rfl | rfl <;> trivial)
    (by
      rw [show positives closureRule.body = [0, 1] from both]
      intro i mem
      simp only [List.mem_cons, List.not_mem_nil, or_false] at mem
      rcases mem with rfl | rfl
      · exact ⟨.derived, le_rfl, true, first⟩
      · exact ⟨.derived, le_rfl, false, second⟩)
    ⟨0, by rw [both]; exact List.mem_cons_self, .derived, first⟩
  have zero : d = 0 := by
    by_contra later
    exact least 0 (by rw [both]; exact List.mem_cons_self) (Nat.pos_of_ne_zero later)
      ⟨.derived, first⟩
  cases run : runVariant callSource (declare callSource) closureAnalysis (edgeTiers callSource)
      closureState closureRule 1 v (.eval .derived false) with
  | error e =>
    have ran := fine v inPlan
    rw [run] at ran
    cases ran
  | ok r =>
    obtain ⟨s', cands⟩ := r
    exact ⟨v, inPlan, zero ▸ delta, runs', s', cands, run, found s' cands (coherent_fresh _ _ rfl rfl rfl rfl) run⟩

end Setting

end Glia.Rules
