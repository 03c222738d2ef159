import Glia.Rules.Resolve
import Glia.Rules.Safety

/-! The step of a literal that can run reads only what is bound, and binds what the planner
marks. -/
namespace Glia.Rules

section Leads

variable (tables : DomainTables)

def Covers (bound : Bound) (env : Env) : Prop := ∀ v, bound v = true → (env v).isSome = true

theorem Covers.mono {a b : Bound} (h : a.Le b) {env : Env} (covers : Covers b env) :
    Covers a env :=
  fun v hv => covers v (h v hv)

def LeadsTo (steps : List Step) (a b : Bound) : Prop :=
  ∀ last env, Covers a env → (∀ env', Covers b env' → last env') →
    NeverDrops tables last env steps

def stepBound (step : Step) (bound : Bound) : Bound :=
  fun v => bound v || (eachBind step).any fun b => b.2 == v

variable {tables}

theorem LeadsTo.nil {a b : Bound} (h : b.Le a) : LeadsTo tables [] a b := by
  intro last env covers done
  simp only [NeverDrops]
  exact done env (covers.mono h)

theorem NeverDrops.append {last : Env → Prop} {env : Env} {s t : List Step}
    (h : NeverDrops tables (fun env' => NeverDrops tables last env' t) env s) :
    NeverDrops tables last env (s ++ t) := by
  induction s generalizing env with
  | nil => simpa only [NeverDrops, List.nil_append] using h
  | cons step rest ih =>
    simp only [NeverDrops, List.cons_append] at h ⊢
    exact ⟨h.1, fun row fits => ih (h.2 row fits)⟩

theorem LeadsTo.append {s t : List Step} {a b c : Bound} (hs : LeadsTo tables s a b)
    (ht : LeadsTo tables t b c) : LeadsTo tables (s ++ t) a c :=
  fun last env covers done =>
    NeverDrops.append (hs _ env covers fun env' covers' => ht last env' covers' done)

theorem takeBinds_isSome {row : Row} (binds : List Bind) (env : Env) {v : Nat}
    (fits : ∀ b ∈ binds, b.1 < row.length)
    (h : (env v).isSome = true ∨ ∃ b ∈ binds, b.2 = v) :
    (binds.foldl (takeBind row) env v).isSome = true := by
  induction binds generalizing env with
  | nil =>
    rcases h with h | ⟨b, mem, _⟩
    · exact h
    · cases mem
  | cons b rest ih =>
    refine ih _ (fun b' hb' => fits b' (List.mem_cons_of_mem _ hb')) ?_
    by_cases eq : b.2 = v
    · left
      subst eq
      rw [takeBind, Function.update_self, List.getElem?_eq_getElem (fits b List.mem_cons_self)]
      rfl
    · rcases h with h | ⟨b', mem, eq'⟩
      · left
        rwa [takeBind, Function.update_of_ne (Ne.symm eq)]
      · rcases List.mem_cons.mp mem with rfl | mem
        · exact absurd eq' eq
        · exact .inr ⟨b', mem, eq'⟩

theorem covers_takeRow {step : Step} {bound : Bound} {env : Env} {row : Row}
    (fits : Fits step row) (covers : Covers bound env) :
    Covers (stepBound step bound) (takeRow step env row) := by
  intro v hv
  refine takeBinds_isSome _ _ fits ?_
  simp only [stepBound, Bool.or_eq_true, List.any_eq_true, beq_iff_eq] at hv
  rcases hv with hv | ⟨b, mem, eq⟩
  · exact .inl (covers v hv)
  · exact .inr ⟨b, mem, eq⟩

theorem LeadsTo.single {step : Step} {a b : Bound}
    (never : ∀ env, Covers a env → StepNeverDrops tables env step)
    (stop : b.Le (stepBound step a)) : LeadsTo tables [step] a b := by
  intro last env covers done
  simp only [NeverDrops]
  refine ⟨never env covers, fun row fits => done _ ?_⟩
  exact (covers_takeRow fits covers).mono stop

end Leads

section Parts

variable {tables : DomainTables} {env : Env}

def PartBound (bound : Bound) : KeyPart → Prop
  | .const _ => True
  | .var v => bound v = true

theorem resolvePart_isSome {bound : Bound} (covers : Covers bound env) {p : KeyPart}
    (h : PartBound bound p) : (resolvePart tables env p).isSome = true := by
  cases p with
  | const c => rfl
  | var v => exact covers v h

theorem parts_isSome {bound : Bound} (covers : Covers bound env) {ps : List KeyPart}
    (h : ∀ p ∈ ps, PartBound bound p) : (parts tables env ps).isSome = true := by
  induction ps with
  | nil => rfl
  | cons p rest ih =>
    obtain ⟨v, hv⟩ := Option.isSome_iff_exists.mp
      (@resolvePart_isSome tables env _ covers p (h p List.mem_cons_self))
    obtain ⟨vs, hvs⟩ := Option.isSome_iff_exists.mp (ih fun p hp => h p (List.mem_cons_of_mem _ hp))
    simp [parts, hv, hvs]

theorem opt_isSome {bound : Bound} (covers : Covers bound env) {p : Option KeyPart}
    (h : ∀ q, p = some q → PartBound bound q) : (opt tables env p).isSome = true := by
  cases p with
  | none => rfl
  | some q =>
    have := @resolvePart_isSome tables env _ covers q (h q rfl)
    simpa [opt] using this

theorem opts_isSome {bound : Bound} (covers : Covers bound env) {ps : List (Option KeyPart)}
    (h : ∀ q, some q ∈ ps → PartBound bound q) : (opts tables env ps).isSome = true := by
  induction ps with
  | nil => rfl
  | cons p rest ih =>
    obtain ⟨v, hv⟩ := Option.isSome_iff_exists.mp
      (@opt_isSome tables env _ covers p fun q hq => h q (hq ▸ List.mem_cons_self))
    obtain ⟨vs, hvs⟩ := Option.isSome_iff_exists.mp (ih fun q hq => h q (List.mem_cons_of_mem _ hq))
    simp [opts, hv, hvs]

theorem wants_isSome {binds : List Bind} {checks : List Check}
    (own : ∀ c ∈ checks, ∃ v, c.2 = .var v ∧ ∃ b ∈ binds, b.2 = v) :
    (wants tables env binds checks).isSome = true := by
  induction checks with
  | nil => rfl
  | cons c rest ih =>
    obtain ⟨v, hv, b, mem, eq⟩ := own c List.mem_cons_self
    have found : (binds.find? fun b => b.2 == v).isSome = true := by
      rw [List.find?_isSome]
      exact ⟨b, mem, by simpa using eq⟩
    obtain ⟨b', hb'⟩ := Option.isSome_iff_exists.mp found
    obtain ⟨ws, hws⟩ := Option.isSome_iff_exists.mp (ih fun c hc => own c (List.mem_cons_of_mem _ hc))
    simp [wants, want, hv, hb', hws]

end Parts

section Columns

variable {terms : List CTerm} {bound : Bound}

theorem mem_terms_of_getD {c : Nat} {t : CTerm} (lt : c < terms.length)
    (h : terms.getD c .wild = t) : t ∈ terms := by
  rw [List.getD_eq_getElem?_getD, List.getElem?_eq_getElem lt, Option.getD_some] at h
  exact h ▸ List.getElem_mem lt

theorem mem_boundCols {c : Nat} :
    c ∈ boundCols terms bound ↔ c < terms.length ∧ isBound bound (terms.getD c .wild) = true := by
  simp [boundCols]

theorem mem_freeCols {c : Nat} :
    c ∈ freeCols terms bound ↔ c < terms.length ∧ isBound bound (terms.getD c .wild) = false := by
  simp [freeCols]

theorem mem_keyOf {p : KeyPart} (h : p ∈ keyOf terms bound) :
    ∃ t ∈ terms, part t = some p ∧ isBound bound t = true := by
  obtain ⟨c, hc, hp⟩ := List.mem_filterMap.mp h
  obtain ⟨lt, b⟩ := mem_boundCols.mp hc
  exact ⟨_, mem_terms_of_getD lt rfl, hp, b⟩

theorem splitColumns_spec (binds : List Bind) (checks : List Check) (cols : List Bind)
    (own : ∀ c ∈ checks, ∃ v, c.2 = .var v ∧ ∃ b ∈ binds, b.2 = v) :
    (∀ b ∈ (splitColumns binds checks cols).1, b ∈ binds ∨ b ∈ cols) ∧
      (∀ b, b ∈ binds ∨ b ∈ cols → ∃ e ∈ (splitColumns binds checks cols).1, e.2 = b.2) ∧
      ∀ c ∈ (splitColumns binds checks cols).2,
        ∃ v, c.2 = .var v ∧ ∃ b ∈ (splitColumns binds checks cols).1, b.2 = v := by
  induction cols generalizing binds checks with
  | nil => exact ⟨fun b h => .inl h, fun b h => ⟨b, h.resolve_right (by simp), rfl⟩, own⟩
  | cons b rest ih =>
    unfold splitColumns
    split
    · rename_i seen
      obtain ⟨e, mem, eq⟩ := List.any_eq_true.mp seen
      simp only [beq_iff_eq] at eq
      obtain ⟨from', to', checked⟩ := ih binds (checks ++ [(b.1, .var b.2)]) (by
        intro c hc
        rcases List.mem_append.mp hc with hc | hc
        · exact own c hc
        · cases List.mem_singleton.mp hc
          exact ⟨b.2, rfl, e, mem, eq⟩)
      refine ⟨fun d hd => (from' d hd).imp_right (List.mem_cons_of_mem _), fun d hd => ?_, checked⟩
      rcases hd with hd | hd
      · exact to' d (.inl hd)
      · rcases List.mem_cons.mp hd with rfl | hd
        · exact eq ▸ to' e (.inl mem)
        · exact to' d (.inr hd)
    · obtain ⟨from', to', checked⟩ := ih (binds ++ [b]) checks (by
        intro c hc
        obtain ⟨v, hv, e, mem, eq⟩ := own c hc
        exact ⟨v, hv, e, List.mem_append_left _ mem, eq⟩)
      simp only [List.mem_append, List.mem_cons, List.not_mem_nil, or_false] at from' to' ⊢
      refine ⟨fun d hd => ?_, fun d hd => to' d ?_, checked⟩
      · rcases from' d hd with (h | h) | h
        · exact .inl h
        · exact .inr (.inl h)
        · exact .inr (.inr h)
      · rcases hd with h | h | h
        · exact .inl (.inl h)
        · exact .inl (.inr h)
        · exact .inr h

theorem mem_varColumns {terms : List CTerm} {cols : List Nat} {b : Bind} :
    b ∈ varColumns terms cols ↔ b.1 ∈ cols ∧ terms[b.1]? = some (.var b.2) := by
  unfold varColumns
  rw [List.mem_filterMap]
  constructor
  · rintro ⟨c, hc, h⟩
    split at h
    · cases h
      exact ⟨hc, ‹_›⟩
    · cases h
  · rintro ⟨hc, h⟩
    exact ⟨b.1, hc, by simp [h]⟩

theorem freeColumns_spec (terms : List CTerm) (cols : List Nat) :
    (∀ b ∈ (freeColumns terms cols).1, b.1 ∈ cols ∧ terms[b.1]? = some (.var b.2)) ∧
      (∀ c ∈ cols, ∀ v, terms[c]? = some (.var v) →
        ∃ b ∈ (freeColumns terms cols).1, b.2 = v) ∧
      ∀ c ∈ (freeColumns terms cols).2,
        ∃ v, c.2 = .var v ∧ ∃ b ∈ (freeColumns terms cols).1, b.2 = v := by
  obtain ⟨from', to', checked⟩ := splitColumns_spec [] [] (varColumns terms cols) (by simp)
  refine ⟨fun b hb => mem_varColumns.mp ((from' b hb).resolve_left (by simp)),
    fun c hc v hv => ?_, checked⟩
  exact to' (c, v) (.inr (mem_varColumns.mpr ⟨hc, hv⟩))

end Columns

section Literals

variable {tables : DomainTables} {catalog : Catalog} {preds : List PredInfo}

/-- Past the two ends of a `reaches` literal only constants stand. -/
def ReachConst (catalog : Catalog) (preds : List PredInfo) : CLit → Prop
  | .pos p terms => ∀ b, kindOf preds p = some (.builtin b) → isReaches catalog b = true →
      ∀ c, 2 ≤ c → c < terms.length → predReq catalog preds p c = some .const
  | .neg _ _ => True
  | .cmp _ _ _ => True

/-- What the steps of a literal leave really bound: what was, and what the planner newly
marked. -/
def newBound (lit : CLit) (bound real : Bound) : Bound :=
  fun v => real v || (!bound v && boundAfter lit bound v)

theorem partBound_real {bound real : Bound} {terms : List CTerm} {t : CTerm} {p : KeyPart}
    (agree : ∀ v, Mentions terms v → bound v = true → real v = true) (mem : t ∈ terms)
    (h : part t = some p) (b : isBound bound t = true) : PartBound real p := by
  cases t with
  | var v => cases h; exact agree v mem b
  | wild => cases h
  | const c => cases h; trivial

theorem boundPart_real {bound real : Bound} {terms : List CTerm} {t : Option CTerm}
    (agree : ∀ v, Mentions terms v → bound v = true → real v = true)
    (mem : ∀ u, t = some u → u ∈ terms) :
    ∀ p, boundPart bound t = some p → PartBound real p := by
  intro p hp
  cases t with
  | none => cases hp
  | some u =>
    unfold boundPart at hp
    simp only at hp
    split at hp
    · exact partBound_real agree (mem u rfl) hp ‹_›
    · cases hp

theorem isBound_of_getElem {bound : Bound} {terms : List CTerm} {c v : Nat}
    (h : terms[c]? = some (.var v)) : isBound bound (terms.getD c .wild) = bound v := by
  simp [List.getD_eq_getElem?_getD, h]

theorem exists_freeCol {bound : Bound} {terms : List CTerm} {v : Nat} (free : bound v = false)
    (mem : Mentions terms v) : ∃ c ∈ freeCols terms bound, terms[c]? = some (.var v) := by
  obtain ⟨c, hc⟩ := List.mem_iff_getElem?.mp mem
  refine ⟨c, mem_freeCols.mpr ⟨(List.getElem?_eq_some_iff.mp hc).1, ?_⟩, hc⟩
  rwa [isBound_of_getElem hc]

theorem relationStep_leads {p : PredId} {terms : List CTerm} {bound real : Bound} {src : Src}
    (agree : ∀ v, Mentions terms v → bound v = true → real v = true) :
    LeadsTo tables [relationStep p terms bound src] real
      (newBound (.pos p terms) bound real) := by
  obtain ⟨_, free, checked⟩ := freeColumns_spec terms (freeCols terms bound)
  have keys : ∀ q ∈ keyOf terms bound, PartBound real q := by
    intro q hq
    obtain ⟨t, mem, ht, b⟩ := mem_keyOf hq
    exact partBound_real agree mem ht b
  have binds : ∀ v, newBound (.pos p terms) bound real v = true →
      real v = true ∨ ∃ b ∈ (freeColumns terms (freeCols terms bound)).1, b.2 = v := by
    intro v hv
    simp only [newBound, boundAfter, Bool.or_eq_true, Bool.and_eq_true, Bool.not_eq_true',
      markAll_apply] at hv
    rcases hv with hv | ⟨unbound, marked⟩
    · exact .inl hv
    · rw [unbound] at marked
      obtain ⟨c, hc, ht⟩ := exists_freeCol unbound (marked.resolve_left (by simp))
      exact .inr (free c hc v ht)
  unfold relationStep
  simp only
  split
  · refine LeadsTo.single (fun env _ => ?_) fun v hv => ?_
    · simp only [StepNeverDrops, resolves]
      exact wants_isSome checked
    · simpa [stepBound, eachBind] using binds v hv
  · refine LeadsTo.single (fun env covers => ?_) fun v hv => ?_
    · simp only [StepNeverDrops, resolves, Bool.and_eq_true]
      exact ⟨parts_isSome covers keys, wants_isSome checked⟩
    · simpa [stepBound, eachBind] using binds v hv

theorem callStep_leads {b : Nat} {p : PredId} {terms : List CTerm} {bound real : Bound} {src : Src}
    (kind : kindOf preds p = some (.builtin b))
    (agree : ∀ v, Mentions terms v → bound v = true → real v = true)
    (ready : LitReady catalog preds bound (.pos p terms))
    (reach : ReachConst catalog preds (.pos p terms)) :
    LeadsTo tables [callStep catalog b terms bound src] real
      (newBound (.pos p terms) bound real) := by
  have covered : ∀ v, newBound (.pos p terms) bound real v = true →
      real v = true ∨ ∃ c : Nat, terms[c]? = some (CTerm.var v) ∧ bound v = false := by
    intro v hv
    simp only [newBound, boundAfter, Bool.or_eq_true, Bool.and_eq_true, Bool.not_eq_true',
      markAll_apply] at hv
    rcases hv with hv | ⟨unbound, marked⟩
    · exact .inl hv
    · rw [unbound] at marked
      obtain ⟨c, hc⟩ := List.mem_iff_getElem?.mp (marked.resolve_left (by simp))
      exact .inr ⟨c, hc, unbound⟩
  have args : ∀ q, some q ∈ terms.map (fun t => boundPart bound (some t)) → PartBound real q := by
    intro q hq
    obtain ⟨t, mem, ht⟩ := List.mem_map.mp hq
    exact boundPart_real agree (fun u hu => by cases hu; exact mem) q ht
  unfold callStep
  simp only
  split
  · rename_i isReach
    obtain ⟨_, free, checked⟩ := freeColumns_spec terms
      ((List.range (min terms.length 2)).filter fun c => !isBound bound (terms.getD c .wild))
    refine LeadsTo.single (fun env covers => ?_) fun v hv => ?_
    · simp only [StepNeverDrops, resolves, Bool.and_eq_true]
      exact ⟨⟨wants_isSome checked,
        opt_isSome covers (boundPart_real agree fun u hu => List.mem_of_getElem? hu)⟩,
        opt_isSome covers (boundPart_real agree fun u hu => List.mem_of_getElem? hu)⟩
    · rcases covered v hv with hv | ⟨c, hc, unbound⟩
      · simp [stepBound, hv]
      · have lt := (List.getElem?_eq_some_iff.mp hc).1
        -- A free variable past the two ends would leave a constant column unbound.
        have ends : c < 2 := by
          by_contra far
          have req := reach b kind isReach c (by omega) lt
          have := (runnable_iff bound p terms).mp ready c _ hc (.inr req)
          simp [unbound] at this
        have mem : c ∈ (List.range (min terms.length 2)).filter
            fun c => !isBound bound (terms.getD c .wild) := by
          rw [List.mem_filter, List.mem_range, isBound_of_getElem hc, unbound]
          exact ⟨by omega, rfl⟩
        obtain ⟨e, he, eq⟩ := free c mem v hc
        simp only [stepBound, eachBind, Bool.or_eq_true, List.any_eq_true, beq_iff_eq]
        exact .inr ⟨e, he, eq⟩
  · obtain ⟨_, free, checked⟩ := freeColumns_spec terms
      ((List.range terms.length).filter fun c => !isBound bound (terms.getD c .wild))
    refine LeadsTo.single (fun env covers => ?_) fun v hv => ?_
    · simp only [StepNeverDrops, resolves, Bool.and_eq_true]
      exact ⟨wants_isSome checked, opts_isSome covers args⟩
    · rcases covered v hv with hv | ⟨c, hc, unbound⟩
      · simp [stepBound, hv]
      · have mem : c ∈ (List.range terms.length).filter
            fun c => !isBound bound (terms.getD c .wild) := by
          rw [List.mem_filter, List.mem_range, isBound_of_getElem hc, unbound]
          exact ⟨(List.getElem?_eq_some_iff.mp hc).1, rfl⟩
        obtain ⟨e, he, eq⟩ := free c mem v hc
        simp only [stepBound, eachBind, Bool.or_eq_true, List.any_eq_true, beq_iff_eq]
        exact .inr ⟨e, he, eq⟩

theorem newBound_of_same {lit : CLit} {bound real : Bound} (h : boundAfter lit bound = bound) :
    (newBound lit bound real).Le real := by
  intro v hv
  simp only [newBound, h, Bool.or_eq_true, Bool.and_eq_true, Bool.not_eq_true'] at hv
  rcases hv with hv | ⟨unbound, marked⟩
  · exact hv
  · rw [unbound] at marked
    cases marked

theorem negStep_leads {p : PredId} {terms : List CTerm} {bound real : Bound} {src : Src}
    (agree : ∀ v, Mentions terms v → bound v = true → real v = true) :
    LeadsTo tables (litStep preds catalog (.neg p terms) bound src).toList real
      (newBound (.neg p terms) bound real) := by
  have same : (newBound (.neg p terms) bound real).Le real := newBound_of_same rfl
  have ends : ∀ i q, boundPart bound terms[i]? = some q → PartBound real q := fun i =>
    boundPart_real agree fun u hu => List.mem_of_getElem? hu
  have args : ∀ q, some q ∈ terms.map (fun t => boundPart bound (some t)) → PartBound real q := by
    intro q hq
    obtain ⟨t, mem, ht⟩ := List.mem_map.mp hq
    exact boundPart_real agree (fun u hu => by cases hu; exact mem) q ht
  have keys : ∀ q ∈ keyOf terms bound, PartBound real q := by
    intro q hq
    obtain ⟨t, mem, ht, b⟩ := mem_keyOf hq
    exact partBound_real agree mem ht b
  have stays : ∀ step, real.Le (stepBound step real) := fun step v hv => by simp [stepBound, hv]
  unfold litStep
  simp only
  split
  · split
    · refine LeadsTo.single (fun env covers => ?_) (same.trans (stays _))
      simp only [StepNeverDrops, resolves, Bool.and_eq_true]
      exact ⟨opt_isSome covers (ends 0), opt_isSome covers (ends 1)⟩
    · refine LeadsTo.single (fun env covers => ?_) (same.trans (stays _))
      simp only [StepNeverDrops, resolves]
      exact opts_isSome covers args
  · refine LeadsTo.single (fun env covers => ?_) (same.trans (stays _))
    simp only [StepNeverDrops, resolves]
    exact parts_isSome covers keys

theorem freeVar_eq_some {bound : Bound} {t : CTerm} {v : Nat} (h : freeVar bound t = some v) :
    t = .var v ∧ bound v = false := by
  cases t with
  | var w =>
    unfold freeVar at h
    simp only at h
    split at h
    · cases h
    · rename_i free
      cases h
      exact ⟨rfl, Bool.eq_false_of_not_eq_true free⟩
  | wild => cases h
  | const c => cases h

theorem freeVar_of_bound {bound : Bound} {t : CTerm} (h : isBound bound t = true) :
    freeVar bound t = none := by
  cases t with
  | var v =>
    simp only [isBound_var] at h
    simp [freeVar, h]
  | wild => rfl
  | const c => rfl

theorem isVar_free {bound : Bound} {t : CTerm} (var : t.isVar = true)
    (free : isBound bound t = false) : ∃ v, t = .var v ∧ freeVar bound t = some v := by
  cases t with
  | var v =>
    simp only [isBound_var] at free
    exact ⟨v, rfl, by simp [freeVar, free]⟩
  | wild => cases var
  | const c => cases var

theorem part_of_bound {bound : Bound} {t : CTerm} (h : isBound bound t = true) :
    ∃ p, part t = some p := by
  cases t with
  | var v => exact ⟨_, rfl⟩
  | wild => cases h
  | const c => exact ⟨_, rfl⟩

theorem comparison_cases {op : CmpOp} {l r : CTerm} {bound : Bound}
    (ready : LitReady catalog preds bound (.cmp op l r)) :
    (∃ lp rp, part l = some lp ∧ part r = some rp ∧ isBound bound l = true ∧
        isBound bound r = true ∧ comparison op l r bound = some (.cmp op lp rp)) ∨
      (∃ v p, op = .eq ∧ l = .var v ∧ bound v = false ∧ part r = some p ∧
        isBound bound r = true ∧ comparison op l r bound = some (.assign v p)) ∨
      (∃ v p, op = .eq ∧ r = .var v ∧ bound v = false ∧ part l = some p ∧
        isBound bound l = true ∧ comparison op l r bound = some (.assign v p)) := by
  rcases ready with ⟨hl, hr⟩ | assign
  · obtain ⟨lp, hlp⟩ := part_of_bound hl
    obtain ⟨rp, hrp⟩ := part_of_bound hr
    refine .inl ⟨lp, rp, hlp, hrp, hl, hr, ?_⟩
    unfold comparison
    simp only [hlp, hrp, freeVar_of_bound hl, freeVar_of_bound hr]
  · simp only [assigns, Bool.and_eq_true, Bool.or_eq_true, beq_iff_eq, Bool.not_eq_true'] at assign
    obtain ⟨rfl, side⟩ := assign
    rcases side with ⟨⟨var, free⟩, other⟩ | ⟨⟨var, free⟩, other⟩
    · obtain ⟨v, rfl, hv⟩ := isVar_free var free
      obtain ⟨rp, hrp⟩ := part_of_bound other
      refine .inr (.inl ⟨v, rp, rfl, rfl, free, hrp, other, ?_⟩)
      have hlp : part (.var v) = some (.var v) := rfl
      unfold comparison
      simp only [hlp, hrp, hv, freeVar_of_bound other]
    · obtain ⟨v, rfl, hv⟩ := isVar_free var free
      obtain ⟨lp, hlp⟩ := part_of_bound other
      refine .inr (.inr ⟨v, lp, rfl, rfl, free, hlp, other, ?_⟩)
      have hrp : part (.var v) = some (.var v) := rfl
      unfold comparison
      simp only [hlp, hrp, hv, freeVar_of_bound other]

theorem boundAfter_eq {lit : CLit} {bound : Bound} (ready : LitReady catalog preds bound lit) :
    boundAfter lit bound = bindLiteral bound lit := by
  cases lit with
  | pos p terms => rfl
  | neg p terms => rfl
  | cmp op l r =>
    rcases comparison_cases ready with ⟨lp, rp, _, _, hl, hr, step⟩ |
        ⟨v, p, rfl, rfl, free, _, hr, step⟩ | ⟨v, p, rfl, rfl, free, _, hl, step⟩
    · cases op <;> simp [boundAfter, step, bindLiteral, hl, hr]
    · simp [boundAfter, step, bindLiteral, free, hr, markTerm]
    · simp [boundAfter, step, bindLiteral, free, hl, markTerm]

theorem assign_leads {op : CmpOp} {l r t : CTerm} {bound real : Bound} {v : Nat} {p : KeyPart}
    (agree : ∀ v, Mentions [l, r] v → bound v = true → real v = true) (mem : t ∈ [l, r])
    (hp : part t = some p) (ht : isBound bound t = true)
    (step : comparison op l r bound = some (.assign v p)) :
    LeadsTo tables (comparison op l r bound).toList real (newBound (.cmp op l r) bound real) := by
  rw [step]
  refine LeadsTo.single (fun env covers => ?_) fun w hw => ?_
  · simp only [StepNeverDrops, resolves]
    exact resolvePart_isSome covers (partBound_real agree mem hp ht)
  · simp only [newBound, boundAfter, step, Bool.or_eq_true, Bool.and_eq_true,
      Bool.not_eq_true'] at hw
    simp only [stepBound, eachBind, List.any_cons, List.any_nil, Bool.or_false, Bool.or_eq_true,
      beq_iff_eq]
    refine hw.imp_right fun fresh => ?_
    obtain ⟨unbound, marked⟩ := fresh
    by_contra ne
    rw [Function.update_of_ne (Ne.symm ne), unbound] at marked
    cases marked

theorem comparison_leads {op : CmpOp} {l r : CTerm} {bound real : Bound}
    (agree : ∀ v, Mentions [l, r] v → bound v = true → real v = true)
    (ready : LitReady catalog preds bound (.cmp op l r)) :
    LeadsTo tables (comparison op l r bound).toList real (newBound (.cmp op l r) bound real) := by
  rcases comparison_cases ready with ⟨lp, rp, hlp, hrp, hl, hr, step⟩ |
      ⟨v, p, rfl, rfl, _, hp, hr, step⟩ | ⟨v, p, rfl, rfl, _, hp, hl, step⟩
  · have same : boundAfter (.cmp op l r) bound = bound := by simp [boundAfter, step]
    rw [step]
    refine LeadsTo.single (fun env covers => ?_) fun v hv => ?_
    · simp only [StepNeverDrops, resolves, Bool.and_eq_true]
      exact ⟨resolvePart_isSome covers (partBound_real agree (by simp) hlp hl),
        resolvePart_isSome covers (partBound_real agree (by simp) hrp hr)⟩
    · simp [stepBound, newBound_of_same same v hv]
  · exact assign_leads agree (by simp) hp hr step
  · exact assign_leads agree (by simp) hp hl step

theorem litStep_leads {lit : CLit} {bound real : Bound} {src : Src}
    (agree : ∀ v, Mentions lit.terms v → bound v = true → real v = true)
    (ready : LitReady catalog preds bound lit) (reach : ReachConst catalog preds lit) :
    LeadsTo tables (litStep preds catalog lit bound src).toList real
      (newBound lit bound real) := by
  cases lit with
  | pos p terms =>
    unfold litStep
    simp only
    split
    · exact callStep_leads ‹_› agree ready reach
    · exact relationStep_leads agree
  | neg p terms => exact negStep_leads agree
  | cmp op l r => exact comparison_leads agree ready

end Literals

end Glia.Rules
