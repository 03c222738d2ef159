import Glia.Rules.Runs
import Glia.Rules.StepReady

/-! What one row adds to a substitution: the bound columns of an atom agree with it, and
the free ones, first occurrence bound and repeats checked, extend it. -/
namespace Glia.Rules

section Terms

variable (tables : DomainTables)

def TermIs (σ : Env) : CTerm → Value → Prop
  | .const c, v => v = constValue tables c
  | .var x, v => σ x = some v
  | .wild, _ => True

def RowIs (σ : Env) : List CTerm → Row → Prop := List.Forall₂ (TermIs tables σ)

end Terms

/-- `σ'` is `σ` with every variable of `terms` bound and nothing else changed. -/
structure Grows (σ : Env) (terms : List CTerm) (σ' : Env) : Prop where
  binds : ∀ v, Mentions terms v → (σ' v).isSome = true
  keeps : ∀ v, (σ v).isSome = true → σ' v = σ v
  rest : ∀ v, ¬ Mentions terms v → σ' v = σ v

section Rows

variable {tables : DomainTables}

theorem rowIs_iff {σ : Env} {terms : List CTerm} {row : Row} :
    RowIs tables σ terms row ↔ row.length = terms.length ∧
      ∀ (c : Nat) t v, terms[c]? = some t → row[c]? = some v → TermIs tables σ t v := by
  unfold RowIs
  rw [List.forall₂_iff_get]
  constructor
  · intro ⟨length, cols⟩
    refine ⟨length.symm, fun c t v ht hv => ?_⟩
    obtain ⟨lt, rfl⟩ := List.getElem?_eq_some_iff.mp ht
    obtain ⟨lt', rfl⟩ := List.getElem?_eq_some_iff.mp hv
    exact cols c lt lt'
  · intro ⟨length, cols⟩
    exact ⟨length.symm, fun c lt lt' =>
      cols c _ _ (List.getElem?_eq_getElem lt) (List.getElem?_eq_getElem lt')⟩

theorem termIs_mono {σ σ' : Env} {t : CTerm} {v : Value} (h : TermIs tables σ t v)
    (keeps : ∀ v, (σ v).isSome = true → σ' v = σ v) : TermIs tables σ' t v := by
  cases t with
  | const c => exact h
  | wild => trivial
  | var x =>
    have eq : σ x = some v := h
    show σ' x = some v
    rw [keeps x (by simp [eq]), eq]

end Rows

section Split

/-- Each column splits into a bind or a check against its variable, and into nothing
else; no variable is bound twice. -/
theorem splitColumns_cols (binds : List Bind) (checks : List Check) (cols : List Bind) :
    (∀ b ∈ binds, b ∈ (splitColumns binds checks cols).1) ∧
    (∀ b ∈ cols, b ∈ (splitColumns binds checks cols).1 ∨
      (b.1, .var b.2) ∈ (splitColumns binds checks cols).2) ∧
    (∀ c ∈ (splitColumns binds checks cols).2, c ∈ checks ∨ ∃ b ∈ cols, c = (b.1, .var b.2)) ∧
    (∀ c ∈ checks, c ∈ (splitColumns binds checks cols).2) ∧
    ((binds.map Prod.snd).Nodup → ((splitColumns binds checks cols).1.map Prod.snd).Nodup) := by
  induction cols generalizing binds checks with
  | nil => exact ⟨fun b h => h, by simp, fun c h => .inl h, fun c h => h, fun h => h⟩
  | cons b rest ih =>
    unfold splitColumns
    split
    · obtain ⟨keep, split, own, old, once⟩ := ih binds (checks ++ [(b.1, .var b.2)])
      refine ⟨keep, fun d hd => ?_, fun c hc => ?_, fun c hc => old c (by simp [hc]), once⟩
      · rcases List.mem_cons.mp hd with rfl | hd
        · exact .inr (old _ (by simp))
        · exact split d hd
      · rcases own c hc with h | ⟨d, hd, eq⟩
        · rcases List.mem_append.mp h with h | h
          · exact .inl h
          · exact .inr ⟨b, List.mem_cons_self, List.mem_singleton.mp h⟩
        · exact .inr ⟨d, List.mem_cons_of_mem _ hd, eq⟩
    · rename_i fresh
      obtain ⟨keep, split, own, old, once⟩ := ih (binds ++ [b]) checks
      refine ⟨fun d hd => keep d (by simp [hd]), fun d hd => ?_, fun c hc => ?_, old, fun h => ?_⟩
      · rcases List.mem_cons.mp hd with rfl | hd
        · exact .inl (keep _ (by simp))
        · exact split d hd
      · refine (own c hc).imp_right fun found => ?_
        obtain ⟨d, hd, eq⟩ := found
        exact ⟨d, List.mem_cons_of_mem _ hd, eq⟩
      · apply once
        rw [List.map_append, List.nodup_append]
        refine ⟨h, by simp, fun v hv w hw eq => fresh ?_⟩
        obtain ⟨e, he, rfl⟩ := List.mem_map.mp hv
        rw [List.map_singleton, List.mem_singleton] at hw
        exact List.any_eq_true.mpr ⟨e, he, by simp [eq, hw]⟩

theorem mem_freeColumns {terms : List CTerm} {cols : List Nat} {c v : Nat} (hc : c ∈ cols)
    (ht : terms[c]? = some (.var v)) :
    (c, v) ∈ (freeColumns terms cols).1 ∨ (c, .var v) ∈ (freeColumns terms cols).2 :=
  (splitColumns_cols [] [] (varColumns terms cols)).2.1 (c, v) (mem_varColumns.mpr ⟨hc, ht⟩)

theorem check_freeColumns {terms : List CTerm} {cols : List Nat} {check : Check}
    (h : check ∈ (freeColumns terms cols).2) :
    ∃ v, check.2 = .var v ∧ check.1 ∈ cols ∧ terms[check.1]? = some (.var v) := by
  rcases (splitColumns_cols [] [] (varColumns terms cols)).2.2.1 check h with none | ⟨b, hb, rfl⟩
  · cases none
  · exact ⟨b.2, rfl, mem_varColumns.mp hb⟩

theorem freeColumns_nodup (terms : List CTerm) (cols : List Nat) :
    ((freeColumns terms cols).1.map Prod.snd).Nodup :=
  (splitColumns_cols [] [] (varColumns terms cols)).2.2.2.2 List.nodup_nil

end Split

section Take

theorem takeBinds_of_notMem {row : Row} {binds : List Bind} {σ : Env} {v : Nat}
    (h : v ∉ binds.map Prod.snd) : binds.foldl (takeBind row) σ v = σ v := by
  induction binds generalizing σ with
  | nil => rfl
  | cons b rest ih =>
    rw [List.map_cons, List.mem_cons, not_or] at h
    rw [List.foldl_cons, ih h.2, takeBind, Function.update_of_ne h.1]

theorem takeBinds_of_mem {row : Row} {binds : List Bind} {σ : Env} {b : Bind}
    (once : (binds.map Prod.snd).Nodup) (mem : b ∈ binds) :
    binds.foldl (takeBind row) σ b.2 = row[b.1]? := by
  induction binds generalizing σ with
  | nil => cases mem
  | cons a rest ih =>
    rw [List.map_cons, List.nodup_cons] at once
    rw [List.foldl_cons]
    rcases List.mem_cons.mp mem with rfl | mem
    · rw [takeBinds_of_notMem once.1, takeBind, Function.update_self]
    · exact ih once.2 mem

theorem bind_unique {binds : List Bind} (once : (binds.map Prod.snd).Nodup) {a b : Bind}
    (ha : a ∈ binds) (hb : b ∈ binds) (eq : a.2 = b.2) : a = b :=
  List.inj_on_of_nodup_map once ha hb eq

variable {tables : DomainTables}

/-- A row meets the checks against a step's own binds when each repeated column holds what
its variable's first column does. -/
theorem fits_own {σ : Env} {binds : List Bind} {checks : List Check} {ws : List (Nat × Want)}
    {row : Row} (once : (binds.map Prod.snd).Nodup)
    (own : ∀ c ∈ checks, ∃ v, c.2 = .var v ∧ ∃ b ∈ binds, b.2 = v)
    (inRow : ∀ b ∈ binds, b.1 < row.length) (h : wants tables σ binds checks = some ws) :
    fits ws row = true ↔
      ∀ c ∈ checks, ∀ b ∈ binds, c.2 = .var b.2 → row[c.1]? = row[b.1]? := by
  induction checks generalizing ws with
  | nil =>
    cases h
    simp [fits]
  | cons c rest ih =>
    obtain ⟨v, hv, b, mem, rfl⟩ := own c List.mem_cons_self
    have found : (binds.find? fun e => e.2 == b.2) = some b := by
      cases eq : binds.find? fun e => e.2 == b.2 with
      | none => exact absurd (List.find?_eq_none.mp eq b mem) (by simp)
      | some e =>
        have same : e.2 = b.2 := by simpa using List.find?_some eq
        rw [bind_unique once (List.mem_of_find?_eq_some eq) mem same]
    unfold wants at h
    simp only [want, hv, found, Option.map_some] at h
    split at h
    · rename_i w ws' hw hws
      cases hw
      cases h
      have rest' := ih (fun c hc => own c (List.mem_cons_of_mem _ hc)) hws
      have at' : row[b.1]?.isSome = true := by
        simp [List.getElem?_eq_getElem (inRow b mem)]
      have head : fits ((c.1, .col b.1) :: ws') row = true ↔
          row[c.1]? = row[b.1]? ∧ fits ws' row = true := by
        simp only [fits, List.all_cons, at', Bool.true_and, Bool.and_eq_true, beq_iff_eq]
      rw [head, rest', List.forall_mem_cons]
      refine and_congr_left' ⟨fun eq e he same => ?_, fun all => all b mem hv⟩
      rw [hv, KeyPart.var.injEq] at same
      rw [bind_unique once he mem same.symm]
      exact eq
    · cases h

end Take

section Atom

variable {tables : DomainTables}

/-- What a step reads at its free columns extends the substitution to the columns'
variables. `cols` is the free columns, `terms` all of them. -/
theorem fits_free {σ : Env} {terms : List CTerm} {cols : List Nat} {row : Row}
    (width : ∀ c ∈ cols, c < row.length)
    {ws : List (Nat × Want)}
    (h : wants tables σ (freeColumns terms cols).1 (freeColumns terms cols).2 = some ws)
    (σ' : Env) :
    (fits ws row = true ∧ σ' = (freeColumns terms cols).1.foldl (takeBind row) σ) ↔
      (∀ c ∈ cols, ∀ v, terms[c]? = some (.var v) → σ' v = row[c]?) ∧
        ∀ v, (∀ c ∈ cols, terms[c]? ≠ some (.var v)) → σ' v = σ v := by
  obtain ⟨from', bound, own⟩ := freeColumns_spec terms cols
  have once := freeColumns_nodup terms cols
  rw [fits_own once own (fun b hb => width b.1 (from' b hb).1) h]
  constructor
  · rintro ⟨checks, rfl⟩
    refine ⟨fun c hc v ht => ?_, fun v none => takeBinds_of_notMem fun mem => ?_⟩
    · rcases mem_freeColumns hc ht with mem | mem
      · exact takeBinds_of_mem once mem
      · obtain ⟨b, hb, rfl⟩ := bound c hc v ht
        rw [takeBinds_of_mem once hb]
        exact (checks _ mem b hb rfl).symm
    · obtain ⟨b, hb, rfl⟩ := List.mem_map.mp mem
      exact none b.1 (from' b hb).1 (from' b hb).2
  · rintro ⟨cells, rest⟩
    refine ⟨fun c hc b hb same => ?_, funext fun v => ?_⟩
    · obtain ⟨v, eq, mem, ht⟩ := check_freeColumns hc
      rw [eq, KeyPart.var.injEq] at same
      subst same
      rw [← cells c.1 mem _ ht, ← cells b.1 (from' b hb).1 _ (from' b hb).2]
    · by_cases mem : v ∈ (freeColumns terms cols).1.map Prod.snd
      · obtain ⟨b, hb, rfl⟩ := List.mem_map.mp mem
        rw [takeBinds_of_mem once hb]
        exact cells b.1 (from' b hb).1 _ (from' b hb).2
      · rw [takeBinds_of_notMem mem]
        refine rest v fun c hc ht => mem ?_
        obtain ⟨b, hb, rfl⟩ := bound c hc v ht
        exact List.mem_map_of_mem hb

def KeyIs (tables : DomainTables) (σ : Env) (bound : Bound) (terms : List CTerm) (row : Row) :
    Prop :=
  ∀ (c : Nat) t v, terms[c]? = some t → isBound bound t = true → row[c]? = some v →
    TermIs tables σ t v

/-- One row of an atom: its bound columns agree and its free ones extend `σ`, just when it
is an instance of the atom under the extension. -/
theorem takes_iff {σ : Env} {bound : Bound} {terms : List CTerm} {cols : List Nat} {row : Row}
    (cols_iff : ∀ c, c ∈ cols ↔ c < row.length ∧ isBound bound (terms.getD c .wild) = false)
    (agree : ∀ v, Mentions terms v → (bound v = true ↔ (σ v).isSome = true))
    (past : ∀ (c : Nat) v, terms[c]? = some (.var v) → c < row.length ∨ bound v = true)
    (le : row.length ≤ terms.length) {ws : List (Nat × Want)}
    (h : wants tables σ (freeColumns terms cols).1 (freeColumns terms cols).2 = some ws)
    (σ' : Env) :
    (KeyIs tables σ bound terms row ∧ fits ws row = true ∧
        σ' = (freeColumns terms cols).1.foldl (takeBind row) σ) ↔
      Grows σ terms σ' ∧ RowIs tables σ' (terms.take row.length) row := by
  have isVar : ∀ {c : Nat} {v}, terms[c]? = some (.var v) →
      isBound bound (terms.getD c .wild) = bound v := isBound_of_getElem
  have free : ∀ c ∈ cols, ∀ v, terms[c]? = some (.var v) → σ v = none := by
    intro c hc v ht
    have unbound := ((cols_iff c).mp hc).2
    rw [isVar ht] at unbound
    have := agree v (List.mem_of_getElem? ht)
    rw [unbound] at this
    simpa using this
  rw [fits_free (fun c hc => ((cols_iff c).mp hc).1) h]
  constructor
  · rintro ⟨key, cells, rest⟩
    have keeps : ∀ v, (σ v).isSome = true → σ' v = σ v := by
      intro v hv
      refine rest v fun c hc ht => ?_
      rw [free c hc v ht] at hv
      cases hv
    refine ⟨⟨fun v mem => ?_, keeps, fun v no => ?_⟩, rowIs_iff.mpr ⟨by simp [le], ?_⟩⟩
    · cases hb : bound v with
      | true =>
        have some' := (agree v mem).mp hb
        rwa [keeps v some']
      | false =>
        obtain ⟨c, hc⟩ := List.mem_iff_getElem?.mp mem
        have lt := (past c v hc).resolve_right (by simp [hb])
        rw [cells c ((cols_iff c).mpr ⟨lt, (isVar hc).trans hb⟩) v hc,
          List.getElem?_eq_getElem lt]
        rfl
    · exact rest v fun c _ ht => no (List.mem_of_getElem? ht)
    · intro c t v ht hv
      have lt := (List.getElem?_eq_some_iff.mp hv).1
      rw [List.getElem?_take_of_lt lt] at ht
      cases hb : isBound bound t with
      | true => exact termIs_mono (key c t v ht hb hv) keeps
      | false =>
        cases t with
        | const k => cases hb
        | wild => trivial
        | var x =>
          show σ' x = some v
          rw [cells c ((cols_iff c).mpr ⟨lt, (isVar ht).trans hb⟩) x ht, hv]
  · rintro ⟨grows, is⟩
    obtain ⟨_, cells⟩ := rowIs_iff.mp is
    have cell : ∀ (c : Nat) t v, terms[c]? = some t → row[c]? = some v → TermIs tables σ' t v := by
      intro c t v ht hv
      refine cells c t v ?_ hv
      rw [List.getElem?_take_of_lt (List.getElem?_eq_some_iff.mp hv).1, ht]
    refine ⟨fun c t v ht hb hv => ?_, fun c hc v ht => ?_, fun v none => ?_⟩
    · have := cell c t v ht hv
      cases t with
      | const k => exact this
      | wild => trivial
      | var x =>
        have some' := (agree x (List.mem_of_getElem? ht)).mp hb
        show σ x = some v
        rw [← grows.keeps x some']
        exact this
    · have lt := ((cols_iff c).mp hc).1
      rw [List.getElem?_eq_getElem lt]
      exact cell c _ _ ht (List.getElem?_eq_getElem lt)
    · by_cases mem : Mentions terms v
      · cases hb : bound v with
        | true => exact grows.keeps v ((agree v mem).mp hb)
        | false =>
          obtain ⟨c, hc⟩ := List.mem_iff_getElem?.mp mem
          have lt := (past c v hc).resolve_right (by simp [hb])
          exact absurd hc (none c ((cols_iff c).mpr ⟨lt, (isVar hc).trans hb⟩))
      · exact grows.rest v mem

end Atom

end Glia.Rules
