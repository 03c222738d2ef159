import Glia.Rules.Analysis
import Glia.Rules.SipsReady

/-! Every rule of an accepted program is safe: the per-rule checks leave no variable of a
head, a negation or a comparison, and no `Must` column, that the body cannot bind. -/
namespace Glia.Rules

namespace Vars

/-- Slots are never taken back, and overflow is remembered. -/
structure Le (a b : Vars) : Prop where
  names : a.names <+: b.names
  overflow : b.overflow = false → a.overflow = false

theorem Le.refl (a : Vars) : a.Le a := ⟨List.prefix_rfl, fun h => h⟩

theorem Le.trans {a b c : Vars} (h : a.Le b) (h' : b.Le c) : a.Le c :=
  ⟨h.names.trans h'.names, fun o => h.overflow (h'.overflow o)⟩

theorem find_lt {a : Vars} {name : String} {v : Nat} (h : a.find name = some v) :
    v < a.names.length := by
  unfold find at h
  obtain ⟨lt, _⟩ := List.findIdx?_eq_some_iff_getElem.mp h
  exact lt

theorem Le.find {a b : Vars} (h : a.Le b) {name : String} {v : Nat}
    (hv : a.find name = some v) : b.find name = some v := by
  obtain ⟨more, eq⟩ := h.names
  unfold Vars.find at hv ⊢
  rw [← eq, List.findIdx?_append, hv]
  rfl

theorem le_id (vars : Vars) (name : String) : vars.Le (vars.id name).2 := by
  unfold id
  split
  · exact Le.refl vars
  · split
    · exact ⟨List.prefix_append _ _, fun h => h⟩
    · exact ⟨List.prefix_rfl, fun h => by cases h⟩

theorem find_id (vars : Vars) (name : String) (fits : (vars.id name).2.overflow = false) :
    (vars.id name).2.find name = some (vars.id name).1 := by
  unfold id at fits ⊢
  split
  · assumption
  · rename_i fresh
    split
    · unfold find at fresh ⊢
      rw [List.findIdx?_append, fresh]
      simp
    · rename_i full
      simp [fresh, full] at fits

theorem le_ids (vars : Vars) (names : List String) : vars.Le (vars.ids names).2 := by
  induction names generalizing vars with
  | nil => exact Le.refl vars
  | cons name rest ih => exact (le_id vars name).trans (ih _)

theorem find_ids (vars : Vars) (names : List String) {last : Vars}
    (later : (vars.ids names).2.Le last) (fits : last.overflow = false) :
    List.Forall₂ (fun name v => last.find name = some v) names (vars.ids names).1 := by
  induction names generalizing vars with
  | nil => exact .nil
  | cons name rest ih =>
    have after := (le_ids (vars.id name).2 rest).trans later
    exact .cons (after.find (find_id vars name (after.overflow fits))) (ih _ later)

end Vars

/-- `c` compiles `t` under the rule's variables. -/
def TermIn (vars : Vars) : Term → CTerm → Prop
  | .var name, c => ∃ v, c = .var v ∧ vars.find name = some v
  | .wild, c => c = .wild
  | .str _, c => ∃ k, c = .const k
  | .int _, c => ∃ k, c = .const k

theorem le_plainTerm (vars : Vars) (t : Term) : vars.Le (plainTerm vars t).2 := by
  cases t with
  | var name => exact Vars.le_id vars name
  | wild => exact Vars.Le.refl vars
  | str s => exact Vars.Le.refl vars
  | int i => exact Vars.Le.refl vars

theorem plainTerm_in (vars : Vars) (t : Term) {last : Vars}
    (later : (plainTerm vars t).2.Le last) (fits : last.overflow = false) :
    TermIn last t (plainTerm vars t).1 := by
  cases t with
  | var name =>
    exact ⟨_, rfl, later.find (Vars.find_id vars name (later.overflow fits))⟩
  | wild => rfl
  | str s => exact ⟨_, rfl⟩
  | int i => exact ⟨_, rfl⟩

theorem le_plainTerms (vars : Vars) (ts : List Term) : vars.Le (plainTerms vars ts).2 := by
  induction ts generalizing vars with
  | nil => exact Vars.Le.refl vars
  | cons t rest ih => exact (le_plainTerm vars t).trans (ih _)

section Atoms

variable (catalog : Catalog) (preds : List PredInfo) (p : PredId)

theorem typedTerm_vars (col : Nat) (sig : String) (vars : Vars) (t : Term) :
    (typedTerm catalog preds p col sig vars t).1.2 = (plainTerm vars t).2 := by
  cases t with
  | var name => rfl
  | wild => rfl
  | int i => rfl
  | str s =>
    unfold typedTerm
    simp only
    split
    · rfl
    · rfl
    · rfl
    · split <;> rfl
    · rfl
    · rfl

theorem typedTerm_in (col : Nat) (sig : String) (vars : Vars) (t : Term) {last : Vars}
    (later : (typedTerm catalog preds p col sig vars t).1.2.Le last)
    (fits : last.overflow = false) :
    TermIn last t (typedTerm catalog preds p col sig vars t).1.1 := by
  rw [typedTerm_vars] at later
  have plain := plainTerm_in vars t later fits
  cases t with
  | var name => exact plain
  | wild => exact plain
  | int i => exact plain
  | str s =>
    unfold typedTerm
    simp only
    split
    · exact plain
    · exact plain
    · exact plain
    · split
      · exact ⟨_, rfl⟩
      · exact plain
    · exact plain
    · exact plain

theorem typedTerm_const {col : Nat} {sig : String} {vars : Vars} {t : Term}
    (none : (typedTerm catalog preds p col sig vars t).2 = [])
    (req : predReq catalog preds p col = some .const) :
    ∃ k, (typedTerm catalog preds p col sig vars t).1.1 = .const k := by
  cases t with
  | var name => simp [typedTerm, req] at none
  | wild => simp [typedTerm, req] at none
  | int i => exact ⟨_, rfl⟩
  | str s =>
    unfold typedTerm
    simp only
    split
    · exact ⟨_, rfl⟩
    · exact ⟨_, rfl⟩
    · exact ⟨_, rfl⟩
    · split <;> exact ⟨_, rfl⟩
    · exact ⟨_, rfl⟩
    · exact ⟨_, rfl⟩

theorem le_typedTerms (sig : String) (col : Nat) (vars : Vars) (ts : List Term) :
    vars.Le (typedTerms catalog preds p sig col vars ts).1.2 := by
  induction ts generalizing vars col with
  | nil => exact Vars.Le.refl vars
  | cons t rest ih =>
    refine Vars.Le.trans ?_ (ih _ _)
    rw [typedTerm_vars]
    exact le_plainTerm vars t

theorem typedTerms_in (sig : String) (col : Nat) (vars : Vars) (ts : List Term) {last : Vars}
    (later : (typedTerms catalog preds p sig col vars ts).1.2.Le last)
    (fits : last.overflow = false) :
    List.Forall₂ (TermIn last) ts (typedTerms catalog preds p sig col vars ts).1.1 := by
  induction ts generalizing vars col with
  | nil => exact .nil
  | cons t rest ih =>
    have after := (le_typedTerms catalog preds p sig (col + 1) _ rest).trans later
    exact .cons (typedTerm_in catalog preds p col sig vars t after fits) (ih _ _ later)

theorem typedTerms_const {sig : String} {col : Nat} {vars : Vars} {ts : List Term}
    (none : (typedTerms catalog preds p sig col vars ts).2 = []) {c : Nat} {t : CTerm}
    (ht : (typedTerms catalog preds p sig col vars ts).1.1[c]? = some t)
    (req : predReq catalog preds p (col + c) = some .const) : ∃ k, t = .const k := by
  induction ts generalizing vars col c with
  | nil => simp [typedTerms] at ht
  | cons s rest ih =>
    simp only [typedTerms, List.append_eq_nil_iff] at none ht
    cases c with
    | zero =>
      simp only [List.getElem?_cons_zero, Option.some.injEq] at ht
      subst ht
      exact typedTerm_const catalog preds p none.1 req
    | succ c =>
      rw [List.getElem?_cons_succ] at ht
      exact ih none.2 ht (by rwa [show col + 1 + c = col + (c + 1) by omega])

end Atoms

theorem byName_lt {preds : List PredInfo} {name : String} {p : PredId}
    (h : byName preds name = some p) : p < preds.length := by
  unfold byName at h
  exact (List.findIdx?_eq_some_iff_getElem.mp h).1

def DeclaredAs (catalog : Catalog) (i : PredInfo) : Prop :=
  match i.kind with
  | .idb => True
  | .edb _ => ∃ d ∈ catalog.edb, d.name = i.name ∧ d.cols.length = i.arity
  | .builtin b => ∃ d, catalog.builtins[b]? = some d ∧ d.name = i.name ∧ d.cols.length = i.arity

/-- What resolving a name leaves: the predicates only grow, each as declared, the id found
is one of them with the arity used, and a name with no predicate raises an error. -/
structure Resolved.Spec (catalog : Catalog) (preds : List PredInfo) (arity : Nat) (r : Resolved) :
    Prop where
  grows : preds <+: r.preds
  declared : (∀ i ∈ preds, DeclaredAs catalog i) → ∀ i ∈ r.preds, DeclaredAs catalog i
  arity : ∀ p, r.pred = some p → (∀ i ∈ preds, DeclaredAs catalog i) →
    r.preds[p]?.map PredInfo.arity = some arity
  lt : ∀ p, r.pred = some p → p < r.preds.length
  errors : r.pred = none → r.errors ≠ []

theorem spec_known {catalog : Catalog} {preds : List PredInfo} {p arity : Nat}
    (lt : p < preds.length)
    (h : (∀ i ∈ preds, DeclaredAs catalog i) → preds[p]?.map PredInfo.arity = some arity) :
    Resolved.Spec catalog preds arity ⟨preds, some p, []⟩ where
  grows := List.prefix_rfl
  declared h := h
  arity := fun _ eq => by cases eq; exact h
  lt := fun _ eq => by cases eq; exact lt
  errors := fun eq => by cases eq

theorem spec_fresh {catalog : Catalog} (preds : List PredInfo) {i : PredInfo} {arity : Nat}
    (h : DeclaredAs catalog i) (hi : i.arity = arity) :
    Resolved.Spec catalog preds arity ⟨preds ++ [i], some preds.length, []⟩ where
  grows := List.prefix_append _ _
  declared all := by
    intro j hj
    rcases List.mem_append.mp hj with hj | hj
    · exact all j hj
    · cases List.mem_singleton.mp hj
      exact h
  arity := fun _ eq => by cases eq; simp [hi]
  lt := fun _ eq => by cases eq; simp
  errors := fun eq => by cases eq

theorem spec_unresolved (catalog : Catalog) (preds : List PredInfo) (arity : Nat)
    (message : String) : Resolved.Spec catalog preds arity ⟨preds, none, [message]⟩ where
  grows := List.prefix_rfl
  declared h := h
  arity := fun _ eq => by cases eq
  lt := fun _ eq => by cases eq
  errors := fun _ => by simp

theorem resolve_spec (catalog : Catalog) (nIdb : Nat) (preds : List PredInfo) (a : Atom) :
    (resolve catalog nIdb preds a).Spec catalog preds a.args.length := by
  unfold resolve
  simp only
  split
  · rename_i id known
    have lt := byName_lt known
    split
    · rename_i same
      exact spec_known lt fun _ => by
        simpa [List.getElem?_eq_getElem lt] using same
    · exact spec_unresolved _ _ _ _
  · split
    · rename_i d found
      have mem := List.mem_of_find?_eq_some found
      have name := List.find?_some found
      simp only [beq_iff_eq] at name
      have declared : DeclaredAs catalog
          (newPred a.pred d.1.cols.length (.edb (EdbPred.of d.2 a.pred)) false) :=
        ⟨d.1, List.fst_mem_of_mem_zipIdx mem, name, rfl⟩
      split
      · rename_i same
        exact spec_fresh preds declared same
      · have fresh := spec_fresh preds declared rfl
        exact ⟨fresh.grows, fresh.declared, fun _ eq => (nomatch eq), fun _ eq => (nomatch eq),
          fun _ => by simp⟩
    · split
      · rename_i d found
        have mem := List.mem_of_find?_eq_some found
        have arity := List.find?_some found
        simp only [beq_iff_eq] at arity
        have at' : catalog.builtins[d.2]? = some d.1 :=
          List.mem_zipIdx_iff_getElem?.mp (List.mem_filter.mp mem).1
        split
        · exact spec_unresolved _ _ _ _
        · unfold builtinPred
          split
          · rename_i id known
            obtain ⟨lt, kind, _⟩ := List.findIdx?_eq_some_iff_getElem.mp known
            refine spec_known lt fun all => ?_
            have := all preds[id] (List.getElem_mem lt)
            simp only [beq_iff_eq] at kind
            simp only [DeclaredAs, kind, at', Option.some.injEq, exists_eq_left'] at this
            rw [List.getElem?_eq_getElem lt, Option.map_some, ← this.2, arity]
          · exact spec_fresh preds ⟨d.1, at', rfl, rfl⟩ arity
      · split
        · exact spec_unresolved _ _ _ _
        · exact spec_unresolved _ _ _ _

theorem predReq_isPrefix {catalog : Catalog} {preds more : List PredInfo} (h : preds <+: more)
    {p : PredId} (lt : p < preds.length) (c : Nat) :
    predReq catalog more p c = predReq catalog preds p c := by
  obtain ⟨rest, rfl⟩ := h
  unfold predReq
  rw [List.getElem?_append_left lt]

/-- A compiled literal of a body with no error: its predicate is known, its terms compile
the source's, and its `Const` columns hold constants. -/
def LitIn (catalog : Catalog) (preds : List PredInfo) (vars : Vars) : Literal → CLit → Prop
  | .pos a, .pos p terms =>
    preds[p]?.map PredInfo.arity = some a.args.length ∧
      List.Forall₂ (TermIn vars) a.args terms ∧
      ∀ c t, terms[c]? = some t → predReq catalog preds p c = some .const → ∃ k, t = .const k
  | .neg a, .neg p terms =>
    preds[p]?.map PredInfo.arity = some a.args.length ∧
      List.Forall₂ (TermIn vars) a.args terms ∧
      (∀ c t, terms[c]? = some t → predReq catalog preds p c = some .const → ∃ k, t = .const k) ∧
      ∀ c, terms[c]? = some .wild → predReq catalog preds p c ≠ some .must
  | .cmp c, .cmp op l r => op = c.op ∧ TermIn vars c.left l ∧ TermIn vars c.right r
  | _, _ => False

theorem lt_of_arity {preds : List PredInfo} {p : PredId} {n : Nat}
    (h : preds[p]?.map PredInfo.arity = some n) : p < preds.length := by
  obtain ⟨i, hi, _⟩ := Option.map_eq_some_iff.mp h
  exact (List.getElem?_eq_some_iff.mp hi).1

theorem arity_isPrefix {preds more : List PredInfo} (h : preds <+: more) {p : PredId} {n : Nat}
    (known : preds[p]?.map PredInfo.arity = some n) : more[p]?.map PredInfo.arity = some n := by
  obtain ⟨rest, rfl⟩ := h
  rwa [List.getElem?_append_left (lt_of_arity known)]

theorem LitIn.extend {catalog : Catalog} {preds more : List PredInfo} (h : preds <+: more)
    {vars : Vars} {lit : Literal} {cl : CLit} (hl : LitIn catalog preds vars lit cl) :
    LitIn catalog more vars lit cl := by
  cases lit with
  | pos a =>
    cases cl with
    | pos p terms =>
      obtain ⟨arity, terms, const⟩ := hl
      refine ⟨arity_isPrefix h arity, terms, fun c t ht req => const c t ht ?_⟩
      rwa [predReq_isPrefix h (lt_of_arity arity)] at req
    | neg p terms => exact hl
    | cmp op l r => exact hl
  | neg a =>
    cases cl with
    | pos p terms => exact hl
    | neg p terms =>
      obtain ⟨arity, terms, const, must⟩ := hl
      refine ⟨arity_isPrefix h arity, terms, fun c t ht req => const c t ht ?_, fun c ht => ?_⟩
      · rwa [predReq_isPrefix h (lt_of_arity arity)] at req
      · rw [predReq_isPrefix h (lt_of_arity arity)]
        exact must c ht
    | cmp op l r => exact hl
  | cmp c =>
    cases cl with
    | pos p terms => exact hl
    | neg p terms => exact hl
    | cmp op l r => exact hl

theorem negatedMustWild_eq_nil {catalog : Catalog} {preds : List PredInfo} {p : PredId}
    {args : List Term} (none : negatedMustWild catalog preds p args = []) {c : Nat}
    (wild : args[c]? = some .wild) : predReq catalog preds p c ≠ some .must := by
  intro req
  unfold predReq at req
  obtain ⟨info, hi, req⟩ := Option.bind_eq_some_iff.mp req
  unfold negatedMustWild at none
  simp only [hi, List.map_eq_nil_iff, List.filter_eq_nil_iff] at none
  have := none (.wild, c) (List.mem_zipIdx_iff_getElem?.mpr wild)
  simp [req] at this

theorem le_bodyLiteral (catalog : Catalog) (nIdb : Nat) (preds : List PredInfo) (vars : Vars)
    (lit : Literal) : vars.Le (bodyLiteral catalog nIdb preds vars lit).vars := by
  cases lit with
  | cmp c => exact (le_plainTerm vars c.left).trans (le_plainTerm _ c.right)
  | _ =>
    unfold bodyLiteral bodyAtom
    simp only
    split
    · exact le_typedTerms _ _ _ _ _ _ _
    · exact le_plainTerms _ _

theorem bodyLiteral_isPrefix (catalog : Catalog) (nIdb : Nat) (preds : List PredInfo) (vars : Vars)
    (lit : Literal) : preds <+: (bodyLiteral catalog nIdb preds vars lit).preds := by
  cases lit with
  | cmp c => exact List.prefix_rfl
  | _ =>
    unfold bodyLiteral bodyAtom
    simp only
    split <;> exact (resolve_spec catalog nIdb preds _).grows

theorem bodyLiteral_declared {catalog : Catalog} {nIdb : Nat} {preds : List PredInfo} {vars : Vars}
    {lit : Literal} (declared : ∀ i ∈ preds, DeclaredAs catalog i) :
    ∀ i ∈ (bodyLiteral catalog nIdb preds vars lit).preds, DeclaredAs catalog i := by
  cases lit with
  | cmp c => exact declared
  | _ =>
    unfold bodyLiteral bodyAtom
    simp only
    split <;> exact (resolve_spec catalog nIdb preds _).declared declared

theorem bodyLiteral_in {catalog : Catalog} {nIdb : Nat} {preds : List PredInfo} {vars : Vars}
    {lit : Literal} (declared : ∀ i ∈ preds, DeclaredAs catalog i)
    (none : (bodyLiteral catalog nIdb preds vars lit).errors = []) {last : Vars}
    (later : (bodyLiteral catalog nIdb preds vars lit).vars.Le last)
    (fits : last.overflow = false) :
    (bodyLiteral catalog nIdb preds vars lit).loose = [] ∧
      List.Forall₂ (LitIn catalog (bodyLiteral catalog nIdb preds vars lit).preds last) [lit]
        (bodyLiteral catalog nIdb preds vars lit).lits := by
  cases lit with
  | cmp c =>
    refine ⟨rfl, .cons ⟨rfl, ?_, plainTerm_in _ c.right later fits⟩ .nil⟩
    exact plainTerm_in vars c.left ((le_plainTerm _ c.right).trans later) fits
  | pos a =>
    unfold bodyLiteral bodyAtom at none later ⊢
    simp only at none later ⊢
    split at none
    · rename_i p hp
      simp only [hp] at later ⊢
      simp only [if_true, List.append_nil, List.append_eq_nil_iff] at none
      refine ⟨trivial, .cons ⟨(resolve_spec catalog nIdb preds a).arity p hp declared, typedTerms_in _ _ _ _ _ _ _ later fits, ?_⟩ .nil⟩
      intro c t ht req
      exact typedTerms_const catalog _ p none.2 ht (by rwa [Nat.zero_add])
    · rename_i hp
      exact absurd none ((resolve_spec catalog nIdb preds a).errors hp)
  | neg a =>
    unfold bodyLiteral bodyAtom at none later ⊢
    simp only at none later ⊢
    split at none
    · rename_i p hp
      simp only [hp] at later ⊢
      simp only [Bool.false_eq_true, if_false, List.append_eq_nil_iff] at none
      have terms := typedTerms_in catalog _ p a.signature 0 vars a.args later fits
      refine ⟨trivial, .cons ⟨(resolve_spec catalog nIdb preds a).arity p hp declared, terms, ?_, ?_⟩ .nil⟩
      · intro c t ht req
        exact typedTerms_const catalog _ p none.1.2 ht (by rwa [Nat.zero_add])
      · intro c wild
        refine negatedMustWild_eq_nil none.2 ?_
        have lt : c < a.args.length := by
          rw [terms.length_eq]
          exact (List.getElem?_eq_some_iff.mp wild).1
        have at' := terms.get lt (by rw [← terms.length_eq]; exact lt)
        obtain ⟨lt', eq⟩ := List.getElem?_eq_some_iff.mp wild
        simp only [List.get_eq_getElem, eq] at at'
        rw [List.getElem?_eq_getElem lt]
        cases h : a.args[c] with
        | wild => rfl
        | var name =>
          rw [h] at at'
          obtain ⟨v, hv, _⟩ := at'
          cases hv
        | str s =>
          rw [h] at at'
          obtain ⟨k, hk⟩ := at'
          cases hk
        | int i =>
          rw [h] at at'
          obtain ⟨k, hk⟩ := at'
          cases hk
    · rename_i hp
      exact absurd none ((resolve_spec catalog nIdb preds a).errors hp)

theorem le_bodyLiterals (catalog : Catalog) (nIdb : Nat) (preds : List PredInfo) (vars : Vars)
    (lits : List Literal) : vars.Le (bodyLiterals catalog nIdb preds vars lits).vars := by
  induction lits generalizing preds vars with
  | nil => exact Vars.Le.refl vars
  | cons lit rest ih => exact (le_bodyLiteral catalog nIdb preds vars lit).trans (ih _ _)

theorem bodyLiterals_isPrefix (catalog : Catalog) (nIdb : Nat) (preds : List PredInfo) (vars : Vars)
    (lits : List Literal) : preds <+: (bodyLiterals catalog nIdb preds vars lits).preds := by
  induction lits generalizing preds vars with
  | nil => exact List.prefix_rfl
  | cons lit rest ih => exact (bodyLiteral_isPrefix catalog nIdb preds vars lit).trans (ih _ _)

theorem bodyLiterals_declared {catalog : Catalog} {nIdb : Nat} {preds : List PredInfo}
    {vars : Vars} {lits : List Literal} (declared : ∀ i ∈ preds, DeclaredAs catalog i) :
    ∀ i ∈ (bodyLiterals catalog nIdb preds vars lits).preds, DeclaredAs catalog i := by
  induction lits generalizing preds vars with
  | nil => exact declared
  | cons lit rest ih => exact ih (bodyLiteral_declared declared)

theorem bodyLiterals_in {catalog : Catalog} {nIdb : Nat} {preds : List PredInfo} {vars : Vars}
    {lits : List Literal} (declared : ∀ i ∈ preds, DeclaredAs catalog i)
    (none : (bodyLiterals catalog nIdb preds vars lits).errors = [])
    {last : Vars} (later : (bodyLiterals catalog nIdb preds vars lits).vars.Le last)
    (fits : last.overflow = false) :
    (bodyLiterals catalog nIdb preds vars lits).loose = [] ∧
      List.Forall₂ (LitIn catalog (bodyLiterals catalog nIdb preds vars lits).preds last) lits
        (bodyLiterals catalog nIdb preds vars lits).lits := by
  induction lits generalizing preds vars with
  | nil => exact ⟨rfl, .nil⟩
  | cons lit rest ih =>
    unfold bodyLiterals at none later ⊢
    simp only [List.append_eq_nil_iff] at none later ⊢
    have head := bodyLiteral_in declared none.1 ((le_bodyLiterals _ _ _ _ rest).trans later) fits
    have tail := ih (bodyLiteral_declared declared) none.2 later
    refine ⟨⟨head.1, tail.1⟩, ?_⟩
    have grows := bodyLiterals_isPrefix catalog nIdb (bodyLiteral catalog nIdb preds vars lit).preds
      (bodyLiteral catalog nIdb preds vars lit).vars rest
    have grown := head.2.imp fun _ _ h => h.extend grows
    simpa using List.rel_append grown tail.2

theorem le_headArgs (vars : Vars) (args : List HeadArg) : vars.Le (headArgs vars args).vars := by
  induction args generalizing vars with
  | nil => exact Vars.Le.refl vars
  | cons arg rest ih =>
    cases arg with
    | term t => exact (le_plainTerm vars t).trans (ih _)
    | agg a => exact (Vars.le_ids vars a.vars).trans (ih _)

def HeadArg.names : HeadArg → List String
  | .term (.var name) => [name]
  | .term _ => []
  | .agg a => a.vars

/-- Every variable the compiled head reads is a name of the source's. -/
theorem headArgs_reads (vars : Vars) (args : List HeadArg) {last : Vars}
    (later : (headArgs vars args).vars.Le last) (fits : last.overflow = false) {v : Nat}
    (h : Mentions (headArgs vars args).terms v ∨ ∃ agg ∈ (headArgs vars args).aggs, v ∈ agg.2) :
    ∃ name ∈ args.flatMap HeadArg.names, last.find name = some v := by
  induction args generalizing vars with
  | nil => simp [headArgs, Mentions] at h
  | cons arg rest ih =>
    cases arg with
    | term t =>
      have after := (le_headArgs (plainTerm vars t).2 rest).trans later
      have term := plainTerm_in vars t after fits
      unfold headArgs at h
      simp only [Mentions, List.mem_cons] at h
      rcases h with (eq | mem) | agg
      · cases t with
        | var name =>
          obtain ⟨w, hw, found⟩ := term
          rw [hw] at eq
          cases eq
          exact ⟨name, by simp [HeadArg.names], found⟩
        | wild => rw [term] at eq; cases eq
        | str s => obtain ⟨k, hk⟩ := term; rw [hk] at eq; cases eq
        | int i => obtain ⟨k, hk⟩ := term; rw [hk] at eq; cases eq
      · obtain ⟨name, mem, found⟩ := ih _ later (.inl mem)
        exact ⟨name, by simp only [List.flatMap_cons]; exact List.mem_append_right _ mem, found⟩
      · obtain ⟨name, mem, found⟩ := ih _ later (.inr agg)
        exact ⟨name, by simp only [List.flatMap_cons]; exact List.mem_append_right _ mem, found⟩
    | agg a =>
      have after := (le_headArgs (vars.ids a.vars).2 rest).trans later
      have names := Vars.find_ids vars a.vars after fits
      unfold headArgs at h
      simp only [Mentions, List.mem_cons, reduceCtorEq, false_or, exists_eq_or_imp] at h
      rcases h with mem | mem | agg
      · obtain ⟨name, mem, found⟩ := ih _ later (.inl mem)
        exact ⟨name, by simp only [List.flatMap_cons]; exact List.mem_append_right _ mem, found⟩
      · obtain ⟨i, lt, eq⟩ := List.getElem_of_mem mem
        have lt' : i < a.vars.length := by rwa [names.length_eq]
        refine ⟨a.vars[i], by simp [HeadArg.names], ?_⟩
        simpa [eq] using names.get lt' lt
      · obtain ⟨name, mem, found⟩ := ih _ later (.inr agg)
        exact ⟨name, by simp only [List.flatMap_cons]; exact List.mem_append_right _ mem, found⟩

section Checks

theorem unboundErrors_eq_nil {unbound : String → Bool} {seen : List String}
    {names : List (String × String)} (none : unboundErrors unbound seen names = [])
    (before : ∀ name ∈ seen, unbound name = false) :
    ∀ entry ∈ names, unbound entry.1 = false := by
  induction names generalizing seen with
  | nil => simp
  | cons entry rest ih =>
    obtain ⟨name, message⟩ := entry
    unfold unboundErrors at none
    split at none
    · cases none
    · rename_i skip
      intro e he
      rcases List.mem_cons.mp he with rfl | he
      · simp only [Bool.and_eq_true, Bool.not_eq_true', not_and, Bool.not_eq_false,
          List.contains_iff_mem] at skip
        by_contra free
        simp only [Bool.not_eq_false] at free
        rw [before name (skip free)] at free
        cases free
      · exact ih none before e he

theorem headNames_fst (sig : String) (args : List HeadArg) :
    (headNames sig args).map Prod.fst = args.flatMap HeadArg.names := by
  induction args with
  | nil => rfl
  | cons arg rest ih =>
    cases arg with
    | term t => cases t <;> simp [headNames, HeadArg.names, ih]
    | agg a =>
      simp only [headNames, List.map_append, List.map_map, ih, List.flatMap_cons, HeadArg.names]
      congr 1
      exact List.map_id a.vars

theorem comparisonErrors_eq_nil {unbound : String → Bool} {seen : List String}
    {ts : List Term} (none : comparisonErrors unbound seen ts = [])
    (before : ∀ name ∈ seen, unbound name = false) :
    ∀ t ∈ ts, t ≠ .wild ∧ ∀ name, t = .var name → unbound name = false := by
  induction ts generalizing seen with
  | nil => simp
  | cons t rest ih =>
    intro s hs
    cases t with
    | var name =>
      unfold comparisonErrors at none
      split at none
      · cases none
      · rename_i skip
        rcases List.mem_cons.mp hs with rfl | hs
        · refine ⟨by simp, ?_⟩
          rintro _ ⟨⟩
          simp only [Bool.and_eq_true, Bool.not_eq_true', not_and, Bool.not_eq_false,
            List.contains_iff_mem] at skip
          by_contra free
          simp only [Bool.not_eq_false] at free
          rw [before name (skip free)] at free
          cases free
        · exact ih none before s hs
    | wild => simp [comparisonErrors] at none
    | str v =>
      rcases List.mem_cons.mp hs with rfl | hs
      · exact ⟨by simp, by simp⟩
      · exact ih none before s hs
    | int i =>
      rcases List.mem_cons.mp hs with rfl | hs
      · exact ⟨by simp, by simp⟩
      · exact ih none before s hs

end Checks

section Saturation

variable {catalog : Catalog} {preds : List PredInfo}

/-- The order's own bindings stay inside any saturated set, and every positive literal it
passes can run there. -/
theorem binding_saturated {body : List CLit} {bound : Bound}
    (sat : Saturated catalog preds body bound)
    (consts : ∀ p terms, .pos p terms ∈ body → ∀ c t, terms[c]? = some t →
      predReq catalog preds p c = some .const → ∃ k, t = .const k)
    {start : Bound} (le : start.Le bound) {order : List Nat}
    (none : bindingErrors catalog preds body start order = []) :
    ∀ i ∈ order, ∀ p terms, body[i]? = some (.pos p terms) →
      runnable catalog preds bound p terms = true := by
  induction order generalizing start with
  | nil => simp
  | cons i rest ih =>
    simp only [bindingErrors, List.append_eq_nil_iff] at none
    have runs : ∀ p terms, body[i]? = some (.pos p terms) →
        runnable catalog preds bound p terms = true := by
      intro p terms hi
      rw [runnable_iff]
      intro c t ht req
      rcases req with req | req
      · refine isBound_mono le ?_
        have errors := none.1
        simp only [hi, mustErrors] at errors
        unfold predReq at req
        obtain ⟨info, hinfo, req⟩ := Option.bind_eq_some_iff.mp req
        simp only [hinfo, List.map_eq_nil_iff, List.filter_eq_nil_iff] at errors
        have := errors (t, c) (List.mem_zipIdx_iff_getElem?.mpr ht)
        simpa [req] using this
      · obtain ⟨k, rfl⟩ := consts p terms (List.mem_of_getElem? hi) c t ht req
        rfl
    have le' : (bindAt body start i).Le bound := by
      unfold bindAt
      split
      · rename_i lit hi
        intro v hv
        cases lit with
        | pos p terms =>
          simp only [bindLiteral, markAll_apply] at hv
          rcases hv with hv | hv
          · exact le v hv
          · exact sat.atom p terms (List.mem_of_getElem? hi) (runs p terms hi) v hv
        | neg p terms => exact le v hv
        | cmp op l r =>
          cases op with
          | eq =>
            simp only [bindLiteral] at hv
            cases hl : isBound start l <;> cases hr : isBound start r <;>
              simp only [hl, hr, markTerm_apply] at hv
            · exact le v hv
            · rcases hv with hv | hv
              · exact le v hv
              · exact sat.left l r (List.mem_of_getElem? hi) (isBound_mono le hr) v hv
            · rcases hv with hv | hv
              · exact le v hv
              · exact sat.right l r (List.mem_of_getElem? hi) (isBound_mono le hl) v hv
            · exact le v hv
          | _ => exact le v hv
      · exact le
    intro j hj p terms hb
    rcases List.mem_cons.mp hj with rfl | hj
    · exact runs p terms hb
    · exact ih le' none.2 j hj p terms hb

theorem assignSweep_le {body lits : List CLit} {bound start : Bound}
    (sat : Saturated catalog preds body bound) (sub : ∀ lit ∈ lits, lit ∈ body)
    (le : start.Le bound) : (assignSweep start lits).Le bound := by
  induction lits generalizing start with
  | nil => exact le
  | cons lit rest ih =>
    have sub' := fun l hl => sub l (List.mem_cons_of_mem _ hl)
    cases lit with
    | pos p terms => exact ih sub' le
    | neg p terms => exact ih sub' le
    | cmp op l r =>
      cases op with
      | eq =>
        have mem := sub _ List.mem_cons_self
        have fromRight : ∀ a : Bound, a.Le bound →
            (if l.isVar && !isBound a l && isBound a r then markTerm a l else a).Le bound := by
          intro a ha
          split
          · rename_i cond
            simp only [Bool.and_eq_true] at cond
            intro v hv
            rcases (markTerm_apply a l v).mp hv with hv | hv
            · exact ha v hv
            · exact sat.left l r mem (isBound_mono ha cond.2) v hv
          · exact ha
        have fromLeft : ∀ a : Bound, a.Le bound →
            (if r.isVar && !isBound a r && isBound a l then markTerm a r else a).Le bound := by
          intro a ha
          split
          · rename_i cond
            simp only [Bool.and_eq_true] at cond
            intro v hv
            rcases (markTerm_apply a r v).mp hv with hv | hv
            · exact ha v hv
            · exact sat.right l r mem (isBound_mono ha cond.2) v hv
          · exact ha
        exact ih sub' (fromLeft _ (fromRight start le))
      | _ => exact ih sub' le

theorem assignClosure_le {body : List CLit} {bound start : Bound}
    (sat : Saturated catalog preds body bound) (le : start.Le bound) (fuel : Nat) :
    (assignClosure fuel start body).Le bound := by
  induction fuel generalizing start with
  | zero => exact le
  | succ fuel ih => exact ih (assignSweep_le sat (fun _ h => h) le)

theorem safeVars_le {cr : CRule} {bound : Bound} (sat : Saturated catalog preds cr.body bound)
    (runs : ∀ p terms, .pos p terms ∈ cr.body → runnable catalog preds bound p terms = true) :
    (safeVars catalog preds cr []).Le bound := by
  refine assignClosure_le sat (fun v hv => ?_) _
  simp only [List.nil_append, Bool.and_eq_true, List.contains_iff_mem, List.mem_flatMap] at hv
  obtain ⟨_, lit, mem, hv⟩ := hv
  cases lit with
  | pos p terms =>
    refine sat.atom p terms mem (runs p terms mem) v ?_
    simp only [bindsMay, List.mem_filterMap, Prod.exists, List.mem_zipIdx_iff_getElem?] at hv
    obtain ⟨t, c, ht, hv⟩ := hv
    split at hv
    · cases hv
      exact List.mem_of_getElem? ht
    · cases hv
      exact List.mem_of_getElem? ht
    · cases hv
  | neg p terms => simp [bindsMay] at hv
  | cmp op l r => simp [bindsMay] at hv

end Saturation

theorem mentions_find {vars : Vars} {args : List Term} {terms : List CTerm}
    (h : List.Forall₂ (TermIn vars) args terms) {v : Nat} (mem : Mentions terms v) :
    ∃ name, Term.var name ∈ args ∧ vars.find name = some v := by
  induction h with
  | nil => cases mem
  | @cons t c _ _ one _ ih =>
    rcases List.mem_cons.mp mem with eq | mem
    · cases t with
      | var name =>
        obtain ⟨w, hw, found⟩ := one
        rw [hw] at eq
        cases eq
        exact ⟨name, List.mem_cons_self, found⟩
      | wild => rw [one] at eq; cases eq
      | str s => obtain ⟨k, hk⟩ := one; rw [hk] at eq; cases eq
      | int i => obtain ⟨k, hk⟩ := one; rw [hk] at eq; cases eq
    · obtain ⟨name, hn, found⟩ := ih mem
      exact ⟨name, List.mem_cons_of_mem _ hn, found⟩

theorem isBound_of_termIn {vars : Vars} {bound : Bound} {t : Term} {c : CTerm}
    (h : TermIn vars t c) (notWild : t ≠ .wild)
    (names : ∀ name, t = .var name → ∀ v, vars.find name = some v → bound v = true) :
    isBound bound c = true := by
  cases t with
  | var name =>
    obtain ⟨v, rfl, found⟩ := h
    exact names name rfl v found
  | wild => exact absurd rfl notWild
  | str s => obtain ⟨k, rfl⟩ := h; rfl
  | int i => obtain ⟨k, rfl⟩ := h; rfl

theorem exists_of_mem_right {α β : Type*} {R : α → β → Prop} {l : List α} {m : List β}
    (h : List.Forall₂ R l m) {b : β} (mem : b ∈ m) : ∃ a ∈ l, R a b := by
  induction h with
  | nil => cases mem
  | cons one _ ih =>
    rcases List.mem_cons.mp mem with rfl | mem
    · exact ⟨_, List.mem_cons_self, one⟩
    · obtain ⟨a, ha, hr⟩ := ih mem
      exact ⟨a, List.mem_cons_of_mem _ ha, hr⟩

section Rule

variable {catalog : Catalog} {preds : List PredInfo} {rule : Rule} {cr : CRule} {vars : Vars}

theorem bound_of_safe {unbound : Bound} {name : String}
    (h : (match vars.find name with | some v => !unbound v | none => false) = false) {v : Nat}
    (found : vars.find name = some v) : unbound v = true := by
  simpa [found] using h

structure Checked (catalog : Catalog) (preds : List PredInfo) (rule : Rule) (cr : CRule)
    (vars : Vars) : Prop where
  nvars : cr.nvars = vars.names.length
  head : ∀ v, cr.HeadReads v →
    ∃ name ∈ rule.head.args.flatMap HeadArg.names, vars.find name = some v
  lits : List.Forall₂ (LitIn catalog preds vars) rule.body cr.body
  safety : safety catalog preds rule cr vars [] = []
  binding : builtinBinding catalog preds cr = []

theorem Checked.consts (h : Checked catalog preds rule cr vars) (p : PredId)
    (terms : List CTerm) (mem : .pos p terms ∈ cr.body) (c : Nat) (t : CTerm)
    (ht : terms[c]? = some t) (req : predReq catalog preds p c = some .const) :
    ∃ k, t = .const k := by
  obtain ⟨lit, _, hl⟩ := exists_of_mem_right h.lits mem
  cases lit with
  | pos a => exact hl.2.2 c t ht req
  | neg a => exact hl.elim
  | cmp c => exact hl.elim

theorem Checked.runs (h : Checked catalog preds rule cr vars) {bound : Bound}
    (sat : Saturated catalog preds cr.body bound) (p : PredId) (terms : List CTerm)
    (mem : .pos p terms ∈ cr.body) : runnable catalog preds bound p terms = true := by
  obtain ⟨i, hi⟩ := List.mem_iff_getElem?.mp mem
  have order := sipsOrder_perm catalog preds cr (fun _ => false) none (fun _ => none)
  refine binding_saturated sat h.consts (fun v hv => by cases hv) h.binding i ?_ p terms hi
  exact order.mem_iff.mpr (List.mem_range.mpr (List.getElem?_eq_some_iff.mp hi).1)

theorem Checked.safeVars (h : Checked catalog preds rule cr vars) {bound : Bound}
    (sat : Saturated catalog preds cr.body bound) :
    (safeVars catalog preds cr []).Le bound :=
  safeVars_le sat (h.runs sat)

theorem Checked.lit_bound (h : Checked catalog preds rule cr vars) {bound : Bound}
    (sat : Saturated catalog preds cr.body bound) {lit : CLit} (mem : lit ∈ cr.body) :
    LitBound catalog preds bound lit := by
  obtain ⟨src, hsrc, hl⟩ := exists_of_mem_right h.lits mem
  have none := h.safety
  simp only [Glia.Rules.safety, List.append_eq_nil_iff, List.flatMap_eq_nil_iff] at none
  have errors := none.2 src hsrc
  cases lit with
  | pos p terms =>
    refine ⟨h.runs sat p terms mem, (hasFreeVar_eq_false terms bound).mpr ?_⟩
    exact sat.atom p terms mem (h.runs sat p terms mem)
  | neg p terms =>
    cases src with
    | pos a => exact hl.elim
    | cmp c => exact hl.elim
    | neg a =>
      refine (hasFreeVar_eq_false terms bound).mpr fun v hv => h.safeVars sat v ?_
      obtain ⟨name, hn, found⟩ := mentions_find hl.2.1 hv
      have all := unboundErrors_eq_nil errors (by simp)
      have mem' : (name, Msg.unboundNegated name a.signature) ∈
          (varNamesOf a.args).map fun name => (name, Msg.unboundNegated name a.signature) :=
        List.mem_map_of_mem (List.mem_filterMap.mpr ⟨_, hn, rfl⟩)
      exact bound_of_safe (all _ mem') found
  | cmp op l r =>
    cases src with
    | pos a => exact hl.elim
    | neg a => exact hl.elim
    | cmp c =>
      have all := comparisonErrors_eq_nil errors (by simp)
      have left := all c.left (by simp)
      have right := all c.right (by simp)
      exact ⟨isBound_of_termIn hl.2.1 left.1 fun name eq v found =>
          h.safeVars sat v (bound_of_safe (left.2 name eq) found),
        isBound_of_termIn hl.2.2 right.1 fun name eq v found =>
          h.safeVars sat v (bound_of_safe (right.2 name eq) found)⟩

theorem Checked.head_bound (h : Checked catalog preds rule cr vars) {bound : Bound}
    (sat : Saturated catalog preds cr.body bound) {v : Nat} (reads : cr.HeadReads v) :
    bound v = true := by
  obtain ⟨name, hn, found⟩ := h.head v reads
  have none := h.safety
  simp only [Glia.Rules.safety, List.append_eq_nil_iff] at none
  have all := unboundErrors_eq_nil none.1 (by simp)
  rw [← headNames_fst rule.head.signature] at hn
  obtain ⟨entry, mem, rfl⟩ := List.mem_map.mp hn
  exact h.safeVars sat v (bound_of_safe (all entry mem) found)

/-- Where a negated literal has no free variable, every column its builtin needs is bound. -/
theorem Checked.negated (h : Checked catalog preds rule cr vars) {p : PredId}
    {terms : List CTerm} (mem : .neg p terms ∈ cr.body) {bound : Bound}
    (all : hasFreeVar terms bound = false) : runnable catalog preds bound p terms = true := by
  obtain ⟨src, _, hl⟩ := exists_of_mem_right h.lits mem
  cases src with
  | pos a => exact hl.elim
  | cmp c => exact hl.elim
  | neg a =>
    obtain ⟨_, _, const, must⟩ := hl
    refine (runnable_iff bound p terms).mpr fun c t ht req => ?_
    rcases req with req | req
    · cases t with
      | var v => exact (hasFreeVar_eq_false terms bound).mp all v (List.mem_of_getElem? ht)
      | wild => exact absurd req (must c ht)
      | const k => rfl
    · obtain ⟨k, rfl⟩ := const c t ht req
      rfl

theorem Checked.safeRule (h : Checked catalog preds rule cr vars) :
    SafeRule catalog preds cr where
  body _ sat _ mem := h.lit_bound sat mem
  head _ sat _ reads := h.head_bound sat reads
  negated _ _ mem _ all := h.negated mem all
  body_lt := by
    intro lit mem v hv
    rw [h.nvars]
    obtain ⟨src, _, hl⟩ := exists_of_mem_right h.lits mem
    cases src with
    | pos a =>
      cases lit with
      | pos p terms => exact Vars.find_lt (mentions_find hl.2.1 hv).choose_spec.2
      | _ => exact hl.elim
    | neg a =>
      cases lit with
      | neg p terms => exact Vars.find_lt (mentions_find hl.2.1 hv).choose_spec.2
      | _ => exact hl.elim
    | cmp c =>
      cases lit with
      | cmp op l r =>
        have sides : List.Forall₂ (TermIn vars) [c.left, c.right] [l, r] :=
          .cons hl.2.1 (.cons hl.2.2 .nil)
        exact Vars.find_lt (mentions_find sides hv).choose_spec.2
      | _ => exact hl.elim
  head_lt := by
    intro v reads
    rw [h.nvars]
    obtain ⟨name, _, found⟩ := h.head v reads
    exact Vars.find_lt found

end Rule

theorem compileRule_isPrefix (catalog : Catalog) (nIdb : Nat) (preds : List PredInfo) (index : Nat)
    (rule : Rule) (head : Option PredId) :
    preds <+: (compileRule catalog nIdb preds index rule head).preds :=
  bodyLiterals_isPrefix catalog nIdb preds _ rule.body

theorem compileRule_checked {catalog : Catalog} {nIdb : Nat} {preds : List PredInfo}
    {index : Nat} {rule : Rule} {head : Option PredId} {cr : CRule}
    (declared : ∀ i ∈ preds, DeclaredAs catalog i)
    (compiled : (compileRule catalog nIdb preds index rule head).rule = some cr)
    (none : (compileRule catalog nIdb preds index rule head).errors = []) :
    ∃ vars, Checked catalog (compileRule catalog nIdb preds index rule head).preds rule cr vars := by
  unfold compileRule at compiled none ⊢
  simp only [Option.map_eq_some_iff] at compiled none ⊢
  obtain ⟨_, _, rfl⟩ := compiled
  simp only [tag, List.map_eq_nil_iff, List.append_eq_nil_iff] at none
  obtain ⟨⟨⟨⟨_, bodyErrors⟩, overflow⟩, safe⟩, binding⟩ := none
  have fits : (bodyLiterals catalog nIdb preds (headArgs Vars.empty rule.head.args).vars
      rule.body).vars.overflow = false := by
    by_contra exceeded
    simp [exceeded] at overflow
  obtain ⟨loose, lits⟩ := bodyLiterals_in declared bodyErrors (Vars.Le.refl _) fits
  rw [loose] at safe
  refine ⟨_, rfl, ?_, lits, safe, binding⟩
  intro v reads
  exact headArgs_reads Vars.empty rule.head.args
    (le_bodyLiterals catalog nIdb preds _ rule.body) fits reads

theorem SafeRule.extend {catalog : Catalog} {preds more : List PredInfo} {cr : CRule}
    (same : ∀ p c, (∃ terms, .pos p terms ∈ cr.body ∨ .neg p terms ∈ cr.body) →
      predReq catalog more p c = predReq catalog preds p c)
    (safe : SafeRule catalog preds cr) : SafeRule catalog more cr := by
  have runs : ∀ bound p terms, .pos p terms ∈ cr.body ∨ .neg p terms ∈ cr.body →
      (runnable catalog more bound p terms = true ↔ runnable catalog preds bound p terms = true) := by
    intro bound p terms mem
    rw [runnable_iff, runnable_iff]
    refine forall_congr' fun c => ?_
    rw [same p c ⟨terms, mem⟩]
  have sat : ∀ bound, Saturated catalog more cr.body bound → Saturated catalog preds cr.body bound :=
    fun bound h => ⟨fun p terms mem run =>
      h.atom p terms mem ((runs bound p terms (.inl mem)).mpr run), h.right, h.left⟩
  refine ⟨fun bound h lit mem => ?_, fun bound h => safe.head bound (sat bound h),
    fun p terms mem bound all =>
      (runs bound p terms (.inr mem)).mpr (safe.negated p terms mem bound all),
    safe.body_lt, safe.head_lt⟩
  have := safe.body bound (sat bound h) lit mem
  cases lit with
  | pos p terms => exact ⟨(runs bound p terms (.inl mem)).mpr this.1, this.2⟩
  | neg p terms => exact this
  | cmp op l r => exact this

theorem Checked.arity {catalog : Catalog} {preds : List PredInfo} {rule : Rule} {cr : CRule}
    {vars : Vars} (h : Checked catalog preds rule cr vars) {p : PredId} {terms : List CTerm}
    (mem : .pos p terms ∈ cr.body ∨ .neg p terms ∈ cr.body) :
    preds[p]?.map PredInfo.arity = some terms.length := by
  rcases mem with mem | mem
  · obtain ⟨src, _, hl⟩ := exists_of_mem_right h.lits mem
    cases src with
    | pos a => exact hl.2.1.length_eq ▸ hl.1
    | _ => exact hl.elim
  · obtain ⟨src, _, hl⟩ := exists_of_mem_right h.lits mem
    cases src with
    | neg a => exact hl.2.1.length_eq ▸ hl.1
    | _ => exact hl.elim

theorem compileRules_isPrefix (catalog : Catalog) (nIdb index : Nat) (preds : List PredInfo)
    (rules : List (Rule × Option PredId)) :
    preds <+: (compileRules catalog nIdb index preds rules).1 := by
  induction rules generalizing index preds with
  | nil => exact List.prefix_rfl
  | cons r rest ih => exact (compileRule_isPrefix catalog nIdb preds index r.1 r.2).trans (ih _ _)

theorem compileRules_declared {catalog : Catalog} {nIdb index : Nat} {preds : List PredInfo}
    {rules : List (Rule × Option PredId)} (declared : ∀ i ∈ preds, DeclaredAs catalog i) :
    ∀ i ∈ (compileRules catalog nIdb index preds rules).1, DeclaredAs catalog i := by
  induction rules generalizing index preds with
  | nil => exact declared
  | cons r rest ih => exact ih (bodyLiterals_declared declared)

theorem compileRules_checked {catalog : Catalog} {nIdb index : Nat} {preds : List PredInfo}
    {rules : List (Rule × Option PredId)}
    (declared : ∀ i ∈ preds, DeclaredAs catalog i)
    (none : (compileRules catalog nIdb index preds rules).2.2 = []) {cr : CRule}
    (mem : cr ∈ (compileRules catalog nIdb index preds rules).2.1) :
    ∃ before rule vars, before <+: (compileRules catalog nIdb index preds rules).1 ∧
      Checked catalog before rule cr vars := by
  induction rules generalizing index preds with
  | nil => simp [compileRules] at mem
  | cons r rest ih =>
    unfold compileRules at none mem ⊢
    simp only [List.append_eq_nil_iff, List.mem_append, Option.mem_toList] at none mem ⊢
    rcases mem with mem | mem
    · obtain ⟨vars, checked⟩ := compileRule_checked declared mem none.1
      exact ⟨_, r.1, vars, compileRules_isPrefix _ _ _ _ rest, checked⟩
    · exact ih (bodyLiterals_declared declared) none.2 mem

theorem setStrata_kind (nIdb : Nat) (preds : List PredInfo) (s : Strata) (p : PredId) :
    ((setStrata nIdb preds s)[p]?).map PredInfo.kind = preds[p]?.map PredInfo.kind := by
  unfold setStrata
  rw [List.getElem?_map, List.getElem?_zipIdx]
  cases h : preds[p]? with
  | none => rfl
  | some i =>
    simp only [Option.map_some, Option.some.injEq]
    split <;> rfl

theorem setStrata_arity (nIdb : Nat) (preds : List PredInfo) (s : Strata) (p : PredId) :
    ((setStrata nIdb preds s)[p]?).map PredInfo.arity = preds[p]?.map PredInfo.arity := by
  unfold setStrata
  rw [List.getElem?_map, List.getElem?_zipIdx]
  cases h : preds[p]? with
  | none => rfl
  | some i =>
    simp only [Option.map_some, Option.some.injEq]
    split <;> rfl

theorem setStrata_declared {catalog : Catalog} {nIdb : Nat} {preds : List PredInfo} {s : Strata}
    (declared : ∀ i ∈ preds, DeclaredAs catalog i) :
    ∀ i ∈ setStrata nIdb preds s, DeclaredAs catalog i := by
  intro i hi
  obtain ⟨e, mem, rfl⟩ := List.mem_map.mp hi
  have := declared e.1 (List.fst_mem_of_mem_zipIdx mem)
  split
  · exact this
  · exact this

theorem predReq_of_kind {catalog : Catalog} {a b : List PredInfo} {p : PredId}
    (h : a[p]?.map PredInfo.kind = b[p]?.map PredInfo.kind) (c : Nat) :
    predReq catalog a p c = predReq catalog b p c := by
  unfold predReq
  cases ha : a[p]? with
  | none =>
    cases hb : b[p]? with
    | none => rfl
    | some j => simp [ha, hb] at h
  | some i =>
    cases hb : b[p]? with
    | none => simp [ha, hb] at h
    | some j =>
      simp only [ha, hb, Option.map_some, Option.some.injEq] at h
      simp [PredInfo.bindReq, h]

theorem analyseWith_ok {program : Program} {catalog : Catalog} {synthetic : Bool} {an : Analysis}
    (ok : analyseWith program catalog synthetic = .ok an) :
    let hs := heads catalog synthetic [] program.rules
    let cs := compileRules catalog hs.1.length 0 hs.1 (program.rules.zip hs.2.1)
    hs.2.2 = [] ∧ cs.2.2 = [] ∧ an.rules = cs.2.1 ∧
      aggregateRuleCounts program hs.1.length cs.2.1 = [] ∧
      ∃ s, stratify hs.1.length (depEdges hs.1.length cs.2.1) = .ok s ∧
        an.preds = setStrata hs.1.length cs.1 s ∧ an.strata = strataOf cs.2.1 s := by
  intro hs cs
  unfold analyseWith at ok
  simp only at ok
  split at ok
  · cases ok
  · rename_i s hstrat
    split at ok
    · cases ok
    · rename_i none
      simp only [ne_eq, Decidable.not_not, List.append_eq_nil_iff] at none
      cases ok
      exact ⟨none.1.1, none.1.2, rfl, none.2, s, hstrat, rfl, rfl⟩

theorem heads_idb (catalog : Catalog) (synthetic : Bool) (preds : List PredInfo)
    (rules : List Rule) (idb : ∀ i ∈ preds, i.kind = .idb) :
    ∀ i ∈ (heads catalog synthetic preds rules).1, i.kind = .idb := by
  induction rules generalizing preds with
  | nil => exact idb
  | cons rule rest ih =>
    refine ih _ ?_
    unfold headPred
    simp only
    split
    · exact idb
    · split
      · split <;> exact idb
      · intro i hi
        rcases List.mem_append.mp hi with hi | hi
        · exact idb i hi
        · cases List.mem_singleton.mp hi
          rfl

theorem declared_of_idb {catalog : Catalog} {i : PredInfo} (h : i.kind = .idb) :
    DeclaredAs catalog i := by
  unfold DeclaredAs
  rw [h]
  trivial

theorem analyseWith_checked {program : Program} {catalog : Catalog} {synthetic : Bool}
    {an : Analysis} (ok : analyseWith program catalog synthetic = .ok an) {cr : CRule}
    (mem : cr ∈ an.rules) :
    ∃ before rule vars, Checked catalog before rule cr vars ∧
      ∀ p, p < before.length →
        (an.preds[p]?).map PredInfo.kind = before[p]?.map PredInfo.kind ∧
          (an.preds[p]?).map PredInfo.arity = before[p]?.map PredInfo.arity := by
  obtain ⟨_, errors, rules, _, s, _, preds, _⟩ := analyseWith_ok ok
  rw [rules] at mem
  have declared : ∀ i ∈ (heads catalog synthetic [] program.rules).1, DeclaredAs catalog i :=
    fun i hi => declared_of_idb (heads_idb catalog synthetic [] program.rules (by simp) i hi)
  obtain ⟨before, rule, vars, grows, checked⟩ := compileRules_checked declared errors mem
  refine ⟨before, rule, vars, checked, fun p lt => ?_⟩
  obtain ⟨rest, grown⟩ := grows
  have same := @List.getElem?_append_left _ _ rest _ lt
  rw [preds, setStrata_kind, setStrata_arity, ← grown, same]
  exact ⟨rfl, rfl⟩

theorem analyseWith_safeRule {program : Program} {catalog : Catalog} {synthetic : Bool}
    {an : Analysis} (ok : analyseWith program catalog synthetic = .ok an) {cr : CRule}
    (mem : cr ∈ an.rules) : SafeRule catalog an.preds cr := by
  obtain ⟨before, rule, vars, checked, same⟩ := analyseWith_checked ok mem
  refine checked.safeRule.extend ?_
  rintro p c ⟨terms, atom⟩
  exact predReq_of_kind (same p (lt_of_arity (checked.arity atom))).1 c

theorem analyseWith_arity {program : Program} {catalog : Catalog} {synthetic : Bool}
    {an : Analysis} (ok : analyseWith program catalog synthetic = .ok an) {cr : CRule}
    (mem : cr ∈ an.rules) {p : PredId} {terms : List CTerm}
    (atom : .pos p terms ∈ cr.body ∨ .neg p terms ∈ cr.body) :
    an.preds[p]?.map PredInfo.arity = some terms.length := by
  obtain ⟨before, rule, vars, checked, same⟩ := analyseWith_checked ok mem
  have arity := checked.arity atom
  rw [(same p (lt_of_arity arity)).2]
  exact arity

theorem analyseWith_declared {program : Program} {catalog : Catalog} {synthetic : Bool}
    {an : Analysis} (ok : analyseWith program catalog synthetic = .ok an) :
    ∀ i ∈ an.preds, DeclaredAs catalog i := by
  obtain ⟨_, _, _, _, s, _, preds, _⟩ := analyseWith_ok ok
  rw [preds]
  refine setStrata_declared (compileRules_declared fun i hi => ?_)
  exact declared_of_idb (heads_idb catalog synthetic [] program.rules (by simp) i hi)

end Glia.Rules
