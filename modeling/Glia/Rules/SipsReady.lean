import Glia.Rules.Sips
import Mathlib.Data.List.Perm.Basic

/-! What the greedy order guarantees for a safe rule: it is a permutation of the body,
and every literal can run when it is reached. -/
namespace Glia.Rules

section Ready

variable (catalog : Catalog) (preds : List PredInfo)

/-- A literal can run under `bound`: every `Must` and `Const` column of a builtin, negated or
not, is bound, and a negated literal has no free variable. -/
def LitReady (bound : Bound) : CLit → Prop
  | .pos p terms => runnable catalog preds bound p terms = true
  | .neg p terms => runnable catalog preds bound p terms = true ∧ hasFreeVar terms bound = false
  | .cmp op l r => (isBound bound l = true ∧ isBound bound r = true) ∨ assigns bound op l r = true

/-- A literal has run: it could, and all it mentions is bound. -/
def LitBound (bound : Bound) : CLit → Prop
  | .pos p terms =>
    runnable catalog preds bound p terms = true ∧ hasFreeVar terms bound = false
  | .neg _ terms => hasFreeVar terms bound = false
  | .cmp _ l r => isBound bound l = true ∧ isBound bound r = true

/-- No literal of the body can bind a further variable. -/
structure Saturated (body : List CLit) (bound : Bound) : Prop where
  atom : ∀ p terms, .pos p terms ∈ body → runnable catalog preds bound p terms = true →
    ∀ v, Mentions terms v → bound v = true
  right : ∀ l r, .cmp .eq l r ∈ body → isBound bound l = true →
    ∀ v, r = .var v → bound v = true
  left : ∀ l r, .cmp .eq l r ∈ body → isBound bound r = true →
    ∀ v, l = .var v → bound v = true

/-- A rule the safety analysis accepts: whatever set of bindings its literals cannot
extend, they are all bound in it, and so is the head. -/
structure SafeRule (rule : CRule) : Prop where
  body : ∀ bound, Saturated catalog preds rule.body bound →
    ∀ lit ∈ rule.body, LitBound catalog preds bound lit
  head : ∀ bound, Saturated catalog preds rule.body bound → ∀ v, rule.HeadReads v → bound v = true
  /-- No column a negated builtin needs holds a wildcard. -/
  negated : ∀ p terms, .neg p terms ∈ rule.body → ∀ bound, hasFreeVar terms bound = false →
    runnable catalog preds bound p terms = true
  body_lt : ∀ lit ∈ rule.body, ∀ v, Mentions lit.terms v → v < rule.nvars
  head_lt : ∀ v, rule.HeadReads v → v < rule.nvars

variable {catalog preds}

theorem runnable_iff (bound : Bound) (p : PredId) (terms : List CTerm) :
    runnable catalog preds bound p terms = true ↔
      ∀ c t, terms[c]? = some t →
        predReq catalog preds p c = some .must ∨ predReq catalog preds p c = some .const →
          isBound bound t = true := by
  unfold runnable
  simp only [List.all_eq_true, Prod.forall, List.mem_zipIdx_iff_getElem?]
  constructor
  · intro h c t ht req
    have := h t c ht
    rcases req with req | req <;> simpa [req] using this
  · intro h t c ht
    split
    · exact h c t ht (.inl ‹_›)
    · exact h c t ht (.inr ‹_›)
    · rfl
    · rfl

theorem runnable_mono {a b : Bound} (h : a.Le b) {p : PredId} {terms : List CTerm}
    (run : runnable catalog preds a p terms = true) : runnable catalog preds b p terms = true := by
  rw [runnable_iff] at run ⊢
  intro c t ht req
  exact isBound_mono h (run c t ht req)

theorem hasFreeVar_mono {a b : Bound} (h : a.Le b) {terms : List CTerm}
    (all : hasFreeVar terms a = false) : hasFreeVar terms b = false := by
  rw [hasFreeVar_eq_false] at all ⊢
  exact fun v hv => h v (all v hv)

theorem LitBound.mono {a b : Bound} (h : a.Le b) {lit : CLit}
    (run : LitBound catalog preds a lit) : LitBound catalog preds b lit := by
  cases lit with
  | pos p terms => exact ⟨runnable_mono h run.1, hasFreeVar_mono h run.2⟩
  | neg p terms => exact hasFreeVar_mono h run
  | cmp op l r => exact ⟨isBound_mono h run.1, isBound_mono h run.2⟩

theorem LitBound.ready {rule : CRule} (safe : SafeRule catalog preds rule) {bound : Bound}
    {lit : CLit} (mem : lit ∈ rule.body) (run : LitBound catalog preds bound lit) :
    LitReady catalog preds bound lit := by
  cases lit with
  | pos p terms => exact run.1
  | neg p terms => exact ⟨safe.negated p terms mem bound run, run⟩
  | cmp op l r => exact .inl run

theorem LitReady.bound {bound : Bound} {lit : CLit} (ready : LitReady catalog preds bound lit) :
    LitBound catalog preds (bindLiteral bound lit) lit := by
  cases lit with
  | pos p terms =>
    refine ⟨runnable_mono (le_bindLiteral bound _) ready, ?_⟩
    rw [hasFreeVar_eq_false]
    intro v hv
    simp [bindLiteral, hv]
  | neg p terms => exact ready.2
  | cmp op l r =>
    rcases ready with both | assign
    · exact ⟨isBound_mono (le_bindLiteral bound _) both.1,
        isBound_mono (le_bindLiteral bound _) both.2⟩
    · simp only [assigns, Bool.and_eq_true, Bool.or_eq_true, beq_iff_eq, Bool.not_eq_true'] at assign
      obtain ⟨rfl, side⟩ := assign
      rcases side with ⟨⟨var, free⟩, other⟩ | ⟨⟨var, free⟩, other⟩
      · cases l with
        | var v =>
          refine ⟨?_, isBound_mono (le_bindLiteral bound _) other⟩
          simp only [isBound_var] at free
          simp [bindLiteral, free, other]
        | wild => cases var
        | const c => cases var
      · cases r with
        | var v =>
          refine ⟨isBound_mono (le_bindLiteral bound _) other, ?_⟩
          simp only [isBound_var] at free
          simp [bindLiteral, free, other]
        | wild => cases var
        | const c => cases var

theorem LitBound.mentions {bound : Bound} {lit : CLit} (run : LitBound catalog preds bound lit)
    {v : Nat} (mem : Mentions lit.terms v) : bound v = true := by
  cases lit with
  | pos p terms => exact (hasFreeVar_eq_false terms bound).mp run.2 v mem
  | neg p terms => exact (hasFreeVar_eq_false terms bound).mp run v mem
  | cmp op l r =>
    simp only [Mentions, CLit.terms, List.mem_cons, List.not_mem_nil, or_false] at mem
    rcases mem with rfl | rfl
    · exact run.1
    · exact run.2

theorem bindLiteral_of_bound {bound : Bound} {lit : CLit}
    (run : LitBound catalog preds bound lit) : bindLiteral bound lit = bound := by
  cases lit with
  | pos p terms =>
    funext v
    rw [Bool.eq_iff_iff]
    simp only [bindLiteral, markAll_apply]
    exact ⟨fun h => h.elim id fun mem => run.mentions mem, .inl⟩
  | neg p terms => rfl
  | cmp op l r => cases op <;> simp [bindLiteral, run.1, run.2]

theorem saturated_of_bound {body : List CLit} {bound : Bound}
    (all : ∀ lit ∈ body, LitBound catalog preds bound lit) :
    Saturated catalog preds body bound where
  atom p terms mem _ v hv := (hasFreeVar_eq_false terms bound).mp (all _ mem).2 v hv
  right l r mem _ v hv := by
    have := (all _ mem).2
    rwa [hv] at this
  left l r mem _ v hv := by
    have := (all _ mem).1
    rwa [hv] at this

/-- The literals of `order` each can run when reached, from `bound`. -/
def OrderReady (catalog : Catalog) (preds : List PredInfo) (body : List CLit) :
    Bound → List Nat → Prop
  | _, [] => True
  | bound, i :: rest =>
    (∀ lit, body[i]? = some lit → LitReady catalog preds bound lit) ∧
      OrderReady catalog preds body (bindAt body bound i) rest

def boundAtEnd (body : List CLit) (bound : Bound) (order : List Nat) : Bound :=
  order.foldl (bindAt body) bound

theorem le_bindAt (body : List CLit) (bound : Bound) (i : Nat) : bound.Le (bindAt body bound i) := by
  unfold bindAt
  split
  · exact le_bindLiteral bound _
  · exact Bound.Le.refl bound

section Pick

variable (catalog preds) (size : PredId → Option Nat) (body : List CLit)

theorem shape_filter_iff (bound : Bound) (lit : CLit) :
    (shape catalog preds bound size lit).filter = true ↔ LitBound catalog preds bound lit := by
  cases lit <;> simp [shape, LitBound]

theorem shape_eligible_ready {bound : Bound} {lit : CLit}
    (h : (shape catalog preds bound size lit).eligible = true) :
    LitReady catalog preds bound lit := by
  cases lit with
  | pos p terms => exact h
  | neg p terms => cases h
  | cmp op l r => exact .inr h

theorem bestOf_mem {best : Option (Nat × Shape)} {shapes : List (Nat × Shape)}
    {s : Nat × Shape} (h : bestOf best shapes = some s) :
    best = some s ∨ (s ∈ shapes ∧ s.2.eligible = true) := by
  induction shapes generalizing best with
  | nil => exact .inl h
  | cons o rest ih =>
    unfold bestOf at h
    split at h
    · exact (ih h).imp_right fun m => ⟨List.mem_cons_of_mem _ m.1, m.2⟩
    · rename_i eligible
      simp only [Bool.not_eq_true', Bool.not_eq_false] at eligible
      split at h
      · rcases ih h with eq | m
        · cases eq
          exact .inr ⟨List.mem_cons_self, eligible⟩
        · exact .inr ⟨List.mem_cons_of_mem _ m.1, m.2⟩
      · rcases ih h with eq | m
        · split at eq
          · cases eq
            exact .inr ⟨List.mem_cons_self, eligible⟩
          · exact .inl eq
        · exact .inr ⟨List.mem_cons_of_mem _ m.1, m.2⟩

theorem bestOf_isSome (best : Option (Nat × Shape)) {shapes : List (Nat × Shape)}
    (h : best.isSome = true ∨ ∃ s ∈ shapes, s.2.eligible = true) :
    (bestOf best shapes).isSome = true := by
  induction shapes generalizing best with
  | nil =>
    rcases h with h | ⟨s, mem, _⟩
    · exact h
    · cases mem
  | cons o rest ih =>
    unfold bestOf
    split
    · rename_i skip
      refine ih best (h.imp_right ?_)
      rintro ⟨s, mem, eligible⟩
      rcases List.mem_cons.mp mem with rfl | mem
      · simp [eligible] at skip
      · exact ⟨s, mem, eligible⟩
    · split
      · exact ih _ (.inl rfl)
      · refine ih _ (.inl ?_)
        split <;> rfl

/-- What `pick` returns is open, and runnable unless nothing open is. -/
theorem pick_cases {bound : Bound} {opens : List Nat} {i : Nat}
    (h : pick catalog preds size body bound opens = some i) :
    i ∈ opens ∧
      ((shapeAt catalog preds size body bound i).filter = true ∨
        (shapeAt catalog preds size body bound i).eligible = true ∨
        ∀ j ∈ opens, (shapeAt catalog preds size body bound j).filter = false ∧
          (shapeAt catalog preds size body bound j).eligible = false) := by
  unfold pick at h
  simp only at h
  split at h
  · rename_i s found
    cases h
    obtain ⟨j, hj, rfl⟩ := List.mem_map.mp (List.mem_of_find?_eq_some found)
    have := List.find?_some found
    exact ⟨hj, .inl this⟩
  · rename_i none
    split at h
    · rename_i s best
      cases h
      rcases bestOf_mem best with eq | ⟨mem, eligible⟩
      · cases eq
      · obtain ⟨j, hj, rfl⟩ := List.mem_map.mp mem
        exact ⟨hj, .inr (.inl eligible)⟩
    · rename_i best
      refine ⟨List.mem_of_mem_head? h, .inr (.inr ?_)⟩
      intro j hj
      have mem : (j, shapeAt catalog preds size body bound j) ∈
          opens.map fun i => (i, shapeAt catalog preds size body bound i) := List.mem_map_of_mem hj
      refine ⟨by simpa using List.find?_eq_none.mp none _ mem, ?_⟩
      by_contra eligible
      simp only [Bool.not_eq_false] at eligible
      have := bestOf_isSome Option.none (.inr ⟨_, mem, eligible⟩)
      rw [best] at this
      cases this

theorem pick_isSome (bound : Bound) {opens : List Nat} (h : opens ≠ []) :
    (pick catalog preds size body bound opens).isSome = true := by
  unfold pick
  simp only
  split
  · rfl
  · split
    · rfl
    · cases opens with
      | nil => exact absurd rfl h
      | cons i rest => rfl

theorem sipsFrom_perm (fuel : Nat) (bound : Bound) (opens : List Nat)
    (enough : opens.length ≤ fuel) :
    (sipsFrom catalog preds size body fuel bound opens).Perm opens := by
  induction fuel generalizing bound opens with
  | zero =>
    rw [List.length_eq_zero_iff.mp (Nat.le_zero.mp enough)]
    exact .nil
  | succ fuel ih =>
    unfold sipsFrom
    split
    · rename_i none
      by_cases empty : opens = []
      · rw [empty]
      · have := pick_isSome catalog preds size body bound empty
        rw [none] at this
        cases this
    · rename_i i found
      have mem := (pick_cases catalog preds size body found).1
      have len := List.length_erase_of_mem mem
      exact ((ih _ _ (by omega)).cons i).trans (List.perm_cons_erase mem).symm

end Pick

theorem sipsOrder_perm (catalog : Catalog) (preds : List PredInfo) (rule : CRule) (bound : Bound)
    (first : Option Nat) (size : PredId → Option Nat) :
    (sipsOrder rule preds catalog bound first size).Perm (List.range rule.body.length) := by
  unfold sipsOrder
  simp only
  split
  · rename_i f found
    obtain ⟨_, lt⟩ := Option.filter_eq_some_iff.mp found
    have mem : f ∈ List.range rule.body.length := by simpa using lt
    have len := List.length_erase_of_mem mem
    simp only [List.length_range] at len
    exact ((sipsFrom_perm catalog preds size rule.body _ _ _ (by omega)).cons f).trans
      (List.perm_cons_erase mem).symm
  · exact sipsFrom_perm catalog preds size rule.body _ _ _ (by simp)

section Greedy

variable (size : PredId → Option Nat) {rule : CRule}

theorem eq_nil_of_stuck (safe : SafeRule catalog preds rule) {bound : Bound} {opens : List Nat}
    (lt : ∀ i ∈ opens, i < rule.body.length)
    (placed : ∀ i lit, rule.body[i]? = some lit → i ∉ opens → LitBound catalog preds bound lit)
    (stuck : ∀ i ∈ opens,
      (shapeAt catalog preds size rule.body bound i).filter = false ∧
        (shapeAt catalog preds size rule.body bound i).eligible = false) :
    opens = [] := by
  have shapeOf : ∀ i lit, rule.body[i]? = some lit →
      shapeAt catalog preds size rule.body bound i = shape catalog preds bound size lit := by
    intro i lit h
    simp [shapeAt, h]
  -- A literal that is placed has run; one that is open and could run would not be stuck.
  have saturated : Saturated catalog preds rule.body bound := by
    constructor
    · intro p terms mem run v hv
      obtain ⟨i, hi⟩ := List.mem_iff_getElem?.mp mem
      by_cases isOpen : i ∈ opens
      · have := (stuck i isOpen).2
        rw [shapeOf i _ hi] at this
        simp [shape, run] at this
      · exact (hasFreeVar_eq_false terms bound).mp (placed i _ hi isOpen).2 v hv
    · intro l r mem hl v hv
      obtain ⟨i, hi⟩ := List.mem_iff_getElem?.mp mem
      by_cases isOpen : i ∈ opens
      · have := (stuck i isOpen).2
        rw [shapeOf i _ hi] at this
        subst hv
        by_contra free
        simp only [Bool.not_eq_true] at free
        simp [shape, assigns, CTerm.isVar, hl, free] at this
      · have := (placed i _ hi isOpen).2
        rwa [hv] at this
    · intro l r mem hr v hv
      obtain ⟨i, hi⟩ := List.mem_iff_getElem?.mp mem
      by_cases isOpen : i ∈ opens
      · have := (stuck i isOpen).2
        rw [shapeOf i _ hi] at this
        subst hv
        by_contra free
        simp only [Bool.not_eq_true] at free
        simp [shape, assigns, CTerm.isVar, hr, free] at this
      · have := (placed i _ hi isOpen).1
        rwa [hv] at this
  cases opens with
  | nil => rfl
  | cons i rest =>
    have hi := List.getElem?_eq_getElem (lt i List.mem_cons_self)
    have run := safe.body bound saturated _ (List.mem_of_getElem? hi)
    have := (stuck i List.mem_cons_self).1
    rw [shapeOf i _ hi] at this
    rw [(shape_filter_iff catalog preds size bound _).mpr run] at this
    cases this

theorem sipsFrom_ready (safe : SafeRule catalog preds rule) (fuel : Nat) (bound : Bound)
    (opens : List Nat) (nodup : opens.Nodup) (enough : opens.length ≤ fuel)
    (lt : ∀ i ∈ opens, i < rule.body.length)
    (placed : ∀ i lit, rule.body[i]? = some lit → i ∉ opens → LitBound catalog preds bound lit) :
    OrderReady catalog preds rule.body bound
        (sipsFrom catalog preds size rule.body fuel bound opens) ∧
      ∀ lit ∈ rule.body,
        LitBound catalog preds
          (boundAtEnd rule.body bound (sipsFrom catalog preds size rule.body fuel bound opens))
          lit := by
  induction fuel generalizing bound opens with
  | zero =>
    have : opens = [] := List.length_eq_zero_iff.mp (Nat.le_zero.mp enough)
    subst this
    refine ⟨trivial, fun lit mem => ?_⟩
    obtain ⟨i, hi⟩ := List.mem_iff_getElem?.mp mem
    exact placed i lit hi (by simp)
  | succ fuel ih =>
    unfold sipsFrom
    split
    · rename_i none
      have : opens = [] := by
        by_contra nonempty
        have := pick_isSome catalog preds size rule.body bound nonempty
        rw [none] at this
        cases this
      subst this
      refine ⟨trivial, fun lit mem => ?_⟩
      obtain ⟨i, hi⟩ := List.mem_iff_getElem?.mp mem
      exact placed i lit hi (by simp)
    · rename_i i found
      obtain ⟨mem, shape⟩ := pick_cases catalog preds size rule.body found
      obtain ⟨lit, hi⟩ : ∃ lit, rule.body[i]? = some lit :=
        ⟨_, List.getElem?_eq_getElem (lt i mem)⟩
      have ready : LitReady catalog preds bound lit := by
        simp only [shapeAt, hi] at shape
        rcases shape with filter | eligible | stuck
        · exact ((shape_filter_iff catalog preds size bound _).mp filter).ready safe
            (List.mem_of_getElem? hi)
        · exact shape_eligible_ready catalog preds size eligible
        · have := eq_nil_of_stuck size safe lt placed stuck
          subst this
          cases mem
      have next : bindAt rule.body bound i = bindLiteral bound lit := by simp [bindAt, hi]
      have len := List.length_erase_of_mem mem
      have := ih (bindAt rule.body bound i) (opens.erase i) (nodup.erase i) (by omega)
        (fun j hj => lt j (List.mem_of_mem_erase hj)) (by
          intro j lit hj open'
          by_cases eq : j = i
          · subst eq
            rw [hi] at hj
            cases hj
            rw [next]
            exact ready.bound
          · refine (placed j lit hj fun m => open' ?_).mono (le_bindAt rule.body bound i)
            exact (List.mem_erase_of_ne eq).mpr m)
      refine ⟨⟨fun lit hlit => ?_, this.1⟩, this.2⟩
      rw [hi] at hlit
      cases hlit
      exact ready

/-- For a safe rule every literal can run when it is reached, whatever is bound before
and whichever relation literal runs first. -/
theorem sipsOrder_ready (safe : SafeRule catalog preds rule) (bound : Bound) (first : Option Nat)
    (relation : ∀ f p terms, first = some f → rule.body[f]? = some (.pos p terms) →
      runnable catalog preds (fun _ => false) p terms = true)
    (positive : ∀ f, first = some f → ∃ p terms, rule.body[f]? = some (.pos p terms)) :
    let start : Bound := fun v => decide (v < rule.nvars) && bound v
    OrderReady catalog preds rule.body start (sipsOrder rule preds catalog bound first size) ∧
      ∀ lit ∈ rule.body,
        LitBound catalog preds
          (boundAtEnd rule.body start (sipsOrder rule preds catalog bound first size)) lit := by
  intro start
  unfold sipsOrder
  simp only
  split
  · rename_i f found
    obtain ⟨rfl, lt⟩ := Option.filter_eq_some_iff.mp found
    simp only [decide_eq_true_eq] at lt
    obtain ⟨p, terms, hf⟩ := positive f rfl
    have ready : LitReady catalog preds start (.pos p terms) :=
      runnable_mono (fun v h => by simp at h) (relation f p terms rfl hf)
    have mem : f ∈ List.range rule.body.length := by simpa using lt
    have len := List.length_erase_of_mem mem
    simp only [List.length_range] at len
    have := sipsFrom_ready size safe rule.body.length (bindAt rule.body start f)
      ((List.range rule.body.length).erase f) (List.nodup_range.erase f) (by omega)
      (fun i hi => by simpa using List.mem_of_mem_erase hi) (by
        intro i lit hi closed
        by_cases eq : i = f
        · subst eq
          rw [hf] at hi
          cases hi
          have := ready.bound
          simpa [bindAt, hf] using this
        · refine absurd ((List.mem_erase_of_ne eq).mpr ?_) closed
          exact List.mem_range.mpr (List.getElem?_eq_some_iff.mp hi).1)
    refine ⟨⟨fun lit hlit => ?_, this.1⟩, this.2⟩
    rw [hf] at hlit
    cases hlit
    exact ready
  · refine sipsFrom_ready size safe rule.body.length _ _ List.nodup_range (by simp)
      (fun i hi => by simpa using hi) ?_
    intro i lit hi closed
    exact absurd (List.mem_range.mpr (List.getElem?_eq_some_iff.mp hi).1) closed

theorem SafeRule.head_bound (safe : SafeRule catalog preds rule) {bound : Bound}
    (all : ∀ lit ∈ rule.body, LitBound catalog preds bound lit) {v : Nat}
    (h : rule.HeadReads v) : bound v = true :=
  safe.head bound (saturated_of_bound all) v h

end Greedy

end Ready

end Glia.Rules
