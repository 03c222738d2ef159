import Glia.Rules.Frames
import Glia.Rules.JoinSteps

/-! The loop runs the walk: the stacks hold the open steps' alternatives, a variable is set
only while its step's frame is open, and a reused cursor reads what a new one would. -/
namespace Glia.Rules

section Stacks

theorem meets_map (ws : List (Nat × Want)) (row : Row) :
    meets ws (row.map some) = fits ws row := by
  unfold meets fits
  congr 1
  funext w
  cases w.2 with
  | val v =>
    cases at' : row[w.1]? <;> simp [at']
  | col o =>
    cases at' : row[w.1]? <;> cases own : row[o]? <;> simp [at', own]

theorem Alts.push_eq (o : Alts) (a : Alt) :
    o.push a = ⟨o.alts ++ [⟨o.vals.length, a.row.length, a.tier, a.prov, a.ordinal⟩],
      o.vals ++ a.row.map some⟩ := by
  simp [Alts.push, Alts.keep, meets]

def Alts.pushAll (o : Alts) (alts : List Alt) : Alts := alts.foldl Alts.push o

theorem Alts.pushAll_cons (o : Alts) (a : Alt) (rest : List Alt) :
    o.pushAll (a :: rest) = (o.push a).pushAll rest := rfl

theorem Alts.pushAll_grows (alts : List Alt) (o : Alts) :
    (∃ more, (o.pushAll alts).alts = o.alts ++ more ∧ more.length = alts.length) ∧
      ∃ more, (o.pushAll alts).vals = o.vals ++ more := by
  induction alts generalizing o with
  | nil => exact ⟨⟨[], (List.append_nil _).symm, rfl⟩, [], (List.append_nil _).symm⟩
  | cons a rest ih =>
    obtain ⟨⟨more, eq, length⟩, more', eq'⟩ := ih (o.push a)
    have first : (o.push a).alts = o.alts ++
        [⟨o.vals.length, a.row.length, a.tier, a.prov, a.ordinal⟩] := by rw [Alts.push_eq]
    have values : (o.push a).vals = o.vals ++ a.row.map some := by rw [Alts.push_eq]
    rw [first, List.append_assoc] at eq
    rw [values, List.append_assoc] at eq'
    rw [Alts.pushAll_cons]
    exact ⟨⟨_, eq, by rw [List.length_append, length, List.length_singleton, List.length_cons,
      Nat.add_comm]⟩, _, eq'⟩

theorem Alts.pushAll_length (alts : List Alt) (o : Alts) :
    (o.pushAll alts).alts.length = o.alts.length + alts.length := by
  obtain ⟨⟨more, eq, length⟩, _⟩ := Alts.pushAll_grows alts o
  rw [eq, List.length_append, length]

theorem Alts.pushAll_take (alts : List Alt) (o : Alts) :
    (⟨(o.pushAll alts).alts.take o.alts.length, (o.pushAll alts).vals.take o.vals.length⟩ : Alts) =
      o := by
  obtain ⟨⟨more, eq, _⟩, more', eq'⟩ := Alts.pushAll_grows alts o
  rw [eq, eq', List.take_left, List.take_left]

theorem Alts.pushAll_row {o : Alts} {i : Nat} {f : FlatAlt} {row : List (Option Value)}
    (there : o.alts[i]? = some f) (values : (o.vals.drop f.start).take f.len = row)
    (length : row.length = f.len) (alts : List Alt) :
    (o.pushAll alts).alts[i]? = some f ∧
      ((o.pushAll alts).vals.drop f.start).take f.len = row := by
  obtain ⟨⟨more, eq, _⟩, more', eq'⟩ := Alts.pushAll_grows alts o
  obtain ⟨lt, _⟩ := List.getElem?_eq_some_iff.mp there
  refine ⟨by rw [eq, List.getElem?_append_left lt]; exact there, ?_⟩
  rw [eq']
  by_cases inside : f.start ≤ o.vals.length
  · rw [List.drop_append_of_le_length inside, List.take_append_of_le_length]
    · exact values
    · have := congrArg List.length values
      rw [List.length_take] at this
      omega
  · have none : row = [] := by
      rw [← values, List.drop_eq_nil_of_le (by omega), List.take_nil]
    have zero : f.len = 0 := by rw [← length, none, List.length_nil]
    rw [zero, List.take_zero, none]

/-- The `i`th alternative pushed is found where its frame looks for it. -/
theorem Alts.pushAll_alt {alts : List Alt} {i : Nat} {a : Alt} (there : alts[i]? = some a)
    (o : Alts) : ∃ f, (o.pushAll alts).alts[o.alts.length + i]? = some f ∧
      ((o.pushAll alts).vals.drop f.start).take f.len = a.row.map some ∧ f.tier = a.tier ∧
      f.prov = a.prov ∧ f.ordinal = a.ordinal := by
  induction alts generalizing o i with
  | nil => cases there
  | cons x rest ih =>
    cases i with
    | zero =>
      rw [List.getElem?_cons_zero, Option.some.injEq] at there
      subst there
      have top : (o.push x).alts[o.alts.length]? =
          some ⟨o.vals.length, x.row.length, x.tier, x.prov, x.ordinal⟩ := by
        simp [Alts.push_eq]
      have own : ((o.push x).vals.drop o.vals.length).take x.row.length = x.row.map some := by
        simp [Alts.push_eq]
      obtain ⟨held, values⟩ := Alts.pushAll_row top own (List.length_map _) rest
      exact ⟨_, held, values, rfl, rfl, rfl⟩
    | succ i =>
      rw [List.getElem?_cons_succ] at there
      obtain ⟨f, held, rest'⟩ := ih there (o.push x)
      have at' : (o.push x).alts.length + i = o.alts.length + (i + 1) := by
        rw [Alts.push_eq, List.length_append, List.length_singleton]
        omega
      rw [at'] at held
      exact ⟨f, held, rest'⟩

/-- Setting each listed column of a block that starts at `k`. -/
theorem foldl_set_get (cells : List (Nat × Value)) (k : Nat) (vals : List (Option Value))
    (j : Nat) (distinct : (cells.map Prod.fst).Nodup) (lt : j < vals.length) :
    (cells.foldl (fun vals c => vals.set (k + c.1) (some c.2)) vals)[j]? =
      match cells.find? fun c => k + c.1 == j with
      | some c => some (some c.2)
      | none => vals[j]? := by
  induction cells generalizing vals with
  | nil => rfl
  | cons c rest ih =>
    rw [List.map_cons, List.nodup_cons] at distinct
    rw [List.foldl_cons, ih _ distinct.2 (by rw [List.length_set]; exact lt), List.find?_cons]
    by_cases own : k + c.1 = j
    · have later : (rest.find? fun c' => k + c'.1 == j) = none := by
        rw [List.find?_eq_none]
        intro c' mem eq
        refine distinct.1 (List.mem_map.mpr ⟨c', mem, ?_⟩)
        have := beq_iff_eq.mp eq
        omega
      rw [later]
      simp [own, lt]
    · have : (k + c.1 == j) = false := by simp [own]
      rw [this]
      cases (rest.find? fun c' => k + c'.1 == j) with
      | some c' => rfl
      | none => exact List.getElem?_set_ne own

theorem foldl_set_length (cells : List (Nat × Value)) (k : Nat) (vals : List (Option Value)) :
    (cells.foldl (fun vals c => vals.set (k + c.1) (some c.2)) vals).length = vals.length := by
  induction cells generalizing vals with
  | nil => rfl
  | cons c rest ih => rw [List.foldl_cons, ih, List.length_set]

theorem unpermuted {perm : List Nat} {row : Row} (vals : List (Option Value))
    (whole : perm.Perm (List.range perm.length)) (wide : row.length = perm.length) :
    (perm.zip (perm.filterMap fun c => row[c]?)).foldl
        (fun out c => out.set (vals.length + c.1) (some c.2))
        (vals ++ List.replicate perm.length none) = vals ++ row.map some := by
  have inside : ∀ c ∈ perm, c < row.length := fun c mem => by
    rw [wide]
    exact List.mem_range.mp (whole.mem_iff.mp mem)
  have zipped : ∀ cs : List Nat, (∀ c ∈ cs, c < row.length) →
      cs.zip (cs.filterMap fun c => row[c]?) = cs.map fun c => (c, row.getD c (.int 0)) := by
    intro cs
    induction cs with
    | nil => exact fun _ => rfl
    | cons c rest ih =>
      intro inside
      have lt := inside c List.mem_cons_self
      rw [List.filterMap_cons_some (List.getElem?_eq_getElem lt), List.zip_cons_cons, List.map_cons,
        ih fun c mem => inside c (List.mem_cons_of_mem _ mem)]
      simp [lt]
  rw [zipped perm inside]
  have nodup : ((perm.map fun c => (c, row.getD c (.int 0))).map Prod.fst).Nodup := by
    rw [List.map_map, show (Prod.fst ∘ fun c => (c, row.getD c (.int 0))) = id from rfl, List.map_id]
    exact whole.nodup_iff.mpr List.nodup_range
  apply List.ext_getElem?
  intro j
  by_cases lt : j < vals.length + perm.length
  · rw [foldl_set_get _ _ _ _ nodup (by
      rw [List.length_append, List.length_replicate]
      exact lt)]
    by_cases front : j < vals.length
    · have none' : (perm.map fun c => (c, row.getD c (.int 0))).find?
          (fun c => vals.length + c.1 == j) = none := by
        rw [List.find?_eq_none]
        intro c _ eq
        have := beq_iff_eq.mp eq
        omega
      rw [none']
      simp only
      rw [List.getElem?_append_left front, List.getElem?_append_left front]
    · have mem : j - vals.length ∈ perm := whole.mem_iff.mpr (List.mem_range.mpr (by omega))
      have found : (perm.map fun c => (c, row.getD c (.int 0))).find?
          (fun c => vals.length + c.1 == j) =
          some (j - vals.length, row.getD (j - vals.length) (.int 0)) := by
        rw [List.find?_map]
        have : perm.find? ((fun c : Nat × Value => vals.length + c.1 == j) ∘
            fun c => (c, row.getD c (.int 0))) = some (j - vals.length) := by
          cases held : perm.find? ((fun c : Nat × Value => vals.length + c.1 == j) ∘
              fun c => (c, row.getD c (.int 0))) with
          | none =>
            rw [List.find?_eq_none] at held
            refine absurd ?_ (held _ mem)
            simp only [Function.comp_apply, beq_iff_eq]
            omega
          | some c =>
            have := List.find?_some held
            simp only [Function.comp_apply, beq_iff_eq] at this
            congr 1
            omega
        rw [this]
        rfl
      have lt' : j - vals.length < row.length := by omega
      rw [found]
      dsimp only
      rw [List.getElem?_append_right (by omega), List.getElem?_map, List.getD_eq_getElem?_getD,
        List.getElem?_eq_getElem lt']
      rfl
  · rw [List.getElem?_eq_none, List.getElem?_eq_none]
    · rw [List.length_append, List.length_map]
      omega
    · rw [foldl_set_length, List.length_append, List.length_replicate]
      omega

theorem Alts.relationRow_permuted (o : Alts) {perm : List Nat} (ws : List (Nat × Want)) {s : Seen}
    (whole : perm.Perm (List.range perm.length)) (wide : s.row.length = perm.length) :
    o.relationRow perm ws (s.permuted perm) =
      if fits ws s.row then o.push ⟨s.row, s.tier, s.prov, s.ordinal⟩ else o := by
  unfold Alts.relationRow Seen.permuted Alts.keep
  simp only [unpermuted o.vals whole wide, List.drop_left, meets_map, List.take_left]
  split
  · simp [Alts.push_eq]
  · rfl

theorem Alts.relationRows (rows : List Seen) (o : Alts) {perm : List Nat} (ws : List (Nat × Want))
    (whole : perm.Perm (List.range perm.length)) (wide : ∀ s ∈ rows, s.row.length = perm.length) :
    (rows.map (Seen.permuted perm)).foldl (fun o r => o.relationRow perm ws r) o =
      o.pushAll (relationAlts ws rows) := by
  induction rows generalizing o with
  | nil => rfl
  | cons s rest ih =>
    rw [List.map_cons, List.foldl_cons,
      Alts.relationRow_permuted o ws whole (wide s List.mem_cons_self),
      ih _ fun s mem => wide s (List.mem_cons_of_mem _ mem)]
    unfold relationAlts
    rw [List.filter_cons]
    by_cases fit : fits ws s.row = true
    · rw [if_pos fit, if_pos fit, List.map_cons]
      rfl
    · rw [if_neg fit, if_neg fit]

end Stacks

section Vars

theorem setBinds_cons (b : Bind) (rest : List Bind) (row vars : List (Option Value)) :
    setBinds (b :: rest) row vars = setBinds rest row (vars.set b.2 (row[b.1]?).join) := rfl

theorem setBinds_length (binds : List Bind) (row vars : List (Option Value)) :
    (setBinds binds row vars).length = vars.length := by
  induction binds generalizing vars with
  | nil => rfl
  | cons b rest ih => rw [setBinds_cons, ih, List.length_set]

theorem envOf_set {vars : List (Option Value)} {v : Nat} (inside : v < vars.length)
    (x : Option Value) : envOf (vars.set v x) = Function.update (envOf vars) v x := by
  funext w
  unfold envOf
  rw [List.getElem?_set]
  by_cases own : v = w
  · subst own
    simp [inside]
  · rw [if_neg own, Function.update_of_ne (Ne.symm own)]

theorem envOf_setBinds {binds : List Bind} (row : Row) {vars : List (Option Value)}
    (inside : ∀ b ∈ binds, b.2 < vars.length) :
    envOf (setBinds binds (row.map some) vars) = binds.foldl (takeBind row) (envOf vars) := by
  induction binds generalizing vars with
  | nil => rfl
  | cons b rest ih =>
    have joined : ((row.map some)[b.1]?).join = row[b.1]? := by
      rw [List.getElem?_map]
      cases row[b.1]? <;> rfl
    rw [setBinds_cons, List.foldl_cons, ih fun b' mem => by
      rw [List.length_set]
      exact inside b' (List.mem_cons_of_mem _ mem), envOf_set (inside b List.mem_cons_self), joined]
    rfl

theorem setBinds_off {binds : List Bind} {i : Nat} (off : ∀ b ∈ binds, b.2 ≠ i)
    (row vars : List (Option Value)) : (setBinds binds row vars)[i]? = vars[i]? := by
  induction binds generalizing vars with
  | nil => rfl
  | cons b rest ih =>
    rw [setBinds_cons, ih (fun b' mem => off b' (List.mem_cons_of_mem _ mem)),
      List.getElem?_set_ne (off b List.mem_cons_self)]

theorem setBinds_congr {binds : List Bind} {v w : List (Option Value)}
    (length : v.length = w.length) (same : ∀ i, (∀ b ∈ binds, b.2 ≠ i) → v[i]? = w[i]?)
    (row : List (Option Value)) : setBinds binds row v = setBinds binds row w := by
  induction binds generalizing v w with
  | nil => exact List.ext_getElem? fun i => same i (by simp)
  | cons b rest ih =>
    rw [setBinds_cons, setBinds_cons]
    refine ih (by rw [List.length_set, List.length_set, length]) fun i off => ?_
    rw [List.getElem?_set, List.getElem?_set, length]
    by_cases own : b.2 = i
    · rw [if_pos own, if_pos own]
    · rw [if_neg own, if_neg own]
      exact same i (List.forall_mem_cons.mpr ⟨own, off⟩)

theorem setBinds_again (binds : List Bind) (row row' vars : List (Option Value)) :
    setBinds binds row (setBinds binds row' vars) = setBinds binds row vars :=
  setBinds_congr (setBinds_length binds row' vars) (fun _ off => setBinds_off off row' vars) row

theorem setBinds_unset {binds : List Bind} {vars : List (Option Value)}
    (unset : ∀ b ∈ binds, envOf vars b.2 = none) : setBinds binds [] vars = vars := by
  induction binds with
  | nil => rfl
  | cons b rest ih =>
    have own : vars.set b.2 (([] : List (Option Value))[b.1]?).join = vars := by
      apply List.ext_getElem?
      intro i
      rw [List.getElem?_set]
      by_cases eq : b.2 = i
      · have := unset b List.mem_cons_self
        unfold envOf at this
        subst eq
        rw [if_pos rfl]
        split
        · rename_i lt
          rw [List.getElem?_eq_getElem lt] at this ⊢
          rw [show vars[b.2] = none from this]
          rfl
        · rename_i out
          exact (List.getElem?_eq_none (by omega)).symm
      · rw [if_neg eq]
    rw [setBinds_cons, own]
    exact ih fun b' mem => unset b' (List.mem_cons_of_mem _ mem)

end Vars

/-- The variables set once the step has taken a row. -/
def bindsAfter (bound : Bound) (step : Step) : Bound := fun v =>
  bound v || (eachBind step).any fun b => b.2 == v

/-- A relation step names a whole permutation of its relation's columns. -/
def PermOk (ctx : Ctx) (step : Step) : Prop :=
  ∀ pred perm, ((∃ binds checks src, step = .scan pred perm binds checks src) ∨
      ∃ key binds checks src, step = .lookup pred perm key binds checks src) →
    perm.Perm (List.range perm.length) ∧
      ∀ rel, ctx.rels[pred]? = some rel → rel.Wide perm.length

mutual

/-- The step sets only variables that are unset before it, and names its columns whole. -/
def StepSound (ctx : Ctx) : Bound → Step → Prop
  | bound, .reachMulti _ _ _ seed _ _ bind _ =>
    bound bind = false ∧ StepsSound ctx (fun _ => false) seed
  | bound, step => (∀ b ∈ eachBind step, bound b.2 = false) ∧ PermOk ctx step

def StepsSound (ctx : Ctx) : Bound → List Step → Prop
  | _, [] => True
  | bound, step :: rest => StepSound ctx bound step ∧ StepsSound ctx (bindsAfter bound step) rest

end

section Loop

variable {ctx : Ctx} {vis : Vis} {steps : List Step}

def seedLoop (ctx : Ctx) (count : Bool) (fuel : Nat) (seed : List Step) :
    ExecState → Option (Outcome Unit) :=
  runLoop (loop ctx fuel (Vis.complete count) seed) count [] seed

def Ends (ctx : Ctx) (vis : Vis) (steps : List Step) (m : Machine) (s : ExecState)
    (o : Outcome Unit) : Prop :=
  ∃ n, ∀ fuel, n ≤ fuel → loop ctx fuel vis steps m s = some o

def Resumes (ctx : Ctx) (vis : Vis) (steps : List Step) (left : Option Machine) (s : ExecState)
    (o : Outcome Unit) : Prop :=
  match left with
  | some m => Ends ctx vis steps m s o
  | none => o = .ok s ()

def Turned (ctx : Ctx) (vis : Vis) (steps : List Step) (r : Outcome (Option Machine))
    (o : Outcome Unit) : Prop :=
  match r with
  | .ok t left => Resumes ctx vis steps left t o
  | .stop t => o = .stop t
  | .fail e => o = .fail e

theorem Ends.turn {m : Machine} {s : ExecState} {r : Outcome (Option Machine)} {o : Outcome Unit}
    (first : ∃ n, ∀ fuel, n ≤ fuel →
      Rules.turn ctx (seedLoop ctx vis.count fuel) vis steps m s = some r)
    (rest : Turned ctx vis steps r o) : Ends ctx vis steps m s o := by
  obtain ⟨n, first⟩ := first
  have later : ∀ k, (∀ fuel, k ≤ fuel → loop ctx (fuel + 1) vis steps m s = some o) →
      Ends ctx vis steps m s o := fun k h => by
    refine ⟨k + 1, fun fuel le => ?_⟩
    obtain ⟨fuel, rfl⟩ : ∃ f, fuel = f + 1 := ⟨fuel - 1, by omega⟩
    exact h fuel (by omega)
  unfold seedLoop at first
  cases r with
  | stop t =>
    refine later n fun fuel le => ?_
    rw [loop]
    simp only [first fuel le]
    exact congrArg some rest.symm
  | fail e =>
    refine later n fun fuel le => ?_
    rw [loop]
    simp only [first fuel le]
    exact congrArg some rest.symm
  | ok t left =>
    cases left with
    | none =>
      refine later n fun fuel le => ?_
      rw [loop]
      simp only [first fuel le]
      exact congrArg some rest.symm
    | some m' =>
      obtain ⟨n', rest⟩ := rest
      refine later (max n n') fun fuel le => ?_
      rw [loop]
      simp only [first fuel (by omega)]
      exact rest fuel (by omega)

/-- A kept cursor reads what the step's own would. -/
def CursorOk (ctx : Ctx) (vis : Vis) : Step → Cursor → Prop
  | .lookup pred perm _ _ _ src, c =>
    ctx.rels[pred]? = some c.rel ∧ c.perm = perm ∧ c.view = vis.view src
  | _, _ => False

def CursorsOk (ctx : Ctx) (vis : Vis) (steps : List Step) (cursors : List (Option Cursor)) : Prop :=
  cursors.length = steps.length ∧ ∀ (k : Nat) c step, cursors[k]? = some (some c) →
    steps[k]? = some step → CursorOk ctx vis step c

/-- The explain rows a subtree leaves behind. -/
def LitsKept (vis : Vis) (before after : List LitRow) : Prop :=
  before <+: after ∧ (vis.explain = false → after = before)

theorem LitsKept.refl (lits : List LitRow) : LitsKept vis lits lits :=
  ⟨List.prefix_refl _, fun _ => rfl⟩

structure Sits (m : Machine) (k : Nat) (b : Binding) : Prop where
  frames : m.frames.length = k
  vars : envOf m.vars = b.vars
  level : m.level = b.level
  height : m.height = b.height
  lits : m.lits = b.lits

/-- What the loop does where the walk ended in `r`: after a normal end it takes the next
alternative of the frames below, the array and the stacks as `m` has them. -/
def Follows (ctx : Ctx) (vis : Vis) (steps : List Step) (K : Outcome Unit → Prop) (m : Machine)
    (r : Outcome Unit) : Prop :=
  match r with
  | .ok t _ => ∃ lits cursors, LitsKept vis m.lits lits ∧ CursorsOk ctx vis steps cursors ∧
      ∀ o, Resumes ctx vis steps (advance vis steps m.vars m.out lits cursors m.frames) t o → K o
  | .stop t => K (.stop t)
  | .fail e => K (.fail e)

theorem Follows.mono {K K' : Outcome Unit → Prop} {m : Machine} {r : Outcome Unit}
    (h : Follows ctx vis steps K m r) (le : ∀ o, K o → K' o) : Follows ctx vis steps K' m r := by
  cases r with
  | ok t a =>
    obtain ⟨lits, cursors, kept, ok, next⟩ := h
    exact ⟨lits, cursors, kept, ok, fun o resumes => le o (next o resumes)⟩
  | stop t => exact le _ h
  | fail e => exact le _ h

/-- The array reaches past everything a step sets. -/
def Inside (steps : List Step) (vars : List (Option Value)) : Prop :=
  ∀ step ∈ steps, ∀ b ∈ eachBind step, b.2 < vars.length

def Frame.opened (m : Machine) (n : Nat) : Frame :=
  ⟨m.out.alts.length, m.out.alts.length, m.out.alts.length + n, m.out.vals.length, m.level,
    m.height, m.lits.length⟩

/-- The array while a step's frame is open: as before it but for what the step sets. -/
def Opened (step : Step) (before vars : List (Option Value)) : Prop :=
  ∃ row, vars = setBinds (eachBind step) row before

def Machine.took (vis : Vis) (m : Machine) (k : Nat) (step : Step) (alts : List Alt) (i : Nat)
    (a : Alt) (cursors : List (Option Cursor)) : Machine where
  vars := setBinds (eachBind step) (a.row.map some) m.vars
  out := m.out.pushAll alts
  frames := { Frame.opened m alts.length with next := m.out.alts.length + i + 1 } :: m.frames
  lits := if vis.explain then m.lits ++ litRow k step a else m.lits
  level := m.level.weakest a.tier
  height := max m.height a.prov.height
  cursors := cursors

section Open

variable {m : Machine} {step : Step} {alts : List Alt} {i : Nat} {vars : List (Option Value)}
variable {lits : List LitRow} {cursors : List (Option Cursor)}

theorem advance_take {a : Alt} (here : steps[m.frames.length]? = some step)
    (there : alts[i]? = some a) (opened : Opened step m.vars vars)
    (kept : LitsKept vis m.lits lits) :
    advance vis steps vars (m.out.pushAll alts) lits cursors
        ({ Frame.opened m alts.length with next := m.out.alts.length + i } :: m.frames) =
      some (m.took vis m.frames.length step alts i a cursors) := by
  obtain ⟨row, rfl⟩ := opened
  obtain ⟨f, held, values, tier, prov, ordinal⟩ := Alts.pushAll_alt there m.out
  obtain ⟨lt, _⟩ := List.getElem?_eq_some_iff.mp there
  have lit : (⟨(a.row.map some).filterMap id, a.tier, a.prov, f.ordinal⟩ : Alt) = a := by
    rw [ordinal]
    simp
  rw [advance]
  simp only [here, held, values, tier, prov, lit]
  rw [if_pos (by simp only [Frame.opened]; omega)]
  unfold Machine.took Frame.opened
  simp only [setBinds_again]
  congr 2
  by_cases explain : vis.explain = true
  · obtain ⟨more, rfl⟩ := kept.1
    rw [if_pos explain, if_pos explain, List.take_left]
  · rw [if_neg explain, if_neg explain]
    exact kept.2 (Bool.eq_false_iff.mpr explain)

theorem advance_pop (here : steps[m.frames.length]? = some step) (past : alts.length ≤ i)
    (opened : Opened step m.vars vars) (unset : ∀ b ∈ eachBind step, envOf m.vars b.2 = none) :
    advance vis steps vars (m.out.pushAll alts) lits cursors
        ({ Frame.opened m alts.length with next := m.out.alts.length + i } :: m.frames) =
      advance vis steps m.vars m.out lits cursors m.frames := by
  obtain ⟨row, rfl⟩ := opened
  have popped : (⟨(m.out.pushAll alts).alts.take (Frame.opened m alts.length).first,
      (m.out.pushAll alts).vals.take (Frame.opened m alts.length).vals⟩ : Alts) = m.out :=
    Alts.pushAll_take alts m.out
  have none' : (m.out.pushAll alts).alts[m.out.alts.length + i]? = none :=
    List.getElem?_eq_none (by rw [Alts.pushAll_length]; omega)
  rw [advance]
  simp only [here, none', popped]
  rw [setBinds_again, setBinds_unset unset]

theorem Sits.took {k : Nat} {b : Binding} (sits : Sits m k b)
    (inside : ∀ e ∈ eachBind step, e.2 < m.vars.length) (a : Alt) :
    Sits (m.took vis k step alts i a cursors) (k + 1) (b.take vis k step a) where
  frames := by
    simp only [Machine.took, List.length_cons, sits.frames]
  vars := by
    simp only [Machine.took, Binding.take, takeRow, ← sits.vars]
    exact envOf_setBinds a.row inside
  level := by simp only [Machine.took, Binding.take, sits.level]
  height := by simp only [Machine.took, Binding.take, sits.height]
  lits := by simp only [Machine.took, Binding.take, sits.lits]

theorem each_follows {k : Nat} (alts : List Alt) (f : Alt → Exec Unit)
    (sits : m.frames.length = k) (here : steps[k]? = some step)
    (unset : ∀ b ∈ eachBind step, envOf m.vars b.2 = none)
    (next : ∀ (i : Nat) a s cursors, alts[i]? = some a → CursorsOk ctx vis steps cursors →
      Follows ctx vis steps (Ends ctx vis steps (m.took vis k step alts i a cursors) s)
        (m.took vis k step alts i a cursors) (f a s))
    {rest : List Alt} (left : alts.drop i = rest) (opened : Opened step m.vars vars)
    (kept : LitsKept vis m.lits lits) (ok : CursorsOk ctx vis steps cursors) (s : ExecState) :
    Follows ctx vis steps (Resumes ctx vis steps (advance vis steps vars (m.out.pushAll alts) lits
        cursors ({ Frame.opened m alts.length with next := m.out.alts.length + i } :: m.frames)) s)
      m (Exec.each f rest s) := by
  subst sits
  induction rest generalizing i vars lits cursors s with
  | nil =>
    rw [advance_pop here (List.drop_eq_nil_iff.mp left) opened unset]
    exact ⟨lits, cursors, kept, ok, fun _ resumes => resumes⟩
  | cons a rest ih =>
    have there : alts[i]? = some a := by
      rw [← Nat.add_zero i, ← List.getElem?_drop, left]
      rfl
    have left' : alts.drop (i + 1) = rest := by
      rw [← List.drop_drop, left]
      rfl
    rw [advance_take here there opened kept]
    have first := next i a s cursors there ok
    unfold Exec.each Exec.bind
    cases eq : f a s with
    | stop t =>
      rw [eq] at first
      exact first
    | fail e =>
      rw [eq] at first
      exact first
    | ok t u =>
      rw [eq] at first
      obtain ⟨lits', cursors', kept', ok', goes⟩ := first
      have took : LitsKept vis m.lits (m.took vis m.frames.length step alts i a cursors).lits := by
        unfold Machine.took
        by_cases explain : vis.explain = true
        · exact ⟨by rw [if_pos explain]; exact List.prefix_append _ _, fun no => by simp [no] at explain⟩
        · exact ⟨by rw [if_neg explain], fun _ => if_neg explain⟩
      have opened' : Opened step m.vars (setBinds (eachBind step) (a.row.map some) m.vars) :=
        ⟨_, rfl⟩
      have := ih left' opened' ⟨took.1.trans kept'.1, fun no => (kept'.2 no).trans (took.2 no)⟩ ok' t
      exact this.mono fun o resumes => goes o resumes

end Open

/-- With enough turns the stacks take a step's alternatives as the walk lists them. -/
def Pushes (ctx : Ctx) (vis : Vis) (steps : List Step) (k : Nat) (env : Env)
    (cursors : List (Option Cursor)) (out : Alts) (step : Step) (s : ExecState) : Prop :=
  ∃ cursors', CursorsOk ctx vis steps cursors' ∧ ∃ n, ∀ fuel, n ≤ fuel →
    expandFlat ctx (seedLoop ctx vis.count fuel) vis k env cursors out step s =
      some (Exec.bind (expand ctx vis k env step)
        (fun alts => Exec.pure (out.pushAll alts, cursors')) s)

/-- With enough turns the loop runs a hoisted reach's seed. -/
def SeedEnds (ctx : Ctx) (count : Bool) (seed : List Step) : Prop :=
  ∀ s, ∃ n, ∀ fuel, n ≤ fuel → seedLoop ctx count fuel seed s =
    some (start count seed (walk ctx (Vis.complete count) 0 (Binding.start emptyEnv) seed) s)

section Push

variable {k : Nat} {env : Env} {cursors : List (Option Cursor)} {out : Alts} {s : ExecState}

theorem CursorsOk.set (ok : CursorsOk ctx vis steps cursors) {step : Step}
    (here : steps[k]? = some step) {c : Cursor} (own : CursorOk ctx vis step c) :
    CursorsOk ctx vis steps (cursors.set k (some c)) := by
  refine ⟨by rw [List.length_set, ok.1], fun j c' step' held here' => ?_⟩
  rw [List.getElem?_set] at held
  split at held
  · rename_i eq
    subst eq
    split at held
    · rw [here, Option.some.injEq] at here'
      cases held
      exact here' ▸ own
    · cases held
  · exact ok.2 j c' step' held here'

theorem pushes_scan {pred : PredId} {perm : List Nat} {binds : List Bind} {checks : List Check}
    {src : Src} (ok : CursorsOk ctx vis steps cursors)
    (whole : PermOk ctx (.scan pred perm binds checks src)) :
    Pushes ctx vis steps k env cursors out (.scan pred perm binds checks src) s := by
  obtain ⟨whole, wide⟩ := whole pred perm (.inl ⟨binds, checks, src, rfl⟩)
  refine ⟨cursors, ok, 0, fun fuel _ => ?_⟩
  simp only [expandFlat, expand, expandPlain, Exec.bind]
  cases hr : ctx.rels[pred]? with
  | none => rfl
  | some rel =>
    cases hw : wants ctx.src.tables env binds checks with
    | none => rfl
    | some ws =>
      simp only
      rw [Alts.relationRows _ _ _ whole fun s mem => (wide rel hr).scan mem]
      rfl

theorem pushes_lookup {pred : PredId} {perm : List Nat} {key : List KeyPart} {binds : List Bind}
    {checks : List Check} {src : Src} (ok : CursorsOk ctx vis steps cursors)
    (here : steps[k]? = some (.lookup pred perm key binds checks src))
    (whole : PermOk ctx (.lookup pred perm key binds checks src)) :
    Pushes ctx vis steps k env cursors out (.lookup pred perm key binds checks src) s := by
  obtain ⟨whole, wide⟩ := whole pred perm (.inr ⟨key, binds, checks, src, rfl⟩)
  obtain ⟨lt, _⟩ := List.getElem?_eq_some_iff.mp here
  obtain ⟨slot, held⟩ : ∃ slot, cursors[k]? = some slot :=
    ⟨_, List.getElem?_eq_getElem (ok.1 ▸ lt)⟩
  cases hr : ctx.rels[pred]? with
  | none =>
    refine ⟨cursors, ok, 0, fun fuel _ => ?_⟩
    simp only [expandFlat, expand, expandPlain, hr]
    rfl
  | some rel =>
    cases hk : parts ctx.src.tables env key with
    | none =>
      refine ⟨cursors, ok, 0, fun fuel _ => ?_⟩
      simp only [expandFlat, expand, expandPlain, hr, hk]
      rfl
    | some key' =>
      cases hw : wants ctx.src.tables env binds checks with
      | none =>
        refine ⟨cursors, ok, 0, fun fuel _ => ?_⟩
        simp only [expandFlat, expand, expandPlain, hr, hk, hw]
        rfl
      | some ws =>
        -- a cursor kept from an earlier binding stands for the same index and view
        have own : slot.getD ⟨rel, perm, vis.view src⟩ = ⟨rel, perm, vis.view src⟩ := by
          cases slot with
          | none => rfl
          | some c =>
            obtain ⟨hr', rfl, hv⟩ := ok.2 k c _ held here
            rw [hr, Option.some.injEq] at hr'
            subst hr'
            rw [← hv]
            rfl
        refine ⟨cursors.set k (some ⟨rel, perm, vis.view src⟩),
          ok.set here ⟨hr, rfl, rfl⟩, 0, fun fuel _ => ?_⟩
        simp only [expandFlat, expand, expandPlain, hr, hk, hw, held, own, Cursor.seek]
        rw [Alts.relationRows (rel.seek perm (vis.view src) key') _ _ whole
          fun s mem => (wide rel hr).scan (List.mem_filter.mp mem).1]
        rfl

theorem pushes_multi {slot : Nat} {cats : CatSet} {depth : Option Nat} {seed : List Step}
    {seedVar : Nat} {backward : Bool} {bind : Nat} {src : Src}
    (ok : CursorsOk ctx vis steps cursors) (seeded : SeedEnds ctx vis.count seed) :
    Pushes ctx vis steps k env cursors out
      (.reachMulti slot cats depth seed seedVar backward bind src) s := by
  obtain ⟨n, seeded⟩ := seeded { s with out := [] }
  refine ⟨cursors, ok, n, fun fuel le => ?_⟩
  simp only [expandFlat, expand]
  have same : ∀ (flat : Unit → Exec (Alts × List (Option Cursor))) (tree : Unit → Exec (List Alt)),
      (∀ t, flat () t = Exec.bind (tree ()) (fun alts => Exec.pure (out.pushAll alts, cursors)) t) →
      ∀ (fill : ExecState → Exec Unit) (filled : Outcome Unit), filled = fill s s →
        Exec.bind (fun _ => filled) flat s =
          Exec.bind (fun s => Exec.bind (fill s) tree s)
            (fun alts => Exec.pure (out.pushAll alts, cursors)) s := by
    rintro flat tree agree fill _ rfl
    unfold Exec.bind at agree ⊢
    dsimp only
    cases fill s s with
    | stop t => rfl
    | fail e => rfl
    | ok t a => exact agree t
  cases held : s.multi slot with
  | some m =>
    refine congrArg some (same _ _ (fun t => ?_) _ _ ?_)
    · unfold Exec.bind
      dsimp only
      cases t.multi slot with
      | none => rfl
      | some m => rfl
    · rw [held]
      rfl
  | none =>
    simp only [seeded fuel le, Option.map_some, Option.some.injEq]
    refine same _ _ (fun t => ?_) _ _ ?_
    · unfold Exec.bind
      dsimp only
      cases t.multi slot with
      | none => rfl
      | some m => rfl
    · rw [held]
      rfl

end Push

def Walks (ctx : Ctx) (vis : Vis) (steps : List Step) (k : Nat) (b : Binding)
    (rest : List Step) : Prop :=
  ∀ m s, Sits m k b → Inside steps m.vars → CursorsOk ctx vis steps m.cursors →
    Follows ctx vis steps (Ends ctx vis steps m s) m (walk ctx vis k b rest s)

theorem walks_nil {k : Nat} {b : Binding} (here : steps.drop k = []) (full : steps ≠ []) :
    Walks ctx vis steps k b [] := by
  intro m s sits _ ok
  have none' : steps[m.frames.length]? = none := by
    rw [sits.frames]
    exact List.getElem?_eq_none (List.drop_eq_nil_iff.mp here)
  have same : (⟨envOf m.vars, m.level, m.height, m.lits⟩ : Binding) = b := by
    rw [sits.vars, sits.level, sits.height, sits.lits]
  refine ⟨m.lits, m.cursors, .refl _, ok, fun o resumes => ?_⟩
  refine Ends.turn (r := .ok { s with out := s.out ++ [b] }
    (advance vis steps m.vars m.out m.lits m.cursors m.frames)) ⟨0, fun fuel _ => ?_⟩ resumes
  unfold turn
  simp only [none', same, List.isEmpty_iff, full, if_false]
  rfl

theorem walks_cons {k : Nat} {b : Binding} {step : Step} {rest : List Step}
    (here : steps[k]? = some step) (unset : ∀ e ∈ eachBind step, b.vars e.2 = none)
    (pushes : ∀ env cursors out s, CursorsOk ctx vis steps cursors →
      Pushes ctx vis steps k env cursors out step s)
    (next : ∀ a, Walks ctx vis steps (k + 1) (b.take vis k step a) rest) :
    Walks ctx vis steps k b (step :: rest) := by
  intro m s sits inside ok
  obtain ⟨cursors, ok', n, pushed⟩ := pushes b.vars m.cursors m.out s ok
  have own : ∀ e ∈ eachBind step, e.2 < m.vars.length :=
    inside step (List.mem_of_getElem? here)
  -- the turn that opens the frame
  have first : ∀ r, Exec.bind (Exec.bind (expand ctx vis k b.vars step)
        (fun alts => Exec.pure (m.out.pushAll alts, cursors)))
      (fun r => Exec.bind (Exec.charge vis.count (r.1.alts.length - m.out.alts.length)) fun _ =>
        Exec.pure (advance vis steps m.vars r.1 m.lits r.2
          (⟨m.out.alts.length, m.out.alts.length, r.1.alts.length, m.out.vals.length, m.level,
            m.height, m.lits.length⟩ :: m.frames))) s = r →
      ∃ n, ∀ fuel, n ≤ fuel → turn ctx (seedLoop ctx vis.count fuel) vis steps m s = some r := by
    rintro r rfl
    refine ⟨n, fun fuel le => ?_⟩
    unfold turn
    simp only [sits.frames, sits.vars, here, pushed fuel le, Option.map_some]
    rfl
  simp only [walk]
  unfold Exec.bind at first ⊢
  cases expanded : expand ctx vis k b.vars step s with
  | stop t =>
    simp only [expanded] at first
    exact Ends.turn (first _ rfl) rfl
  | fail e =>
    simp only [expanded] at first
    exact Ends.turn (first _ rfl) rfl
  | ok t alts =>
    simp only [expanded, Exec.pure, Alts.pushAll_length, Nat.add_sub_cancel_left] at first ⊢
    cases charged : Exec.charge vis.count alts.length t with
    | stop u =>
      simp only [charged] at first
      exact Ends.turn (first _ rfl) rfl
    | fail e =>
      simp only [charged] at first
      exact Ends.turn (first _ rfl) rfl
    | ok u x =>
      simp only [charged] at first
      have unset' : ∀ e ∈ eachBind step, envOf m.vars e.2 = none := fun e mem => by
        rw [sits.vars]
        exact unset e mem
      have inside' : ∀ i a cursors, Inside steps (m.took vis k step alts i a cursors).vars :=
        fun i a cursors st mem e he => by
          simp only [Machine.took, setBinds_length]
          exact inside st mem e he
      have opened : Opened step m.vars m.vars := ⟨[], (setBinds_unset unset').symm⟩
      have followed := each_follows (i := 0) alts
        (fun a => walk ctx vis (k + 1) (b.take vis k step a) rest) sits.frames here unset'
        (fun i a s cursors _ okc => next a _ s (sits.took own a) (inside' i a cursors) okc)
        rfl opened (.refl m.lits) ok' u
      exact followed.mono fun o resumes => Ends.turn (first _ rfl) resumes

theorem varSpan_foldl {β : Type} (f : β → Nat) (bs : List β) (n : Nat) :
    n ≤ bs.foldl (fun n b => max n (f b + 1)) n ∧
      ∀ b ∈ bs, f b < bs.foldl (fun n b => max n (f b + 1)) n := by
  induction bs generalizing n with
  | nil => exact ⟨le_rfl, by simp⟩
  | cons b rest ih =>
    obtain ⟨le, lt⟩ := ih (max n (f b + 1))
    refine ⟨(Nat.le_max_left _ _).trans le, List.forall_mem_cons.mpr ⟨?_, lt⟩⟩
    exact Nat.lt_of_lt_of_le (Nat.lt_of_lt_of_le (Nat.lt_succ_self _) (Nat.le_max_right _ _)) le

theorem bound_vars (bound : List (Nat × Value)) (vars : List (Option Value))
    (inside : ∀ b ∈ bound, b.1 < vars.length) :
    (bound.foldl (fun vars b => vars.set b.1 (some b.2)) vars).length = vars.length ∧
      envOf (bound.foldl (fun vars b => vars.set b.1 (some b.2)) vars) =
        bound.foldl (fun (env : Env) b => Function.update env b.1 (some b.2)) (envOf vars) := by
  induction bound generalizing vars with
  | nil => exact ⟨rfl, rfl⟩
  | cons b rest ih =>
    have lt := inside b List.mem_cons_self
    obtain ⟨length, env⟩ := ih (vars.set b.1 (some b.2)) fun b' mem => by
      rw [List.length_set]
      exact inside b' (List.mem_cons_of_mem _ mem)
    rw [List.length_set] at length
    rw [envOf_set lt] at env
    exact ⟨length, env⟩

theorem start_vars (bound : List (Nat × Value)) (steps : List Step) :
    envOf (Machine.start bound steps).vars = bindBound bound ∧
      Inside steps (Machine.start bound steps).vars := by
  obtain ⟨le, spans⟩ := varSpan_foldl Prod.snd (steps.flatMap eachBind)
    (bound.foldl (fun n b => max n (b.1 + 1)) 0)
  have inside : ∀ b ∈ bound, b.1 < (List.replicate (varSpan bound steps) (none : Option Value)).length :=
    fun b mem => by
      rw [List.length_replicate]
      exact Nat.lt_of_lt_of_le ((varSpan_foldl Prod.fst bound 0).2 b mem) le
  obtain ⟨length, env⟩ := bound_vars bound _ inside
  constructor
  · refine env.trans (congrArg (bound.foldl _) (funext fun v => ?_))
    unfold envOf emptyEnv
    rw [List.getElem?_replicate]
    split <;> rfl
  · intro step mem b hb
    refine Nat.lt_of_lt_of_eq ?_ length.symm
    rw [List.length_replicate]
    exact spans b (List.mem_flatMap.mpr ⟨step, mem, hb⟩)

theorem runs_start (vis : Vis) (bound : List (Nat × Value))
    (walks : steps ≠ [] →
      Walks ctx vis steps 0 (Binding.start (bindBound bound)) steps) (s : ExecState) :
    ∃ n, ∀ fuel, n ≤ fuel → runLoop (loop ctx fuel vis steps) vis.count bound steps s =
      some (start vis.count steps (walk ctx vis 0 (Binding.start (bindBound bound)) steps) s) := by
  unfold runLoop start
  dsimp only
  generalize ran : (if steps.isEmpty then Exec.bind (Exec.charge vis.count 1) fun _ =>
      walk ctx vis 0 (Binding.start (bindBound bound)) steps
    else walk ctx vis 0 (Binding.start (bindBound bound)) steps)
    { s with all := fun _ => none } = r
  by_cases tripped : (vis.count && s.budget.tripped.isSome) = true
  · refine ⟨0, fun fuel _ => ?_⟩
    rw [if_pos tripped, if_pos tripped]
  · have ends : Ends ctx vis steps (Machine.start bound steps) { s with all := fun _ => none } r := by
      obtain ⟨env, inside⟩ := start_vars bound steps
      subst ran
      cases steps with
      | nil =>
        have shown : (⟨envOf (Machine.start bound []).vars, .fact, 0, []⟩ : Binding) =
            Binding.start (bindBound bound) := by
          rw [env]
          rfl
        have same := congrArg emit shown
        refine Ends.turn ⟨0, fun fuel _ => ?_⟩ (r := Exec.bind (Exec.charge vis.count 1) (fun _ =>
          Exec.bind (emit (Binding.start (bindBound bound))) fun _ => Exec.pure none)
          { s with all := fun _ => none }) ?_
        · rw [← shown]
          rfl
        · simp only [List.isEmpty_nil, if_true, walk]
          unfold Exec.bind
          cases Exec.charge vis.count 1 { s with all := fun _ => none } with
          | ok t a => exact rfl
          | stop t => exact rfl
          | fail e => exact rfl
      | cons step rest =>
        have cursors : CursorsOk ctx vis (step :: rest)
            (Machine.start bound (step :: rest)).cursors := by
          refine ⟨List.length_map _, fun k c st held _ => ?_⟩
          obtain ⟨_, _, eq⟩ := List.mem_map.mp (List.mem_of_getElem? held)
          cases eq
        have followed := walks (List.cons_ne_nil _ _) (Machine.start bound (step :: rest))
          { s with all := fun _ => none } ⟨rfl, env, rfl, rfl, rfl⟩ inside cursors
        simp only [List.isEmpty_cons, Bool.false_eq_true, if_false]
        cases eq : walk ctx vis 0 (Binding.start (bindBound bound)) (step :: rest)
            { s with all := fun _ => none } with
        | stop t =>
          rw [eq] at followed
          exact followed
        | fail e =>
          rw [eq] at followed
          exact followed
        | ok t a =>
          rw [eq] at followed
          obtain ⟨_, _, _, _, resumes⟩ := followed
          exact resumes _ rfl
    obtain ⟨n, ends⟩ := ends
    refine ⟨n, fun fuel le => ?_⟩
    rw [if_neg tripped, if_neg tripped, ends fuel le]
    cases r <;> rfl

end Loop

section Sound

variable {ctx : Ctx}

theorem StepSound.unset {bound : Bound} {step : Step} (sound : StepSound ctx bound step) :
    ∀ e ∈ eachBind step, bound e.2 = false := by
  cases step with
  | reachMulti slot cats depth seed seedVar backward bind src =>
    simp only [StepSound] at sound
    rintro e mem
    obtain rfl := List.mem_singleton.mp mem
    exact sound.1
  | _ =>
    simp only [StepSound] at sound
    exact sound.1

theorem StepSound.perm {bound : Bound} {step : Step} (sound : StepSound ctx bound step) :
    PermOk ctx step := by
  cases step with
  | reachMulti slot cats depth seed seedVar backward bind src =>
    rintro _ _ (⟨_, _, _, eq⟩ | ⟨_, _, _, _, eq⟩) <;> cases eq
  | _ =>
    simp only [StepSound] at sound
    exact sound.2

theorem takeRow_bound {bound : Bound} {env : Env} {step : Step} {row : Row}
    (covers : ∀ v, (env v).isSome = true → bound v = true) :
    ∀ v, (takeRow step env row v).isSome = true → bindsAfter bound step v = true := by
  unfold takeRow bindsAfter
  induction eachBind step generalizing env bound with
  | nil =>
    intro v set
    simpa using covers v set
  | cons b rest ih =>
    intro v set
    have first : ∀ w, (takeBind row env b w).isSome = true → (bound w || b.2 == w) = true := by
      intro w set
      unfold takeBind at set
      by_cases own : w = b.2
      · simp [own]
      · rw [Function.update_of_ne own] at set
        simp [covers w set]
    simpa [or_assoc] using ih first v set

mutual

theorem pushes_step : ∀ (step : Step) (vis : Vis) (steps : List Step) (k : Nat) (bound : Bound),
    StepSound ctx bound step → steps[k]? = some step → ∀ env cursors out s,
      CursorsOk ctx vis steps cursors → Pushes ctx vis steps k env cursors out step s
  | .reachMulti slot cats depth seed seedVar backward bind src => by
    intro vis steps k bound sound here env cursors out s ok
    simp only [StepSound] at sound
    have seeded : SeedEnds ctx vis.count seed := fun s =>
      runs_start (Vis.complete vis.count) []
        (fun full => walks_steps seed _ _ _ _ _ sound.2 full (fun v set => by
          simp [bindBound, Binding.start, emptyEnv] at set) rfl) s
    exact pushes_multi ok seeded
  | .scan pred perm binds checks src => fun _ _ _ _ sound here env cursors out s ok =>
    pushes_scan ok sound.perm
  | .lookup pred perm key binds checks src => fun _ _ _ _ sound here env cursors out s ok =>
    pushes_lookup ok here sound.perm
  | .neg pred perm key => fun _ _ _ _ _ _ _ _ _ _ ok => ⟨_, ok, 0, fun _ _ => rfl⟩
  | .cmp op l r => fun _ _ _ _ _ _ _ _ _ _ ok => ⟨_, ok, 0, fun _ _ => rfl⟩
  | .assign var part => fun _ _ _ _ _ _ _ _ _ _ ok => ⟨_, ok, 0, fun _ _ => rfl⟩
  | .call b cats args binds checks src => fun _ _ _ _ _ _ _ _ _ _ ok => ⟨_, ok, 0, fun _ _ => rfl⟩
  | .negCall b cats args => fun _ _ _ _ _ _ _ _ _ _ ok => ⟨_, ok, 0, fun _ _ => rfl⟩
  | .reach cats depth source target binds checks src => fun _ _ _ _ _ _ _ _ _ _ ok =>
    ⟨_, ok, 0, fun _ _ => rfl⟩
  | .negReach cats depth source target => fun _ _ _ _ _ _ _ _ _ _ ok => ⟨_, ok, 0, fun _ _ => rfl⟩

theorem walks_steps : ∀ (rest : List Step) (vis : Vis) (steps : List Step) (k : Nat) (b : Binding)
    (bound : Bound), StepsSound ctx bound rest → steps ≠ [] →
      (∀ v, (b.vars v).isSome = true → bound v = true) → steps.drop k = rest →
      Walks ctx vis steps k b rest
  | [] => fun _ _ _ _ _ _ full _ here => walks_nil here full
  | step :: rest => by
    intro vis steps k b bound sound full covers here
    simp only [StepsSound] at sound
    have at' : steps[k]? = some step := by
      rw [← Nat.add_zero k, ← List.getElem?_drop, here]
      rfl
    have here' : steps.drop (k + 1) = rest := by
      rw [← List.drop_drop, here]
      rfl
    refine walks_cons at' (fun e mem => ?_) (fun env cursors out s ok =>
      pushes_step step vis steps k bound sound.1 at' env cursors out s ok) fun a =>
        walks_steps rest _ _ _ _ _ sound.2 full (takeRow_bound covers) here'
    have no := sound.1.unset e mem
    cases held : b.vars e.2 with
    | none => rfl
    | some v =>
      rw [covers e.2 (by rw [held]; rfl)] at no
      cases no

end

theorem loopBody_runBody {steps : List Step} {mode : Mode} {bound : Bound}
    (sound : StepsSound ctx bound steps)
    (covers : ∀ v, (bindBound mode.bound v).isSome = true → bound v = true) (s : ExecState) :
    ∃ n, ∀ fuel, n ≤ fuel → loopBody ctx fuel steps mode s = some (runBody ctx steps mode s) := by
  have := runs_start (Vis.ofMode mode) mode.bound
    (fun full => walks_steps steps _ _ _ _ _ sound full covers rfl) s
  cases mode <;> exact this

end Sound

end Glia.Rules
