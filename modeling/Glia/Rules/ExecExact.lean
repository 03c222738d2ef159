import Glia.Kit.Grouping
import Glia.Rules.Budgeted
import Glia.Rules.Runs

/-! A run that ends normally emits exactly what its steps lead to: the memo, the closure's
walks and the hoisted reaches it keeps are what running them again would give. -/
namespace Glia.Rules

open Algo

structure Hoist where
  slot : Nat
  cats : CatSet
  depth : Option Nat
  seed : List Step
  seedVar : Nat
  backward : Bool

mutual

def stepHoists : Step → List Hoist
  | .reachMulti slot cats depth seed seedVar backward _ _ =>
    ⟨slot, cats, depth, seed, seedVar, backward⟩ :: hoists seed
  | .scan _ _ _ _ _ => []
  | .lookup _ _ _ _ _ _ => []
  | .neg _ _ _ => []
  | .cmp _ _ _ => []
  | .assign _ _ => []
  | .call _ _ _ _ _ _ => []
  | .negCall _ _ _ => []
  | .reach _ _ _ _ _ _ _ => []
  | .negReach _ _ _ _ => []

def hoists : List Step → List Hoist
  | [] => []
  | step :: rest => stepHoists step ++ hoists rest

end

def reachOf : Step → Option (CatSet × Option Nat)
  | .reach cats depth _ _ _ _ _ => some (cats, depth)
  | .negReach cats depth _ _ => some (cats, depth)
  | .scan _ _ _ _ _ => none
  | .lookup _ _ _ _ _ _ => none
  | .neg _ _ _ => none
  | .cmp _ _ _ => none
  | .assign _ _ => none
  | .call _ _ _ _ _ _ => none
  | .negCall _ _ _ => none
  | .reachMulti _ _ _ _ _ _ _ _ => none

def Placed (what : Nat → Option (CatSet × Option Nat)) (k : Nat) (steps : List Step) : Prop :=
  ∀ i step, steps[i]? = some step → ∀ r, reachOf step = some r → what (k + i) = some r

theorem Placed.tail {what : Nat → Option (CatSet × Option Nat)} {k : Nat} {step : Step}
    {rest : List Step} (h : Placed what k (step :: rest)) : Placed what (k + 1) rest := by
  intro i st at' r eq
  have := h (i + 1) st (by simpa using at') r eq
  rwa [show k + 1 + i = k + (i + 1) by omega]

theorem placed_self (steps : List Step) : Placed (fun k => (steps[k]?).bind reachOf) 0 steps := by
  intro i step at' r eq
  simp [at', eq]

def Agrees (heights : Nat → Nat) (multi : Nat → Option MultiState) : Prop :=
  ∀ slot m, multi slot = some m → heights slot = m.height

def Extends (fills : List Nat) (multi multi' : Nat → Option MultiState) : Prop :=
  (∀ slot m, multi slot = some m → multi' slot = some m) ∧
    ∀ slot, slot ∉ fills → multi' slot = multi slot

theorem Extends.refl (fills : List Nat) (multi : Nat → Option MultiState) :
    Extends fills multi multi := ⟨fun _ _ h => h, fun _ _ => rfl⟩

theorem Extends.trans {fills : List Nat} {a b c : Nat → Option MultiState}
    (h : Extends fills a b) (h' : Extends fills b c) : Extends fills a c :=
  ⟨fun slot m there => h'.1 slot m (h.1 slot m there),
    fun slot no => (h'.2 slot no).trans (h.2 slot no)⟩

theorem Extends.weaken {fills fills' : List Nat} {a b : Nat → Option MultiState}
    (h : Extends fills a b) (sub : ∀ slot ∈ fills, slot ∈ fills') : Extends fills' a b :=
  ⟨h.1, fun slot no => h.2 slot fun there => no (sub slot there)⟩

theorem Agrees.of_extends {heights : Nat → Nat} {fills : List Nat}
    {a b : Nat → Option MultiState} (h : Agrees heights b) (ext : Extends fills a b) :
    Agrees heights a :=
  fun slot m there => h slot m (ext.1 slot m there)

/-- Everything a state keeps is what running it again would give. -/
structure Coherent (ctx : Ctx) (hs : List Hoist) (what : Nat → Option (CatSet × Option Nat))
    (s : ExecState) : Prop where
  untripped : s.budget.tripped = none
  closure : s.closure.Coherent ctx.src
  memo : ∀ b key rows, s.memo.find b key = some rows → ∀ imp, (ctx.impls[b]?).join = some imp →
    ∃ found, imp key = .ok found ∧
      rows = calledRows ((ctx.decls[b]?.map BuiltinDecl.tiered).getD true) key.length found
  multi : ∀ h ∈ hs, ∀ m, s.multi h.slot = some m → ∀ heights, Agrees heights s.multi → ∀ y t,
    (y, t) ∈ m.reached ↔ MultiRow ctx h.cats h.depth h.seedVar h.backward
      (fun b => Runs ctx heights (Vis.complete true) 0 (Binding.start emptyEnv) h.seed b) y t
  seeds : ∀ h ∈ hs, ∀ m, s.multi h.slot = some m → ∀ heights, Agrees heights s.multi →
    MultiHeight h.seedVar
        (fun b => Runs ctx heights (Vis.complete true) 0 (Binding.start emptyEnv) h.seed b)
        m.height ∧
      RunsOk ctx heights (Vis.complete true) 0 (Binding.start emptyEnv) h.seed
  all : ∀ k rows, s.all k = some rows → ∀ cats depth, what k = some (cats, depth) → ∀ x y t,
    (x, y, t) ∈ rows ↔ ReachRow ctx.src cats depth x y t

section Exact

variable {ctx : Ctx} {hs : List Hoist} {what : Nat → Option (CatSet × Option Nat)}
variable {fills : List Nat}

/-- From a coherent state a normal end is coherent, emits nothing and returns exactly
`S`. -/
def Yields {α : Type} (ctx : Ctx) (hs : List Hoist) (what : Nat → Option (CatSet × Option Nat))
    (fills : List Nat) (m : Exec (List α)) (S : (Nat → Nat) → α → Prop) : Prop :=
  ∀ s t a, Coherent ctx hs what s → m s = .ok t a →
    Coherent ctx hs what t ∧ Extends fills s.multi t.multi ∧ t.out = s.out ∧
      ∀ heights, Agrees heights t.multi → ∀ x, x ∈ a ↔ S heights x

/-- From a coherent state a normal end is coherent and emits exactly `S`. -/
def Emits (ctx : Ctx) (hs : List Hoist) (what : Nat → Option (CatSet × Option Nat))
    (fills : List Nat) (m : Exec Unit) (S : (Nat → Nat) → Binding → Prop) : Prop :=
  ∀ s t a, Coherent ctx hs what s → m s = .ok t a →
    Coherent ctx hs what t ∧ Extends fills s.multi t.multi ∧ ∃ new, t.out = s.out ++ new ∧
      ∀ heights, Agrees heights t.multi → ∀ x, x ∈ new ↔ S heights x

def Tells {α : Type} (ctx : Ctx) (hs : List Hoist) (what : Nat → Option (CatSet × Option Nat))
    (m : Exec α) (P : (Nat → Nat) → Prop) : Prop :=
  ∀ s t a, Coherent ctx hs what s → m s = .ok t a → ∀ heights, Agrees heights t.multi → P heights

theorem bind_ok {α β : Type} {m : Exec α} {f : α → Exec β} {s u : ExecState} {b : β}
    (h : Exec.bind m f s = .ok u b) : ∃ t a, m s = .ok t a ∧ f a t = .ok u b := by
  unfold Exec.bind at h
  cases eq : m s with
  | ok t a =>
    rw [eq] at h
    exact ⟨t, a, rfl, h⟩
  | stop t => simp [eq] at h
  | fail e => simp [eq] at h

theorem charge_ok {count : Bool} {n : Nat} {s t : ExecState} {a : Unit}
    (h : Exec.charge count n s = .ok t a) (untripped : s.budget.tripped = none) :
    t = { s with budget := t.budget } ∧ t.budget.tripped = none := by
  unfold Exec.charge at h
  cases count
  · cases h
    exact ⟨rfl, untripped⟩
  · simp only [if_true] at h
    split at h
    · cases h
    · rename_i still
      cases h
      exact ⟨rfl, by simpa using still⟩

theorem Coherent.budget {s : ExecState} (h : Coherent ctx hs what s) {b : Budget}
    (untripped : b.tripped = none) : Coherent ctx hs what { s with budget := b } :=
  ⟨untripped, h.closure, h.memo, h.multi, h.seeds, h.all⟩

theorem Coherent.charge {count : Bool} {n : Nat} {s t : ExecState} {a : Unit}
    (h : Coherent ctx hs what s) (eq : Exec.charge count n s = .ok t a) :
    Coherent ctx hs what t ∧ t.multi = s.multi ∧ t.out = s.out := by
  obtain ⟨same, untripped⟩ := charge_ok eq h.untripped
  rw [same]
  exact ⟨h.budget untripped, rfl, rfl⟩

theorem yields_pure {α : Type} {l : List α} {S : (Nat → Nat) → α → Prop}
    (h : ∀ heights x, x ∈ l ↔ S heights x) : Yields ctx hs what fills (Exec.pure l) S := by
  intro s t a coherent eq
  cases eq
  exact ⟨coherent, .refl _ _, rfl, fun heights _ x => h heights x⟩

theorem yields_map {α β : Type} {m : Exec (List α)} {f : List α → List β}
    {S : (Nat → Nat) → α → Prop} {T : (Nat → Nat) → β → Prop} (hm : Yields ctx hs what fills m S)
    (h : ∀ heights a, (∀ x, x ∈ a ↔ S heights x) → ∀ y, y ∈ f a ↔ T heights y) :
    Yields ctx hs what fills (Exec.bind m fun a => Exec.pure (f a)) T := by
  intro s u b coherent eq
  obtain ⟨t, a, first, last⟩ := bind_ok eq
  obtain ⟨coherent', ext, out, mem⟩ := hm s t a coherent first
  cases last
  exact ⟨coherent', ext, out, fun heights agrees => h heights a (mem heights agrees)⟩

theorem memo_find_insert {m : Memo} {b : Nat} {key : List (Option Value)}
    {rows : List (Row × Tier)} {b' : Nat} {key' : List (Option Value)}
    {rows' : List (Row × Tier)} (h : (m.insert b key rows).find b' key' = some rows') :
    (b' = b ∧ key' = key ∧ rows' = rows) ∨ m.find b' key' = some rows' := by
  unfold Memo.insert at h
  simp only at h
  split at h
  · unfold Memo.find at h ⊢
    rw [List.find?_cons] at h
    split at h
    · rename_i same
      simp only [beq_iff_eq, Prod.mk.injEq] at same
      simp only [Option.map_some, Option.some.injEq] at h
      exact .inl ⟨same.1.symm, same.2.symm, h.symm⟩
    · exact .inr h
  · exact .inr h

theorem yields_memoised (b : Nat) (key : List (Option Value)) (imp : Builtin) (count : Bool)
    (at' : (ctx.impls[b]?).join = some imp) :
    Yields ctx hs what fills (memoised ctx b key imp count) fun _ x => ∃ found, imp key = .ok found ∧
      x ∈ calledRows ((ctx.decls[b]?.map BuiltinDecl.tiered).getD true) key.length found := by
  intro s t a coherent eq
  unfold memoised at eq
  cases found : s.memo.find b key with
  | some rows =>
    simp only [found] at eq
    obtain ⟨rows', called, same⟩ := coherent.memo b key rows found imp at'
    cases eq
    refine ⟨coherent, .refl _ _, rfl, fun _ _ x => ?_⟩
    rw [same]
    constructor
    · exact fun mem => ⟨rows', called, mem⟩
    · rintro ⟨_, called', mem⟩
      rw [called] at called'
      cases called'
      exact mem
  | none =>
    simp only [found, fillMemo] at eq
    cases called : imp key with
    | error message => simp [called] at eq
    | ok rows =>
      simp only [called] at eq
      obtain ⟨u, _, inserted, eq⟩ := bind_ok eq
      obtain ⟨v, _, charged, eq⟩ := bind_ok eq
      have kept : Coherent ctx hs what u := by
        cases inserted
        refine ⟨coherent.untripped, coherent.closure, ?_, coherent.multi, coherent.seeds, coherent.all⟩
        intro b' key' rows' there imp' at''
        rcases memo_find_insert there with ⟨eqB, eqKey, eqRows⟩ | there
        · subst eqB eqKey eqRows
          obtain rfl := Option.some.inj (at'.symm.trans at'')
          exact ⟨rows, called, rfl⟩
        · exact coherent.memo b' key' rows' there imp' at''
      have same : u.multi = s.multi ∧ u.out = s.out := by
        cases inserted
        exact ⟨rfl, rfl⟩
      obtain ⟨coherent', multi, out⟩ := kept.charge charged
      cases eq
      refine ⟨coherent', ?_, out.trans same.2, fun _ _ x => ?_⟩
      · rw [multi, same.1]
        exact .refl _ _
      · simp

theorem yields_call (b : Nat) (cats : Option CatSet) (args : List (Option KeyPart))
    (ws : List (Nat × Want)) (vis : Vis) (src : Src) (env : Env) :
    Yields ctx hs what fills (call ctx b cats args ws vis src env)
      fun _ => CallAlt ctx b cats args ws vis src env := by
  unfold call CallAlt
  cases at' : (ctx.impls[b]?).join with
  | some imp =>
    simp only [Option.isSome_some, if_true]
    cases resolved : opts ctx.src.tables env args with
    | none => exact yields_pure (by simp)
    | some key =>
      refine yields_map (yields_memoised b key imp vis.count at') fun _ rows mem a => ?_
      simp only [builtinAlts, List.mem_map, List.mem_filter]
      constructor
      · rintro ⟨r, ⟨there, passes⟩, rfl⟩
        obtain ⟨found, called, there⟩ := (mem r).mp there
        exact ⟨key, found, rfl, called, r, ⟨there, passes⟩, rfl⟩
      · rintro ⟨_, found, eq, called, r, ⟨there, passes⟩, rfl⟩
        cases eq
        exact ⟨r, ⟨(mem r).mpr ⟨found, called, there⟩, passes⟩, rfl⟩
  | none =>
    simp only [Option.isSome_none, Bool.false_eq_true, if_false]
    cases resolved : opts ctx.src.tables env (args.take 2) with
    | none => exact yields_pure (by simp)
    | some key =>
      simp only
      split
      · rename_i c rel x rep found
        refine yields_pure fun _ a => ?_
        obtain ⟨set, rfl, there⟩ := Option.bind_eq_some_iff.mp found
        have eq : c = set := by simpa using List.find?_some there
        subst eq
        simp only [Option.some.injEq, List.cons.injEq, and_true]
        constructor
        · exact fun mem => ⟨x, rep, c, rel, ⟨rfl, rfl⟩, rfl, there, mem⟩
        · rintro ⟨_, _, _, _, ⟨rfl, rfl⟩, rfl, found', mem⟩
          rw [there] at found'
          cases found'
          exact mem
      · rename_i no
        refine yields_pure fun _ a => ?_
        simp only [List.not_mem_nil, false_iff, not_exists, Option.some.injEq]
        rintro x rep set rel ⟨rfl, rfl, found, _⟩
        exact no set rel x rep (by simp [found]) rfl

theorem tells_true {α : Type} (m : Exec α) : Tells ctx hs what m fun _ => True :=
  fun _ _ _ _ _ _ _ => trivial

theorem tells_memoised (b : Nat) (key : List (Option Value)) (imp : Builtin) (count : Bool)
    (at' : (ctx.impls[b]?).join = some imp) :
    Tells ctx hs what (memoised ctx b key imp count) fun _ => ∃ found, imp key = .ok found := by
  intro s t a coherent eq _ _
  unfold memoised at eq
  cases found : s.memo.find b key with
  | some rows =>
    obtain ⟨rows', called, _⟩ := coherent.memo b key rows found imp at'
    exact ⟨rows', called⟩
  | none =>
    simp only [found, fillMemo] at eq
    cases called : imp key with
    | error message => simp [called] at eq
    | ok rows => exact ⟨rows, rfl⟩

theorem tells_call (b : Nat) (cats : Option CatSet) (args : List (Option KeyPart))
    (ws : List (Nat × Want)) (vis : Vis) (src : Src) (env : Env) :
    Tells ctx hs what (call ctx b cats args ws vis src env) fun _ => CallOk ctx b args env := by
  intro s t a coherent eq heights _ imp key at' resolved
  unfold call at eq
  simp only [at', Option.isSome_some, if_true, resolved] at eq
  obtain ⟨u, rows, called, rest⟩ := bind_ok eq
  have multi : t.multi = u.multi := by
    cases rest
    rfl
  exact tells_memoised b key imp vis.count at' s u rows coherent called (fun slot =>
    ((u.multi slot).map MultiState.height).getD 0) fun slot m held => by simp [held]

theorem mem_reach_walk {cats : CatSet} {depth : Option Nat} {source target : Option Value}
    {ws : List (Nat × Want)} {vis : Vis} {src : Src} (rows : List (Row × Tier))
    (mem : ∀ row t, (row, t) ∈ rows ↔ ∃ x y, ReachRow ctx.src cats depth x y t ∧
      EndIs source x ∧ EndIs target y ∧ row = [.node x, .node y]) (a : Alt) :
    a ∈ builtinAlts vis src ws rows ↔ ReachAlt ctx cats depth source target ws vis src a := by
  simp only [builtinAlts, List.mem_map, List.mem_filter, Bool.and_eq_true, ReachAlt, Prod.exists]
  constructor
  · rintro ⟨row, t, ⟨there, admitted, passes⟩, rfl⟩
    obtain ⟨x, y, reach, isX, isY, rfl⟩ := (mem row t).mp there
    exact ⟨x, y, t, reach, isX, isY, admitted, passes, rfl⟩
  · rintro ⟨x, y, t, reach, isX, isY, admitted, passes, rfl⟩
    exact ⟨_, t, ⟨(mem _ _).mpr ⟨x, y, reach, isX, isY, rfl⟩, admitted, passes⟩, rfl⟩

theorem endIs_none (x : NodeId) : EndIs none x := by
  intro v h
  cases h

theorem endIs_some (v : Value) (x : NodeId) : EndIs (some v) x ↔ v = .node x := by
  simp [EndIs]

theorem closureWalk_ok {cats : CatSet} {source : NodeId} {backward : Bool} {depth : Option Nat}
    (tiers : ctx.tiers = edgeTiers ctx.src) {s t : ExecState} {r : List (NodeId × Tier) × Nat}
    (coherent : Coherent ctx hs what s)
    (eq : closureWalk ctx cats source backward depth s = .ok t r) :
    Coherent ctx hs what t ∧ t.multi = s.multi ∧ t.out = s.out ∧
      ∀ y l, (y, l) ∈ r.1 ↔ SpreadRow ctx.src cats depth backward [(source, .fact)] y l := by
  unfold closureWalk at eq
  rw [tiers] at eq
  obtain ⟨closure, mem, _⟩ := coherent.closure.reach cats source backward depth
  cases eq
  exact ⟨⟨coherent.untripped, closure, coherent.memo, coherent.multi, coherent.seeds, coherent.all⟩, rfl, rfl, mem⟩

theorem yields_walk {cats : CatSet} {source : NodeId} {backward count : Bool}
    {depth : Option Nat} (tiers : ctx.tiers = edgeTiers ctx.src)
    {f : List (NodeId × Tier) → List Alt} {S : Alt → Prop}
    (h : ∀ rows, (∀ y l, (y, l) ∈ rows ↔
      SpreadRow ctx.src cats depth backward [(source, .fact)] y l) → ∀ a, a ∈ f rows ↔ S a) :
    Yields ctx hs what fills (Exec.bind (closureWalk ctx cats source backward depth) fun r =>
      Exec.bind (Exec.charge count r.2) fun _ => Exec.pure (f r.1)) fun _ => S := by
  intro s u b coherent eq
  obtain ⟨t, r, walked, eq⟩ := bind_ok eq
  obtain ⟨v, _, charged, eq⟩ := bind_ok eq
  obtain ⟨coherent', multi, out, mem⟩ := closureWalk_ok tiers coherent walked
  obtain ⟨coherent'', multi', out'⟩ := coherent'.charge charged
  cases eq
  refine ⟨coherent'', ?_, out'.trans out, fun _ _ a => h r.1 mem a⟩
  rw [multi', multi]
  exact .refl _ _

theorem yields_closureAll {k : Nat} {cats : CatSet} {depth : Option Nat} {count : Bool}
    (tiers : ctx.tiers = edgeTiers ctx.src) (at' : what k = some (cats, depth)) :
    Yields ctx hs what fills (closureAll ctx k cats depth count)
      fun _ r => ReachRow ctx.src cats depth r.1 r.2.1 r.2.2 := by
  intro s t a coherent eq
  unfold closureAll at eq
  cases there : s.all k with
  | some rows =>
    simp only [there] at eq
    have mem := coherent.all k rows there cats depth at'
    cases eq
    exact ⟨coherent, .refl _ _, rfl, fun _ _ r => mem r.1 r.2.1 r.2.2⟩
  | none =>
    simp only [there] at eq
    rw [tiers] at eq
    generalize limit : (if count = true then s.budget.remaining else usizeMax) = n at eq
    obtain ⟨closure, exact'⟩ := coherent.closure.reachAll cats depth n
    have walked : Coherent ctx hs what
        { s with closure := (s.closure.reachAll ctx.src (edgeTiers ctx.src) cats depth n).1 } :=
      ⟨coherent.untripped, closure, coherent.memo, coherent.multi, coherent.seeds, coherent.all⟩
    cases found : (s.closure.reachAll ctx.src (edgeTiers ctx.src) cats depth n).2 with
    | none =>
      simp only [found] at eq
      obtain ⟨u, _, _, eq⟩ := bind_ok eq
      cases eq
    | some rows =>
      simp only [found] at eq
      obtain ⟨u, _, charged, eq⟩ := bind_ok eq
      obtain ⟨v, _, kept, eq⟩ := bind_ok eq
      obtain ⟨coherent', multi, out⟩ := walked.charge charged
      obtain ⟨mem, _⟩ := exact' rows found
      cases kept
      cases eq
      refine ⟨⟨coherent'.untripped, coherent'.closure, coherent'.memo, coherent'.multi,
        coherent'.seeds, ?_⟩, ?_,
        out, fun _ _ r => mem r.1 r.2.1 r.2.2⟩
      · intro k' rows' there' cats' depth' at''
        by_cases eqK : k' = k
        · subst eqK
          simp only [Function.update_self, Option.some.injEq] at there'
          subst there'
          obtain ⟨rfl, rfl⟩ := Prod.mk.inj (Option.some.inj (at'.symm.trans at''))
          exact mem
        · simp only [Function.update_of_ne eqK] at there'
          exact coherent'.all k' rows' there' cats' depth' at''
      · show Extends fills s.multi u.multi
        rw [multi]
        exact .refl _ _

theorem yields_reach {k : Nat} {cats : CatSet} {depth : Option Nat} (source target : Option Value)
    (ws : List (Nat × Want)) (vis : Vis) (src : Src) (tiers : ctx.tiers = edgeTiers ctx.src)
    (at' : what k = some (cats, depth)) :
    Yields ctx hs what fills (reach ctx k cats depth source target ws vis src)
      fun _ => ReachAlt ctx cats depth source target ws vis src := by
  have nothing : (∀ x y, EndIs source x → ¬ EndIs target y) →
      Yields ctx hs what fills (Exec.pure ([] : List Alt))
        fun _ => ReachAlt ctx cats depth source target ws vis src := by
    intro no
    refine yields_pure fun _ a => ?_
    simp only [List.not_mem_nil, false_iff]
    rintro ⟨x, y, _, _, isX, isY, _⟩
    exact no x y isX isY
  have notNode : ∀ v : Value, v.nodeId? = none → ∀ x, ¬ EndIs (some v) x := by
    intro v none x isX
    rw [endIs_some] at isX
    subst isX
    cases none
  unfold reach
  split
  · rename_i f
    cases node : f.nodeId? with
    | none =>
      simp only
      exact nothing fun x _ isX => absurd isX (notNode f node x)
    | some id =>
      rw [Value.nodeId?_eq_some] at node
      subst node
      cases target with
      | none =>
        simp only [Option.map_none, Option.join_none, List.filter_true]
        refine yields_walk tiers fun rows mem a => mem_reach_walk _ (fun row t => ?_) a
        simp only [List.mem_map, Prod.exists, Prod.mk.injEq, mem, spreadRow_single, endIs_some, Value.node.injEq]
        constructor
        · rintro ⟨y, t, reach, rfl, rfl⟩
          exact ⟨id, y, reach, rfl, endIs_none y, rfl⟩
        · rintro ⟨x, y, reach, rfl, _, rfl⟩
          exact ⟨y, t, reach, rfl, rfl⟩
      | some w =>
        cases node : w.nodeId? with
        | none =>
          simp only [Option.map_some, node]
          exact nothing fun _ y _ => notNode w node y
        | some to' =>
          rw [Value.nodeId?_eq_some] at node
          subst node
          simp only [Option.map_some, Value.nodeId?, Option.join_some]
          refine yields_walk (f := fun rows => builtinAlts vis src ws
            ((rows.filter fun e => to' == e.1).map fun e => ([.node id, .node e.1], e.2))) tiers
            fun rows mem a => mem_reach_walk _ (fun row t => ?_) a
          simp only [List.mem_map,
            List.mem_filter, beq_iff_eq, Prod.exists, Prod.mk.injEq, mem, spreadRow_single,
            endIs_some, Value.node.injEq]
          constructor
          · rintro ⟨y, t, ⟨reach, rfl⟩, rfl, rfl⟩
            exact ⟨id, to', reach, rfl, rfl, rfl⟩
          · rintro ⟨x, y, reach, rfl, rfl, rfl⟩
            exact ⟨_, t, ⟨reach, rfl⟩, rfl, rfl⟩
  · rename_i t
    cases node : t.nodeId? with
    | none =>
      simp only
      exact nothing fun _ y _ => notNode t node y
    | some id =>
      rw [Value.nodeId?_eq_some] at node
      subst node
      refine yields_walk tiers fun rows mem a => mem_reach_walk _ (fun row t => ?_) a
      simp only [List.mem_map, Prod.exists, Prod.mk.injEq, mem, spreadRow_single_backward,
        endIs_some, Value.node.injEq]
      constructor
      · rintro ⟨x, t, reach, rfl, rfl⟩
        exact ⟨x, id, reach, endIs_none x, rfl, rfl⟩
      · rintro ⟨x, y, reach, _, rfl, rfl⟩
        exact ⟨x, t, reach, rfl, rfl⟩
  · intro s u b coherent eq
    obtain ⟨t, rows, walked, eq⟩ := bind_ok eq
    obtain ⟨v, _, charged, eq⟩ := bind_ok eq
    obtain ⟨coherent', ext, out, mem⟩ := yields_closureAll tiers at' s t rows coherent walked
    obtain ⟨coherent'', multi', out'⟩ := coherent'.charge charged
    cases eq
    refine ⟨coherent'', multi' ▸ ext, out'.trans out, fun heights agrees a => ?_⟩
    refine mem_reach_walk _ (fun row l => ?_) a
    simp only [List.mem_map, Prod.exists, Prod.mk.injEq, mem heights (multi' ▸ agrees)]
    constructor
    · rintro ⟨x, y, l, reach, rfl, rfl⟩
      exact ⟨x, y, reach, endIs_none x, endIs_none y, rfl⟩
    · rintro ⟨x, y, reach, _, _, rfl⟩
      exact ⟨x, y, l, reach, rfl, rfl⟩

theorem yields_plain (tiers : ctx.tiers = edgeTiers ctx.src) (vis : Vis) (k : Nat) (env : Env)
    (step : Step) (at' : ∀ r, reachOf step = some r → what k = some r) :
    Yields ctx hs what fills (expandPlain ctx vis k env step) fun _ a => PlainAlt ctx vis env step a := by
  cases step with
  | scan pred perm binds checks src =>
    simp only [expandPlain, PlainAlt]
    split
    · rename_i rel ws hr hw
      refine yields_pure fun _ a => ?_
      simp [hr, hw]
    · rename_i no
      refine yields_pure fun _ a => ?_
      simp only [List.not_mem_nil, false_iff]
      rintro ⟨rel, ws, hr, hw, _⟩
      exact no rel ws hr hw
  | lookup pred perm key binds checks src =>
    simp only [expandPlain, PlainAlt]
    split
    · rename_i rel key' ws hr hk hw
      refine yields_pure fun _ a => ?_
      simp [hr, hk, hw]
    · rename_i no
      refine yields_pure fun _ a => ?_
      simp only [List.not_mem_nil, false_iff]
      rintro ⟨rel, key', ws, hr, hk, hw, _⟩
      exact no rel key' ws hr hk hw
  | neg pred perm key =>
    simp only [expandPlain, PlainAlt]
    split
    · rename_i none
      exact yields_pure fun _ a => by simp [none]
    · rename_i key' hk
      split
      · rename_i none
        exact yields_pure fun _ a => by simp [none, hk]
      · rename_i rel hr
        refine yields_pure fun _ a => ?_
        cases has : rel.existsPrefix perm key' <;> simp [hr, hk, has]
  | cmp op l r =>
    simp only [expandPlain, PlainAlt]
    split
    · rename_i x y hx hy
      refine yields_pure fun _ a => ?_
      cases holds : compareOp ctx.src op x y <;> simp [hx, hy, holds]
    · rename_i no
      refine yields_pure fun _ a => ?_
      simp only [List.not_mem_nil, false_iff]
      rintro ⟨_, x, y, hx, hy, _⟩
      exact no x y hx hy
  | assign var part =>
    simp only [expandPlain, PlainAlt]
    split
    · rename_i none
      exact yields_pure fun _ a => by simp [none]
    · rename_i v hv
      exact yields_pure fun _ a => by simp [hv]
  | call b cats args binds checks src =>
    simp only [expandPlain, PlainAlt]
    split
    · rename_i none
      exact yields_pure fun _ a => by simp [none]
    · rename_i ws hw
      simpa [hw] using yields_call b cats args ws vis src env
  | negCall b cats args =>
    simp only [expandPlain, PlainAlt]
    refine yields_map (yields_call b cats args [] (Vis.complete vis.count) .all env)
      fun _ alts mem a => ?_
    cases alts with
    | nil => simpa using fun _ => mem
    | cons x rest =>
      simp only [List.isEmpty_cons, Bool.false_eq_true, if_false, List.not_mem_nil, false_iff,
        not_and, not_forall, not_not]
      exact fun _ => ⟨x, (mem x).mp List.mem_cons_self⟩
  | reach cats depth source target binds checks src =>
    simp only [expandPlain, PlainAlt]
    split
    · rename_i ws s t hw hs' ht
      intro st st' a coherent eq
      simpa [hw, hs', ht] using yields_reach s t ws vis src tiers (at' _ rfl) st st' a coherent eq
    · rename_i no
      refine yields_pure fun _ a => ?_
      simp only [List.not_mem_nil, false_iff]
      rintro ⟨ws, s, t, hw, hs', ht, _⟩
      exact no ws s t hw hs' ht
  | negReach cats depth source target =>
    simp only [expandPlain, PlainAlt]
    split
    · rename_i s t hs' ht
      refine yields_map (yields_reach s t [] (Vis.complete vis.count) .all tiers (at' _ rfl))
        fun _ alts mem a => ?_
      cases alts with
      | nil => simpa [hs', ht] using fun _ => mem
      | cons x rest =>
        simp only [List.isEmpty_cons, Bool.false_eq_true, if_false, List.not_mem_nil, false_iff,
          not_and, not_exists, hs', ht, Option.some.injEq, not_forall, not_not]
        rintro _ _ _ rfl rfl
        exact ⟨x, (mem x).mp List.mem_cons_self⟩
    · rename_i no
      refine yields_pure fun _ a => ?_
      simp only [List.not_mem_nil, false_iff]
      rintro ⟨_, s, t, hs', ht, _⟩
      exact no s t hs' ht
  | reachMulti slot cats depth seed seedVar backward bind src =>
    simp only [expandPlain, PlainAlt]
    exact yields_pure fun _ a => by simp

theorem emits_each {α : Type} {f : α → Exec Unit} {S : (Nat → Nat) → α → Binding → Prop}
    (hf : ∀ a, Emits ctx hs what fills (f a) fun heights => S heights a) (as : List α) :
    Emits ctx hs what fills (Exec.each f as) fun heights x => ∃ a ∈ as, S heights a x := by
  induction as with
  | nil =>
    intro s t a coherent eq
    cases eq
    exact ⟨coherent, .refl _ _, [], by simp, by simp⟩
  | cons x rest ih =>
    intro s u b coherent eq
    obtain ⟨t, _, first, last⟩ := bind_ok eq
    obtain ⟨coherent', ext, new, out, mem⟩ := hf x s t _ coherent first
    obtain ⟨coherent'', ext', new', out', mem'⟩ := ih t u b coherent' last
    refine ⟨coherent'', ext.trans ext', new ++ new', by rw [out', out, List.append_assoc], ?_⟩
    intro heights agrees y
    simp only [List.mem_append, mem heights (agrees.of_extends ext'), mem' heights agrees,
      List.mem_cons, exists_eq_or_imp]

/-- A run starts and ends with its caller's own kept pairs. -/
theorem emits_start {what' : Nat → Option (CatSet × Option Nat)} {count : Bool}
    {steps : List Step} {body : Exec Unit} {S : (Nat → Nat) → Binding → Prop}
    (hb : Emits ctx hs what' fills body S) : Emits ctx hs what fills (start count steps body) S := by
  intro s u b coherent eq
  unfold start at eq
  split at eq
  · cases eq
  · simp only at eq
    have fresh : Coherent ctx hs what' { s with all := fun _ => none } :=
      ⟨coherent.untripped, coherent.closure, coherent.memo, coherent.multi, coherent.seeds, by simp⟩
    have inner : ∀ t a, (if steps.isEmpty then Exec.bind (Exec.charge count 1) fun _ => body
        else body) { s with all := fun _ => none } = .ok t a →
        Coherent ctx hs what' t ∧ Extends fills s.multi t.multi ∧ ∃ new, t.out = s.out ++ new ∧
          ∀ heights, Agrees heights t.multi → ∀ x, x ∈ new ↔ S heights x := by
      intro t a run
      split at run
      · obtain ⟨v, _, charged, run⟩ := bind_ok run
        obtain ⟨coherent', multi, out⟩ := fresh.charge charged
        obtain ⟨coherent'', ext, new, out', mem⟩ := hb v t a coherent' run
        exact ⟨coherent'', multi ▸ ext, new, by rw [out', out], mem⟩
      · exact hb { s with all := fun _ => none } t a fresh run
    cases done : (if steps.isEmpty then Exec.bind (Exec.charge count 1) fun _ => body
        else body) { s with all := fun _ => none } with
    | stop t =>
      rw [done] at eq
      cases eq
    | fail e =>
      rw [done] at eq
      cases eq
    | ok t a =>
      rw [done] at eq
      obtain ⟨coherent', ext, new, out, mem⟩ := inner t a done
      cases eq
      exact ⟨⟨coherent'.untripped, coherent'.closure, coherent'.memo, coherent'.multi,
        coherent'.seeds, coherent.all⟩, ext, new, out, mem⟩

/-- Adding a seed adds nothing else, keeps every seed at least as good, leaves the new one
at least as good as it came, and lists no node twice. -/
theorem addMultiSeed_spec (seeds : List (NodeId × Tier × Nat)) (raw : Value × Tier × Nat) :
    (∀ x ∈ addMultiSeed seeds raw, x ∈ seeds ∨ raw.1 = .node x.1 ∧ x.2 = raw.2) ∧
    (∀ x ∈ seeds, ∃ x' ∈ addMultiSeed seeds raw, x'.1 = x.1 ∧ toLex x'.2 ≤ toLex x.2) ∧
    (∀ id, raw.1 = .node id →
      ∃ x' ∈ addMultiSeed seeds raw, x'.1 = id ∧ toLex x'.2 ≤ toLex raw.2) ∧
    ((seeds.map Prod.fst).Nodup → ((addMultiSeed seeds raw).map Prod.fst).Nodup) := by
  unfold addMultiSeed
  cases node : raw.1.nodeId? with
  | none =>
    refine ⟨fun x mem => .inl mem, fun x mem => ⟨x, mem, rfl, le_rfl⟩, fun id eq => ?_,
      fun h => h⟩
    rw [eq] at node
    cases node
  | some id =>
    rw [Value.nodeId?_eq_some] at node
    have better : ∀ x : NodeId × Tier × Nat,
        (raw.2.1 < x.2.1 ∨ (raw.2.1 = x.2.1 ∧ raw.2.2 < x.2.2)) ↔ toLex raw.2 < toLex x.2 :=
      fun x => (Prod.Lex.toLex_lt_toLex).symm
    simp only [better]
    split
    · rename_i there
      simp only [List.mem_map]
      refine ⟨?_, ?_, ?_, fun once => ?_⟩
      · rintro x ⟨y, mem, rfl⟩
        split
        · exact .inr ⟨node, rfl⟩
        · exact .inl mem
      · intro x mem
        by_cases wins : x.1 = id ∧ toLex raw.2 < toLex x.2
        · exact ⟨(id, raw.2), ⟨x, mem, if_pos wins⟩, wins.1.symm, wins.2.le⟩
        · exact ⟨x, ⟨x, mem, if_neg wins⟩, rfl, le_rfl⟩
      · intro id' eq
        rw [node] at eq
        cases eq
        obtain ⟨x, mem, same⟩ := List.any_eq_true.mp there
        rw [beq_iff_eq] at same
        by_cases wins : x.1 = id ∧ toLex raw.2 < toLex x.2
        · exact ⟨(id, raw.2), ⟨x, mem, if_pos wins⟩, rfl, le_rfl⟩
        · exact ⟨x, ⟨x, mem, if_neg wins⟩, same, not_lt.mp fun lt => wins ⟨same, lt⟩⟩
      · have fst : (seeds.map fun s => if s.1 = id ∧ toLex raw.2 < toLex s.2 then (id, raw.2)
            else s).map Prod.fst = seeds.map Prod.fst := by
          rw [List.map_map]
          apply List.map_congr_left
          intro s _
          simp only [Function.comp_apply]
          split
          · rename_i wins
            exact wins.1.symm
          · rfl
        rwa [fst]
    · rename_i new
      refine ⟨?_, fun x mem => ⟨x, by simp [mem], rfl, le_rfl⟩, ?_, fun once => ?_⟩
      · intro x mem
        rcases List.mem_append.mp mem with mem | mem
        · exact .inl mem
        · cases List.mem_singleton.mp mem
          exact .inr ⟨node, rfl⟩
      · intro id' eq
        rw [node] at eq
        cases eq
        exact ⟨(id, raw.2), by simp, rfl, le_rfl⟩
      · rw [List.map_append, List.nodup_append]
        refine ⟨once, by simp, fun x mem y last eq => new ?_⟩
        obtain ⟨s, hs, rfl⟩ := List.mem_map.mp mem
        rw [List.map_singleton, List.mem_singleton] at last
        exact List.any_eq_true.mpr ⟨s, hs, by simp [eq, last]⟩

/-- The distinct seeds of a run: each is one of its bindings, none is worse than a binding
of its node, and each node is listed once. -/
theorem multiSeeds_spec (seedVar : Nat) (out : List Binding) :
    (∀ x ∈ multiSeeds seedVar out, ∃ b ∈ out, b.vars seedVar = some (.node x.1) ∧
      (b.level, b.height) = x.2) ∧
    (∀ b ∈ out, ∀ id, b.vars seedVar = some (.node id) →
      ∃ x ∈ multiSeeds seedVar out, x.1 = id ∧ toLex x.2 ≤ toLex (b.level, b.height)) ∧
    ((multiSeeds seedVar out).map Prod.fst).Nodup := by
  have fold : ∀ (raws : List (Value × Tier × Nat)) (seeds : List (NodeId × Tier × Nat)),
      (∀ x ∈ raws.foldl addMultiSeed seeds, x ∈ seeds ∨
        ∃ raw ∈ raws, raw.1 = .node x.1 ∧ x.2 = raw.2) ∧
      (∀ x ∈ seeds, ∃ x' ∈ raws.foldl addMultiSeed seeds, x'.1 = x.1 ∧ toLex x'.2 ≤ toLex x.2) ∧
      (∀ raw ∈ raws, ∀ id, raw.1 = .node id →
        ∃ x' ∈ raws.foldl addMultiSeed seeds, x'.1 = id ∧ toLex x'.2 ≤ toLex raw.2) ∧
      ((seeds.map Prod.fst).Nodup → ((raws.foldl addMultiSeed seeds).map Prod.fst).Nodup) := by
    intro raws
    induction raws with
    | nil =>
      exact fun seeds => ⟨fun x mem => .inl mem, fun x mem => ⟨x, mem, rfl, le_rfl⟩, by simp,
        fun h => h⟩
    | cons raw rest ih =>
      intro seeds
      obtain ⟨from', keep, new, once⟩ := addMultiSeed_spec seeds raw
      obtain ⟨from'', keep', new', once'⟩ := ih (addMultiSeed seeds raw)
      refine ⟨fun x mem => ?_, fun x mem => ?_, fun r mem id eq => ?_, fun h => once' (once h)⟩
      · rcases from'' x mem with mem | ⟨r, mem, eq⟩
        · rcases from' x mem with mem | eq
          · exact .inl mem
          · exact .inr ⟨raw, List.mem_cons_self, eq⟩
        · exact .inr ⟨r, List.mem_cons_of_mem _ mem, eq⟩
      · obtain ⟨y, mem, eq, le⟩ := keep x mem
        obtain ⟨z, mem, eq', le'⟩ := keep' y mem
        exact ⟨z, mem, eq'.trans eq, le'.trans le⟩
      · rcases List.mem_cons.mp mem with rfl | mem
        · obtain ⟨y, mem, eq, le⟩ := new id eq
          obtain ⟨z, mem, eq', le'⟩ := keep' y mem
          exact ⟨z, mem, eq'.trans eq, le'.trans le⟩
        · exact new' r mem id eq
  obtain ⟨from', _, new, once⟩ := fold
    (out.filterMap fun b => (b.vars seedVar).map fun v => (v, b.level, b.height)) []
  simp only [List.mem_filterMap, Option.map_eq_some_iff] at from' new
  refine ⟨?_, ?_, once (by simp)⟩
  · intro x mem
    rcases from' x mem with none | ⟨raw, ⟨b, there, v, bound, rfl⟩, node, eq⟩
    · cases none
    · refine ⟨b, there, ?_, eq.symm⟩
      rw [bound, ← node]
  · intro b mem id bound
    exact new (.node id, b.level, b.height) ⟨b, mem, _, bound, rfl⟩ id rfl

theorem seedHeight_iff {seedVar : Nat} {out : List Binding} {seeds : Binding → Prop}
    (mem : ∀ b, b ∈ out ↔ seeds b) (s : NodeId) (height : Nat) :
    SeedHeight seedVar seeds s height ↔
      ∃ x ∈ multiSeeds seedVar out, x.1 = s ∧ x.2.2 = height := by
  obtain ⟨from', new, once⟩ := multiSeeds_spec seedVar out
  have least : ∀ x ∈ multiSeeds seedVar out, IsLeast {p : Tier ×ₗ Nat | ∃ b, seeds b ∧
      b.vars seedVar = some (.node x.1) ∧ p = toLex (b.level, b.height)} (toLex x.2) := by
    intro x there
    obtain ⟨b, inOut, bound, eq⟩ := from' x there
    refine ⟨⟨b, (mem b).mp inOut, bound, by rw [eq]⟩, ?_⟩
    rintro p ⟨b', isSeed, bound', rfl⟩
    obtain ⟨y, there', same, le⟩ := new b' ((mem b').mpr isSeed) x.1 bound'
    rwa [List.inj_on_of_nodup_map once there' there same] at le
  constructor
  · rintro ⟨level, isLeast⟩
    obtain ⟨b, isSeed, bound, eq⟩ := isLeast.1
    obtain ⟨x, there, rfl, _⟩ := new b ((mem b).mpr isSeed) s bound
    refine ⟨x, there, rfl, ?_⟩
    have := (least x there).unique isLeast
    rw [toLex_inj] at this
    rw [this]
  · rintro ⟨x, there, rfl, rfl⟩
    exact ⟨x.2.1, least x there⟩

theorem multiHeight_seeds {seedVar : Nat} {out : List Binding} {seeds : Binding → Prop}
    (mem : ∀ b, b ∈ out ↔ seeds b) :
    MultiHeight seedVar seeds (((multiSeeds seedVar out).map fun e => e.2.2).foldl max 0) := by
  obtain ⟨_, each, reached⟩ := Kit.foldl_max_spec ((multiSeeds seedVar out).map fun e => e.2.2) 0
  refine ⟨fun s h isHeight => ?_, reached.imp_right fun there => ?_⟩
  · obtain ⟨x, there, _, rfl⟩ := (seedHeight_iff mem s h).mp isHeight
    exact each _ (List.mem_map_of_mem there)
  · obtain ⟨x, there, eq⟩ := List.mem_map.mp there
    exact ⟨x.1, (seedHeight_iff mem _ _).mpr ⟨x, there, rfl, eq⟩⟩

theorem spreads_seeds {cats : CatSet} {depth : Option Nat} {seedVar : Nat} {backward : Bool}
    {out : List Binding} {seeds : Binding → Prop} (mem : ∀ b, b ∈ out ↔ seeds b) (level : Tier)
    (y : NodeId) :
    Spreads ctx.src cats depth backward ((multiSeeds seedVar out).map fun e => (e.1, e.2.1)) level
        y ↔ SeedJoins ctx cats depth seedVar backward seeds level y := by
  obtain ⟨from', new, _⟩ := multiSeeds_spec seedVar out
  simp only [Spreads, SeedJoins, List.mem_map, Prod.mk.injEq]
  constructor
  · rintro ⟨s, t, ⟨x, there, rfl, rfl⟩, le, joins⟩
    obtain ⟨b, inOut, bound, eq⟩ := from' x there
    exact ⟨b, x.1, (mem b).mp inOut, bound, (congrArg Prod.fst eq).trans_le le, joins⟩
  · rintro ⟨b, s, isSeed, bound, le, joins⟩
    obtain ⟨x, there, rfl, low⟩ := new b ((mem b).mpr isSeed) s bound
    have low : x.2.1 ≤ b.level := by
      rcases Prod.Lex.toLex_le_toLex.mp low with lt | eq
      · exact lt.le
      · exact eq.1.le
    exact ⟨x.1, x.2.1, ⟨x, there, rfl, rfl⟩, low.trans le, joins⟩

/-- Filling a hoisted reach keeps what its seed and its set give. -/
theorem fillMulti_ok (tiers : ctx.tiers = edgeTiers ctx.src) {h : Hoist}
    (one : ∀ h' ∈ hs, h'.slot = h.slot → h' = h) {inner : List Nat} (apart : h.slot ∉ inner)
    (sub : ∀ slot ∈ inner, slot ∈ fills) (mine : h.slot ∈ fills) {seedRun : Exec Unit}
    (counted : Counted 0 seedRun)
    (emits : Emits ctx hs what inner seedRun fun heights b =>
      Runs ctx heights (Vis.complete true) 0 (Binding.start emptyEnv) h.seed b)
    (tells : Tells ctx hs what seedRun fun heights =>
      RunsOk ctx heights (Vis.complete true) 0 (Binding.start emptyEnv) h.seed)
    {s t : ExecState} {a : Unit} (coherent : Coherent ctx hs what s)
    (empty : s.multi h.slot = none)
    (eq : fillMulti ctx h.slot h.cats h.depth h.seedVar h.backward true seedRun s = .ok t a) :
    Coherent ctx hs what t ∧ Extends fills s.multi t.multi ∧ t.out = s.out ∧
      (t.multi h.slot).isSome := by
  have fresh : Coherent ctx hs what { s with out := [] } :=
    ⟨coherent.untripped, coherent.closure, coherent.memo, coherent.multi, coherent.seeds, coherent.all⟩
  unfold fillMulti at eq
  simp only [Bool.true_and] at eq
  cases run : seedRun { s with out := [] } with
  | fail e => simp [run] at eq
  | stop u =>
    have stopped := counted { s with out := [] } coherent.untripped
    rw [run] at stopped eq
    simp only [Option.isSome_iff_ne_none.mpr stopped.1, if_true] at eq
    cases eq
  | ok u b =>
    obtain ⟨coherent', ext, new, out, mem⟩ := emits _ u b fresh run
    rw [run] at eq
    simp only [coherent'.untripped, Option.isSome_none, Bool.false_eq_true, if_false, tiers] at eq
    rw [List.nil_append] at out
    obtain ⟨closure, rows⟩ := coherent'.closure.reachFrom h.cats
      ((multiSeeds h.seedVar u.out).map fun e => (e.1, e.2.1)) h.backward h.depth
    obtain ⟨same, untripped⟩ := charge_ok eq coherent'.untripped
    have before : u.multi h.slot = none := (ext.2 _ apart).trans empty
    have grows : Extends fills s.multi t.multi := by
      rw [same]
      constructor
      · intro slot m there
        have ne : slot ≠ h.slot := by
          rintro rfl
          rw [empty] at there
          cases there
        simp only [Function.update_of_ne ne]
        exact ext.1 slot m there
      · intro slot no
        have ne : slot ≠ h.slot := fun e => no (e ▸ mine)
        simp only [Function.update_of_ne ne]
        exact ext.2 slot fun there => no (sub slot there)
    have agrees' : ∀ {heights : Nat → Nat}, Agrees heights t.multi → Agrees heights u.multi := by
      intro heights agrees slot m' at'
      refine agrees slot m' ?_
      rw [same]
      have ne : slot ≠ h.slot := by
        rintro rfl
        rw [before] at at'
        cases at'
      simpa only [Function.update_of_ne ne] using at'
    refine ⟨⟨untripped, ?_, ?_, ?_, ?_, ?_⟩, grows, ?_, ?_⟩
    · rw [same]
      exact closure
    · rw [same]
      exact coherent'.memo
    · intro h' inHs m there heights agrees y l
      by_cases eqSlot : h'.slot = h.slot
      · obtain rfl := one h' inHs eqSlot
        rw [same] at there
        simp only [Function.update_self, Option.some.injEq] at there
        subst there
        simp only [rows, SpreadRow, MultiRow, ← out] at mem ⊢
        simp only [spreads_seeds (mem heights (agrees' agrees))]
      · rw [same] at there
        simp only [Function.update_of_ne eqSlot] at there
        exact coherent'.multi h' inHs m there heights (agrees' agrees) y l
    · intro h' inHs m there heights agrees
      by_cases eqSlot : h'.slot = h.slot
      · obtain rfl := one h' inHs eqSlot
        rw [same] at there
        simp only [Function.update_self, Option.some.injEq] at there
        subst there
        rw [← out] at mem
        exact ⟨multiHeight_seeds (mem heights (agrees' agrees)),
          tells _ u b fresh run heights (agrees' agrees)⟩
      · rw [same] at there
        simp only [Function.update_of_ne eqSlot] at there
        exact coherent'.seeds h' inHs m there heights (agrees' agrees)
    · rw [same]
      exact coherent'.all
    · rw [same]
    · rw [same]
      simp

theorem emits_emit (b : Binding) :
    Emits ctx hs what fills (emit b) fun _ x => x = b := by
  intro s t a coherent eq
  cases eq
  exact ⟨⟨coherent.untripped, coherent.closure, coherent.memo, coherent.multi, coherent.seeds, coherent.all⟩,
    .refl _ _, [b], rfl, by simp⟩

theorem mem_multiAlts {vis : Vis} {src : Src} {m : MultiState} {a : Alt} :
    a ∈ multiAlts vis src m ↔ ∃ y, a = ⟨[.node y], a.tier, ⟨m.height, edbRule⟩, noOrdinal⟩ ∧
      vis.admits src a.tier = true ∧ (y, a.tier) ∈ m.reached := by
  simp only [multiAlts, List.mem_flatMap]
  constructor
  · rintro ⟨tier, _, mem⟩
    split at mem
    · rename_i admitted
      simp only [List.mem_map, List.mem_filter, decide_eq_true_eq, Prod.exists] at mem
      obtain ⟨y, t, ⟨there, rfl⟩, rfl⟩ := mem
      exact ⟨y, rfl, admitted, there⟩
    · cases mem
  · rintro ⟨y, eq, admitted, there⟩
    refine ⟨a.tier, by cases a.tier <;> simp [Tier.all], ?_⟩
    rw [if_pos admitted, List.mem_map]
    exact ⟨(y, a.tier), by simp [there], eq.symm⟩

structure Nested (hs : List Hoist) : Prop where
  one : ∀ h ∈ hs, ∀ h' ∈ hs, h'.slot = h.slot → h' = h
  seed : ∀ h ∈ hs, ∀ h' ∈ hoists h.seed, h' ∈ hs ∧ h'.slot ≠ h.slot

def slotsOf (hs : List Hoist) : List Nat := hs.map Hoist.slot

theorem Yields.weaken {α : Type} {fills' : List Nat} {m : Exec (List α)}
    {S : (Nat → Nat) → α → Prop} (h : Yields ctx hs what fills m S)
    (sub : ∀ slot ∈ fills, slot ∈ fills') : Yields ctx hs what fills' m S := by
  intro s t a coherent eq
  obtain ⟨coherent', ext, rest⟩ := h s t a coherent eq
  exact ⟨coherent', ext.weaken sub, rest⟩

theorem Emits.weaken {fills' : List Nat} {m : Exec Unit} {S : (Nat → Nat) → Binding → Prop}
    (h : Emits ctx hs what fills m S) (sub : ∀ slot ∈ fills, slot ∈ fills') :
    Emits ctx hs what fills' m S := by
  intro s t a coherent eq
  obtain ⟨coherent', ext, rest⟩ := h s t a coherent eq
  exact ⟨coherent', ext.weaken sub, rest⟩

theorem emits_step {m : Exec (List Alt)} {count : Bool} {f : Alt → Exec Unit}
    {A : (Nat → Nat) → Alt → Prop} {S : (Nat → Nat) → Alt → Binding → Prop}
    (hm : Yields ctx hs what fills m A)
    (hf : ∀ a, Emits ctx hs what fills (f a) fun heights => S heights a) :
    Emits ctx hs what fills (Exec.bind m fun alts =>
      Exec.bind (Exec.charge count alts.length) fun _ => Exec.each f alts)
      fun heights x => ∃ a, A heights a ∧ S heights a x := by
  intro s u b coherent eq
  obtain ⟨t, alts, first, eq⟩ := bind_ok eq
  obtain ⟨coherent', ext, out, mem⟩ := hm s t alts coherent first
  obtain ⟨v, _, charged, last⟩ := bind_ok eq
  obtain ⟨coherent'', multi, out'⟩ := coherent'.charge charged
  obtain ⟨settled, ext', new, out'', mem'⟩ := emits_each hf alts v u b coherent'' last
  rw [multi] at ext'
  refine ⟨settled, ext.trans ext', new, by rw [out'', out', out], fun heights agrees x => ?_⟩
  rw [mem' heights agrees]
  exact exists_congr fun a => and_congr_left' (mem heights (agrees.of_extends ext') a)

theorem tells_each {α : Type} {f : α → Exec Unit} {S : (Nat → Nat) → α → Binding → Prop}
    {P : (Nat → Nat) → α → Prop}
    (hf : ∀ a, Emits ctx hs what fills (f a) fun heights => S heights a)
    (hp : ∀ a, Tells ctx hs what (f a) fun heights => P heights a) (as : List α) :
    Tells ctx hs what (Exec.each f as) fun heights => ∀ a ∈ as, P heights a := by
  induction as with
  | nil => exact fun _ _ _ _ _ _ _ => by simp
  | cons x rest ih =>
    intro s u b coherent eq heights agrees
    obtain ⟨t, _, first, last⟩ := bind_ok eq
    obtain ⟨coherent', _⟩ := hf x s t _ coherent first
    obtain ⟨_, ext, _⟩ := emits_each hf rest t u b coherent' last
    rw [List.forall_mem_cons]
    exact ⟨hp x s t _ coherent first heights (agrees.of_extends ext),
      ih t u b coherent' last heights agrees⟩

theorem tells_step {m : Exec (List Alt)} {count : Bool} {f : Alt → Exec Unit}
    {A : (Nat → Nat) → Alt → Prop} {S : (Nat → Nat) → Alt → Binding → Prop}
    {P : (Nat → Nat) → Prop} {Q : (Nat → Nat) → Alt → Prop}
    (hm : Yields ctx hs what fills m A) (hP : Tells ctx hs what m P)
    (hf : ∀ a, Emits ctx hs what fills (f a) fun heights => S heights a)
    (hQ : ∀ a, Tells ctx hs what (f a) fun heights => Q heights a) :
    Tells ctx hs what (Exec.bind m fun alts =>
      Exec.bind (Exec.charge count alts.length) fun _ => Exec.each f alts)
      fun heights => P heights ∧ ∀ a, A heights a → Q heights a := by
  intro s u b coherent eq heights agrees
  obtain ⟨t, alts, first, eq⟩ := bind_ok eq
  obtain ⟨coherent', _, _, mem⟩ := hm s t alts coherent first
  obtain ⟨v, _, charged, last⟩ := bind_ok eq
  obtain ⟨coherent'', multi, _⟩ := coherent'.charge charged
  obtain ⟨_, ext, _⟩ := emits_each hf alts v u b coherent'' last
  have before : Agrees heights t.multi := multi ▸ agrees.of_extends ext
  refine ⟨hP s t alts coherent first heights before, fun a isAlt => ?_⟩
  exact tells_each hf hQ alts v u b coherent'' last heights agrees a
    ((mem heights before a).mpr isAlt)

theorem tells_start {what' : Nat → Option (CatSet × Option Nat)} {count : Bool}
    {steps : List Step} {body : Exec Unit} {P : (Nat → Nat) → Prop}
    (hb : Tells ctx hs what' body P) : Tells ctx hs what (start count steps body) P := by
  intro s u b coherent eq heights agrees
  unfold start at eq
  split at eq
  · cases eq
  · simp only at eq
    have fresh : Coherent ctx hs what' { s with all := fun _ => none } :=
      ⟨coherent.untripped, coherent.closure, coherent.memo, coherent.multi, coherent.seeds, by simp⟩
    have inner : ∀ t a, (if steps.isEmpty then Exec.bind (Exec.charge count 1) fun _ => body
        else body) { s with all := fun _ => none } = .ok t a → Agrees heights t.multi →
        P heights := by
      intro t a run agrees
      split at run
      · obtain ⟨v, _, charged, run⟩ := bind_ok run
        obtain ⟨coherent', _⟩ := fresh.charge charged
        exact hb v t a coherent' run heights agrees
      · exact hb _ t a fresh run heights agrees
    cases done : (if steps.isEmpty then Exec.bind (Exec.charge count 1) fun _ => body
        else body) { s with all := fun _ => none } with
    | stop t =>
      rw [done] at eq
      cases eq
    | fail e =>
      rw [done] at eq
      cases eq
    | ok t a =>
      rw [done] at eq
      cases eq
      exact inner t _ done agrees

theorem tells_plain (vis : Vis) (k : Nat) (env : Env) (step : Step)
    (none : stepHoists step = []) : Tells ctx hs what (expandPlain ctx vis k env step)
      fun heights => StepOk ctx heights vis env step := by
  cases step with
  | call b cats args binds checks src =>
    intro s t a coherent eq heights agrees
    simp only [StepOk]
    intro resolved
    obtain ⟨ws, hw⟩ := Option.isSome_iff_exists.mp resolved
    simp only [expandPlain, hw] at eq
    exact tells_call b cats args ws vis src env s t a coherent eq heights agrees
  | negCall b cats args =>
    intro s t a coherent eq heights agrees
    simp only [StepOk]
    simp only [expandPlain] at eq
    obtain ⟨u, alts, called, rest⟩ := bind_ok eq
    cases rest
    exact tells_call b cats args [] (Vis.complete vis.count) .all env s _ alts coherent called
      heights agrees
  | reachMulti slot cats depth seed seedVar backward bind src => simp [stepHoists] at none
  | _ => exact fun _ _ _ _ _ _ _ => by simp only [StepOk]

section Walk

variable (tiers : ctx.tiers = edgeTiers ctx.src) (nested : Nested hs)

include tiers nested

set_option linter.unusedSectionVars false

mutual

/-- A step that runs normally yields exactly its alternatives, every call made for them
having succeeded. -/
theorem expand_yields (vis : Vis) (k : Nat) (env : Env) :
    ∀ (step : Step) (what : Nat → Option (CatSet × Option Nat)),
      (stepHoists step = [] ∨ vis.count = true) → (∀ h ∈ stepHoists step, h ∈ hs) →
      (∀ r, reachOf step = some r → what k = some r) →
      Yields ctx hs what (slotsOf (stepHoists step)) (expand ctx vis k env step)
          (fun heights => IsAlt ctx heights vis env step) ∧
        Tells ctx hs what (expand ctx vis k env step) fun heights => StepOk ctx heights vis env step
  | .reachMulti slot cats depth seed seedVar backward bind src => fun what count sub at' => by
    have count : vis.count = true := count.resolve_left (by simp [stepHoists])
    have mem : (⟨slot, cats, depth, seed, seedVar, backward⟩ : Hoist) ∈ hs :=
      sub _ (by simp [stepHoists])
    have inner := nested.seed _ mem
    have walked := walk_emits (Vis.complete true) 0 (Binding.start emptyEnv) seed _ (.inr rfl)
      (fun h there => (inner h there).1) (placed_self seed)
    have seeds : Emits ctx hs what (slotsOf (hoists seed))
        (start true seed (walk ctx (Vis.complete true) 0 (Binding.start emptyEnv) seed))
        fun heights b => Runs ctx heights (Vis.complete true) 0 (Binding.start emptyEnv) seed b :=
      emits_start walked.1
    have filled : ∀ s t a, Coherent ctx hs what s → Exec.bind (match s.multi slot with
          | some _ => Exec.pure ()
          | none => fillMulti ctx slot cats depth seedVar backward vis.count
            (start vis.count seed
              (walk ctx (Vis.complete vis.count) 0 (Binding.start emptyEnv) seed)))
        (fun _ s => match s.multi slot with
          | none => .ok s []
          | some m => .ok s (multiAlts vis src m)) s = .ok t a →
        Coherent ctx hs what t ∧
          Extends (slotsOf (stepHoists (.reachMulti slot cats depth seed seedVar backward bind src)))
            s.multi t.multi ∧ t.out = s.out ∧
          ∃ m, t.multi slot = some m ∧ a = multiAlts vis src m := by
      intro s t a coherent eq
      obtain ⟨u, _, filled, eq⟩ := bind_ok eq
      have kept : Coherent ctx hs what u ∧
          Extends (slotsOf (stepHoists (.reachMulti slot cats depth seed seedVar backward bind src)))
            s.multi u.multi ∧ u.out = s.out ∧ (u.multi slot).isSome := by
        cases held : s.multi slot with
        | some m =>
          rw [held] at filled
          cases filled
          exact ⟨coherent, .refl _ _, rfl, by simp [held]⟩
        | none =>
          rw [held, count] at filled
          refine fillMulti_ok tiers (nested.one _ mem) ?_ ?_ ?_ ?_ seeds (tells_start walked.2)
            coherent held filled
          · simp only [slotsOf, List.mem_map, not_exists, not_and]
            exact fun h there => (inner h there).2
          · simp only [slotsOf, stepHoists, List.map_cons, List.mem_cons]
            exact fun slot there => .inr there
          · simp [slotsOf, stepHoists]
          · exact counted_start seed (counted_walk ctx (Vis.complete true) rfl 0 _ seed)
      obtain ⟨coherent', ext, out, some'⟩ := kept
      obtain ⟨m, held⟩ := Option.isSome_iff_exists.mp some'
      simp only [held] at eq
      cases eq
      exact ⟨coherent', ext, out, m, held, rfl⟩
    constructor
    · intro s t a coherent eq
      simp only [expand] at eq
      obtain ⟨coherent', ext, out, m, held, rfl⟩ := filled s t a coherent eq
      refine ⟨coherent', ext, out, fun heights agrees x => ?_⟩
      rw [mem_multiAlts]
      simp only [IsAlt, count, agrees slot m held, coherent'.multi _ mem m held heights agrees]
    · intro s t a coherent eq heights agrees
      simp only [expand] at eq
      obtain ⟨coherent', _, _, m, held, _⟩ := filled s t a coherent eq
      simp only [StepOk, count]
      exact (coherent'.seeds _ mem m held heights agrees).2
  | .scan pred perm binds checks src => fun what _ _ at' => by
    simpa only [expand, IsAlt] using
      And.intro (yields_plain tiers vis k env _ at') (tells_plain vis k env _ rfl)
  | .lookup pred perm key binds checks src => fun what _ _ at' => by
    simpa only [expand, IsAlt] using
      And.intro (yields_plain tiers vis k env _ at') (tells_plain vis k env _ rfl)
  | .neg pred perm key => fun what _ _ at' => by
    simpa only [expand, IsAlt] using
      And.intro (yields_plain tiers vis k env _ at') (tells_plain vis k env _ rfl)
  | .cmp op l r => fun what _ _ at' => by
    simpa only [expand, IsAlt] using
      And.intro (yields_plain tiers vis k env _ at') (tells_plain vis k env _ rfl)
  | .assign var part => fun what _ _ at' => by
    simpa only [expand, IsAlt] using
      And.intro (yields_plain tiers vis k env _ at') (tells_plain vis k env _ rfl)
  | .call b cats args binds checks src => fun what _ _ at' => by
    simpa only [expand, IsAlt] using
      And.intro (yields_plain tiers vis k env _ at') (tells_plain vis k env _ rfl)
  | .negCall b cats args => fun what _ _ at' => by
    simpa only [expand, IsAlt] using
      And.intro (yields_plain tiers vis k env _ at') (tells_plain vis k env _ rfl)
  | .reach cats depth source target binds checks src => fun what _ _ at' => by
    simpa only [expand, IsAlt] using
      And.intro (yields_plain tiers vis k env _ at') (tells_plain vis k env _ rfl)
  | .negReach cats depth source target => fun what _ _ at' => by
    simpa only [expand, IsAlt] using
      And.intro (yields_plain tiers vis k env _ at') (tells_plain vis k env _ rfl)

/-- A run that ends normally emits exactly the bindings its steps lead to, every call made
on the way having succeeded. -/
theorem walk_emits (vis : Vis) (k : Nat) (b : Binding) :
    ∀ (steps : List Step) (what : Nat → Option (CatSet × Option Nat)),
      (hoists steps = [] ∨ vis.count = true) → (∀ h ∈ hoists steps, h ∈ hs) →
      Placed what k steps →
      Emits ctx hs what (slotsOf (hoists steps)) (walk ctx vis k b steps)
          (fun heights => Runs ctx heights vis k b steps) ∧
        Tells ctx hs what (walk ctx vis k b steps) fun heights => RunsOk ctx heights vis k b steps
  | [] => fun what _ _ _ => by
    simp only [walk, Runs, RunsOk]
    exact ⟨emits_emit b, tells_true _⟩
  | step :: rest => fun what count sub placed => by
    have first := expand_yields vis k b.vars step what
      (count.imp_left fun none => (List.append_eq_nil_iff.mp none).1)
      (fun h there => sub h (List.mem_append_left _ there)) (placed 0 step rfl)
    have next := fun a => walk_emits vis (k + 1) (b.take vis k step a) rest what
      (count.imp_left fun none => (List.append_eq_nil_iff.mp none).2)
      (fun h there => sub h (List.mem_append_right _ there)) placed.tail
    have sub' : (∀ slot ∈ slotsOf (stepHoists step), slot ∈ slotsOf (hoists (step :: rest))) ∧
        ∀ slot ∈ slotsOf (hoists rest), slot ∈ slotsOf (hoists (step :: rest)) := by
      simp only [slotsOf, hoists, List.map_append, List.mem_append]
      exact ⟨fun slot there => .inl there, fun slot there => .inr there⟩
    simp only [walk, Runs, RunsOk]
    exact ⟨emits_step (first.1.weaken sub'.1) fun a => (next a).1.weaken sub'.2,
      tells_step (first.1.weaken sub'.1) first.2 (fun a => (next a).1.weaken sub'.2)
        fun a => (next a).2⟩

end

end Walk

/-- The variables set before the body. -/
def Mode.bound : Mode → List (Nat × Value)
  | .explain _ _ bound => bound
  | .eval _ _ => []
  | .fold => []

theorem runBody_emits (tiers : ctx.tiers = edgeTiers ctx.src) (nested : Nested hs)
    (steps : List Step) (mode : Mode) (count : hoists steps = [] ∨ (Vis.ofMode mode).count = true)
    (sub : ∀ h ∈ hoists steps, h ∈ hs) :
    Emits ctx hs what (slotsOf (hoists steps)) (runBody ctx steps mode) (fun heights =>
        Runs ctx heights (Vis.ofMode mode) 0 (Binding.start (bindBound mode.bound)) steps) ∧
      Tells ctx hs what (runBody ctx steps mode) fun heights =>
        RunsOk ctx heights (Vis.ofMode mode) 0 (Binding.start (bindBound mode.bound)) steps := by
  have walked := walk_emits tiers nested (Vis.ofMode mode) 0
    (Binding.start (bindBound mode.bound)) steps _ count sub (placed_self steps)
  cases mode <;> exact ⟨emits_start walked.1, tells_start walked.2⟩

end Exact

end Glia.Rules
