import Glia.Rules.Exec

/-! The interpreter's loop: one array of bindings, the alternatives of every open step on two
stacks, one frame a step, and never a recursion. A row keeps its witness ordinal on every
index, so explain has none to look up. -/
namespace Glia.Rules

structure FlatAlt where
  start : Nat
  len : Nat
  tier : Tier
  prov : RowMeta
  ordinal : Nat
  deriving DecidableEq, Repr

/-- The alternatives of every open frame, as stacks; an unset value is `none`. -/
structure Alts where
  alts : List FlatAlt
  vals : List (Option Value)
  deriving DecidableEq, Repr

def meets (wants : List (Nat × Want)) (row : List (Option Value)) : Bool :=
  wants.all fun w =>
    let want := match w.2 with
      | .val v => some (some v)
      | .col o => row[o]?
    want.isSome && row[w.1]? == want

namespace Alts

def empty : Alts := ⟨[], []⟩

def keep (o : Alts) (start : Nat) (wants : List (Nat × Want)) (tier : Tier) (prov : RowMeta)
    (ordinal : Nat) : Alts :=
  if meets wants (o.vals.drop start) then
    { o with alts := o.alts ++ [⟨start, o.vals.length - start, tier, prov, ordinal⟩] }
  else { o with vals := o.vals.take start }

def push (o : Alts) (a : Alt) : Alts :=
  keep { o with vals := o.vals ++ a.row.map some } o.vals.length [] a.tier a.prov a.ordinal

/-- A permuted relation row, put back in column order. -/
def relationRow (o : Alts) (perm : List Nat) (wants : List (Nat × Want)) (s : Seen) : Alts :=
  let start := o.vals.length
  let vals := (perm.zip s.row).foldl (fun vals c => vals.set (start + c.1) (some c.2))
    (o.vals ++ List.replicate perm.length none)
  keep { o with vals := vals } start wants s.tier s.prov s.ordinal

end Alts

def Seen.permuted (perm : List Nat) (s : Seen) : Seen :=
  { s with row := perm.filterMap fun c => s.row[c]? }

/-- A lookup's place in one index under one view, reused across bindings. -/
structure Cursor where
  rel : Relation
  perm : List Nat
  view : View

/-- The rows whose permuted prefix is `key`, as the index holds them. -/
def Cursor.seek (c : Cursor) (key : List Value) : List Seen :=
  (c.rel.seek c.perm c.view key).map (Seen.permuted c.perm)

/-- One open step: its alternatives `first ..< stop`, the next to take, and the binding's
level, height and explain rows before it. -/
structure Frame where
  first : Nat
  next : Nat
  stop : Nat
  vals : Nat
  level : Tier
  height : Nat
  lits : Nat
  deriving DecidableEq, Repr

/-- The loop's state; the innermost frame comes first. -/
structure Machine where
  vars : List (Option Value)
  out : Alts
  frames : List Frame
  lits : List LitRow
  level : Tier
  height : Nat
  cursors : List (Option Cursor)

/-- What the array binds: nothing past its end. -/
def envOf (vars : List (Option Value)) : Env := fun v => (vars[v]?).join

/-- Set the variables a step binds from `row`; a missing column unsets. -/
def setBinds (binds : List Bind) (row : List (Option Value)) (vars : List (Option Value)) :
    List (Option Value) :=
  binds.foldl (fun vars b => vars.set b.2 (row[b.1]?).join) vars

/-- The array's length: past every variable set before the body or bound by a step. -/
def varSpan (bound : List (Nat × Value)) (steps : List Step) : Nat :=
  (steps.flatMap eachBind).foldl (fun n b => max n (b.2 + 1))
    (bound.foldl (fun n b => max n (b.1 + 1)) 0)

def Machine.start (bound : List (Nat × Value)) (steps : List Step) : Machine where
  vars := bound.foldl (fun vars b => vars.set b.1 (some b.2))
    (List.replicate (varSpan bound steps) none)
  out := .empty
  frames := []
  lits := []
  level := .fact
  height := 0
  cursors := steps.map fun _ => none

/-- Take the next alternative of the innermost frame that has one; each exhausted frame is
popped, its alternatives dropped and its variables unset. `none` when no frame is left. -/
def advance (vis : Vis) (steps : List Step) (vars : List (Option Value)) (out : Alts)
    (lits : List LitRow) (cursors : List (Option Cursor)) : List Frame → Option Machine
  | [] => none
  | f :: rest =>
    match steps[rest.length]?, out.alts[f.next]? with
    | some step, some a =>
      if f.next < f.stop then
        let row := (out.vals.drop a.start).take a.len
        let alt : Alt := ⟨row.filterMap id, a.tier, a.prov, a.ordinal⟩
        some {
          vars := setBinds (eachBind step) row vars
          out := out
          frames := { f with next := f.next + 1 } :: rest
          lits := if vis.explain then lits.take f.lits ++ litRow rest.length step alt else lits
          level := f.level.weakest a.tier
          height := max f.height a.prov.height
          cursors := cursors }
      else
        advance vis steps (setBinds (eachBind step) [] vars)
          ⟨out.alts.take f.first, out.vals.take f.vals⟩ lits cursors rest
    | some step, none =>
      advance vis steps (setBinds (eachBind step) [] vars)
        ⟨out.alts.take f.first, out.vals.take f.vals⟩ lits cursors rest
    | none, _ => none

section Loop

variable (ctx : Ctx)

/-- Step `k`'s alternatives, pushed on the stacks. `seedRun` runs a hoisted reach's seed;
`none` when that ran out of turns. -/
def expandFlat (seedRun : List Step → ExecState → Option (Outcome Unit)) (vis : Vis) (k : Nat)
    (env : Env) (cursors : List (Option Cursor)) (out : Alts) (step : Step) (s : ExecState) :
    Option (Outcome (Alts × List (Option Cursor))) :=
  match step with
  | .scan pred perm binds checks src =>
    match ctx.rels[pred]?, wants ctx.src.tables env binds checks with
    | some rel, some ws =>
      let rows := (rel.scan (vis.view src)).map (Seen.permuted perm)
      some (.ok s (rows.foldl (fun o r => o.relationRow perm ws r) out, cursors))
    | _, _ => some (.ok s (out, cursors))
  | .lookup pred perm key binds checks src =>
    match ctx.rels[pred]?, parts ctx.src.tables env key, wants ctx.src.tables env binds checks with
    | some rel, some key, some ws =>
      match cursors[k]? with
      | none => some (.ok s (out, cursors))
      | some slot =>
        let cursor := slot.getD ⟨rel, perm, vis.view src⟩
        some (.ok s ((cursor.seek key).foldl (fun o r => o.relationRow perm ws r) out,
          cursors.set k (some cursor)))
    | _, _, _ => some (.ok s (out, cursors))
  | .reachMulti slot cats depth seed seedVar backward _ src =>
    let filled : Option (Outcome Unit) := match s.multi slot with
      | some _ => some (.ok s ())
      | none => (seedRun seed { s with out := [] }).map fun o =>
          fillMulti ctx slot cats depth seedVar backward vis.count (fun _ => o) s
    filled.map fun o => Exec.bind (fun _ => o) (fun _ s =>
      match s.multi slot with
      | none => .ok s (out, cursors)
      | some m => .ok s ((multiAlts vis src m).foldl Alts.push out, cursors)) s
  | step =>
    some (Exec.bind (expandPlain ctx vis k env step)
      (fun alts => Exec.pure (alts.foldl Alts.push out, cursors)) s)

/-- One turn: expand the next step into a frame, or emit a complete binding; then take the
next alternative. -/
def turn (seedRun : List Step → ExecState → Option (Outcome Unit)) (vis : Vis)
    (steps : List Step) (m : Machine) (s : ExecState) : Option (Outcome (Option Machine)) :=
  let k := m.frames.length
  match steps[k]? with
  | some step =>
    (expandFlat ctx seedRun vis k (envOf m.vars) m.cursors m.out step s).map fun o =>
      Exec.bind (fun _ => o) (fun r =>
        let n := r.1.alts.length
        Exec.bind (Exec.charge vis.count (n - m.out.alts.length)) fun _ =>
          let frame : Frame := ⟨m.out.alts.length, m.out.alts.length, n, m.out.vals.length,
            m.level, m.height, m.lits.length⟩
          Exec.pure (advance vis steps m.vars r.1 m.lits r.2 (frame :: m.frames))) s
  | none =>
    some (Exec.bind (if steps.isEmpty then Exec.charge vis.count 1 else Exec.pure ())
      (fun _ => Exec.bind (emit ⟨envOf m.vars, m.level, m.height, m.lits⟩) fun _ =>
        Exec.pure (advance vis steps m.vars m.out m.lits m.cursors m.frames)) s)

def runLoop (loop : Machine → ExecState → Option (Outcome Unit)) (count : Bool)
    (bound : List (Nat × Value)) (steps : List Step) (s : ExecState) : Option (Outcome Unit) :=
  if count && s.budget.tripped.isSome then some (.stop s)
  else
    match loop (Machine.start bound steps) { s with all := fun _ => none } with
    | some (.ok t a) => some (.ok { t with all := s.all } a)
    | some (.stop t) => some (.stop { t with all := s.all })
    | some (.fail e) => some (.fail e)
    | none => none

def loop : Nat → Vis → List Step → Machine → ExecState → Option (Outcome Unit)
  | 0, _, _, _, _ => none
  | fuel + 1, vis, steps, m, s =>
    let seedRun := fun seed =>
      runLoop (loop fuel (Vis.complete vis.count) seed) vis.count [] seed
    match turn ctx seedRun vis steps m s with
    | some (.ok t (some m')) => loop fuel vis steps m' t
    | some (.ok t none) => some (.ok t ())
    | some (.stop t) => some (.stop t)
    | some (.fail e) => some (.fail e)
    | none => none

def loopBody (fuel : Nat) (steps : List Step) (mode : Mode) : ExecState → Option (Outcome Unit) :=
  let vis := Vis.ofMode mode
  let bound := match mode with
    | .explain _ _ bound => bound
    | .eval _ _ => []
    | .fold => []
  runLoop (loop ctx fuel vis steps) vis.count bound steps

end Loop

end Glia.Rules
