import Glia.Rules.Analysis
import Mathlib.Data.List.Nodup
import Mathlib.Data.List.Perm.Subperm
import Mathlib.Data.List.Sort

/-! The canonical text of a rule. -/
namespace Glia.Rules

def escaped (c : Char) : List Char :=
  if c = '\x5c' then ['\x5c', '\x5c']
  else if c = '"' then ['\x5c', '"']
  else if c = '\n' then ['\x5c', 'n']
  else if c = '\t' then ['\x5c', 't']
  else [c]

def strLiteral (value : String) : String :=
  String.ofList ('"' :: (value.toList.flatMap escaped ++ ['"']))

def listText (items : List String) : String := ", ".intercalate items

def Term.text : Term → String
  | .var name => name
  | .wild => "_"
  | .str value => strLiteral value
  | .int value => toString value

def HeadArg.text : HeadArg → String
  | .term t => t.text
  | .agg a => a.op.name ++ "(" ++ listText a.vars ++ ")"

/-- A head without arguments is its name alone. -/
def Head.text (h : Head) : String :=
  if h.args = [] then h.pred else h.pred ++ "(" ++ listText (h.args.map HeadArg.text) ++ ")"

def Atom.text (a : Atom) : String := a.pred ++ "(" ++ listText (a.args.map Term.text) ++ ")"

def CmpOp.symbol : CmpOp → String
  | .eq => "="
  | .ne => "!="
  | .lt => "<"
  | .le => "<="
  | .gt => ">"
  | .ge => ">="

def Literal.text : Literal → String
  | .pos a => a.text
  | .neg a => "!" ++ a.text
  | .cmp c => c.left.text ++ " " ++ c.op.symbol ++ " " ++ c.right.text

def Rule.text (r : Rule) : String :=
  r.head.text ++ (if r.body = [] then "" else " :- " ++ listText (r.body.map Literal.text)) ++ "."

end Glia.Rules

/-! The magic rewrite: a recursive component read from bound sites is copied once per
binding pattern, each copy guarded by a predicate of the arguments asked of it. The marker
lines the rewrite prints are not modelled. -/
namespace Glia.Rules.Magic

/-- The widest predicate the rewrite adorns. -/
def maxArity : Nat := 8

def output : String := "output"
def noBoundSite : String := "no-bound-site"
def aggregate : String := "aggregate"
def arity : String := "arity"
def unstratifiable : String := "unstratifiable"

/-- What the rewrite did: the adorned pairs with their sites, and the predicates left as
written with the reason. -/
structure MagicReport where
  rewritten : List (String × String × Nat)
  skipped : List (String × String)
  deriving DecidableEq, Repr

/-- A demanded atom: its body position, the pair it reads and the positions its magic rule
keeps. -/
structure Demand where
  lit : Nat
  pair : Nat
  kept : List Nat
  deriving DecidableEq, Repr

/-- A predicate with the pattern of its bound arguments: the rewritten sites that read it,
and per rule of it the component atoms. -/
structure Pair where
  pred : PredId
  adornment : List Bool
  sites : Nat
  copies : List (Nat × List Demand)
  deriving DecidableEq, Repr

def Pair.key (q : Pair) : PredId × List Bool := (q.pred, q.adornment)

/-- One component's rewrite: the program, and per pair the member, its adornment and its
sites. -/
structure Step where
  program : Program
  pairs : List (Nat × String × Nat)
  deriving DecidableEq, Repr

/-- `b` per bound argument, `f` per free one. -/
def adornmentText (adornment : List Bool) : String :=
  String.ofList (adornment.map fun b => if b then 'b' else 'f')

/-- The name of an adorned copy (`a`) or a magic predicate (`m`). -/
def synthetic (tag pred : String) (adornment : List Bool) : String :=
  "__" ++ tag ++ "_" ++ pred ++ "__" ++ adornmentText adornment

/-- The IDB predicate `name/arity`. -/
def find (an : Analysis) (name : String) (arity : Nat) : Option PredId :=
  an.preds.findIdx? fun i => i.kind == .idb && i.name == name && i.arity == arity

/-- The index of a pair, added when new. -/
def pairOf (pairs : List Pair) (pred : PredId) (adornment : List Bool) : List Pair × Nat :=
  match pairs.findIdx? fun q => q.key == (pred, adornment) with
  | some k => (pairs, k)
  | none => (pairs ++ [⟨pred, adornment, 0, []⟩], pairs.length)

section Kept

variable (catalog : Catalog) (preds : List PredInfo)

/-- The literal can run on what the kept literals before it bind. -/
def keeps (bound : Bound) : CLit → Bool
  | .pos p terms => runnable catalog preds bound p terms
  | .neg _ terms => !hasFreeVar terms bound
  | .cmp op l r =>
    (isBound bound l && isBound bound r) ||
      (op == .eq && ((isBound bound l && r.isVar) || (isBound bound r && l.isVar)))

def bindKept (bound : Bound) : CLit → Bound
  | .pos _ terms => markAll bound terms
  | .cmp .eq l r => markTerm (markTerm bound l) r
  | .neg _ _ => bound
  | .cmp _ _ _ => bound

/-- The positions kept along an order, and what they leave bound. -/
def keep (body : List CLit) : Bound → List Nat → List Nat × Bound
  | bound, [] => ([], bound)
  | bound, i :: rest =>
    match body[i]? with
    | none => keep body bound rest
    | some lit =>
      if keeps catalog preds bound lit then
        let out := keep body (bindKept bound lit) rest
        (i :: out.1, out.2)
      else keep body bound rest

/-- The kept positions before a site, ascending, and the adornment of its terms there. -/
def prefixOf (cr : CRule) (order : List Nat) (site : Nat) (bound : Bound)
    (terms : List CTerm) : List Nat × List Bool :=
  let out := keep catalog preds cr.body bound (order.takeWhile (· != site))
  (out.1.insertionSort (· ≤ ·), terms.map (isBound out.2))

end Kept

/-- The pairs, the rewritten sites by rule, and whether a site reads the original. -/
structure Sites where
  pairs : List Pair
  sites : List (Nat × Demand)
  keepOriginal : Bool
  deriving DecidableEq, Repr

section Demanded

variable (catalog : Catalog) (an : Analysis) (scc : List PredId)

/-- One literal of a rule outside the component: an all-free or negated site reads the
original, any other is rewritten. -/
def siteLit (cr : CRule) (order : List Nat) (s : Sites) (lit : CLit × Nat) : Sites :=
  match lit.1 with
  | .neg p _ => if scc.contains p then { s with keepOriginal := true } else s
  | .pos p terms =>
    if !scc.contains p then s
    else
      let site := prefixOf catalog an.preds cr order lit.2 (fun _ => false) terms
      if site.2.contains true then
        let pair := pairOf s.pairs p site.2
        { s with
          pairs := pair.1.modify pair.2 fun q => { q with sites := q.sites + 1 }
          sites := s.sites ++ [(cr.index, ⟨lit.2, pair.2, site.1⟩)] }
      else { s with keepOriginal := true }
  | .cmp _ _ _ => s

def siteRule (s : Sites) (cr : CRule) : Sites :=
  let order := sipsOrder cr an.preds catalog (fun _ => false) none fun _ => none
  cr.body.zipIdx.foldl (siteLit catalog an scc cr order) s

def sitesOf : Sites :=
  (an.rules.filter fun r => !scc.contains r.head).foldl (siteRule catalog an scc) ⟨[], [], false⟩

/-- What the head's `b` arguments bind. -/
def headMarks (cr : CRule) (adornment : List Bool) : Bound :=
  markAll (fun _ => false) (((cr.headTerms.zip adornment).filter Prod.snd).map Prod.fst)

def copyLit (cr : CRule) (bound : Bound) (order : List Nat) (s : List Pair × List Demand)
    (lit : CLit × Nat) : List Pair × List Demand :=
  match lit.1 with
  | .pos p terms =>
    if !scc.contains p then s
    else
      let site := prefixOf catalog an.preds cr order lit.2 bound terms
      let pair := pairOf s.1 p site.2
      (pair.1, s.2 ++ [⟨lit.2, pair.2, site.1⟩])
  | .neg _ _ => s
  | .cmp _ _ _ => s

def copyRule (adornment : List Bool) (s : List Pair × List (Nat × List Demand)) (cr : CRule) :
    List Pair × List (Nat × List Demand) :=
  let bound := headMarks cr adornment
  let order := sipsOrder cr an.preds catalog bound none fun _ => none
  let out := cr.body.zipIdx.foldl (copyLit catalog an scc cr bound order) (s.1, [])
  (out.1, s.2 ++ [(cr.index, out.2)])

/-- The component atoms of each rule of a pair, their pairs added. -/
def copiesOf (pairs : List Pair) (q : Pair) : List Pair × List (Nat × List Demand) :=
  (an.rules.filter fun r => r.head == q.pred).foldl (copyRule catalog an scc q.adornment) (pairs, [])

/-- The fixpoint over the pairs, from pair `k`. -/
def closePairs : Nat → Nat → List Pair → List Pair
  | 0, _, pairs => pairs
  | fuel + 1, k, pairs =>
    match pairs[k]? with
    | none => pairs
    | some q =>
      let out := copiesOf catalog an scc pairs q
      closePairs fuel (k + 1) (out.1.modify k fun q => { q with copies := out.2 })

end Demanded

/-- Every adornment of `n` arguments. -/
def adornments : Nat → List (List Bool)
  | 0 => [[]]
  | n + 1 => (adornments n).map (true :: ·) ++ (adornments n).map (false :: ·)

/-- The pairs a program's atoms can demand. -/
def demandable (an : Analysis) : List (PredId × List Bool) :=
  (an.rules.flatMap CRule.body).flatMap fun lit =>
    match lit with
    | .pos p terms => (adornments terms.length).map fun a => (p, a)
    | .neg _ _ => []
    | .cmp _ _ _ => []

/-- The rewritten program under construction, and the text of every generated rule. -/
structure Emit where
  rules : List Rule
  seen : List String
  deriving DecidableEq, Repr

def Emit.push (out : Emit) (rule : Rule) : Emit := { out with rules := out.rules ++ [rule] }

/-- Push a generated rule unless its text was generated before. -/
def Emit.generated (out : Emit) (rule : Rule) : Emit :=
  if out.seen.contains rule.text then out
  else { out.push rule with seen := rule.text :: out.seen }

/-- The head's arguments at the adornment's `b` positions. -/
def headBound (head : Head) (adornment : List Bool) : List Term :=
  ((head.args.zip adornment).filter Prod.snd).filterMap fun a =>
    match a.1 with
    | .term t => some t
    | .agg _ => none

/-- The head is the body atom. -/
def restates (head : Head) : Literal → Bool
  | .pos a =>
    a.pred == head.pred && a.args.length == head.args.length &&
      (a.args.zip head.args).all fun e => e.1.text == e.2.text
  | .neg _ => false
  | .cmp _ => false

section Emitted

variable (an : Analysis) (pairs : List Pair)

def name (p : PredId) : String := ((an.preds[p]?).map PredInfo.name).getD ""

def adorned (q : Pair) : String := synthetic "a" (name an q.pred) q.adornment

def magic (q : Pair) : String := synthetic "m" (name an q.pred) q.adornment

/-- The magic rule of a demand, dropped when its head is one of its body atoms. -/
def emitMagic (out : Emit) (rule : Rule) (d : Demand) (body : List Literal) : Emit :=
  match rule.body[d.lit]?, pairs[d.pair]? with
  | some (.pos atom), some q =>
    let args := ((atom.args.zip q.adornment).filter Prod.snd).map fun a => HeadArg.term a.1
    let head : Head := ⟨magic an q, args⟩
    if body.any (restates head) then out else out.generated ⟨head, body⟩
  | _, _ => out

/-- Per body position of a rule, the adorned name a demanded atom takes there. -/
def renames (n : Nat) (demands : List Demand) : List (Option String) :=
  demands.foldl (fun names d =>
    match pairs[d.pair]? with
    | some q => names.set d.lit (some (adorned an q))
    | none => names) (List.replicate n none)

/-- Body literal `j`, renamed where the names give it one. -/
def renamed (rule : Rule) (names : List (Option String)) (j : Nat) : Option Literal :=
  rule.body[j]?.map fun lit =>
    match lit, (names[j]?).join with
    | .pos a, some name => .pos { a with pred := name }
    | lit, _ => lit

def renamedBody (rule : Rule) (names : List (Option String)) : List Literal :=
  (List.range rule.body.length).filterMap (renamed rule names)

/-- The adorned copy of one rule of a pair, then its propagation rules. -/
def emitCopy (prog : Program) (q : Pair) (out : Emit) (copy : Nat × List Demand) : Emit :=
  match prog.rules[copy.1]? with
  | none => out
  | some r =>
    let names := renames an pairs r.body.length copy.2
    let guard := Literal.pos ⟨magic an q, headBound r.head q.adornment⟩
    let out := out.generated ⟨{ r.head with pred := adorned an q }, guard :: renamedBody r names⟩
    copy.2.foldl (fun out d =>
      emitMagic an pairs out r d (guard :: d.kept.filterMap (renamed r names))) out

/-- The pairs in predicate, then adornment order. -/
def block : List Pair :=
  pairs.insertionSort fun q r =>
    q.pred < r.pred ∨ (q.pred = r.pred ∧ adornmentText q.adornment ≤ adornmentText r.adornment)

/-- One rule of the program: a component rule is dropped, or kept where a site still reads
the original, and the last one is followed by the adorned block; a rule with rewritten
sites follows their seed rules. -/
def emitRule (prog : Program) (scc : List PredId) (s : Sites) (last : Option Nat) (out : Emit)
    (r : Rule × Nat) : Emit :=
  if (an.rules[r.2]?).any fun cr => scc.contains cr.head then
    let out := if s.keepOriginal then out.push r.1 else out
    if some r.2 = last then
      (block pairs).foldl (fun out q => q.copies.foldl (emitCopy an pairs prog q) out) out
    else out
  else
    let here := (s.sites.filter fun e => e.1 == r.2).map Prod.snd
    if here = [] then out.push r.1
    else
      let names := renames an pairs r.1.body.length here
      let out := here.foldl (fun out d =>
        emitMagic an pairs out r.1 d (d.kept.filterMap (renamed r.1 names))) out
      out.push { r.1 with body := renamedBody r.1 names }

end Emitted

/-- Rewrite the component of the named members, or say why not. -/
def component (prog : Program) (an : Analysis) (catalog : Catalog)
    (members : List (String × Nat)) : Except String Step :=
  let scc := members.filterMap fun m => find an m.1 m.2
  let s := sitesOf catalog an scc
  if scc.length ≠ members.length then .error noBoundSite
  else if s.sites = [] then .error noBoundSite
  else
    let pairs := closePairs catalog an scc (demandable an).length 0 s.pairs
    let last := ((an.rules.filter fun r => scc.contains r.head).map CRule.index).max?
    let out := prog.rules.zipIdx.foldl (emitRule an pairs prog scc s last) ⟨[], []⟩
    .ok ⟨⟨out.rules⟩, pairs.filterMap fun q =>
      (scc.idxOf? q.pred).map fun m => (m, adornmentText q.adornment, q.sites)⟩

/-- An analysis of the program: one compiled rule per rule, in order, each with one compiled
literal per body literal. -/
def describes (program : Program) (an : Analysis) : Bool :=
  an.rules.length == program.rules.length &&
    (an.rules.zip program.rules).zipIdx.all fun e =>
      e.1.1.index == e.2 && e.1.1.body.length == e.1.2.body.length

/-- What the components handled so far leave: the pairs rewritten, the predicates skipped and
the program rewritten last, with its analysis. -/
structure State where
  rewritten : List (PredId × String × Nat)
  skipped : List (PredId × String)
  current : Option (Program × Analysis)

/-- Rewrite one component of the program; a step that does not analyse is dropped. -/
def rewriteComponent (program : Program) (an : Analysis) (catalog : Catalog) (s : State)
    (members : List PredId) : State :=
  let names := members.filterMap fun p => (an.preds[p]?).map fun i => (i.name, i.arity)
  let cur := s.current.getD (program, an)
  let skip reason := { s with skipped := s.skipped ++ members.map fun p => (p, reason) }
  match component cur.1 cur.2 catalog names with
  | .error reason => skip reason
  | .ok step =>
    match analyseWith step.program catalog true with
    | .error _ => skip unstratifiable
    | .ok next =>
      { s with
        rewritten := s.rewritten ++ step.pairs.filterMap fun e =>
          (members[e.1]?).map fun p => (p, e.2)
        current := some (step.program, next) }

/-- Why a recursive stratum is left as written. -/
def skipReason (an : Analysis) (outputs : List PredId) (st : Stratum) : Option String :=
  if st.preds.any outputs.contains then some output
  else if st.aggregate then some aggregate
  else if st.preds.any fun p => (an.preds[p]?).any fun i => maxArity < i.arity then some arity
  else none

/-- The recursive strata of user predicates. -/
def candidates (an : Analysis) : List Stratum :=
  an.strata.filter fun st => st.recursive &&
    st.preds.all fun p => (an.preds[p]?).any fun i => i.kind == .idb && !i.synthetic

/-- The components in stratum order, the highest first, rewritten for the bound sites that
read them. -/
def demand (program : Program) (an : Analysis) (catalog : Catalog) (outputs : List PredId) :
    Option Program × MagicReport :=
  if !describes program an then (none, ⟨[], []⟩)
  else
    let user := candidates an
    let skipped := user.flatMap fun st =>
      match skipReason an outputs st with
      | some reason => st.preds.map fun p => (p, reason)
      | none => []
    let todo := (user.filter fun st => (skipReason an outputs st).isNone).map Stratum.preds
    let s := todo.reverse.foldl (rewriteComponent program an catalog) ⟨[], skipped, none⟩
    let sig := fun p => ((an.preds[p]?).map PredInfo.signature).getD ""
    let sorted := s.rewritten.insertionSort fun x y =>
      x.1 < y.1 ∨ (x.1 = y.1 ∧ (x.2.1 < y.2.1 ∨ (x.2.1 = y.2.1 ∧ x.2.2 ≤ y.2.2)))
    (s.current.map Prod.fst,
      ⟨sorted.map fun e => (sig e.1, e.2),
        (s.skipped.insertionSort fun x y => x.1 ≤ y.1).map fun e => (sig e.1, e.2)⟩)

/-- The rewritten program; `none` when no predicate was rewritten. -/
def rewrite (program : Program) (an : Analysis) (catalog : Catalog) (outputs : List PredId) :
    Option (Program × MagicReport) :=
  let d := demand program an catalog outputs
  d.1.map fun p => (p, d.2)

end Glia.Rules.Magic

/-! Every pair the rewrite follows is one an atom demands, so it runs out of pairs, and what
it returns passes analysis. -/
namespace Glia.Rules.Magic

section Pairs

variable {catalog : Catalog} {an : Analysis} {scc : List PredId}

@[simp] theorem mem_adornments {n : Nat} {a : List Bool} : a ∈ adornments n ↔ a.length = n := by
  induction n generalizing a with
  | zero => simp [adornments, List.length_eq_zero_iff]
  | succ n ih =>
    cases a with
    | nil => simp [adornments]
    | cons b a => cases b <;> simp [adornments, ih]

theorem mem_demandable {cr : CRule} (mem : cr ∈ an.rules) {p : PredId} {terms : List CTerm}
    (lit : .pos p terms ∈ cr.body) {a : List Bool} (length : a.length = terms.length) :
    (p, a) ∈ demandable an := by
  unfold demandable
  refine List.mem_flatMap.mpr ⟨.pos p terms, List.mem_flatMap.mpr ⟨cr, mem, lit⟩, ?_⟩
  exact List.mem_map.mpr ⟨a, mem_adornments.mpr length, rfl⟩

/-- Distinct pairs, each of which an atom of the program demands. -/
structure Demanded (an : Analysis) (pairs : List Pair) : Prop where
  once : (pairs.map Pair.key).Nodup
  asked : ∀ key ∈ pairs.map Pair.key, key ∈ demandable an

theorem Demanded.length_le {pairs : List Pair} (h : Demanded an pairs) :
    pairs.length ≤ (demandable an).length := by
  have sub := (h.once.subperm h.asked).length_le
  rwa [List.length_map] at sub

theorem Demanded.modify {pairs : List Pair} (h : Demanded an pairs) (k : Nat) {f : Pair → Pair}
    (same : ∀ q, (f q).key = q.key) : Demanded an (pairs.modify k f) := by
  have keys : (pairs.modify k f).map Pair.key = pairs.map Pair.key := by
    refine List.ext_getElem? fun i => ?_
    rw [List.getElem?_map, List.getElem?_map, List.getElem?_modify]
    cases pairs[i]? with
    | none => rfl
    | some q =>
      by_cases here : k = i
      · simp [here, same]
      · simp [here]
  exact ⟨keys ▸ h.once, keys ▸ h.asked⟩

theorem Demanded.pairOf {pairs : List Pair} (h : Demanded an pairs) {p : PredId} {a : List Bool}
    (mem : (p, a) ∈ demandable an) : Demanded an (pairOf pairs p a).1 := by
  unfold Magic.pairOf
  split
  · exact h
  · rename_i new
    have fresh : (p, a) ∉ pairs.map Pair.key := by
      intro known
      obtain ⟨q, held, eq⟩ := List.mem_map.mp known
      have := List.findIdx?_eq_none_iff.mp new q held
      simp [eq] at this
    have keys : (pairs ++ [(⟨p, a, 0, []⟩ : Pair)]).map Pair.key =
        pairs.map Pair.key ++ [(p, a)] := by
      rw [List.map_append]
      rfl
    constructor
    · rw [keys]
      refine h.once.append (List.nodup_singleton _) ?_
      simpa using fresh
    · rw [keys]
      intro key known
      rcases List.mem_append.mp known with known | known
      · exact h.asked key known
      · cases List.mem_singleton.mp known
        exact mem

theorem prefixOf_length (preds : List PredInfo) (cr : CRule) (order : List Nat) (site : Nat)
    (bound : Bound) (terms : List CTerm) :
    (prefixOf catalog preds cr order site bound terms).2.length = terms.length := by
  simp [prefixOf]

theorem siteRule_demanded {cr : CRule} (mem : cr ∈ an.rules) {s : Sites}
    (h : Demanded an s.pairs) : Demanded an (siteRule catalog an scc s cr).pairs := by
  unfold siteRule
  refine List.foldlRecOn (motive := fun s : Sites => Demanded an s.pairs) _ _ h fun s h lit held => ?_
  have body : lit.1 ∈ cr.body := (List.mem_zipIdx' held).2 ▸ List.getElem_mem _
  unfold siteLit
  split
  · split <;> exact h
  · rename_i p terms eq
    split
    · exact h
    · simp only
      split
      · refine (h.pairOf ?_).modify _ fun q => rfl
        exact mem_demandable mem (eq ▸ body) (prefixOf_length _ _ _ _ _ _)
      · exact h
  · exact h

theorem sitesOf_demanded (catalog : Catalog) (an : Analysis) (scc : List PredId) :
    Demanded an (sitesOf catalog an scc).pairs := by
  unfold sitesOf
  refine List.foldlRecOn (motive := fun s : Sites => Demanded an s.pairs) _ _ ⟨by simp, by simp⟩ ?_
  exact fun s h cr held => siteRule_demanded (List.mem_filter.mp held).1 h

theorem copiesOf_demanded {pairs : List Pair} (h : Demanded an pairs) (q : Pair) :
    Demanded an (copiesOf catalog an scc pairs q).1 := by
  unfold copiesOf
  refine List.foldlRecOn (motive := fun s : List Pair × List (Nat × List Demand) => Demanded an s.1)
    _ _ h ?_
  intro s h cr held
  have mem := (List.mem_filter.mp held).1
  unfold copyRule
  refine List.foldlRecOn (motive := fun s : List Pair × List Demand => Demanded an s.1) _ _ h ?_
  intro s h lit held
  have body : lit.1 ∈ cr.body := (List.mem_zipIdx' held).2 ▸ List.getElem_mem _
  unfold copyLit
  split
  · rename_i p terms eq
    split
    · exact h
    · exact h.pairOf (mem_demandable mem (eq ▸ body) (prefixOf_length _ _ _ _ _ _))
  · exact h
  · exact h

/-- The fixpoint is over once every pair an atom demands could have had its turn. -/
theorem closePairs_ends {pairs : List Pair} (h : Demanded an pairs) {k fuel : Nat}
    (enough : (demandable an).length ≤ k + fuel) (more : Nat) :
    closePairs catalog an scc (fuel + more) k pairs = closePairs catalog an scc fuel k pairs := by
  induction fuel generalizing k pairs with
  | zero =>
    have past : pairs[k]? = none := List.getElem?_eq_none (h.length_le.trans enough)
    cases more with
    | zero => rfl
    | succ more => simp only [closePairs, past]
  | succ fuel ih =>
    rw [Nat.succ_add]
    unfold closePairs
    split
    · rfl
    · rename_i q _
      have held : Demanded an (copiesOf catalog an scc pairs q).1 := copiesOf_demanded h q
      exact ih (held.modify k (f := fun p => { p with copies := (copiesOf catalog an scc pairs q).2 })
        fun p => rfl) (by omega)

/-- A component's fixpoint is the one every larger fuel gives. -/
theorem component_ends (catalog : Catalog) (an : Analysis) (scc : List PredId) (more : Nat) :
    closePairs catalog an scc ((demandable an).length + more) 0 (sitesOf catalog an scc).pairs =
      closePairs catalog an scc (demandable an).length 0 (sitesOf catalog an scc).pairs :=
  closePairs_ends (sitesOf_demanded catalog an scc) (by omega) more

end Pairs

section Analysed

variable {program : Program} {an : Analysis} {catalog : Catalog}

/-- The program rewritten so far passes analysis, with the analysis at hand. -/
def State.Analysed (catalog : Catalog) (s : State) : Prop :=
  ∀ c, s.current = some c → analyseWith c.1 catalog true = .ok c.2

theorem rewriteComponent_analysed {s : State} (h : s.Analysed catalog) (members : List PredId) :
    (rewriteComponent program an catalog s members).Analysed catalog := by
  unfold rewriteComponent
  simp only
  split
  · exact h
  · split
    · exact h
    · rename_i step _ _ next analysed
      intro c current
      cases current
      exact analysed

/-- A program the rewrite returns passes analysis. -/
theorem rewrite_analyses {outputs : List PredId} {out : Program × MagicReport}
    (h : rewrite program an catalog outputs = some out) :
    ∃ next, analyseWith out.1 catalog true = .ok next := by
  unfold rewrite demand at h
  split at h
  · cases h
  · obtain ⟨p, some_, rfl⟩ := Option.map_eq_some_iff.mp h
    obtain ⟨c, current, rfl⟩ := Option.map_eq_some_iff.mp some_
    refine ⟨c.2, List.foldlRecOn (motive := State.Analysed catalog) _ _ ?_
      (fun s h members _ => rewriteComponent_analysed h members) c current⟩
    intro c current
    cases current

end Analysed

end Glia.Rules.Magic
