import Glia.Graph.CrossLinks
import Mathlib

/-! Which cross-link rows depend on the edge order: the example of a bucket several edges
open is the first one's, every other field is a fold no order or id decides. -/
namespace Glia.Graph

open Glia.Algo (Classes leader)
open Glia.Kit (OrdMap gather getElem?_gather getElem?_gather_map)

section Fold
variable {ι β : Type}

theorem foldl_perm {step : ι → Option β → Option β}
    (swap : ∀ x y o, step y (step x o) = step x (step y o)) {l l' : List ι} (perm : l.Perm l')
    (o : Option β) : l.foldl (fun o x => step x o) o = l'.foldl (fun o x => step x o) o :=
  perm.foldl_eq' (fun x _ y _ o => swap x y o) o

end Fold

theorem keepLeast_swap {α : Type} [LinearOrder α] (x y : α) (o : Option α) :
    keepLeast y (keepLeast x o) = keepLeast x (keepLeast y o) := by
  cases o with
  | none => simp [keepLeast, ← min_def_lt, min_comm]
  | some z => simp [keepLeast, ← min_def_lt, min_left_comm]

namespace Agg

def showing (x : Examples) (a : Agg) : Agg := { a with examples := x }

@[simp] theorem showing_showing (x y : Examples) (a : Agg) :
    (a.showing x).showing y = a.showing y := rfl

@[simp] theorem showing_examples (x : Examples) (a : Agg) : (a.showing x).examples = x := rfl

def withLink (a : Agg) (l : Link) : Agg :=
  { a with confidence := a.confidence.weakest l.confidence }.count1 l.pair

@[simp] theorem withLink_confidence (a : Agg) (l : Link) :
    (a.withLink l).confidence = a.confidence.weakest l.confidence := by
  rw [withLink, count1.eq_def]
  split
  · rfl
  · split <;> rfl

@[simp] theorem withLink_examples (a : Agg) (l : Link) :
    (a.withLink l).examples = a.examples := by
  rw [withLink, count1.eq_def]
  split
  · rfl
  · split <;> rfl

theorem foldl_addLink_some (links : List Link) (a : Agg) :
    links.foldl (fun o l => addLink l o) (some a) = some (links.foldl withLink a) := by
  induction links generalizing a with
  | nil => rfl
  | cons l links ih => exact ih _

/-- A bucket before its first edge, but for the examples. -/
def unopened : Agg := ⟨0, .strong, toLex ("", ""), ∅⟩

theorem foldl_addLink_none (l : Link) (links : List Link) :
    (l :: links).foldl (fun o l => addLink l o) none =
      some ((l :: links).foldl withLink (unopened.showing l.examples)) := by
  simp only [List.foldl_cons]
  rw [← foldl_addLink_some]
  simp [addLink, withLink, unopened, showing]

theorem withLink_showing (l : Link) (a : Agg) (x : Examples) :
    (a.showing x).withLink l = (a.withLink l).showing x := by
  obtain ⟨key, confidence, examples, pair⟩ := l
  cases pair with
  | none => rfl
  | some p => by_cases h : p ∈ a.pairs <;> simp [withLink, count1, showing, h]

theorem foldl_withLink_showing (links : List Link) (a : Agg) (x : Examples) :
    links.foldl withLink (a.showing x) = (links.foldl withLink a).showing x := by
  induction links generalizing a with
  | nil => rfl
  | cons l links ih => rw [List.foldl_cons, withLink_showing, ih, List.foldl_cons]

theorem withLink_swap (l l' : Link) (a : Agg) :
    (a.withLink l).withLink l' = (a.withLink l').withLink l := by
  obtain ⟨key, confidence, examples, pair⟩ := l
  obtain ⟨key', confidence', examples', pair'⟩ := l'
  have weak : (a.confidence.weakest confidence).weakest confidence' =
      (a.confidence.weakest confidence').weakest confidence := by
    rw [Confidence.weakest_assoc, Confidence.weakest_assoc, Confidence.weakest_comm confidence]
  cases pair with
  | none =>
    cases pair' with
    | none => simp [withLink, count1, weak]
    | some q => by_cases hq : q ∈ a.pairs <;> simp [withLink, count1, weak, hq]
  | some p =>
    cases pair' with
    | none => by_cases hp : p ∈ a.pairs <;> simp [withLink, count1, weak, hp]
    | some q =>
      by_cases hp : p ∈ a.pairs <;> by_cases hq : q ∈ a.pairs <;> by_cases e : p = q <;>
        simp_all [withLink, count1, Finset.insert_comm, eq_comm]

theorem foldl_withLink_perm {links links' : List Link} (perm : links.Perm links') (a : Agg) :
    links.foldl withLink a = links'.foldl withLink a :=
  perm.foldl_eq' (fun l _ l' _ a => withLink_swap l l' a) a

theorem addRow_swap (r r' : ClassRow) (o : Option Agg) :
    addRow r' (addRow r o) = addRow r (addRow r' o) := by
  have weak : ∀ a : Confidence, (a.weakest r.confidence).weakest r'.confidence =
      (a.weakest r'.confidence).weakest r.confidence := by
    intro a
    rw [Confidence.weakest_assoc, Confidence.weakest_assoc,
      Confidence.weakest_comm r.confidence]
  cases o with
  | none =>
    simp only [addRow, ← min_def_lt, Confidence.weakest_comm r.confidence,
      min_comm r.examples]
  | some a => simp only [addRow, ← min_def_lt, weak, min_left_comm]

def leastShown (rows : List ClassRow) (x : Examples) : Examples :=
  rows.foldl (fun x r => if r.examples < x then r.examples else x) x

def withRow (a : Agg) (r : ClassRow) : Agg :=
  { a with
    count := a.count + 1
    confidence := a.confidence.weakest r.confidence
    examples := if r.examples < a.examples then r.examples else a.examples }

theorem foldl_addRow_showing (rows : List ClassRow) (a : Agg) (x : Examples) :
    rows.foldl (fun o r => addRow r o) (some (a.showing x)) =
      (rows.foldl (fun o r => addRow r o) (some a)).map (showing (leastShown rows x)) := by
  induction rows generalizing a x with
  | nil => rfl
  | cons r rows ih => exact ih (a.withRow r) (if r.examples < x then r.examples else x)

theorem foldl_addRow_perm {rows rows' : List ClassRow} (perm : rows.Perm rows') (o : Option Agg) :
    rows.foldl (fun o r => addRow r o) o = rows'.foldl (fun o r => addRow r o) o :=
  foldl_perm addRow_swap perm o

theorem foldl_addRow_isSome (rows : List ClassRow) (a : Agg) :
    (rows.foldl (fun o r => addRow r o) (some a)).isSome := by
  induction rows generalizing a with
  | nil => rfl
  | cons r rows ih => exact ih (a.withRow r)

end Agg

section Buckets
variable (upper : Char → List Char) (m : MergedGraph) (keyOf : NodeId → Option String)
  (sameAs collapse : Option Classes)

def edgeLink (e : Edge) : Option Link :=
  if ofClass sameAs e then none
  else
    match keyOf e.fromId, keyOf e.toId with
    | some fromKey, some toKey => some (linkOf upper m collapse e fromKey toKey)
    | _, _ => none

def isUnplaced (e : Edge) : Bool :=
  !ofClass sameAs e && ((keyOf e.fromId).isNone || (keyOf e.toId).isNone)

def edgeClass (e : Edge) : NodeId := (sameAs.map (·.rep e.fromId)).getD 0

def weaken (e : Edge) (seen : Option Confidence) : Option Confidence :=
  some ((seen.map (·.weakest e.confidence)).getD e.confidence)

theorem edgePass_from (edges : List Edge) (s : EdgePass) :
    edges.foldl (EdgePass.edge upper m keyOf sameAs collapse) s =
      { buckets := gather Link.key Agg.addLink s.buckets
          (edges.filterMap (edgeLink upper m keyOf sameAs collapse))
        unplaced := s.unplaced + (edges.filter (isUnplaced keyOf sameAs)).length
        classConfidence := gather (edgeClass sameAs) weaken s.classConfidence
          (edges.filter (ofClass sameAs)) } := by
  induction edges generalizing s with
  | nil => rfl
  | cons e edges ih =>
    rw [List.foldl_cons, ih]
    by_cases inClass : ofClass sameAs e = true
    · simp only [EdgePass.edge, edgeLink, isUnplaced, inClass, edgeClass, if_true,
        List.filterMap_cons_none, List.filter_cons, Bool.not_true, Bool.false_and,
        Bool.false_eq_true, if_false, Glia.Kit.gather_cons]
      rfl
    · cases source : keyOf e.fromId with
      | none =>
        simp [EdgePass.edge, edgeLink, isUnplaced, inClass, source]
        omega
      | some fromKey =>
        cases target : keyOf e.toId with
        | none =>
          simp [EdgePass.edge, edgeLink, isUnplaced, inClass, source, target]
          omega
        | some toKey => simp [EdgePass.edge, edgeLink, isUnplaced, inClass, source, target]

def links : List Link := m.crossEdges.filterMap (edgeLink upper m keyOf sameAs collapse)

def confidences (edges : List Edge) : IdMap Confidence :=
  gather (edgeClass sameAs) weaken ∅ (edges.filter (ofClass sameAs))

def rows : List ClassRow :=
  (formedClasses sameAs (confidences sameAs m.crossEdges)).flatMap fun entry =>
    classRows upper m keyOf entry.1 entry.2

def unplacedMembers : Nat :=
  ((formedClasses sameAs (confidences sameAs m.crossEdges)).map fun entry =>
    (entry.1.filter fun id => (keyOf id).isNone).length).sum

def buckets : OrdMap LinkKey Agg :=
  gather ClassRow.key Agg.addRow
    (gather Link.key Agg.addLink ∅ (links upper m keyOf sameAs collapse))
    (rows upper m keyOf sameAs)

def unplaced : Nat :=
  (m.crossEdges.filter (isUnplaced keyOf sameAs)).length + unplacedMembers m keyOf sameAs

theorem classPass_from (entries : List (List NodeId × Confidence))
    (acc : OrdMap LinkKey Agg × Nat) :
    entries.foldl (fun acc entry =>
      (gather ClassRow.key Agg.addRow acc.1 (classRows upper m keyOf entry.1 entry.2),
        acc.2 + (entry.1.filter fun id => (keyOf id).isNone).length)) acc =
      (gather ClassRow.key Agg.addRow acc.1
        (entries.flatMap fun entry => classRows upper m keyOf entry.1 entry.2),
        acc.2 + (entries.map fun entry =>
          (entry.1.filter fun id => (keyOf id).isNone).length).sum) := by
  induction entries generalizing acc with
  | nil => simp
  | cons entry entries ih =>
    rw [List.foldl_cons, ih, List.flatMap_cons, Glia.Kit.gather_append]
    simp [Nat.add_assoc]

theorem crossLinksWith_eq : crossLinksWith upper m keyOf sameAs collapse =
    ((buckets upper m keyOf sameAs collapse).toList.map linkRow,
      unplaced m keyOf sameAs) := by
  simp only [crossLinksWith, classPass, edgePass, edgePass_from, classPass_from]
  simp [buckets, links, rows, unplaced, unplacedMembers, confidences]

theorem buckets_get (k : LinkKey) : (buckets upper m keyOf sameAs collapse)[k]? =
    ((rows upper m keyOf sameAs).filter fun r => r.key = k).foldl (fun o r => Agg.addRow r o)
      (((links upper m keyOf sameAs collapse).filter fun l => l.key = k).foldl
        (fun o l => Agg.addLink l o) none) := by
  rw [buckets, getElem?_gather, getElem?_gather]
  rfl

/-- What the links and rows of one key make, but for the examples shown. -/
def core (ls : List Link) (rs : List ClassRow) : Option Agg :=
  rs.foldl (fun o r => Agg.addRow r o) (some (ls.foldl Agg.withLink Agg.unopened))

def linksAt (k : LinkKey) : List Link :=
  (links upper m keyOf sameAs collapse).filter fun l => l.key = k

def rowsAt (k : LinkKey) : List ClassRow :=
  (rows upper m keyOf sameAs).filter fun r => r.key = k

theorem buckets_get_cons {k : LinkKey} {l : Link} {ls : List Link}
    (at_k : linksAt upper m keyOf sameAs collapse k = l :: ls) :
    (buckets upper m keyOf sameAs collapse)[k]? =
      (core (l :: ls) (rowsAt upper m keyOf sameAs k)).map
        (Agg.showing (Agg.leastShown (rowsAt upper m keyOf sameAs k) l.examples)) := by
  rw [linksAt] at at_k
  rw [buckets_get, at_k, Agg.foldl_addLink_none, Agg.foldl_withLink_showing,
    Agg.foldl_addRow_showing]
  rfl

theorem buckets_get_nil {k : LinkKey} (at_k : linksAt upper m keyOf sameAs collapse k = []) :
    (buckets upper m keyOf sameAs collapse)[k]? =
      (rowsAt upper m keyOf sameAs k).foldl (fun o r => Agg.addRow r o) none := by
  rw [linksAt] at at_k
  rw [buckets_get, at_k]
  rfl

theorem core_perm {ls ls' : List Link} {rs rs' : List ClassRow} (pl : ls.Perm ls')
    (pr : rs.Perm rs') : core ls rs = core ls' rs' := by
  rw [core, core, Agg.foldl_withLink_perm pl, Agg.foldl_addRow_perm pr]

theorem core_isSome (ls : List Link) (rs : List ClassRow) : (core ls rs).isSome :=
  Agg.foldl_addRow_isSome _ _

theorem leastShown_eq (rs : List ClassRow) (x : Examples) :
    Agg.leastShown rs x = rs.foldl (fun x r => min r.examples x) x := by
  simp [Agg.leastShown, min_def_lt]

/-- Any two edges of one bucket show the same examples, or a class row of the bucket shows
none greater. -/
def Settled : Prop :=
  ∀ l ∈ links upper m keyOf sameAs collapse, ∀ l' ∈ links upper m keyOf sameAs collapse,
    l.key = l'.key → l.examples = l'.examples ∨
      ∃ r ∈ rows upper m keyOf sameAs, r.key = l.key ∧
        r.examples ≤ l.examples ∧ r.examples ≤ l'.examples

theorem leastShown_le_iff (rs : List ClassRow) (x y : Examples) :
    Agg.leastShown rs x ≤ y ↔ x ≤ y ∨ ∃ r ∈ rs, r.examples ≤ y := by
  rw [leastShown_eq]
  induction rs generalizing x with
  | nil => simp
  | cons r rs ih => simp [ih, or_assoc, or_left_comm]

/-- Two openings end alike when they are one, or some row is below both. -/
theorem leastShown_eq_iff (rs : List ClassRow) (x y : Examples) :
    Agg.leastShown rs x = Agg.leastShown rs y ↔
      x = y ∨ ∃ r ∈ rs, r.examples ≤ x ∧ r.examples ≤ y := by
  have self : ∀ z, Agg.leastShown rs z ≤ z := fun z => (leastShown_le_iff rs z z).mpr (.inl le_rfl)
  constructor
  · intro same
    obtain lt | rfl | lt := lt_trichotomy x y
    · obtain le | ⟨r, mem, le⟩ := (leastShown_le_iff rs y x).mp (same ▸ self x)
      · exact absurd le (not_le_of_gt lt)
      · exact .inr ⟨r, mem, le, le.trans lt.le⟩
    · exact .inl rfl
    · obtain le | ⟨r, mem, le⟩ := (leastShown_le_iff rs x y).mp (same ▸ self y)
      · exact absurd le (not_le_of_gt lt)
      · exact .inr ⟨r, mem, le.trans lt.le, le⟩
  · rintro (rfl | ⟨r, mem, left, right⟩)
    · rfl
    · apply eq_of_forall_ge_iff
      intro z
      rw [leastShown_le_iff, leastShown_le_iff]
      constructor
      · rintro (le | found)
        · exact .inr ⟨r, mem, left.trans le⟩
        · exact .inr found
      · rintro (le | found)
        · exact .inr ⟨r, mem, right.trans le⟩
        · exact .inr found

theorem settled_iff : Settled upper m keyOf sameAs collapse ↔
    ∀ l ∈ links upper m keyOf sameAs collapse, ∀ l' ∈ links upper m keyOf sameAs collapse,
      l.key = l'.key →
        Agg.leastShown (rowsAt upper m keyOf sameAs l.key) l.examples =
          Agg.leastShown (rowsAt upper m keyOf sameAs l.key) l'.examples := by
  simp only [Settled, leastShown_eq_iff, rowsAt, List.mem_filter, decide_eq_true_eq, and_assoc]

end Buckets

section Reordered
variable (upper : Char → List Char) (m : MergedGraph) (keyOf : NodeId → Option String)
  (sameAs collapse : Option Classes)

def MergedGraph.reorder (edges : List Edge) : MergedGraph := { m with crossEdges := edges }

theorem weaken_swap (e f : Edge) (o : Option Confidence) :
    weaken f (weaken e o) = weaken e (weaken f o) := by
  cases o with
  | none => simp [weaken, Confidence.weakest_comm]
  | some c =>
    simp only [weaken, Option.map_some, Option.getD_some]
    rw [Confidence.weakest_assoc, Confidence.weakest_assoc, Confidence.weakest_comm e.confidence]

theorem confidences_perm {edges edges' : List Edge} (perm : edges.Perm edges') :
    confidences sameAs edges = confidences sameAs edges' := by
  apply Glia.Kit.gather_eq_of_entries
  intro k
  exact foldl_perm weaken_swap ((perm.filter _).filter _) _

variable {m}
variable {edges : List Edge} (perm : edges.Perm m.crossEdges)
include perm

theorem rows_reorder : rows upper (m.reorder edges) keyOf sameAs = rows upper m keyOf sameAs := by
  simp only [rows, MergedGraph.reorder, confidences_perm sameAs perm]
  rfl

theorem links_reorder : (links upper (m.reorder edges) keyOf sameAs collapse).Perm
    (links upper m keyOf sameAs collapse) := by
  exact perm.filterMap _

theorem unplaced_reorder : unplaced (m.reorder edges) keyOf sameAs = unplaced m keyOf sameAs := by
  simp only [unplaced, unplacedMembers, MergedGraph.reorder, confidences_perm sameAs perm,
    (perm.filter _).length_eq]

theorem buckets_reorder (settled : Settled upper m keyOf sameAs collapse) :
    buckets upper (m.reorder edges) keyOf sameAs collapse =
      buckets upper m keyOf sameAs collapse := by
  apply OrdMap.ext_get
  intro k
  have same : rowsAt upper (m.reorder edges) keyOf sameAs k = rowsAt upper m keyOf sameAs k := by
    rw [rowsAt, rowsAt, rows_reorder upper keyOf sameAs perm]
  have mixed : (linksAt upper (m.reorder edges) keyOf sameAs collapse k).Perm
      (linksAt upper m keyOf sameAs collapse k) :=
    (links_reorder upper keyOf sameAs collapse perm).filter _
  cases new : linksAt upper (m.reorder edges) keyOf sameAs collapse k with
  | nil =>
    rw [new] at mixed
    rw [buckets_get_nil _ _ _ _ _ new, buckets_get_nil _ _ _ _ _ mixed.nil_eq.symm, same]
  | cons l ls =>
    cases old : linksAt upper m keyOf sameAs collapse k with
    | nil =>
      rw [new, old] at mixed
      exact absurd mixed.eq_nil (by simp)
    | cons l' ls' =>
      rw [new, old] at mixed
      have hl : l ∈ linksAt upper m keyOf sameAs collapse k := by
        rw [old]
        exact mixed.mem_iff.mp List.mem_cons_self
      have hl' : l' ∈ linksAt upper m keyOf sameAs collapse k := by
        rw [old]
        exact List.mem_cons_self
      rw [linksAt, List.mem_filter] at hl hl'
      have keyed : l.key = k := by simpa using hl.2
      have keyed' : l'.key = k := by simpa using hl'.2
      have shown := (settled_iff upper m keyOf sameAs collapse).mp settled l hl.1 l' hl'.1
        (keyed.trans keyed'.symm)
      rw [keyed] at shown
      rw [buckets_get_cons _ _ _ _ _ new, buckets_get_cons _ _ _ _ _ old, same, shown,
        core_perm mixed (List.Perm.refl _)]

end Reordered

section Rows
variable (upper : Char → List Char) (m : MergedGraph) (keyOf : NodeId → Option String)
  (sameAs collapse : Option Classes)

theorem linkRow_inj {k k' : LinkKey} {a a' : Agg} (h : linkRow (k, a) = linkRow (k', a')) :
    k = k' ∧ a.examples = a'.examples := by
  simp only [linkRow, CrossLink.mk.injEq] at h
  obtain ⟨source, target, mechanism, channel, -, -, exampleFrom, exampleTo⟩ := h
  exact ⟨Prod.ext source (Prod.ext target (Prod.ext mechanism channel)),
    Prod.ext exampleFrom exampleTo⟩

theorem examples_of_rows_eq {b b' : OrdMap LinkKey Agg}
    (h : b.toList.map linkRow = b'.toList.map linkRow) {k : LinkKey} {a a' : Agg}
    (held : b[k]? = some a) (held' : b'[k]? = some a') : a.examples = a'.examples := by
  have mem : linkRow (k, a) ∈ b'.toList.map linkRow :=
    h ▸ List.mem_map_of_mem (OrdMap.mem_toList.mpr held)
  obtain ⟨⟨k', a''⟩, mem', same⟩ := List.mem_map.mp mem
  obtain ⟨rfl, shown⟩ := linkRow_inj same
  rw [OrdMap.mem_toList.mp mem', Option.some.injEq] at held'
  rw [← shown, held']

theorem shown_of_first {e : Edge} {edges : List Edge} {l : Link}
    (link : edgeLink upper m keyOf sameAs collapse e = some l)
    (perm : (e :: edges).Perm m.crossEdges) :
    ∃ a, (buckets upper (m.reorder (e :: edges)) keyOf sameAs collapse)[l.key]? = some a ∧
      a.examples = Agg.leastShown (rowsAt upper m keyOf sameAs l.key) l.examples := by
  have first : linksAt upper (m.reorder (e :: edges)) keyOf sameAs collapse l.key =
      l :: ((edges.filterMap (edgeLink upper m keyOf sameAs collapse)).filter
        fun l' => l'.key = l.key) := by
    have same : edgeLink upper (m.reorder (e :: edges)) keyOf sameAs collapse =
        edgeLink upper m keyOf sameAs collapse := rfl
    simp only [linksAt, links, same]
    rw [MergedGraph.reorder, List.filterMap_cons_some link, List.filter_cons_of_pos (by simp)]
  rw [buckets_get_cons _ _ _ _ _ first]
  have rowsSame : rowsAt upper (m.reorder (e :: edges)) keyOf sameAs l.key =
      rowsAt upper m keyOf sameAs l.key := by
    rw [rowsAt, rowsAt, rows_reorder upper keyOf sameAs perm]
  obtain ⟨b, hb⟩ := Option.isSome_iff_exists.mp (core_isSome (l ::
    ((edges.filterMap (edgeLink upper m keyOf sameAs collapse)).filter fun l' => l'.key = l.key))
    (rowsAt upper (m.reorder (e :: edges)) keyOf sameAs l.key))
  rw [hb, rowsSame]
  exact ⟨_, rfl, rfl⟩

theorem reorder_iff : (∀ edges, edges.Perm m.crossEdges →
      crossLinksWith upper (m.reorder edges) keyOf sameAs collapse =
        crossLinksWith upper m keyOf sameAs collapse) ↔
    Settled upper m keyOf sameAs collapse := by
  constructor
  · intro same
    rw [settled_iff]
    intro l mem l' mem' keyed
    obtain ⟨e, he, link⟩ := List.mem_filterMap.mp mem
    obtain ⟨f, hf, link'⟩ := List.mem_filterMap.mp mem'
    have perm := (List.perm_cons_erase he).symm
    have perm' := (List.perm_cons_erase hf).symm
    obtain ⟨a, held, shown⟩ := shown_of_first upper m keyOf sameAs collapse link perm
    obtain ⟨a', held', shown'⟩ := shown_of_first upper m keyOf sameAs collapse link' perm'
    have rowsEq := (same _ perm).trans (same _ perm').symm
    rw [crossLinksWith_eq, crossLinksWith_eq, Prod.mk.injEq] at rowsEq
    rw [← keyed] at held' shown'
    rw [← shown, ← shown']
    exact examples_of_rows_eq rowsEq.1 held held'
  · intro settled edges perm
    rw [crossLinksWith_eq, crossLinksWith_eq, buckets_reorder upper keyOf sameAs collapse perm
      settled, unplaced_reorder keyOf sameAs perm]

end Rows

def Link.counting (pair : Option (NodeId × NodeId)) (l : Link) : Link := { l with pair := pair }

section Counting
variable (pair : Option (NodeId × NodeId)) (l : Link)

@[simp] theorem Link.counting_pair : (l.counting pair).pair = pair := rfl

@[simp] theorem Link.counting_key : (l.counting pair).key = l.key := rfl

@[simp] theorem Link.counting_confidence : (l.counting pair).confidence = l.confidence := rfl

@[simp] theorem Link.counting_examples : (l.counting pair).examples = l.examples := rfl

end Counting

namespace Agg

/-- Entries that differ in their counts, by `r`, and in the pairs counted alone. -/
def Alike (r : Nat → Nat → Prop) (a a' : Agg) : Prop :=
  r a.count a'.count ∧ a.confidence = a'.confidence ∧ a.examples = a'.examples

theorem Alike.addRow {r : Nat → Nat → Prop} (grow : ∀ n n', r n n' → r (n + 1) (n' + 1))
    (rows : List ClassRow) {a a' : Agg} (h : Alike r a a') :
    ∃ b b', rows.foldl (fun o r => Agg.addRow r o) (some a) = some b ∧
      rows.foldl (fun o r => Agg.addRow r o) (some a') = some b' ∧ Alike r b b' := by
  induction rows generalizing a a' with
  | nil => exact ⟨a, a', rfl, rfl, h⟩
  | cons row rows ih =>
    obtain ⟨count, confidence, examples⟩ := h
    have like : Alike r (a.withRow row) (a'.withRow row) :=
      ⟨grow _ _ count, by simp [withRow, confidence], by simp [withRow, examples]⟩
    exact ih like

theorem foldl_withLink_paired (all : List (Link × Option (NodeId × NodeId)))
    (held : ∀ z ∈ all, z.1.pair.isSome = z.2.isSome)
    (apart : ∀ z ∈ all, ∀ w ∈ all, z.1.pair = w.1.pair ↔ z.2 = w.2)
    (zs : List (Link × Option (NodeId × NodeId))) (sub : ∀ z ∈ zs, z ∈ all) {a a' : Agg}
    (like : Alike (· = ·) a a')
    (seen : ∀ z ∈ all, ∀ p p', z.1.pair = some p → z.2 = some p' →
      (p ∈ a.pairs ↔ p' ∈ a'.pairs)) :
    Alike (· = ·) ((zs.map Prod.fst).foldl withLink a)
      ((zs.map fun z => z.1.counting z.2).foldl withLink a') := by
  induction zs generalizing a a' with
  | nil => exact like
  | cons z zs ih =>
    have mem := sub z List.mem_cons_self
    obtain ⟨count, confidence, examples⟩ := like
    simp only [List.map_cons, List.foldl_cons]
    cases pz : z.1.pair with
    | none =>
      have pz' : z.2 = none := by simpa [pz] using held z mem
      apply ih fun w hw => sub w (List.mem_cons_of_mem _ hw)
      · simp [Alike, withLink, count1, pz, pz', count, confidence, examples]
      · simpa [withLink, count1, pz, pz'] using seen
    | some p =>
      obtain ⟨p', pz'⟩ : ∃ p', z.2 = some p' := by
        rw [← Option.isSome_iff_exists, ← held z mem, pz]
        rfl
      have both := seen z mem p p' pz pz'
      apply ih fun w hw => sub w (List.mem_cons_of_mem _ hw)
      · by_cases old : p ∈ a.pairs
        · simp [Alike, withLink, count1, pz, pz', old, both.mp old, count, confidence, examples]
        · simp [Alike, withLink, count1, pz, pz', old, mt both.mpr old, count, confidence,
            examples]
      · intro w hw q q' qw qw'
        have same : q = p ↔ q' = p' := by simpa [pz, pz', qw, qw'] using apart w hw z mem
        have before := seen w hw q q' qw qw'
        by_cases old : p ∈ a.pairs
        · simpa [withLink, count1, pz, pz', old, both.mp old] using before
        · simp [withLink, count1, pz, pz', old, mt both.mpr old, same, before]

def Counted (a : Agg) : Prop := a.pairs.card ≤ a.count

theorem Counted.withLink {a : Agg} (h : a.Counted) (l : Link) :
    (a.withLink l).Counted ∧ 1 ≤ (a.withLink l).count ∧ (a.withLink l).count ≤ a.count + 1 := by
  cases paired : l.pair with
  | none =>
    simp only [Counted, Agg.withLink, count1, paired] at h ⊢
    omega
  | some p =>
    by_cases old : p ∈ a.pairs
    · have filled : 0 < a.pairs.card := Finset.card_pos.mpr ⟨p, old⟩
      simp only [Counted, Agg.withLink, count1, paired, old, if_true] at h ⊢
      omega
    · simp only [Counted, Agg.withLink, count1, paired, old, if_false,
        Finset.card_insert_of_notMem, not_false_eq_true] at h ⊢
      omega

theorem foldl_withLink_fewer (zs : List (Link × Option (NodeId × NodeId)))
    (single : ∀ z ∈ zs, z.1.pair = none) {a a' : Agg} (like : Alike (fun n n' => n' ≤ n) a a')
    (counted : a'.Counted) (some_pair : zs = [] → 1 ≤ a'.count) :
    Alike (fun n n' => 1 ≤ n' ∧ n' ≤ n) ((zs.map Prod.fst).foldl withLink a)
      ((zs.map fun z => z.1.counting z.2).foldl withLink a') := by
  induction zs generalizing a a' with
  | nil => exact ⟨⟨some_pair rfl, like.1⟩, like.2⟩
  | cons z zs ih =>
    obtain ⟨count, confidence, examples⟩ := like
    obtain ⟨counted', filled, atMost⟩ := counted.withLink (z.1.counting z.2)
    have one : (a.withLink z.1).count = a.count + 1 := by
      simp [withLink, count1, single z List.mem_cons_self]
    have fewer : (a'.withLink (z.1.counting z.2)).count ≤ (a.withLink z.1).count := by omega
    apply ih fun w hw => single w (List.mem_cons_of_mem _ hw)
    · exact ⟨fewer, by simp [confidence], by simp [examples]⟩
    · exact counted'
    · exact fun _ => filled

theorem bucket_alike {r : Nat → Nat → Prop} (grow : ∀ n n', r n n' → r (n + 1) (n' + 1))
    (one : r 1 1) {zs : List (Link × Option (NodeId × NodeId))}
    (folds : zs ≠ [] → Alike r ((zs.map Prod.fst).foldl withLink unopened)
      ((zs.map fun z => z.1.counting z.2).foldl withLink unopened)) (rows : List ClassRow) :
    let bucket := rows.foldl (fun o r => Agg.addRow r o)
      ((zs.map Prod.fst).foldl (fun o l => addLink l o) none)
    let bucket' := rows.foldl (fun o r => Agg.addRow r o)
      ((zs.map fun z => z.1.counting z.2).foldl (fun o l => addLink l o) none)
    (bucket = none ∧ bucket' = none) ∨
      ∃ b b', bucket = some b ∧ bucket' = some b' ∧ Alike r b b' := by
  cases zs with
  | nil =>
    cases rows with
    | nil => exact .inl ⟨rfl, rfl⟩
    | cons row rows =>
      right
      exact Alike.addRow grow rows (a := ⟨1, row.confidence, row.examples, ∅⟩) ⟨one, rfl, rfl⟩
  | cons z zs =>
    right
    obtain ⟨count, confidence, examples⟩ := folds (List.cons_ne_nil z zs)
    simp only [List.map_cons] at count confidence examples ⊢
    rw [foldl_addLink_none, foldl_addLink_none, foldl_withLink_showing, foldl_withLink_showing]
    exact Alike.addRow grow rows ⟨count, confidence, rfl⟩

end Agg

section Renamed
variable (upper : Char → List Char) (m : MergedGraph) {keyOf keyOf' : NodeId → Option String}
  (sameAs collapse : Option Classes) (ρ : Renaming)

def describeNode (g : RepoGraph) (n : Node) (seen : Option (String × String)) :
    Option (String × String) :=
  some (seen.getD (g.nav.qnameById[n.id]?.getD "", g.nav.nameById[n.id]?.getD ""))

theorem describedNodes_eq : describedNodes m =
    m.graphs.foldl (fun acc g => gather Node.id (describeNode g) acc g.nodes) ∅ := rfl

theorem describeNode_rename (g : RepoGraph) (n : Node) :
    describeNode (g.rename ρ) (n.rename ρ) = describeNode g n := by
  funext seen
  simp only [describeNode, RepoGraph.rename, CodeNav.rename, Node.rename, IdMap.rename_get]

theorem describedNodes_rename_from (graphs : List RepoGraph) {acc acc' : IdMap (String × String)}
    (start : ∀ id, acc'[ρ id]? = acc[id]?) (id : NodeId) :
    ((graphs.map (RepoGraph.rename ρ)).foldl
      (fun acc g => gather Node.id (describeNode g) acc g.nodes) acc')[ρ id]? =
    (graphs.foldl (fun acc g => gather Node.id (describeNode g) acc g.nodes) acc)[id]? := by
  induction graphs generalizing acc acc' with
  | nil => exact start id
  | cons g graphs ih =>
    apply ih
    intro id
    apply getElem?_gather_map Node.id (describeNode g) acc ρ.injective
    · exact fun n => rfl
    · exact describeNode_rename ρ g
    · exact start id

theorem describe_rename (id : NodeId) : describe (m.rename ρ) (ρ id) = describe m id := by
  have found : (describedNodes (m.rename ρ))[ρ id]? = (describedNodes m)[id]? := by
    rw [describedNodes_eq, describedNodes_eq]
    apply describedNodes_rename_from
    intro id
    simp
  rw [describe, describe, found]

theorem ofClass_rename (e : Edge) :
    ofClass (sameAs.map (Classes.rename ρ)) (renameEdge ρ e) = ofClass sameAs e := by
  cases sameAs with
  | none => rfl
  | some c => simp [ofClass, renameEdge, c.rename_held ρ, c.rename_same ρ]

theorem edgeChannel_rename (e : Edge) :
    edgeChannel upper (m.rename ρ) (renameEdge ρ e) = edgeChannel upper m e := by
  simp only [edgeChannel, renameEdge, describe_rename]

theorem linkOf_rename (e : Edge) (fromKey toKey : String) :
    linkOf upper (m.rename ρ) (collapse.map (Classes.rename ρ)) (renameEdge ρ e) fromKey toKey =
      (linkOf upper m collapse e fromKey toKey).counting
        (classPair (collapse.map (Classes.rename ρ)) (renameEdge ρ e)) := by
  have channel := edgeChannel_rename upper m ρ e
  have source := describe_rename m ρ e.fromId
  have target := describe_rename m ρ e.toId
  simp only [linkOf, Link.counting, channel]
  simp only [renameEdge, source, target]
  rfl

theorem edgeLink_rename (keyed : ∀ id, keyOf' (ρ id) = keyOf id) (e : Edge) :
    edgeLink upper (m.rename ρ) keyOf' (sameAs.map (Classes.rename ρ))
        (collapse.map (Classes.rename ρ)) (renameEdge ρ e) =
      (edgeLink upper m keyOf sameAs collapse e).map (Link.counting
        (classPair (collapse.map (Classes.rename ρ)) (renameEdge ρ e))) := by
  have source : keyOf' (renameEdge ρ e).fromId = keyOf e.fromId := keyed e.fromId
  have target : keyOf' (renameEdge ρ e).toId = keyOf e.toId := keyed e.toId
  rw [edgeLink, edgeLink, ofClass_rename, source, target]
  by_cases inClass : ofClass sameAs e = true
  · rw [if_pos inClass, if_pos inClass]
    rfl
  · rw [if_neg inClass, if_neg inClass]
    cases keyOf e.fromId with
    | none => rfl
    | some fromKey =>
      cases keyOf e.toId with
      | none => rfl
      | some toKey => simp only [linkOf_rename, Option.map_some]

theorem edgeLink_eq_some {e : Edge} {l : Link}
    (h : edgeLink upper m keyOf sameAs collapse e = some l) :
    ∃ fromKey toKey, l = linkOf upper m collapse e fromKey toKey := by
  rw [edgeLink] at h
  split at h
  · cases h
  · split at h
    · exact ⟨_, _, (Option.some.inj h).symm⟩
    · cases h

theorem edgeLink_pair {e : Edge} {l : Link}
    (h : edgeLink upper m keyOf sameAs collapse e = some l) : l.pair = classPair collapse e := by
  obtain ⟨fromKey, toKey, rfl⟩ := edgeLink_eq_some upper m sameAs collapse h
  rfl

def mechanismOf (k : LinkKey) : String := (ofLex (ofLex (ofLex k).2).2).1

theorem edgeLink_mechanism {e : Edge} {l : Link}
    (h : edgeLink upper m keyOf sameAs collapse e = some l) :
    mechanismOf l.key = EdgeCategory.name e.category := by
  obtain ⟨fromKey, toKey, rfl⟩ := edgeLink_eq_some upper m sameAs collapse h
  simp only [linkOf, mechanismOf]
  split <;> rfl

theorem symmetric_of_name {c d : EdgeCategoryId} (h : EdgeCategory.name c = EdgeCategory.name d)
    (hc : c ∈ symmetric) : d ∈ symmetric := by
  have known : ∀ c ∈ symmetric, EdgeCategory.name c ≠ "UNKNOWN" ∧
      ∀ p ∈ EdgeCategory.all, p.2 = EdgeCategory.name c → p.1 ∈ symmetric := by decide
  cases found : EdgeCategory.all.find? fun p => p.1 == d with
  | none =>
    have unknown : EdgeCategory.name d = "UNKNOWN" := by simp [EdgeCategory.name, nameOf, found]
    exact absurd (h.trans unknown) (known c hc).1
  | some p =>
    have named : EdgeCategory.name d = p.2 := by simp [EdgeCategory.name, nameOf, found]
    have id : p.1 = d := by simpa using List.find?_some found
    exact id ▸ (known c hc).2 p (List.mem_of_find?_eq_some found) (h.trans named).symm

theorem symmetric_iff_of_name {c d : EdgeCategoryId}
    (h : EdgeCategory.name c = EdgeCategory.name d) : c ∈ symmetric ↔ d ∈ symmetric :=
  ⟨symmetric_of_name h, symmetric_of_name h.symm⟩

theorem classPair_isSome (e : Edge) :
    (classPair (collapse.map (Classes.rename ρ)) (renameEdge ρ e)).isSome =
      (classPair collapse e).isSome := by
  cases collapse with
  | none => rfl
  | some c =>
    simp only [classPair, renameEdge, Option.map_some, Option.isSome_map, Option.isSome_filter,
      Option.any_some, c.rename_held ρ]

theorem ascending_eq_iff (a b x y : Nat) :
    (if b < a then (b, a) else (a, b)) = (if y < x then (y, x) else (x, y)) ↔
      (a = x ∧ b = y) ∨ (a = y ∧ b = x) := by
  by_cases h : b < a <;> by_cases h' : y < x <;> simp only [h, h', if_true, if_false, Prod.mk.injEq]
  all_goals omega

theorem classPair_apart {e f : Edge} (sym : e.category ∈ symmetric ↔ f.category ∈ symmetric) :
    classPair collapse e = classPair collapse f ↔
      classPair (collapse.map (Classes.rename ρ)) (renameEdge ρ e) =
        classPair (collapse.map (Classes.rename ρ)) (renameEdge ρ f) := by
  have helde := classPair_isSome collapse ρ e
  have heldf := classPair_isSome collapse ρ f
  cases collapse with
  | none => simp [classPair]
  | some c =>
    simp only [classPair, renameEdge, Option.map_some, Option.filter_some, c.rename_held ρ]
    by_cases he : ((c.classOf e.fromId).isSome || (c.classOf e.toId).isSome) = true <;>
      by_cases hf : ((c.classOf f.fromId).isSome || (c.classOf f.toId).isSome) = true <;>
      simp only [he, hf, if_true, if_false, Option.map_some, Option.map_none, Option.some.injEq,
        reduceCtorEq]
    by_cases both : e.category ∈ symmetric
    · simp only [both, sym.mp both, true_and, ascending_eq_iff, c.rename_rep_eq ρ]
    · have neither : f.category ∉ symmetric := fun h => both (sym.mpr h)
      simp only [both, neither, false_and, if_false, Prod.mk.injEq, c.rename_rep_eq ρ]

variable (keyOf) in
def renamedLinks : List (Link × Option (NodeId × NodeId)) :=
  m.crossEdges.filterMap fun e => (edgeLink upper m keyOf sameAs collapse e).map fun l =>
    (l, classPair (collapse.map (Classes.rename ρ)) (renameEdge ρ e))

theorem renamedLinks_fst : (renamedLinks upper m keyOf sameAs collapse ρ).map Prod.fst =
    links upper m keyOf sameAs collapse := by
  rw [renamedLinks, List.map_filterMap, links]
  congr 1
  funext e
  cases edgeLink upper m keyOf sameAs collapse e <;> rfl

theorem links_rename (keyed : ∀ id, keyOf' (ρ id) = keyOf id) :
    links upper (m.rename ρ) keyOf' (sameAs.map (Classes.rename ρ))
        (collapse.map (Classes.rename ρ)) =
      (renamedLinks upper m keyOf sameAs collapse ρ).map fun z =>
        z.1.counting z.2 := by
  rw [renamedLinks, List.map_filterMap, links, MergedGraph.rename, List.filterMap_map]
  congr 1
  funext e
  have renamed := edgeLink_rename upper m sameAs collapse ρ keyed e
  simp only [MergedGraph.rename] at renamed
  rw [Function.comp_apply, renamed]
  cases edgeLink upper m keyOf sameAs collapse e <;> rfl

theorem mem_renamedLinks {z : Link × Option (NodeId × NodeId)}
    (mem : z ∈ renamedLinks upper m keyOf sameAs collapse ρ) :
    ∃ e, edgeLink upper m keyOf sameAs collapse e = some z.1 ∧
      z.2 = classPair (collapse.map (Classes.rename ρ)) (renameEdge ρ e) := by
  obtain ⟨e, -, found⟩ := List.mem_filterMap.mp mem
  cases h : edgeLink upper m keyOf sameAs collapse e with
  | none => simp [h] at found
  | some l =>
    rw [h, Option.map_some, Option.some.injEq] at found
    exact ⟨e, by rw [← found, h], by rw [← found]⟩

theorem renamedLinks_apart {z w : Link × Option (NodeId × NodeId)}
    (hz : z ∈ renamedLinks upper m keyOf sameAs collapse ρ)
    (hw : w ∈ renamedLinks upper m keyOf sameAs collapse ρ)
    (keyed : z.1.key = w.1.key) : z.1.pair = w.1.pair ↔ z.2 = w.2 := by
  obtain ⟨e, le, pe⟩ := mem_renamedLinks upper m sameAs collapse ρ hz
  obtain ⟨f, lf, pf⟩ := mem_renamedLinks upper m sameAs collapse ρ hw
  have named : EdgeCategory.name e.category = EdgeCategory.name f.category := by
    rw [← edgeLink_mechanism upper m sameAs collapse le,
      ← edgeLink_mechanism upper m sameAs collapse lf, keyed]
  rw [edgeLink_pair upper m sameAs collapse le, edgeLink_pair upper m sameAs collapse lf, pe, pf]
  exact classPair_apart collapse ρ (symmetric_iff_of_name named)

theorem linksAt_rename (keyed : ∀ id, keyOf' (ρ id) = keyOf id) (k : LinkKey) :
    linksAt upper (m.rename ρ) keyOf' (sameAs.map (Classes.rename ρ))
        (collapse.map (Classes.rename ρ)) k =
      ((renamedLinks upper m keyOf sameAs collapse ρ).filter
        fun z => z.1.key = k).map fun z => z.1.counting z.2 := by
  rw [linksAt, links_rename upper m sameAs collapse ρ keyed, List.filter_map]
  rfl

theorem linksAt_eq (k : LinkKey) : linksAt upper m keyOf sameAs collapse k =
    ((renamedLinks upper m keyOf sameAs collapse ρ).filter
      fun z => z.1.key = k).map Prod.fst := by
  rw [linksAt, ← renamedLinks_fst upper m sameAs collapse ρ, List.filter_map]
  rfl

theorem edgeClass_rename {c : Classes} {s : List NodeId} (hs : s ∈ c.sets) (e : Edge) :
    edgeClass (some (c.rename ρ)) (renameEdge ρ e) = leader (Classes.imageOf ρ s) ↔
      edgeClass (some c) e = leader s := by
  have hs' := (c.mem_rename_sets ρ _).mpr ⟨s, hs, rfl⟩
  simp only [edgeClass, renameEdge, Option.map_some, Option.getD_some]
  rw [(c.rename ρ).rep_eq_leader hs', c.rep_eq_leader hs, Classes.mem_imageOf]

theorem confidences_rename {c : Classes} {s : List NodeId} (hs : s ∈ c.sets) (edges : List Edge) :
    (confidences (some (c.rename ρ)) (edges.map (renameEdge ρ)))[leader (Classes.imageOf ρ s)]? =
      (confidences (some c) edges)[leader s]? := by
  rw [confidences, confidences, getElem?_gather, getElem?_gather, List.filter_map,
    List.filter_map, List.foldl_map]
  have same : ofClass (some (c.rename ρ)) ∘ renameEdge ρ = ofClass (some c) := by
    funext e
    exact ofClass_rename (some c) ρ e
  simp only [same, Function.comp_def, edgeClass_rename ρ hs]
  simp [weaken, renameEdge]

theorem formedClasses_rename (edges : List Edge) :
    (formedClasses (sameAs.map (Classes.rename ρ))
      (confidences (sameAs.map (Classes.rename ρ)) (edges.map (renameEdge ρ)))).Perm
    ((formedClasses sameAs (confidences sameAs edges)).map (Prod.map (Classes.imageOf ρ) id)) := by
  cases sameAs with
  | none => exact List.Perm.refl _
  | some c =>
    simp only [formedClasses, Option.map_some, Option.getD_some]
    apply ((c.rename_sets_perm ρ).filterMap _).trans
    rw [List.filterMap_map, List.map_filterMap]
    apply List.Perm.of_eq
    apply List.filterMap_congr
    intro s hs
    rw [Function.comp_apply, confidences_rename ρ hs]
    cases (confidences (some c) edges)[leader s]? <;> rfl

theorem classChannel_rename (s : List NodeId) :
    classChannel upper (m.rename ρ) (Classes.imageOf ρ s) = classChannel upper m s := by
  have perm := Classes.imageOf_perm ρ s
  have channels : ((Classes.imageOf ρ s).map fun id =>
      channelOf upper (describe (m.rename ρ) id).1 (describe (m.rename ρ) id).2).Perm
      (s.map fun id => channelOf upper (describe m id).1 (describe m id).2) := by
    apply (perm.map _).trans
    rw [List.map_map]
    simp only [Function.comp_def, describe_rename]
    exact List.Perm.refl _
  rw [classChannel, classChannel,
    foldl_perm keepLeast_swap (channels.filter fun c => c.toList ≠ [])]

theorem classKeys_rename (keyed : ∀ id, keyOf' (ρ id) = keyOf id) (s : List NodeId) :
    classKeys (m.rename ρ) keyOf' (Classes.imageOf ρ s) = classKeys m keyOf s := by
  have placed : ((Classes.imageOf ρ s).filterMap fun id =>
      (keyOf' id).map fun key => (key, (describe (m.rename ρ) id).1)).Perm
      (s.filterMap fun id => (keyOf id).map fun key => (key, (describe m id).1)) := by
    apply ((Classes.imageOf_perm ρ s).filterMap _).trans
    rw [List.filterMap_map]
    simp only [Function.comp_def, describe_rename, keyed]
    exact List.Perm.refl _
  apply Glia.Kit.gather_eq_of_entries
  intro k
  apply foldl_perm
  · exact fun p q o => keepLeast_swap p.2 q.2 o
  · exact placed.filter _

theorem classRows_rename (keyed : ∀ id, keyOf' (ρ id) = keyOf id) (s : List NodeId)
    (confidence : Confidence) :
    classRows upper (m.rename ρ) keyOf' (Classes.imageOf ρ s) confidence =
      classRows upper m keyOf s confidence := by
  rw [classRows, classRows, classKeys_rename m ρ keyed, classChannel_rename]

theorem rows_rename (keyed : ∀ id, keyOf' (ρ id) = keyOf id) :
    (rows upper (m.rename ρ) keyOf' (sameAs.map (Classes.rename ρ))).Perm
      (rows upper m keyOf sameAs) := by
  rw [rows, rows]
  apply ((formedClasses_rename sameAs ρ m.crossEdges).flatMap_right _).trans
  rw [List.flatMap_map]
  simp only [Prod.map_fst, Prod.map_snd, id_eq, classRows_rename upper m ρ keyed]
  exact List.Perm.refl _

theorem unplacedMembers_rename (keyed : ∀ id, keyOf' (ρ id) = keyOf id) :
    unplacedMembers (m.rename ρ) keyOf' (sameAs.map (Classes.rename ρ)) =
      unplacedMembers m keyOf sameAs := by
  have members : ∀ s, ((Classes.imageOf ρ s).filter fun id => (keyOf' id).isNone).length =
      (s.filter fun id => (keyOf id).isNone).length := by
    intro s
    rw [((Classes.imageOf_perm ρ s).filter _).length_eq, List.filter_map, List.length_map]
    simp only [Function.comp_def, keyed]
  rw [unplacedMembers, unplacedMembers]
  apply (((formedClasses_rename sameAs ρ m.crossEdges).map _).sum_nat).trans
  simp only [List.map_map, Function.comp_def, Prod.map_fst, members]

theorem unplaced_rename (keyed : ∀ id, keyOf' (ρ id) = keyOf id) :
    unplaced (m.rename ρ) keyOf' (sameAs.map (Classes.rename ρ)) = unplaced m keyOf sameAs := by
  have ends : isUnplaced keyOf' (sameAs.map (Classes.rename ρ)) ∘ renameEdge ρ =
      isUnplaced keyOf sameAs := by
    funext e
    simp only [isUnplaced, Function.comp_apply, ofClass_rename]
    simp only [renameEdge, keyed]
  rw [unplaced, unplaced, unplacedMembers_rename m sameAs ρ keyed]
  simp only [MergedGraph.rename, List.filter_map, ends, List.length_map]

theorem bucket_rename (keyed : ∀ id, keyOf' (ρ id) = keyOf id) (k : LinkKey) :
    let old := (buckets upper m keyOf sameAs collapse)[k]?
    let new := (buckets upper (m.rename ρ) keyOf' (sameAs.map (Classes.rename ρ))
      (collapse.map (Classes.rename ρ)))[k]?
    (old = none ∧ new = none) ∨
      ∃ b b', old = some b ∧ new = some b' ∧ Agg.Alike (· = ·) b b' := by
  have rowsPerm := (rows_rename upper m sameAs ρ keyed).filter fun r => r.key = k
  have linksOld : linksAt upper m keyOf sameAs collapse k = _ :=
    linksAt_eq upper m sameAs collapse ρ k
  have linksNew := linksAt_rename upper m sameAs collapse ρ keyed k
  rw [linksAt] at linksOld linksNew
  simp only [buckets_get, linksOld, linksNew, Agg.foldl_addRow_perm rowsPerm]
  apply Agg.bucket_alike
  · exact fun n n' same => congrArg (· + 1) same
  · rfl
  · intro _
    apply Agg.foldl_withLink_paired ((renamedLinks upper m keyOf sameAs collapse
      ρ).filter fun z => z.1.key = k)
    · intro z mem
      obtain ⟨e, le, pe⟩ := mem_renamedLinks upper m sameAs collapse ρ (List.mem_filter.mp mem).1
      rw [edgeLink_pair upper m sameAs collapse le, pe, classPair_isSome]
    · intro z hz w hw
      rw [List.mem_filter, decide_eq_true_eq] at hz hw
      exact renamedLinks_apart upper m sameAs collapse ρ hz.1 hw.1 (hz.2.trans hw.2.symm)
    · exact fun z mem => mem
    · exact ⟨rfl, rfl, rfl⟩
    · intro z _ p p' _ _
      simp [Agg.unopened]

theorem crossLinksWith_rename (keyed : ∀ id, keyOf' (ρ id) = keyOf id) :
    crossLinksWith upper (m.rename ρ) keyOf' (sameAs.map (Classes.rename ρ))
        (collapse.map (Classes.rename ρ)) =
      crossLinksWith upper m keyOf sameAs collapse := by
  have listed : List.Forall₂ (fun x y => linkRow x = linkRow y)
      (buckets upper m keyOf sameAs collapse).toList
      (buckets upper (m.rename ρ) keyOf' (sameAs.map (Classes.rename ρ))
        (collapse.map (Classes.rename ρ))).toList := by
    apply OrdMap.forall₂_toList
    intro k
    obtain none_both | ⟨b, b', hb, hb', count, confidence, examples⟩ :=
      bucket_rename upper m sameAs collapse ρ keyed k
    · exact .inl none_both
    · exact .inr ⟨b, b', hb, hb', by simp [linkRow, count, confidence, examples]⟩
  rw [← List.forall₂_map_right_iff (R := fun x y => linkRow x = y),
    ← List.forall₂_map_left_iff (R := fun x y => x = y), List.forall₂_eq_eq_eq] at listed
  rw [crossLinksWith_eq, crossLinksWith_eq, unplaced_rename m sameAs ρ keyed, listed]

end Renamed

section Collapsed
variable (upper : Char → List Char) (m : MergedGraph) (keyOf : NodeId → Option String)
  (sameAs : Option Classes) (c : Classes)

def CrossLink.Lowered (row row' : CrossLink) : Prop :=
  row' = { row with count := row'.count } ∧ 1 ≤ row'.count ∧ row'.count ≤ row.count

theorem edgeLink_collapse (e : Edge) : edgeLink upper m keyOf sameAs (some c) e =
    (edgeLink upper m keyOf sameAs none e).map (Link.counting (classPair (some c) e)) := by
  rw [edgeLink, edgeLink]
  by_cases inClass : ofClass sameAs e = true
  · rw [if_pos inClass, if_pos inClass]
    rfl
  · rw [if_neg inClass, if_neg inClass]
    cases keyOf e.fromId with
    | none => rfl
    | some fromKey =>
      cases keyOf e.toId with
      | none => rfl
      | some toKey => rfl

def collapsedLinks : List (Link × Option (NodeId × NodeId)) :=
  m.crossEdges.filterMap fun e => (edgeLink upper m keyOf sameAs none e).map fun l =>
    (l, classPair (some c) e)

theorem links_uncollapsed : links upper m keyOf sameAs none =
    (collapsedLinks upper m keyOf sameAs c).map Prod.fst := by
  rw [collapsedLinks, List.map_filterMap, links]
  congr 1
  funext e
  cases edgeLink upper m keyOf sameAs none e <;> rfl

theorem links_collapsed : links upper m keyOf sameAs (some c) =
    (collapsedLinks upper m keyOf sameAs c).map fun z => z.1.counting z.2 := by
  rw [collapsedLinks, List.map_filterMap, links]
  congr 1
  funext e
  rw [edgeLink_collapse]
  cases edgeLink upper m keyOf sameAs none e <;> rfl

theorem collapsedLinks_single {z : Link × Option (NodeId × NodeId)}
    (mem : z ∈ collapsedLinks upper m keyOf sameAs c) : z.1.pair = none := by
  obtain ⟨e, -, found⟩ := List.mem_filterMap.mp mem
  cases h : edgeLink upper m keyOf sameAs none e with
  | none => simp [h] at found
  | some l =>
    rw [h, Option.map_some, Option.some.injEq] at found
    rw [← found, edgeLink_pair upper m sameAs none h]
    rfl

theorem bucket_collapse (k : LinkKey) :
    let plain := (buckets upper m keyOf sameAs none)[k]?
    let folded := (buckets upper m keyOf sameAs (some c))[k]?
    (plain = none ∧ folded = none) ∨ ∃ b b', plain = some b ∧ folded = some b' ∧
      Agg.Alike (fun n n' => 1 ≤ n' ∧ n' ≤ n) b b' := by
  simp only [buckets_get, links_uncollapsed upper m keyOf sameAs c, links_collapsed,
    List.filter_map]
  apply Agg.bucket_alike
  · exact fun n n' ⟨filled, fewer⟩ => ⟨by omega, by omega⟩
  · exact ⟨le_rfl, le_rfl⟩
  · intro some_link
    apply Agg.foldl_withLink_fewer
    · intro z mem
      exact collapsedLinks_single upper m keyOf sameAs c (List.mem_filter.mp mem).1
    · exact ⟨le_rfl, rfl, rfl⟩
    · simp [Agg.Counted, Agg.unopened]
    · exact fun none_link => absurd none_link some_link

theorem crossLinksWith_collapse :
    List.Forall₂ CrossLink.Lowered (crossLinksWith upper m keyOf sameAs none).1
        (crossLinksWith upper m keyOf sameAs (some c)).1 ∧
      (crossLinksWith upper m keyOf sameAs (some c)).2 =
        (crossLinksWith upper m keyOf sameAs none).2 := by
  rw [crossLinksWith_eq, crossLinksWith_eq]
  refine ⟨?_, rfl⟩
  rw [List.forall₂_map_left_iff, List.forall₂_map_right_iff]
  apply OrdMap.forall₂_toList
  intro k
  obtain none_both | ⟨b, b', hb, hb', ⟨filled, fewer⟩, confidence, examples⟩ :=
    bucket_collapse upper m keyOf sameAs c k
  · exact .inl none_both
  · right
    refine ⟨b, b', hb, hb', ?_, filled, fewer⟩
    simp [linkRow, confidence, examples]

end Collapsed

section Steady
variable (upper : Char → List Char) (m : MergedGraph) (keyOf : NodeId → Option String)
  (sameAs collapse : Option Classes)

def MergedGraph.OneDescription : Prop :=
  ∀ g ∈ m.graphs, ∀ h ∈ m.graphs, ∀ id, id ∈ g.nodes.map Node.id → id ∈ h.nodes.map Node.id →
    g.nav.qnameById[id]? = h.nav.qnameById[id]? ∧ g.nav.nameById[id]? = h.nav.nameById[id]?

structure RowsSteady : Prop where
  reorder : ∀ edges : List Edge, edges.Perm m.crossEdges →
    crossLinksWith upper (m.reorder edges) keyOf sameAs collapse =
      crossLinksWith upper m keyOf sameAs collapse
  rename : ∀ (ρ : Renaming) (keyOf' : NodeId → Option String),
    (∀ id, keyOf' (ρ id) = keyOf id) →
      crossLinksWith upper (m.rename ρ) keyOf' (sameAs.map (Classes.rename ρ))
          (collapse.map (Classes.rename ρ)) =
        crossLinksWith upper m keyOf sameAs collapse
  lowered : ∀ c : Classes,
    List.Forall₂ CrossLink.Lowered (crossLinksWith upper m keyOf sameAs none).1
        (crossLinksWith upper m keyOf sameAs (some c)).1 ∧
      (crossLinksWith upper m keyOf sameAs (some c)).2 =
        (crossLinksWith upper m keyOf sameAs none).2

/-- The edge order decides a row exactly when some bucket is not settled. -/
theorem rowsSteady_iff_settled :
    RowsSteady upper m keyOf sameAs collapse ↔ Settled upper m keyOf sameAs collapse := by
  rw [← reorder_iff]
  constructor
  · exact fun steady => steady.reorder
  · intro reorder
    exact ⟨reorder, fun ρ keyOf' keyed => crossLinksWith_rename upper m sameAs collapse ρ keyed,
      crossLinksWith_collapse upper m keyOf sameAs⟩

end Steady

def twoConsumers : MergedGraph where
  graphs :=
    [{ repo := 1
       nodes := [⟨1, .strong, []⟩, ⟨2, .strong, []⟩, ⟨3, .strong, []⟩]
       nav :=
        { nameById := .ofList [(1, "a"), (2, "x"), (3, "y")]
          qnameById :=
            .ofList [(1, "queue_producer:a"), (2, "queue_consumer:x"), (3, "queue_consumer:y")]
          kindById := .ofList [(1, 14), (2, 13), (3, 13)] } }]
  crossEdges := [⟨1, 2, EdgeCategory.queueFlows, .strong, []⟩,
    ⟨1, 3, EdgeCategory.queueFlows, .strong, []⟩]

def producerService (id : NodeId) : Option String := if id = 1 then some "A" else some "B"

/-- The first edge's consumer is the one the row shows. -/
theorem twoConsumers_not_steady : twoConsumers.OneDescription ∧
    ¬RowsSteady (fun c => [c]) twoConsumers producerService none none := by
  constructor
  · intro g hg h hh id _ _
    rw [List.mem_singleton.mp hg, List.mem_singleton.mp hh]
    exact ⟨rfl, rfl⟩
  · intro steady
    have same := steady.reorder [⟨1, 3, EdgeCategory.queueFlows, .strong, []⟩,
      ⟨1, 2, EdgeCategory.queueFlows, .strong, []⟩] (by decide)
    revert same
    decide +kernel

end Glia.Graph
