import Glia.Algo.Timeline
import Glia.CodeDomain.Redact
import Mathlib.Data.List.TakeWhile

/-! The stored history of a repo's graph over a window of commits, and the rules a stored one
keeps. -/
namespace Glia.Store

open Glia.Algo (maxRev)
open Glia.CodeDomain (redactUntrusted)

/-- The end of a span still valid at the last revision of the window. -/
def timelineOpen : Nat := maxRev

/-- Most characters a stored subject holds. -/
def timelineSubjectCap : Nat := 120

structure TimelineRev where
  sha : String
  time : Int
  subject : String
  deriving DecidableEq

/-- One node's validity span; `file` and `line` are one more than the index or the row, 0 for
none. -/
structure TimelineNode where
  id : NodeId
  kind : Nat
  qname : Nat
  file : Nat
  line : Nat
  fromRev : Nat
  untilRev : Nat
  prior : List (Nat × NodeId)
  deriving DecidableEq

structure TimelineEdge where
  source : NodeId
  target : NodeId
  category : EdgeCategoryId
  fromRev : Nat
  untilRev : Nat
  deriving DecidableEq

structure TimelineStore where
  repo : Nat
  revs : List TimelineRev
  strings : List String
  nodes : List TimelineNode
  edges : List TimelineEdge
  deriving DecidableEq

namespace TimelineNode

def covers (n : TimelineNode) (rev : Nat) : Bool := n.fromRev ≤ rev && rev < n.untilRev

end TimelineNode

namespace TimelineEdge

def covers (e : TimelineEdge) (rev : Nat) : Bool := e.fromRev ≤ rev && rev < e.untilRev

def gone (e : TimelineEdge) : Option Nat :=
  if e.untilRev ≠ timelineOpen then some e.untilRev else none

end TimelineEdge

section Subject

def isLineBreak (c : Char) : Bool := c == '\n' || c == '\r'

/-- Cut from the end until the redaction finds nothing. -/
def trimSecrets : Nat → List Char → List Char
  | 0, out => out
  | fuel + 1, out =>
    if !out.isEmpty && (redactUntrusted out).2 > 0 then trimSecrets fuel out.dropLast else out

def timelineSubject (message : String) : String :=
  let first := message.toList.takeWhile fun c => !isLineBreak c
  let out := (redactUntrusted first).1.take timelineSubjectCap
  String.ofList (trimSecrets out.length out)

end Subject

def isOid (s : String) : Bool :=
  (s.toList.length == 40 || s.toList.length == 64) &&
    s.toList.all fun c => c.isDigit || ('a' ≤ c && c ≤ 'f')

inductive TimelineFault where
  | tooManyRevs (revs : Nat)
  | badSha (rev : Nat) (sha : String)
  | manyLines (rev : Nat)
  | longSubject (rev : Nat)
  | secretSubject (rev : Nat)
  | fromOutside (item from_ revs : Nat)
  | untilOutside (item from_ until_ revs : Nat)
  | qnameOutside (node qname strings : Nat)
  | fileOutside (node file strings : Nat)
  | priorOutside (node rev revs : Nat)
  deriving DecidableEq

section Check

def checkRev (i : Nat) (r : TimelineRev) : Except TimelineFault Unit :=
  if !isOid r.sha then .error (.badSha i r.sha)
  else if r.subject.toList.any isLineBreak then .error (.manyLines i)
  else if r.subject.toList.length > timelineSubjectCap then .error (.longSubject i)
  else if (redactUntrusted r.subject.toList).2 > 0 then .error (.secretSubject i)
  else .ok ()

def checkSpan (revs item from_ until_ : Nat) : Except TimelineFault Unit :=
  if from_ ≥ revs then .error (.fromOutside item from_ revs)
  else if until_ ≠ timelineOpen ∧ (until_ ≤ from_ ∨ until_ ≥ revs) then
    .error (.untilOutside item from_ until_ revs)
  else .ok ()

def checkNode (revs strings i : Nat) (n : TimelineNode) : Except TimelineFault Unit :=
  if n.qname ≥ strings then .error (.qnameOutside i n.qname strings)
  else if n.file > strings then .error (.fileOutside i (n.file - 1) strings)
  else do
    checkSpan revs i n.fromRev n.untilRev
    match n.prior.find? fun p => p.1 ≥ revs with
    | some p => .error (.priorOutside i p.1 revs)
    | none => .ok ()

def checkEdge (revs i : Nat) (e : TimelineEdge) : Except TimelineFault Unit :=
  checkSpan revs i e.fromRev e.untilRev

/-- Check each item with its index, up to the first fault. -/
def checkAll {α : Type} (f : Nat → α → Except TimelineFault Unit) (l : List α) :
    Except TimelineFault Unit :=
  l.zipIdx.forM fun e => f e.2 e.1

def TimelineStore.check (t : TimelineStore) : Except TimelineFault Unit :=
  let revs := t.revs.length
  if revs ≥ timelineOpen then .error (.tooManyRevs revs)
  else do
    checkAll checkRev t.revs
    checkAll (checkNode revs t.strings.length) t.nodes
    checkAll (checkEdge revs) t.edges

end Check

section Rules

theorem forM_ok {α : Type} (f : α → Except TimelineFault Unit) (l : List α) :
    l.forM f = .ok () ↔ ∀ x ∈ l, f x = .ok () := by
  induction l with
  | nil => simp [pure, Except.pure]
  | cons x l ih =>
    show (f x >>= fun _ => l.forM f) = .ok () ↔ _
    cases here : f x with
    | error e => simp [bind, Except.bind, here]
    | ok u => simpa [bind, Except.bind, here] using ih

theorem checkAll_ok {α : Type} (f : Nat → α → Except TimelineFault Unit) (l : List α) :
    checkAll f l = .ok () ↔ ∀ (i : Nat) (x : α), l[i]? = some x → f i x = .ok () := by
  rw [checkAll, forM_ok]
  constructor
  · intro all i x at_
    exact all (x, i) (List.mk_mem_zipIdx_iff_getElem?.mpr at_)
  · rintro all ⟨x, i⟩ mem
    exact all i x (List.mk_mem_zipIdx_iff_getElem?.mp mem)

theorem checkSpan_ok {revs item from_ until_ : Nat} :
    checkSpan revs item from_ until_ = .ok () ↔
      from_ < revs ∧ (until_ = timelineOpen ∨ from_ < until_ ∧ until_ < revs) := by
  rw [checkSpan]
  split
  · rename_i outside
    simp
    omega
  · split
    · rename_i inside bad
      simp only [reduceCtorEq, false_iff]
      omega
    · rename_i inside good
      simp only [true_iff]
      omega

theorem check_ok (t : TimelineStore) : t.check = .ok () ↔ t.revs.length < timelineOpen ∧
    (∀ (i : Nat) (r : TimelineRev), t.revs[i]? = some r → checkRev i r = .ok ()) ∧
    (∀ (i : Nat) (n : TimelineNode), t.nodes[i]? = some n →
      checkNode t.revs.length t.strings.length i n = .ok ()) ∧
    ∀ (i : Nat) (e : TimelineEdge), t.edges[i]? = some e →
      checkEdge t.revs.length i e = .ok () := by
  rw [TimelineStore.check, ← checkAll_ok, ← checkAll_ok, ← checkAll_ok]
  split
  · rename_i many
    simp only [reduceCtorEq, false_iff]
    omega
  · rename_i few
    rw [Nat.not_le] at few
    cases checkAll checkRev t.revs with
    | error e => simp [bind, Except.bind]
    | ok u =>
      cases checkAll (checkNode t.revs.length t.strings.length) t.nodes with
      | error e => simp [bind, Except.bind]
      | ok u' => simpa [bind, Except.bind] using fun _ => few

theorem trimSecrets_clean (fuel : Nat) (out : List Char) (enough : out.length ≤ fuel) :
    (redactUntrusted (trimSecrets fuel out)).2 = 0 := by
  induction fuel generalizing out with
  | zero =>
    rw [trimSecrets, List.eq_nil_of_length_eq_zero (Nat.le_zero.mp enough),
      CodeDomain.redactUntrusted_nil]
  | succ fuel ih =>
    rw [trimSecrets]
    split
    · apply ih
      rw [List.length_dropLast]
      omega
    · rename_i settled
      rw [Bool.and_eq_true, not_and_or] at settled
      obtain empty | clean := settled
      · obtain rfl : out = [] := by simpa using empty
        rw [CodeDomain.redactUntrusted_nil]
      · exact Nat.eq_zero_of_not_pos fun pos => clean (decide_eq_true pos)

theorem trimSecrets_sublist (fuel : Nat) (out : List Char) :
    (trimSecrets fuel out).Sublist out := by
  induction fuel generalizing out with
  | zero => exact .refl out
  | succ fuel ih =>
    rw [trimSecrets]
    split
    · exact (ih _).trans (List.dropLast_sublist out)
    · exact .refl out

theorem timelineSubject_ok (i : Nat) {sha : String} (time : Int) (message : String)
    (oid : isOid sha = true) : checkRev i ⟨sha, time, timelineSubject message⟩ = .ok () := by
  have lines : (timelineSubject message).toList.any isLineBreak = false := by
    rw [timelineSubject, String.toList_ofList, List.any_eq_false]
    intro c mem
    have mem' := List.mem_of_mem_take ((trimSecrets_sublist _ _).mem mem)
    obtain inside | rfl := CodeDomain.redactUntrusted_masks _ c mem'
    · simpa using List.mem_takeWhile_imp inside
    · decide
  have short : (timelineSubject message).toList.length ≤ timelineSubjectCap := by
    rw [timelineSubject, String.toList_ofList]
    exact Nat.le_trans (trimSecrets_sublist _ _).length_le (List.length_take_le _ _)
  have clean : (redactUntrusted (timelineSubject message).toList).2 = 0 := by
    rw [timelineSubject, String.toList_ofList]
    exact trimSecrets_clean _ _ (Nat.le_refl _)
  simp only [checkRev, oid, lines, clean, Nat.not_lt.mpr short, gt_iff_lt, Nat.lt_irrefl,
    Bool.not_true, Bool.false_eq_true, if_false]

end Rules

end Glia.Store
