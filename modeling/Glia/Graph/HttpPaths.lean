import Glia.Graph.HttpRoutes
import Mathlib

/-! The normal form of an HTTP path: which paths have one that a second pass, more blanks, more
slashes and another spelling of a parameter all leave as it is. -/
namespace Glia.Graph.HttpRoutes

open Glia.SameAs (trimSlashes)
open Text (isWhitespace trimChars)

section Blanks

def trimStart (s : List Char) : List Char := s.dropWhile isWhitespace

def trimEnd (s : List Char) : List Char := (s.reverse.dropWhile isWhitespace).reverse

theorem trimChars_eq (s : List Char) : trimChars s = trimEnd (trimStart s) := rfl

def StartsBlank (s : List Char) : Prop := ∃ c ∈ s.head?, isWhitespace c = true

def EndsBlank (s : List Char) : Prop := ∃ c ∈ s.getLast?, isWhitespace c = true

theorem slash_not_blank : isWhitespace '/' = false := by decide

theorem trimStart_of_not {s : List Char} (h : ¬StartsBlank s) : trimStart s = s := by
  cases s with
  | nil => rfl
  | cons c s =>
    refine List.dropWhile_cons_of_neg fun blank => h ⟨c, rfl, blank⟩

theorem trimEnd_of_not {s : List Char} (h : ¬EndsBlank s) : trimEnd s = s := by
  have back : ¬StartsBlank s.reverse := by
    rintro ⟨c, mem, blank⟩
    exact h ⟨c, List.head?_reverse ▸ mem, blank⟩
  exact (congrArg List.reverse (trimStart_of_not back)).trans (List.reverse_reverse s)

theorem trimStart_not_blank (s : List Char) : ¬StartsBlank (trimStart s) := by
  rintro ⟨c, mem, blank⟩
  exact absurd (List.head?_dropWhile_not isWhitespace s) (by rw [show (List.dropWhile isWhitespace s).head? = some c from mem]; simp [blank])

theorem trimEnd_not_blank (s : List Char) : ¬EndsBlank (trimEnd s) := by
  rintro ⟨c, mem, blank⟩
  unfold trimEnd at mem
  rw [List.getLast?_reverse] at mem
  exact trimStart_not_blank s.reverse ⟨c, mem, blank⟩

theorem trimStart_mid {c : Char} (solid : isWhitespace c = false) (a r : List Char) :
    trimStart (a ++ c :: r) = trimStart a ++ c :: r := by
  unfold trimStart
  induction a with
  | nil => exact List.dropWhile_cons_of_neg (by simp [solid])
  | cons c a ih =>
    rw [List.cons_append, List.dropWhile_cons, List.dropWhile_cons]
    split
    · exact ih
    · rfl

theorem trimEnd_mid {c : Char} (solid : isWhitespace c = false) (a r : List Char) :
    trimEnd (a ++ c :: r) = a ++ c :: trimEnd r := by
  have back := trimStart_mid solid r.reverse a.reverse
  unfold trimStart at back
  unfold trimEnd
  rw [List.reverse_append, List.reverse_cons, List.append_assoc, List.singleton_append, back]
  simp

theorem trimChars_slash (a r : List Char) :
    trimChars (a ++ '/' :: r) = trimStart a ++ '/' :: trimEnd r := by
  rw [trimChars_eq, trimStart_mid slash_not_blank, trimEnd_mid slash_not_blank]

theorem trimStart_append {l : List Char} (blank : ∀ c ∈ l, isWhitespace c = true) (s : List Char) :
    trimStart (l ++ s) = trimStart s := List.dropWhile_append_of_pos blank

theorem trimEnd_append {r : List Char} (blank : ∀ c ∈ r, isWhitespace c = true) (s : List Char) :
    trimEnd (s ++ r) = trimEnd s := by
  unfold trimEnd
  rw [List.reverse_append, List.dropWhile_append_of_pos fun c mem => blank c (List.mem_reverse.mp mem)]

theorem trimChars_blanks {l r : List Char} (left : ∀ c ∈ l, isWhitespace c = true)
    (right : ∀ c ∈ r, isWhitespace c = true) (s : List Char) :
    trimChars (l ++ s ++ r) = trimChars s := by
  rw [trimChars_eq, trimChars_eq, List.append_assoc, trimStart_append left]
  by_cases all : ∀ c ∈ s, isWhitespace c = true
  · have gone : trimStart s = [] := List.dropWhile_eq_nil_iff.mpr all
    rw [trimStart_append all, gone]
    rw [show trimStart r = [] from List.dropWhile_eq_nil_iff.mpr right]
  · have stop : trimStart (s ++ r) = trimStart s ++ r := by
      unfold trimStart
      rw [List.dropWhile_append, if_neg]
      intro none
      exact all (List.dropWhile_eq_nil_iff.mp (List.isEmpty_iff.mp none))
    rw [stop, trimEnd_append right]

end Blanks

section Segments

theorem segments_nil : segments [] = [] := rfl

theorem segments_slash (a r : List Char) : segments (a ++ '/' :: r) = segments a ++ segments r := by
  unfold segments
  rw [List.splitOn_append_cons_self, List.filter_append]

theorem segments_slash_cons (r : List Char) : segments ('/' :: r) = segments r :=
  segments_slash [] r

theorem segments_piece {s : List Char} (one : '/' ∉ s) (full : s ≠ []) : segments s = [s] := by
  unfold segments
  rw [List.splitOn_eq_singleton one]
  exact List.filter_cons_of_pos (decide_eq_true full)

theorem pieces_induct {P : List Char → Prop} (piece : ∀ s, '/' ∉ s → P s)
    (slash : ∀ a r, '/' ∉ a → P r → P (a ++ '/' :: r)) (s : List Char) : P s := by
  by_cases cut : '/' ∈ s
  · obtain ⟨a, r, split, apart⟩ := List.eq_append_cons_of_mem cut
    have shorter : r.length < s.length := by simp [split]; omega
    exact split ▸ slash a r apart (pieces_induct piece slash r)
  · exact piece s cut
termination_by s.length

theorem mem_segments {p s : List Char} (mem : s ∈ segments p) : s ≠ [] ∧ '/' ∉ s := by
  induction p using pieces_induct with
  | piece p one =>
    by_cases full : p = []
    · subst full
      cases mem
    · rw [segments_piece one full, List.mem_singleton] at mem
      exact mem ▸ ⟨full, one⟩
  | slash a r apart ih =>
    rw [segments_slash, List.mem_append] at mem
    cases mem with
    | inr later => exact ih later
    | inl first =>
      by_cases full : a = []
      · subst full
        cases first
      · rw [segments_piece apart full, List.mem_singleton] at first
        exact first ▸ ⟨full, apart⟩

theorem segments_intercalate {segs : List (List Char)} (good : ∀ s ∈ segs, s ≠ [] ∧ '/' ∉ s) :
    segments (['/'].intercalate segs) = segs := by
  by_cases some : segs = []
  · subst some
    rfl
  · unfold segments
    rw [List.splitOn_intercalate '/' (fun s mem => (good s mem).2) some]
    exact List.filter_eq_self.mpr fun s mem => decide_eq_true (good s mem).1

theorem joinSegments_toList (segs : List (List Char)) :
    (joinSegments segs).toList = '/' :: ['/'].intercalate segs := String.toList_ofList

theorem segments_join {segs : List (List Char)} (good : ∀ s ∈ segs, s ≠ [] ∧ '/' ∉ s) :
    segments (joinSegments segs).toList = segs := by
  rw [joinSegments_toList, segments_slash_cons, segments_intercalate good]

theorem segments_dropSlashes (s : List Char) : segments (s.dropWhile (· = '/')) = segments s := by
  induction s with
  | nil => rfl
  | cons c s ih =>
    rw [List.dropWhile_cons]
    split
    · next slash =>
      rw [of_decide_eq_true slash, segments_slash_cons]
      exact ih
    · rfl

theorem segments_dropLast {s : List Char} :
    segments ((s.reverse.dropWhile (· = '/')).reverse) = segments s := by
  induction s using List.reverseRecOn with
  | nil => rfl
  | append_singleton s c ih =>
    rw [List.reverse_append, List.reverse_singleton, List.singleton_append, List.dropWhile_cons]
    split
    · next slash =>
      rw [of_decide_eq_true slash, segments_slash s [], segments_nil, List.append_nil]
      exact ih
    · rw [List.reverse_cons, List.reverse_reverse]

theorem segments_trimSlashes (s : List Char) : segments (trimSlashes s) = segments s := by
  unfold trimSlashes
  rw [segments_dropLast, segments_dropSlashes]

end Segments

section Params

def isParam (seg : List Char) : Bool := isClassicParam seg || (foldKind seg).isSome

theorem normaliseSegment_param {s : List Char} (param : isParam s = true) :
    normaliseSegment s = ['\x7b', '\x7d'] := if_pos param

theorem normaliseSegment_plain {s : List Char} (plain : isParam s = false) :
    normaliseSegment s = s := if_neg (by simpa [isParam] using plain)

theorem normaliseSegment_again (s : List Char) :
    normaliseSegment (normaliseSegment s) = normaliseSegment s := by
  by_cases param : isParam s = true
  · rw [normaliseSegment_param param]
    rfl
  · have plain := normaliseSegment_plain (eq_false_of_ne_true param)
    rw [plain, plain]

theorem normaliseSegment_good {s : List Char} (good : s ≠ [] ∧ '/' ∉ s) :
    normaliseSegment s ≠ [] ∧ '/' ∉ normaliseSegment s := by
  unfold normaliseSegment
  split
  · decide
  · exact good

theorem param_full {s : List Char} (param : isParam s = true) : s ≠ [] := by
  intro empty
  subst empty
  cases param

theorem interpolates_iff (s : List Char) :
    (Text.cutFirst ['$', '\x7b'] s).isSome = true ↔ ∃ a b, s = a ++ '$' :: '\x7b' :: b := by
  induction s with
  | nil => simp [Text.cutFirst]
  | cons c s ih =>
    unfold Text.cutFirst
    split
    · next here =>
      obtain ⟨b, split⟩ := List.isPrefixOf_iff_prefix.mp here
      exact iff_of_true rfl ⟨[], b, split.symm⟩
    · next elsewhere =>
      rw [Option.isSome_map, ih]
      constructor
      · rintro ⟨a, b, split⟩
        exact ⟨c :: a, b, congrArg (c :: ·) split⟩
      · rintro ⟨a, b, split⟩
        cases a with
        | nil => exact absurd (List.isPrefixOf_iff_prefix.mpr ⟨b, split.symm⟩) elsewhere
        | cons d a => exact ⟨a, b, (List.cons.inj split).2⟩

theorem param_of_interpolates {a b : List Char} : isParam (a ++ '$' :: '\x7b' :: b) = true := by
  have found := (interpolates_iff _).mpr ⟨a, b, rfl⟩
  simp [isParam, isClassicParam, found]

theorem param_of_colon (s : List Char) : isParam (':' :: s) = true := by
  simp [isParam, isClassicParam]

theorem identChar_not_blank {c : Char} (ident : isIdentChar c = true) : isWhitespace c = false := by
  have code : c.val.toNat = c.toNat := rfl
  have ranges : (65 ≤ c.toNat ∧ c.toNat ≤ 90) ∨ (97 ≤ c.toNat ∧ c.toNat ≤ 122) ∨
      (48 ≤ c.toNat ∧ c.toNat ≤ 57) ∨ c.toNat = 95 := by
    by_cases underscore : c = '_'
    · exact .inr (.inr (.inr (underscore ▸ rfl)))
    · simp [isIdentChar, Char.isAlphanum, Char.isAlpha, Char.isUpper, Char.isLower, Char.isDigit,
        UInt32.le_iff_toNat_le, code, underscore] at ident
      omega
  simp [isWhitespace]
  omega

theorem startsBlank_cons {c : Char} {s : List Char} :
    StartsBlank (c :: s) ↔ isWhitespace c = true := by simp [StartsBlank]

theorem not_blank_of_suffix {c : Char} {s : List Char} (solid : isWhitespace c = false)
    (last : [c].isSuffixOf s = true) : ¬EndsBlank s := by
  obtain ⟨t, split⟩ := List.isSuffixOf_iff_suffix.mp last
  rintro ⟨d, mem, blank⟩
  rw [← split, List.getLast?_append] at mem
  simp at mem
  rw [← mem, solid] at blank
  cases blank

theorem param_startsBlank {s : List Char} (param : isParam s = true) (starts : StartsBlank s) :
    ∃ a b, s = a ++ '$' :: '\x7b' :: b := by
  rw [← interpolates_iff]
  cases s with
  | nil => cases param
  | cons c t =>
    have blank := startsBlank_cons.mp starts
    have apart (d : Char) (solid : isWhitespace d = false) : d ≠ c := by
      intro same
      rw [← same, solid] at blank
      cases blank
    have colon := apart ':' (by decide)
    have brace := apart '\x7b' (by decide)
    have angle := apart '<' (by decide)
    have bracket := apart '[' (by decide)
    have star := apart '*' (by decide)
    have unfolded : foldKind (c :: t) = none := by
      unfold foldKind
      rw [if_neg (by simp [angle]), if_neg (by simp [bracket])]
      split
      · next same => exact absurd (List.cons.inj same).1.symm star
      · rfl
    simpa [isParam, isClassicParam, unfolded, colon, brace] using param

/-- Only the colon and the interpolation may end with one. -/
theorem param_endsBlank {s : List Char} (param : isParam s = true) (ends : EndsBlank s) :
    (∃ t, s = ':' :: t) ∨ ∃ a b, s = a ++ '$' :: '\x7b' :: b := by
  have apart (c : Char) (solid : isWhitespace c = false) : [c].isSuffixOf s = false :=
    eq_false_of_ne_true fun last => not_blank_of_suffix solid last ends
  have unfolded : foldKind s = none := by
    unfold foldKind
    rw [if_neg (by simp [apart '>' (by decide)]), if_neg (by simp [apart ']' (by decide)])]
    split
    · next c name =>
      refine if_neg fun named => ?_
      rw [Bool.and_eq_true] at named
      obtain ⟨d, mem, blank⟩ := ends
      rw [List.getLast?_cons_cons] at mem
      have ident : isIdentChar d = true := by
        cases List.mem_cons.mp (List.mem_of_getLast? mem) with
        | inr later => exact List.all_eq_true.mp named.2 d later
        | inl first =>
          have head := first ▸ named.1
          simp only [Bool.or_eq_true, decide_eq_true_eq] at head
          simp only [isIdentChar, Char.isAlphanum, Bool.or_eq_true, decide_eq_true_eq]
          exact head.imp_left .inl
      rw [identChar_not_blank ident] at blank
      cases blank
    · rfl
  rw [← interpolates_iff]
  simp only [isParam, isClassicParam, unfolded, apart '\x7d' (by decide), Bool.and_false, Bool.or_false,
    Option.isSome_none, Bool.or_eq_true] at param
  refine param.imp_left fun colon => ?_
  obtain ⟨t, split⟩ := List.isPrefixOf_iff_prefix.mp colon
  exact ⟨t, split.symm⟩

theorem param_trimStart {s : List Char} (param : isParam s = true) :
    isParam (trimStart s) = true := by
  by_cases starts : StartsBlank s
  · obtain ⟨a, b, split⟩ := param_startsBlank param starts
    rw [split, trimStart_mid (by decide)]
    exact param_of_interpolates
  · rwa [trimStart_of_not starts]

theorem param_trimEnd {s : List Char} (param : isParam s = true) : isParam (trimEnd s) = true := by
  by_cases ends : EndsBlank s
  · cases param_endsBlank param ends with
    | inl colon =>
      obtain ⟨t, split⟩ := colon
      rw [split, ← List.nil_append (':' :: t), trimEnd_mid (by decide)]
      exact param_of_colon _
    | inr interpolates =>
      obtain ⟨a, b, split⟩ := interpolates
      have cut : s = (a ++ ['$']) ++ '\x7b' :: b := by simp [split]
      rw [cut, trimEnd_mid (by decide), List.append_assoc]
      exact param_of_interpolates
  · rwa [trimEnd_of_not ends]

theorem param_trimChars {s : List Char} (param : isParam s = true) :
    isParam (trimChars s) = true := param_trimEnd (param_trimStart param)

end Params

section Settled

def normalised (p : List Char) : List (List Char) := (segments (trimChars p)).map normaliseSegment

theorem normaliseHttpPath_eq (p : String) : normaliseHttpPath p = joinSegments (normalised p.toList) := by
  unfold normaliseHttpPath normalised
  rw [segments_trimSlashes]

theorem map_normalise_good {p : List Char} :
    ∀ s ∈ (segments p).map normaliseSegment, s ≠ [] ∧ '/' ∉ s := by
  intro s mem
  obtain ⟨t, listed, same⟩ := List.mem_map.mp mem
  exact same ▸ normaliseSegment_good (mem_segments listed)

theorem map_normalise_again (p : List Char) :
    ((segments p).map normaliseSegment).map normaliseSegment = (segments p).map normaliseSegment := by
  rw [List.map_map]
  exact List.map_congr_left fun s _ => normaliseSegment_again s

theorem segments_normalised (p : String) :
    segments (normaliseHttpPath p).toList = normalised p.toList := by
  rw [normaliseHttpPath_eq]
  exact segments_join map_normalise_good

theorem normaliseHttpPath_inj {p q : String} :
    normaliseHttpPath p = normaliseHttpPath q ↔ normalised p.toList = normalised q.toList := by
  constructor
  · intro same
    rw [← segments_normalised, ← segments_normalised, same]
  · intro same
    rw [normaliseHttpPath_eq, normaliseHttpPath_eq, same]

/-- A blank at either end of the path is not part of a plain segment: in front none, at the end
none that slashes hide. -/
def Settled (p : List Char) : Prop :=
  (StartsBlank p → ∀ s ∈ (segments p).head?, isParam s = true) ∧
    ∀ s ∈ (segments p).getLast?, EndsBlank s → isParam s = true

theorem normaliseSegment_trim {s t : List Char} (kept : isParam s = true → isParam t = true)
    (same : isParam s = false → t = s) : normaliseSegment t = normaliseSegment s := by
  by_cases param : isParam s = true
  · rw [normaliseSegment_param param, normaliseSegment_param (kept param)]
  · rw [same (eq_false_of_ne_true param)]

theorem map_segments_of_param {s t : List Char} (one : '/' ∉ s) (apart : '/' ∉ t)
    (kept : isParam s = true → isParam t = true) (same : isParam s = false → t = s) :
    (segments t).map normaliseSegment = (segments s).map normaliseSegment := by
  by_cases param : isParam s = true
  · rw [segments_piece one (param_full param), segments_piece apart (param_full (kept param))]
    exact congrArg (fun u => [u]) (normaliseSegment_trim kept same)
  · rw [same (eq_false_of_ne_true param)]

theorem not_mem_trimStart {s : List Char} (one : '/' ∉ s) : '/' ∉ trimStart s :=
  fun mem => one ((List.dropWhile_suffix _).subset mem)

theorem not_mem_trimEnd {s : List Char} (one : '/' ∉ s) : '/' ∉ trimEnd s := by
  intro mem
  have back := (List.dropWhile_suffix _).subset (List.mem_reverse.mp mem)
  exact one (List.mem_reverse.mp back)

theorem segments_trimEnd {r : List Char}
    (settled : ∀ s ∈ (segments r).getLast?, EndsBlank s → isParam s = true) :
    (segments (trimEnd r)).map normaliseSegment = (segments r).map normaliseSegment := by
  induction r using pieces_induct with
  | piece s one =>
    refine map_segments_of_param one (not_mem_trimEnd one) param_trimEnd fun plain => ?_
    refine trimEnd_of_not fun ends => ?_
    have full : s ≠ [] := by
      obtain ⟨c, mem, _⟩ := ends
      exact List.ne_nil_of_mem (List.mem_of_getLast? mem)
    rw [segments_piece one full] at settled
    rw [settled s rfl ends] at plain
    cases plain
  | slash a r apart ih =>
    rw [trimEnd_mid slash_not_blank, segments_slash, segments_slash, List.map_append, List.map_append]
    rw [ih fun s last => settled s (by rw [segments_slash, List.getLast?_append, show (segments r).getLast? = some s from last]; rfl)]

theorem segments_trimStart {a : List Char} (one : '/' ∉ a)
    (settled : StartsBlank a → isParam a = true) :
    (segments (trimStart a)).map normaliseSegment = (segments a).map normaliseSegment := by
  refine map_segments_of_param one (not_mem_trimStart one) param_trimStart fun plain => ?_
  refine trimStart_of_not fun starts => ?_
  rw [settled starts] at plain
  cases plain

theorem startsBlank_append {a r : List Char} (full : a ≠ []) : StartsBlank (a ++ r) ↔ StartsBlank a := by
  cases a with
  | nil => exact absurd rfl full
  | cons c a => rfl

/-- In a settled path the blanks around it are in no plain segment. -/
theorem normalised_settled {p : List Char} (settled : Settled p) :
    normalised p = (segments p).map normaliseSegment := by
  unfold normalised
  obtain ⟨first, last⟩ := settled
  by_cases cut : '/' ∈ p
  · obtain ⟨a, r, split, apart⟩ := List.eq_append_cons_of_mem cut
    subst split
    have front : (segments (trimStart a)).map normaliseSegment = (segments a).map normaliseSegment := by
      refine segments_trimStart apart fun starts => ?_
      have full : a ≠ [] := by
        rintro rfl
        obtain ⟨c, mem, _⟩ := starts
        cases mem
      refine first ((startsBlank_append full).mpr starts) a ?_
      rw [segments_slash, segments_piece apart full]
      rfl
    have back : (segments (trimEnd r)).map normaliseSegment = (segments r).map normaliseSegment := by
      refine segments_trimEnd fun s mem => last s ?_
      rw [segments_slash, List.getLast?_append, show (segments r).getLast? = some s from mem]
      rfl
    rw [trimChars_slash, segments_slash, segments_slash, List.map_append, List.map_append, front, back]
  · refine map_segments_of_param cut (not_mem_trimEnd (not_mem_trimStart cut)) param_trimChars
      fun plain => ?_
    by_cases full : p = []
    · subst full
      rfl
    · rw [segments_piece cut full] at first last
      have solid : ¬StartsBlank p := fun starts => by
        rw [first starts p rfl] at plain
        cases plain
      rw [trimChars_eq, trimStart_of_not solid]
      refine trimEnd_of_not fun ends => ?_
      rw [last p rfl ends] at plain
      cases plain

end Settled

section Variants

inductive Widened (p : List Char) : List Char → Prop
  | same : Widened p p
  | before {q : List Char} : Widened p q → Widened p ('/' :: q)
  | after {q : List Char} : Widened p q → Widened p (q ++ ['/'])
  | beside {a r : List Char} : Widened p (a ++ '/' :: r) → Widened p (a ++ '/' :: '/' :: r)

theorem Widened.segments_eq {p q : List Char} (wide : Widened p q) : segments q = segments p := by
  induction wide with
  | same => rfl
  | before _ ih => rw [segments_slash_cons, ih]
  | after _ ih => rw [segments_slash, segments_nil, List.append_nil, ih]
  | beside _ ih => rw [segments_slash, segments_slash_cons, ← segments_slash, ih]

theorem Widened.startsBlank {p q : List Char} (wide : Widened p q) (starts : StartsBlank q) :
    StartsBlank p := by
  have solid : ∀ r, ¬StartsBlank ('/' :: r) := fun r starts => by
    rw [startsBlank_cons] at starts
    cases starts
  induction wide with
  | same => exact starts
  | before => exact absurd starts (solid _)
  | @after q _ ih =>
    cases q with
    | nil => exact absurd starts (solid _)
    | cons c q => exact ih starts
  | @beside a r _ ih =>
    cases a with
    | nil => exact absurd starts (solid _)
    | cons c a => exact ih starts

theorem Settled.widened {p q : List Char} (settled : Settled p) (wide : Widened p q) : Settled q := by
  unfold Settled
  rw [wide.segments_eq]
  exact ⟨fun starts => settled.1 (wide.startsBlank starts), settled.2⟩

/-- What stands before a segment: nothing, or a text up to a slash. -/
def Opens (x : List Char) : Prop := x = [] ∨ ∃ w, x = w ++ ['/']

/-- What stands after a segment: nothing, or a text from a slash on. -/
def Closes (y : List Char) : Prop := y = [] ∨ ∃ w, y = '/' :: w

theorem segments_between {x s y : List Char} (opens : Opens x) (closes : Closes y) (one : '/' ∉ s)
    (full : s ≠ []) : segments (x ++ s ++ y) = segments x ++ s :: segments y := by
  have right : segments (s ++ y) = s :: segments y := by
    cases closes with
    | inl empty =>
      subst empty
      rw [List.append_nil, segments_piece one full, segments_nil]
    | inr slash =>
      obtain ⟨w, rfl⟩ := slash
      rw [segments_slash, segments_piece one full, segments_slash_cons]
      rfl
  rw [List.append_assoc]
  cases opens with
  | inl empty =>
    subst empty
    exact right
  | inr slash =>
    obtain ⟨w, rfl⟩ := slash
    rw [List.append_assoc, List.singleton_append, segments_slash, right, segments_slash w [],
      segments_nil, List.append_nil]

/-- A parameter in the place of another leaves a settled path settled. -/
theorem Settled.swap {x s t y : List Char} (opens : Opens x) (closes : Closes y) (one : '/' ∉ s)
    (apart : '/' ∉ t) (param : isParam s = true) (other : isParam t = true)
    (settled : Settled (x ++ s ++ y)) : Settled (x ++ t ++ y) := by
  unfold Settled at settled ⊢
  rw [segments_between opens closes one (param_full param)] at settled
  rw [segments_between opens closes apart (param_full other)]
  obtain ⟨first, last⟩ := settled
  constructor
  · intro starts u head
    by_cases empty : segments x = []
    · rw [empty] at head
      cases head
      exact other
    · have full : x ≠ [] := by
        rintro rfl
        exact empty rfl
      rw [List.append_assoc, startsBlank_append full] at starts
      refine first ?_ u ?_
      · rw [List.append_assoc, startsBlank_append full]
        exact starts
      · rw [List.head?_append_of_ne_nil _ empty] at head ⊢
        exact head
  · intro u tail ends
    by_cases empty : segments y = []
    · rw [empty, List.getLast?_append] at tail
      cases tail
      exact other
    · refine last u ?_ ends
      rw [List.append_cons, List.getLast?_append_of_ne_nil _ empty] at tail ⊢
      exact tail

end Variants

section Canonical

/-- The normal form of a path is one: it has the shape, and a second pass, blanks around the path,
more slashes and another parameter in the place of one leave it, and plain segments, as they are. -/
structure Canonical (p : String) : Prop where
  again : normaliseHttpPath (normaliseHttpPath p) = normaliseHttpPath p
  shaped : ∃ body, (normaliseHttpPath p).toList = '/' :: body ∧
    (body = [] ∨ ∀ s ∈ body.splitOn '/', s ≠ [])
  bare : Text.trim (normaliseHttpPath p) = normaliseHttpPath p
  blanks : ∀ l r : List Char, (∀ c ∈ l, isWhitespace c = true) → (∀ c ∈ r, isWhitespace c = true) →
    normaliseHttpPath (String.ofList (l ++ p.toList ++ r)) = normaliseHttpPath p
  slashes : ∀ q, Widened p.toList q → normaliseHttpPath (String.ofList q) = normaliseHttpPath p
  params : ∀ x s t y, p.toList = x ++ s ++ y → Opens x → Closes y → '/' ∉ s → '/' ∉ t →
    isParam s = true → isParam t = true →
    normaliseHttpPath (String.ofList (x ++ t ++ y)) = normaliseHttpPath p
  kept : ∀ (i : Nat) (s : List Char), (segments p.toList)[i]? = some s → isParam s = false →
    (segments (normaliseHttpPath p).toList)[i]? = some s

theorem getLast?_intercalate {segs : List (List Char)} (good : ∀ s ∈ segs, s ≠ [] ∧ '/' ∉ s) :
    (['/'].intercalate segs).getLast? = segs.getLast?.bind List.getLast? := by
  induction segs with
  | nil => rfl
  | cons a segs ih =>
    cases segs with
    | nil => simp [List.intercalate]
    | cons b segs =>
      have later := ih fun s mem => good s (List.mem_cons_of_mem a mem)
      have full : ['/'].intercalate (b :: segs) ≠ [] := by
        intro empty
        have piece := segments_intercalate fun s mem => good s (List.mem_cons_of_mem a mem)
        rw [empty] at piece
        cases piece
      rw [List.intercalate_cons_cons, List.getLast?_append_of_ne_nil _ full, later,
        List.getLast?_cons_cons]

theorem endsBlank_join {segs : List (List Char)} (good : ∀ s ∈ segs, s ≠ [] ∧ '/' ∉ s) :
    EndsBlank (joinSegments segs).toList ↔ ∃ s ∈ segs.getLast?, EndsBlank s := by
  cases segs with
  | nil => simp [EndsBlank, joinSegments, slash_not_blank]
  | cons a segs =>
    have full : ['/'].intercalate (a :: segs) ≠ [] := by
      intro empty
      have piece := segments_intercalate good
      rw [empty] at piece
      cases piece
    unfold EndsBlank
    rw [joinSegments_toList, ← List.singleton_append, List.getLast?_append_of_ne_nil _ full,
      getLast?_intercalate good]
    simp only [Option.mem_def, Option.bind_eq_some_iff]
    constructor
    · rintro ⟨c, ⟨s, last, tail⟩, blank⟩
      exact ⟨s, last, c, tail, blank⟩
    · rintro ⟨s, last, c, tail, blank⟩
      exact ⟨c, ⟨s, last, tail⟩, blank⟩

theorem joinSegments_not_startsBlank (segs : List (List Char)) :
    ¬StartsBlank (joinSegments segs).toList := by
  rw [joinSegments_toList, startsBlank_cons, slash_not_blank]
  exact Bool.false_ne_true

theorem joinSegments_shape {segs : List (List Char)} (good : ∀ s ∈ segs, s ≠ [] ∧ '/' ∉ s) :
    ∃ body, (joinSegments segs).toList = '/' :: body ∧
      (body = [] ∨ ∀ s ∈ body.splitOn '/', s ≠ []) := by
  refine ⟨_, joinSegments_toList segs, ?_⟩
  by_cases empty : segs = []
  · subst empty
    exact .inl rfl
  · refine .inr fun s mem => ?_
    rw [List.splitOn_intercalate '/' (fun t listed => (good t listed).2) empty] at mem
    exact (good s mem).1

theorem Settled.last_solid {p s : List Char} (settled : Settled p)
    (last : s ∈ ((segments p).map normaliseSegment).getLast?) : ¬EndsBlank s := by
  rw [List.getLast?_map] at last
  obtain ⟨t, listed, rfl⟩ := Option.map_eq_some_iff.mp last
  intro ends
  by_cases param : isParam t = true
  · rw [normaliseSegment_param param] at ends
    revert ends
    simp [EndsBlank]
    decide
  · rw [normaliseSegment_plain (eq_false_of_ne_true param)] at ends
    exact param (settled.2 t listed ends)

theorem Settled.trimChars_eq {p : String} (settled : Settled p.toList) :
    trimChars (normaliseHttpPath p).toList = (normaliseHttpPath p).toList := by
  rw [normaliseHttpPath_eq, normalised_settled settled, HttpRoutes.trimChars_eq,
    trimStart_of_not (joinSegments_not_startsBlank _)]
  refine trimEnd_of_not fun ends => ?_
  obtain ⟨s, last, blank⟩ := (endsBlank_join map_normalise_good).mp ends
  exact settled.last_solid last blank

theorem canonical_of_settled {p : String} (settled : Settled p.toList) : Canonical p where
  again := by
    rw [normaliseHttpPath_inj]
    unfold normalised
    rw [settled.trimChars_eq, segments_normalised]
    exact map_normalise_again _
  shaped := by
    rw [normaliseHttpPath_eq]
    exact joinSegments_shape map_normalise_good
  bare := by
    unfold Text.trim
    rw [settled.trimChars_eq, String.ofList_toList]
  blanks l r left right := by
    rw [normaliseHttpPath_inj, String.toList_ofList]
    unfold normalised
    rw [trimChars_blanks left right]
  slashes q wide := by
    rw [normaliseHttpPath_inj, String.toList_ofList, normalised_settled (settled.widened wide),
      normalised_settled settled, wide.segments_eq]
  params x s t y split opens closes one apart param other := by
    have same := settled
    rw [split] at same
    rw [normaliseHttpPath_inj, String.toList_ofList, split, normalised_settled same,
      normalised_settled (same.swap opens closes one apart param other),
      segments_between opens closes one (param_full param),
      segments_between opens closes apart (param_full other)]
    simp only [List.map_append, List.map_cons, normaliseSegment_param param,
      normaliseSegment_param other]
  kept i s listed plain := by
    rw [segments_normalised, normalised_settled settled, List.getElem?_map, listed]
    exact congrArg some (normaliseSegment_plain plain)

theorem trimEnd_prefix (s : List Char) : trimEnd s <+: s := by
  have back := List.dropWhile_suffix isWhitespace (l := s.reverse)
  unfold trimEnd
  rw [← List.reverse_suffix, List.reverse_reverse]
  exact back

theorem trimChars_not_startsBlank (s : List Char) : ¬StartsBlank (trimChars s) := by
  rw [trimChars_eq]
  intro starts
  obtain ⟨t, split⟩ := trimEnd_prefix (trimStart s)
  have full : trimEnd (trimStart s) ≠ [] := by
    intro empty
    rw [empty] at starts
    obtain ⟨c, mem, _⟩ := starts
    cases mem
  apply trimStart_not_blank s
  rw [← split, startsBlank_append full]
  exact starts

theorem normaliseSegment_not_startsBlank {s : List Char} (solid : ¬StartsBlank s) :
    ¬StartsBlank (normaliseSegment s) := by
  unfold normaliseSegment
  split
  · rw [startsBlank_cons]
    decide
  · exact solid

theorem segments_trimEnd_length (r : List Char) :
    (segments (trimEnd r)).length ≤ (segments r).length := by
  induction r using pieces_induct with
  | piece s one =>
    by_cases full : trimEnd s = []
    · rw [full]
      exact Nat.zero_le _
    · have all : s ≠ [] := by
        rintro rfl
        exact full rfl
      rw [segments_piece one all, segments_piece (not_mem_trimEnd one) full]
      exact Nat.le_refl 1
  | slash a r _ ih =>
    rw [trimEnd_mid slash_not_blank, segments_slash, segments_slash, List.length_append,
      List.length_append]
    omega

theorem first_param {p : List Char}
    (same : (segments p).map normaliseSegment = normalised p) (starts : StartsBlank p) :
    ∀ s ∈ (segments p).head?, isParam s = true := by
  intro s first
  by_contra plain
  have solid : ∀ t, ¬StartsBlank t → StartsBlank s → normaliseSegment s ≠ normaliseSegment t := by
    intro t bare blank eq
    rw [normaliseSegment_plain (eq_false_of_ne_true plain)] at eq
    exact normaliseSegment_not_startsBlank bare (eq ▸ blank)
  unfold normalised at same
  by_cases cut : '/' ∈ p
  · obtain ⟨a, r, split, apart⟩ := List.eq_append_cons_of_mem cut
    subst split
    have full : a ≠ [] := by
      rintro rfl
      rw [List.nil_append, startsBlank_cons] at starts
      cases starts
    rw [segments_slash, segments_piece apart full] at first
    have head : a = s := Option.some.inj first
    subst head
    rw [trimChars_slash, segments_slash, segments_slash, segments_piece apart full,
      List.map_append] at same
    by_cases gone : trimStart a = []
    · have count := congrArg List.length same
      have less := segments_trimEnd_length r
      rw [gone, segments_nil] at count
      simp at count
      omega
    · rw [segments_piece (not_mem_trimStart apart) gone, List.map_append] at same
      exact solid _ (trimStart_not_blank a) ((startsBlank_append full).mp starts)
        (List.cons.inj same).1
  · have full : p ≠ [] := by
      rintro rfl
      cases first
    rw [segments_piece cut full] at first same
    cases first
    by_cases gone : trimChars p = []
    · rw [gone] at same
      cases same
    · rw [segments_piece (show '/' ∉ trimChars p from not_mem_trimEnd (not_mem_trimStart cut)) gone]
        at same
      exact solid _ (trimChars_not_startsBlank p) starts (List.cons.inj same).1

theorem settled_of_canonical {p : String} (canonical : Canonical p) : Settled p.toList := by
  have same : (segments p.toList).map normaliseSegment = normalised p.toList := by
    have wide : Widened p.toList ('/' :: (p.toList ++ ['/'])) := .before (.after .same)
    have eq := normaliseHttpPath_inj.mp (canonical.slashes _ wide)
    rw [String.toList_ofList] at eq
    rw [← eq]
    unfold normalised
    rw [← List.nil_append ('/' :: _), trimChars_slash, trimEnd_mid slash_not_blank, segments_slash,
      segments_slash]
    exact congrArg (List.map normaliseSegment) (List.append_nil _).symm
  refine ⟨first_param same, fun s last ends => ?_⟩
  by_contra plain
  have bare : ¬EndsBlank (normaliseHttpPath p).toList := by
    have eq := congrArg String.toList canonical.bare
    unfold Text.trim at eq
    rw [String.toList_ofList, trimChars_eq] at eq
    rw [← eq]
    exact trimEnd_not_blank _
  apply bare
  rw [normaliseHttpPath_eq]
  refine (endsBlank_join map_normalise_good).mpr ⟨s, ?_, ends⟩
  change s ∈ (normalised p.toList).getLast?
  rw [← same, List.getLast?_map, show (segments p.toList).getLast? = some s from last]
  exact congrArg some (normaliseSegment_plain (eq_false_of_ne_true plain))

/-- The normal form of a path is canonical exactly where no plain segment has a blank that the
blanks or the slashes around the path could take. -/
theorem canonical_iff (p : String) : Canonical p ↔ Settled p.toList :=
  ⟨settled_of_canonical, canonical_of_settled⟩

/-- The slash goes after the blanks are gone, and leaves one for the next pass. -/
theorem second_pass : ¬Canonical "/a /" := by
  intro canonical
  have again := congrArg String.toList canonical.again
  revert again
  decide +kernel

end Canonical

end Glia.Graph.HttpRoutes
