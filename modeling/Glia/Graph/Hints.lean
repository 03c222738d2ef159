import Glia.Graph.QnameIndex
import Mathlib.Data.List.TakeWhile
import Mathlib.Tactic.IntervalCases
import Mathlib.Tactic.Ring

/-! A node's identity as a hint, and the hint read back. -/
namespace Glia.Graph

section Escape

def replaceChar (c : Char) (image : List Char) (s : List Char) : List Char :=
  s.flatMap fun x => if x = c then image else [x]

def escape (s : List Char) : List Char :=
  replaceChar '|' ['%', '7', 'C'] (replaceChar '%' ['%', '2', '5'] s)

def escapeChar (c : Char) : List Char :=
  if c = '%' then ['%', '2', '5'] else if c = '|' then ['%', '7', 'C'] else [c]

@[simp] theorem replaceChar_nil (c : Char) (image : List Char) : replaceChar c image [] = [] := rfl

@[simp] theorem replaceChar_cons (c : Char) (image : List Char) (x : Char) (s : List Char) :
    replaceChar c image (x :: s) =
      (if x = c then image else [x]) ++ replaceChar c image s := by
  simp [replaceChar]

@[simp] theorem escape_nil : escape [] = [] := rfl

theorem escape_cons (c : Char) (s : List Char) : escape (c :: s) = escapeChar c ++ escape s := by
  unfold escape escapeChar
  by_cases percent : c = '%'
  · simp [percent]
  · by_cases bar : c = '|' <;> simp [percent, bar]

theorem bar_notMem_escape (s : List Char) : '|' ∉ escape s := by
  induction s with
  | nil => simp
  | cons c s ih =>
    rw [escape_cons, List.mem_append, not_or]
    refine ⟨?_, ih⟩
    unfold escapeChar
    split_ifs with percent bar
    · decide
    · decide
    · simpa using Ne.symm bar

theorem unescape_plain {c : Char} (plain : c ≠ '%') (s : List Char) :
    unescape (c :: s) = (c :: ·) <$> unescape s := by
  rw [unescape.eq_def]
  split <;> simp_all

theorem unescape_escape (s : List Char) : unescape (escape s) = some s := by
  induction s with
  | nil => rfl
  | cons c s ih =>
    rw [escape_cons]
    unfold escapeChar
    split_ifs with percent bar
    · simp [unescape, ih, percent]
    · simp [unescape, ih, bar]
    · simp [unescape_plain percent, ih]

def decodeEscape (code : List Char) : Option Char :=
  if code = ['2', '5'] then some '%' else if code = ['7', 'C'] then some '|' else none

/-- The scan itself: copy up to the next `%`, decode the two places after it, go on behind
them. -/
def unescapeScan : Nat → List Char → List Char → Option (List Char)
  | 0, _, _ => none
  | fuel + 1, out, rest =>
    match rest.dropWhile (· ≠ '%') with
    | [] => some (out ++ rest)
    | _ :: after => do
      let c ← decodeEscape (after.take 2)
      unescapeScan fuel (out ++ rest.takeWhile (· ≠ '%') ++ [c]) (after.drop 2)

theorem unescape_copied {plain : List Char} (clean : ∀ c ∈ plain, c ≠ '%') (s : List Char) :
    unescape (plain ++ s) = (plain ++ ·) <$> unescape s := by
  induction plain with
  | nil => simp
  | cons c plain ih =>
    rw [List.cons_append, unescape_plain (clean c List.mem_cons_self),
      ih fun c mem => clean c (List.mem_cons_of_mem _ mem)]
    simp [Function.comp_def]

theorem unescape_percent (s : List Char) :
    unescape ('%' :: s) = (decodeEscape (s.take 2)).bind fun c =>
      (c :: ·) <$> unescape (s.drop 2) := by
  match s with
  | [] => simp [unescape, decodeEscape]
  | [a] => simp [unescape, decodeEscape]
  | a :: b :: s =>
    by_cases percent : a = '2' ∧ b = '5'
    · simp [unescape, decodeEscape, percent.1, percent.2]
    · by_cases bar : a = '7' ∧ b = 'C'
      · simp [unescape, decodeEscape, bar.1, bar.2]
      · have other : decodeEscape [a, b] = none := by simp [decodeEscape, percent, bar]
        have stuck : unescape ('%' :: a :: b :: s) = none := by
          rw [unescape.eq_def]
          split <;> grind
        rw [stuck, List.take_succ_cons, List.take_succ_cons, List.take_zero, other]
        rfl

/-- With as many rounds as characters the scan ends, and it is `unescape`. -/
theorem unescapeScan_eq (fuel : Nat) (out rest : List Char) (enough : rest.length < fuel) :
    unescapeScan fuel out rest = (out ++ ·) <$> unescape rest := by
  induction fuel generalizing out rest with
  | zero => omega
  | succ fuel ih =>
    have clean : ∀ c ∈ rest.takeWhile (· ≠ '%'), c ≠ '%' := fun c mem => by
      simpa using List.mem_takeWhile_imp mem
    have split := List.takeWhile_append_dropWhile (p := (· ≠ '%')) (l := rest)
    have copied := unescape_copied clean (rest.dropWhile (· ≠ '%'))
    rw [split] at copied
    unfold unescapeScan
    cases tail : rest.dropWhile (· ≠ '%') with
    | nil =>
      rw [tail, List.append_nil] at split
      rw [copied, tail, split]
      simp [unescape]
    | cons c after =>
      have percent : c = '%' := by
        have stop := List.head?_dropWhile_not (· ≠ '%') rest
        rw [tail] at stop
        simpa using stop
      have shorter : (after.drop 2).length < fuel := by
        have := congrArg List.length split
        simp only [List.length_append, tail, List.length_cons, List.length_drop] at this ⊢
        omega
      rw [copied, tail, percent, unescape_percent]
      cases code : decodeEscape (after.take 2) with
      | none => simp [code]
      | some d => simp [code, ih _ _ shorter, Function.comp_def]

theorem unescape_eq_scan (s : List Char) : unescape s = unescapeScan (s.length + 1) [] s := by
  rw [unescapeScan_eq _ _ _ (by omega)]
  simp

def BadEscape (s : List Char) : Prop :=
  ∃ before after, s = before ++ '%' :: after ∧ decodeEscape (after.take 2) = none

theorem unescape_bad {s : List Char} (bad : BadEscape s) : unescape s = none := by
  fun_induction unescape s with
  | case1 =>
    have ⟨before, after, spelt, _⟩ := bad
    simp at spelt
  | case2 s ih =>
    have ⟨before, after, spelt, unknown⟩ := bad
    match before with
    | [] =>
      simp only [List.nil_append, List.cons.injEq, true_and] at spelt
      simp [← spelt, decodeEscape] at unknown
    | [_] => simp_all
    | [_, _] => simp_all
    | _ :: _ :: _ :: before =>
      have rest : BadEscape s := ⟨before, after, by simp_all, unknown⟩
      simp [ih rest]
  | case3 s ih =>
    have ⟨before, after, spelt, unknown⟩ := bad
    match before with
    | [] =>
      simp only [List.nil_append, List.cons.injEq, true_and] at spelt
      simp [← spelt, decodeEscape] at unknown
    | [_] => simp_all
    | [_, _] => simp_all
    | _ :: _ :: _ :: before =>
      have rest : BadEscape s := ⟨before, after, by simp_all, unknown⟩
      simp [ih rest]
  | case4 => rfl
  | case5 c s _ _ plain ih =>
    have ⟨before, after, spelt, unknown⟩ := bad
    match before with
    | [] => simp_all
    | _ :: before =>
      have rest : BadEscape s := ⟨before, after, by simp_all, unknown⟩
      simp [ih rest]

end Escape

section Body

def hexDigits : Nat → Nat → List Char
  | 0, _ => []
  | k + 1, n => Nat.digitChar (n / 16 ^ k % 16) :: hexDigits k n

def hex16 (w : UInt64) : List Char := hexDigits 16 w.toNat

def isAsciiHexdigit (c : Char) : Bool :=
  c.isDigit || ('a' ≤ c && c ≤ 'f') || ('A' ≤ c && c ≤ 'F')

@[simp] theorem hexDigits_length (k n : Nat) : (hexDigits k n).length = k := by
  induction k with
  | zero => rfl
  | succ k ih => simp [hexDigits, ih]

def hexStep (n : Nat) (c : Char) : Option Nat :=
  let d := c.toNat
  if 48 ≤ d ∧ d ≤ 57 then some (n * 16 + (d - 48))
  else if 97 ≤ d ∧ d ≤ 102 then some (n * 16 + (d - 87))
  else if 65 ≤ d ∧ d ≤ 70 then some (n * 16 + (d - 55))
  else none

theorem hexValue_eq (l : List Char) : hexValue l = l.foldlM hexStep 0 := rfl

theorem hexStep_digitChar {d : Nat} (small : d < 16) (n : Nat) :
    hexStep n (Nat.digitChar d) = some (n * 16 + d) := by
  interval_cases d <;> rfl

theorem foldlM_hexDigits (k n acc : Nat) :
    (hexDigits k n).foldlM hexStep acc = some (acc * 16 ^ k + n % 16 ^ k) := by
  induction k generalizing acc with
  | zero => simp [hexDigits, Nat.mod_one]
  | succ k ih =>
    have digit : n / 16 ^ k % 16 < 16 := Nat.mod_lt _ (by omega)
    have split : n % 16 ^ (k + 1) = n % 16 ^ k + 16 ^ k * (n / 16 ^ k % 16) := by
      rw [Nat.pow_succ, Nat.mod_mul]
    rw [hexDigits, List.foldlM_cons, hexStep_digitChar digit, Option.bind_eq_bind,
      Option.bind_some, ih, split]
    congr 1
    ring

theorem hexValue_hex16 (w : UInt64) : hexValue (hex16 w) = some w.toNat := by
  rw [hexValue_eq, hex16, foldlM_hexDigits]
  have small := w.toNat_lt
  congr 1
  omega

theorem bar_notMem_hexDigits (k n : Nat) : '|' ∉ hexDigits k n := by
  induction k with
  | zero => simp [hexDigits]
  | succ k ih =>
    simp [hexDigits, ih]

theorem hexStep_hexdigit {n m : Nat} {c : Char} (read : hexStep n c = some m) :
    isAsciiHexdigit c = true := by
  unfold hexStep at read
  simp only [isAsciiHexdigit, Char.isDigit, Bool.or_eq_true, Bool.and_eq_true, decide_eq_true_eq,
    Char.le_def, UInt32.le_iff_toNat_le, ge_iff_le]
  simp only [Char.toNat] at read
  grind

theorem foldlM_hexdigit {l : List Char} {n m : Nat} (read : l.foldlM hexStep n = some m) :
    ∀ c ∈ l, isAsciiHexdigit c = true := by
  induction l generalizing n with
  | nil => simp
  | cons c l ih =>
    rw [List.foldlM_cons, Option.bind_eq_bind, Option.bind_eq_some_iff] at read
    have ⟨next, here, later⟩ := read
    simpa [hexStep_hexdigit here] using ih later

end Body

section Fields

def Identity.hintFields (i : Identity) : List (List Char) :=
  [hintVersion.toList, (toString i.kind).toList, escape i.file.toList, hex16 i.body,
    escape i.localName.toList]

def Identity.hint (i : Identity) : String :=
  String.ofList (['|'].intercalate i.hintFields)

theorem bar_notMem_hintFields (i : Identity) : ∀ f ∈ i.hintFields, '|' ∉ f := by
  have digits : '|' ∉ (toString i.kind).toList := fun mem => by
    simpa using Text.isDigit_toString mem
  simp [Identity.hintFields, hintVersion, bar_notMem_escape, hex16, bar_notMem_hexDigits]
  simpa using digits

theorem splitOn_hint (i : Identity) : i.hint.toList.splitOn '|' = i.hintFields := by
  rw [Identity.hint, String.toList_ofList]
  exact List.splitOn_intercalate '|' (bar_notMem_hintFields i) (by simp [Identity.hintFields])

theorem parseU32_digits {s : List Char} (nonempty : s ≠ []) (digits : s.all Char.isDigit = true) :
    parseU32 s =
      if Nat.ofDigitChars 10 s 0 < 2 ^ 32 then some (Nat.ofDigitChars 10 s 0) else none := by
  cases s with
  | nil => contradiction
  | cons c s =>
    have unsigned : c ≠ '+' := fun sign => by simp [sign] at digits
    simp only [parseU32]
    split
    · simp_all
    · rw [if_pos ⟨nonempty, digits⟩]

theorem parseU32_toString {n : Nat} (small : n < 2 ^ 32) :
    parseU32 (toString n).toList = some n := by
  have digits : (toString n).toList.all Char.isDigit = true :=
    List.all_eq_true.mpr fun c mem => Text.isDigit_toString mem
  have nonempty : (toString n).toList ≠ [] := by
    rw [Text.toString_digits]
    exact Nat.toDigits_ne_nil
  rw [parseU32_digits nonempty digits, Text.toString_digits, Nat.ofDigitChars_ten_toDigits,
    if_pos small]

theorem parseHint_hint {i : Identity} (kind : i.kind < 2 ^ 32) : parseHint i.hint = some i := by
  have whole : ¬(hintVersion.toList ≠ hintVersion.toList ∨ (hex16 i.body).length ≠ 16) := by
    simp [hex16]
  unfold parseHint
  rw [splitOn_hint]
  simp only [Identity.hintFields, if_neg whole, parseU32_toString kind, unescape_escape,
    hexValue_hex16, Option.bind_eq_bind, Option.bind_some, Option.pure_def, String.ofList_toList]
  simp

end Fields

/-- Another version, another count of fields, a body that is not sixteen hex digits, or a name
with an escape nobody writes. -/
inductive Malformed (fields : List (List Char)) : Prop where
  | version (other : fields.head? ≠ some hintVersion.toList)
  | count (other : fields.length ≠ 5)
  | body (b : List Char) (here : fields[3]? = some b)
      (other : b.length ≠ 16 ∨ ∃ c ∈ b, isAsciiHexdigit c = false)
  | file (f : List Char) (here : fields[2]? = some f) (bad : BadEscape f)
  | localName (l : List Char) (here : fields[4]? = some l) (bad : BadEscape l)

theorem parseHint_fields {s : String} {i : Identity} (read : parseHint s = some i) :
    ∃ kind file body name, s.toList.splitOn '|' = [hintVersion.toList, kind, file, body, name] ∧
      body.length = 16 ∧ (∃ n, hexValue body = some n) ∧ (∃ f, unescape file = some f) ∧
      ∃ l, unescape name = some l := by
  unfold parseHint at read
  split at read
  · rename_i version kind file body name fields
    split_ifs at read with shape
    rw [not_or, not_not, not_not] at shape
    simp only [Option.bind_eq_bind, Option.bind_eq_some_iff] at read
    have ⟨_, _, f, fileRead, l, nameRead, n, bodyRead, _⟩ := read
    exact ⟨kind, file, body, name, by rw [fields, shape.1], shape.2, ⟨n, bodyRead⟩,
      ⟨f, fileRead⟩, l, nameRead⟩
  · contradiction

theorem parseHint_malformed {s : String} (bad : Malformed (s.toList.splitOn '|')) :
    parseHint s = none := by
  by_contra some'
  have ⟨i, read⟩ := Option.ne_none_iff_exists'.mp some'
  have ⟨kind, file, body, name, fields, len, ⟨n, hex⟩, ⟨f, fileRead⟩, l, nameRead⟩ :=
    parseHint_fields read
  rw [fields] at bad
  cases bad with
  | version other => simp at other
  | count other => simp at other
  | body b here other =>
    obtain rfl : body = b := by simpa using here
    rcases other with short | ⟨c, mem, not⟩
    · exact short len
    · simp [foldlM_hexdigit hex c mem] at not
  | file f here bad =>
    obtain rfl : file = f := by simpa using here
    simp [unescape_bad bad] at fileRead
  | localName f here bad =>
    obtain rfl : name = f := by simpa using here
    simp [unescape_bad bad] at nameRead

/-- Hints round-trip: a hint reads back as its identity, two identities never share one, and
a string of another shape is none. -/
theorem hint_exact : (∀ i : Identity, i.kind < 2 ^ 32 → parseHint i.hint = some i) ∧
    (∀ i j : Identity, i.kind < 2 ^ 32 → j.kind < 2 ^ 32 → i.hint = j.hint → i = j) ∧
    ∀ s : String, Malformed (s.toList.splitOn '|') → parseHint s = none := by
  refine ⟨fun i => parseHint_hint, fun i j iKind jKind same => ?_, fun s => parseHint_malformed⟩
  have back := parseHint_hint iKind
  rw [same, parseHint_hint jKind] at back
  exact (Option.some.inj back).symm

/-- A file and a name full of look-alikes, a separator on either side of it, and a lowercase
escape. -/
theorem hint_exact_lookalikes :
    parseHint (Identity.mk 3 "a|b%7C" "%25|%" 255).hint = some ⟨3, "a|b%7C", "%25|%", 255⟩ ∧
      (Identity.mk 3 "a|" "b" 0).hint ≠ (Identity.mk 3 "a" "|b" 0).hint ∧
      parseHint "v1|3|%7c|00000000000000ff|x" = none := by
  refine ⟨hint_exact.1 _ (by decide), fun same => ?_,
    hint_exact.2.2 _ (.file _ rfl ⟨[], ['7', 'c'], rfl, rfl⟩)⟩
  have one := hint_exact.2.1 _ _ (by decide) (by decide) same
  exact absurd (congrArg Identity.file one) (by decide)

end Glia.Graph
