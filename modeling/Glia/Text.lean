import Mathlib.Data.List.Basic
import Mathlib.Data.String.Basic

/-! The string operations the program takes from its standard library, over the
characters of a string. -/
namespace Glia.Text

def isWhitespace (c : Char) : Bool :=
  let n := c.toNat
  (9 ≤ n && n ≤ 13) || n == 0x20 || n == 0x85 || n == 0xA0 || n == 0x1680 ||
    (0x2000 ≤ n && n ≤ 0x200A) || n == 0x2028 || n == 0x2029 || n == 0x202F ||
    n == 0x205F || n == 0x3000

/-- Unicode general category `Cc`. -/
def isControl (c : Char) : Bool := c.toNat ≤ 0x1F || (0x7F ≤ c.toNat && c.toNat ≤ 0x9F)

def trimChars (s : List Char) : List Char :=
  ((s.dropWhile isWhitespace).reverse.dropWhile isWhitespace).reverse

theorem trimChars_bare {s : List Char} (bare : ∀ c ∈ s, isWhitespace c = false) :
    trimChars s = s := by
  have dropped : ∀ t : List Char, (∀ c ∈ t, isWhitespace c = false) →
      t.dropWhile isWhitespace = t := by
    rintro (_ | ⟨c, t⟩) bare
    · rfl
    · exact List.dropWhile_cons_of_neg (by simp [bare c List.mem_cons_self])
  rw [trimChars, dropped s bare,
    dropped _ fun c mem => bare c (List.mem_reverse.mp mem), List.reverse_reverse]

def trim (s : String) : String := String.ofList (trimChars s.toList)

def stripPrefix (lead s : String) : Option String :=
  if lead.toList.isPrefixOf s.toList then some (String.ofList (s.toList.drop lead.toList.length))
  else none

def cutFirst (sep : List Char) : List Char → Option (List Char × List Char)
  | [] => if sep.isEmpty then some ([], []) else none
  | c :: s =>
    if sep.isPrefixOf (c :: s) then some ([], (c :: s).drop sep.length)
    else (cutFirst sep s).map fun p => (c :: p.1, p.2)

def cutLast (sep : List Char) (s : List Char) : Option (List Char × List Char) :=
  (cutFirst sep.reverse s.reverse).map fun p => (p.2.reverse, p.1.reverse)

def splitOnce (sep s : String) : Option (String × String) :=
  (cutFirst sep.toList s.toList).map fun p => (String.ofList p.1, String.ofList p.2)

def rsplitOnce (sep s : String) : Option (String × String) :=
  (cutLast sep.toList s.toList).map fun p => (String.ofList p.1, String.ofList p.2)

def contains (s part : String) : Bool := (cutFirst part.toList s.toList).isSome

/-- The Unicode upper-case table, one character at a time. -/
def toUppercase (upper : Char → List Char) (s : String) : String :=
  String.ofList (s.toList.flatMap upper)

section Numbers
variable {m n : Nat} {c : Char}

theorem toString_digits (n : Nat) : (toString n).toList = Nat.toDigits 10 n := by
  simp

theorem isDigit_toString (mem : c ∈ (toString n).toList) : c.isDigit = true := by
  rw [toString_digits] at mem
  exact Nat.isDigit_of_mem_toDigits (by decide) (by decide) mem

theorem toString_inj (same : (toString m).toList = (toString n).toList) : m = n := by
  rw [toString_digits, toString_digits] at same
  rw [← @Nat.ofDigitChars_ten_toDigits m, same, Nat.ofDigitChars_ten_toDigits]

theorem digit_bare {c : Char} (digit : c.isDigit = true) : isWhitespace c = false := by
  have ⟨low, high⟩ : 48 ≤ c.toNat ∧ c.toNat ≤ 57 := by
    simpa [Char.isDigit, UInt32.le_iff_toNat_le] using digit
  simp [isWhitespace]
  omega

end Numbers

end Glia.Text
