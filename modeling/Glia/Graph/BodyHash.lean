import Glia.Graph.NodeRead

/-! The hash of a code body: one loop over its bytes, and the words joined one by one. -/
namespace Glia.Graph.Body

/-- Nothing for a short body, else the hash with 0 kept free. -/
def finishBodyHash (state : UInt64) (chars : Nat) : UInt64 :=
  if chars < minBodyChars then 0 else if state = 0 then 1 else state

def asBytes (s : List Char) : List UInt8 := s.flatMap String.utf8EncodeChar

/-- A word put after those before it, with one space between. -/
def addWord (s : UInt64 × Nat) (e : List Char × Nat) : UInt64 × Nat :=
  let s := if 0 < e.2 then (fnv1a s.1 [32], s.2 + 1) else s
  (fnv1a s.1 (asBytes e.1), s.2 + e.1.length)

/-- The general path: words split at Unicode whitespace. -/
def bodyHashSplit (code : String) : UInt64 :=
  let s := (words [] code.toList).zipIdx.foldl addWord (fnvOffset, 0)
  finishBodyHash s.1 s.2

structure ByteScan where
  state : UInt64 := fnvOffset
  chars : Nat := 0
  inWord : Bool := false

def isSeparator (b : UInt8) : Bool := b == 32 || (9 ≤ b && b ≤ 13)

/-- A word starts: after another one, with a space. -/
def ByteScan.openWord (s : ByteScan) : ByteScan :=
  if s.inWord then s
  else if 0 < s.chars then ⟨fnv1a s.state [32], s.chars + 1, true⟩
  else { s with inWord := true }

def ByteScan.push (s : ByteScan) (b : UInt8) : ByteScan :=
  { s with state := (s.state ^^^ b.toUInt64) * fnvPrime, chars := s.chars + 1 }

/-- The byte loop; a byte past ASCII hands the whole input to the general path. -/
def scanBytes (code : String) : ByteScan → List UInt8 → UInt64
  | s, [] => finishBodyHash s.state s.chars
  | s, b :: bytes =>
    if 0x80 ≤ b then bodyHashSplit code
    else if isSeparator b then scanBytes code { s with inWord := false } bytes
    else scanBytes code (s.openWord.push b) bytes

def bodyHash (code : String) : UInt64 := scanBytes code {} code.toUTF8.data.toList

section Collapse

/-- The text's words joined by one space. -/
def collapsed (code : String) : List Char := [' '].intercalate (words [] code.toList)

def collapse : Bool → Bool → List Char → List Char
  | _, _, [] => []
  | inWord, started, c :: s =>
    if Text.isWhitespace c then collapse false started s
    else if inWord || !started then c :: collapse true true s
    else ' ' :: c :: collapse true true s

def spaced (ws : List (List Char)) : List Char := ws.flatMap fun w => ' ' :: w

theorem intercalate_eq (ws : List (List Char)) : [' '].intercalate ws = (spaced ws).tail := by
  cases ws with
  | nil => rfl
  | cons w ws =>
    rw [spaced, List.flatMap_cons, List.cons_append, List.tail_cons]
    induction ws generalizing w with
    | nil => simp [List.intercalate]
    | cons v ws ih =>
      rw [List.flatMap_cons, List.cons_append, ← ih v]
      simp [List.intercalate]

theorem spaced_words (s : List Char) :
    spaced (words [] s) = collapse false true s ∧
      ∀ word, word ≠ [] → spaced (words word s) = ' ' :: word.reverse ++ collapse true true s := by
  induction s with
  | nil =>
    refine ⟨by rw [words, if_pos rfl]; rfl, fun word some => ?_⟩
    rw [words, if_neg some]
    simp [spaced, collapse]
  | cons c s ih =>
    obtain ⟨between, inside⟩ := ih
    unfold collapse
    by_cases white : Text.isWhitespace c = true
    · refine ⟨by rw [words, if_pos white, if_pos rfl, if_pos white, between], fun word some => ?_⟩
      rw [words, if_pos white, if_neg some, if_pos white, spaced, List.flatMap_cons]
      exact congrArg (_ ++ ·) between
    · refine ⟨?_, fun word _ => ?_⟩
      · rw [words, if_neg white, if_neg white, inside [c] (List.cons_ne_nil _ _)]
        rfl
      · rw [words, if_neg white, if_neg white, inside (c :: word) (List.cons_ne_nil _ _)]
        simp

theorem collapse_tail (s : List Char) : (collapse false true s).tail = collapse false false s := by
  induction s with
  | nil => rfl
  | cons c s ih =>
    unfold collapse
    by_cases white : Text.isWhitespace c = true
    · rw [if_pos white, if_pos white, ih]
    · rw [if_neg white, if_neg white]
      rfl

theorem collapsed_eq (code : String) : collapsed code = collapse false false code.toList := by
  rw [collapsed, intercalate_eq, (spaced_words _).1, collapse_tail]

end Collapse

section Split

theorem fnv1a_append (s : UInt64) (a b : List UInt8) : fnv1a s (a ++ b) = fnv1a (fnv1a s a) b :=
  List.foldl_append

theorem fnv1a_cons (s : UInt64) (b : UInt8) (bytes : List UInt8) :
    fnv1a s (b :: bytes) = fnv1a (fnv1a s [b]) bytes := rfl

theorem asBytes_append (a b : List Char) : asBytes (a ++ b) = asBytes a ++ asBytes b :=
  List.flatMap_append

theorem asBytes_cons_space (s : List Char) : asBytes (' ' :: s) = 32 :: asBytes s := rfl

theorem foldl_addWord (ws : List (List Char)) (s : UInt64 × Nat) {i : Nat} (later : 0 < i) :
    (ws.zipIdx i).foldl addWord s = (fnv1a s.1 (asBytes (spaced ws)), s.2 + (spaced ws).length) := by
  induction ws generalizing s i with
  | nil => rfl
  | cons w ws ih =>
    rw [List.zipIdx_cons, List.foldl_cons, ih _ (Nat.succ_pos i), addWord, if_pos later]
    dsimp only [spaced]
    rw [List.flatMap_cons, List.cons_append, asBytes_cons_space, asBytes_append,
      fnv1a_cons s.1 32 (_ ++ _), fnv1a_append, List.length_cons, List.length_append]
    congr 1
    omega

theorem bodyHashSplit_eq (code : String) : bodyHashSplit code =
    finishBodyHash (fnv1a fnvOffset (asBytes (collapsed code))) (collapsed code).length := by
  rw [bodyHashSplit, collapsed, intercalate_eq]
  cases words [] code.toList with
  | nil => rfl
  | cons w ws =>
    rw [List.zipIdx_cons, List.foldl_cons, foldl_addWord ws _ (Nat.succ_pos 0), addWord,
      if_neg (Nat.lt_irrefl 0)]
    dsimp only [spaced]
    rw [List.flatMap_cons, List.cons_append, List.tail_cons, asBytes_append, fnv1a_append,
      List.length_append, Nat.zero_add]

end Split

section Bytes

theorem utf8_bytes (code : String) : code.toUTF8.data.toList = asBytes code.toList := by
  rw [String.toUTF8, ← String.utf8Encode_toList, List.utf8Encode, List.toList_data_toByteArray]
  rfl

def isAscii (c : Char) : Bool := c.toNat ≤ 0x7F

theorem encode_ascii {c : Char} (ascii : isAscii c = true) :
    String.utf8EncodeChar c = [UInt8.ofNat c.toNat] := by
  rw [isAscii, decide_eq_true_eq] at ascii
  exact if_pos ascii

theorem encode_wide {c : Char} (wide : isAscii c = false) :
    ∃ b rest, String.utf8EncodeChar c = b :: rest ∧ 0x80 ≤ b := by
  rw [isAscii, decide_eq_false_iff_not, Char.toNat] at wide
  have large (n k : Nat) (room : n < k) (top : k + 128 ≤ 256) (high : 128 ≤ 256 - k) :
      (0x80 : UInt8) ≤ UInt8.ofNat (n + (256 - k)) := by
    rw [UInt8.le_iff_toNat_le, UInt8.toNat_ofNat']
    have small : n + (256 - k) < 2 ^ 8 := by omega
    rw [Nat.mod_eq_of_lt small]
    show 128 ≤ _
    omega
  unfold String.utf8EncodeChar
  dsimp only
  rw [if_neg wide]
  split
  · exact ⟨_, _, rfl, large _ 64 ((Nat.mod_lt _ (by decide)).trans (by decide)) (by decide)
      (by decide)⟩
  · split
    · exact ⟨_, _, rfl, large _ 32 ((Nat.mod_lt _ (by decide)).trans (by decide)) (by decide)
        (by decide)⟩
    · exact ⟨_, _, rfl, large _ 16 ((Nat.mod_lt _ (by decide)).trans (by decide)) (by decide)
        (by decide)⟩

theorem asBytes_cons {c : Char} (ascii : isAscii c = true) (s : List Char) :
    asBytes (c :: s) = UInt8.ofNat c.toNat :: asBytes s := by
  rw [asBytes, List.flatMap_cons, encode_ascii ascii]
  rfl

theorem separator_ascii {c : Char} (ascii : isAscii c = true) :
    isSeparator (UInt8.ofNat c.toNat) = Text.isWhitespace c := by
  rw [isAscii, decide_eq_true_eq] at ascii
  unfold Text.isWhitespace
  generalize c.toNat = n at ascii
  revert n
  decide

theorem narrow_ascii {c : Char} (ascii : isAscii c = true) : ¬ (0x80 : UInt8) ≤ UInt8.ofNat c.toNat := by
  rw [isAscii, decide_eq_true_eq] at ascii
  generalize c.toNat = n at ascii
  revert n
  decide

/-- The loop from any point: the general path at a character past ASCII, else what is left of the
collapsed text. -/
theorem scanBytes_eq (code : String) (s : ByteScan) (text : List Char) :
    scanBytes code s (asBytes text) =
      if text.all isAscii then
        finishBodyHash (fnv1a s.state (asBytes (collapse s.inWord (decide (0 < s.chars)) text)))
          (s.chars + (collapse s.inWord (decide (0 < s.chars)) text).length)
      else bodyHashSplit code := by
  induction text generalizing s with
  | nil => rfl
  | cons c text ih =>
    cases ascii : isAscii c with
    | false =>
      obtain ⟨b, rest, eq, wide⟩ := encode_wide ascii
      rw [asBytes, List.flatMap_cons, eq, List.cons_append, scanBytes, if_pos wide, List.all_cons,
        ascii, Bool.false_and, if_neg Bool.false_ne_true]
    | true =>
      rw [asBytes_cons ascii, scanBytes, if_neg (narrow_ascii ascii), separator_ascii ascii,
        List.all_cons, ascii, Bool.true_and, ih, ih, collapse]
      by_cases white : Text.isWhitespace c = true
      · rw [if_pos white, if_pos white]
      · rw [if_neg white, if_neg white, ByteScan.push]
        congr 1
        have later (n : Nat) : decide (0 < n + 1) = true := decide_eq_true (Nat.succ_pos n)
        cases inWord : s.inWord with
        | true =>
          rw [ByteScan.openWord, if_pos inWord, Bool.true_or, if_pos rfl, asBytes_cons ascii,
            fnv1a_cons, later, inWord, List.length_cons, Nat.add_right_comm]
          rfl
        | false =>
          rw [ByteScan.openWord, if_neg (by rw [inWord]; exact Bool.false_ne_true), Bool.false_or]
          by_cases some : 0 < s.chars
          · have state : (fnv1a s.state [32] ^^^ (UInt8.ofNat c.toNat).toUInt64) * fnvPrime =
                fnv1a (fnv1a s.state [32]) [UInt8.ofNat c.toNat] := rfl
            have count (n : Nat) : s.chars + 1 + 1 + n = s.chars + (n + 1 + 1) := by omega
            rw [if_pos some, decide_eq_true some, if_neg (by decide), asBytes_cons_space,
              asBytes_cons ascii, fnv1a_cons s.state 32 (_ :: _),
              fnv1a_cons _ (UInt8.ofNat c.toNat) (asBytes _), later, List.length_cons,
              List.length_cons, state, count]
          · rw [if_neg some, decide_eq_false some, if_pos (by decide), asBytes_cons ascii,
              fnv1a_cons, later, List.length_cons, Nat.add_right_comm]
            rfl

end Bytes

theorem bodyHash_eq_split (code : String) : bodyHash code = bodyHashSplit code := by
  rw [bodyHash, utf8_bytes, scanBytes_eq]
  split
  · rw [bodyHashSplit_eq, collapsed_eq, Nat.zero_add]
    rfl
  · rfl

/-- The byte loop computes the words' hash, which is nothing just when the collapsed text is
short, and depends on the words alone. -/
theorem body_hash_exact (code : String) :
    bodyHash code = bodyHashSplit code ∧
      (bodyHash code = 0 ↔ (collapsed code).length < minBodyChars) ∧
      ∀ other : String, words [] code.toList = words [] other.toList →
        bodyHash code = bodyHash other := by
  refine ⟨bodyHash_eq_split code, ?_, fun other same => ?_⟩
  · rw [bodyHash_eq_split, bodyHashSplit_eq, finishBodyHash]
    split
    · rename_i short
      exact iff_of_true rfl short
    · rename_i long
      apply iff_of_false _ long
      split
      · decide
      · assumption
  · rw [bodyHash_eq_split, bodyHash_eq_split, bodyHashSplit, bodyHashSplit, same]

theorem bodyHash_eq (code : String) : Graph.bodyHash code = bodyHash code := by
  have text : (String.ofList (collapsed code)).toList = collapsed code := String.toList_ofList
  rw [bodyHash_eq_split, bodyHashSplit_eq, Graph.bodyHash]
  dsimp only
  rw [← collapsed, utf8_bytes, text, ← String.length_toList, text]
  rfl

end Glia.Graph.Body
