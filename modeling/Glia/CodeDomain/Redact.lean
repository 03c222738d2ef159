import Mathlib.Data.List.Basic

/-! Redaction of secrets in untrusted text. A text is its list of characters: every span taken
starts and ends at an ASCII one. -/
namespace Glia.CodeDomain

def redacted : List Char := ['*', '*', '*']

section Scan

def findAt (pat : List Char) : List Char → Option Nat
  | [] => if pat.isEmpty then some 0 else none
  | c :: text => if pat.isPrefixOf (c :: text) then some 0 else (findAt pat text).map (· + 1)

def rfindChar (c : Char) (text : List Char) : Option Nat :=
  (text.reverse.idxOf? c).map fun i => text.length - 1 - i

def slice (text : List Char) (start stop : Nat) : List Char := (text.drop start).take (stop - start)

/-- The first index at or after `start` whose character fails `pred`. -/
def run (text : List Char) (start : Nat) (pred : Char → Bool) : Nat :=
  min start text.length + ((text.drop start).takeWhile pred).length

def isAsciiWhitespace (c : Char) : Bool :=
  c == ' ' || c == '\t' || c == '\n' || c == '\r' || c == '\x0c'

def isWordByte (c : Char) : Bool := c.isAlphanum || c == '_'

def isKeyByte (c : Char) : Bool := c.isAlphanum || c == '_' || c == '-'

def isBase64Byte (c : Char) : Bool := c.isAlphanum || c == '+' || c == '/' || c == '='

def isCredentialByte (c : Char) : Bool :=
  c.isAlphanum || c == '-' || c == '_' || c == '.' || c == '+' || c == '/' || c == '=' || c == '~'

end Scan

section Names

/-- Key names whose value must never be stored, as substrings. -/
def secretNeedles : List String :=
  ["SECRET", "PASSWORD", "PASSWD", "TOKEN", "APIKEY", "API_KEY", "PRIVATE_KEY", "CREDENTIAL",
    "ACCESS_KEY", "SESSION_KEY", "SALT", "SIGNING"]

def isSecretName (name : List Char) : Bool :=
  secretNeedles.any fun needle => (findAt needle.toList (name.map Char.toUpper)).isSome

/-- Token prefixes that make a value a credential, each with the least length after it. -/
def secretPrefixes : List (String × Nat) :=
  [("sk_live_", 8), ("sk_test_", 8), ("rk_live_", 8), ("rk_test_", 8), ("whsec_", 16),
    ("ghp_", 20), ("gho_", 20), ("ghu_", 20), ("ghs_", 20), ("ghr_", 20), ("github_pat_", 20),
    ("glpat-", 16), ("xoxb-", 10), ("xoxp-", 10), ("xoxa-", 10), ("xoxr-", 10), ("xoxs-", 10),
    ("xapp-", 10), ("sk-", 20), ("AIza", 30), ("npm_", 30), ("pypi-", 30), ("AKIA", 16),
    ("ASIA", 16)]

end Names

section Urls

def maskUserinfo (value : List Char) : Option (List Char) :=
  (findAt "://".toList value).bind fun scheme =>
    let schemeEnd := scheme + 3
    let rest := value.drop schemeEnd
    let authority := rest.takeWhile fun c => !(c == '/' || c == '?' || c == '#')
    (rfindChar '@' authority).bind fun host =>
      if ':' ∈ rest.take host then some (value.take schemeEnd ++ redacted ++ rest.drop host)
      else none

def schemeStart (text : List Char) (copied stop : Nat) : Nat :=
  let word := (slice text copied stop).reverse.takeWhile fun c =>
    c.isAlphanum || c == '+' || c == '.' || c == '-'
  stop - word.length + (word.reverse.takeWhile fun c => !c.isAlpha).length

def isUrlByte (c : Char) : Bool :=
  !isAsciiWhitespace c && !("\"'<>()[]\x7b\x7d`,".toList.contains c)

def redactUrlsFrom (text : List Char) : Nat → Nat → Nat → List Char × Nat
  | 0, copied, _ => (text.drop copied, 0)
  | fuel + 1, copied, from_ =>
    match findAt "://".toList (text.drop from_) with
    | none => (text.drop copied, 0)
    | some k =>
      let start := schemeStart text copied (from_ + k)
      let stop := run text (from_ + k + 3) isUrlByte
      let next := max stop (from_ + k + 3)
      match if start < from_ + k then maskUserinfo (slice text start stop) else none with
      | some masked =>
        let rest := redactUrlsFrom text fuel stop next
        (slice text copied start ++ masked ++ rest.1, rest.2 + 1)
      | none => redactUrlsFrom text fuel copied next

def redactUrlUserinfo (text : List Char) : List Char × Nat :=
  redactUrlsFrom text (text.length + 1) 0 0

end Urls

section Pem

def pemBegin : List Char := "-----BEGIN ".toList

def pemEnd : List Char := "-----END ".toList

def dashes : List Char := "-----".toList

/-- What follows a key's `END` line, nothing when it has none. -/
def afterKey (rest : List Char) (body : Nat) : List Char :=
  match findAt pemEnd (rest.drop body) with
  | none => []
  | some k =>
    let endLabel := body + k + pemEnd.length
    match findAt dashes (rest.drop endLabel) with
    | none => []
    | some k' => rest.drop (endLabel + k' + 5)

def redactPemFrom : Nat → List Char → List Char × Nat
  | 0, rest => (rest, 0)
  | fuel + 1, rest =>
    match findAt pemBegin rest with
    | none => (rest, 0)
    | some place =>
      let labelStart := place + pemBegin.length
      let labelEnd := (findAt dashes (rest.drop labelStart)).map (labelStart + ·)
      match labelEnd.filter fun e => "PRIVATE KEY".toList.isSuffixOf (slice rest labelStart e) with
      | none =>
        let out := redactPemFrom fuel (rest.drop labelStart)
        (rest.take labelStart ++ out.1, out.2)
      | some e =>
        let out := redactPemFrom fuel (afterKey rest (e + 5))
        (rest.take place ++ redacted ++ out.1, out.2 + 1)

def redactPemBlocks (text : List Char) : List Char × Nat := redactPemFrom (text.length + 1) text

end Pem

section Tokens

/-- The end of a secret-shaped token starting at `i`: a known start with a long enough body, or
a JWT. -/
def secretTokenEnd (b : List Char) (i : Nat) : Option Nat :=
  let known := secretPrefixes.findSome? fun (start, least) =>
    let body := i + start.length
    let stop := run b body isKeyByte
    if start.toList.isPrefixOf (b.drop i) && stop - body ≥ least then some stop else none
  known.or <|
    if "eyJ".toList.isPrefixOf (b.drop i) then
      let header := run b i isKeyByte
      let payload := run b (header + 1) isKeyByte
      if header - i < 10 || b[header]? != some '.' then none
      else if payload - (header + 1) < 4 || b[payload]? != some '.' then none
      else some (run b (payload + 1) isKeyByte)
    else none

def authSchemeValue (b : List Char) (i : Nat) : Option (Nat × Nat) :=
  [("bearer", false), ("basic", true)].findSome? fun (scheme, base64) =>
    let wordEnd := i + scheme.length
    if (slice b i wordEnd).map Char.toLower != scheme.toList || b[wordEnd]? != some ' ' then none
    else
      let start := run b wordEnd (· == ' ')
      let stop := run b start (if base64 then isBase64Byte else isCredentialByte)
      let token := slice b start stop
      if token.length ≥ 8 && (!base64 || token.any fun c => !c.isLower) then some (start, stop)
      else none

def isBlank (c : Char) : Bool := c == ' ' || c == '\t'

def isBareByte (c : Char) : Bool :=
  !isAsciiWhitespace c && !(",;&)\x7d]<>\"'`".toList.contains c)

def afterOperator (b : List Char) (j : Nat) : Option Nat :=
  match b[j]?, b[j + 1]? with
  | some '=', some '>' | some ':', some '=' => some (j + 2)
  | some '=', some '=' | some '=', some '~' | some ':', some ':' => none
  | some '=', _ | some ':', _ => some (j + 1)
  | _, _ => none

/-- The value at `j`: quoted to its quote or the line's end, else a bare word. -/
def valueSpan (b : List Char) (j : Nat) : Nat × Nat :=
  match b[j]? with
  | some quote =>
    if quote == '"' || quote == '\'' || quote == '`' then
      (j + 1, run b (j + 1) fun c => c != quote && c != '\n')
    else (j, run b j isBareByte)
  | none => (j, run b j isBareByte)

def secretAssignmentValue (b : List Char) (i : Nat) : Option (Nat × Nat) :=
  if !(b[i]?.any fun c => c.isAlpha || c == '_') then none
  else
    let keyEnd := run b i isKeyByte
    let key := (slice b i keyEnd).map fun c => if c = '-' then '_' else c
    if !isSecretName key then none
    else
      let quoted := b[keyEnd]?.any fun c => c == '"' || c == '\''
      let operator := run b (if quoted then keyEnd + 1 else keyEnd) isBlank
      (afterOperator b operator).bind fun j =>
        let (start, stop) := valueSpan b (run b j isBlank)
        let value := slice b start stop
        if !value.isEmpty && value != redacted then some (start, stop) else none

def secretAt (b : List Char) (i : Nat) : Option (Nat × Nat) :=
  if (b[i]?.any fun c => c.toNat < 128) &&
      (i == 0 || !(b[i - 1]?.any isWordByte)) then
    ((secretTokenEnd b i).map fun stop => (i, stop)).or
      ((authSchemeValue b i).or (secretAssignmentValue b i))
  else none

/-- From `i`, with the text up to `copied` already out. -/
def redactTokensFrom (b : List Char) : Nat → Nat → Nat → List Char × Nat
  | 0, copied, _ => (b.drop copied, 0)
  | fuel + 1, copied, i =>
    if i < b.length then
      match secretAt b i with
      | some (start, stop) =>
        let rest := redactTokensFrom b fuel stop stop
        (slice b copied start ++ redacted ++ rest.1, rest.2 + 1)
      | none => redactTokensFrom b fuel copied (i + 1)
    else (b.drop copied, 0)

def redactTokens (b : List Char) : List Char × Nat := redactTokensFrom b (b.length + 1) 0 0

end Tokens

/-- The text with its secrets redacted, and how many were. -/
def redactUntrusted (text : List Char) : List Char × Nat :=
  let pem := redactPemBlocks text
  let urls := redactUrlUserinfo pem.1
  let tokens := redactTokens urls.1
  (tokens.1, pem.2 + urls.2 + tokens.2)

section Chars

def Masks (text out : List Char) : Prop := ∀ c ∈ out, c ∈ text ∨ c = '*'

theorem Masks.of_subset {text out : List Char} (sub : ∀ c ∈ out, c ∈ text) : Masks text out :=
  fun c mem => .inl (sub c mem)

theorem Masks.append {text a b : List Char} (ha : Masks text a) (hb : Masks text b) :
    Masks text (a ++ b) := by
  intro c mem
  obtain mem | mem := List.mem_append.mp mem
  · exact ha c mem
  · exact hb c mem

theorem Masks.trans {text mid out : List Char} (h : Masks text mid) (h' : Masks mid out) :
    Masks text out := by
  intro c mem
  obtain inside | star := h' c mem
  · exact h c inside
  · exact .inr star

theorem masks_redacted (text : List Char) : Masks text redacted := by
  intro c mem
  exact .inr (by simpa [redacted] using mem)

theorem masks_drop (text : List Char) (n : Nat) : Masks text (text.drop n) :=
  .of_subset fun _ mem => List.mem_of_mem_drop mem

theorem masks_take (text : List Char) (n : Nat) : Masks text (text.take n) :=
  .of_subset fun _ mem => List.mem_of_mem_take mem

theorem masks_slice (text : List Char) (start stop : Nat) : Masks text (slice text start stop) :=
  .of_subset fun _ mem => List.mem_of_mem_drop (List.mem_of_mem_take mem)

theorem maskUserinfo_masks {value masked : List Char} (h : maskUserinfo value = some masked) :
    Masks value masked := by
  obtain ⟨scheme, -, h⟩ := Option.bind_eq_some_iff.mp h
  obtain ⟨host, -, h⟩ := Option.bind_eq_some_iff.mp h
  split at h
  · cases h
    exact ((masks_take _ _).append (masks_redacted _)).append
      ((masks_drop value _).trans (masks_drop _ _))
  · cases h

theorem redactUrlsFrom_masks (text : List Char) (fuel copied from_ : Nat) :
    Masks text (redactUrlsFrom text fuel copied from_).1 := by
  induction fuel generalizing copied from_ with
  | zero => exact masks_drop text copied
  | succ fuel ih =>
    rw [redactUrlsFrom]
    split
    · exact masks_drop text copied
    · dsimp only
      split
      · rename_i masked found
        split at found
        · exact ((masks_slice _ _ _).append
            ((masks_slice _ _ _).trans (maskUserinfo_masks found))).append (ih _ _)
        · cases found
      · exact ih _ _

theorem afterKey_masks (rest : List Char) (body : Nat) : Masks rest (afterKey rest body) := by
  have nothing : Masks rest [] := fun c mem => by cases mem
  rw [afterKey]
  split
  · exact nothing
  · dsimp only
    split
    · exact nothing
    · exact masks_drop _ _

theorem redactPemFrom_masks (fuel : Nat) (rest : List Char) :
    Masks rest (redactPemFrom fuel rest).1 := by
  induction fuel generalizing rest with
  | zero => exact .of_subset fun _ mem => mem
  | succ fuel ih =>
    rw [redactPemFrom]
    split
    · exact .of_subset fun _ mem => mem
    · dsimp only
      split
      · exact (masks_take _ _).append ((masks_drop _ _).trans (ih _))
      · exact ((masks_take _ _).append (masks_redacted _)).append
          ((afterKey_masks _ _).trans (ih _))

theorem redactTokensFrom_masks (b : List Char) (fuel copied i : Nat) :
    Masks b (redactTokensFrom b fuel copied i).1 := by
  induction fuel generalizing copied i with
  | zero => exact masks_drop b copied
  | succ fuel ih =>
    rw [redactTokensFrom]
    split
    · split
      · exact ((masks_slice _ _ _).append (masks_redacted _)).append (ih _ _)
      · exact ih _ _
    · exact masks_drop b copied

theorem redactUntrusted_masks (text : List Char) : Masks text (redactUntrusted text).1 :=
  ((redactPemFrom_masks _ text).trans (redactUrlsFrom_masks _ _ _ _)).trans
    (redactTokensFrom_masks _ _ _ _)

theorem redactUntrusted_nil : redactUntrusted [] = ([], 0) := by decide

end Chars

end Glia.CodeDomain
