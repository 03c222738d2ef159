import Glia.Kit.Grouping
import Glia.Kit.Wire
import Glia.Text
import Mathlib.Data.List.Sort
import Mathlib.Data.String.Basic

/-! A verified import of payloads fetched from a shared store into a checkout's parse cache. -/
namespace Glia.Engine.SharedCache

open Glia.Kit (OrdMap)

abbrev Bytes := List UInt8

section Names

def joinColons (cuts : List Char) (s : String) : String :=
  String.ofList (s.toList.flatMap fun c => if c ∈ cuts then [':', ':'] else [c])

def withoutExtension (path : String) : String :=
  let (dir, file) := match Text.rsplitOnce "/" path with
    | some (dir, file) => (dir ++ "/", file)
    | none => ("", path)
  match Text.rsplitOnce "." file with
  | some (stem, _) => if stem = "" then path else dir ++ stem
  | none => path

def pathToQname (path : String) : String := joinColons ['/', '\\'] (withoutExtension path)

def syntheticModuleQname (path : String) : String :=
  let p := String.ofList (path.toList.map fun c => if c = '\\' then '/' else c)
  match Text.rsplitOnce "/" p with
  | some (dir, file) => joinColons ['/'] dir ++ "::" ++ file
  | none => p

/-- Whether a parse whose MODULE is `name` was built under the form the plan did not pick. -/
def cachedUnderOtherForm (name : Option String) (path planned : String) : Bool :=
  let codeForm := pathToQname path
  let other := if planned = codeForm then syntheticModuleQname path else codeForm
  other ≠ planned && name = some other

end Names

section Cache

structure CacheEntry (π : Type) where
  contentHash : UInt64
  lang : String
  parse : π
  deriving DecidableEq

/-- A repo's cached parses by path, and the build context they were cached under. -/
structure ParseCache (π : Type) where
  repoCanonical : String := ""
  goModules : String := ""
  entries : OrdMap String (CacheEntry π) := ∅

variable {π : Type}

namespace ParseCache
variable (c : ParseCache π)

def validateContext (repoCanonical goContext : String) : ParseCache π :=
  if c.repoCanonical ≠ repoCanonical || c.goModules ≠ goContext then
    { repoCanonical, goModules := goContext }
  else c

def entry (path : String) (hash : UInt64) (lang : String) : Option (CacheEntry π) :=
  (c.entries[path]?).filter fun e => e.contentHash = hash && e.lang = lang

def peek (path : String) (hash : UInt64) (lang : String) : Option π :=
  (c.entry path hash lang).map CacheEntry.parse

def putEntry (path : String) (e : CacheEntry π) : ParseCache π :=
  { c with entries := c.entries.insert path e }

def same [DecidableEq π] (c c' : ParseCache π) : Bool :=
  c.repoCanonical = c'.repoCanonical && c.goModules = c'.goModules &&
    c.entries.toList = c'.entries.toList

end ParseCache

end Cache

/-- One language-parser file and its content address, 32 bytes read as a number. -/
structure CacheRow where
  path : String
  lang : String
  moduleQname : String
  key : Nat
  contentHash : UInt64
  deriving DecidableEq

structure Planned where
  row : CacheRow
  source : String
  deriving DecidableEq

inductive LocalParse (π : Type) where
  | parsed (parse : π)
  | failed (error : String)
  | panicked

structure Env (π : Type) where
  stamp : String
  route : String → Option String
  moduleQname : List (String × String) → String → String
  /-- blake3 of a content, and its `derive_key` form under the key context. -/
  digest : Bytes → Bytes
  deriveKey : Bytes → Nat
  /-- The MODULE qname of a parse: what its nav calls its first node. -/
  moduleName : π → Option String
  decode : Bytes → Except String (CacheEntry π)
  encode : CacheEntry π → Except String Bytes
  parseForCache : Planned → LocalParse π

/-- A checkout: its walked files, each path once, and the context every key reads. -/
structure Checkout where
  files : List (String × String)
  distinct : (files.map Prod.fst).Nodup
  repoKey : String
  goCtx : String
  repoLabel : String

def utf8 (s : String) : Bytes := s.toUTF8.data.toList

def contentHash (source : String) : UInt64 := Kit.XxHash.xxh64 0 (utf8 source)

def framed (field : Bytes) : Bytes := Kit.Wire.le 8 field.length ++ field

section Rows
variable {π : Type} (env : Env π)

def fileKey (stamp repoKey lang path moduleQname goCtx : String) (content : Bytes) : Nat :=
  let go := if lang = "go" then goCtx else ""
  env.deriveKey (([stamp, repoKey, lang, path, moduleQname, go].map utf8 ++
    [env.digest content]).flatMap framed)

def planRow (co : Checkout) (file : String × String) : Option Planned :=
  (env.route file.1).map fun lang =>
    let moduleQname := env.moduleQname co.files file.1
    { row :=
        { key := fileKey env env.stamp co.repoKey lang file.1 moduleQname co.goCtx (utf8 file.2)
          contentHash := contentHash file.2
          path := file.1
          lang
          moduleQname }
      source := file.2 }

/-- Every language-parser file keyed, in path order. -/
def planned (co : Checkout) : List Planned :=
  (co.files.filterMap (planRow env co)).insertionSort fun a b => a.row.path ≤ b.row.path

end Rows

def Checkout.cache {π : Type} (co : Checkout) (sidecar : ParseCache π) : ParseCache π :=
  sidecar.validateContext co.repoKey co.goCtx

section Import
variable {π : Type} (env : Env π)

def isWanted (cache : ParseCache π) (row : CacheRow) : Bool :=
  (cache.peek row.path row.contentHash row.lang).all fun parse =>
    cachedUnderOtherForm (env.moduleName parse) row.path row.moduleQname

structure Wanted where
  stamp : String
  repoLabel : String
  rows : List CacheRow
  localHits : Nat

def wanted (co : Checkout) (sidecar : ParseCache π) : Wanted :=
  let plan := planned env co
  let rows := (plan.map Planned.row).filter (isWanted env (co.cache sidecar))
  { stamp := env.stamp, repoLabel := co.repoLabel, rows, localHits := plan.length - rows.length }

def check (row : CacheRow) (payload : Bytes) : Except String (CacheEntry π) := do
  let entry ← env.decode payload
  if entry.lang ≠ row.lang then
    .error ("parsed as another language (the checkout parses it as " ++ row.lang ++ ")")
  else if entry.contentHash ≠ row.contentHash then
    .error "parsed from other content than the checked-out file"
  else if cachedUnderOtherForm (env.moduleName entry.parse) row.path row.moduleQname then
    .error ("parsed under the other MODULE form (the checkout names it " ++ row.moduleQname ++ ")")
  else .ok entry

inductive Rejected where
  | key (key : Nat)
  | path (path : String)

/-- The accepted payload of each wanted row so far, and the rejections with their reasons. -/
structure Taking (π : Type) where
  taken : List (Option (Bytes × CacheEntry π))
  rejections : List (Rejected × String) := []

def Taking.note (s : Taking π) (what : Rejected) (why : String) : Taking π :=
  { s with rejections := s.rejections ++ [(what, why)] }

def keyIndex (plan : List Planned) : OrdMap Nat Nat :=
  plan.zipIdx.foldl (fun m e => m.insert e.1.row.key e.2) ∅

def offer (plan : List Planned) (s : Taking π) (o : Nat × Bytes) : Taking π :=
  match (keyIndex plan)[o.1]? with
  | none => s.note (.key o.1) "names no file this checkout wants"
  | some i =>
    match plan[i]? with
    | none => s
    | some p =>
      if (s.taken[i]?.join).isSome then
        s.note (.path p.row.path) "offered again after an accepted payload"
      else
        match check env p.row o.2 with
        | .ok entry => { s with taken := s.taken.set i (some (o.2, entry)) }
        | .error why => s.note (.path p.row.path) why

end Import

/-- How many accepted entries are parsed again. -/
inductive Verify where
  | count (k : Nat)
  | all

section Sample

def nextU64 (state : UInt64) : UInt64 × UInt64 :=
  let state := state + 0x9E3779B97F4A7C15
  let z := (state ^^^ (state >>> 30)) * 0xBF58476D1CE4E5B9
  let z := (z ^^^ (z >>> 27)) * 0x94D049BB133111EB
  (state, z ^^^ (z >>> 31))

/-- The next state and a number below `n`; the product of the two words fits 128 bits. -/
def below (n : Nat) (state : UInt64) : UInt64 × Nat :=
  let (state, x) := nextU64 state
  (state, x.toNat * n / 2 ^ 64)

/-- Two items exchanged; none past the end. -/
def swap (l : List Nat) (i j : Nat) : Option (List Nat) := do
  let a ← l[i]?
  let b ← l[j]?
  pure ((l.set i b).set j a)

def shuffle : Nat → Nat → List Nat → UInt64 → Option (List Nat)
  | 0, _, l, _ => some l
  | rounds + 1, i, l, state => do
    let (state, offset) := below (l.length - i) state
    shuffle rounds (i + 1) (← swap l i (i + offset)) state

def sampleIndices (n k : Nat) (state : UInt64) : Option (List Nat) :=
  (shuffle (min k n) 0 (List.range n) state).map fun l =>
    (l.take (min k n)).insertionSort (· ≤ ·)

end Sample

section Import
variable {π : Type} (env : Env π)

def verifyOne (p : Planned) (offered : Bytes) : Except String Unit :=
  let path := p.row.path
  match env.parseForCache p with
  | .failed e => .error ("cache payload for " ++ path ++
      " cannot be checked: the local parse failed (" ++ e ++ "); nothing written")
  | .panicked => .error ("cache payload for " ++ path ++
      " cannot be checked: the local parse panicked; nothing written")
  | .parsed parse =>
    match env.encode { contentHash := p.row.contentHash, lang := p.row.lang, parse } with
    | .error e => .error (path ++ ": " ++ e)
    | .ok mine =>
      if mine ≠ offered then
        .error ("cache payload for " ++ path ++ " differs from a local parse; nothing written")
      else .ok ()

structure ImportSummary where
  offered : Nat
  accepted : Nat
  rejected : Nat
  verified : Nat
  written : Bool

/-- The rows the sidecar cannot serve, with their sources. -/
def wantedPlan (co : Checkout) (sidecar : ParseCache π) : List Planned :=
  (planned env co).filter fun p => isWanted env (co.cache sidecar) p.row

def takeOffers (plan : List Planned) (fetched : List (Nat × Bytes)) : Taking π :=
  fetched.foldl (offer env plan) { taken := plan.map fun _ => none }

def acceptedRows (taken : List (Option (Bytes × CacheEntry π))) : List Nat :=
  (List.range taken.length).filter fun i => (taken[i]?.join).isSome

def sampled (plan : List Planned) (taken : List (Option (Bytes × CacheEntry π)))
    (verify : Verify) (state : UInt64) : Option (List (Planned × Bytes)) := do
  let accepted := acceptedRows taken
  let n := match verify with
    | .all => accepted.length
    | .count k => min k accepted.length
  let sample ← (← sampleIndices accepted.length n state).mapM (accepted[·]?)
  sample.mapM fun i => do
    pure (← plan[i]?, ((taken[i]?.join).map Prod.fst).getD [])

def putAll (plan : List Planned) (taken : List (Option (Bytes × CacheEntry π)))
    (cache : ParseCache π) : ParseCache π :=
  (plan.zip taken).foldl (fun cache e => match e.2 with
    | some (_, entry) => cache.putEntry e.1.row.path entry
    | none => cache) cache

def importEntries [DecidableEq π] (co : Checkout) (sidecar : ParseCache π)
    (fetched : List (Nat × Bytes)) (verify : Verify) (state : UInt64) :
    Option (Except String ImportSummary × ParseCache π) := do
  let plan := wantedPlan env co sidecar
  let taken := (takeOffers env plan fetched).taken
  let sample ← sampled plan taken verify state
  let accepted := (acceptedRows taken).length
  match sample.mapM fun s => verifyOne env s.1 s.2 with
  | .error why => pure (.error why, sidecar)
  | .ok _ =>
    let after := if 0 < accepted then putAll plan taken (co.cache sidecar) else sidecar
    let summary : ImportSummary :=
      { offered := fetched.length
        accepted
        rejected := fetched.length - accepted
        verified := sample.length
        written := decide (0 < accepted) && !after.same sidecar }
    pure (.ok summary, after)

end Import

end Glia.Engine.SharedCache
