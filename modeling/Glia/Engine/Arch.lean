import Glia.Kit.Grouping
import Glia.Text
import Mathlib.Data.List.Dedup
import Mathlib.Data.List.MinMax
import Mathlib.Data.List.Sort
import Mathlib.Data.Prod.Lex
import Mathlib.Data.String.Basic

/-! What a service is: the roots its files lie under, and the native shells that fold into the
app around them. -/
namespace Glia.Engine.Arch

open Glia.Kit (OrdMap)

section Code

inductive ServiceKeying where
  | perRepo
  | topLevelDir
  | projectRoots (roots : List String)

/-- Native shells a cross-platform app framework generates inside the app. -/
def platformHostDirs : List String := ["android", "ios", "macos", "linux", "windows"]

/-- Ecosystems whose project owns such shells. -/
def hostOwnerEcosystems : List String := ["dart", "npm"]

/-- Ecosystems a shell's own build manifest uses. -/
def hostShellEcosystems : List String := ["gradle", "cmake", "swift", "maven"]

/-- `path` relative to `dir` when `dir` is a proper ancestor of it; `.` is one of every other
path. -/
def relUnder (path dir : String) : Option String :=
  if dir = "." then if path ≠ "." then some path else none
  else ((Text.stripPrefix dir path).bind (Text.stripPrefix "/")).filter (· ≠ "")

def firstPart (rest : String) : String := String.ofList (rest.toList.takeWhile (· ≠ '/'))

/-- How deep an owner lies; the repo root is the shallowest. -/
def ownerDepth (owner : String) : Nat := if owner = "." then 0 else owner.utf8ByteSize

/-- The deepest owner above `path`, the last of those as deep, with the path below it. -/
def nearestOwner (owners : List String) (path : String) : Option (String × String) :=
  (owners.filterMap fun o => (relUnder path o).map fun rest => (o, rest)).reverse.argmax
    fun p => ownerDepth p.1

section Hosts
variable (roots : List (String × String)) (owners : List String)

def betweenAllHosts (hosts : OrdMap String String) (path owner : String) : Bool :=
  roots.all fun m => m.1 = path || m.1 = owner || (relUnder path m.1).isNone ||
    (relUnder m.1 owner).isNone || hosts.contains m.1

def decideHost (hosts : OrdMap String String) (r : String × String) : OrdMap String String :=
  if r.2 ∉ hostShellEcosystems then hosts
  else
    match nearestOwner owners r.1 with
    | none => hosts
    | some (owner, rest) =>
      if firstPart rest ∉ platformHostDirs then hosts
      else if betweenAllHosts roots hosts r.1 owner then hosts.insert r.1 owner
      else hosts

end Hosts

def sortRoots (roots : List (String × String)) : List (String × String) :=
  roots.insertionSort fun a b => toLex a ≤ toLex b

def ownerPaths (roots : List (String × String)) : List String :=
  (roots.filter fun r => r.2 ∈ hostOwnerEcosystems).map Prod.fst

def platformHostOwners (roots : List (String × String)) : OrdMap String String :=
  let roots := sortRoots roots
  roots.foldl (decideHost roots (ownerPaths roots)) ∅

/-- The PROJECT paths keyed by: neither the repo root nor a shell. -/
def projectRootPaths (hosts : OrdMap String String) (paths : List String) : List String :=
  ((paths.filter fun p => p ≠ "" && p ≠ "." && !hosts.contains p).insertionSort (· ≤ ·)).dedup

/-- The one service of every file under no root. -/
def outsideProjects : String := "(outside projects)"

def prefixed (key : String) (repo : Nat) (labels : OrdMap Nat String) : String :=
  match labels[repo]? with
  | some l => if 2 ≤ labels.size then l ++ "/" ++ key else key
  | none => key

def topLevelDir (file : String) : String :=
  match Text.splitOnce "/" file with
  | some (head, _) => if head ≠ "" then head else "(root)"
  | none => "(root)"

def encloses (file root : String) : Bool :=
  file = root || (root ++ "/").toList.isPrefixOf file.toList

def deepestRoot (roots : List String) (file : String) : Option String :=
  (roots.filter (encloses file)).argmax fun r => (toLex (r.utf8ByteSize, r) : Nat ×ₗ String)

def serviceOf (file : String) (repo : Nat) (keying : ServiceKeying) (labels : OrdMap Nat String) :
    String :=
  match keying with
  | .perRepo => (labels[repo]?).getD ("repo" ++ toString repo)
  | .topLevelDir => prefixed (topLevelDir file) repo labels
  | .projectRoots roots => prefixed ((deepestRoot roots file).getD outsideProjects) repo labels

end Code

section Paths
variable {p d rest : String}

theorem stripPrefix_eq_some {lead s : String} :
    Text.stripPrefix lead s = some rest ↔ s.toList = lead.toList ++ rest.toList := by
  rw [Text.stripPrefix]
  split_ifs with here
  · have ⟨tail, whole⟩ := List.isPrefixOf_iff_prefix.mp here
    rw [← whole, List.drop_left, Option.some.injEq, List.append_cancel_left_eq]
    exact ⟨fun same => by rw [← same, String.toList_ofList],
      fun same => by rw [same, String.ofList_toList]⟩
  · refine iff_of_false (by simp) ?_
    exact fun whole => here (List.isPrefixOf_iff_prefix.mpr ⟨_, whole.symm⟩)

theorem relUnder_dot : relUnder p "." = some rest ↔ p ≠ "." ∧ p = rest := by
  rw [relUnder, if_pos rfl]
  split_ifs with other <;> simp [other]

theorem relUnder_dir (dir : d ≠ ".") :
    relUnder p d = some rest ↔ p.toList = d.toList ++ '/' :: rest.toList ∧ rest ≠ "" := by
  rw [relUnder, if_neg dir, Option.filter_eq_some_iff, Option.bind_eq_some_iff]
  simp only [stripPrefix_eq_some, decide_eq_true_eq]
  refine and_congr_left fun _ => ⟨?_, fun whole => ⟨"/" ++ rest, by simpa using whole, by simp⟩⟩
  rintro ⟨tail, whole, slash⟩
  simpa [slash] using whole

def Under (p d : String) : Prop := (relUnder p d).isSome = true

instance (p d : String) : Decidable (Under p d) := inferInstanceAs (Decidable (_ = _))

theorem under_dot : Under p "." ↔ p ≠ "." := by
  simp [Under, Option.isSome_iff_exists, relUnder_dot]

theorem under_dir (dir : d ≠ ".") :
    Under p d ↔ ∃ rest, rest ≠ [] ∧ p.toList = d.toList ++ '/' :: rest := by
  rw [Under, Option.isSome_iff_exists]
  simp only [relUnder_dir dir]
  exact ⟨fun ⟨rest, whole, some'⟩ => ⟨rest.toList, by simpa using some', whole⟩,
    fun ⟨rest, some', whole⟩ => ⟨String.ofList rest, by simpa using whole, by simpa using some'⟩⟩

theorem not_under_dot (d : String) : ¬Under "." d := by
  by_cases dot : d = "."
  · simp [dot, under_dot]
  · rw [under_dir dot]
    intro ⟨rest, some', whole⟩
    have length := congrArg List.length whole
    have pos := List.length_pos_of_ne_nil some'
    simp at length
    omega

theorem under_length (dir : d ≠ ".") (under : Under p d) : d.toList.length < p.toList.length := by
  have ⟨rest, _, whole⟩ := (under_dir dir).mp under
  rw [whole]
  simp

theorem under_lt (dir : d ≠ ".") (under : Under p d) : d < p := by
  have ⟨rest, _, whole⟩ := (under_dir dir).mp under
  have longer : d.toList ++ [] < d.toList ++ '/' :: rest :=
    List.append_left_lt (List.nil_lt_cons '/' rest)
  rw [String.lt_iff_toList_lt, whole]
  simpa using longer

theorem under_asymm (under : Under p d) : ¬Under d p := by
  intro back
  by_cases dot : d = "."
  · exact not_under_dot p (dot ▸ back)
  · by_cases dot' : p = "."
    · exact not_under_dot d (dot' ▸ under)
    · have := under_length dot under
      have := under_length dot' back
      omega

theorem prefix_of_under (dir : d ≠ ".") (under : Under p d) :
    d.toList ++ ['/'] <+: p.toList := by
  have ⟨rest, _, whole⟩ := (under_dir dir).mp under
  exact ⟨rest, by simp [whole]⟩

theorem bytes_lt {a b : String} (within : a.toList <+: b.toList)
    (longer : a.toList.length < b.toList.length) : a.utf8ByteSize < b.utf8ByteSize := by
  have ⟨rest, whole⟩ := within
  have same : b = a ++ String.ofList rest := by
    rw [← String.ofList_toList (s := b), ← whole]
    simp
  have some' : String.ofList rest ≠ "" := by
    intro none'
    have empty : rest = [] := by simpa using congrArg String.toList none'
    rw [← whole, empty, List.append_nil] at longer
    omega
  have pos := Nat.pos_of_ne_zero (mt String.utf8ByteSize_eq_zero_iff.mp some')
  rw [same, String.utf8ByteSize_append]
  omega

end Paths

def RootPath (p : String) : Prop := p ≠ "" ∧ p.toList.getLast? ≠ some '/'

instance (p : String) : Decidable (RootPath p) := inferInstanceAs (Decidable (_ ∧ _))

theorem slash_between {a b c : List Char} (below : a ++ ['/'] <+: c) (mid : b <+: c)
    (longer : a.length < b.length) (ends : b.getLast? ≠ some '/') :
    ∃ rest, rest ≠ [] ∧ b = a ++ '/' :: rest := by
  have ⟨rest, whole⟩ := List.prefix_of_prefix_length_le below mid (by simp; omega)
  refine ⟨rest, fun none' => ends ?_, by simp [← whole]⟩
  rw [← whole, none', List.append_nil, List.getLast?_concat]

theorem under_between {a b c : String} (dir : a ≠ ".") (below : a.toList ++ ['/'] <+: c.toList)
    (mid : b.toList <+: c.toList) (longer : a.toList.length < b.toList.length)
    (path : RootPath b) : Under b a :=
  (under_dir dir).mpr (slash_between below mid longer path.2)

section Rule
variable (roots : List (String × String))

def IsOwner (p : String) : Prop := ∃ eco ∈ hostOwnerEcosystems, (p, eco) ∈ roots

structure Nearest (R A : String) : Prop where
  owner : IsOwner roots A
  above : Under R A
  nearest : ∀ B, IsOwner roots B → Under R B → B = A ∨ Under A B

/-- The rule: a shell whose first component below its nearest owner is a host directory, every
root strictly between the two itself a host. -/
inductive IsHost : String → Prop
  | host {R A eco rest : String} (root : (R, eco) ∈ roots) (shell : eco ∈ hostShellEcosystems)
      (near : Nearest roots R A) (below : relUnder R A = some rest)
      (dir : firstPart rest ∈ platformHostDirs)
      (between : ∀ m eco', (m, eco') ∈ roots → Under R m → Under m A → IsHost m) : IsHost R

structure HostOf (R A : String) : Prop where
  shell : ∃ eco ∈ hostShellEcosystems, (R, eco) ∈ roots
  near : Nearest roots R A
  dir : ∃ rest, relUnder R A = some rest ∧ firstPart rest ∈ platformHostDirs
  between : ∀ m eco', (m, eco') ∈ roots → Under R m → Under m A → IsHost roots m

end Rule

section Nearest
variable {roots : List (String × String)} {R A B rest : String}

theorem isHost_iff : IsHost roots R ↔ ∃ A, HostOf roots R A := by
  constructor
  · intro (.host root shell near below dir between)
    exact ⟨_, ⟨_, shell, root⟩, near, ⟨_, below, dir⟩, between⟩
  · intro ⟨A, ⟨eco, shell, root⟩, near, ⟨rest, below, dir⟩, between⟩
    exact .host root shell near below dir between

theorem Nearest.unique (a : Nearest roots R A) (b : Nearest roots R B) : A = B := by
  rcases b.nearest A a.owner a.above with same | under
  · exact same
  · rcases a.nearest B b.owner b.above with same | under'
    · exact same.symm
    · exact absurd under (under_asymm under')

theorem mem_ownerPaths : A ∈ ownerPaths roots ↔ IsOwner roots A := by
  simp only [ownerPaths, List.mem_map, List.mem_filter, decide_eq_true_eq, IsOwner]
  constructor
  · rintro ⟨r, ⟨mem, eco⟩, same⟩
    exact ⟨r.2, eco, same ▸ mem⟩
  · rintro ⟨eco, owns, mem⟩
    exact ⟨(A, eco), ⟨mem, owns⟩, rfl⟩

theorem under_of_depth (aPath : RootPath A) (bPath : RootPath B) (a : Under R A) (b : Under R B)
    (depth : ownerDepth B ≤ ownerDepth A) : B = A ∨ Under A B := by
  by_cases dot : B = "."
  · by_cases dot' : A = "."
    · exact .inl (dot.trans dot'.symm)
    · rw [dot]
      exact .inr (under_dot.mpr dot')
  · have pos := Nat.pos_of_ne_zero (mt String.utf8ByteSize_eq_zero_iff.mp bPath.1)
    have dir : A ≠ "." := by
      intro dot'
      rw [ownerDepth, ownerDepth, if_neg dot, if_pos dot'] at depth
      omega
    rw [ownerDepth, ownerDepth, if_neg dot, if_neg dir] at depth
    have aWithin := (List.prefix_append _ _).trans (prefix_of_under dir a)
    have bWithin := (List.prefix_append _ _).trans (prefix_of_under dot b)
    rcases Nat.lt_trichotomy B.toList.length A.toList.length with shorter | same | longer
    · exact .inr (under_between dot (prefix_of_under dot b) aWithin shorter aPath)
    · have eq := (List.prefix_of_prefix_length_le bWithin aWithin same.le).eq_of_length same
      exact .inl (String.toList_injective eq)
    · have := bytes_lt (List.prefix_of_prefix_length_le aWithin bWithin longer.le) longer
      omega

theorem mem_owned {owners : List String} :
    (A, rest) ∈ (owners.filterMap fun o => (relUnder R o).map fun rest => (o, rest)).reverse ↔
      A ∈ owners ∧ relUnder R A = some rest := by
  simp only [List.mem_reverse, List.mem_filterMap, Option.map_eq_some_iff, Prod.mk.injEq]
  constructor
  · intro ⟨o, mem, rest, below, same, same'⟩
    exact same ▸ same' ▸ ⟨mem, below⟩
  · intro ⟨mem, below⟩
    exact ⟨A, mem, rest, below, rfl, rfl⟩

theorem nearestOwner_eq_some (paths : ∀ r ∈ roots, RootPath r.1) :
    nearestOwner (ownerPaths roots) R = some (A, rest) ↔
      Nearest roots R A ∧ relUnder R A = some rest := by
  have found {A rest : String} (h : nearestOwner (ownerPaths roots) R = some (A, rest)) :
      Nearest roots R A ∧ relUnder R A = some rest := by
    have ⟨mem, below⟩ := mem_owned.mp (List.argmax_mem h)
    have ⟨eco, owns, aRoot⟩ := mem_ownerPaths.mp mem
    have above : Under R A := Option.isSome_iff_exists.mpr ⟨rest, below⟩
    refine ⟨⟨mem_ownerPaths.mp mem, above, fun B owner under => ?_⟩, below⟩
    have ⟨eco', _, bRoot⟩ := owner
    have ⟨rest', below'⟩ := Option.isSome_iff_exists.mp under
    have depth := List.le_of_mem_argmax
      (mem_owned.mpr ⟨mem_ownerPaths.mpr owner, below'⟩) h
    exact under_of_depth (paths _ aRoot) (paths _ bRoot) above under depth
  refine ⟨found, fun ⟨near, below⟩ => ?_⟩
  cases here : nearestOwner (ownerPaths roots) R with
  | none =>
    have none' := List.argmax_eq_none.mp here
    have mem := mem_owned.mpr ⟨mem_ownerPaths.mpr near.owner, below⟩
    rw [none'] at mem
    exact absurd mem List.not_mem_nil
  | some p =>
    have ⟨near', below'⟩ := found here
    have same := near'.unique near
    rw [same, below, Option.some.injEq] at below'
    rw [← same, below']

end Nearest

section Fold
variable {l roots : List (String × String)} {hosts : OrdMap String String} {r : String × String}
  {k A m eco : String}

theorem IsHost.congr (same : ∀ r, r ∈ l ↔ r ∈ roots) (h : IsHost l k) : IsHost roots k := by
  induction h with
  | host root shell near below dir between ih =>
    have owners (p : String) : IsOwner l p ↔ IsOwner roots p := by simp only [IsOwner, same]
    exact .host ((same _).mp root) shell
      ⟨(owners _).mp near.owner, near.above, fun B owner => near.nearest B ((owners B).mpr owner)⟩
      below dir fun m eco' mem => ih m eco' ((same _).mpr mem)

theorem HostOf.congr (same : ∀ r, r ∈ l ↔ r ∈ roots) (h : HostOf l k A) : HostOf roots k A := by
  have owners (p : String) : IsOwner l p ↔ IsOwner roots p := by simp only [IsOwner, same]
  have ⟨eco, shell, root⟩ := h.shell
  exact ⟨⟨eco, shell, (same _).mp root⟩,
    ⟨(owners _).mp h.near.owner, h.near.above,
      fun B owner => h.near.nearest B ((owners B).mpr owner)⟩,
    h.dir, fun m eco' mem up down => (h.between m eco' ((same _).mpr mem) up down).congr same⟩

theorem betweenAllHosts_iff : betweenAllHosts l hosts k A = true ↔
    ∀ m eco, (m, eco) ∈ l → Under k m → Under m A → hosts.contains m = true := by
  simp only [betweenAllHosts, List.all_eq_true, Bool.or_eq_true, decide_eq_true_eq,
    Option.isNone_iff_eq_none]
  constructor
  · intro all m eco mem up down
    rcases all (m, eco) mem with (((same | same) | out) | out) | held
    · exact absurd (same ▸ up) fun self => under_asymm self self
    · exact absurd (same ▸ down) fun self => under_asymm self self
    · simp [Under, out] at up
    · simp [Under, out] at down
    · exact held
  · intro all m mem
    by_cases up : Under k m.1
    · by_cases down : Under m.1 A
      · exact .inr (all m.1 m.2 mem up down)
      · exact .inl (.inr (by simpa [Under] using down))
    · exact .inl (.inl (.inr (by simpa [Under] using up)))

theorem eco_unique (once : (l.map Prod.fst).Nodup) (mem : r ∈ l) (mem' : (r.1, eco) ∈ l) :
    eco = r.2 :=
  congrArg Prod.snd (List.inj_on_of_nodup_map once mem' mem rfl)

theorem decideHost_get (paths : ∀ r ∈ l, RootPath r.1) (once : (l.map Prod.fst).Nodup)
    (mem : r ∈ l) (fresh : hosts[r.1]? = none)
    (known : ∀ m eco, (m, eco) ∈ l → Under r.1 m → m ≠ "." →
      (hosts.contains m = true ↔ IsHost l m)) :
    (decideHost l (ownerPaths l) hosts r)[k]? = some A ↔
      hosts[k]? = some A ∨ k = r.1 ∧ HostOf l k A := by
  have refused (no : ∀ A, ¬HostOf l r.1 A) :
      hosts[k]? = some A ↔ hosts[k]? = some A ∨ k = r.1 ∧ HostOf l k A :=
    (or_iff_left fun ⟨here, host⟩ => no A (here ▸ host)).symm
  unfold decideHost
  by_cases shell : r.2 ∈ hostShellEcosystems
  swap
  · rw [if_pos shell]
    refine refused fun A host => ?_
    have ⟨eco, isShell, root⟩ := host.shell
    exact shell (eco_unique once mem root ▸ isShell)
  rw [if_neg (not_not.mpr shell)]
  cases here : nearestOwner (ownerPaths l) r.1 with
  | none =>
    refine refused fun A host => ?_
    have ⟨rest, below, _⟩ := host.dir
    rw [(nearestOwner_eq_some paths).mpr ⟨host.near, below⟩] at here
    contradiction
  | some p =>
    have ⟨near, below⟩ := (nearestOwner_eq_some paths).mp here
    dsimp only
    by_cases dir : firstPart p.2 ∈ platformHostDirs
    swap
    · rw [if_pos dir]
      refine refused fun A host => ?_
      have ⟨rest, below', isDir⟩ := host.dir
      rw [host.near.unique near, below, Option.some.injEq] at below'
      exact dir (below' ▸ isDir)
    rw [if_neg (not_not.mpr dir)]
    split_ifs with between
    · have host : HostOf l r.1 p.1 :=
        ⟨⟨r.2, shell, mem⟩, near, ⟨p.2, below, dir⟩, fun m eco root up down =>
          (known m eco root up fun dot => not_under_dot _ (dot ▸ down)).mp
            (betweenAllHosts_iff.mp between m eco root up down)⟩
      rw [Kit.OrdMap.get_insert]
      split_ifs with same
      · rw [← same, fresh, Option.some.injEq]
        simp only [reduceCtorEq, false_or, true_and]
        exact ⟨fun owner => owner ▸ host, fun host' => near.unique host'.near⟩
      · exact (or_iff_left fun ⟨here, _⟩ => same here.symm).symm
    · refine refused fun A host => between (betweenAllHosts_iff.mpr fun m eco root up down => ?_)
      rw [← host.near.unique near] at down
      exact (known m eco root up fun dot => not_under_dot _ (dot ▸ down)).mpr
        (host.between m eco root up down)

/-- Over roots in path order every ancestor is decided first, so each root is decided by the
rule. -/
theorem foldl_decideHost (paths : ∀ r ∈ l, RootPath r.1) (once : (l.map Prod.fst).Nodup)
    (sorted : l.Pairwise fun a b => toLex a ≤ toLex b) (todo : List (String × String))
    {decided : List (String × String)} (whole : l = decided ++ todo)
    (soFar : ∀ k A, hosts[k]? = some A ↔ k ∈ decided.map Prod.fst ∧ HostOf l k A) (k A : String) :
    (todo.foldl (decideHost l (ownerPaths l)) hosts)[k]? = some A ↔ HostOf l k A := by
  induction todo generalizing decided hosts with
  | nil =>
    rw [List.foldl_nil, soFar]
    refine and_iff_right_of_imp fun host => ?_
    have ⟨eco, _, root⟩ := host.shell
    rw [whole, List.append_nil] at root
    exact List.mem_map_of_mem root
  | cons r todo ih =>
    have mem : r ∈ l := by simp [whole]
    have new : r.1 ∉ decided.map Prod.fst := by
      rw [whole, List.map_append, List.nodup_append] at once
      exact fun old => once.2.2 _ old _ (by simp) rfl
    have fresh : hosts[r.1]? = none :=
      Option.eq_none_iff_forall_not_mem.mpr fun A here => new ((soFar _ _).mp here).1
    have known : ∀ m eco, (m, eco) ∈ l → Under r.1 m → m ≠ "." →
        (hosts.contains m = true ↔ IsHost l m) := by
      intro m eco root up dir
      have before : m ∈ decided.map Prod.fst := by
        have first := under_lt dir up
        have place := root
        rw [whole, List.mem_append, List.mem_cons] at place
        rcases place with old | here | later
        · exact List.mem_map_of_mem old
        · exact absurd first (by simp [← here])
        · rw [whole, List.pairwise_append, List.pairwise_cons] at sorted
          have le := Prod.Lex.monotone_fst _ _ (sorted.2.1.1 _ later)
          exact absurd first (not_lt.mpr le)
      rw [Kit.OrdMap.contains_eq_isSome, Option.isSome_iff_exists, isHost_iff]
      simp only [soFar, before, true_and]
    refine ih (by rw [whole, List.append_assoc]; rfl : l = (decided ++ [r]) ++ todo) fun k A => ?_
    rw [decideHost_get paths once mem fresh known, soFar, List.map_append, List.mem_append,
      List.map_singleton, List.mem_singleton, or_and_right]

end Fold

section Owners
variable {roots other : List (String × String)} {R A file : String}

theorem mem_sortRoots (r : String × String) : r ∈ sortRoots roots ↔ r ∈ roots :=
  (List.perm_insertionSort _ roots).mem_iff

theorem platformHostOwners_get (paths : ∀ r ∈ roots, RootPath r.1)
    (once : (roots.map Prod.fst).Nodup) :
    (platformHostOwners roots)[R]? = some A ↔ HostOf roots R A := by
  have paths' : ∀ r ∈ sortRoots roots, RootPath r.1 := fun r mem => paths r ((mem_sortRoots r).mp mem)
  have once' : ((sortRoots roots).map Prod.fst).Nodup :=
    ((List.perm_insertionSort _ roots).map Prod.fst).nodup_iff.mpr once
  have sorted : (sortRoots roots).Pairwise fun a b => toLex a ≤ toLex b :=
    List.pairwise_insertionSort _ _
  have start (k A : String) : (∅ : OrdMap String String)[k]? = some A ↔
      k ∈ ([] : List (String × String)).map Prod.fst ∧ HostOf (sortRoots roots) k A := by simp
  have all := foldl_decideHost paths' once' sorted (sortRoots roots) (List.nil_append _).symm start
    R A
  exact all.trans ⟨HostOf.congr mem_sortRoots, HostOf.congr fun r => (mem_sortRoots r).symm⟩

theorem platformHostOwners_perm (paths : ∀ r ∈ roots, RootPath r.1)
    (once : (roots.map Prod.fst).Nodup) (same : other.Perm roots) :
    platformHostOwners other = platformHostOwners roots := by
  have paths' : ∀ r ∈ other, RootPath r.1 := fun r mem => paths r (same.mem_iff.mp mem)
  have once' : (other.map Prod.fst).Nodup := (same.map Prod.fst).nodup_iff.mpr once
  apply Kit.OrdMap.ext_get
  intro R
  ext A
  rw [platformHostOwners_get paths' once', platformHostOwners_get paths once]
  exact ⟨HostOf.congr fun _ => same.mem_iff, HostOf.congr fun _ => same.mem_iff.symm⟩

theorem HostOf.not_owner (once : (roots.map Prod.fst).Nodup) (host : HostOf roots R A) :
    ¬IsOwner roots R := by
  have apart : ∀ eco ∈ hostShellEcosystems, eco ∉ hostOwnerEcosystems := by decide
  intro ⟨eco', owns, mem'⟩
  have ⟨eco, shell, mem⟩ := host.shell
  have same : eco' = eco := eco_unique once mem mem'
  exact apart eco shell (same ▸ owns)

theorem encloses_iff : encloses file R = true ↔
    file = R ∨ R.toList ++ ['/'] <+: file.toList := by
  simp [encloses, List.isPrefixOf_iff_prefix]

theorem encloses_within (h : encloses file R = true) : R.toList <+: file.toList := by
  rcases encloses_iff.mp h with same | below
  · exact same ▸ List.prefix_rfl
  · exact (List.prefix_append _ _).trans below

theorem deepestRoot_eq {paths : List String} (mem : A ∈ paths) (here : encloses file A = true)
    (deeper : ∀ m ∈ paths, encloses file m = true → m = A ∨ m.utf8ByteSize < A.utf8ByteSize) :
    deepestRoot paths file = some A := by
  have listed : A ∈ paths.filter (encloses file) := List.mem_filter.mpr ⟨mem, here⟩
  cases best : deepestRoot paths file with
  | none =>
    rw [deepestRoot, List.argmax_eq_none] at best
    exact absurd (best ▸ listed) List.not_mem_nil
  | some m =>
    have ⟨mMem, mHere⟩ := List.mem_filter.mp (List.argmax_mem best)
    have le := List.le_of_mem_argmax listed best
    rcases deeper m mMem mHere with same | shallow
    · rw [same]
    · have := Prod.Lex.monotone_fst _ _ le
      exact absurd shallow (not_lt.mpr this)

theorem mem_projectRootPaths {hosts : OrdMap String String} {paths : List String} {p : String} :
    p ∈ projectRootPaths hosts paths ↔
      p ∈ paths ∧ p ≠ "" ∧ p ≠ "." ∧ hosts.contains p = false := by
  simp only [projectRootPaths, List.mem_dedup, List.mem_insertionSort, List.mem_filter,
    Bool.and_eq_true, decide_eq_true_eq, Bool.not_eq_true', and_assoc]

theorem deepestRoot_owner (paths : ∀ r ∈ roots, RootPath r.1)
    (once : (roots.map Prod.fst).Nodup) (host : HostOf roots R A) (nested : A ≠ ".")
    (deepest : deepestRoot (roots.map Prod.fst) file = some R) :
    deepestRoot (projectRootPaths (platformHostOwners roots) (roots.map Prod.fst)) file =
      some A := by
  have ⟨_, _, aRoot⟩ := host.near.owner
  have ⟨_, _, rRoot⟩ := host.shell
  have ⟨_, rHere⟩ := List.mem_filter.mp (List.argmax_mem deepest)
  have aBelow := prefix_of_under nested host.near.above
  have isHost {m : String} (h : IsHost roots m) :
      (platformHostOwners roots).contains m = true := by
    have ⟨A', host'⟩ := isHost_iff.mp h
    rw [Kit.OrdMap.contains_eq_isSome, (platformHostOwners_get paths once).mpr host']
    rfl
  have aLeft : (platformHostOwners roots).contains A = false := by
    rw [Kit.OrdMap.contains_eq_isSome, Option.isSome_eq_false_iff, Option.isNone_iff_eq_none]
    refine Option.eq_none_iff_forall_not_mem.mpr fun A' held => ?_
    exact ((platformHostOwners_get paths once).mp held).not_owner once host.near.owner
  refine deepestRoot_eq (mem_projectRootPaths.mpr
    ⟨List.mem_map_of_mem aRoot, (paths _ aRoot).1, nested, aLeft⟩)
    (encloses_iff.mpr (.inr (aBelow.trans (encloses_within rHere)))) fun m mem mHere => ?_
  have ⟨listed, _, dir, left⟩ := mem_projectRootPaths.mp mem
  have ⟨⟨m', eco⟩, mRoot, same⟩ := List.mem_map.mp listed
  obtain rfl : m' = m := same
  have rWithin := encloses_within rHere
  have mWithin := encloses_within mHere
  have aWithin := (List.prefix_append _ _).trans (aBelow.trans rWithin)
  by_contra apart
  rw [not_or] at apart
  have aShorter : A.toList.length < m'.toList.length := by
    rcases Nat.lt_trichotomy A.toList.length m'.toList.length with shorter | same | longer
    · exact shorter
    · have eq := (List.prefix_of_prefix_length_le aWithin mWithin same.le).eq_of_length same
      exact absurd (String.toList_injective eq).symm apart.1
    · exact absurd (bytes_lt (List.prefix_of_prefix_length_le mWithin aWithin longer.le) longer)
        apart.2
  have mShorter : m'.toList.length < R.toList.length := by
    have le := Prod.Lex.monotone_fst _ _
      (List.le_of_mem_argmax (List.mem_filter.mpr ⟨listed, mHere⟩) deepest)
    rcases Nat.lt_trichotomy m'.toList.length R.toList.length with shorter | same | longer
    · exact shorter
    · have eq := (List.prefix_of_prefix_length_le mWithin rWithin same.le).eq_of_length same
      have held := isHost (isHost_iff.mpr ⟨A, String.toList_injective eq ▸ host⟩)
      simp [held] at left
    · exact absurd (bytes_lt (List.prefix_of_prefix_length_le rWithin mWithin longer.le) longer)
        (not_lt.mpr le)
  have down : Under m' A :=
    under_between nested (aBelow.trans rWithin) mWithin aShorter (paths _ mRoot)
  have up : Under R m' := by
    rcases encloses_iff.mp mHere with same | below
    · have := rWithin.length_le
      rw [same] at this
      omega
    · exact under_between dir below rWithin mShorter (paths _ rRoot)
  have held := isHost (host.between m' eco mRoot up down)
  simp [held] at left

/-- Platform shells fold into the app that owns them: over distinct root paths, none empty or
ending in a slash, the owners are the rule's, in whatever order the roots come; no host is an
owner; and with the hosts gone, a host's file lands in the owner. -/
theorem hosts_exact (roots : List (String × String)) (paths : ∀ r ∈ roots, RootPath r.1)
    (once : (roots.map Prod.fst).Nodup) :
    (∀ R A, (platformHostOwners roots)[R]? = some A ↔ HostOf roots R A) ∧
    (∀ other : List (String × String), other.Perm roots →
      platformHostOwners other = platformHostOwners roots) ∧
    (∀ R, (platformHostOwners roots).contains R = true → ¬IsOwner roots R) ∧
    ∀ R A file repo labels, (platformHostOwners roots)[R]? = some A → A ≠ "." →
      deepestRoot (roots.map Prod.fst) file = some R →
      serviceOf file repo
        (.projectRoots (projectRootPaths (platformHostOwners roots) (roots.map Prod.fst))) labels =
          prefixed A repo labels := by
  refine ⟨fun R A => platformHostOwners_get paths once,
    fun other same => platformHostOwners_perm paths once same, fun R held => ?_,
    fun R A file repo labels held nested deepest => ?_⟩
  · rw [Kit.OrdMap.contains_eq_isSome, Option.isSome_iff_exists] at held
    have ⟨A, held⟩ := held
    exact ((platformHostOwners_get paths once).mp held).not_owner once
  · have host := (platformHostOwners_get paths once).mp held
    rw [serviceOf, deepestRoot_owner paths once host nested deepest, Option.getD_some]

def nestedShells : List (String × String) :=
  [("mobile/android/app", "gradle"), ("mobile", "dart"), ("mobile/android", "gradle")]

theorem hosts_exact_nested : HostOf nestedShells "mobile/android/app" "mobile" ∧
    serviceOf "mobile/android/app/Main.kt" 1 (.projectRoots (projectRootPaths
      (platformHostOwners nestedShells) (nestedShells.map Prod.fst))) ∅ = "mobile" := by
  have exact' := hosts_exact nestedShells (by decide) (by decide)
  have held : (platformHostOwners nestedShells)["mobile/android/app"]? = some "mobile" := by
    decide +kernel
  exact ⟨(exact'.1 _ _).mp held,
    exact'.2.2.2 _ _ _ 1 ∅ held (by decide) (by decide +kernel)⟩

def slashedRoots : List (String × String) :=
  [("a", "npm"), ("a/android", "cargo"), ("a/android/", "gradle")]

def emptyRoots : List (String × String) := [("", "npm"), (".", "npm"), ("/android", "gradle")]

/-- Without a bound on the paths both halves fail: a root that ends in a slash is a host whose
files land in the root between, and an empty owner loses to the repo root it lies under. -/
theorem slashedRoots_stray :
    ((slashedRoots.map Prod.fst).Nodup ∧
      (platformHostOwners slashedRoots)["a/android/"]? = some "a" ∧
      deepestRoot (slashedRoots.map Prod.fst) "a/android//x" = some "a/android/" ∧
      serviceOf "a/android//x" 1 (.projectRoots (projectRootPaths
        (platformHostOwners slashedRoots) (slashedRoots.map Prod.fst))) ∅ ≠ "a") ∧
    (emptyRoots.map Prod.fst).Nodup ∧ HostOf emptyRoots "/android" "" ∧
      (platformHostOwners emptyRoots)["/android"]? = none := by
  refine ⟨⟨by decide, by decide +kernel, by decide +kernel, by decide +kernel⟩, by decide, ?_,
    by decide +kernel⟩
  refine ⟨⟨"gradle", by decide, by decide⟩, ⟨⟨"npm", by decide, by decide⟩, by decide, ?_⟩,
    ⟨"android", by decide, by decide⟩, ?_⟩
  · intro B ⟨eco, _, mem⟩ under
    simp only [emptyRoots, List.mem_cons, Prod.mk.injEq, List.not_mem_nil, or_false] at mem
    rcases mem with ⟨same, _⟩ | ⟨same, _⟩ | ⟨same, _⟩
    · exact .inl same
    · exact .inr (same ▸ by decide)
    · exact absurd (same ▸ under) (by decide)
  · intro m eco mem up down
    simp only [emptyRoots, List.mem_cons, Prod.mk.injEq, List.not_mem_nil, or_false] at mem
    rcases mem with ⟨same, _⟩ | ⟨same, _⟩ | ⟨same, _⟩
    · exact absurd (same ▸ down) (by decide)
    · exact absurd (same ▸ down) (by decide)
    · exact absurd (same ▸ up) (by decide)

end Owners

end Glia.Engine.Arch
