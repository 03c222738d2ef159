import Glia.Graph.Owners
import Mathlib

/-! The scope of one project, as its routes, its aliases, its clients and its served gRPC services
name it. -/
namespace Glia.Graph.Host

open Glia.Kit (OrdMap gather)
open Glia.Graph.HttpRoutes (isNavRoute)
open Glia.SameAs (asciiLower)

/-- A whole repo, or the nested project of it that owns targets under a number. -/
abbrev AliasScope := Nat × Option Nat

section Targets

structure OwnedRoute where
  id : NodeId
  repo : Nat
  owner : Option String
  deriving DecidableEq

/-- No client-router route, and none that only test code registers. -/
def indexedRoute (g : RepoGraph) (without : List NodeId) (n : Node) : Option OwnedRoute :=
  if g.nav.kindById[n.id]? = some NodeKind.route then
    g.nav.qnameById[n.id]?.bind fun qname =>
      if isNavRoute n.cells || n.id ∈ without then none
      else some ⟨n.id, g.repo, (splitOwner qname).2⟩
  else none

def indexedRoutes (graphs : List RepoGraph) (without : List NodeId) : List OwnedRoute :=
  graphs.flatMap fun g => g.nodes.filterMap (indexedRoute g without)

structure RouteTargets where
  owners : Owners := {}
  scopes : List (NodeId × AliasScope) := []

def enterRoute (st : RouteTargets) (r : OwnedRoute) : RouteTargets :=
  match r.owner with
  | none => { st with scopes := st.scopes ++ [(r.id, (r.repo, none))] }
  | some o =>
    { owners := (st.owners.intern o).2
      scopes := st.scopes ++ [(r.id, (r.repo, (st.owners.intern o).1))] }

def routeTargets (graphs : List RepoGraph) (without : List NodeId) : RouteTargets :=
  (indexedRoutes graphs without).foldl enterRoute {}

end Targets

section Aliases

def lastSegment (name : String) : String := ((Text.rsplitOnce "/" name).map Prod.snd).getD name

def serviceSuffixes : List String := ["-service", "-svc", "-api", "-server"]

def clusterDnsTails : List String := [".svc", ".local"]

def stem (s suffix : String) : Option String :=
  if suffix.toList.isSuffixOf s.toList && suffix.length < s.length then
    some (String.ofList (s.toList.take (s.length - suffix.length)))
  else none

/-- The service suffixes off the end for as long as one fits; each pass shortens the name. -/
def stripSuffixes : Nat → String → String
  | 0, s => s
  | left + 1, s =>
    match serviceSuffixes.findSome? (stem s) with
    | some short => stripSuffixes left short
    | none => s

def normaliseAlias (name : String) : String :=
  let s := String.ofList ((asciiLower (Text.trim name)).toList.map fun c => if c = '_' then '-' else c)
  let s := if clusterDnsTails.any fun t => t.toList.isSuffixOf s.toList then
      ((Text.splitOnce "." s).map Prod.fst).getD s
    else s
  stripSuffixes s.length s

def nestedRel (nav : CodeNav) (n : Node) : Option String :=
  if nav.kindById[n.id]? = some 45 then
    (nav.qnameById[n.id]?.bind (Text.stripPrefix "project:")).filter fun rel => rel ≠ "" && rel ≠ "."
  else none

/-- The names a nested PROJECT is known by, normalised: its label's and its directory's. -/
def projectNames (nav : CodeNav) (n : Node) (rel : String) : List String :=
  ((nav.nameById[n.id]?.toList ++ [rel]).map fun name => normaliseAlias (lastSegment name)).filter
    (· ≠ "")

def projectAliases (owners : Owners) (g : RepoGraph) : List (String × List AliasScope) :=
  g.nodes.flatMap fun n => (nestedRel g.nav n).toList.flatMap fun rel =>
    (projectNames g.nav n rel).map fun name =>
      (name, ((owners.idOf rel).map fun o => (g.repo, some o)).toList)

def nestedRels (graphs : List RepoGraph) (repo : Nat) : List String :=
  (graphs.filter fun g => g.repo = repo).flatMap fun g => g.nodes.filterMap (nestedRel g.nav)

/-- The deepest PROJECT path that encloses a file. -/
def ownerOfFile (rels : List String) (file : String) : Option String :=
  (rels.filter fun r => file = r ||
    ((Text.stripPrefix r file).any fun rest => ['/'].isPrefixOf rest.toList)).argmax
      fun r => (toLex (r.utf8ByteSize, r) : Nat ×ₗ String)

def declaringModules (g : RepoGraph) (id : NodeId) : List NodeId :=
  (g.edges.filter fun e => e.category = EdgeCategory.defines && e.toId = id &&
    g.nav.kindById[e.toId]? = some NodeKind.infraResource &&
    g.nav.kindById[e.fromId]? = some NodeKind.module).map (·.fromId)

def colonsToSlash : List Char → List Char
  | ':' :: ':' :: s => '/' :: colonsToSlash s
  | c :: s => c :: colonsToSlash s
  | [] => []

def moduleDir (qname : String) : Option String :=
  (Text.rsplitOnce "::" qname).map fun p => String.ofList (colonsToSlash p.1.toList)

def aliasKinds : List String := ["service", "deployment", "statefulset", "image"]

def infraName (nav : CodeNav) (n : Node) : Option String := do
  if nav.kindById[n.id]? ≠ some NodeKind.infraResource then none
  else
    let qname ← nav.qnameById[n.id]?
    let rest ← Text.stripPrefix "infra:" qname
    let (kind, name) ← Text.splitOnce ":" rest
    if kind ∉ aliasKinds || (kind = "image" && name = "image") then none
    else if normaliseAlias name = "" then none
    else some (normaliseAlias name)

/-- The number of the project that a module's file lies in. -/
def moduleScope (owners : Owners) (rels : List String) (nav : CodeNav) (module_ : NodeId) :
    Option Nat :=
  nav.qnameById[module_]?.bind fun q => (moduleDir q).bind fun dir =>
    (ownerOfFile rels dir).bind owners.idOf

def infraScopes (owners : Owners) (rels : List String) (g : RepoGraph) (n : Node) : List AliasScope :=
  let scopes := (declaringModules g n.id).map (moduleScope owners rels g.nav)
  (if scopes = [] then [none] else scopes).map fun s => (g.repo, s)

def infraAliases (owners : Owners) (graphs : List RepoGraph) (g : RepoGraph) :
    List (String × List AliasScope) :=
  g.nodes.filterMap fun n => (infraName g.nav n).map fun name =>
    (name, infraScopes owners (nestedRels graphs g.repo) g n)

def buildServiceAliasIndex (graphs : List RepoGraph) (owners : Owners) :
    OrdMap String (List AliasScope) :=
  gather Prod.fst (fun e seen => some (seen.getD [] ++ e.2)) ∅
    (graphs.flatMap (projectAliases owners) ++ graphs.flatMap (infraAliases owners graphs))

def aliasScopes (graphs : List RepoGraph) (owners : Owners) (name : String) : List AliasScope :=
  (buildServiceAliasIndex graphs owners)[name]?.getD []

end Aliases

section Services

def clientScope (repo : Nat) (qname : String) (owners : Owners) : Option AliasScope :=
  match (splitOwner qname).2 with
  | none => some (repo, none)
  | some segment => (owners.idOfSegment segment).map fun i => (repo, some i)

/-- The scope a GRPC_SERVER's service is entered under. -/
def grpcScope (repo : Nat) (qname : String) (owners : Owners) : Option AliasScope :=
  match (splitOwner qname).2 with
  | none => some (repo, none)
  | some o => (owners.idOf o).map fun i => (repo, some i)

structure ServiceServes where
  targets : List (NodeId × AliasScope)
  grpc : List AliasScope

def servedGrpc (owners : Owners) (g : RepoGraph) (n : Node) : Option AliasScope :=
  if g.nav.kindById[n.id]? = some 47 then
    g.nav.qnameById[n.id]?.bind fun qname => grpcScope g.repo qname owners
  else none

def ServiceServes.new (graphs : List RepoGraph) (owners : Owners)
    (targets : List (NodeId × AliasScope)) : ServiceServes where
  targets := targets
  grpc := graphs.flatMap fun g => g.nodes.filterMap (servedGrpc owners g)

def ServiceServes.grpcIncidental (s : ServiceServes) (scope : AliasScope) : Bool :=
  scope ∈ s.grpc && ((s.targets.filter fun t => t.2 = scope).map Prod.fst).dedup.length ≤ 1

end Services

section Scopes
variable (graphs : List RepoGraph) (without : List NodeId)

/-- The number of a project's owner segment among the targets of the build. -/
def scopeIndex (rel : String) : Option Nat :=
  (routeTargets graphs without).owners.idOfSegment (ownerSegment rel)

def serves : ServiceServes :=
  .new graphs (routeTargets graphs without).owners (routeTargets graphs without).scopes

/-- Everything of one project resolves to its number, and nothing else does. -/
structure OneScope (rel : String) : Prop where
  spelled : ownerSpelling rel = ownerSegment rel
  splits : ∀ q, splitOwner (withOwner q (ownerSegment rel)) = (q, some (ownerSegment rel))
  target : ∀ r ∈ indexedRoutes graphs without, r.owner = some (ownerSegment rel) →
    ∃ i : Nat, scopeIndex graphs without rel = some i ∧
      (r.id, (r.repo, some i)) ∈ (routeTargets graphs without).scopes
  targetOnly : ∀ (id : NodeId) (repo i : Nat), scopeIndex graphs without rel = some i →
    (id, (repo, some i)) ∈ (routeTargets graphs without).scopes →
      ⟨id, repo, some (ownerSegment rel)⟩ ∈ indexedRoutes graphs without
  aliased : ∀ g ∈ graphs, ∀ n ∈ g.nodes, nestedRel g.nav n = some rel →
    ∀ name ∈ projectNames g.nav n rel, ∀ i : Nat, scopeIndex graphs without rel = some i →
      (g.repo, some i) ∈ aliasScopes graphs (routeTargets graphs without).owners name
  aliasedOnly : ∀ (name : String) (repo i : Nat), scopeIndex graphs without rel = some i →
    (repo, some i) ∈ aliasScopes graphs (routeTargets graphs without).owners name →
      rel ∈ nestedRels graphs repo
  client : ∀ (repo : Nat) (q : String),
    clientScope repo (withOwner q (ownerSegment rel)) (routeTargets graphs without).owners =
      (scopeIndex graphs without rel).map fun i => (repo, some i)
  clientOnly : ∀ (repo i : Nat) (q : String), scopeIndex graphs without rel = some i →
    clientScope repo q (routeTargets graphs without).owners = some (repo, some i) →
      (splitOwner q).2 = some (ownerSegment rel)
  served : ∀ (repo : Nat) (q : String),
    grpcScope repo (withOwner q (ownerSegment rel)) (routeTargets graphs without).owners =
      (scopeIndex graphs without rel).map fun i => (repo, some i)
  registered : ∀ repo i : Nat, scopeIndex graphs without rel = some i →
    ((repo, some i) ∈ (serves graphs without).grpc ↔
      ∃ g ∈ graphs, g.repo = repo ∧ ∃ n ∈ g.nodes, g.nav.kindById[n.id]? = some 47 ∧
        ∃ q, g.nav.qnameById[n.id]? = some q ∧ (splitOwner q).2 = some (ownerSegment rel))

def routeSegments : List String := (indexedRoutes graphs without).filterMap (·.owner)

def numbered : List String := (Owners.firstSeen (routeSegments graphs without)).take ownerLimit

variable {graphs without}

/-- An incidental route is the only one of a project that has a gRPC server. -/
theorem incidental_iff {rel : String} (scope : OneScope graphs without rel) {i : Nat}
    (number : scopeIndex graphs without rel = some i) (repo : Nat) :
    (serves graphs without).grpcIncidental (repo, some i) ↔
      (∃ g ∈ graphs, g.repo = repo ∧ ∃ n ∈ g.nodes, g.nav.kindById[n.id]? = some 47 ∧
        ∃ q, g.nav.qnameById[n.id]? = some q ∧ (splitOwner q).2 = some (ownerSegment rel)) ∧
      ∀ id id' : NodeId, ⟨id, repo, some (ownerSegment rel)⟩ ∈ indexedRoutes graphs without →
        ⟨id', repo, some (ownerSegment rel)⟩ ∈ indexedRoutes graphs without → id = id' := by
  have held : ∀ id : NodeId, id ∈ (((serves graphs without).targets.filter
      fun t => t.2 = (repo, some i)).map Prod.fst).toFinset ↔
        ⟨id, repo, some (ownerSegment rel)⟩ ∈ indexedRoutes graphs without := by
    intro id
    have listed : id ∈ (((serves graphs without).targets.filter
        fun t => t.2 = (repo, some i)).map Prod.fst).toFinset ↔
          (id, (repo, some i)) ∈ (routeTargets graphs without).scopes := by
      simp [serves, ServiceServes.new]
    rw [listed]
    refine ⟨scope.targetOnly id repo i number, fun mem => ?_⟩
    obtain ⟨j, number', here⟩ := scope.target _ mem rfl
    rwa [Option.some.inj (number.symm.trans number')]
  rw [ServiceServes.grpcIncidental, Bool.and_eq_true, decide_eq_true_iff, decide_eq_true_iff,
    scope.registered repo i number, ← List.card_toFinset, Finset.card_le_one]
  simp only [held]
  exact and_congr_right fun _ => ⟨fun one id id' mem mem' => one id mem id' mem',
    fun one id mem id' mem' => one id id' mem mem'⟩

end Scopes

end Glia.Graph.Host
