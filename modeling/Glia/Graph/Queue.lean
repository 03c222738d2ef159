import Glia.CodeDomain
import Glia.Graph.Types
import Mathlib

/-! The queue resolver: producer to consumer by topic name, gated on broker family, with each
broker's wildcard subscriptions and the subscriptions bound to a topic in Terraform. -/
namespace Glia.Graph

open Glia.Kit (OrdMap gather)

inductive QueueFramework where
  | nats
  | rabbitMQ
  | kafka
  | pubSub
  | mqtt
  | jms
  deriving DecidableEq

def QueueFramework.family : QueueFramework → String
  | nats => "nats"
  | rabbitMQ => "rabbitmq"
  | kafka => "kafka"
  | pubSub => "pubsub"
  | mqtt => "mqtt"
  | jms => "jms"

/-- What a topic no needle named starts with. -/
def unresolvedPrefix : String := "unresolved:"

/-- The token a runtime part of a subject is folded to. -/
def subjectPlaceholder : List Char := ['*']

def genericFamily : String := "generic"

section Cells

def strField (json key : String) : Option String :=
  (Text.splitOnce ("\"" ++ key ++ "\":\"") json).bind fun at_ =>
    (Text.splitOnce "\"" at_.2).bind fun value => if value.1.isEmpty then none else some value.1

def jsonOf (kind : CellTypeId) (c : Cell) : Option String :=
  match c.payload with
  | .json j => if c.kind = kind then some j else none
  | _ => none

def nodeFamilies (cells : List Cell) : List String :=
  (cells.filterMap fun c => (jsonOf CellType.code c).bind fun j => strField j "family").foldl
    (fun out f => if f ∈ out then out else out ++ [f]) []

def llmProvenance : String := "\"provenance\":\"overlay:llm\""

/-- Whether every site of a queue node rests on a model-written stanza. -/
def restsOnModel (cells : List Cell) : Bool :=
  let positions := (cells.filter fun c => c.kind = CellType.position).length
  let llm := (cells.filter fun c =>
    ((jsonOf CellType.origin c).map fun j => Text.contains j llmProvenance).getD false).length
  0 < llm ∧ positions ≤ llm

end Cells

section Families

/-- Pair when either side is unknown or generic, or the sets meet. -/
def familiesCompatible (a b : List String) : Bool :=
  a.isEmpty || b.isEmpty || a.contains genericFamily || b.contains genericFamily ||
    a.any fun f => b.contains f

def isPlaceholderTopic (topic : String) (families : List String) : Bool :=
  families.contains QueueFramework.nats.family &&
    (topic.toList.splitOn '.').any fun t => t == subjectPlaceholder

end Families

section Patterns

/-- The token syntax of a segmented subscription: one token, this and every following one, and
zero or more tokens. -/
structure Segmented where
  sep : Char
  one : List Char
  restSome : Option (List Char)
  restAny : List Char
  deriving DecidableEq

def Segmented.isWild (syn : Segmented) (seg : List Char) : Bool :=
  seg == syn.one || seg == syn.restAny || some seg == syn.restSome

/-- NATS, RabbitMQ topic exchanges, JMS. -/
def dotted : Segmented := ⟨'.', ['*'], some ['>'], ['#']⟩

def slashed : Segmented := ⟨'/', ['+'], none, ['#']⟩

inductive Pattern where
  | segments (syn : Segmented)
  /-- A regex's literal start, and whether it is the whole regex. -/
  | lead (text : List Char) (exact : Bool)
  deriving DecidableEq

inductive Compiled where
  | literal
  | catchall
  | pattern (p : Pattern)
  deriving DecidableEq

/-- Whether a topic's tokens fall under a pattern's. -/
def segWalk (syn : Segmented) : List (List Char) → List (List Char) → Bool
  | ts, [] => ts.isEmpty
  | ts, p :: ps =>
    if p = syn.restAny then ts.tails.any fun rest => segWalk syn rest ps
    else
      match ts with
      | [] => false
      | t :: ts =>
        if some p = syn.restSome then ps.isEmpty
        else if p ≠ syn.one ∧ p ≠ t then false
        else segWalk syn ts ps

/-- Whether the concrete topic falls under the subscription this was compiled from. -/
def Pattern.matches : Pattern → String → String → Bool
  | segments syn, pattern, topic =>
    segWalk syn (topic.toList.splitOn syn.sep) (pattern.toList.splitOn syn.sep)
  | lead text true, _, topic => topic.toList = text
  | lead text false, _, topic => text.isPrefixOf topic.toList

/-- A regex's next literal, unless what follows makes it optional. -/
def literalThen (lit : Char) (rest : List Char) (tail : List Char × Bool) : List Char × Bool :=
  if rest.head?.any fun c => c == '*' || c == '?' || c == '\x7b' then ([], false)
  else (lit :: tail.1, tail.2)

def regexMeta : List Char := ".*+?()[]\x7b\x7d^$".toList

def literalFrom : List Char → List Char × Bool
  | [] => ([], true)
  | '\x5c' :: e :: rest =>
    if e.isAlphanum then ([], false) else literalThen e rest (literalFrom rest)
  | c :: rest =>
    if c = '\x5c' then ([], false)
    else if c = '$' ∧ rest = [] then ([], true)
    else if c ∈ regexMeta then ([], false)
    else literalThen c rest (literalFrom rest)

def kafkaLiteralPrefix (pattern : List Char) : List Char × Bool :=
  let body := if pattern.head? = some '^' then pattern.tail else pattern
  if '|' ∈ body then ([], false) else literalFrom body

def regexMarks : List Char := "*+?[(|\x5c".toList

def compileKafka (topic : List Char) : Compiled :=
  if topic.head? ≠ some '^' ∧ !topic.any (regexMarks.contains ·) then .literal
  else
    let lead := kafkaLiteralPrefix topic
    if lead.1 = [] then .catchall else .pattern (.lead lead.1 lead.2)

def compileSegments (syn : Segmented) (topic : List Char) : Compiled :=
  let segs := topic.splitOn syn.sep
  if !segs.any syn.isWild then .literal
  else if !segs.any fun s => !s.isEmpty && !syn.isWild s then .catchall
  else .pattern (.segments syn)

def compilePattern (topic family : String) : Compiled :=
  if family = QueueFramework.kafka.family then compileKafka topic.toList
  else if family = QueueFramework.mqtt.family then compileSegments slashed topic.toList
  else if family ∈ [QueueFramework.nats, .rabbitMQ, .jms].map QueueFramework.family then
    compileSegments dotted topic.toList
  else .literal

end Patterns

section Bindings

/-- Provider resource types to the kinds Kubernetes and Compose share. -/
def infraAliases : List (String × String) :=
  [("aws_ecs_service", "service"), ("aws_apprunner_service", "service"),
    ("google_cloud_run_service", "service"), ("azurerm_container_group", "service"),
    ("aws_lambda_function", "service"), ("google_cloudfunctions_function", "service"),
    ("azurerm_function_app", "service"), ("aws_ecr_repository", "image"),
    ("google_artifact_registry_repository", "image"), ("docker_image", "image"),
    ("kubernetes_deployment", "deployment"), ("kubernetes_service", "service"),
    ("kubernetes_cron_job", "cronjob"), ("kubernetes_cron_job_v1", "cronjob"),
    ("kubernetes_config_map", "configmap"), ("kubernetes_secret", "secret"),
    ("aws_secretsmanager_secret", "secret"), ("kubernetes_ingress", "ingress"),
    ("kubernetes_ingress_v1", "ingress"), ("aws_lb", "ingress")]

def asciiLower (s : String) : List Char := s.toList.map Char.toLower

def canonicalKind (rawType : String) : String :=
  ((infraAliases.find? fun a => asciiLower rawType == asciiLower a.1).map Prod.snd).getD rawType

def infraQname (kind name : String) : String := "infra:" ++ kind ++ ":" ++ name

def pubsubTopicResource : String := "google_pubsub_topic"

/-- What a subscription cell says its topic is: a literal id, or a resource of its own graph. -/
inductive BoundTo where
  | name (topic : String)
  | resource (graph : Nat) (qname : String)

def agree {β : Type} [DecidableEq β] (x : β) : Option (Option β) → Option (Option β)
  | none => some (some x)
  | some held => some (if held = some x then held else none)

def pubsubCells (g : RepoGraph) : List (NodeId × String × String) :=
  g.nodes.flatMap fun n =>
    if g.nav.kindById[n.id]? = some NodeKind.infraResource then
      n.cells.filterMap fun c => (jsonOf CellType.code c).bind fun j =>
        (strField j "name").map fun name => (n.id, name, j)
    else []

def declaredTopics (g : RepoGraph) : List (String × String) :=
  (pubsubCells g).filterMap fun c =>
    if strField c.2.2 "pubsub" = some "topic" then (g.nav.qnameById[c.1]?).map fun q => (q, c.2.1)
    else none

/-- What a subscription's payload says its topic is. -/
def boundTo (graph : Nat) (json : String) : Option BoundTo :=
  match strField json "topic" with
  | some topic => some (.name topic)
  | none =>
    (strField json "topic_ref").bind fun ref => (Text.splitOnce "." ref).bind fun r =>
      if r.1 = pubsubTopicResource then some (.resource graph (infraQname (canonicalKind r.1) r.2))
      else none

def declaredSubs (graph : Nat) (g : RepoGraph) : List (String × BoundTo) :=
  (pubsubCells g).filterMap fun c =>
    if strField c.2.2 "pubsub" = some "subscription" then
      (boundTo graph c.2.2).map fun b => (c.2.1, b)
    else none

abbrev TopicKey := Nat ×ₗ String

def topicNames (graphs : List RepoGraph) : OrdMap TopicKey (Option String) :=
  gather Prod.fst (fun e seen => agree e.2 seen) ∅
    (graphs.zipIdx.flatMap fun e => (declaredTopics e.1).map fun t => (toLex (e.2, t.1), t.2))

def resolveBound (topics : OrdMap TopicKey (Option String)) : BoundTo → Option String
  | .name t => some t
  | .resource graph qname => (topics[toLex (graph, qname)]?).join

def pubsubBindings (graphs : List RepoGraph) : OrdMap String String :=
  let topics := topicNames graphs
  let subs := graphs.zipIdx.flatMap fun e => declaredSubs e.2 e.1
  let bound : OrdMap String (Option String) :=
    gather Prod.fst (fun e seen => agree e.2 seen) ∅
      (subs.filterMap fun s => (resolveBound topics s.2).map fun t => (s.1, t))
  bound.filterMap fun _ topic => topic

end Bindings

section Index

structure QueueSide where
  id : NodeId
  confidence : Confidence
  topic : String
  families : List String
  model : Bool

def queueSide (kind : Nat) (lead : String) (g : RepoGraph) (n : Node) : Option QueueSide :=
  if g.nav.kindById[n.id]? = some kind then
    (g.nav.qnameById[n.id]?).bind fun qname =>
      (Text.stripPrefix lead (splitOwner qname).1).bind fun topic =>
        if (Text.stripPrefix unresolvedPrefix topic).isSome then none
        else some ⟨n.id, n.confidence, topic, nodeFamilies n.cells, restsOnModel n.cells⟩
  else none

def producersOf (g : RepoGraph) : List QueueSide :=
  g.nodes.filterMap (queueSide NodeKind.queueProducer "queue_producer:" g)

def consumersOf (g : RepoGraph) : List QueueSide :=
  g.nodes.filterMap (queueSide NodeKind.queueConsumer "queue_consumer:" g)

structure Consumer where
  side : QueueSide
  viaBinding : Bool

structure WildcardConsumer where
  side : QueueSide
  arms : List (String × Pattern)

def armsOf (c : QueueSide) : List (String × Pattern) :=
  c.families.filterMap fun fam =>
    match compilePattern c.topic fam with
    | .pattern p => some (fam, p)
    | _ => none

structure QueueIndex where
  exact : OrdMap String (List Consumer)
  wildcard : List WildcardConsumer

def indexedAs (bindings : OrdMap String String) (c : QueueSide) : List (String × Consumer) :=
  let bound := (bindings[c.topic]?).filter fun bound =>
    bound ≠ c.topic && familiesCompatible c.families [QueueFramework.pubSub.family]
  (bound.map fun b => (b, (⟨c, true⟩ : Consumer))).toList ++ [(c.topic, ⟨c, false⟩)]

def buildQueueIndex (graphs : List RepoGraph) (bindings : OrdMap String String) : QueueIndex :=
  let consumers := graphs.flatMap consumersOf
  { exact := gather Prod.fst (fun e seen => some (seen.getD [] ++ [e.2])) ∅
      (consumers.flatMap (indexedAs bindings))
    wildcard := consumers.filterMap fun c =>
      if armsOf c = [] then none else some ⟨c, armsOf c⟩ }

end Index

section Resolve

structure QueueFlow where
  producer : NodeId
  consumer : NodeId
  confidence : Confidence
  rule : String
  deriving DecidableEq

def ruleName (rule : String) (rested : Bool) : String :=
  if rested then rule ++ "/overlay_llm" else rule

def ruleCell (resolver rule : String) : Cell where
  kind := CellType.evidence
  payload := .json ("\x7b\"emitter\":\"resolver:" ++ resolver ++ "\",\"rule\":\"" ++ rule ++
    "\",\"basis\":\"none\"\x7d")

def QueueFlow.edge (f : QueueFlow) : Edge where
  fromId := f.producer
  toId := f.consumer
  category := EdgeCategory.queueFlows
  confidence := f.confidence
  cells := [ruleCell "queue" f.rule]

def QueueSide.placeholder (p : QueueSide) : Bool := isPlaceholderTopic p.topic p.families

def exactFlows (index : QueueIndex) (p : QueueSide) : List QueueFlow :=
  let consumers := if p.placeholder then [] else (index.exact[p.topic]?).getD []
  consumers.filterMap fun t =>
    if familiesCompatible p.families t.side.families then
      let confidence := p.confidence.weakest t.side.confidence
      let rested := p.model || t.side.model
      if t.viaBinding then
        some ⟨p.id, t.side.id, confidence.weakest .medium, ruleName "binding" rested⟩
      else some ⟨p.id, t.side.id, confidence, ruleName "exact" rested⟩
    else none

/-- The wildcard subscriptions a producer's topic falls under. -/
def patternFlows (index : QueueIndex) (p : QueueSide) : List QueueFlow :=
  (index.wildcard.filter fun w => p.placeholder || w.side.topic != p.topic).filterMap fun w =>
    let hits := w.arms.filter fun a => a.2.matches w.side.topic p.topic
    if hits.any fun a => familiesCompatible p.families [a.1] then
      some ⟨p.id, w.side.id, .weak, ruleName "pattern" (p.model || w.side.model)⟩
    else none

def queueFlows (m : MergedGraph) : List QueueFlow :=
  let index := buildQueueIndex m.graphs (pubsubBindings m.graphs)
  (m.graphs.flatMap producersOf).flatMap fun p => exactFlows index p ++ patternFlows index p

def resolveQueues (m : MergedGraph) : MergedGraph :=
  { m with crossEdges := m.crossEdges ++ (queueFlows m).map QueueFlow.edge }

end Resolve

end Glia.Graph
