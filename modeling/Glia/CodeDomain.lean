import Glia.Core
import Glia.Text

/-! The code domain: its registered ids and the owner segment of a qname. -/
namespace Glia

namespace EdgeCategory

def defines : EdgeCategoryId := 1
def imports : EdgeCategoryId := 3
def calls : EdgeCategoryId := 4
def uses : EdgeCategoryId := 5
def documents : EdgeCategoryId := 6
def tests : EdgeCategoryId := 7
def injects : EdgeCategoryId := 8
def handledBy : EdgeCategoryId := 9
def httpCalls : EdgeCategoryId := 10
def grpcCalls : EdgeCategoryId := 11
def queueFlows : EdgeCategoryId := 12
def graphqlCalls : EdgeCategoryId := 13
def wsConnects : EdgeCategoryId := 14
def eventFlows : EdgeCategoryId := 15
def sharesSchema : EdgeCategoryId := 16
def cliInvokes : EdgeCategoryId := 17
def sharesDataEntity : EdgeCategoryId := 22
def sharesCronSchedule : EdgeCategoryId := 24
def sharesConfig : EdgeCategoryId := 27
def sharesInfraRef : EdgeCategoryId := 29
def sharesDependency : EdgeCategoryId := 31
def rpcCalls : EdgeCategoryId := 34
def coChanges : EdgeCategoryId := 36
def sameAs : EdgeCategoryId := 37

def all : List (EdgeCategoryId × String) :=
  [(1, "DEFINES"), (2, "CONTAINS"), (3, "IMPORTS"), (4, "CALLS"), (5, "USES"), (6, "DOCUMENTS"),
    (7, "TESTS"), (8, "INJECTS"), (9, "HANDLED_BY"), (10, "HTTP_CALLS"), (11, "GRPC_CALLS"),
    (12, "QUEUE_FLOWS"), (13, "GRAPHQL_CALLS"), (14, "WS_CONNECTS"), (15, "EVENT_FLOWS"),
    (16, "SHARES_SCHEMA"), (17, "CLI_INVOKES"), (18, "ACCESSES_DATA"), (19, "HAS_ATTRIBUTE"),
    (20, "INHERITS_FROM"), (21, "RETURNS_TYPE"), (22, "SHARES_DATA_ENTITY"), (23, "SCHEDULES"),
    (24, "SHARES_CRON_SCHEDULE"), (25, "READS_CONFIG"), (26, "DEFINES_CONFIG"),
    (27, "SHARES_CONFIG"), (28, "INFRA_REFERENCES"), (29, "SHARES_INFRA_REF"),
    (30, "DEPENDS_ON"), (31, "SHARES_DEPENDENCY"), (32, "IMPLEMENTS"),
    (33, "SHARES_DATA_SOURCE"), (34, "RPC_CALLS"), (35, "NAVIGATES_TO"), (36, "CO_CHANGES"),
    (37, "SAME_AS"), (38, "TRACES")]

def name (c : EdgeCategoryId) : String := (nameOf all c).getD "UNKNOWN"

end EdgeCategory

namespace NodeKind

def module : Nat := 1
def route : Nat := 5
def endpoint : Nat := 9
def queueConsumer : Nat := 13
def queueProducer : Nat := 14
def infraResource : Nat := 39
def region : Nat := 41

def all : List (Nat × String) :=
  [(1, "MODULE"), (2, "CLASS"), (3, "FUNCTION"), (4, "METHOD"), (5, "ROUTE"), (6, "PACKAGE"),
    (7, "INTERFACE"), (8, "STRUCT"), (9, "ENDPOINT"), (10, "ENUM"), (11, "GRPC_SERVICE"),
    (12, "GRPC_CLIENT"), (13, "QUEUE_CONSUMER"), (14, "QUEUE_PRODUCER"),
    (15, "GRAPHQL_RESOLVER"), (16, "GRAPHQL_OPERATION"), (17, "WS_HANDLER"), (18, "WS_CLIENT"),
    (19, "EVENT_HANDLER"), (20, "EVENT_EMITTER"), (21, "CLI_COMMAND"), (22, "CLI_INVOCATION"),
    (23, "DATABASE"), (24, "CACHE"), (25, "BLOB_STORE"), (26, "SEARCH_INDEX"),
    (27, "EMAIL_SERVICE"), (28, "COMPONENT"), (29, "HOOK"), (30, "SERVICE"), (31, "DIRECTIVE"),
    (32, "PIPE"), (33, "GUARD"), (34, "COMPOSABLE"), (35, "ATTRIBUTE"), (36, "DATA_ENTITY"),
    (37, "CRON_JOB"), (38, "CONFIG_KEY"), (39, "INFRA_RESOURCE"), (40, "PACKAGE_DEP"),
    (41, "REGION"), (42, "DOC_SECTION"), (43, "STATE_VAR"), (44, "DOC_SPACE"), (45, "PROJECT"),
    (46, "MESSAGE_TYPE"), (47, "GRPC_SERVER"), (48, "RPC_PROCEDURE"), (49, "RPC_CALL"),
    (50, "GOAL_UNIT")]

end NodeKind

namespace CellType

def code : CellTypeId := 1
def position : CellTypeId := 3
def routeMethod : CellTypeId := 5
def endpointHit : CellTypeId := 6
def constraint : CellTypeId := 10
def decision : CellTypeId := 11
def conv : CellTypeId := 13
def vector : CellTypeId := 14
def origin : CellTypeId := 15
def evidence : CellTypeId := 21
def schemaFields : CellTypeId := 22

def all : List (CellTypeId × String) :=
  [(1, "CODE"), (2, "DOC"), (3, "POSITION"), (4, "INTENT"), (5, "ROUTE_METHOD"),
    (6, "ENDPOINT_HIT"), (7, "TEST"), (8, "ATTN"), (9, "FAIL"), (10, "CONSTRAINT"),
    (11, "DECISION"), (12, "ENV"), (13, "CONV"), (14, "VECTOR"), (15, "ORIGIN"),
    (16, "IMPORTS"), (17, "MESSAGE_TYPE"), (18, "RPC_PACKAGE"), (19, "DOC_TAGS"), (20, "ROLE"),
    (21, "EVIDENCE"), (22, "SCHEMA_FIELDS"), (23, "COVERAGE"), (24, "ENTRYPOINT"),
    (25, "ACCESS_MODE"), (26, "UNIT"), (27, "IMPORT_BINDINGS")]

end CellType

namespace Confidence

def rank : Confidence → Nat
  | strong => 2
  | medium => 1
  | weak => 0

def weakest (a b : Confidence) : Confidence := if a.rank ≤ b.rank then a else b

theorem weakest_comm (a b : Confidence) : weakest a b = weakest b a := by
  cases a <;> cases b <;> rfl

theorem weakest_assoc (a b c : Confidence) :
    weakest (weakest a b) c = weakest a (weakest b c) := by
  cases a <;> cases b <;> cases c <;> rfl

@[simp] theorem strong_weakest (a : Confidence) : weakest strong a = a := by cases a <;> rfl

@[simp] theorem weakest_self (a : Confidence) : weakest a a = a := by cases a <;> rfl

end Confidence

def splitOwner (q : String) : String × Option String :=
  match Text.rsplitOnce " @" q with
  | some (base, owner) =>
    if owner.toList ≠ [] ∧ owner.toList.any Text.isWhitespace = false then (base, some owner)
    else (q, none)
  | none => (q, none)

end Glia
