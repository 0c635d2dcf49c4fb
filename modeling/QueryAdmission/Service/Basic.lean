import QueryAdmission.Quota
import QueryAdmission.Service.Answer
import QueryAdmission.Service.Envelope
import QueryAdmission.Service.PathPattern
import QueryAdmission.Service.Request

/-! The service: its state, and what it does with requests. -/

namespace QueryAdmission

structure Service where
  settings : Settings
  gate : Gate
  quota : Quota
  tally : Tally

inductive Body where
  | empty
  | json (value : Json)
  | text (contents : String)

structure Reply where
  status : Nat
  body : Body := .empty
  contentType : Option String := none
  /-- Seconds to wait before the next request. -/
  retryAfter : Option Nat := none
  /-- The methods that the path has, on a request by another method. -/
  allow : Option String := none

/-- What the service has at a path. -/
inductive Resource where
  | health
  | check
  | counters
  deriving DecidableEq, Repr

/-- The methods of a resource. What can be got can also be asked for without its body. -/
def Resource.methods : Resource → List String
  | .health => ["GET", "HEAD"]
  | .check => ["POST"]
  | .counters => ["GET", "HEAD"]

namespace Service

/-- The service that settings describe, before any request. -/
def ofSettings (s : Settings) : Except (List Issue) Service :=
  match Gate.ofSettings s with
  | .error issues => .error issues
  | .ok gate => .ok ⟨s, gate, .ofSettings s.rate, {}⟩

/-- Counts an answer. -/
def counted (s : Service) (a : Answer) : Service :=
  { s with tally := s.tally.count a.outcome (a.breaches.map Breach.limit) }

/-- The seconds that a client is told to wait, at least one. -/
def waitSecs (nanos : Nat) : Nat := max 1 (nanos / nanosPerSecond)

/-- The answer to a client that has said who it is. The quota comes first: beyond it the query is
not looked at. -/
def answer (s : Service) (envelope : Envelope) : Decision → Answer
  | .limited breach wait => .limited breach (waitSecs wait)
  | .allowed remaining _ => s.gate.answer envelope.query remaining

/-- Answers a request to check a query, and counts it. -/
def check (s : Service) (now : Int) (body : Bytes) : Answer × Service :=
  match Envelope.ofBytes body with
  | .error fault => (.malformed fault, s.counted (.malformed fault))
  | .ok envelope =>
    if Text.isBlankText envelope.client then (.anonymous, s.counted .anonymous)
    else
      let (decision, quota) := s.quota.check envelope.client now
      let a := s.answer envelope decision
      (a, { s with quota := quota, tally := s.tally.setTracked quota.tracked }.counted a)

/-- Forgets the clients whose windows have elapsed. -/
def sweep (s : Service) (now : Int) : Service :=
  let quota := (s.quota.evict now).2
  { s with quota := quota, tally := s.tally.setTracked quota.tracked }

/-- The paths that every service has. -/
def fixedPaths : List (String × Resource) :=
  [("/health", .health), ("/healthz", .health), ("/check", .check)]

/-- Whether a path belongs to the fixed ones, and so not to a pattern that covers it. Besides the
fixed paths themselves these are the same with a slash after them, if the pattern has its first
name before their end: a slash alone does not lead back to a name that was passed by. -/
def isReserved (pattern : PathPattern) (path : String) : Bool :=
  fixedPaths.any fun (fixed, _) =>
    path == fixed || (path == fixed ++ "/" && pattern.lead.length < fixed.length)

/-- Whether the counters are at a path: it is the text of the settings, or that text is a pattern
for it. -/
def hasCounters (s : CounterSettings) (path : String) : Bool :=
  let pattern := PathPattern.ofText s.path
  s.enabled && (path == s.path || (pattern.covers path && !isReserved pattern path))

/-- Whether a path is a fixed one whose resource has a method of the counters. -/
def isTaken (path : String) : Bool :=
  fixedPaths.any fun (fixed, resource) =>
    fixed == path && resource.methods.any (Resource.counters.methods.contains ·)

/-- Whether the router takes the path of the counters beside the fixed ones. -/
def takesCounters (s : CounterSettings) : Bool :=
  !s.enabled || (!isTaken s.path && PathPattern.isRoutable (fixedPaths.map (·.1)) s.path)

/-- The resources at a path. -/
def resources (s : Settings) (path : String) : List Resource :=
  (fixedPaths.filter (·.1 == path)).map (·.2)
    ++ (if hasCounters s.counters path then [.counters] else [])

def jsonType : String := "application/json"

def exposedType : String := "text/plain; version=0.0.4"

def healthJson : Json :=
  .ofMembers [("status", .text "healthy"), ("service", .text "graphql-abuse-guard"),
    ("version", .text "0.1.0")]

/-- The reply that carries an answer. -/
def answerReply (a : Answer) : Reply where
  status := a.status
  body := .json a.toJson
  contentType := some jsonType
  retryAfter := a.retryAfter?

/-- The length of the longest body that is read, in bytes. -/
def maxBodyLength : Nat := 2097152

/-- The reply to a request whose body is too long to be read. -/
def overlongReply : Reply where
  status := 413
  body := .text "Failed to buffer the request body: length limit exceeded"
  contentType := some "text/plain; charset=utf-8"

/-- What a resource replies. A body is read only where it is needed. -/
def serve (s : Service) (now : Int) (body : Bytes) : Resource → Reply × Service
  | .health => ({ status := 200, body := .json healthJson, contentType := some jsonType }, s)
  | .check =>
    if maxBodyLength < body.length then (overlongReply, s)
    else
      let (a, s) := s.check now body
      (answerReply a, s)
  | .counters =>
    ({ status := 200, body := .text s.tally.toText, contentType := some exposedType }, s)

/-- Replies to a request at an instant. -/
def respond (s : Service) (now : Int) (r : Request) : Reply × Service :=
  match resources s.settings r.path with
  | [] => ({ status := 404 }, s)
  | found =>
    match found.find? (·.methods.contains r.method) with
    | none => ({ status := 405, allow := some (",".intercalate (found.flatMap Resource.methods)) }, s)
    | some resource =>
      let (reply, s) := s.serve now r.body resource
      (if r.method = "HEAD" then { reply with body := .empty } else reply, s)

end Service

end QueryAdmission
