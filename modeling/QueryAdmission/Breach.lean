import QueryAdmission.Json.Record

/-! Limits and their breaches. -/

namespace QueryAdmission

open Json (Reader Member Record)

/-- The limits that a request can exceed, in the order in which breaches are reported. -/
inductive Limit where
  | depth
  | fields
  | rootFields
  | aliases
  | sensitiveFields
  | cost
  | rate
  deriving DecidableEq, Repr

namespace Limit

def all : List Limit := [.depth, .fields, .rootFields, .aliases, .sensitiveFields, .cost, .rate]

/-- The code by which programs tell limits apart. -/
def code : Limit → String
  | .depth => "DEPTH_EXCEEDED"
  | .fields => "TOO_MANY_FIELDS"
  | .rootFields => "TOO_MANY_ROOT_FIELDS"
  | .aliases => "TOO_MANY_ALIASES"
  | .sensitiveFields => "TOO_MANY_SENSITIVE_FIELDS"
  | .cost => "COMPLEXITY_EXCEEDED"
  | .rate => "RATE_LIMIT_EXCEEDED"

/-- What is wrong when the limit is exceeded. -/
def complaint : Limit → String
  | .depth => "Query depth exceeds the allowed nesting"
  | .fields => "Query has too many fields"
  | .rootFields => "Query has too many root fields"
  | .aliases => "Query has too many aliases"
  | .sensitiveFields => "Query contains too many sensitive fields"
  | .cost => "Query complexity is too high"
  | .rate => "Too many requests from this client"

def reader : Reader Limit := .oneOf (all.map fun l => (l.code, l))

end Limit

/-- A limit that was exceeded, with what was observed and what would have been allowed. -/
structure Breach where
  limit : Limit
  observed : Nat
  threshold : Nat
  deriving DecidableEq, Repr

namespace Breach

/-- A breach, if more was observed than the threshold. -/
def over? (limit : Limit) (observed threshold : Nat) : Option Breach :=
  if threshold < observed then some ⟨limit, observed, threshold⟩ else none

def message (b : Breach) : String :=
  b.limit.complaint ++ ": " ++ toString b.observed ++ " (maximum " ++ toString b.threshold ++ ")"

def toJson (b : Breach) : Json :=
  .ofMembers [("kind", .text b.limit.code), ("observed", .nat b.observed),
    ("threshold", .nat b.threshold)]

/-- A breach as one entry of a list of errors. -/
def toErrorEntry (b : Breach) : Json :=
  .ofMembers [("message", .text b.message),
    ("extensions", .ofMembers [("code", .text b.limit.code), ("observed", .nat b.observed),
      ("threshold", .nat b.threshold)])]

def count : Reader Nat := Reader.word64.map UInt64.toNat

/-- The written form of a breach. All members are required. -/
def record : Record Breach where
  title := "Violation"
  members := [
    Json.requiredField "kind" Limit.reader fun l b => { b with limit := l },
    Json.requiredField "observed" count fun n b => { b with observed := n },
    Json.requiredField "threshold" count fun n b => { b with threshold := n }]

def reader : Reader Breach := record.reader ⟨.depth, 0, 0⟩

end Breach

/-- Breaches as a list of errors, one entry for each. -/
def breachErrors (breaches : List Breach) : Json := .list (breaches.map Breach.toErrorEntry)

/-- A request that could not be read, as a list of errors with one entry. -/
def unreadableErrors (message : String) : Json :=
  .list [.ofMembers [("message", .text message),
    ("extensions", .ofMembers [("code", .text "INVALID_SELECTION_DOCUMENT")])]]

/-- The object whose only member is a list of errors. -/
def errorBody (errors : Json) : Json := .ofMembers [("errors", errors)]

end QueryAdmission
