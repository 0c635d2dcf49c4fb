import QueryAdmission.Gate
import QueryAdmission.Query.Wire
import QueryAdmission.Tally

/-! Answers to requests to check a query. -/

namespace QueryAdmission

inductive Answer where
  /-- The request cannot be read. -/
  | malformed (fault : Json.Fault)
  /-- The request does not say who asks. -/
  | anonymous
  /-- The client's quota is used up; `retryAfter` is in seconds. -/
  | limited (breach : Breach) (retryAfter : Nat)
  /-- The query cannot be read. -/
  | unreadable (error : Wire.Error) (remaining : Nat)
  | admitted (analysis : Analysis) (remaining : Nat)
  | rejected (breaches : List Breach) (analysis : Analysis) (remaining : Nat)

namespace Answer

def outcome : Answer → Outcome
  | .malformed _ => .invalid
  | .anonymous => .invalid
  | .limited .. => .rateLimited
  | .unreadable .. => .invalid
  | .admitted .. => .admitted
  | .rejected .. => .rejected

/-- The breaches that an answer reports. -/
def breaches : Answer → List Breach
  | .limited breach _ => [breach]
  | .rejected bs _ _ => bs
  | _ => []

def status : Answer → Nat
  | .malformed _ => 400
  | .anonymous => 400
  | .limited .. => 429
  | .unreadable .. => 400
  | .admitted .. => 200
  | .rejected .. => 200

def retryAfter? : Answer → Option Nat
  | .limited _ secs => some secs
  | _ => none

/-- An answer as a JSON object. Members that have nothing to say are left out. -/
def toJson : Answer → Json
  | .malformed fault =>
    .ofMembers [("allowed", .bool false),
      ("errors", unreadableErrors ("malformed check request: " ++ fault.message))]
  | .anonymous =>
    .ofMembers [("allowed", .bool false), ("errors", unreadableErrors "client identity is required")]
  | .limited breach secs =>
    .ofMembers [("allowed", .bool false), ("violations", .list [breach.toJson]),
      ("errors", breachErrors [breach]), ("retry_after_secs", .nat secs)]
  | .unreadable error remaining =>
    .ofMembers [("allowed", .bool false), ("errors", unreadableErrors error.message),
      ("remaining", .nat remaining)]
  | .admitted analysis remaining =>
    .ofMembers [("allowed", .bool true), ("analysis", analysis.toJson),
      ("remaining", .nat remaining)]
  | .rejected breaches analysis remaining =>
    .ofMembers [("allowed", .bool false), ("violations", .list (breaches.map Breach.toJson)),
      ("errors", breachErrors breaches), ("analysis", analysis.toJson),
      ("remaining", .nat remaining)]

end Answer

/-- The answer to a client that has `remaining` requests left. Without a query the empty one is
judged. -/
def Gate.answer (g : Gate) (query : Option String) (remaining : Nat) : Answer :=
  match (query.map Query.ofText).getD (.ok .empty) with
  | .error e => .unreadable e remaining
  | .ok q =>
    let analysis := g.analyse q
    match g.judge analysis with
    | .admitted => .admitted analysis remaining
    | .rejected breaches => .rejected breaches analysis remaining

end QueryAdmission
