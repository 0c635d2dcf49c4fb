import QueryAdmission.Json.Print
import QueryAdmission.Service.Basic

/-! Requests and replies as lines of text: a request is its method, its target and its body, a
reply is an object with the members of its head and its body. -/

namespace QueryAdmission

/-- The text up to the first space, and the text after it. -/
def splitAtSpace (cs : List Char) : List Char × List Char :=
  (cs.takeWhile (· ≠ ' '), (cs.dropWhile (· ≠ ' ')).drop 1)

/-- The request in a line. What is missing is empty. -/
def Request.ofLine (line : String) : Request :=
  let (method, rest) := splitAtSpace line.toList
  let (target, body) := splitAtSpace rest
  { method := String.ofList method
    target := String.ofList target
    body := bytesOf (String.ofList body) }

def Body.toJson : Body → Json
  | .empty => .null
  | .json v => v
  | .text s => .text s

/-- A reply as an object. Members of the head that are not set are left out. -/
def Reply.toJson (r : Reply) : Json :=
  .ofMembers ([("status", .nat r.status), ("body", r.body.toJson)]
    ++ (r.contentType.map fun t => ("content-type", Json.text t)).toList
    ++ (r.retryAfter.map fun n => ("retry-after", Json.nat n)).toList
    ++ (r.allow.map fun t => ("allow", Json.text t)).toList)

def Reply.toLine (r : Reply) : String := r.toJson.print

/-- Whether the time between two sweeps is over. -/
def Service.sweepIsDue (s : Service) (last now : Int) : Bool :=
  last + s.settings.rate.sweepSecs.toNat * nanosPerSecond ≤ now

end QueryAdmission
