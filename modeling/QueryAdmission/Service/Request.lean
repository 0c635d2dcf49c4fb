import QueryAdmission.Json.Byte

/-! Requests, and the paths that their targets lead to. -/

namespace QueryAdmission

/-- A request by method, target and body. The target holds the path. -/
structure Request where
  method : String
  target : String
  body : Bytes

namespace Request

/-- Whether a character ends a path, since it begins a query or a fragment. -/
def endsPath (c : Char) : Bool := c == '?' || c == '#'

/-- A target without the scheme and the server that it may name first. A scheme is known by the
colon and the two slashes after it, whatever it is made of, since no path comes before it. -/
def withoutServer (target : List Char) : List Char :=
  match target.dropWhile fun c => c != ':' && c != '/' && !endsPath c with
  | ':' :: '/' :: '/' :: rest => rest.dropWhile fun c => c != '/' && !endsPath c
  | _ => target

/-- The path that a target leads to. Where none is named, it is the topmost one. -/
def path (r : Request) : String :=
  match (withoutServer r.target.toList).takeWhile fun c => !endsPath c with
  | [] => "/"
  | cs => String.ofList cs

end Request

end QueryAdmission
