import QueryAdmission.Json.Fault
import QueryAdmission.Json.Value

/-! JSON values as text, without white space. -/

namespace QueryAdmission.Json

/-- A character inside a string. Only the quotation mark, the backslash and control characters are
escaped. -/
def writtenChar (c : Char) : String :=
  if c = '"' then "\\\""
  else if c = '\\' then "\\\\"
  else if c = '\n' then "\\n"
  else if c = '\r' then "\\r"
  else if c = '\t' then "\\t"
  else if c.toNat = 0x08 then "\\b"
  else if c.toNat = 0x0C then "\\f"
  else if c.toNat < 0x20 then
    "\\u00" ++ (if c.toNat < 0x10 then "0" else "") ++ String.ofList (Nat.toDigits 16 c.toNat)
  else String.singleton c

/-- Adds a string to a text. -/
def putText (out s : String) : String :=
  (s.toList.foldl (fun out c => out ++ writtenChar c) (out.push '"')).push '"'

def putNumber (out : String) : Number → String
  | .whole n => out ++ toString n
  | .double x => out ++ doubleLayout.double x

mutual

/-- Adds a value to a text. -/
def put (out : String) : Json → String
  | .null => out ++ "null"
  | .bool b => out ++ if b then "true" else "false"
  | .number x => putNumber out x
  | .text s => putText out s
  | .list items => (putItems (out.push '[') true items).push ']'
  | .object members => (putMembers (out.push (Char.ofNat 0x7B)) true members).push (Char.ofNat 0x7D)

/-- Adds the items of a list, with a comma before each but the first. -/
def putItems (out : String) (fresh : Bool) : List Json → String
  | [] => out
  | v :: rest => putItems (put (if fresh then out else out.push ',') v) false rest

/-- Adds the members of an object, with a comma before each but the first. -/
def putMembers (out : String) (fresh : Bool) : List (String × Json) → String
  | [] => out
  | (name, v) :: rest =>
    putMembers (put ((putText (if fresh then out else out.push ',') name).push ':') v) false rest

end

def print (v : Json) : String := put "" v

end QueryAdmission.Json
