import QueryAdmission.Keyed

/-! JSON values. An object lists its members in ascending order of their names. -/

namespace QueryAdmission

/-- A number is a whole number or a double; `1` and `1.0` are different values. -/
inductive Number where
  | whole (n : Int)
  | double (x : Float)
  deriving BEq, Repr

inductive Json where
  | null
  | bool (value : Bool)
  | number (value : Number)
  | text (value : String)
  | list (items : List Json)
  | object (members : List (String × Json))
  deriving Inhabited

namespace Json

mutual

/-- Equality of values. Doubles are compared as numbers, so the two zeros are equal. -/
def same : Json → Json → Bool
  | .null, .null => true
  | .bool a, .bool b => a == b
  | .number a, .number b => a == b
  | .text a, .text b => a == b
  | .list a, .list b => sameItems a b
  | .object a, .object b => sameMembers a b
  | _, _ => false

def sameItems : List Json → List Json → Bool
  | [], [] => true
  | a :: as, b :: bs => same a b && sameItems as bs
  | _, _ => false

def sameMembers : List (String × Json) → List (String × Json) → Bool
  | [], [] => true
  | (m, a) :: as, (n, b) :: bs => m == n && same a b && sameMembers as bs
  | _, _ => false

end

instance : BEq Json := ⟨same⟩

/-- A whole number. -/
def nat (n : Nat) : Json := .number (.whole n)

/-- An object of the members given, the last of equal names. -/
def ofMembers (members : List (String × Json)) : Json :=
  .object (Keyed.ofList members).toList

end Json

end QueryAdmission
