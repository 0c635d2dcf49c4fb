import QueryAdmission.Query.Preorder

/-! Measurements of a query. -/

namespace QueryAdmission

/-- The extent of a query. -/
structure Shape where
  /-- The number of fields on the longest way down. -/
  depth : Nat
  fields : Nat
  rootFields : Nat
  /-- Fields whose answers are wanted under other names. -/
  aliases : Nat
  /-- Requests for fields with sensitive names. -/
  sensitiveFields : Nat
  deriving DecidableEq, Repr

namespace Shape

/-- The shape after one more field. -/
def observe (sensitive : List String) (s : Shape) (v : Visit) : Shape where
  depth := max s.depth v.depth
  fields := s.fields + 1
  rootFields := s.rootFields
  aliases := if v.field.isRenamed then s.aliases + 1 else s.aliases
  sensitiveFields :=
    if sensitive.contains v.field.name then s.sensitiveFields + 1 else s.sensitiveFields

/-- Measures a query in one walk. -/
def ofQuery (sensitive : List String) (q : Query) : Shape :=
  q.preorder.foldl (observe sensitive) ⟨0, 0, q.rootFields.size, 0, 0⟩

def toJson (s : Shape) : Json :=
  .ofMembers [("max_depth", .nat s.depth), ("total_fields", .nat s.fields),
    ("root_fields", .nat s.rootFields), ("alias_count", .nat s.aliases),
    ("sensitive_field_count", .nat s.sensitiveFields)]

end Shape

/-- All that is measured of a query: its shape and what it costs. -/
structure Analysis where
  shape : Shape
  cost : Nat
  deriving DecidableEq, Repr

def Analysis.toJson (a : Analysis) : Json :=
  .ofMembers [("metrics", a.shape.toJson), ("complexity", .nat a.cost)]

end QueryAdmission
