import QueryAdmission.Query.Basic

/-! The fields of a query in reading order: each field before its children, and all below a field
before the field's next sibling. -/

namespace QueryAdmission

/-- A field as a walk through the query meets it. Fields without a parent are at depth 1. -/
structure Visit where
  place : Nat
  depth : Nat
  field : Field
  deriving Inhabited

namespace Query

/-- Puts the children of a field in front of the places still to be visited. -/
def pushChildren (children : Array Nat) (depth : Nat) (todo : List (Nat × Nat)) :
    List (Nat × Nat) :=
  children.foldr (fun child rest => (child, depth) :: rest) todo

/-- Visits the places of `todo`, each with all below it, and puts the visits behind those of
`done`, which has the last one first. Every round visits one field, so the rounds that a query has
fields for are enough. -/
def visit (q : Query) : (rounds : Nat) → (todo : List (Nat × Nat)) → (done : List Visit) →
    List Visit
  | 0, _, done => done.reverse
  | _, [], done => done.reverse
  | rounds + 1, (place, depth) :: todo, done =>
    match q.field? place with
    | none => q.visit rounds todo done
    | some f =>
      q.visit rounds (pushChildren f.children (depth + 1) todo) (⟨place, depth, f⟩ :: done)

/-- All fields in reading order. -/
def preorder (q : Query) : List Visit :=
  q.visit q.fieldCount (pushChildren q.rootFields 1 []) []

end Query

end QueryAdmission
