import QueryAdmission.Json.Value

/-! Queries: trees of requested fields.

The fields stand in the order in which they were added, and each names its children by their
places. Place 0 holds the root, which stands for the query itself and is not counted as a field. -/

namespace QueryAdmission

/-- One request for a field. The label is the name under which its answer is wanted. -/
structure Field where
  name : String
  label : Option String := none
  arguments : Keyed Json := ∅
  children : Array Nat := #[]
  deriving BEq, Inhabited

/-- A field whose answer is wanted under another name than its own. -/
def Field.isRenamed (f : Field) : Bool :=
  match f.label with
  | none => false
  | some label => label != f.name

structure Query where
  fields : Array Field
  deriving BEq

namespace Query

/-- The place of the root. -/
def root : Nat := 0

/-- The query that asks for nothing. -/
def empty : Query := ⟨#[⟨"", none, ∅, #[]⟩]⟩

instance : Inhabited Query := ⟨empty⟩

/-- How many fields are requested. -/
def fieldCount (q : Query) : Nat := q.fields.size - 1

/-- The field at a place. -/
def field? (q : Query) (place : Nat) : Option Field := q.fields[place]?

/-- The places of a field's children. -/
def children (q : Query) (place : Nat) : Array Nat :=
  match q.field? place with
  | none => #[]
  | some f => f.children

/-- The places of the fields that are no other field's children. -/
def rootFields (q : Query) : Array Nat := q.children root

/-- Changes the field at a place. -/
def modify (q : Query) (place : Nat) (f : Field → Field) : Query := ⟨q.fields.modify place f⟩

/-- The query with one field more, the last child of `parent`. Its place is `q.fields.size`. -/
def add (q : Query) (parent : Nat) (name : String) (label : Option String) : Query :=
  let place := q.fields.size
  modify ⟨q.fields.push ⟨name, label, ∅, #[]⟩⟩ parent
    fun f => { f with children := f.children.push place }

/-- Sets one argument of the field at a place. -/
def setArgument (q : Query) (place : Nat) (name : String) (value : Json) : Query :=
  q.modify place fun f => { f with arguments := f.arguments.insert name value }

end Query

end QueryAdmission
