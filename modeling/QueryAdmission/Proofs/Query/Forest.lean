import QueryAdmission.Proofs.Keyed
import QueryAdmission.Query.Basic

/-! # Queries as forests

A forest says what is asked for without places. Added to a query in reading order, each field goes
to the end and gets its arguments one by one, before the fields below it are added. A field whose
head is set after its children have been added ends up the same. -/

namespace QueryAdmission

/-- What a field says of itself, apart from its children. -/
structure Head where
  name : String
  label : Option String := none
  arguments : Keyed Json := ∅

/-- Fields side by side: the first one, those below it and those after it. -/
inductive Forest where
  | nil
  | cons (head : Head) (below rest : Forest)

namespace Forest

protected def append : Forest → Forest → Forest
  | .nil, b => b
  | .cons head below rest, b => .cons head below (rest.append b)

instance : Append Forest := ⟨Forest.append⟩

@[simp] theorem nil_append (b : Forest) : Forest.nil ++ b = b := rfl

@[simp] theorem cons_append (head : Head) (below rest b : Forest) :
    Forest.cons head below rest ++ b = .cons head below (rest ++ b) := rfl

@[simp] theorem append_nil (a : Forest) : a ++ Forest.nil = a := by
  induction a with
  | nil => rfl
  | cons head below rest _ ih => rw [cons_append, ih]

end Forest

/-- The field with its head replaced. -/
def Field.withHead (f : Field) (h : Head) : Field :=
  { f with name := h.name, label := h.label, arguments := h.arguments }

def Field.addChild (f : Field) (place : Nat) : Field :=
  { f with children := f.children.push place }

namespace Query

/-! ## Changes of single fields -/

theorem ext_getElem? {q r : Query} (h : ∀ n : Nat, q.fields[n]? = r.fields[n]?) : q = r := by
  cases q
  cases r
  exact congrArg Query.mk (Array.ext_getElem? h)

theorem getElem?_modify (q : Query) (place : Nat) (f : Field → Field) (n : Nat) :
    (q.modify place f).fields[n]? = if place = n then q.fields[n]?.map f else q.fields[n]? := by
  rw [modify, Array.getElem?_modify]

@[simp] theorem size_modify (q : Query) (place : Nat) (f : Field → Field) :
    (q.modify place f).fields.size = q.fields.size := Array.size_modify

theorem modify_modify (q : Query) (place : Nat) (f g : Field → Field) :
    (q.modify place f).modify place g = q.modify place fun x => g (f x) := by
  apply ext_getElem?
  intro n
  simp only [getElem?_modify]
  split
  · rw [Option.map_map]; rfl
  · rfl

theorem modify_self (q : Query) (place : Nat) : q.modify place (fun f => f) = q := by
  apply ext_getElem?
  intro n
  simp [getElem?_modify]

/-- Changes can be made in either order if they are of different fields or do not see each
other. -/
theorem modify_comm (q : Query) {a b : Nat} {f g : Field → Field}
    (h : a = b → ∀ x, f (g x) = g (f x)) :
    (q.modify a f).modify b g = (q.modify b g).modify a f := by
  apply ext_getElem?
  intro n
  simp only [getElem?_modify]
  by_cases ha : a = n <;> by_cases hb : b = n <;> simp [ha, hb]
  simp [Function.comp_def, h (ha.trans hb.symm)]

/-- Fields that are there already do not see one that is put behind them. -/
theorem modify_push (q : Query) {place : Nat} (h : place < q.fields.size) (x : Field)
    (f : Field → Field) :
    (Query.mk (q.fields.push x)).modify place f = ⟨(q.modify place f).fields.push x⟩ := by
  apply ext_getElem?
  intro n
  simp only [getElem?_modify, Array.getElem?_push, size_modify]
  by_cases hp : place = n
  · subst hp
    simp [Nat.ne_of_lt h]
  · simp only [if_neg hp]

theorem modify_push_self (q : Query) (x : Field) (f : Field → Field) :
    (Query.mk (q.fields.push x)).modify q.fields.size f = ⟨q.fields.push (f x)⟩ := by
  apply ext_getElem?
  intro n
  simp only [getElem?_modify, Array.getElem?_push]
  by_cases hn : n = q.fields.size
  · simp [hn]
  · simp [hn, Ne.symm hn]

@[simp] theorem size_add (q : Query) (parent : Nat) (name : String) (label : Option String) :
    (q.add parent name label).fields.size = q.fields.size + 1 := by
  simp [add]

/-! ## Adding forests -/

/-- Adds a field, then sets its arguments one after the other. -/
def addHead (q : Query) (parent : Nat) (h : Head) : Query :=
  h.arguments.toList.foldl (fun q' e => q'.setArgument q.fields.size e.1 e.2)
    (q.add parent h.name h.label)

/-- Adds fields in reading order as children of `parent`. -/
def addForest (q : Query) (parent : Nat) : Forest → Query
  | .nil => q
  | .cons h below rest =>
    ((q.addHead parent h).addForest q.fields.size below).addForest parent rest

/-- The query that asks for what a forest says. -/
def ofForest (f : Forest) : Query := empty.addForest root f

theorem foldl_setArgument (q : Query) (place : Nat) (entries : List (String × Json)) :
    entries.foldl (fun q' e => q'.setArgument place e.1 e.2) q =
      q.modify place fun f => { f with arguments := f.arguments.insertAll entries } := by
  induction entries generalizing q with
  | nil => exact (modify_self q place).symm
  | cons e entries ih =>
      rw [List.foldl_cons, ih, setArgument, modify_modify]
      rfl

theorem add_eq (q : Query) (parent : Nat) (name : String) (label : Option String) :
    q.add parent name label =
      (Query.mk (q.fields.push { name, label })).modify parent (·.addChild q.fields.size) := rfl

/-- A field can be added without a name and get its head later. -/
theorem addHead_eq (q : Query) (parent : Nat) (h : Head) :
    q.addHead parent h = (q.add parent "" none).modify q.fields.size (·.withHead h) := by
  rw [addHead, foldl_setArgument, add_eq, add_eq, modify_comm (a := parent),
    modify_comm (a := parent), modify_push_self, modify_push_self]
  · simp only [Field.withHead, Keyed.insertAll_toList]
  · exact fun _ _ => rfl
  · exact fun _ _ => rfl

@[simp] theorem size_addHead (q : Query) (parent : Nat) (h : Head) :
    (q.addHead parent h).fields.size = q.fields.size + 1 := by
  rw [addHead_eq, size_modify, size_add]

theorem size_le_addForest (q : Query) (parent : Nat) (f : Forest) :
    q.fields.size ≤ (q.addForest parent f).fields.size := by
  induction f generalizing q parent with
  | nil => exact Nat.le_refl _
  | cons h below rest ihb ihr =>
      have hb := ihb (q.addHead parent h) q.fields.size
      have hr := ihr ((q.addHead parent h).addForest q.fields.size below) parent
      rw [size_addHead] at hb
      rw [addForest]
      omega

theorem addForest_append (q : Query) (parent : Nat) (a b : Forest) :
    q.addForest parent (a ++ b) = (q.addForest parent a).addForest parent b := by
  induction a generalizing q with
  | nil => rfl
  | cons h below rest _ ihr =>
      rw [Forest.cons_append, addForest, addForest, ihr]

/-! ## Replacing heads -/

theorem modify_add (q : Query) {place : Nat} (hp : place < q.fields.size) (parent : Nat)
    (name : String) (label : Option String) (h : Head) :
    (q.add parent name label).modify place (·.withHead h) =
      (q.modify place (·.withHead h)).add parent name label := by
  rw [add_eq, add_eq, modify_comm (a := parent), modify_push q hp, size_modify]
  exact fun _ _ => rfl

theorem modify_addHead (q : Query) {place : Nat} (hp : place < q.fields.size) (parent : Nat)
    (g h : Head) :
    (q.addHead parent g).modify place (·.withHead h) =
      (q.modify place (·.withHead h)).addHead parent g := by
  have hne : q.fields.size = place → ∀ f : Field,
      (f.withHead h).withHead g = (f.withHead g).withHead h := fun he => by omega
  rw [addHead_eq, addHead_eq, ← modify_add q hp, size_modify,
    modify_comm _ hne]

/-- The head of a field that is there already can be replaced before or after others are added,
among them children of its own. -/
theorem modify_addForest (q : Query) {place : Nat} (hp : place < q.fields.size) (parent : Nat)
    (f : Forest) (h : Head) :
    (q.addForest parent f).modify place (·.withHead h) =
      (q.modify place (·.withHead h)).addForest parent f := by
  induction f generalizing q parent with
  | nil => rfl
  | cons g below rest ihb ihr =>
      have hb : place < (q.addHead parent g).fields.size := by
        rw [size_addHead]
        omega
      have hr := Nat.lt_of_lt_of_le hb (size_le_addForest _ q.fields.size below)
      rw [addForest, addForest, ihr _ hr, ihb _ hb, modify_addHead q hp, size_modify]

end Query

end QueryAdmission
