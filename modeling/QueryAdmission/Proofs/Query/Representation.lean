import QueryAdmission.Proofs.Query.Traversal

/-! # The forest of a query

A query that is a tree shows one forest, and a walk meets the heads of that forest in reading order.
What is measured of a query can therefore be told from its forest, by recursion. -/

namespace QueryAdmission

def Field.head (f : Field) : Head := ⟨f.name, f.label, f.arguments⟩

/-- A field whose answer is wanted under another name than its own. -/
def Head.isRenamed (h : Head) : Bool :=
  match h.label with
  | none => false
  | some label => label != h.name

theorem Head.isRenamed_iff {h : Head} :
    h.isRenamed = true ↔ ∃ label, h.label = some label ∧ label ≠ h.name := by
  obtain ⟨name, label, arguments⟩ := h
  cases label <;> simp [isRenamed]

namespace Query

/-- `q.Shows places forest` says that the fields at `places`, side by side and each with all that is
below it, are those of the forest. -/
inductive Shows (q : Query) : List Nat → Forest → Prop where
  | nil : Shows q [] .nil
  | cons {place : Nat} {places : List Nat} {f : Field} {below rest : Forest} :
      q.field? place = some f → Shows q f.children.toList below → Shows q places rest →
      Shows q (place :: places) (.cons f.head below rest)

/-- A query represents the forest that its fields without a parent show. -/
def Represents (q : Query) (forest : Forest) : Prop := q.Shows q.rootFields.toList forest

section

variable {q r : Query} {places : List Nat} {forest : Forest}

theorem children_of_field?_eq_some {place : Nat} {f : Field} (h : q.field? place = some f) :
    q.children place = f.children := by
  rw [children, h]

theorem getElem!_of_field?_eq_some {place : Nat} {f : Field} (h : q.field? place = some f) :
    q.fields[place]! = f := by
  obtain ⟨hlt, -⟩ := Array.getElem?_eq_some_iff.mp h
  exact Option.some.inj ((field?_eq_some hlt).symm.trans h)

theorem Shows.unique {other : Forest} (h : q.Shows places forest) (ho : q.Shows places other) :
    other = forest := by
  induction h generalizing other with
  | nil =>
      cases ho with
      | nil => rfl
  | cons hfield _ _ ihb ihr =>
      cases ho with
      | cons hfield' hbelow hrest =>
          obtain rfl := Option.some.inj (hfield.symm.trans hfield')
          rw [ihb hbelow, ihr hrest]

theorem exists_shows (h : ∀ place ∈ places, place < q.fields.size ∧
    ∃ below, q.Shows (q.children place).toList below) : ∃ forest, q.Shows places forest := by
  induction places with
  | nil => exact ⟨.nil, .nil⟩
  | cons place places ih =>
      obtain ⟨⟨hplace, below, hbelow⟩, hrest⟩ := List.forall_mem_cons.mp h
      obtain ⟨rest, hrest⟩ := ih hrest
      have hfield := field?_eq_some hplace
      rw [children_of_field?_eq_some hfield] at hbelow
      exact ⟨_, .cons hfield hbelow hrest⟩

theorem IsTree.exists_represents (h : q.IsTree) : ∃ forest, q.Represents forest := by
  have hall : ∀ place, ∃ below, q.Shows (q.children place).toList below := by
    intro place
    induction place using h.induction_below with
    | step place ih =>
    apply exists_shows
    intro child hchild
    have hchild := Array.mem_toList_iff.mp hchild
    exact ⟨h.lt_size place child hchild, ih child hchild⟩
  exact hall root

/-- Fields are shown as before after changes that are all before them. -/
theorem Shows.mono (hs : q.Shows places forest) (hq : q.IsTree) {first : Nat}
    (hfirst : ∀ place ∈ places, first ≤ place)
    (hsame : ∀ place, first ≤ place → place < q.fields.size → r.field? place = q.field? place) :
    r.Shows places forest := by
  induction hs with
  | nil => exact .nil
  | @cons place places f below rest hfield _ _ ihb ihr =>
      obtain ⟨hplace, hrest⟩ := List.forall_mem_cons.mp hfirst
      obtain ⟨hlt, -⟩ := Array.getElem?_eq_some_iff.mp hfield
      refine .cons ((hsame place hplace hlt).trans hfield) (ihb fun child hchild => ?_) (ihr hrest)
      rw [← children_of_field?_eq_some hfield] at hchild
      exact hplace.trans (Nat.le_of_lt (hq.lt_child place child (Array.mem_toList_iff.mp hchild)))

end

/-! ## Forests that were added -/

section

variable {q : Query} {parent : Nat}

theorem IsTree.addHead (h : q.IsTree) (hp : parent < q.fields.size) (head : Head) :
    (q.addHead parent head).IsTree := by
  rw [addHead_eq]
  exact (h.add hp "" none).modify _ fun _ => rfl

theorem field?_addHead (hp : parent < q.fields.size) (head : Head) (place : Nat) :
    (q.addHead parent head).field? place =
      if place = q.fields.size then some ⟨head.name, head.label, head.arguments, #[]⟩
      else if place = parent then (q.field? place).map (·.addChild q.fields.size)
      else q.field? place := by
  rw [addHead_eq, add_eq, modify_push q hp, field?, getElem?_modify, Array.getElem?_push,
    size_modify, getElem?_modify, field?]
  by_cases hnew : place = q.fields.size
  · subst hnew
    simp [Field.withHead]
  · simp only [if_neg hnew, if_neg (Ne.symm hnew), eq_comm (a := parent)]

/-- What a forest leaves that is added below a parent: the fields that were there, the parent with
new children, and at these the forest. -/
structure Adds (q : Query) (parent : Nat) (forest : Forest) (r : Query) : Prop where
  isTree : r.IsTree
  size_le : q.fields.size ≤ r.fields.size
  same : ∀ place, place < q.fields.size → place ≠ parent → r.field? place = q.field? place
  shows : ∃ places : List Nat, (∀ place ∈ places, q.fields.size ≤ place) ∧
    r.field? parent =
      (q.field? parent).map (fun f => { f with children := f.children ++ places.toArray }) ∧
    r.Shows places forest

theorem adds_addForest (h : q.IsTree) (hp : parent < q.fields.size) (forest : Forest) :
    q.Adds parent forest (q.addForest parent forest) := by
  induction forest generalizing q parent with
  | nil =>
      refine ⟨h, Nat.le_refl _, fun _ _ _ => rfl, [], by simp, ?_, .nil⟩
      simp [addForest]
  | cons head below rest ihb ihr =>
      have hne : q.fields.size ≠ parent := by omega
      have hsize := size_addHead q parent head
      have hnew : q.fields.size < (q.addHead parent head).fields.size := by omega
      have hb := ihb (h.addHead hp head) hnew
      have hlt : parent < ((q.addHead parent head).addForest q.fields.size below).fields.size := by
        have := hb.size_le
        omega
      have hr := ihr hb.isTree hlt
      obtain ⟨placesb, hafterb, hfieldb, hshowsb⟩ := hb.shows
      obtain ⟨placesr, hafterr, hfieldr, hshowsr⟩ := hr.shows
      rw [addForest]
      refine ⟨hr.isTree, ?_, fun place hplace hother => ?_, q.fields.size :: placesr, ?_, ?_, ?_⟩
      · have := hb.size_le
        have := hr.size_le
        omega
      · have hold : place ≠ q.fields.size := by omega
        have hbound := hb.size_le
        rw [hr.same place (by omega) hother, hb.same place (by omega) hold,
          field?_addHead hp, if_neg hold, if_neg hother]
      · refine List.forall_mem_cons.mpr ⟨Nat.le_refl _, fun place hin => ?_⟩
        have := hb.size_le
        have := hafterr place hin
        omega
      · rw [hfieldr, hb.same parent (by omega) hne.symm, field?_addHead hp, if_neg hne.symm,
          if_pos rfl, Option.map_map]
        apply Option.map_congr
        intro f _
        simp [Field.addChild]
      · -- What is shown below the new field is behind it, and nothing there changes any more.
        have hbound := hb.size_le
        have hfield := hfieldb
        rw [field?_addHead hp, if_pos rfl, Option.map_some,
          ← hr.same q.fields.size (by omega) hne] at hfield
        refine .cons hfield ?_ hshowsr
        rw [Array.empty_append]
        refine hshowsb.mono hb.isTree hafterb fun place hplace hlt => ?_
        exact hr.same place hlt (by omega)

theorem adds_ofForest (forest : Forest) : empty.Adds root forest (ofForest forest) :=
  adds_addForest .empty IsTree.empty.root_lt forest

theorem isTree_ofForest (forest : Forest) : (ofForest forest).IsTree := (adds_ofForest forest).isTree

/-- A query to which the fields of a forest were added represents it. -/
theorem represents_ofForest (forest : Forest) : (ofForest forest).Represents forest := by
  obtain ⟨places, -, hfield, hshows⟩ := (adds_ofForest forest).shows
  have hempty : empty.field? root = some ⟨"", none, ∅, #[]⟩ := rfl
  rw [hempty, Option.map_some] at hfield
  rw [Represents, rootFields, children_of_field?_eq_some hfield]
  simpa using hshows

end

end Query

/-! ## Heads in reading order -/

/-- The heads of a forest below a field at some depth, each with its own depth, in reading order. -/
def Forest.visits (depth : Nat) : Forest → List (Nat × Head)
  | .nil => []
  | .cons head below rest => (depth + 1, head) :: below.visits (depth + 1) ++ rest.visits depth

namespace Query

variable {q : Query}

theorem IsTree.map_below_eq_visits (h : q.IsTree) {places : List Nat} {forest : Forest}
    (hs : q.Shows places forest) (depth : Nat) :
    (places.flatMap fun place =>
      ⟨place, depth + 1, q.fields[place]!⟩ :: h.below (depth + 1) place).map
        (fun v : Visit => (v.depth, v.field.head)) = forest.visits depth := by
  induction hs generalizing depth with
  | nil => rfl
  | @cons place places f below rest hfield _ _ ihb ihr =>
      rw [List.flatMap_cons, List.map_append, ihr, List.map_cons, below_eq,
        children_of_field?_eq_some hfield, ihb, getElem!_of_field?_eq_some hfield, Forest.visits]

/-- A walk meets the heads of the forest in reading order. -/
theorem IsTree.map_preorder (h : q.IsTree) {forest : Forest} (hf : q.Represents forest) :
    q.preorder.map (fun v => (v.depth, v.field.head)) = forest.visits 0 := by
  rw [h.preorder_eq, below_eq]
  exact h.map_below_eq_visits hf 0

end Query

end QueryAdmission
