import Mathlib.Data.List.Nodup
import Mathlib.Data.List.Perm.Subperm
import Mathlib.Data.List.Range
import QueryAdmission.Proofs.Query.Building
import QueryAdmission.Query.Preorder

/-! # Reading order

A walk keeps the places still to be visited on a stack. In a tree that is the same as visiting each
field and then, one child after the other, all that is below it. -/

namespace QueryAdmission.Query

variable {q : Query}

/-- A visit of a field that is there, as deep as the way to it is long. -/
structure IsVisit (q : Query) (v : Visit) : Prop where
  ne_root : v.place ≠ root
  field : q.field? v.place = some v.field
  depth : ∃ above, q.IsWay above v.place ∧ v.depth = above.length

theorem field?_eq_some {place : Nat} (h : place < q.fields.size) :
    q.field? place = some q.fields[place]! := by
  rw [field?, Array.getElem?_eq_getElem h, getElem!_pos q.fields place h]

namespace IsTree

/-! ## The recursive traversal -/

/-- What holds of a place if it holds of its children holds of all places, since every way down
ends. -/
theorem induction_below (h : q.IsTree) {motive : Nat → Prop}
    (step : ∀ place, (∀ child, q.HasChild place child → motive child) → motive place)
    (place : Nat) : motive place := by
  induction hleft : q.fields.size - place using Nat.strong_induction_on generalizing place with
  | _ left ih =>
  apply step
  intro child hchild
  have hafter := h.lt_child place child hchild
  have hlt := h.lt_size place child hchild
  exact ih (q.fields.size - child) (by omega) child rfl

/-- What is below a place that is itself at some depth: each child, and after it all that is below
the child, before the next child. -/
def below (h : q.IsTree) (depth place : Nat) : List Visit :=
  (q.children place).toList.attach.flatMap fun ⟨child, _⟩ =>
    ⟨child, depth + 1, q.fields[child]!⟩ :: h.below (depth + 1) child
termination_by q.fields.size - place
decreasing_by
  rename_i hchild
  have hin := Array.mem_toList_iff.mp hchild
  have hafter := h.lt_child place child hin
  have hlt := h.lt_size place child hin
  omega

variable {depth place : Nat} {v : Visit}

theorem below_eq (h : q.IsTree) (depth place : Nat) :
    h.below depth place = (q.children place).toList.flatMap fun child =>
      ⟨child, depth + 1, q.fields[child]!⟩ :: h.below (depth + 1) child := by
  rw [below]
  simp only [List.flatMap_subtype, List.unattach_attach]

theorem mem_below (h : q.IsTree) :
    v ∈ h.below depth place ↔ ∃ child, q.HasChild place child ∧
      (v = ⟨child, depth + 1, q.fields[child]!⟩ ∨ v ∈ h.below (depth + 1) child) := by
  rw [below_eq]
  simp only [List.mem_flatMap, Array.mem_toList_iff, List.mem_cons, HasChild]

/-! ### Every field is visited -/

/-- From every place that ways lead to, only such places are visited. -/
theorem isVisit_of_mem_below (h : q.IsTree) (hv : v ∈ h.below depth place)
    (hway : ∃ above, q.IsWay above place ∧ depth = above.length) : q.IsVisit v := by
  induction place using h.induction_below generalizing depth with
  | step place ih =>
  obtain ⟨child, hchild, hcase⟩ := h.mem_below.mp hv
  obtain ⟨above, hplace, rfl⟩ := hway
  have hdown : q.IsWay (place :: above) child := hplace.down hchild
  rcases hcase with rfl | hbelow
  · exact ⟨fun hroot => h.root_notMem place (hroot ▸ hchild),
      field?_eq_some (h.lt_size place child hchild), _, hdown, rfl⟩
  · exact ih child hchild hbelow ⟨_, hdown, rfl⟩

theorem mem_below_of_hasChild (h : q.IsTree) (hv : v ∈ h.below depth place) {child : Nat}
    (hchild : q.HasChild v.place child) :
    ⟨child, v.depth + 1, q.fields[child]!⟩ ∈ h.below depth place := by
  induction place using h.induction_below generalizing depth with
  | step place ih =>
  obtain ⟨first, hfirst, hcase⟩ := h.mem_below.mp hv
  refine h.mem_below.mpr ⟨first, hfirst, .inr ?_⟩
  rcases hcase with rfl | hbelow
  · exact h.mem_below.mpr ⟨child, hchild, .inl rfl⟩
  · exact ih first hfirst hbelow

theorem mem_below_of_isWay (h : q.IsTree) {above : List Nat} (hway : q.IsWay above place)
    (hne : place ≠ root) : ⟨place, above.length, q.fields[place]!⟩ ∈ h.below 0 root := by
  induction hway with
  | root => exact absurd rfl hne
  | @down above parent child hparent hchild ih =>
      by_cases hroot : parent = root
      · subst hroot
        rw [h.isWay_unique hparent .root]
        exact h.mem_below.mpr ⟨child, hchild, .inl rfl⟩
      · exact h.mem_below_of_hasChild (ih hroot) hchild

theorem mem_below_root (h : q.IsTree) : v ∈ h.below 0 root ↔ q.IsVisit v := by
  constructor
  · intro hv
    exact h.isVisit_of_mem_below hv ⟨[], .root, rfl⟩
  · rintro ⟨hne, hfield, above, hway, hdepth⟩
    have hv : v = ⟨v.place, above.length, q.fields[v.place]!⟩ := by
      rw [field?_eq_some (h.lt_size_of_isWay hway), Option.some_inj] at hfield
      rw [hfield, ← hdepth]
    rw [hv]
    exact h.mem_below_of_isWay hway hne

/-! ### No field is visited twice -/

theorem transGen_of_mem_below (h : q.IsTree) (hv : v ∈ h.below depth place) :
    Relation.TransGen q.HasChild place v.place := by
  induction place using h.induction_below generalizing depth with
  | step place ih =>
  obtain ⟨child, hchild, hcase⟩ := h.mem_below.mp hv
  rcases hcase with rfl | hbelow
  · exact .single hchild
  · exact .head hchild (ih child hchild hbelow)

/-- Ways through two children of one place do not meet. -/
theorem eq_of_reflTransGen (h : q.IsTree) {a b : Nat} (ha : q.HasChild place a)
    (hb : q.HasChild place b) {below : Nat} (hway : Relation.ReflTransGen q.HasChild a below)
    (hother : Relation.ReflTransGen q.HasChild b below) : a = b := by
  have hback : ∀ {c : Nat}, q.HasChild place c → ¬ Relation.ReflTransGen q.HasChild c place := by
    intro c hc hway
    exact Nat.lt_irrefl place (h.lt_of_transGen (.head' hc hway))
  induction hway with
  | refl =>
      cases hother with
      | refl => rfl
      | tail hother hlast => exact absurd (h.eq_of_hasChild ha hlast ▸ hother) (hback hb)
  | tail hway hlast ih =>
      cases hother with
      | refl => exact absurd (h.eq_of_hasChild hb hlast ▸ hway) (hback ha)
      | tail hother hlast' => exact ih (h.eq_of_hasChild hlast hlast' ▸ hother)

theorem nodup_below (h : q.IsTree) (depth place : Nat) :
    ((h.below depth place).map Visit.place).Nodup := by
  induction place using h.induction_below generalizing depth with
  | step place ih =>
  rw [below_eq, List.map_flatMap, List.nodup_flatMap]
  have hreach : ∀ child below,
      below ∈ ((⟨child, depth + 1, q.fields[child]!⟩ :: h.below (depth + 1) child).map
        Visit.place) → Relation.ReflTransGen q.HasChild child below := by
    intro child below hin
    rcases List.mem_cons.mp hin with rfl | hin
    · exact .refl
    · obtain ⟨v, hv, rfl⟩ := List.mem_map.mp hin
      exact (h.transGen_of_mem_below hv).to_reflTransGen
  constructor
  · intro child hin
    rw [List.map_cons, List.nodup_cons]
    refine ⟨fun hself => ?_, ih child (Array.mem_toList_iff.mp hin) (depth + 1)⟩
    obtain ⟨v, hv, hplace⟩ := List.mem_map.mp hself
    have hbefore := h.lt_of_transGen (h.transGen_of_mem_below hv)
    exact Nat.ne_of_gt hbefore hplace
  · refine (h.ascending place).imp_of_mem fun {a b} ha hb hlt => ?_
    intro below hina hinb
    have heq := h.eq_of_reflTransGen (Array.mem_toList_iff.mp ha) (Array.mem_toList_iff.mp hb)
      (hreach a below hina) (hreach b below hinb)
    exact Nat.ne_of_lt hlt heq

/-- All places but the root are visited, each once. -/
theorem perm_places_below (h : q.IsTree) :
    ((h.below 0 root).map Visit.place).Perm (List.range' 1 q.fieldCount) := by
  rw [List.perm_ext_iff_of_nodup (h.nodup_below 0 root) List.nodup_range']
  intro place
  have hsize := h.root_lt
  rw [List.mem_range'_1, fieldCount]
  constructor
  · intro hin
    obtain ⟨v, hv, rfl⟩ := List.mem_map.mp hin
    obtain ⟨hne, -, above, hway, -⟩ := h.mem_below_root.mp hv
    have hlt := h.lt_size_of_isWay hway
    rw [root] at hne
    omega
  · intro hbounds
    have hne : place ≠ root := by
      rw [root]
      omega
    obtain ⟨above, hway⟩ := h.exists_isWay (show place < q.fields.size by omega)
    exact List.mem_map.mpr ⟨_, h.mem_below_of_isWay hway hne, rfl⟩

/-- The fields that are visited are all but the root. -/
theorem perm_fields_below (h : q.IsTree) :
    ((h.below 0 root).map Visit.field).Perm (q.fields.toList.drop 1) := by
  have hfields : (h.below 0 root).map Visit.field =
      ((h.below 0 root).map Visit.place).map (q.fields[·]!) := by
    rw [List.map_map]
    apply List.map_congr_left
    intro v hv
    obtain ⟨-, hfield, above, hway, -⟩ := h.mem_below_root.mp hv
    rw [field?_eq_some (h.lt_size_of_isWay hway), Option.some_inj] at hfield
    exact hfield.symm
  have hrange : (List.range' 1 q.fieldCount).map (q.fields[·]!) = q.fields.toList.drop 1 := by
    apply List.ext_getElem
    · simp [fieldCount]
    · intro i hi _
      rw [List.length_map, List.length_range', fieldCount] at hi
      simp [getElem!_pos q.fields (i + 1) (by omega), Nat.add_comm 1 i]
  rw [hfields, ← hrange]
  exact h.perm_places_below.map _

theorem length_le_of_isWay (h : q.IsTree) {above : List Nat} (hway : q.IsWay above place) :
    above.length ≤ place := by
  induction hway with
  | root => exact Nat.zero_le _
  | @down above parent child _ hchild ih =>
      exact Nat.lt_of_le_of_lt ih (h.lt_child parent child hchild)

/-- No field is deeper than there are fields. -/
theorem depth_le_of_mem_below (h : q.IsTree) (hv : v ∈ h.below 0 root) :
    v.depth ≤ q.fieldCount := by
  obtain ⟨-, -, above, hway, hdepth⟩ := h.mem_below_root.mp hv
  have hlength := h.length_le_of_isWay hway
  have hlt := h.lt_size_of_isWay hway
  rw [fieldCount]
  omega

theorem length_below (h : q.IsTree) : (h.below 0 root).length = q.fieldCount := by
  have hlength := h.perm_places_below.length_eq
  rwa [List.length_map, List.length_range'] at hlength

/-! ## The walk -/

theorem pushChildren_eq (children : Array Nat) (depth : Nat) (todo : List (Nat × Nat)) :
    pushChildren children depth todo = children.toList.map (·, depth) ++ todo := by
  rw [pushChildren, ← Array.foldr_toList, List.foldr_cons_eq_append]

/-- What is to be visited as long as places are on the stack. -/
def pending (h : q.IsTree) (todo : List (Nat × Nat)) : List Visit :=
  todo.flatMap fun (place, depth) => ⟨place, depth, q.fields[place]!⟩ :: h.below depth place

/-- To put the children of a place on the stack is to put all that is below the place before what
was to be visited. -/
theorem pending_pushChildren (h : q.IsTree) (depth place : Nat) (todo : List (Nat × Nat)) :
    h.pending (pushChildren (q.children place) (depth + 1) todo) =
      h.below depth place ++ h.pending todo := by
  rw [pushChildren_eq, pending, List.flatMap_append, List.flatMap_map, below_eq]
  rfl

/-- However many rounds there are, each visits the next of what is to be visited. -/
theorem visit_eq (h : q.IsTree) (rounds : Nat) {todo : List (Nat × Nat)}
    (htodo : ∀ entry ∈ todo, entry.1 < q.fields.size) (done : List Visit) :
    q.visit rounds todo done = done.reverse ++ (h.pending todo).take rounds := by
  induction rounds generalizing todo done with
  | zero => simp [visit]
  | succ rounds ih =>
      cases todo with
      | nil => simp [visit, pending]
      | cons entry todo =>
          obtain ⟨place, depth⟩ := entry
          obtain ⟨hplace, hrest⟩ := List.forall_mem_cons.mp htodo
          have hfield := field?_eq_some hplace
          have hchildren : q.children place = q.fields[place]!.children := by
            rw [children, hfield]
          have hnext : ∀ entry ∈ pushChildren (q.children place) (depth + 1) todo,
              entry.1 < q.fields.size := by
            intro entry hin
            rw [pushChildren_eq, List.mem_append, List.mem_map] at hin
            rcases hin with ⟨child, hchild, rfl⟩ | hin
            · exact h.lt_size place child (Array.mem_toList_iff.mp hchild)
            · exact hrest entry hin
          rw [visit, hfield]
          dsimp only
          rw [← hchildren, ih hnext, pending_pushChildren]
          simp [pending]

theorem visit_rootFields (h : q.IsTree) (rounds : Nat) :
    q.visit rounds (pushChildren q.rootFields 1 []) [] = (h.below 0 root).take rounds := by
  have htodo : ∀ entry ∈ pushChildren q.rootFields 1 [], entry.1 < q.fields.size := by
    intro entry hin
    rw [pushChildren_eq, List.append_nil, List.mem_map] at hin
    obtain ⟨child, hchild, rfl⟩ := hin
    exact h.lt_size root child (Array.mem_toList_iff.mp hchild)
  rw [h.visit_eq rounds htodo, rootFields, h.pending_pushChildren 0 root]
  simp [pending]

theorem preorder_eq (h : q.IsTree) : q.preorder = h.below 0 root := by
  rw [preorder, h.visit_rootFields, ← h.length_below, List.take_length]

theorem length_preorder (h : q.IsTree) : q.preorder.length = q.fieldCount := by
  rw [h.preorder_eq, h.length_below]

/-- No field has more children than there are fields. -/
theorem size_children_le (h : q.IsTree) (place : Nat) :
    (q.children place).size ≤ q.fieldCount := by
  have hnodup : (q.children place).toList.Nodup := (h.ascending place).imp Nat.ne_of_lt
  have hsubset : (q.children place).toList ⊆ List.range' 1 q.fieldCount := by
    intro child hin
    have hchild := Array.mem_toList_iff.mp hin
    have hlt := h.lt_size place child hchild
    have hafter := h.lt_child place child hchild
    rw [List.mem_range'_1, fieldCount]
    omega
  have hle := (List.Nodup.subperm hnodup hsubset).length_le
  rwa [List.length_range', Array.length_toList] at hle

end IsTree

/-- How many fields have a name. -/
def occurrences (q : Query) (name : String) : Nat :=
  (q.fields.toList.drop 1).countP (·.name == name)

/-- Fields are counted by what a walk meets. -/
theorem IsTree.countP_preorder (h : q.IsTree) (p : Field → Bool) :
    q.preorder.countP (fun v => p v.field) = (q.fields.toList.drop 1).countP p := by
  rw [← h.perm_fields_below.countP_eq, List.countP_map, h.preorder_eq]
  rfl

/-- However a query has come about, a walk through it ends after as many visits as there are fields,
and meets what the recursive traversal meets, in the same order: every place but the root once, with
the field that is there, as deep as the way to it is long. -/
theorem preorder_of_arises {n : Nat} (h : q.Arises n) (hn : n < UInt32.size) :
    ∃ htree : q.IsTree,
      (∀ rounds, q.visit rounds (pushChildren q.rootFields 1 []) [] =
        (htree.below 0 root).take rounds) ∧
      q.preorder = htree.below 0 root ∧
      q.preorder.length = q.fieldCount ∧ q.fieldCount = n ∧
      (q.preorder.map Visit.place).Perm (List.range' 1 q.fieldCount) ∧
      ∀ v ∈ q.preorder, v.place ≠ root ∧ q.field? v.place = some v.field ∧
        (∃ above, q.IsWay above v.place ∧ v.depth = above.length) ∧ v.depth < UInt32.size := by
  obtain ⟨htree, -, -, -, hcount⟩ := isTree_of_arises h
  refine ⟨htree, htree.visit_rootFields, htree.preorder_eq, ?_⟩
  rw [htree.preorder_eq]
  refine ⟨htree.length_below, hcount, htree.perm_places_below, fun v hv => ?_⟩
  obtain ⟨hne, hfield, hdepth⟩ := htree.mem_below_root.mp hv
  have hle := htree.depth_le_of_mem_below hv
  exact ⟨hne, hfield, hdepth, by omega⟩

/-- A field that is added below the first one after the second one is met before the second one. -/
theorem preorder_of_arises_late :
    let edits : List Edit := [.add root "a" none, .add root "b" (some "x"), .add 1 "c" none,
      .setArgument 2 "k" (.nat 2), .add 3 "d" none]
    let q := empty.edit edits
    empty.Permits [root] edits ∧ edits.countP Edit.isAdd < UInt32.size ∧
      (∃ htree : q.IsTree, q.preorder = htree.below 0 root) ∧ q.preorder.length = 4 ∧
      q.preorder.map (fun v => (v.place, v.depth)) = [(1, 1), (3, 2), (4, 3), (2, 1)] := by
  intro edits q
  have hedits : empty.Permits [root] edits := by decide
  have hsmall : edits.countP Edit.isAdd < UInt32.size := by decide
  obtain ⟨htree, -, hwalk, hlength, hcount, -⟩ := preorder_of_arises (.edits hedits) hsmall
  exact ⟨hedits, hsmall, ⟨htree, hwalk⟩, hlength.trans hcount, by decide +kernel⟩

end QueryAdmission.Query
