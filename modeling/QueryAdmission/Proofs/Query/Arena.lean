import Mathlib.Logic.Relation
import QueryAdmission.Proofs.Query.Forest

/-! # Places as a tree

A query says by places which field is below which, and nothing in the places themselves keeps them
from going round in circles. They do not, since a field is put behind all others and below one of
them, and stays there. -/

namespace QueryAdmission.Query

/-- The places of the children make a tree below the root, in which no field is before the field
that it is below. -/
structure IsTree (q : Query) : Prop where
  root_lt : root < q.fields.size
  lt_size : ∀ place, ∀ child ∈ q.children place, child < q.fields.size
  /-- A place other than the root is listed once, under a single parent. -/
  parent : ∀ place, place ≠ root → place < q.fields.size →
    ∃ parent, ∀ p, (q.children p).count place = if p = parent then 1 else 0
  lt_child : ∀ place, ∀ child ∈ q.children place, place < child
  ascending : ∀ place, (q.children place).toList.Pairwise (· < ·)
  root_notMem : ∀ place, root ∉ q.children place

def HasChild (q : Query) (place child : Nat) : Prop := child ∈ q.children place

/-- `q.IsWay above place` says that the way from the root to `place`, from each field to one of its
children, passes the places `above`, the last one first. -/
inductive IsWay (q : Query) : List Nat → Nat → Prop where
  | root : IsWay q [] root
  | down {above : List Nat} {place child : Nat} : IsWay q above place → q.HasChild place child →
      IsWay q (place :: above) child

/-! ## Children after a change -/

section

variable {q : Query} {place parent : Nat}

theorem children_eq (q : Query) (place : Nat) :
    q.children place = (q.fields[place]?.map Field.children).getD #[] := by
  rw [children, field?]
  cases q.fields[place]? with
  | none => rfl
  | some f => rfl

theorem children_of_size_le (h : q.fields.size ≤ place) : q.children place = #[] := by
  rw [children_eq, Array.getElem?_eq_none h, Option.map_none, Option.getD_none]

@[simp] theorem children_empty (place : Nat) : empty.children place = #[] := by
  cases place with
  | zero => rfl
  | succ place => exact children_of_size_le (by simp [empty])

theorem children_modify {f : Field → Field} (h : ∀ x, (f x).children = x.children) (p : Nat) :
    (q.modify place f).children p = q.children p := by
  have hcomp : Field.children ∘ f = Field.children := funext h
  rw [children_eq, children_eq, getElem?_modify]
  split
  · rw [Option.map_map, hcomp]
  · rfl

/-- A new field has no children, and becomes the last child of its parent. -/
theorem children_add (hp : parent < q.fields.size) (name : String) (label : Option String)
    (p : Nat) :
    (q.add parent name label).children p =
      if p = parent then (q.children p).push q.fields.size else q.children p := by
  rw [add_eq, modify_push q hp, children_eq, Array.getElem?_push, size_modify]
  by_cases hnew : p = q.fields.size
  · rw [if_pos hnew, if_neg (by omega), children_of_size_le hnew.ge]
    rfl
  · rw [if_neg hnew, getElem?_modify, children_eq]
    by_cases hparent : parent = p
    · subst hparent
      rw [if_pos rfl, if_pos rfl, Array.getElem?_eq_getElem hp]
      rfl
    · rw [if_neg hparent, if_neg (Ne.symm hparent)]

end

/-! ## Changes keep the tree -/

namespace IsTree

variable {q : Query} {parent : Nat}

theorem empty : IsTree empty where
  root_lt := by decide
  lt_size := by simp
  parent := fun _ hne hlt => absurd (Nat.lt_one_iff.mp hlt) hne
  lt_child := by simp
  ascending := by simp
  root_notMem := by simp

theorem modify (h : q.IsTree) (place : Nat) {f : Field → Field}
    (hf : ∀ x, (f x).children = x.children) : (q.modify place f).IsTree where
  root_lt := by simpa using h.root_lt
  lt_size := by simpa [children_modify hf] using h.lt_size
  parent := by simpa [children_modify hf] using h.parent
  lt_child := by simpa [children_modify hf] using h.lt_child
  ascending := by simpa [children_modify hf] using h.ascending
  root_notMem := by simpa [children_modify hf] using h.root_notMem

/-- The children of a field after another one was added: those that were there, and the new one if
it is below that field. -/
theorem mem_children_add (hp : parent < q.fields.size) {name : String} {label : Option String}
    {p child : Nat} :
    child ∈ (q.add parent name label).children p ↔
      child ∈ q.children p ∨ p = parent ∧ child = q.fields.size := by
  rw [children_add hp]
  split
  · rename_i heq
    simp [heq]
  · rename_i hne
    simp [hne]

theorem add (h : q.IsTree) (hp : parent < q.fields.size) (name : String) (label : Option String) :
    (q.add parent name label).IsTree where
  root_lt := by
    rw [size_add]
    exact Nat.lt_succ_of_lt h.root_lt
  lt_size := by
    intro place child hchild
    rw [size_add]
    rcases (mem_children_add hp).mp hchild with hold | ⟨-, rfl⟩
    · exact Nat.lt_succ_of_lt (h.lt_size place child hold)
    · exact Nat.lt_succ_self _
  parent := by
    intro place hne hlt
    rw [size_add] at hlt
    simp only [children_add hp]
    rcases Nat.lt_succ_iff_lt_or_eq.mp hlt with hold | rfl
    · obtain ⟨above, hcount⟩ := h.parent place hne hold
      refine ⟨above, fun p => ?_⟩
      rw [← hcount p]
      split
      · rw [Array.count_push_of_ne (Nat.ne_of_gt hold)]
      · rfl
    · -- The new place is in no list yet.
      have hnone : ∀ p, (q.children p).count q.fields.size = 0 := fun p =>
        Array.count_eq_zero.mpr fun hin => Nat.lt_irrefl _ (h.lt_size p _ hin)
      refine ⟨parent, fun p => ?_⟩
      split
      · rw [Array.count_push_self, hnone]
      · exact hnone p
  lt_child := by
    intro place child hchild
    rcases (mem_children_add hp).mp hchild with hold | ⟨rfl, rfl⟩
    · exact h.lt_child place child hold
    · exact hp
  ascending := by
    intro place
    rw [children_add hp]
    split
    · rw [Array.toList_push, List.pairwise_append]
      refine ⟨h.ascending place, List.pairwise_singleton _ _, fun child hchild new hnew => ?_⟩
      rw [List.mem_singleton.mp hnew]
      exact h.lt_size place child (Array.mem_toList_iff.mp hchild)
    · exact h.ascending place
  root_notMem := by
    intro place hin
    rcases (mem_children_add hp).mp hin with hold | ⟨-, hroot⟩
    · exact h.root_notMem place hold
    · have := h.root_lt
      omega

/-! ## Ways in a tree -/

/-- Whoever goes down does not come back. -/
theorem lt_of_transGen (h : q.IsTree) {place below : Nat}
    (hway : Relation.TransGen q.HasChild place below) : place < below := by
  induction hway with
  | single hchild => exact h.lt_child _ _ hchild
  | tail _ hchild ih => exact Nat.lt_trans ih (h.lt_child _ _ hchild)

theorem lt_size_of_isWay (h : q.IsTree) {above : List Nat} {place : Nat}
    (hway : q.IsWay above place) : place < q.fields.size := by
  cases hway with
  | root => exact h.root_lt
  | down _ hchild => exact h.lt_size _ _ hchild

theorem eq_of_hasChild (h : q.IsTree) {place other child : Nat} (hplace : q.HasChild place child)
    (hother : q.HasChild other child) : place = other := by
  have hne : child ≠ Query.root := fun heq => h.root_notMem place (heq ▸ hplace)
  obtain ⟨parent, hcount⟩ := h.parent child hne (h.lt_size place child hplace)
  have hparent : ∀ p, q.HasChild p child → p = parent := by
    intro p hp
    by_contra hne
    have hzero := hcount p
    rw [if_neg hne] at hzero
    exact Array.count_eq_zero.mp hzero hp
  rw [hparent place hplace, hparent other hother]

theorem exists_parent (h : q.IsTree) {place : Nat} (hne : place ≠ Query.root)
    (hlt : place < q.fields.size) : ∃ parent, q.HasChild parent place := by
  obtain ⟨parent, hcount⟩ := h.parent place hne hlt
  have hone := hcount parent
  rw [if_pos rfl] at hone
  exact ⟨parent, Array.count_pos_iff.mp (by omega)⟩

theorem exists_isWay (h : q.IsTree) {place : Nat} (hlt : place < q.fields.size) :
    ∃ above, q.IsWay above place := by
  induction place using Nat.strong_induction_on with
  | _ place ih =>
  by_cases hroot : place = Query.root
  · exact ⟨[], hroot ▸ .root⟩
  · obtain ⟨parent, hchild⟩ := h.exists_parent hroot hlt
    have hbefore := h.lt_child parent place hchild
    obtain ⟨above, hway⟩ := ih parent hbefore (Nat.lt_trans hbefore hlt)
    exact ⟨parent :: above, hway.down hchild⟩

theorem isWay_unique (h : q.IsTree) {a b : List Nat} {place : Nat} (ha : q.IsWay a place)
    (hb : q.IsWay b place) : a = b := by
  induction ha generalizing b with
  | root =>
      cases hb with
      | root => rfl
      | down _ hchild => exact absurd hchild (h.root_notMem _)
  | down _ hchild ih =>
      cases hb with
      | root => exact absurd hchild (h.root_notMem _)
      | down hway hchild' =>
          obtain rfl := h.eq_of_hasChild hchild hchild'
          rw [ih hway]

theorem existsUnique_isWay (h : q.IsTree) {place : Nat} (hlt : place < q.fields.size) :
    ∃! above, q.IsWay above place := by
  obtain ⟨above, hway⟩ := h.exists_isWay hlt
  exact ⟨above, hway, fun _ hother => h.isWay_unique hother hway⟩

end IsTree

end QueryAdmission.Query
