import QueryAdmission.Proofs.Query.Reachable
import QueryAdmission.Proofs.Query.Representation

/-! # Where a new field is met

A new field is put behind all others, but a walk meets it in the middle: after all that is below its
parent. All other fields are met in the order in which they were met before. -/

namespace QueryAdmission

/-- The field with one argument set. -/
def Field.setArgument (f : Field) (name : String) (value : Json) : Field :=
  { f with arguments := f.arguments.insert name value }

/-- A visit of a field that is changed if it is at a place. -/
def Visit.change (place : Nat) (f : Field → Field) (v : Visit) : Visit :=
  if v.place = place then { v with field := f v.field } else v

namespace Query

variable {q : Query} {parent place depth : Nat} {name : String} {label : Option String}

/-! ## Fields after an edit -/

/-- A new field is behind all others, and no field but its parent is changed. -/
theorem field?_add (hp : parent < q.fields.size) (name : String) (label : Option String)
    (place : Nat) :
    (q.add parent name label).field? place =
      if place = q.fields.size then some ⟨name, label, ∅, #[]⟩
      else if place = parent then (q.field? place).map (·.addChild q.fields.size)
      else q.field? place := by
  rw [field?, add_eq, modify_push q hp, Array.getElem?_push, size_modify, getElem?_modify]
  by_cases hparent : place = parent
  · rw [if_pos hparent, if_pos hparent.symm]
    rfl
  · rw [if_neg hparent, if_neg (Ne.symm hparent)]
    rfl

theorem field?_setArgument (q : Query) (place : Nat) (name : String) (value : Json)
    (other : Nat) :
    (q.setArgument place name value).field? other =
      if other = place then (q.field? other).map (·.setArgument name value)
      else q.field? other := by
  rw [field?, setArgument, getElem?_modify]
  by_cases hplace : other = place
  · rw [if_pos hplace, if_pos hplace.symm]
    rfl
  · rw [if_neg hplace, if_neg (Ne.symm hplace)]
    rfl

namespace IsTree

/-! ## What is below a place -/

/-- Whatever ways lead to from a place is below it. -/
theorem exists_mem_below (h : q.IsTree) (depth : Nat)
    (hway : Relation.TransGen q.HasChild place parent) :
    ∃ v ∈ h.below depth place, v.place = parent := by
  induction hway with
  | single hchild => exact ⟨_, h.mem_below.mpr ⟨_, hchild, .inl rfl⟩, rfl⟩
  | tail _ hchild ih =>
      obtain ⟨v, hv, rfl⟩ := ih
      exact ⟨_, h.mem_below_of_hasChild hv hchild, rfl⟩

theorem transGen_root (h : q.IsTree) (hlt : place < q.fields.size) (hne : place ≠ Query.root) :
    Relation.TransGen q.HasChild Query.root place := by
  obtain ⟨above, hway⟩ := h.exists_isWay hlt
  exact h.transGen_of_mem_below (h.mem_below_of_isWay hway hne)

/-- A walk meets each place once, so it tells by the place whether a field is below another one. -/
theorem mem_below_iff_transGen (h : q.IsTree) {v : Visit} (hv : v ∈ q.preorder)
    (hsub : h.below depth place ⊆ q.preorder) :
    v ∈ h.below depth place ↔ Relation.TransGen q.HasChild place v.place := by
  constructor
  · exact h.transGen_of_mem_below
  · intro hway
    obtain ⟨w, hw, hplace⟩ := h.exists_mem_below depth hway
    have hnodup : (q.preorder.map Visit.place).Nodup := by
      rw [h.preorder_eq]
      exact h.nodup_below 0 Query.root
    rwa [← List.inj_on_of_nodup_map hnodup (hsub hw) hv hplace]

/-! ## What is below a place after an addition -/

theorem getElem!_add_of_ne (hp : parent < q.fields.size) {child : Nat}
    (hlt : child < q.fields.size) (hne : child ≠ parent) :
    (q.add parent name label).fields[child]! = q.fields[child]! := by
  apply getElem!_of_field?_eq_some
  rw [field?_add hp, if_neg (Nat.ne_of_lt hlt), if_neg hne, field?_eq_some hlt]

theorem getElem!_add_parent (hp : parent < q.fields.size) :
    (q.add parent name label).fields[parent]! = q.fields[parent]!.addChild q.fields.size := by
  apply getElem!_of_field?_eq_some
  rw [field?_add hp, if_neg (Nat.ne_of_lt hp), if_pos rfl, field?_eq_some hp]
  rfl

theorem getElem!_add_size (hp : parent < q.fields.size) :
    (q.add parent name label).fields[q.fields.size]! = ⟨name, label, ∅, #[]⟩ := by
  apply getElem!_of_field?_eq_some
  rw [field?_add hp, if_pos rfl]

/-- A field and all that is below it. -/
def branch (h : q.IsTree) (depth place : Nat) : List Visit :=
  ⟨place, depth, q.fields[place]!⟩ :: h.below depth place

theorem below_eq_flatMap (h : q.IsTree) (depth place : Nat) :
    h.below depth place = (q.children place).toList.flatMap (h.branch (depth + 1)) :=
  h.below_eq depth place

section

variable (h : q.IsTree) (hp : parent < q.fields.size) (name : String) (label : Option String)
include hp

/-- Where no way leads to the parent, all is as it was. -/
theorem branch_add_of_not (hlt : place < q.fields.size)
    (hnot : ¬ Relation.ReflTransGen q.HasChild place parent) (depth : Nat) :
    (h.add hp name label).branch depth place = h.branch depth place := by
  induction place using h.induction_below generalizing depth with
  | step place ih =>
  have hne : place ≠ parent := by
    rintro rfl
    exact hnot .refl
  rw [branch, branch, getElem!_add_of_ne hp hlt hne, below_eq_flatMap, below_eq_flatMap,
    children_add hp, if_neg hne]
  congr 1
  apply List.flatMap_congr
  intro child hin
  have hchild : q.HasChild place child := Array.mem_toList_iff.mp hin
  exact ih child hchild (h.lt_size place child hchild) (fun hway => hnot (.head hchild hway)) _

theorem flatMap_branch_add {children : List Nat} (hchildren : ∀ child ∈ children,
      child < q.fields.size ∧ ¬ Relation.ReflTransGen q.HasChild child parent) (depth : Nat) :
    children.flatMap ((h.add hp name label).branch depth) = children.flatMap (h.branch depth) := by
  apply List.flatMap_congr
  intro child hin
  obtain ⟨hlt, hnot⟩ := hchildren child hin
  exact h.branch_add_of_not hp name label hlt hnot depth

/-- The new field has nothing below it, and is the last of all that is below its parent. -/
theorem below_add_parent (depth : Nat) :
    (h.add hp name label).below depth parent =
      h.below depth parent ++ [⟨q.fields.size, depth + 1, ⟨name, label, ∅, #[]⟩⟩] := by
  have hold : ∀ child ∈ (q.children parent).toList,
      child < q.fields.size ∧ ¬ Relation.ReflTransGen q.HasChild child parent := by
    intro child hin
    have hchild : q.HasChild parent child := Array.mem_toList_iff.mp hin
    exact ⟨h.lt_size parent child hchild,
      fun hway => Nat.lt_irrefl parent (h.lt_of_transGen (.head' hchild hway))⟩
  have hnone : (h.add hp name label).below (depth + 1) q.fields.size = [] := by
    rw [below_eq_flatMap, children_add hp, if_neg (Nat.ne_of_gt hp),
      children_of_size_le (Nat.le_refl _), List.flatMap_nil]
  have hnew : (h.add hp name label).branch (depth + 1) q.fields.size =
      [⟨q.fields.size, depth + 1, ⟨name, label, ∅, #[]⟩⟩] := by
    rw [branch, hnone, getElem!_add_size hp]
  rw [below_eq_flatMap, children_add hp, if_pos rfl, Array.toList_push, List.flatMap_append,
    h.flatMap_branch_add hp name label hold, List.flatMap_singleton, hnew, ← below_eq_flatMap]

/-- Below a place above the parent, only what is below the parent changes. -/
theorem exists_below_add (hway : Relation.TransGen q.HasChild place parent) (depth : Nat) :
    ∃ deep before after, h.below depth place = before ++ h.branch deep parent ++ after ∧
      (h.add hp name label).below depth place =
        before ++ (h.add hp name label).branch deep parent ++ after := by
  induction place using h.induction_below generalizing depth with
  | step place ih =>
  obtain ⟨child, hchild, hdown⟩ := Relation.TransGen.head'_iff.mp hway
  have hne : place ≠ parent := Nat.ne_of_lt (h.lt_of_transGen hway)
  obtain ⟨front, back, hsplit⟩ := List.append_of_mem (Array.mem_toList_iff.mpr hchild)
  -- The way to the parent goes through one child only.
  have hnodup : (front ++ child :: back).Nodup := hsplit ▸ (h.ascending place).imp Nat.ne_of_lt
  have hother : ∀ other ∈ (q.children place).toList, other ≠ child →
      other < q.fields.size ∧ ¬ Relation.ReflTransGen q.HasChild other parent := by
    intro other hin hne
    have hplace : q.HasChild place other := Array.mem_toList_iff.mp hin
    exact ⟨h.lt_size place other hplace,
      fun hway => hne (h.eq_of_reflTransGen hplace hchild hway hdown)⟩
  have hfront : ∀ other ∈ front,
      other < q.fields.size ∧ ¬ Relation.ReflTransGen q.HasChild other parent := by
    intro other hin
    refine hother other (hsplit ▸ List.mem_append_left _ hin) ?_
    rintro rfl
    exact (List.nodup_append.mp hnodup).2.2 other hin other List.mem_cons_self rfl
  have hback : ∀ other ∈ back,
      other < q.fields.size ∧ ¬ Relation.ReflTransGen q.HasChild other parent := by
    intro other hin
    refine hother other (hsplit ▸ List.mem_append_right _ (List.mem_cons_of_mem _ hin)) ?_
    rintro rfl
    exact (List.nodup_cons.mp (List.nodup_append.mp hnodup).2.1).1 hin
  have hbranch : ∃ deep before after,
      h.branch (depth + 1) child = before ++ h.branch deep parent ++ after ∧
      (h.add hp name label).branch (depth + 1) child =
        before ++ (h.add hp name label).branch deep parent ++ after := by
    rcases Relation.reflTransGen_iff_eq_or_transGen.mp hdown with rfl | hdown
    · exact ⟨depth + 1, [], [], by simp, by simp⟩
    · obtain ⟨deep, before, after, hold, hnew⟩ := ih child hchild hdown (depth + 1)
      have hlower : child ≠ parent := Nat.ne_of_lt (h.lt_of_transGen hdown)
      refine ⟨deep, ⟨child, depth + 1, q.fields[child]!⟩ :: before, after, ?_, ?_⟩
      · rw [branch, hold]
        rfl
      · rw [branch, hnew, getElem!_add_of_ne hp (h.lt_size place child hchild) hlower]
        rfl
  obtain ⟨deep, before, after, hold, hnew⟩ := hbranch
  refine ⟨deep, front.flatMap (h.branch (depth + 1)) ++ before,
    after ++ back.flatMap (h.branch (depth + 1)), ?_, ?_⟩
  · rw [below_eq_flatMap, hsplit, List.flatMap_append, List.flatMap_cons, hold]
    simp only [List.append_assoc]
  · rw [below_eq_flatMap, children_add hp, if_neg hne, hsplit, List.flatMap_append,
      List.flatMap_cons, hnew, h.flatMap_branch_add hp name label hfront,
      h.flatMap_branch_add hp name label hback]
    simp only [List.append_assoc]

/-- A walk meets the new field after all that is below its parent. -/
theorem exists_preorder_add (hne : parent ≠ Query.root) :
    ∃ depth before after, q.preorder = before ++ h.branch depth parent ++ after ∧
      (q.add parent name label).preorder =
        before ++ (h.add hp name label).branch depth parent ++ after := by
  rw [h.preorder_eq, (h.add hp name label).preorder_eq]
  exact h.exists_below_add hp name label (h.transGen_root hp hne) 0

end

/-! ## What is below a place after a change -/

theorem getElem!_modify {child : Nat} (hlt : child < q.fields.size) (place : Nat)
    (f : Field → Field) :
    (q.modify place f).fields[child]! =
      if child = place then f q.fields[child]! else q.fields[child]! := by
  apply getElem!_of_field?_eq_some
  rw [field?, getElem?_modify, ← field?, field?_eq_some hlt]
  by_cases hplace : child = place
  · rw [if_pos hplace, if_pos hplace.symm]
    rfl
  · rw [if_neg hplace, if_neg (Ne.symm hplace)]

theorem below_modify (h : q.IsTree) (place : Nat) {f : Field → Field}
    (hf : ∀ x, (f x).children = x.children) (depth other : Nat) :
    (h.modify place hf).below depth other = (h.below depth other).map (Visit.change place f) := by
  induction other using h.induction_below generalizing depth with
  | step other ih =>
  rw [below_eq, below_eq, children_modify hf, List.map_flatMap]
  apply List.flatMap_congr
  intro child hin
  have hchild : q.HasChild other child := Array.mem_toList_iff.mp hin
  rw [List.map_cons, ih child hchild, getElem!_modify (h.lt_size other child hchild), Visit.change]
  by_cases hplace : child = place
  · rw [if_pos hplace, if_pos hplace]
  · rw [if_neg hplace, if_neg hplace]

/-- A change of one field that leaves its children alone does not change the order. -/
theorem preorder_modify (h : q.IsTree) (place : Nat) {f : Field → Field}
    (hf : ∀ x, (f x).children = x.children) :
    (q.modify place f).preorder = q.preorder.map (Visit.change place f) := by
  rw [h.preorder_eq, (h.modify place hf).preorder_eq, h.below_modify place hf]

end IsTree

/-! ## One edit -/

/-- A field that is added below another one is met right after all that is below that one, one level
deeper than it, and has no children. A field that is added at the top is met last. All other fields
are met as before, and stay at their places; the parent has one child more, at the end. An argument
that is set changes the field it is set for, under one name, and neither order nor depths. -/
theorem preorder_edit_of_reachable {q : Query} (hq : q.Reachable) {place : Nat}
    (hplace : place < q.fields.size) :
    (∀ (name : String) (label : Option String),
      let r := q.add place name label
      let leaf : Field := ⟨name, label, ∅, #[]⟩
      (place = root → r.preorder = q.preorder ++ [⟨q.fields.size, 1, leaf⟩]) ∧
      (place ≠ root → ∃ depth f before below after, q.field? place = some f ∧
        q.preorder = before ++ ⟨place, depth, f⟩ :: (below ++ after) ∧
        (∀ v ∈ q.preorder, v ∈ below ↔ Relation.TransGen q.HasChild place v.place) ∧
        r.preorder = before ++ ⟨place, depth, f.addChild q.fields.size⟩ ::
          (below ++ ⟨q.fields.size, depth + 1, leaf⟩ :: after)) ∧
      (∀ other, r.field? other =
        if other = q.fields.size then some leaf
        else if other = place then (q.field? other).map (·.addChild q.fields.size)
        else q.field? other) ∧
      (r.fieldCount < UInt32.size → ∀ v ∈ r.preorder, v.depth < UInt32.size)) ∧
    ∀ (name : String) (value : Json),
      let r := q.setArgument place name value
      r.preorder = q.preorder.map (Visit.change place (·.setArgument name value)) ∧
      (∀ other, r.field? other =
        if other = place then (q.field? other).map (·.setArgument name value)
        else q.field? other) ∧
      ∀ (f : Field) (key : String), (f.setArgument name value).arguments.get? key =
        if key = name then some value else f.arguments.get? key := by
  have h := hq.isTree
  refine ⟨fun name label => ⟨fun hroot => ?_, fun hne => ?_, field?_add hplace name label,
    fun hsmall v hv => ?_⟩, fun name value => ⟨h.preorder_modify place fun _ => rfl,
    field?_setArgument q place name value, fun f key => Keyed.get?_insert ..⟩⟩
  · subst hroot
    rw [h.preorder_eq, (h.add hplace name label).preorder_eq, h.below_add_parent hplace]
  · obtain ⟨depth, before, after, hold, hnew⟩ := h.exists_preorder_add hplace name label hne
    have hsub : h.below depth place ⊆ q.preorder := by
      intro v hv
      rw [hold]
      exact List.mem_append_left _ (List.mem_append_right _ (List.mem_cons_of_mem _ hv))
    refine ⟨depth, _, before, h.below depth place, after, field?_eq_some hplace, ?_,
      fun v hv => h.mem_below_iff_transGen hv hsub, ?_⟩
    · rw [hold, IsTree.branch, List.append_assoc, List.cons_append]
    · rw [hnew, IsTree.branch, h.below_add_parent hplace, IsTree.getElem!_add_parent hplace,
        List.append_assoc, List.cons_append, List.append_assoc, List.singleton_append]
  · have htree := h.add hplace name label
    rw [htree.preorder_eq] at hv
    exact (htree.depth_le_of_mem_below hv).trans_lt hsmall

/-- A field below the first one, after a second one was added beside it. -/
theorem preorder_edit_of_reachable_middle :
    let edits : List Edit := [.add root "a" none, .add root "b" (some "x"), .add 1 "c" none]
    let q := empty.edit edits
    let r := q.add 1 "d" (some "y")
    q.Reachable ∧ 1 < q.fields.size ∧
      (∃ depth f before below after,
        q.preorder = before ++ ⟨1, depth, f⟩ :: (below ++ after) ∧
        r.preorder = before ++ ⟨1, depth, f.addChild 4⟩ ::
          (below ++ ⟨4, depth + 1, ⟨"d", some "y", ∅, #[]⟩⟩ :: after)) ∧
      q.preorder.map (fun v => (v.place, v.depth)) = [(1, 1), (3, 2), (2, 1)] ∧
      r.preorder.map (fun v => (v.place, v.depth)) = [(1, 1), (3, 2), (4, 2), (2, 1)] ∧
      (q.setArgument 3 "k" (.nat 2)).preorder =
        q.preorder.map (Visit.change 3 (·.setArgument "k" (.nat 2))) := by
  intro edits q r
  have hedits : empty.Permits [root] edits := by decide
  have hq : q.Reachable := (Arises.edits hedits).reachable
  have hplace : 1 < q.fields.size := by decide
  have hlast : 3 < q.fields.size := by decide
  obtain ⟨-, hmiddle, -⟩ := (preorder_edit_of_reachable hq hplace).1 "d" (some "y")
  obtain ⟨depth, f, before, below, after, -, hold, -, hnew⟩ := hmiddle (by decide)
  have hset := ((preorder_edit_of_reachable hq hlast).2 "k" (.nat 2)).1
  exact ⟨hq, hplace, ⟨depth, f, before, below, after, hold, hnew⟩, by decide +kernel,
    by decide +kernel, hset⟩

end Query

end QueryAdmission
