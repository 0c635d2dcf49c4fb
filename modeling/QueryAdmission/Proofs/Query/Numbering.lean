import QueryAdmission.Proofs.Query.Representation

/-! # Places in reading order

A forest is added to a query in reading order, each field at the end. So its fields stand at places
that follow one another, and a walk meets them in the order of their places. -/

namespace QueryAdmission.Query

/-- `q.Numbers first places last` says that the fields at `places`, side by side and each with all
that is below it, take up the places from `first` to before `last` in reading order. -/
inductive Numbers (q : Query) : Nat → List Nat → Nat → Prop where
  | nil (place : Nat) : Numbers q place [] place
  | cons {place next last : Nat} {places : List Nat} :
      Numbers q (place + 1) (q.children place).toList next → Numbers q next places last →
      Numbers q place (place :: places) last

section

variable {q r : Query} {first last parent : Nat} {places : List Nat}

theorem Numbers.le (h : q.Numbers first places last) : first ≤ last := by
  induction h with
  | nil place => exact Nat.le_refl place
  | cons _ _ ihb ihr => omega

/-- The numbers stay as long as the fields that they number keep their children. -/
theorem Numbers.mono (h : q.Numbers first places last)
    (hsame : ∀ place, first ≤ place → place < last → r.children place = q.children place) :
    r.Numbers first places last := by
  induction h with
  | nil place => exact .nil place
  | @cons place next last places hbelow hrest ihb ihr =>
      have hnext := hbelow.le
      have hlast := hrest.le
      have hplace := hsame place (Nat.le_refl _) (by omega)
      refine .cons ?_ (ihr fun p hp hlt => hsame p (by omega) hlt)
      rw [hplace]
      exact ihb fun p hp hlt => hsame p (by omega) (by omega)

/-- A traversal meets the fields in the order of their numbers. -/
theorem IsTree.map_place_of_numbers (h : q.IsTree) (hn : q.Numbers first places last)
    (depth : Nat) :
    (places.flatMap fun place =>
      ⟨place, depth + 1, q.fields[place]!⟩ :: h.below (depth + 1) place).map Visit.place =
        List.range' first (last - first) := by
  induction hn generalizing depth with
  | nil place => simp
  | @cons place next last places hbelow hrest ihb ihr =>
      have hnext := hbelow.le
      have hlast := hrest.le
      have hlength : last - place = (next - (place + 1)) + (last - next) + 1 := by omega
      have hstart : place + 1 + (next - (place + 1)) = next := by omega
      rw [List.flatMap_cons, List.map_append, List.map_cons, ihr, below_eq, ihb, hlength,
        List.range'_succ, ← List.range'_append_1, hstart, List.cons_append]

theorem Adds.children {forest : Forest} (h : q.Adds parent forest r) {place : Nat}
    (hplace : place < q.fields.size) (hne : place ≠ parent) :
    r.children place = q.children place := by
  rw [Query.children, h.same place hplace hne, Query.children]

theorem children_addHead (hp : parent < q.fields.size) (head : Head) (place : Nat) :
    (q.addHead parent head).children place =
      if place = parent then (q.children place).push q.fields.size else q.children place := by
  rw [addHead_eq, children_modify fun _ => by rfl, children_add hp]

/-- The fields of a forest get the places behind all others, in reading order. -/
theorem numbers_addForest (h : q.IsTree) (hp : parent < q.fields.size) (forest : Forest) :
    ∃ places : List Nat,
      (q.addForest parent forest).children parent = q.children parent ++ places.toArray ∧
      (q.addForest parent forest).Numbers q.fields.size places
        (q.addForest parent forest).fields.size := by
  induction forest generalizing q parent with
  | nil => exact ⟨[], by simp [addForest], .nil _⟩
  | cons head below rest ihb ihr =>
      have hne : q.fields.size ≠ parent := by omega
      have hsize := size_addHead q parent head
      have hnew : q.fields.size < (q.addHead parent head).fields.size := by omega
      have hb := adds_addForest (h.addHead hp head) hnew below
      have hbound := hb.size_le
      have hr := adds_addForest hb.isTree (show parent < _ by omega) rest
      obtain ⟨placesb, hchildrenb, hnumbersb⟩ := ihb (h.addHead hp head) hnew
      obtain ⟨placesr, hchildrenr, hnumbersr⟩ := ihr hb.isTree (show parent < _ by omega)
      rw [addForest]
      refine ⟨q.fields.size :: placesr, ?_, .cons ?_ hnumbersr⟩
      · rw [hchildrenr, hb.children (by omega) hne.symm, children_addHead hp, if_pos rfl]
        simp
      · -- Below the new field nothing changes when what comes after it is added.
        rw [children_addHead hp, if_neg hne, children_of_size_le (Nat.le_refl _),
          Array.empty_append] at hchildrenb
        rw [hr.children (by omega) hne, hchildrenb, ← hsize]
        exact hnumbersb.mono fun place hplace hlt => hr.children hlt (by omega)

end

/-- A walk through a query that a forest makes meets the places one after the other. -/
theorem map_place_preorder_ofForest (forest : Forest) :
    (ofForest forest).preorder.map Visit.place = List.range' 1 (ofForest forest).fieldCount := by
  have htree := isTree_ofForest forest
  obtain ⟨places, hchildren, hnumbers⟩ := numbers_addForest .empty IsTree.empty.root_lt forest
  have hroot : ((ofForest forest).children root).toList = places := by
    rw [ofForest, hchildren, children_empty]
    simp
  rw [htree.preorder_eq, IsTree.below_eq, hroot]
  exact htree.map_place_of_numbers hnumbers 0

/-- The root of a query that a forest makes says nothing of itself. -/
theorem exists_root_ofForest (forest : Forest) :
    ∃ f, (ofForest forest).field? root = some f ∧ f.head = ⟨"", none, ∅⟩ := by
  obtain ⟨places, -, hfield, -⟩ := (adds_ofForest forest).shows
  exact ⟨_, hfield, rfl⟩

end QueryAdmission.Query
