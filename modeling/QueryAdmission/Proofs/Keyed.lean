import Mathlib.Data.String.Basic
import QueryAdmission.Keyed

/-! # Tables as functions from names to values

A table is known by what it has under each name, so operations on tables are told by their effect
on `get?`. Putting the entries of a table in one by one is the same as uniting with it. -/

namespace QueryAdmission.Keyed

universe u

variable {α : Type u}

/-! ## Single operations -/

theorem lookup_entry_cons (e : String × α) (l : List (String × α)) (name : String) :
    (e :: l).lookup name = if name = e.1 then some e.2 else l.lookup name := by
  obtain ⟨k, v⟩ := e
  by_cases h : name = k
  · simp [h]
  · simp [List.lookup_cons, beq_eq_false_iff_ne.mpr h, h]

theorem lookup_insertEntry (name other : String) (value : α) (l : List (String × α)) :
    (insertEntry name value l).lookup other =
      if other = name then some value else l.lookup other := by
  induction l with
  | nil => exact lookup_entry_cons (name, value) [] other
  | cons e l ih =>
      unfold insertEntry
      by_cases hlt : name < e.1
      · rw [if_pos hlt, lookup_entry_cons]
      · by_cases heq : name = e.1
        · rw [if_neg hlt, if_pos heq, lookup_entry_cons, lookup_entry_cons, ← heq]
          by_cases ho : other = name <;> simp [ho]
        · rw [if_neg hlt, if_neg heq, lookup_entry_cons, lookup_entry_cons, ih]
          by_cases ho : other = name
          · rw [if_neg (ho ▸ heq), if_pos ho, if_pos ho]
          · simp [ho]

@[simp] theorem get?_empty (name : String) : (∅ : Keyed α).get? name = none := rfl

theorem get?_insert (t : Keyed α) (name other : String) (value : α) :
    (t.insert name value).get? other = if other = name then some value else t.get? other :=
  lookup_insertEntry name other value t.toList

theorem lookup_firstOfEach (l : List (String × α)) (name : String) :
    (firstOfEach l).lookup name = l.lookup name := by
  fun_induction firstOfEach l with
  | case1 => rfl
  | case2 e => rfl
  | case3 e f rest heq ih =>
      rw [ih, lookup_entry_cons, lookup_entry_cons, lookup_entry_cons, ← heq]
      by_cases h : name = e.1 <;> simp [h]
  | case4 e f rest hne ih =>
      rw [lookup_entry_cons, ih, lookup_entry_cons e]

/-- Sorting by names is stable, so the first entry of each name stays the first one. -/
theorem lookup_mergeSort (l : List (String × α)) (name : String) :
    (l.mergeSort fun a b => decide (a.1 ≤ b.1)).lookup name = l.lookup name := by
  induction l with
  | nil => simp
  | cons e l ih =>
      obtain ⟨front, back, hsort, hrest, hfront⟩ :=
        @List.mergeSort_cons _ (fun a b : String × α => decide (a.1 ≤ b.1))
          (fun a b c hab hbc => by
            simp only [decide_eq_true_eq] at *
            exact String.le_trans hab hbc)
          (fun a b => by
            simp only [Bool.or_eq_true, decide_eq_true_eq]
            exact String.le_total a.1 b.1) e l
      rw [hsort, List.lookup_append, lookup_entry_cons, lookup_entry_cons, ← ih, hrest,
        List.lookup_append]
      by_cases h : name = e.1
      · have hnone : front.lookup name = none := by
          rw [List.lookup_eq_none_iff]
          intro b hb
          have hlt := hfront b hb
          rw [bne_iff_ne]
          intro heq
          rw [← h, heq] at hlt
          simp at hlt
        rw [hnone, if_pos h, if_pos h, Option.none_or]
      · rw [if_neg h, if_neg h]

/-- Of entries with one name the last stays. -/
theorem get?_ofList (entries : List (String × α)) (name : String) :
    (ofList entries).get? name = entries.reverse.lookup name := by
  simp only [get?, ofList, lookup_firstOfEach, lookup_mergeSort]

/-! ## Equality of tables -/

theorem lookup_eq_none_of_lt {l : List (String × α)} {name : String}
    (h : ∀ e ∈ l, name < e.1) : l.lookup name = none := by
  rw [List.lookup_eq_none_iff]
  intro e he
  rw [bne_iff_ne]
  intro heq
  exact String.lt_irrefl e.1 (heq ▸ h e he)

theorem eq_of_lookup_eq {a b : List (String × α)} (ha : a.Pairwise fun x y => x.1 < y.1)
    (hb : b.Pairwise fun x y => x.1 < y.1) (h : ∀ name, a.lookup name = b.lookup name) :
    a = b := by
  induction a generalizing b with
  | nil =>
      cases b with
      | nil => rfl
      | cons y b =>
          have := h y.1
          simp [lookup_entry_cons] at this
  | cons x a ih =>
      cases b with
      | nil =>
          have := h x.1
          simp [lookup_entry_cons] at this
      | cons y b =>
          obtain ⟨hxa, ha⟩ := List.pairwise_cons.mp ha
          obtain ⟨hyb, hb⟩ := List.pairwise_cons.mp hb
          have hname : x.1 = y.1 := by
            -- the smaller of two different names would be in one of the lists only
            rcases lt_trichotomy x.1 y.1 with hlt | heq | hlt
            · have hx := h x.1
              rw [lookup_entry_cons, if_pos rfl, lookup_eq_none_of_lt] at hx
              · cases hx
              · intro e he
                rcases List.mem_cons.mp he with rfl | he
                · exact hlt
                · exact String.lt_trans hlt (hyb e he)
            · exact heq
            · have hy := h y.1
              rw [lookup_entry_cons y, if_pos rfl, lookup_eq_none_of_lt] at hy
              · cases hy
              · intro e he
                rcases List.mem_cons.mp he with rfl | he
                · exact hlt
                · exact String.lt_trans hlt (hxa e he)
          have hvalue : x.2 = y.2 := by
            have hx := h x.1
            rwa [lookup_entry_cons, lookup_entry_cons, if_pos rfl, if_pos hname,
              Option.some_inj] at hx
          have hrest : ∀ name, a.lookup name = b.lookup name := by
            intro name
            by_cases hx : name = x.1
            · rw [hx, lookup_eq_none_of_lt hxa, hname, lookup_eq_none_of_lt hyb]
            · have hn := h name
              rwa [lookup_entry_cons, lookup_entry_cons, if_neg hx, if_neg (hname ▸ hx)] at hn
          rw [Prod.ext hname hvalue, ih ha hb hrest]

theorem ext_get? {a b : Keyed α} (h : ∀ name, a.get? name = b.get? name) : a = b :=
  Keyed.ext (eq_of_lookup_eq a.ascending b.ascending h)

/-- Without two entries of one name it does not matter from which end a name is looked up. -/
theorem lookup_reverse {l : List (String × α)} (h : l.Pairwise fun x y => x.1 ≠ y.1)
    (name : String) : l.reverse.lookup name = l.lookup name := by
  induction l with
  | nil => rfl
  | cons e l ih =>
      obtain ⟨he, hl⟩ := List.pairwise_cons.mp h
      rw [List.reverse_cons, List.lookup_append, ih hl, lookup_entry_cons, lookup_entry_cons]
      by_cases hn : name = e.1
      · have hnone : l.lookup name = none := by
          rw [List.lookup_eq_none_iff]
          intro f hf
          rw [bne_iff_ne, hn]
          exact he f hf
        rw [if_pos hn, if_pos hn, hnone, Option.none_or]
      · rw [if_neg hn, if_neg hn, List.lookup_nil, Option.or_none]

theorem distinct (t : Keyed α) : t.toList.Pairwise fun x y => x.1 ≠ y.1 :=
  t.ascending.imp ne_of_lt

/-- The entries are the names with their values. -/
theorem mem_toList_iff {t : Keyed α} {name : String} {value : α} :
    (name, value) ∈ t.toList ↔ t.get? name = some value := by
  rw [get?]
  have hdistinct := t.distinct
  generalize t.toList = l at hdistinct
  induction l with
  | nil => simp
  | cons e l ih =>
      obtain ⟨he, hl⟩ := List.pairwise_cons.mp hdistinct
      have hrest : (name, value) ∈ l ↔ l.lookup name = some value := ih hl
      rw [List.mem_cons, lookup_entry_cons, hrest]
      by_cases hname : name = e.1
      · -- The name stands nowhere after its entry.
        have hnone : l.lookup name = none := by
          rw [List.lookup_eq_none_iff]
          intro f hf
          rw [bne_iff_ne, hname]
          exact he f hf
        rw [hnone, if_pos hname, Prod.ext_iff]
        simp [hname, eq_comm]
      · rw [if_neg hname, Prod.ext_iff]
        simp [hname]

/-! ## Distinct entries -/

theorem firstOfEach_eq {l : List (String × α)} (h : l.Pairwise fun x y => x.1 ≠ y.1) :
    firstOfEach l = l := by
  fun_induction firstOfEach l with
  | case1 => rfl
  | case2 => rfl
  | case3 e f rest heq =>
      exact absurd heq ((List.pairwise_cons.mp h).1 f List.mem_cons_self)
  | case4 e f rest hne ih => rw [ih (List.pairwise_cons.mp h).2]

/-- A table loses none of its entries to others if they all have different names. -/
theorem perm_ofList {l : List (String × α)} (h : l.Pairwise fun x y => x.1 ≠ y.1) :
    (ofList l).toList.Perm l := by
  have hsorted := (List.mergeSort_perm l.reverse fun a b => decide (a.1 ≤ b.1)).trans
    (List.reverse_perm l)
  have hdistinct := (hsorted.pairwise_iff fun hne => hne.symm).mpr h
  exact (List.Perm.of_eq (firstOfEach_eq hdistinct)).trans hsorted

/-- A table can be listed in any order. -/
theorem ofList_eq_of_perm {l : List (String × α)} {t : Keyed α} (h : l.Perm t.toList) :
    ofList l = t := by
  have hdistinct := (h.pairwise_iff fun hne => hne.symm).mpr t.distinct
  refine ext (((perm_ofList hdistinct).trans h).eq_of_pairwise ?_ (ofList l).ascending t.ascending)
  intro a b _ _ hab hba
  exact absurd hba (String.lt_asymm hab)

/-! ## Several entries at once -/

/-- Where both tables have a name, the second one's value stays. -/
theorem get?_union (a b : Keyed α) (name : String) :
    (a.union b).get? name = (b.get? name).or (a.get? name) := by
  unfold union
  split
  · rename_i ha
    have hnone : a.get? name = none := by
      rw [get?, List.isEmpty_iff.mp ha, List.lookup_nil]
    rw [hnone, Option.or_none]
  · rw [get?_ofList, List.reverse_append, List.lookup_append, lookup_reverse a.distinct,
      lookup_reverse b.distinct]
    rfl

/-- Puts entries in one after the other. -/
def insertAll (t : Keyed α) (entries : List (String × α)) : Keyed α :=
  entries.foldl (fun t e => t.insert e.1 e.2) t

@[simp] theorem insertAll_nil (t : Keyed α) : t.insertAll [] = t := rfl

@[simp] theorem insertAll_cons (t : Keyed α) (e : String × α) (entries : List (String × α)) :
    t.insertAll (e :: entries) = (t.insert e.1 e.2).insertAll entries := rfl

theorem get?_insertAll (t : Keyed α) (entries : List (String × α)) (name : String) :
    (t.insertAll entries).get? name = (entries.reverse.lookup name).or (t.get? name) := by
  induction entries generalizing t with
  | nil => simp
  | cons e entries ih =>
      rw [insertAll_cons, ih, get?_insert, List.reverse_cons, List.lookup_append,
        lookup_entry_cons]
      by_cases h : name = e.1 <;> simp [h]

theorem union_eq_insertAll (a b : Keyed α) : a.union b = a.insertAll b.toList := by
  apply ext_get?
  intro name
  rw [get?_union, get?_insertAll, lookup_reverse b.distinct]
  rfl

/-- A table is what its own entries make of the empty one. -/
theorem insertAll_toList (t : Keyed α) : (∅ : Keyed α).insertAll t.toList = t := by
  apply ext_get?
  intro name
  rw [get?_insertAll, lookup_reverse t.distinct, get?_empty, Option.or_none]
  rfl

/-! ## All values at once -/

/-- The table with every value changed. -/
def map {β : Type u} (f : α → β) (t : Keyed α) : Keyed β :=
  ⟨t.toList.map fun e => (e.1, f e.2), List.pairwise_map.mpr t.ascending⟩

theorem get?_map {β : Type u} (f : α → β) (t : Keyed α) (name : String) :
    (t.map f).get? name = (t.get? name).map f := by
  rw [get?, get?, show (t.map f).toList = t.toList.map fun e => (e.1, f e.2) from rfl]
  induction t.toList with
  | nil => rfl
  | cons e l ih =>
      rw [List.map_cons, lookup_entry_cons, lookup_entry_cons, ih]
      by_cases h : name = e.1 <;> simp [h]

end QueryAdmission.Keyed
