/-! Finite tables from names to values. A table lists its entries in ascending order of their
names, each name once, so tables with the same entries are equal. -/

namespace QueryAdmission

universe u

/-- Entries in strictly ascending order of their names. -/
structure Keyed (α : Type u) where
  toList : List (String × α)
  ascending : toList.Pairwise fun a b => a.1 < b.1

namespace Keyed

variable {α : Type u}

instance [DecidableEq α] : DecidableEq (Keyed α) := fun a b =>
  decidable_of_iff (a.toList = b.toList) ⟨fun h => by cases a; cases b; simp_all, fun h => h ▸ rfl⟩

/-- Equal entries, as far as `==` can tell values apart. -/
instance [BEq α] : BEq (Keyed α) := ⟨fun a b => a.toList == b.toList⟩

@[ext] theorem ext {a b : Keyed α} (h : a.toList = b.toList) : a = b := by
  cases a; cases b; simp_all

/-- The table without entries. -/
def empty : Keyed α := ⟨[], .nil⟩

instance : EmptyCollection (Keyed α) := ⟨empty⟩
instance : Inhabited (Keyed α) := ⟨empty⟩

def size (t : Keyed α) : Nat := t.toList.length

/-- The value of a name. -/
def get? (t : Keyed α) (name : String) : Option α := t.toList.lookup name

/-- Puts an entry into its place; it replaces the entry of the same name. -/
def insertEntry (name : String) (value : α) : List (String × α) → List (String × α)
  | [] => [(name, value)]
  | entry :: rest =>
    if name < entry.1 then (name, value) :: entry :: rest
    else if name = entry.1 then (name, value) :: rest
    else entry :: insertEntry name value rest

theorem mem_insertEntry {name : String} {value : α} {l : List (String × α)} {e : String × α}
    (h : e ∈ insertEntry name value l) : e.1 = name ∨ e ∈ l := by
  induction l with
  | nil => simp_all [insertEntry]
  | cons a l ih =>
    unfold insertEntry at h
    split at h
    · simp at h; rcases h with rfl | h | h <;> simp_all
    · split at h
      · simp at h; rcases h with rfl | h <;> simp_all
      · simp at h; rcases h with rfl | h
        · simp
        · rcases ih h with h | h <;> simp [h]

theorem insertEntry_ascending {name : String} {value : α} {l : List (String × α)}
    (h : l.Pairwise fun a b => a.1 < b.1) :
    (insertEntry name value l).Pairwise fun a b => a.1 < b.1 := by
  induction l with
  | nil => simp [insertEntry]
  | cons a l ih =>
    obtain ⟨ha, hl⟩ := List.pairwise_cons.1 h
    unfold insertEntry
    split
    · rename_i hlt
      refine List.pairwise_cons.2 ⟨fun e he => ?_, h⟩
      rcases List.mem_cons.1 he with rfl | he
      · exact hlt
      · exact String.lt_trans hlt (ha e he)
    · split
      · rename_i heq
        exact List.pairwise_cons.2 ⟨fun e he => heq ▸ ha e he, hl⟩
      · rename_i hlt hne
        refine List.pairwise_cons.2 ⟨fun e he => ?_, ih hl⟩
        rcases mem_insertEntry he with h | h
        · rw [h]
          exact String.not_le.1 fun hle => hne (String.le_antisymm hle (String.not_lt.1 hlt))
        · exact ha e h

/-- The table with one entry more, or with the entry of that name replaced. -/
def insert (t : Keyed α) (name : String) (value : α) : Keyed α :=
  ⟨insertEntry name value t.toList, insertEntry_ascending t.ascending⟩

/-- Keeps the first entry of every run of equal names. -/
def firstOfEach : List (String × α) → List (String × α)
  | [] => []
  | [e] => [e]
  | e :: f :: rest =>
    if e.1 = f.1 then firstOfEach (e :: rest) else e :: firstOfEach (f :: rest)
termination_by l => l.length

theorem mem_firstOfEach {l : List (String × α)} {e : String × α}
    (h : e ∈ firstOfEach l) : e ∈ l := by
  fun_induction firstOfEach l <;> simp_all <;> grind

theorem firstOfEach_ascending {l : List (String × α)}
    (h : l.Pairwise fun a b => a.1 ≤ b.1) :
    (firstOfEach l).Pairwise fun a b => a.1 < b.1 := by
  fun_induction firstOfEach l with
  | case1 => exact .nil
  | case2 e => simp
  | case3 e f rest heq ih =>
    obtain ⟨he, hf⟩ := List.pairwise_cons.1 h
    exact ih (List.pairwise_cons.2 ⟨fun g hg => he g (by simp [hg]), (List.pairwise_cons.1 hf).2⟩)
  | case4 e f rest hne ih =>
    obtain ⟨he, hf⟩ := List.pairwise_cons.1 h
    refine List.pairwise_cons.2 ⟨fun g hg => ?_, ih hf⟩
    have hef : e.1 < f.1 :=
      String.not_le.1 fun hle => hne (String.le_antisymm (he f (by simp)) hle)
    rcases List.mem_cons.1 (mem_firstOfEach hg) with rfl | hg
    · exact hef
    · exact String.not_le.1 fun hle =>
        String.not_le.2 hef (String.le_trans ((List.pairwise_cons.1 hf).1 g hg) hle)

/-- The table of the entries of a list; of entries with one name the last stays. -/
def ofList (entries : List (String × α)) : Keyed α where
  toList := firstOfEach (entries.reverse.mergeSort fun a b => decide (a.1 ≤ b.1))
  ascending := by
    apply firstOfEach_ascending
    have h := @List.pairwise_mergeSort _ (fun a b : String × α => decide (a.1 ≤ b.1))
      (fun a b c hab hbc => by
        simp only [decide_eq_true_eq] at *
        exact String.le_trans hab hbc)
      (fun a b => by
        simp only [Bool.or_eq_true, decide_eq_true_eq]
        exact String.le_total a.1 b.1)
      entries.reverse
    simpa using h

/-- The entries of both tables; where both have a name, the second one's value stays. -/
def union (a b : Keyed α) : Keyed α :=
  if a.toList.isEmpty then b else ofList (a.toList ++ b.toList)

end Keyed

end QueryAdmission
