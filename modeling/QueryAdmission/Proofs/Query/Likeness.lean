import Mathlib.Data.List.Forall2
import QueryAdmission.Proofs.Query.Naming
import QueryAdmission.Proofs.Query.Numbering

/-! # Equality of queries that were read

Heads in reading order, each with its depth, determine the forest that they come from, and a forest
determines the query that it makes. So queries that were read are equal if walks through them meet
the same. Arguments can be compared in more than one way, so all is told for an arbitrary relation
of heads. -/

namespace QueryAdmission

/-- What of two heads has to agree. -/
abbrev Agreement := Head → Head → Prop

/-- The same depth and agreeing heads. -/
def Agreement.visits (agree : Agreement) (v w : Nat × Head) : Prop := v.1 = w.1 ∧ agree v.2 w.2

deriving instance BEq for Head

/-- Heads agree that `==` does not tell apart. -/
def Agreement.same : Agreement := fun h k => (h == k) = true

theorem Agreement.visits_same :
    same.visits = fun v w : Nat × Head => (v == w) = true := by
  funext v w
  have hpair : (v == w) = (v.1 == w.1 && v.2 == w.2) := rfl
  rw [hpair, Bool.and_eq_true, @beq_iff_eq Nat, visits, same]

theorem Agreement.visits_eq : Agreement.visits Eq = Eq := by
  funext v w
  rw [visits, Prod.ext_iff]

/-- Lists that `==` does not tell apart, item by item. -/
theorem beq_list_iff {α : Type} [BEq α] {l m : List α} :
    (l == m) = true ↔ List.Forall₂ (fun a b => (a == b) = true) l m := by
  induction l generalizing m <;> cases m <;> simp_all

/-- A field is its head and its children. -/
theorem Field.ext_head {f g : Field} (hhead : f.head = g.head)
    (hchildren : f.children = g.children) : f = g := by
  obtain ⟨name, label, arguments, children⟩ := f
  cases hhead
  cases hchildren
  rfl

theorem Field.beq_iff {f g : Field} :
    (f == g) = true ↔ (f.head == g.head) = true ∧ f.children = g.children := by
  have hfield : (f == g) = (f.name == g.name && (f.label == g.label &&
      (f.arguments == g.arguments && f.children == g.children))) := rfl
  have hhead : (f.head == g.head) =
      (f.name == g.name && (f.label == g.label && f.arguments == g.arguments)) := rfl
  rw [hfield, hhead]
  simp only [Bool.and_eq_true, beq_iff_eq, and_assoc]

/-! ## Forests -/

namespace Forest

/-- Forests of one form, the heads of which agree one by one. -/
inductive Alike (agree : Agreement) : Forest → Forest → Prop where
  | nil : Alike agree .nil .nil
  | cons {head head' : Head} {below below' rest rest' : Forest} : agree head head' →
      Alike agree below below' → Alike agree rest rest' →
      Alike agree (.cons head below rest) (.cons head' below' rest')

variable {agree : Agreement} {a b : Forest}

theorem Alike.visits (h : a.Alike agree b) (depth : Nat) :
    List.Forall₂ agree.visits (a.visits depth) (b.visits depth) := by
  induction h generalizing depth with
  | nil => exact .nil
  | cons hhead _ _ ihb ihr => exact .cons ⟨rfl, hhead⟩ (List.rel_append (ihb _) (ihr _))

/-- What comes after the fields below a parent does not begin deeper than the parent is. -/
def Ends (depth : Nat) (rest : List (Nat × Head)) : Prop := ∀ v ∈ rest.head?, v.1 ≤ depth

theorem ends_visits {depth : Nat} {rest : List (Nat × Head)} (h : Ends depth rest) (a : Forest) :
    Ends (depth + 1) (a.visits depth ++ rest) := by
  cases a with
  | nil => exact fun v hv => Nat.le_succ_of_le (h v hv)
  | cons head below after =>
      intro v hv
      cases hv
      exact Nat.le_refl _

/-- Agreeing heads in reading order tell where a forest ends, and that the forests are alike. -/
theorem alike_of_visits {depth : Nat} {rest rest' : List (Nat × Head)} (hrest : Ends depth rest)
    (hrest' : Ends depth rest')
    (h : List.Forall₂ agree.visits (a.visits depth ++ rest) (b.visits depth ++ rest')) :
    a.Alike agree b ∧ List.Forall₂ agree.visits rest rest' := by
  induction a generalizing b depth rest rest' with
  | nil =>
      cases b with
      | nil => exact ⟨.nil, h⟩
      | cons head below after =>
          -- The first head of the second forest is deeper than anything it could be met with.
          cases h with
          | cons hhead _ =>
              have hle := hrest _ rfl
              exact absurd hhead.1 (by omega)
  | cons head below after ihb ihr =>
      cases b with
      | nil =>
          cases h with
          | cons hhead _ =>
              have hle := hrest' _ rfl
              exact absurd hhead.1 (by omega)
      | cons head' below' after' =>
          rw [visits, visits, List.cons_append, List.cons_append, List.append_assoc,
            List.append_assoc] at h
          cases h with
          | cons hhead htail =>
              obtain ⟨hbelow, hafter⟩ :=
                ihb (ends_visits hrest after) (ends_visits hrest' after') htail
              obtain ⟨hafter, hend⟩ := ihr hrest hrest' hafter
              exact ⟨.cons hhead.2 hbelow hafter, hend⟩

theorem alike_iff_visits :
    a.Alike agree b ↔ List.Forall₂ agree.visits (a.visits 0) (b.visits 0) := by
  refine ⟨fun h => h.visits 0, fun h => ?_⟩
  have hempty : Ends 0 [] := nofun
  rw [← List.append_nil (a.visits 0), ← List.append_nil (b.visits 0)] at h
  exact (alike_of_visits hempty hempty h).1

end Forest

namespace Query

/-! ## Queries -/

/-- Queries with the same children everywhere and with heads that agree. -/
structure Alike (agree : Agreement) (q r : Query) : Prop where
  size_eq : q.fields.size = r.fields.size
  field : ∀ {place f g}, q.field? place = some f → r.field? place = some g →
    agree f.head g.head ∧ f.children = g.children

section

variable {agree : Agreement} {q r : Query} {a b : Forest}

theorem Alike.addHead (h : q.Alike agree r) {parent : Nat} (hp : parent < q.fields.size)
    {head head' : Head} (hhead : agree head head') :
    (q.addHead parent head).Alike agree (r.addHead parent head') := by
  refine ⟨by rw [size_addHead, size_addHead, h.size_eq], fun {place f g} hf hg => ?_⟩
  rw [field?_addHead hp] at hf
  rw [field?_addHead (h.size_eq ▸ hp), ← h.size_eq] at hg
  split at hf
  · rename_i hplace
    rw [if_pos hplace] at hg
    cases hf
    cases hg
    exact ⟨hhead, rfl⟩
  rename_i hplace
  rw [if_neg hplace] at hg
  split at hf
  · rename_i hparent
    rw [if_pos hparent] at hg
    obtain ⟨x, hx, rfl⟩ := Option.map_eq_some_iff.mp hf
    obtain ⟨y, hy, rfl⟩ := Option.map_eq_some_iff.mp hg
    obtain ⟨hagree, hchildren⟩ := h.field hx hy
    refine ⟨hagree, ?_⟩
    rw [Field.addChild, Field.addChild, hchildren]
  · rename_i hparent
    rw [if_neg hparent] at hg
    exact h.field hf hg

/-- Alike forests make alike queries out of such. -/
theorem Alike.addForest (h : q.Alike agree r) {parent : Nat} (hp : parent < q.fields.size)
    (hforest : a.Alike agree b) : (q.addForest parent a).Alike agree (r.addForest parent b) := by
  induction hforest generalizing q r parent with
  | nil => exact h
  | @cons head head' below below' rest rest' hhead _ _ ihb ihr =>
      have hnew : q.fields.size < (q.addHead parent head).fields.size := by
        rw [size_addHead]
        exact Nat.lt_succ_self _
      have hbelow := size_le_addForest (q.addHead parent head) q.fields.size below
      rw [Query.addForest, Query.addForest, ← h.size_eq]
      exact ihr (ihb (h.addHead hp hhead) hnew) (by omega)

/-- Alike queries show alike forests. -/
theorem Alike.shows (h : q.Alike agree r) {places : List Nat} (ha : q.Shows places a)
    (hb : r.Shows places b) : a.Alike agree b := by
  induction ha generalizing b with
  | nil =>
      cases hb with
      | nil => exact .nil
  | cons hfield _ _ ihb ihr =>
      cases hb with
      | cons hfield' hbelow hrest =>
          obtain ⟨hhead, hchildren⟩ := h.field hfield hfield'
          exact .cons hhead (ihb (hchildren ▸ hbelow)) (ihr hrest)

theorem alike_ofForest_iff (hroot : agree ⟨"", none, ∅⟩ ⟨"", none, ∅⟩) :
    (ofForest a).Alike agree (ofForest b) ↔ a.Alike agree b := by
  constructor
  · intro h
    obtain ⟨f, hf, -⟩ := exists_root_ofForest a
    obtain ⟨g, hg, -⟩ := exists_root_ofForest b
    have hrootFields : (ofForest a).rootFields = (ofForest b).rootFields := by
      rw [rootFields, rootFields, children_of_field?_eq_some hf, children_of_field?_eq_some hg]
      exact (h.field hf hg).2
    refine h.shows (represents_ofForest a) ?_
    rw [hrootFields]
    exact represents_ofForest b
  · intro h
    have hempty : empty.Alike agree empty := by
      refine ⟨rfl, fun {place f g} hf hg => ?_⟩
      obtain rfl := Option.some.inj (hf.symm.trans hg)
      have hplace : place < 1 := (Array.getElem?_eq_some_iff.mp hf).1
      obtain rfl := Nat.lt_one_iff.mp hplace
      cases hf
      exact ⟨hroot, rfl⟩
    exact hempty.addForest IsTree.empty.root_lt h

end

/-- The heads of all fields in reading order, each with its depth. -/
def heads (q : Query) : List (Nat × Head) := q.preorder.map fun v => (v.depth, v.field.head)

theorem heads_ofForest (forest : Forest) : (ofForest forest).heads = forest.visits 0 :=
  (isTree_ofForest forest).map_preorder (represents_ofForest forest)

/-- Queries that forests make are alike exactly if walks meet agreeing heads. -/
theorem alike_ofForest_iff_heads {agree : Agreement} (hroot : agree ⟨"", none, ∅⟩ ⟨"", none, ∅⟩)
    {a b : Forest} : (ofForest a).Alike agree (ofForest b) ↔
      List.Forall₂ agree.visits (ofForest a).heads (ofForest b).heads := by
  rw [alike_ofForest_iff hroot, Forest.alike_iff_visits, heads_ofForest, heads_ofForest]

/-! ## Two ways to compare -/

section

variable {q r : Query}

theorem alike_iff_getElem {agree : Agreement} : q.Alike agree r ↔
    ∃ h : q.fields.size = r.fields.size, ∀ (place : Nat) (hplace : place < q.fields.size),
      agree q.fields[place].head r.fields[place].head ∧
        q.fields[place].children = r.fields[place].children := by
  constructor
  · intro h
    refine ⟨h.size_eq, fun place hplace => ?_⟩
    have hplace' : place < r.fields.size := h.size_eq ▸ hplace
    have hf : q.field? place = some q.fields[place] := Array.getElem?_eq_getElem hplace
    have hg : r.field? place = some r.fields[place] := Array.getElem?_eq_getElem hplace'
    exact h.field hf hg
  · rintro ⟨hsize, hfields⟩
    refine ⟨hsize, fun {place f g} hf hg => ?_⟩
    obtain ⟨hplace, rfl⟩ := Array.getElem?_eq_some_iff.mp hf
    obtain ⟨_, rfl⟩ := Array.getElem?_eq_some_iff.mp hg
    exact hfields place hplace

theorem eq_iff_alike : q = r ↔ q.Alike Eq r := by
  rw [alike_iff_getElem]
  constructor
  · rintro rfl
    exact ⟨rfl, fun _ _ => ⟨rfl, rfl⟩⟩
  · rintro ⟨hsize, hfields⟩
    have hall : q.fields = r.fields := Array.ext hsize fun place hplace _ =>
      Field.ext_head (hfields place hplace).1 (hfields place hplace).2
    exact congrArg Query.mk hall

theorem beq_iff_alike : (q == r) = true ↔ q.Alike .same r := by
  have hfields : (q == r) = q.fields.isEqv r.fields (· == ·) := rfl
  rw [hfields, Array.isEqv_iff_rel, alike_iff_getElem]
  simp only [Field.beq_iff]
  rfl

end

/-! ## Queries that were read -/

theorem exists_ofForest_of_ofText {text : String} {q : Query} (h : ofText text = .ok q) :
    ∃ forest, Forest.ofText text = .ok forest ∧ q = ofForest forest := by
  simp only [ofText, Wire.readQuery_eq] at h
  simp only [Forest.ofText]
  cases hread : Wire.readForest (bytesOf text) with
  | error stop =>
      rw [hread] at h
      cases h
  | ok forest =>
      rw [hread] at h
      cases h
      exact ⟨forest, rfl, rfl⟩

/-- A query that was read stands in reading order, whatever the order of the members in its text: a
walk meets the places one after the other, and at these the heads that the text has in this order.
All fields have names, and the root says nothing of itself. So queries that were read are equal
exactly if walks meet equal heads at the same depths, as far as `==` can tell and outright. If the
fields can be counted in 32 bits, so can the depths. -/
theorem ofText_inOrder {text : String} {q : Query} (h : ofText text = .ok q) :
    q.preorder.map Visit.place = List.range' 1 q.fieldCount ∧
      (∀ v ∈ q.preorder, q.field? v.place = some v.field) ∧
      (∃ forest, Forest.ofText text = .ok forest ∧ q.heads = forest.visits 0) ∧
      (∀ place f, place ≠ root → q.field? place = some f → f.name ≠ "") ∧
      (∃ f, q.field? root = some f ∧ f.head = ⟨"", none, ∅⟩) ∧
      (q.fieldCount < UInt32.size → ∀ v ∈ q.preorder, v.depth < UInt32.size) ∧
      ∀ {other : String} {r : Query}, ofText other = .ok r →
        ((q == r) = true ↔ (q.heads == r.heads) = true) ∧ (q = r ↔ q.heads = r.heads) := by
  obtain ⟨forest, hforest, hq⟩ := exists_ofForest_of_ofText h
  have hnamed : ∀ place f, place ≠ root → q.field? place = some f → f.name ≠ "" :=
    fun _ _ hne hf => name_ne_of_ofText h hne hf
  subst hq
  have htree := isTree_ofForest forest
  refine ⟨map_place_preorder_ofForest forest, fun v hv => ?_,
    ⟨forest, hforest, heads_ofForest forest⟩, hnamed, exists_root_ofForest forest,
    fun hsmall v hv => ?_, fun {other r} hr => ?_⟩
  · rw [htree.preorder_eq] at hv
    exact (htree.mem_below_root.mp hv).field
  · rw [htree.preorder_eq] at hv
    exact (htree.depth_le_of_mem_below hv).trans_lt hsmall
  obtain ⟨forest', -, rfl⟩ := exists_ofForest_of_ofText hr
  constructor
  · have hroot : Agreement.same ⟨"", none, ∅⟩ ⟨"", none, ∅⟩ := rfl
    rw [beq_iff_alike, alike_ofForest_iff_heads hroot, Agreement.visits_same, beq_list_iff]
  · have hroot : (⟨"", none, ∅⟩ : Head) = ⟨"", none, ∅⟩ := rfl
    rw [eq_iff_alike, alike_ofForest_iff_heads hroot, Agreement.visits_eq, List.forall₂_eq_eq_eq]

/-- The first field is named after the list of fields below it and before another one, and the
outermost object has two lists and a name. The other text has each list once, after the name. -/
theorem ofText_inOrder_scattered :
    let text := "\x7b\"name\":\"x\",\"selections\":[\x7b\"selections\":[\x7b\"name\":\"b\"\x7d],"
      ++ "\"name\":\"a\",\"selections\":[\x7b\"name\":\"c\",\"arguments\":\x7b\"k\":1\x7d\x7d]\x7d],"
      ++ "\"selections\":[\x7b\"name\":\"d\"\x7d]\x7d"
    let other := "\x7b\"selections\":[\x7b\"name\":\"a\",\"selections\":[\x7b\"name\":\"b\"\x7d,"
      ++ "\x7b\"name\":\"c\",\"arguments\":\x7b\"k\":1\x7d\x7d]\x7d,\x7b\"name\":\"d\"\x7d]\x7d"
    ∃ q r, ofText text = .ok q ∧ ofText other = .ok r ∧
      q.preorder.map Visit.place = [1, 2, 3, 4] ∧
      q.heads.map (fun v => (v.1, v.2.name)) = [(1, "a"), (2, "b"), (2, "c"), (1, "d")] ∧
      (∀ place f, place ≠ root → q.field? place = some f → f.name ≠ "") ∧
      (∃ f, q.field? root = some f ∧ f.head = ⟨"", none, ∅⟩) ∧ (q == r) = true := by
  intro text other
  have hread : ((ofText text).toOption.map fun q =>
      (q.fieldCount, q.heads.map fun v => (v.1, v.2.name))) =
        some (4, [(1, "a"), (2, "b"), (2, "c"), (1, "d")]) := by decide +kernel
  have hother : (ofText other).toOption.isSome = true := by decide +kernel
  have hheads : ((ofText text).toOption.map heads == (ofText other).toOption.map heads) = true := by
    decide +kernel
  cases hq : ofText text with
  | error e =>
      rw [hq] at hread
      cases hread
  | ok q =>
      cases hr : ofText other with
      | error e =>
          rw [hr] at hother
          cases hother
      | ok r =>
          rw [hq, hr] at hheads
          rw [hq] at hread
          obtain ⟨hcount, hnames⟩ := Prod.mk.inj (Option.some.inj hread)
          obtain ⟨hplaces, -, -, hnamed, hroot, -, hsame⟩ := ofText_inOrder hq
          refine ⟨q, r, rfl, rfl, ?_, hnames, hnamed, hroot, (hsame hr).1.mpr hheads⟩
          rw [hplaces, hcount]
          rfl

end Query

end QueryAdmission
