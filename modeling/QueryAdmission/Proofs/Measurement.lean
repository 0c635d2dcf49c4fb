import Mathlib.Data.Set.Card
import Mathlib.Order.Bounds.Defs
import QueryAdmission.Proofs.Query.Representation
import QueryAdmission.Proofs.Shape

/-! # Measurements by recursion

Each measurement of a query is a recursion on its forest, although one walk takes them all and the
fields without a parent are not even counted by the walk. So the measurements of forests side by
side, and of a forest below a new field, are known from those of the parts. -/

namespace QueryAdmission

namespace Forest

/-- The number of fields on the longest way down. -/
def depth : Forest → Nat
  | .nil => 0
  | .cons _ below rest => max (below.depth + 1) rest.depth

def size : Forest → Nat
  | .nil => 0
  | .cons _ below rest => below.size + 1 + rest.size

/-- The number of fields side by side. -/
def width : Forest → Nat
  | .nil => 0
  | .cons _ _ rest => rest.width + 1

/-- The number of fields of one kind. -/
def count (p : Head → Bool) : Forest → Nat
  | .nil => 0
  | .cons head below rest => (if p head then 1 else 0) + below.count p + rest.count p

/-- All measurements of a forest. -/
def shape (sensitive : List String) (forest : Forest) : Shape where
  depth := forest.depth
  fields := forest.size
  rootFields := forest.width
  aliases := forest.count Head.isRenamed
  sensitiveFields := forest.count fun head => sensitive.contains head.name

/-! ## Forests made of others -/

theorem depth_append (a b : Forest) : (a ++ b).depth = max a.depth b.depth := by
  induction a with
  | nil => simp [depth]
  | cons head below rest _ ih => rw [cons_append, depth, depth, ih, max_assoc]

theorem size_append (a b : Forest) : (a ++ b).size = a.size + b.size := by
  induction a with
  | nil => simp [size]
  | cons head below rest _ ih => rw [cons_append, size, size, ih, ← Nat.add_assoc]

theorem width_append (a b : Forest) : (a ++ b).width = a.width + b.width := by
  induction a with
  | nil => simp [width]
  | cons head below rest _ ih => rw [cons_append, width, width, ih, Nat.add_right_comm]

theorem count_append (p : Head → Bool) (a b : Forest) :
    (a ++ b).count p = a.count p + b.count p := by
  induction a with
  | nil => simp [count]
  | cons head below rest _ ih => rw [cons_append, count, count, ih, ← Nat.add_assoc]

end Forest

namespace Shape

/-- The shape of two queries side by side. -/
def beside (a b : Shape) : Shape where
  depth := max a.depth b.depth
  fields := a.fields + b.fields
  rootFields := a.rootFields + b.rootFields
  aliases := a.aliases + b.aliases
  sensitiveFields := a.sensitiveFields + b.sensitiveFields

/-- The shape of a query below one new field. -/
def under (sensitive : List String) (head : Head) (s : Shape) : Shape where
  depth := s.depth + 1
  fields := s.fields + 1
  rootFields := 1
  aliases := (if head.isRenamed then 1 else 0) + s.aliases
  sensitiveFields := (if sensitive.contains head.name then 1 else 0) + s.sensitiveFields

end Shape

namespace Forest

theorem shape_append (sensitive : List String) (a b : Forest) :
    (a ++ b).shape sensitive = (a.shape sensitive).beside (b.shape sensitive) := by
  simp only [shape, Shape.beside, depth_append, size_append, width_append, count_append]

theorem shape_cons_nil (sensitive : List String) (head : Head) (below : Forest) :
    (Forest.cons head below .nil).shape sensitive =
      (below.shape sensitive).under sensitive head := by
  simp [shape, Shape.under, depth, size, width, count]

/-! ## Forests as they are visited -/

theorem length_visits (depth : Nat) (forest : Forest) :
    (forest.visits depth).length = forest.size := by
  induction forest generalizing depth with
  | nil => rfl
  | cons head below rest ihb ihr =>
      rw [visits, List.length_append, List.length_cons, ihb, ihr, size]

theorem countP_visits (p : Head → Bool) (depth : Nat) (forest : Forest) :
    (forest.visits depth).countP (fun e => p e.2) = forest.count p := by
  induction forest generalizing depth with
  | nil => rfl
  | cons head below rest ihb ihr =>
      rw [visits, List.countP_append, List.countP_cons, ihb, ihr, count,
        Nat.add_comm (below.count p)]

theorem forall_mem_visits_iff {depth most : Nat} {forest : Forest} :
    (∀ e ∈ forest.visits depth, e.1 ≤ most) ↔ forest = .nil ∨ depth + forest.depth ≤ most := by
  induction forest generalizing depth with
  | nil => simp [visits]
  | cons head below rest ihb ihr =>
      rw [visits, List.forall_mem_append, List.forall_mem_cons, ihb, ihr, Forest.depth]
      constructor
      · rintro ⟨⟨hhead, hbelow⟩, hrest⟩
        have hdown : depth + 1 + below.depth ≤ most := by
          rcases hbelow with rfl | hle
          · exact hhead
          · exact hle
        have hbeside : depth + rest.depth ≤ most := by
          rcases hrest with rfl | hle
          · exact Nat.le_of_succ_le hhead
          · exact hle
        omega
      · rintro (hcons | hle)
        · cases hcons
        · refine ⟨⟨?_, .inr ?_⟩, .inr ?_⟩ <;> omega

end Forest

namespace Query

theorem Shows.length_places {q : Query} {places : List Nat} {forest : Forest}
    (h : q.Shows places forest) : places.length = forest.width := by
  induction h with
  | nil => rfl
  | cons _ _ _ _ ihr => rw [List.length_cons, ihr, Forest.width]

end Query

namespace Shape

/-- What is measured of a query is what its forest has, by recursion. -/
theorem ofQuery_eq_shape {q : Query} (h : q.IsTree) {forest : Forest} (hf : q.Represents forest)
    (sensitive : List String) : ofQuery sensitive q = forest.shape sensitive := by
  have hvisits := h.map_preorder hf
  have hcount : ∀ (p : Field → Bool) (p' : Head → Bool), (∀ f, p f = p' f.head) →
      (q.preorder.countP fun v => p v.field) = forest.count p' := by
    intro p p' hp
    rw [← Forest.countP_visits p' 0 forest, ← hvisits, List.countP_map]
    exact List.countP_congr fun v _ => by simp [hp]
  have hdepth : (ofVisits sensitive q.rootFields.size q.preorder).depth = forest.depth := by
    apply eq_of_forall_ge_iff
    intro most
    have hall : (∀ v ∈ q.preorder, v.depth ≤ most) ↔ ∀ e ∈ forest.visits 0, e.1 ≤ most := by
      rw [← hvisits, List.forall_mem_map]
    rw [depth_ofVisits_le_iff, hall, Forest.forall_mem_visits_iff, Nat.zero_add]
    constructor
    · rintro (rfl | hle)
      · exact Nat.zero_le _
      · exact hle
    · exact .inr
  rw [ofQuery_eq, Shape.mk.injEq]
  refine ⟨hdepth, ?_, hf.length_places, ?_, ?_⟩
  · rw [Forest.shape, ← Forest.length_visits 0 forest, ← hvisits, List.length_map]
    rfl
  · exact hcount _ Head.isRenamed fun _ => rfl
  · exact hcount _ (fun head => sensitive.contains head.name) fun _ => rfl

theorem length_le_depth {q : Query} (h : q.IsTree) (sensitive : List String) {above : List Nat}
    {place : Nat} (hway : q.IsWay above place) :
    above.length ≤ (ofQuery sensitive q).depth := by
  cases hway with
  | root => exact Nat.zero_le _
  | down hparent hchild =>
      have hway := hparent.down hchild
      have hne : place ≠ Query.root := fun heq => h.root_notMem _ (heq ▸ hchild)
      have hall := depth_ofVisits_le_iff.mp
        (Nat.le_of_eq (congrArg Shape.depth (ofQuery_eq sensitive q)).symm)
      rw [h.preorder_eq] at hall
      exact hall _ (h.mem_below_of_isWay hway hne)

/-- Some way is as long as the depth. -/
theorem exists_isWay_depth_le {q : Query} (h : q.IsTree) (sensitive : List String) :
    ∃ above place, q.IsWay above place ∧ (ofQuery sensitive q).depth ≤ above.length := by
  by_contra hshort
  push Not at hshort
  have hpos := hshort [] Query.root .root
  have hle : (ofQuery sensitive q).depth ≤ (ofQuery sensitive q).depth - 1 := by
    nth_rewrite 1 [ofQuery_eq]
    rw [depth_ofVisits_le_iff, h.preorder_eq]
    intro v hv
    obtain ⟨-, -, above, hway, hdepth⟩ := h.mem_below_root.mp hv
    have := hshort above v.place hway
    omega
  rw [List.length_nil] at hpos
  omega

/-- Every way goes on to a field without children. -/
theorem exists_leaf {q : Query} (h : q.IsTree) (place : Nat) {above : List Nat}
    (hway : q.IsWay above place) :
    ∃ above' leaf, q.IsWay above' leaf ∧ q.children leaf = #[] ∧ above.length ≤ above'.length := by
  induction place using h.induction_below generalizing above with
  | step place ih =>
  by_cases hnone : q.children place = #[]
  · exact ⟨above, place, hway, hnone, Nat.le_refl _⟩
  · obtain ⟨child, hchild⟩ := Array.exists_mem_of_ne_empty _ hnone
    obtain ⟨above', leaf, hleaf, hnone, hle⟩ := ih child hchild (hway.down hchild)
    exact ⟨above', leaf, hleaf, hnone, Nat.le_of_succ_le hle⟩

/-- The depth is the length of the longest way to a field without children. -/
theorem isGreatest_depth {q : Query} (h : q.IsTree) (sensitive : List String) :
    IsGreatest {n | ∃ above leaf, q.IsWay above leaf ∧ q.children leaf = #[] ∧ n = above.length}
      (ofQuery sensitive q).depth := by
  constructor
  · obtain ⟨above, place, hway, hle⟩ := exists_isWay_depth_le h sensitive
    obtain ⟨above', leaf, hleaf, hnone, hle'⟩ := exists_leaf h place hway
    exact ⟨above', leaf, hleaf, hnone,
      Nat.le_antisymm (hle.trans hle') (length_le_depth h sensitive hleaf)⟩
  · rintro n ⟨above, leaf, hleaf, -, rfl⟩
    exact length_le_depth h sensitive hleaf

/-- The fields without a parent are those that ways of one step lead to. -/
theorem rootFields_ofQuery {q : Query} (h : q.IsTree) (sensitive : List String) :
    (ofQuery sensitive q).rootFields =
      {place | ∃ above, q.IsWay above place ∧ above.length = 1}.ncard := by
  have hset : {place | ∃ above, q.IsWay above place ∧ above.length = 1} =
      q.rootFields.toList.toFinset := by
    ext place
    rw [List.coe_toFinset, Set.mem_ofPred_eq, Set.mem_ofPred_eq, Array.mem_toList_iff]
    constructor
    · rintro ⟨_, hway | ⟨hparent, hchild⟩, hlength⟩
      · cases hlength
      · rw [List.length_cons, Nat.add_eq_right, List.length_eq_zero_iff] at hlength
        subst hlength
        cases hparent
        exact hchild
    · intro hin
      exact ⟨[Query.root], .down .root hin, rfl⟩
  have hnodup : q.rootFields.toList.Nodup :=
    (h.ascending Query.root).imp fun hlt => Nat.ne_of_lt hlt
  rw [hset, Set.ncard_coe_finset, List.toFinset_card_of_nodup hnodup, ofQuery_eq]
  rfl

/-- What a query's fields and the ways to them say of each measurement. -/
structure IsShapeOf (s : Shape) (sensitive : List String) (q : Query) : Prop where
  /-- The longest way to a field without children. -/
  depth : IsGreatest
    {n | ∃ above leaf, q.IsWay above leaf ∧ q.children leaf = #[] ∧ n = above.length} s.depth
  depth_eq_zero_iff : s.depth = 0 ↔ q.fieldCount = 0
  fields : s.fields = q.fieldCount
  /-- The fields that ways of one step lead to. -/
  rootFields : s.rootFields = {place | ∃ above, q.IsWay above place ∧ above.length = 1}.ncard
  aliases : s.aliases =
    (q.fields.toList.drop 1).countP fun f => decide (∃ label ∈ f.label, label ≠ f.name)
  sensitiveFields : s.sensitiveFields =
    (q.fields.toList.drop 1).countP fun f => decide (f.name ∈ sensitive)

theorem isShapeOf_ofQuery {q : Query} (h : q.IsTree) (sensitive : List String) :
    (ofQuery sensitive q).IsShapeOf sensitive q where
  depth := isGreatest_depth h sensitive
  depth_eq_zero_iff := by
    obtain ⟨forest, hf⟩ := h.exists_represents
    rw [← h.length_preorder, ← List.length_map, h.map_preorder hf, Forest.length_visits,
      ofQuery_eq_shape h hf]
    cases forest <;> simp [Forest.shape, Forest.depth, Forest.size]
  fields := by
    rw [ofQuery_eq, ← h.length_preorder]
    rfl
  rootFields := rootFields_ofQuery h sensitive
  aliases := by
    rw [ofQuery_eq, ← h.countP_preorder]
    refine List.countP_congr fun v _ => ?_
    rw [decide_eq_true_iff]
    exact Head.isRenamed_iff (h := v.field.head)
  sensitiveFields := by
    rw [ofQuery_eq, ← h.countP_preorder]
    refine List.countP_congr fun v _ => ?_
    rw [List.contains_iff_mem, decide_eq_true_iff]

/-- However a query has come about, what one walk measures of it is what its forest has by
recursion, and what the fields and the ways to them say. Side by side, forests have the greater
depth and the sums of the rest; below a new field, a forest is one deeper. -/
theorem ofQuery_of_arises {q : Query} {n : Nat} (h : q.Arises n) (hn : n < UInt32.size)
    (sensitive : List String) :
    (ofQuery sensitive q).IsShapeOf sensitive q ∧ (ofQuery sensitive q).fields < UInt32.size ∧
      ∃ forest, (∀ f, q.Represents f ↔ f = forest) ∧
        ofQuery sensitive q = forest.shape sensitive ∧
        (∀ {qa qb : Query} {a b : Forest}, qa.IsTree → qb.IsTree → qa.Represents a →
          qb.Represents b → forest = a ++ b →
          ofQuery sensitive q = (ofQuery sensitive qa).beside (ofQuery sensitive qb)) ∧
        (∀ {qb : Query} {head : Head} {below : Forest}, qb.IsTree → qb.Represents below →
          forest = .cons head below .nil →
          ofQuery sensitive q = (ofQuery sensitive qb).under sensitive head) := by
  obtain ⟨htree, -, -, -, hcount⟩ := Query.isTree_of_arises h
  obtain ⟨forest, hf⟩ := htree.exists_represents
  have hshape := ofQuery_eq_shape htree hf sensitive
  have hsize := (isShapeOf_ofQuery htree sensitive).fields
  refine ⟨isShapeOf_ofQuery htree sensitive, by omega, forest, fun f => ⟨hf.unique, ?_⟩, hshape,
    ?_, ?_⟩
  · rintro rfl
    exact hf
  · rintro qa qb a b ha hb hfa hfb rfl
    rw [hshape, Forest.shape_append, ofQuery_eq_shape ha hfa, ofQuery_eq_shape hb hfb]
  · rintro qb head below hb hfb rfl
    rw [hshape, Forest.shape_cons_nil, ofQuery_eq_shape hb hfb]

/-- Three fields below each other, the last one added after a fourth one beside them. -/
theorem ofQuery_of_arises_late :
    let edits : List Edit := [.add Query.root "a" none, .add Query.root "b" (some "x"),
      .add 1 "c" none, .add 3 "d" none]
    let q := Query.empty.edit edits
    let a : Forest := .cons ⟨"a", none, ∅⟩ (.cons ⟨"c", none, ∅⟩
      (.cons ⟨"d", none, ∅⟩ .nil .nil) .nil) .nil
    let b : Forest := .cons ⟨"b", some "x", ∅⟩ .nil .nil
    Query.empty.Permits [Query.root] edits ∧ edits.countP Edit.isAdd < UInt32.size ∧
      q.Represents (a ++ b) ∧ ofQuery ["d"] q = ⟨3, 4, 2, 1, 1⟩ ∧
      ofQuery ["d"] q =
        (ofQuery ["d"] (Query.ofForest a)).beside (ofQuery ["d"] (Query.ofForest b)) := by
  intro edits q a b
  have hedits : Query.empty.Permits [Query.root] edits := by decide
  have hsmall : edits.countP Edit.isAdd < UInt32.size := by decide
  have hd : q.Shows [4] _ := .cons (f := ⟨"d", none, ∅, #[]⟩) rfl .nil .nil
  have hc : q.Shows [3] _ := .cons (f := ⟨"c", none, ∅, #[4]⟩) rfl hd .nil
  have hb : q.Shows [2] b := .cons (f := ⟨"b", some "x", ∅, #[]⟩) rfl .nil .nil
  have hf : q.Represents (a ++ b) := .cons (f := ⟨"a", none, ∅, #[3]⟩) rfl hc hb
  obtain ⟨-, -, forest, hforest, hshape, hbeside, -⟩ :=
    ofQuery_of_arises (.edits hedits) hsmall ["d"]
  obtain rfl := (hforest _).mp hf
  exact ⟨hedits, hsmall, hf, hshape.trans (by decide +kernel),
    hbeside (Query.isTree_ofForest a) (Query.isTree_ofForest b) (Query.represents_ofForest a)
      (Query.represents_ofForest b) rfl⟩

end Shape

end QueryAdmission
