import Mathlib.Algebra.Order.BigOperators.Group.List
import Mathlib.Data.List.Perm.Subperm
import QueryAdmission.Proofs.Gate
import QueryAdmission.Proofs.Measurement

/-! # What a gate sees

Of each field a gate sees how deep it is, what it is called and whether its answer is wanted under
another name, and it sees nothing else. The order in which it sees the fields is the same to it, and
the more of them it sees, the more it measures. -/

namespace QueryAdmission

/-- What a gate sees of a field. -/
structure Aspect where
  depth : Nat
  name : String
  isRenamed : Bool

namespace Aspect

def ofVisit (v : Visit) : Aspect := ⟨v.depth, v.field.name, v.field.isRenamed⟩

def ofHead (v : Nat × Head) : Aspect := ⟨v.1, v.2.name, v.2.isRenamed⟩

end Aspect

/-- What a gate sees of a query. -/
def Query.aspects (q : Query) : List Aspect := q.preorder.map .ofVisit

theorem Query.IsTree.aspects_eq {q : Query} (h : q.IsTree) {forest : Forest}
    (hf : q.Represents forest) : q.aspects = (forest.visits 0).map .ofHead := by
  rw [← h.map_preorder hf, List.map_map]
  rfl

/-! ## Fields without a parent -/

theorem Forest.lt_of_mem_visits {depth : Nat} {forest : Forest} :
    ∀ v ∈ forest.visits depth, depth < v.1 := by
  induction forest generalizing depth with
  | nil => exact fun v hv => absurd hv List.not_mem_nil
  | cons head below rest ihb ihr =>
      rw [visits, List.forall_mem_append, List.forall_mem_cons]
      exact ⟨⟨Nat.lt_succ_self _, fun v hv => Nat.lt_of_succ_lt (ihb v hv)⟩, ihr⟩

/-- The fields side by side are those that are least deep. -/
theorem Forest.countP_least_visits (depth : Nat) (forest : Forest) :
    ((forest.visits depth).countP fun v => v.1 == depth + 1) = forest.width := by
  induction forest with
  | nil => rfl
  | cons head below rest _ ihr =>
      have hbelow : ((below.visits (depth + 1)).countP fun v => v.1 == depth + 1) = 0 := by
        rw [List.countP_eq_zero]
        intro v hv
        have := lt_of_mem_visits v hv
        simp only [beq_iff_eq]
        omega
      rw [visits, List.countP_append, List.countP_cons, hbelow, ihr, width]
      simp [Nat.add_comm]

theorem Query.IsTree.size_rootFields {q : Query} (h : q.IsTree) :
    q.rootFields.size = q.aspects.countP fun a => a.depth == 1 := by
  obtain ⟨forest, hf⟩ := h.exists_represents
  rw [h.aspects_eq hf, List.countP_map, ← Array.length_toList, hf.length_places,
    ← forest.countP_least_visits 0]
  rfl

/-! ## Measurements by aspects -/

/-- All that is measured of fields with some aspects, under some settings. -/
def Settings.measure (s : Settings) (aspects : List Aspect) : Analysis where
  shape :=
    { depth := (aspects.map Aspect.depth).foldl max 0
      fields := aspects.length
      rootFields := aspects.countP fun a => a.depth == 1
      aliases := aspects.countP Aspect.isRenamed
      sensitiveFields := aspects.countP fun a => s.sensitiveFields.contains a.name }
  cost := min (aspects.map fun a => s.costs.weightOf a.name).sum Pricing.maxCost

/-- A gate sees nothing but aspects. -/
theorem Gate.analyse_eq {s : Settings} {g : Gate} (hg : ofSettings s = .ok g) {q : Query}
    (hq : q.IsTree) : g.analyse q = s.measure q.aspects := by
  obtain ⟨-, pricing, hpricing, rfl⟩ := ofSettings_eq hg
  have hprice : (fun v : Visit => pricing.price v.field) =
      (fun a : Aspect => s.costs.weightOf a.name) ∘ .ofVisit :=
    funext fun v => Pricing.price_ofSettings hpricing v.field
  have hshape : Shape.ofQuery s.sensitiveFields q = (s.measure q.aspects).shape := by
    rw [Shape.ofQuery_eq, hq.size_rootFields, Settings.measure, Shape.ofVisits, Query.aspects,
      List.map_map, List.length_map, List.countP_map, List.countP_map, List.countP_map]
    rfl
  have hcost : pricing.cost q = (s.measure q.aspects).cost := by
    rw [Pricing.cost_eq, hprice, ← List.map_map]
    rfl
  exact congrArg₂ Analysis.mk hshape hcost

/-! ## More fields -/

/-- No measurement is greater. -/
structure Analysis.AtMost (a b : Analysis) : Prop where
  depth : a.shape.depth ≤ b.shape.depth
  fields : a.shape.fields ≤ b.shape.fields
  rootFields : a.shape.rootFields ≤ b.shape.rootFields
  aliases : a.shape.aliases ≤ b.shape.aliases
  sensitiveFields : a.shape.sensitiveFields ≤ b.shape.sensitiveFields
  cost : a.cost ≤ b.cost

theorem Analysis.AtMost.antisymm {a b : Analysis} (h : a.AtMost b) (h' : b.AtMost a) : a = b := by
  obtain ⟨⟨depth, fields, rootFields, aliases, sensitiveFields⟩, cost⟩ := a
  obtain ⟨⟨depth', fields', rootFields', aliases', sensitiveFields'⟩, cost'⟩ := b
  rw [Analysis.mk.injEq, Shape.mk.injEq]
  exact ⟨⟨Nat.le_antisymm h.depth h'.depth, Nat.le_antisymm h.fields h'.fields,
    Nat.le_antisymm h.rootFields h'.rootFields, Nat.le_antisymm h.aliases h'.aliases,
    Nat.le_antisymm h.sensitiveFields h'.sensitiveFields⟩, Nat.le_antisymm h.cost h'.cost⟩

theorem foldl_max_le_iff {l : List Nat} {least most : Nat} :
    l.foldl max least ≤ most ↔ least ≤ most ∧ ∀ n ∈ l, n ≤ most := by
  induction l generalizing least with
  | nil => simp
  | cons n l ih => rw [List.foldl_cons, ih, max_le_iff, List.forall_mem_cons, and_assoc]

/-- Among more numbers there is no smaller greatest one, and their sum is no smaller. -/
theorem foldl_max_mono {l m : List Nat} (h : l ⊆ m) : l.foldl max 0 ≤ m.foldl max 0 := by
  obtain ⟨-, hall⟩ := foldl_max_le_iff.mp (Nat.le_refl (m.foldl max 0))
  exact foldl_max_le_iff.mpr ⟨Nat.zero_le _, fun n hn => hall n (h hn)⟩

theorem sum_mono {l m : List Nat} (h : l.Subperm m) : l.sum ≤ m.sum := by
  obtain ⟨k, hperm, hsub⟩ := h
  rw [← hperm.sum_eq]
  exact hsub.sum_le_sum fun _ _ => Nat.zero_le _

theorem subperm_map {α β : Type} (f : α → β) {l m : List α} (h : l.Subperm m) :
    (l.map f).Subperm (m.map f) := by
  obtain ⟨k, hperm, hsub⟩ := h
  exact ⟨k.map f, hperm.map f, hsub.map f⟩

namespace Settings

variable {s : Settings} {l m : List Aspect}

/-- Whoever sees more measures no less. -/
theorem measure_mono (h : l.Subperm m) : (s.measure l).AtMost (s.measure m) where
  depth := foldl_max_mono (List.map_subset _ h.subset)
  fields := h.length_le
  rootFields := h.countP_le _
  aliases := h.countP_le _
  sensitiveFields := h.countP_le _
  cost := by
    have := sum_mono (subperm_map (fun a => s.costs.weightOf a.name) h)
    dsimp only [measure]
    omega

/-- The order in which fields are seen is all the same. -/
theorem measure_eq_of_perm (h : l.Perm m) : s.measure l = s.measure m :=
  (measure_mono h.subperm).antisymm (measure_mono h.symm.subperm)

end Settings

/-! ## Breaches -/

/-- The same limit with the same threshold, and no more observed. -/
def Breach.AtMost (x y : Breach) : Prop :=
  x.limit = y.limit ∧ x.threshold = y.threshold ∧ x.observed ≤ y.observed

namespace LimitSettings

variable {s : LimitSettings} {a b : Analysis}

/-- The same limits are compared, each with the same threshold. -/
theorem forall₂_comparisons (s : LimitSettings) (h : a.AtMost b) :
    List.Forall₂ (fun c d => c.1 = d.1 ∧ c.2.AtMost d.2) (s.comparisons a) (s.comparisons b) :=
  .cons ⟨rfl, rfl, rfl, h.depth⟩ <| .cons ⟨rfl, rfl, rfl, h.fields⟩ <|
    .cons ⟨rfl, rfl, rfl, h.rootFields⟩ <| .cons ⟨rfl, rfl, rfl, h.aliases⟩ <|
    .cons ⟨rfl, rfl, rfl, h.sensitiveFields⟩ <| .cons ⟨rfl, rfl, rfl, h.cost⟩ .nil

theorem exists_mem_of_forall₂ {α : Type} {R : α → α → Prop} {l m : List α}
    (h : List.Forall₂ R l m) {x : α} (hx : x ∈ l) : ∃ y ∈ m, R x y := by
  induction h with
  | nil => cases hx
  | cons hhead _ ih =>
      rcases List.mem_cons.mp hx with rfl | hx
      · exact ⟨_, List.mem_cons_self, hhead⟩
      · obtain ⟨y, hy, hrel⟩ := ih hx
        exact ⟨y, List.mem_cons_of_mem _ hy, hrel⟩

/-- Every breach stays one when no measurement becomes smaller. -/
theorem exists_breach_of_atMost (h : a.AtMost b) {x : Breach} (hx : x ∈ s.breached a) :
    ∃ y ∈ s.breached b, x.AtMost y := by
  obtain ⟨hcompared, hover⟩ := mem_breached.mp hx
  obtain ⟨⟨enforced, y⟩, hy, rfl, hlimit, hthreshold, hobserved⟩ :=
    exists_mem_of_forall₂ (s.forall₂_comparisons h) hcompared
  have hover' : y.threshold < y.observed := by
    dsimp only at hthreshold hobserved
    omega
  exact ⟨y, mem_breached.mpr ⟨hy, hover'⟩, hlimit, hthreshold, hobserved⟩

end LimitSettings

end QueryAdmission
