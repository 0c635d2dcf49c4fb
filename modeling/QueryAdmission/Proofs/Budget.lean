import QueryAdmission.Proofs.Gate
import QueryAdmission.Proofs.Shape

/-! # What a budget bounds

No field is free, so what a query costs bounds how large it is in every other way. A gate that
enforces nothing but the cost still keeps out all queries that are larger than the budget. -/

namespace QueryAdmission

/-! ## The size of a query and its shape -/

namespace Query.IsTree

variable {q : Query}

theorem fields_ofQuery (h : q.IsTree) (sensitive : List String) :
    (Shape.ofQuery sensitive q).fields = q.fieldCount := by
  rw [Shape.ofQuery_eq]
  exact h.preorder_eq ▸ h.length_below

theorem depth_le_fields (h : q.IsTree) (sensitive : List String) :
    (Shape.ofQuery sensitive q).depth ≤ (Shape.ofQuery sensitive q).fields := by
  rw [h.fields_ofQuery, Shape.ofQuery_eq, Shape.depth_ofVisits_le_iff, h.preorder_eq]
  intro v hv
  exact h.depth_le_of_mem_below hv

theorem rootFields_le_fields (h : q.IsTree) (sensitive : List String) :
    (Shape.ofQuery sensitive q).rootFields ≤ (Shape.ofQuery sensitive q).fields := by
  rw [h.fields_ofQuery, Shape.ofQuery_eq]
  exact h.size_children_le root

end Query.IsTree

theorem Shape.aliases_le_fields (sensitive : List String) (q : Query) :
    (ofQuery sensitive q).aliases ≤ (ofQuery sensitive q).fields := by
  rw [ofQuery_eq]
  exact List.countP_le_length

/-! ## The cost of a query and its size -/

namespace Pricing

/-- Some of the fields, at the least price that any of them has, cost no more than all. -/
theorem countP_mul_le_sum {α : Type} (p : α → Bool) (price : α → Nat) {least : Nat} {l : List α}
    (h : ∀ a ∈ l, p a = true → least ≤ price a) : l.countP p * least ≤ (l.map price).sum := by
  induction l with
  | nil => simp
  | cons a l ih =>
      obtain ⟨ha, hl⟩ := List.forall_mem_cons.mp h
      have hrest := ih hl
      rw [List.countP_cons, List.map_cons, List.sum_cons, Nat.add_mul]
      split
      · rename_i hp
        have := ha hp
        omega
      · omega

variable {s : CostSettings} {p : Pricing} {q : Query}

theorem fieldCount_le_cost (h : ofSettings s = .ok p) (hq : q.IsTree)
    (hsize : q.fieldCount ≤ maxCost) : q.fieldCount ≤ p.cost q := by
  have hpaid : ∀ v ∈ q.preorder, true = true → 1 ≤ p.price v.field := by
    intro v _ _
    rw [price_ofSettings h]
    exact one_le_weightOf h v.field.name
  have hsum := countP_mul_le_sum (fun _ => true) (fun v : Visit => p.price v.field) hpaid
  rw [List.countP_true, Nat.mul_one, hq.length_preorder] at hsum
  rw [cost_eq]
  exact le_min hsum hsize

/-- As long as the cost is not cut off, all fields of one name are paid for. -/
theorem occurrences_mul_le_cost (h : ofSettings s = .ok p) (hq : q.IsTree)
    (hcost : p.cost q < maxCost) (name : String) :
    q.occurrences name * s.weightOf name ≤ p.cost q := by
  rw [cost_eq] at hcost ⊢
  rw [Nat.min_eq_left (by omega)]
  have hcount : q.occurrences name = q.preorder.countP fun v => v.field.name == name :=
    (hq.countP_preorder fun f => f.name == name).symm
  rw [hcount]
  apply countP_mul_le_sum
  intro v _ hname
  rw [price_ofSettings h, beq_iff_eq.mp hname]

end Pricing

namespace Gate

/-- With valid settings every field has the price of its name, which is not zero. The cost of a
query is therefore no less than the number of its fields, and its depth, the fields without a parent
and the renamed ones are no more than that. If the cost is enforced, then whatever else is not, an
admitted query is in each of these ways within the budget, and so is what the fields of any one name
cost together, unless the budget is more than costs can be told apart from. -/
theorem size_le_budget {s : Settings} {q : Query} {n : Nat} (hvalid : s.validate = .ok ())
    (hcost : s.limits.enforceCost = true) (hq : q.Arises n) (hn : n < UInt32.size) :
    ∃ g, ofSettings s = .ok g ∧
      (∀ f, g.pricing.price f = s.costs.weightOf f.name ∧ 1 ≤ g.pricing.price f) ∧
      let a := g.analyse q
      let most := s.limits.cost.toNat
      a.shape.fields = q.fieldCount ∧
      a.shape.fields ≤ a.cost ∧ a.shape.depth ≤ a.shape.fields ∧
      a.shape.rootFields ≤ a.shape.fields ∧ a.shape.aliases ≤ a.shape.fields ∧
      (g.check q = .admitted →
        a.shape.fields ≤ most ∧ a.shape.depth ≤ most ∧ a.shape.rootFields ≤ most ∧
        a.shape.aliases ≤ most ∧
        (most < UInt64.size - 1 →
          ∀ name, q.occurrences name * s.costs.weightOf name ≤ most)) := by
  obtain ⟨htree, -, -, -, hcount⟩ := Query.isTree_of_arises hq
  obtain ⟨g, hg⟩ := exists_ofSettings (Settings.validate_eq_ok.mp hvalid)
  obtain ⟨-, pricing, hpricing, rfl⟩ := ofSettings_eq hg
  refine ⟨_, hg, fun f => ?_, ?_⟩
  · rw [Pricing.price_ofSettings hpricing]
    exact ⟨rfl, Pricing.one_le_weightOf hpricing f.name⟩
  have hsmall : q.fieldCount ≤ Pricing.maxCost := by
    rw [hcount]
    exact Nat.le_trans (Nat.le_of_lt hn) (by decide)
  have hfields := htree.fields_ofQuery s.sensitiveFields
  have hcostly := hfields.trans_le (Pricing.fieldCount_le_cost hpricing htree hsmall)
  have hdepth := htree.depth_le_fields s.sensitiveFields
  have hroots := htree.rootFields_le_fields s.sensitiveFields
  have haliases := Shape.aliases_le_fields s.sensitiveFields q
  refine ⟨hfields, hcostly, hdepth, hroots, haliases, fun hadmitted => ?_⟩
  have hcompared : (true, Breach.mk .cost (pricing.cost q) s.limits.cost.toNat) ∈
      s.limits.comparisons ⟨.ofQuery s.sensitiveFields q, pricing.cost q⟩ := by
    simp [LimitSettings.comparisons, hcost]
  have hwithin := observed_le_of_admitted hg hadmitted hcompared
  have hmost := hcostly.trans hwithin
  refine ⟨hmost, hdepth.trans hmost, hroots.trans hmost, haliases.trans hmost, fun hword name => ?_⟩
  exact (Pricing.occurrences_mul_le_cost hpricing htree (Nat.lt_of_le_of_lt hwithin hword)
    name).trans hwithin

/-- A query that costs all of its budget, where nothing else is enforced. -/
theorem size_le_budget_exact :
    let s : Settings :=
      { limits := { cost := 7, enforceDepth := false, enforceWidth := false,
                    enforceSensitiveFields := false }
        costs := { weights := (∅ : Keyed Int64).insert "users" 3 } }
    let edits : List Edit := [.add Query.root "users" none, .add 1 "users" (some "u"),
      .add 2 "id" none]
    let q := Query.empty.edit edits
    s.validate = .ok () ∧ s.limits.enforceCost = true ∧ q.Arises 3 ∧ 3 < UInt32.size ∧
      ∃ g, ofSettings s = .ok g ∧ g.check q = .admitted ∧ (g.analyse q).shape.depth ≤ 7 ∧
        q.occurrences "users" * s.costs.weightOf "users" ≤ 7 := by
  intro s edits q
  have hvalid : s.validate = .ok () := by rfl
  have hedits : Query.empty.Permits [Query.root] edits := by decide
  have hq : q.Arises 3 := .edits hedits
  obtain ⟨g, hg, -, -, -, -, -, -, hbudget⟩ := size_le_budget hvalid rfl hq (by decide)
  have hadmitted : g.check q = .admitted := by
    have hcheck : ((ofSettings s).toOption.map fun g => g.check q) = some .admitted := by
      decide +kernel
    rw [hg] at hcheck
    exact Option.some.inj hcheck
  obtain ⟨-, hdepth, -, -, hnames⟩ := hbudget hadmitted
  exact ⟨hvalid, rfl, hq, by decide, g, hg, hadmitted, hdepth, hnames (by decide) "users"⟩

end Gate

end QueryAdmission
