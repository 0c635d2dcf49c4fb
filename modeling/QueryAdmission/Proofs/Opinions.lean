import Mathlib.Algebra.BigOperators.Group.List.Basic
import QueryAdmission.Proofs.Pricing
import QueryAdmission.Proofs.Query.Building

/-! # First opinions

Sources are asked in order, and the first opinion counts, be it that a field is free. So sources
that are added later have a say only on the fields on which all earlier ones are silent. The prices
of settings leave them none. -/

namespace QueryAdmission.Pricing

/-- Adds sources, one after the other. -/
def appendAll (p : Pricing) (quotes : List Quote) : Pricing := quotes.foldl append p

/-- Some source has an opinion on the field. -/
def HasOpinion (p : Pricing) (f : Field) : Prop := ∃ quote ∈ p.quotes, ∃ price, quote f = some price

variable {p : Pricing} {f : Field}

theorem hasOpinion_iff_isSome :
    p.HasOpinion f ↔ (p.quotes.findSome? fun quote => quote f).isSome := by
  simp only [HasOpinion, List.isSome_findSome?, List.any_eq_true, Option.isSome_iff_exists]

instance (p : Pricing) (f : Field) : Decidable (p.HasOpinion f) :=
  decidable_of_iff _ hasOpinion_iff_isSome.symm

theorem appendAll_eq (p : Pricing) (quotes : List Quote) :
    p.appendAll quotes = ⟨p.quotes ++ quotes, p.fallback⟩ := by
  induction quotes generalizing p with
  | nil =>
      rw [List.append_nil]
      rfl
  | cons quote quotes ih =>
      rw [appendAll, List.foldl_cons, ← appendAll, ih, append, List.append_assoc]
      rfl

/-! ## Prices with later sources -/

theorem price_of_not_hasOpinion (h : ¬ p.HasOpinion f) : p.price f = p.fallback := by
  rw [hasOpinion_iff_isSome, Option.not_isSome_iff_eq_none] at h
  rw [price, h, Option.getD_none]

theorem price_appendAll (p : Pricing) (quotes : List Quote) (f : Field) :
    (p.appendAll quotes).price f =
      if p.HasOpinion f then p.price f else (appendAll ⟨[], p.fallback⟩ quotes).price f := by
  rw [appendAll_eq, appendAll_eq, List.nil_append, price, List.findSome?_append]
  split
  · rename_i hopinion
    obtain ⟨price, hprice⟩ := Option.isSome_iff_exists.mp (hasOpinion_iff_isSome.mp hopinion)
    rw [Pricing.price, hprice, Option.some_or, Option.getD_some]
  · rename_i hnone
    rw [hasOpinion_iff_isSome, Option.not_isSome_iff_eq_none] at hnone
    rw [hnone, Option.none_or]
    rfl

/-- Where no source has an opinion, a later one can change the price. -/
theorem exists_price_appendAll_ne (h : ¬ p.HasOpinion f) :
    ∃ quotes, (p.appendAll quotes).price f ≠ p.price f := by
  let other := if p.fallback = 0 then 1 else 0
  have hother : other ≠ p.fallback := by
    dsimp only [other]
    split <;> omega
  refine ⟨[.flat other], ?_⟩
  rw [price_appendAll, if_neg h, price_of_not_hasOpinion h, appendAll_eq]
  exact hother

/-! ## The prices of settings -/

theorem hasOpinion_ofSettings {s : CostSettings} (h : ofSettings s = .ok p) (f : Field) :
    p.HasOpinion f := by
  obtain ⟨hzero, hbad⟩ := exists_ofSettings_iff.mp ⟨p, h⟩
  rw [ofSettings_eq, if_neg hzero, if_pos hbad] at h
  cases h
  exact ⟨.flat s.defaultWeight.toNat, by simp, _, rfl⟩

/-- Sources that are added have no effect on the price of a field on which an earlier one has an
opinion, be it that the field is free. On any other field they have: it costs what they alone, with
the same fallback, make of it, and there are sources that change its price. So the cost of a query
is the sum of the old prices of the former and of the new prices of the latter, up to the greatest
cost. The pricing of settings has an opinion on every field, its weight or else the default one, so
that no source which is added to it changes any price or any cost. -/
theorem price_appendAll_of_hasOpinion (p : Pricing) (quotes : List Quote) :
    let longer := p.appendAll quotes
    let later := appendAll ⟨[], p.fallback⟩ quotes
    (∀ f, p.HasOpinion f → longer.price f = p.price f) ∧
    (∀ f, ¬ p.HasOpinion f → longer.price f = later.price f) ∧
    (∀ f, ¬ p.HasOpinion f ↔ ∃ others, (p.appendAll others).price f ≠ p.price f) ∧
    (∀ q : Query, longer.cost q =
      min (((q.preorder.filter fun v => p.HasOpinion v.field).map fun v => p.price v.field).sum +
        ((q.preorder.filter fun v => ¬ p.HasOpinion v.field).map fun v => later.price v.field).sum)
        maxCost) ∧
    ∀ s : CostSettings, ofSettings s = .ok p →
      (∀ f, p.HasOpinion f ∧ p.price f = s.weightOf f.name ∧ longer.price f = p.price f) ∧
      ∀ q : Query, longer.cost q = p.cost q := by
  intro longer later
  have hopinion : ∀ f, p.HasOpinion f → longer.price f = p.price f := fun f h => by
    rw [price_appendAll, if_pos h]
  refine ⟨hopinion, fun f h => ?_, fun f => ⟨exists_price_appendAll_ne, ?_⟩, fun q => ?_,
    fun s hs => ⟨fun f => ?_, fun q => ?_⟩⟩
  · rw [price_appendAll, if_neg h]
  · rintro ⟨others, hne⟩ h
    rw [price_appendAll, if_pos h] at hne
    exact hne rfl
  · rw [← List.sum_map_ite, cost_eq]
    simp only [longer, later, price_appendAll p quotes]
  · have h := hasOpinion_ofSettings hs f
    exact ⟨h, price_ofSettings hs f, hopinion f h⟩
  · rw [cost_eq, cost_eq]
    simp only [hopinion _ (hasOpinion_ofSettings hs _)]

/-- A source that makes one of two fields free, and a later one that would have both cost something;
the same later one after the pricing of settings. -/
theorem price_appendAll_of_hasOpinion_free :
    let free : Quote := fun f => if f.name = "a" then some 0 else none
    let p : Pricing := ⟨[free], 3⟩
    let q := Query.empty.edit [.add Query.root "a" none, .add 1 "b" none]
    let s : CostSettings := { weights := Keyed.empty.insert "a" 5 }
    p.cost q = 3 ∧ (p.appendAll [.flat 7]).cost q = 7 ∧
      ∃ standard, ofSettings s = .ok standard ∧ standard.cost q = 6 ∧
        (standard.appendAll [.flat 7]).cost q = 6 := by
  intro free p q s
  obtain ⟨-, -, -, hcost, -⟩ := price_appendAll_of_hasOpinion p [.flat 7]
  obtain ⟨standard, hstandard⟩ : ∃ standard, ofSettings s = .ok standard :=
    exists_ofSettings_iff.mpr ⟨by decide, by decide +kernel⟩
  obtain ⟨hprices, hsame⟩ := (price_appendAll_of_hasOpinion standard [.flat 7]).2.2.2.2 s hstandard
  have hsix : standard.cost q = 6 := by
    rw [cost_eq]
    simp only [(hprices _).2.1]
    decide +kernel
  exact ⟨by decide +kernel, (hcost q).trans (by decide +kernel), standard, hstandard, hsix,
    (hsame q).trans hsix⟩

end QueryAdmission.Pricing
