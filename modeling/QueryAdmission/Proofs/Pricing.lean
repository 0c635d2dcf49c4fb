import Mathlib.Algebra.GroupWithZero.Nat
import Mathlib.Data.List.Basic
import QueryAdmission.Pricing
import QueryAdmission.Proofs.Keyed

/-! # Prices and what they add up to

Weights that are positive are prices as they are; a single one that is not leaves no price list at
all. The cost of a query is the sum of the prices of its fields, as far as a word can tell. -/

namespace QueryAdmission

namespace CostSettings

/-! ## From weights to prices -/

theorem price?_eq_some_iff {weight : Int64} {price : Nat} :
    price? weight = some price ↔ weight.toInt = price ∧ 0 < price := by
  rw [price?, Option.filter_eq_some_iff, Int.mem_toNat?, decide_eq_true_iff]

/-- The sign decides whether a weight gives a price. -/
theorem price?_eq_ite (weight : Int64) :
    price? weight = if 0 < weight.toInt then some weight.toInt.toNat else none := by
  split
  · exact price?_eq_some_iff.mpr ⟨by omega, by omega⟩
  · rw [Option.eq_none_iff_forall_ne_some]
    intro price hprice
    have := price?_eq_some_iff.mp hprice
    omega

/-- The weights in a list that are not positive. -/
def badAmong (entries : List (String × Int64)) : List Issue :=
  entries.filterMap fun (name, w) => if 0 < w.toInt then none else some (.badWeight name w)

/-- The weights in a list that are positive, as prices. -/
def pricesAmong (entries : List (String × Int64)) : List (String × Nat) :=
  entries.filterMap fun (name, w) => if 0 < w.toInt then some (name, w.toInt.toNat) else none

theorem foldl_enter (entries : List (String × Int64)) (prices : PriceList) (bad : List Issue) :
    entries.foldl enter (prices, bad) =
      (prices.insertAll (pricesAmong entries), bad ++ badAmong entries) := by
  induction entries generalizing prices bad with
  | nil => simp [pricesAmong, badAmong]
  | cons e entries ih =>
      rw [List.foldl_cons, enter, price?_eq_ite]
      by_cases hpos : 0 < e.2.toInt
      · rw [if_pos hpos]
        dsimp only
        rw [ih]
        simp [pricesAmong, badAmong, hpos]
      · rw [if_neg hpos]
        dsimp only
        rw [ih]
        simp [pricesAmong, badAmong, hpos]

variable {s : CostSettings}

theorem mem_badWeights {issue : Issue} :
    issue ∈ s.badWeights ↔
      ∃ name w, s.weights.get? name = some w ∧ w.toInt ≤ 0 ∧ issue = .badWeight name w := by
  rw [badWeights, List.mem_filterMap]
  constructor
  · rintro ⟨⟨name, w⟩, hin, hissue⟩
    dsimp only at hissue
    split at hissue
    · cases hissue
    · cases hissue
      exact ⟨name, w, Keyed.mem_toList_iff.mp hin, by omega, rfl⟩
  · rintro ⟨name, w, hget, hw, rfl⟩
    exact ⟨(name, w), Keyed.mem_toList_iff.mpr hget, if_neg (by omega)⟩

theorem badWeights_eq_nil :
    s.badWeights = [] ↔ ∀ name w, s.weights.get? name = some w → 0 < w.toInt := by
  rw [List.eq_nil_iff_forall_not_mem]
  constructor
  · intro hnone name w hget
    by_contra hneg
    exact hnone _ (mem_badWeights.mpr ⟨name, w, hget, by omega, rfl⟩)
  · rintro hpos issue hin
    obtain ⟨name, w, hget, hw, -⟩ := mem_badWeights.mp hin
    have := hpos name w hget
    omega

/-- Without bad weights the price list has all weights, and otherwise it names the bad ones. -/
theorem priceList_eq (s : CostSettings) :
    s.priceList =
      if s.badWeights = [] then .ok (s.weights.map fun w => w.toInt.toNat)
      else .error s.badWeights := by
  rw [priceList, foldl_enter]
  dsimp only
  rw [List.nil_append, show badAmong s.weights.toList = s.badWeights from rfl]
  by_cases hbad : s.badWeights = []
  · have hall : pricesAmong s.weights.toList =
        (s.weights.map fun w => w.toInt.toNat).toList := by
      apply List.filterMap_eq_map_iff_forall_eq_some.mpr
      rintro ⟨name, w⟩ hin
      exact if_pos (badWeights_eq_nil.mp hbad name w (Keyed.mem_toList_iff.mp hin))
    rw [if_pos (List.isEmpty_iff.mpr hbad), if_pos hbad, hall, Keyed.insertAll_toList]
  · rw [if_neg (mt List.isEmpty_iff.mp hbad), if_neg hbad]

/-- What a field of some name costs: its own weight, or else the default one. -/
def weightOf (s : CostSettings) (name : String) : Nat :=
  match s.weights.get? name with
  | none => s.defaultWeight.toNat
  | some w => w.toInt.toNat

end CostSettings

namespace Pricing

/-! ## Single prices -/

theorem ofSettings_eq {s : CostSettings} :
    ofSettings s =
      if s.defaultWeight = 0 then .error [.zeroDefaultWeight]
      else if s.badWeights = [] then
        .ok ⟨[.ofList (s.weights.map fun w => w.toInt.toNat), .flat s.defaultWeight.toNat],
          s.defaultWeight.toNat⟩
      else .error s.badWeights := by
  rw [ofSettings, CostSettings.priceList_eq]
  split
  · rfl
  · by_cases hbad : s.badWeights = []
    · rw [if_pos hbad, if_pos hbad]
      rfl
    · rw [if_neg hbad, if_neg hbad]

theorem exists_ofSettings_iff {s : CostSettings} :
    (∃ p, ofSettings s = .ok p) ↔ s.defaultWeight ≠ 0 ∧ s.badWeights = [] := by
  rw [ofSettings_eq]
  by_cases hzero : s.defaultWeight = 0
  · simp [hzero]
  · by_cases hbad : s.badWeights = [] <;> simp [hzero, hbad]

variable {s : CostSettings} {p : Pricing}

theorem price_ofSettings (h : ofSettings s = .ok p) (f : Field) :
    p.price f = s.weightOf f.name := by
  obtain ⟨hzero, hbad⟩ := exists_ofSettings_iff.mp ⟨p, h⟩
  rw [ofSettings_eq, if_neg hzero, if_pos hbad] at h
  cases h
  rw [price, List.findSome?_cons, Quote.ofList, Keyed.get?_map, CostSettings.weightOf]
  cases s.weights.get? f.name <;> rfl

/-- No field is free. -/
theorem one_le_weightOf (h : ofSettings s = .ok p) (name : String) : 1 ≤ s.weightOf name := by
  obtain ⟨hzero, hbad⟩ := exists_ofSettings_iff.mp ⟨p, h⟩
  rw [CostSettings.weightOf]
  cases hget : s.weights.get? name with
  | none =>
      have hne : s.defaultWeight.toNat ≠ 0 := fun heq => hzero (UInt64.toNat_inj.mp heq)
      dsimp only
      omega
  | some w =>
      have hpos := CostSettings.badWeights_eq_nil.mp hbad name w hget
      dsimp only
      omega

/-! ## Sums of prices -/

/-- A sum that is cut off at every step is cut off at the end. -/
theorem foldl_min_add {α : Type} (price : α → Nat) (most : Nat) (l : List α) {total : Nat}
    (h : total ≤ most) :
    l.foldl (fun total a => min (total + price a) most) total =
      min (total + (l.map price).sum) most := by
  induction l generalizing total with
  | nil => simp [h]
  | cons a l ih =>
      rw [List.foldl_cons, ih (Nat.min_le_right _ _), List.map_cons, List.sum_cons]
      omega

theorem cost_eq (p : Pricing) (q : Query) :
    p.cost q = min (q.preorder.map fun v => p.price v.field).sum maxCost := by
  rw [cost, foldl_min_add _ _ _ (Nat.zero_le _), Nat.zero_add]

end Pricing

end QueryAdmission
