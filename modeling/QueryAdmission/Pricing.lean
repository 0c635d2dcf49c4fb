import QueryAdmission.Query.Preorder
import QueryAdmission.Settings.Issue

/-! What queries cost. Every request for a field has a price of its own, whatever stands above or
below it; the cost of a query is the sum of the prices. -/

namespace QueryAdmission

/-- A source of prices; it may have no opinion on a field. -/
abbrev Quote := Field → Option Nat

/-- Sources in the order in which they are asked, and the price of a field on which none of them
has an opinion. -/
structure Pricing where
  quotes : List Quote
  fallback : Nat

/-- Prices of fields by their names. -/
abbrev PriceList := Keyed Nat

namespace CostSettings

/-- The price that a weight gives: the weight as a number, if it is one and not zero. -/
def price? (weight : Int64) : Option Nat := weight.toInt.toNat?.filter (0 < ·)

/-- Enters the price of a weight into a list; a weight that gives none is noted as bad. -/
def enter (found : PriceList × List Issue) (entry : String × Int64) : PriceList × List Issue :=
  match price? entry.2 with
  | some price => (found.1.insert entry.1 price, found.2)
  | none => (found.1, found.2 ++ [.badWeight entry.1 entry.2])

/-- The price list of settings, if every weight gives a price. -/
def priceList (s : CostSettings) : Except (List Issue) PriceList :=
  let (prices, bad) := s.weights.toList.foldl enter (∅, [])
  if bad.isEmpty then .ok prices else .error bad

end CostSettings

namespace Quote

/-- Has an opinion on the fields that are listed. -/
def ofList (prices : PriceList) : Quote := fun f => prices.get? f.name

/-- Gives every field the same price. -/
def flat (price : Nat) : Quote := fun _ => some price

end Quote

namespace Pricing

/-- Adds a source that is asked after all others. -/
def append (p : Pricing) (quote : Quote) : Pricing := { p with quotes := p.quotes ++ [quote] }

/-- The first opinion on a field. -/
def price (p : Pricing) (f : Field) : Nat := (p.quotes.findSome? fun quote => quote f).getD p.fallback

/-- No query costs more than this. -/
def maxCost : Nat := UInt64.size - 1

/-- The sum of the prices of all fields, or the greatest cost. -/
def cost (p : Pricing) (q : Query) : Nat :=
  q.preorder.foldl (fun total v => min (total + p.price v.field) maxCost) 0

/-- The pricing of settings: listed fields at their weights, all others at the default weight. -/
def ofSettings (s : CostSettings) : Except (List Issue) Pricing :=
  if s.defaultWeight = 0 then .error [.zeroDefaultWeight]
  else
    match s.priceList with
    | .error issues => .error issues
    | .ok prices =>
      .ok ((Pricing.mk [] s.defaultWeight.toNat).append (.ofList prices)
        |>.append (.flat s.defaultWeight.toNat))

end Pricing

end QueryAdmission
