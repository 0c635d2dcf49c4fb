import Mathlib.Data.List.Flatten
import QueryAdmission.Proofs.Gate
import QueryAdmission.Proofs.Measurement

/-! # Costs of queries and of their parts

The cost of a query is the sum of all prices up to the greatest cost. Sums that are cut off there
can be taken in any order and in any groups, so the costs of parts of a query add up to its cost. -/

namespace QueryAdmission

namespace Pricing

/-! ## Opinions -/

/-- What a field costs: what the first source with an opinion says, or the fallback if there is no
such source. -/
inductive Charges (p : Pricing) (f : Field) : Nat → Prop where
  | opinion {before after : List Quote} {quote : Quote} {price : Nat} :
      p.quotes = before ++ quote :: after → (∀ other ∈ before, other f = none) →
      quote f = some price → Charges p f price
  | fallback : (∀ quote ∈ p.quotes, quote f = none) → Charges p f p.fallback

theorem charges_price (p : Pricing) (f : Field) : p.Charges f (p.price f) := by
  rw [price]
  cases hfound : p.quotes.findSome? fun quote => quote f with
  | none => exact .fallback (List.findSome?_eq_none_iff.mp hfound)
  | some price =>
      obtain ⟨before, quote, after, hquotes, hquote, hbefore⟩ :=
        List.findSome?_eq_some_iff.mp hfound
      exact .opinion hquotes hbefore hquote

theorem charges_iff {p : Pricing} {f : Field} {price : Nat} :
    p.Charges f price ↔ p.price f = price := by
  constructor
  · intro h
    rw [Pricing.price]
    cases h with
    | opinion hquotes hbefore hquote =>
        rw [List.findSome?_eq_some_iff.mpr ⟨_, _, _, hquotes, hquote, hbefore⟩]
        rfl
    | fallback hnone =>
        rw [List.findSome?_eq_none_iff.mpr hnone]
        rfl
  · rintro rfl
    exact p.charges_price f

/-- Fields with the same head and as many children cost the same, whatever the places of the
children are. -/
def SeesHeads (p : Pricing) : Prop :=
  ∀ f g : Field, f.head = g.head → f.children.size = g.children.size → p.price f = p.price g

/-- The pricing of settings goes by names. -/
theorem seesHeads_ofSettings {s : CostSettings} {p : Pricing} (h : ofSettings s = .ok p) :
    p.SeesHeads := by
  intro f g hhead _
  have hname : f.name = g.name := congrArg Head.name hhead
  rw [price_ofSettings h, price_ofSettings h, hname]

/-! ## Sums that are cut off -/

/-- The sum of two costs, or the greatest cost. -/
def plus (a b : Nat) : Nat := min (a + b) maxCost

theorem foldl_plus (costs : List Nat) : costs.foldl plus 0 = min costs.sum maxCost := by
  have h := foldl_min_add (fun cost => cost) maxCost costs (Nat.zero_le _)
  rwa [List.map_id', Nat.zero_add] at h

/-- To cut off the summands as well changes nothing. -/
theorem min_sum_min {α : Type} (f : α → Nat) (most : Nat) (l : List α) :
    min ((l.map fun a => min (f a) most).sum) most = min ((l.map f).sum) most := by
  induction l with
  | nil => rfl
  | cons a l ih =>
      simp only [List.map_cons, List.sum_cons]
      omega

end Pricing

namespace Query

/-- The query with other fields at the top: a part of the query, taken as a query. -/
def part (q : Query) (places : List Nat) : Query :=
  q.modify root fun f => { f with children := places.toArray }

section

variable {q : Query} {places : List Nat} {place : Nat}

theorem field?_part (hne : place ≠ root) (places : List Nat) :
    (q.part places).field? place = q.field? place := by
  rw [field?, part, getElem?_modify, if_neg (Ne.symm hne), field?]

theorem part_rootFields (q : Query) : q.part q.rootFields.toList = q := by
  apply ext_getElem?
  intro n
  rw [part, getElem?_modify]
  split
  · rename_i hroot
    subst hroot
    rw [rootFields, children, field?]
    cases hfield : q.fields[root]? with
    | none => rfl
    | some f => simp
  · rfl

end

namespace IsTree

variable {q : Query} {places : List Nat} {place parent : Nat} {p : Pricing}

theorem rootFields_part (h : q.IsTree) (places : List Nat) :
    (q.part places).rootFields = places.toArray := by
  rw [rootFields, children_eq, part, getElem?_modify, if_pos rfl]
  rw [Array.getElem?_eq_getElem h.root_lt]
  rfl

/-- A walk that does not start at the root does not see what is at the top. -/
theorem visit_part (h : q.IsTree) (places : List Nat) (rounds : Nat) {todo : List (Nat × Nat)}
    (htodo : ∀ entry ∈ todo, entry.1 ≠ root) (done : List Visit) :
    (q.part places).visit rounds todo done = q.visit rounds todo done := by
  induction rounds generalizing todo done with
  | zero => rfl
  | succ rounds ih =>
      cases todo with
      | nil => rfl
      | cons entry todo =>
          obtain ⟨place, depth⟩ := entry
          obtain ⟨hplace, hrest⟩ := List.forall_mem_cons.mp htodo
          rw [visit, visit, field?_part hplace]
          cases hfield : q.field? place with
          | none => exact ih hrest done
          | some f =>
              dsimp only
              apply ih
              intro entry hin
              rw [pushChildren_eq, List.mem_append, List.mem_map] at hin
              rcases hin with ⟨child, hchild, rfl⟩ | hin
              · rintro rfl
                rw [← children_of_field?_eq_some hfield] at hchild
                exact h.root_notMem place (Array.mem_toList_iff.mp hchild)
              · exact hrest entry hin

/-- Below a place there are at most all fields. -/
theorem length_below_le (h : q.IsTree) (depth place : Nat) :
    (h.below depth place).length ≤ q.fieldCount := by
  have hsubset : (h.below depth place).map Visit.place ⊆ List.range' 1 q.fieldCount := by
    intro below hin
    obtain ⟨v, hv, rfl⟩ := List.mem_map.mp hin
    have hway := h.transGen_of_mem_below hv
    have hafter := h.lt_of_transGen hway
    have hlt : v.place < q.fields.size := by
      cases hway with
      | single hchild => exact h.lt_size _ _ hchild
      | tail _ hchild => exact h.lt_size _ _ hchild
    rw [List.mem_range'_1, fieldCount]
    omega
  have hle := ((h.nodup_below depth place).subperm hsubset).length_le
  rwa [List.length_map, List.length_range'] at hle

/-- A walk through a part of what is below one place. -/
theorem preorder_part (h : q.IsTree) (hplaces : places.Subperm (q.children parent).toList) :
    (q.part places).preorder =
      places.flatMap fun place => ⟨place, 1, q.fields[place]!⟩ :: h.below 1 place := by
  have hchild : ∀ place ∈ places, q.HasChild parent place := fun place hin =>
    Array.mem_toList_iff.mp (hplaces.subset hin)
  have hne : ∀ entry ∈ places.map (·, 1), entry.1 ≠ root := by
    intro entry hin hroot
    obtain ⟨place, hplace, rfl⟩ := List.mem_map.mp hin
    exact h.root_notMem parent (hroot ▸ hchild place hplace)
  have hlt : ∀ entry ∈ places.map (·, 1), entry.1 < q.fields.size := by
    intro entry hin
    obtain ⟨place, hplace, rfl⟩ := List.mem_map.mp hin
    exact h.lt_size parent place (hchild place hplace)
  have hlength : (h.pending (places.map (·, 1))).length ≤ q.fieldCount := by
    obtain ⟨same, hperm, hsub⟩ := hplaces
    have hle := (hsub.flatMap fun place =>
      (⟨place, 1, q.fields[place]!⟩ : Visit) :: h.below 1 place).length_le
    rw [pending, List.flatMap_map, ← (hperm.flatMap_right _).length_eq]
    refine hle.trans ?_
    rw [← h.below_eq 0 parent]
    exact h.length_below_le 0 parent
  rw [preorder, h.rootFields_part, pushChildren_eq, List.append_nil, h.visit_part _ _ hne,
    h.visit_eq _ hlt, fieldCount, part, size_modify, ← fieldCount, List.take_of_length_le hlength]
  rw [List.reverse_nil, List.nil_append, pending, List.flatMap_map]

/-! ## What parts are worth -/

/-- What a field costs with all that is below it. -/
def worth (h : q.IsTree) (p : Pricing) (place : Nat) : Nat :=
  p.price q.fields[place]! + ((h.below 0 place).map fun v => p.price v.field).sum

theorem sum_flatMap_worth (h : q.IsTree) (p : Pricing) (depth : Nat) (places : List Nat)
    (hplaces : ∀ place ∈ places, ((h.below depth place).map fun v => p.price v.field).sum =
      ((h.below 0 place).map fun v => p.price v.field).sum) :
    ((places.flatMap fun place =>
      ⟨place, depth, q.fields[place]!⟩ :: h.below depth place).map fun v => p.price v.field).sum =
      (places.map (h.worth p)).sum := by
  rw [List.map_flatMap, List.flatMap_def, List.sum_flatten, List.map_map]
  congr 1
  apply List.map_congr_left
  intro place hin
  rw [Function.comp_apply, List.map_cons, List.sum_cons, hplaces place hin, worth]

/-- What is below a place costs the same however deep the place is. -/
theorem sum_below (h : q.IsTree) (p : Pricing) (depth place : Nat) :
    ((h.below depth place).map fun v => p.price v.field).sum =
      ((q.children place).toList.map (h.worth p)).sum := by
  induction place using h.induction_below generalizing depth with
  | step place ih =>
  rw [below_eq, h.sum_flatMap_worth]
  intro child hchild
  have hchild := Array.mem_toList_iff.mp hchild
  rw [ih child hchild, ih child hchild]

theorem worth_eq (h : q.IsTree) (p : Pricing) (place : Nat) :
    h.worth p place =
      p.price q.fields[place]! + ((q.children place).toList.map (h.worth p)).sum := by
  rw [worth, sum_below]

theorem cost_part (h : q.IsTree) (p : Pricing)
    (hplaces : places.Subperm (q.children parent).toList) :
    p.cost (q.part places) = min (places.map (h.worth p)).sum Pricing.maxCost := by
  rw [Pricing.cost_eq, h.preorder_part hplaces, h.sum_flatMap_worth]
  intro place _
  rw [h.sum_below, h.sum_below]

/-- A part made of groups costs what the groups cost together. -/
theorem cost_part_groups (h : q.IsTree) (p : Pricing)
    (hplaces : places.Subperm (q.children parent).toList) {groups : List (List Nat)}
    (hgroups : groups.flatten.Perm places) :
    p.cost (q.part places) =
      (groups.map fun group => p.cost (q.part group)).foldl Pricing.plus 0 := by
  have hgroup : ∀ group ∈ groups, group.Subperm (q.children parent).toList := by
    intro group hin
    exact ((List.sublist_flatten_of_mem hin).subperm.trans hgroups.subperm).trans hplaces
  have hcosts : (groups.map fun group => p.cost (q.part group)) =
      groups.map fun group => min (group.map (h.worth p)).sum Pricing.maxCost :=
    List.map_congr_left fun group hin => h.cost_part p (hgroup group hin)
  rw [hcosts, Pricing.foldl_plus, Pricing.min_sum_min, h.cost_part p hplaces,
    ← (hgroups.map (h.worth p)).sum_nat, List.map_flatten, List.sum_flatten, List.map_map]
  rfl

theorem cost_eq_sum_fields (h : q.IsTree) (p : Pricing) :
    p.cost q = min ((q.fields.toList.drop 1).map p.price).sum Pricing.maxCost := by
  rw [Pricing.cost_eq, ← (h.perm_fields_below.map p.price).sum_nat, List.map_map, h.preorder_eq]
  rfl

/-- A field and what is below it cost what they cost together. -/
theorem cost_part_singleton (h : q.IsTree) (p : Pricing) (hchild : q.HasChild parent place) :
    p.cost (q.part [place]) =
      Pricing.plus (p.price q.fields[place]!) (p.cost (q.part (q.children place).toList)) := by
  have hplace : [place].Subperm (q.children parent).toList :=
    List.singleton_subperm_iff.mpr (Array.mem_toList_iff.mpr hchild)
  rw [h.cost_part p hplace, h.cost_part p (List.Subperm.refl _), List.map_singleton,
    List.sum_singleton, worth_eq, Pricing.plus]
  omega

end IsTree

/-! ## Parts as queries of their own -/

/-- Fields that show the same forest are worth the same to sources that do not look at places. -/
theorem Shows.sum_worth_eq {q r : Query} {places others : List Nat} {forest : Forest}
    (hs : q.Shows places forest) (hq : q.IsTree) (hr : r.IsTree) {p : Pricing} (hp : p.SeesHeads)
    (ho : r.Shows others forest) :
    (places.map (hq.worth p)).sum = (others.map (hr.worth p)).sum := by
  induction hs generalizing others with
  | nil =>
      cases ho
      rfl
  | @cons place places f below rest hfield hbelow hrest ihb ihr =>
      generalize hhead : f.head = head at ho
      cases ho with
      | @cons other others g _ _ hfield' hbelow' hrest' =>
          have hchildren : f.children.size = g.children.size := by
            rw [← Array.length_toList, ← Array.length_toList, hbelow.length_places,
              hbelow'.length_places]
          rw [List.map_cons, List.sum_cons, List.map_cons, List.sum_cons, ihr hrest', hq.worth_eq,
            hr.worth_eq, children_of_field?_eq_some hfield, children_of_field?_eq_some hfield',
            ihb hbelow', getElem!_of_field?_eq_some hfield, getElem!_of_field?_eq_some hfield',
            hp f g hhead hchildren]

namespace IsTree

variable {q : Query} {places : List Nat} {parent : Nat} {p : Pricing}

theorem cost_eq_of_shows (h : q.IsTree) (hplaces : places.Subperm (q.children parent).toList)
    {forest : Forest} (hforest : q.Shows places forest) (hp : p.SeesHeads) {r : Query}
    (hr : r.IsTree) (hrep : r.Represents forest) : p.cost r = p.cost (q.part places) := by
  have hcost := hr.cost_part p (List.Subperm.refl r.rootFields.toList)
  rw [r.part_rootFields] at hcost
  rw [h.cost_part p hplaces, ← hrep.sum_worth_eq hr h hp hforest, hcost]

end IsTree

end Query

/-! ## Reports -/

/-- A gate reports the cost of a query if it is over an enforced limit. -/
theorem Gate.exists_cost_breach_iff (sensitive : List String) (p : Pricing) (q : Query)
    {s : LimitSettings} (h : s.enforceCost = true) :
    (∃ b ∈ (Gate.check ⟨sensitive, p, s.rules⟩ q).breaches, b.limit = .cost) ↔
      s.cost.toNat < p.cost q := by
  rw [check, judge, Verdict.breaches_ofBreaches, LimitSettings.flatMap_rules]
  constructor
  · rintro ⟨b, hin, hlimit⟩
    obtain ⟨hcompared, hover⟩ := LimitSettings.mem_breached.mp hin
    simp only [LimitSettings.comparisons, List.mem_cons, Prod.mk.injEq, List.not_mem_nil,
      or_false] at hcompared
    rcases hcompared with ⟨-, rfl⟩ | ⟨-, rfl⟩ | ⟨-, rfl⟩ | ⟨-, rfl⟩ | ⟨-, rfl⟩ | ⟨-, rfl⟩
    all_goals first | exact hover | cases hlimit
  · intro hover
    refine ⟨⟨.cost, p.cost q, s.cost.toNat⟩, LimitSettings.mem_breached.mpr ⟨?_, hover⟩, rfl⟩
    simp [LimitSettings.comparisons, h, analyse]

namespace Pricing

/-- Whatever the sources are, and however a query has come about, its cost is the exact sum of the
first opinions on its fields, up to the greatest cost. Parts of it, each taken as a query, cost
together what they cost in any order and in any groups; so do a field and what is below it. If no
source looks at places, other queries that show the same forests may be taken for the parts. A
limit on the cost is reported if and only if the exact sum is over it. -/
theorem cost_of_arises {q : Query} {n : Nat} (h : q.Arises n) (p : Pricing) :
    (∀ f price, p.Charges f price ↔ p.price f = price) ∧
    p.cost q = min ((q.fields.toList.drop 1).map p.price).sum maxCost ∧
    q.part q.rootFields.toList = q ∧
    (∀ parent (places : List Nat) (groups : List (List Nat)),
      places.Subperm (q.children parent).toList → groups.flatten.Perm places →
      p.cost (q.part places) = (groups.map fun group => p.cost (q.part group)).foldl plus 0) ∧
    (∀ parent place, q.HasChild parent place → ∃ f, q.field? place = some f ∧
      p.cost (q.part [place]) = plus (p.price f) (p.cost (q.part f.children.toList))) ∧
    (p.SeesHeads → ∀ parent (places : List Nat) forest (r : Query),
      places.Subperm (q.children parent).toList → q.Shows places forest →
      r.IsTree → r.Represents forest → p.cost r = p.cost (q.part places)) ∧
    ∀ (sensitive : List String) (s : LimitSettings), s.enforceCost = true →
      s.cost.toNat < maxCost →
      ((∃ b ∈ (Gate.check ⟨sensitive, p, s.rules⟩ q).breaches, b.limit = .cost) ↔
        s.cost.toNat < ((q.fields.toList.drop 1).map p.price).sum) := by
  obtain ⟨htree, -⟩ := Query.isTree_of_arises h
  have hcost := htree.cost_eq_sum_fields p
  refine ⟨fun f price => charges_iff, hcost, q.part_rootFields,
    fun parent places groups hplaces hgroups => htree.cost_part_groups p hplaces hgroups,
    fun parent place hchild => ?_,
    fun hp parent places forest r hplaces hforest => htree.cost_eq_of_shows hplaces hforest hp,
    fun sensitive s henforced hless => ?_⟩
  · have hfield := Query.field?_eq_some (htree.lt_size parent place hchild)
    refine ⟨_, hfield, ?_⟩
    rw [htree.cost_part_singleton p hchild, Query.children_of_field?_eq_some hfield]
  · rw [Gate.exists_cost_breach_iff _ _ _ henforced, hcost]
    omega

/-- A field that costs almost all there is, one below it and one beside it. -/
theorem cost_of_arises_saturated :
    let edits : List Edit := [.add Query.root "a" none, .add Query.root "b" none, .add 1 "c" none]
    let q := Query.empty.edit edits
    let p : Pricing := ⟨[fun f => if f.name = "a" then some (maxCost - 1) else none], 1⟩
    let s : LimitSettings := { cost := UInt64.ofNat (maxCost - 1) }
    let forest : Forest := .cons ⟨"a", none, ∅⟩ (.cons ⟨"c", none, ∅⟩ .nil .nil) .nil
    Query.empty.Permits [Query.root] edits ∧ p.cost q = maxCost ∧
      p.cost q = plus (p.cost (q.part [2])) (p.cost (q.part [1])) ∧
      p.cost (Query.ofForest forest) = p.cost (q.part [1]) ∧
      ∃ b ∈ (Gate.check ⟨[], p, s.rules⟩ q).breaches, b.limit = .cost := by
  intro edits q p s forest
  have hedits : Query.empty.Permits [Query.root] edits := by decide
  obtain ⟨-, hcost, hpart, hgroups, -, hown, hlimit⟩ := cost_of_arises (.edits hedits) p
  have hc : q.Shows [3] _ := .cons (f := ⟨"c", none, ∅, #[]⟩) rfl .nil .nil
  have ha : q.Shows [1] forest := .cons (f := ⟨"a", none, ∅, #[3]⟩) rfl hc .nil
  have hp : p.SeesHeads := by
    intro f g hhead _
    have hname : f.name = g.name := congrArg Head.name hhead
    simp only [p, price, List.findSome?_cons, List.findSome?_nil, hname]
  refine ⟨hedits, hcost.trans (by decide +kernel), ?_, ?_, ?_⟩
  · have hsum := hgroups Query.root q.rootFields.toList [[2], [1]] (List.Subperm.refl _) (by decide)
    rw [hpart] at hsum
    exact hsum.trans (by decide +kernel)
  · exact hown hp Query.root [1] forest _ (by decide) ha (Query.isTree_ofForest forest)
      (Query.represents_ofForest forest)
  · exact (hlimit [] s rfl (by decide +kernel)).mpr (by decide +kernel)

end Pricing

end QueryAdmission
