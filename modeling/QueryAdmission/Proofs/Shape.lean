import QueryAdmission.Proofs.Query.Traversal
import QueryAdmission.Shape

/-! # What is measured

One walk takes all measurements. Each of them is told by the visits of that walk, whatever the
others are. -/

namespace QueryAdmission.Shape

/-- The shape that visits show, if there are `rootFields` fields without a parent. -/
def ofVisits (sensitive : List String) (rootFields : Nat) (visits : List Visit) : Shape where
  depth := (visits.map Visit.depth).foldl max 0
  fields := visits.length
  rootFields := rootFields
  aliases := visits.countP fun v => v.field.isRenamed
  sensitiveFields := visits.countP fun v => sensitive.contains v.field.name

theorem ofVisits_append_singleton (sensitive : List String) (rootFields : Nat)
    (visits : List Visit) (v : Visit) :
    ofVisits sensitive rootFields (visits ++ [v]) =
      (ofVisits sensitive rootFields visits).observe sensitive v := by
  simp only [ofVisits, observe, List.map_append, List.foldl_append, List.length_append,
    List.countP_append]
  congr 1
  · rw [List.countP_singleton]
    split <;> rfl
  · rw [List.countP_singleton]
    split <;> rfl

theorem ofQuery_eq (sensitive : List String) (q : Query) :
    ofQuery sensitive q = ofVisits sensitive q.rootFields.size q.preorder := by
  rw [ofQuery]
  induction q.preorder using List.reverseRecOn with
  | nil => rfl
  | append_singleton visits v ih => rw [List.foldl_append, ih, ofVisits_append_singleton]; rfl

/-- The depth is the greatest of the visits. -/
theorem depth_ofVisits_le_iff {sensitive : List String} {rootFields most : Nat}
    {visits : List Visit} :
    (ofVisits sensitive rootFields visits).depth ≤ most ↔ ∀ v ∈ visits, v.depth ≤ most := by
  induction visits using List.reverseRecOn with
  | nil => simp [ofVisits]
  | append_singleton visits v ih =>
      rw [ofVisits_append_singleton, List.forall_mem_append, ← ih]
      simp [observe]

end QueryAdmission.Shape
