import QueryAdmission.Proofs.Query.Building

/-! # Queries in use

A query that was read can be edited like one that was begun empty. Its places are known from a walk,
so that edits can name any of them, and read queries and edits come in any order. -/

namespace QueryAdmission.Query

/-- All places of a query. -/
def places (q : Query) : List Nat := List.range q.fields.size

theorem lt_size_of_mem_places {q : Query} : ∀ place ∈ q.places, place < q.fields.size :=
  fun _ hin => List.mem_range.mp hin

/-- The queries that there can be: the empty one, those that were read, and what edits make of
these. -/
inductive Reachable : Query → Prop where
  | empty : Reachable empty
  | text {text : String} {q : Query} : ofText text = .ok q → Reachable q
  | afterEdit {q : Query} {e : Edit} : Reachable q → e.target < q.fields.size →
      Reachable (q.afterEdit e)

variable {q : Query} {known : List Nat} {edits : List Edit}

theorem Reachable.isTree (h : q.Reachable) : q.IsTree := by
  induction h with
  | empty => exact .empty
  | text htext => exact (isTree_ofText htext).1
  | afterEdit _ htarget ih => exact ih.afterEdit htarget

theorem Reachable.edit (h : q.Reachable) (hknown : ∀ place ∈ known, place < q.fields.size)
    (hedits : q.Permits known edits) : (q.edit edits).Reachable := by
  induction edits generalizing q known with
  | nil => exact h
  | cons e edits ih =>
      obtain ⟨htarget, hrest⟩ := hedits
      exact ih (h.afterEdit (hknown _ htarget)) (lt_size_of_known hknown) hrest

/-- Whatever has come about in one go is reachable. -/
theorem Arises.reachable {n : Nat} (h : q.Arises n) : q.Reachable := by
  cases h with
  | edits hedits =>
      refine Reachable.empty.edit (fun place hin => ?_) hedits
      rw [List.mem_singleton.mp hin]
      exact IsTree.empty.root_lt
  | text htext => exact .text htext

end QueryAdmission.Query
