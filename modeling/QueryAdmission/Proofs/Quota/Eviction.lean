import QueryAdmission.Proofs.Quota.Run

/-! # Evictions do not show

A window that has elapsed counts for nothing: the next request opens a new one whether it is still
there or not. As time does not go back it never counts again, so quotas that differ in such windows
only answer alike for ever, and an eviction leads from a quota to one that differs from it in such
windows only. -/

namespace QueryAdmission

theorem Window.hasElapsed_mono {w : Window} {length : Nat} {now t : Int} (ht : now ≤ t)
    (h : w.hasElapsed length now = true) : w.hasElapsed length t = true := by
  rw [hasElapsed, age, decide_eq_true_iff] at h ⊢
  omega

namespace Quota

def Event.isRequest : Event → Bool
  | .request .. => true
  | .eviction _ => false

/-- The window of a client, if it has one that has not elapsed. -/
def open? (q : Quota) (client : String) (now : Int) : Option Window :=
  (q.window? client).filter fun w => !w.hasElapsed q.length now

/-- From an instant on two quotas differ in elapsed windows only. -/
structure AgreeFrom (now : Int) (p q : Quota) : Prop where
  limit : p.limit = q.limit
  length : p.length = q.length
  open? : ∀ client, p.open? client now = q.open? client now

section

variable {p q : Quota} {now t : Int}

/-- Only an open window has a bearing on a request. -/
theorem windowAfter_eq_open? (q : Quota) (client : String) (now : Int) :
    q.windowAfter client now =
      match q.open? client now with
      | none => .opened now
      | some w => { w with count := min (w.count + 1) Window.maxCount } := by
  rw [open?]
  rcases q.windowAfter_cases client now with ⟨heq, helapsed⟩ | ⟨w, hw, hopen, heq⟩
  · rw [heq]
    cases hw : q.window? client with
    | none => rfl
    | some w =>
        rw [Option.filter_some, helapsed w hw]
        rfl
  · rw [heq, hw, Option.filter_some, Bool.eq_false_iff.mpr hopen]
    rfl

theorem open?_later (q : Quota) (client : String) (ht : now ≤ t) :
    q.open? client t = (q.open? client now).filter fun w => !w.hasElapsed q.length t := by
  rw [open?, open?, Option.filter_filter]
  congr 1
  funext w
  cases hnow : w.hasElapsed q.length now with
  | false => rw [Bool.not_false, Bool.true_and]
  | true => rw [Window.hasElapsed_mono ht hnow]; rfl

theorem AgreeFrom.refl (now : Int) (q : Quota) : AgreeFrom now q q := ⟨rfl, rfl, fun _ => rfl⟩

theorem AgreeFrom.later (h : AgreeFrom now p q) (ht : now ≤ t) : AgreeFrom t p q where
  limit := h.limit
  length := h.length
  open? client := by rw [open?_later p client ht, open?_later q client ht, h.open?, h.length]

theorem AgreeFrom.evict (h : AgreeFrom now p q) : AgreeFrom now (p.evict now).2 q where
  limit := h.limit
  length := h.length
  open? client := by
    rw [← h.open?, Quota.open?, window?_evict, Option.filter_filter, Quota.open?]
    simp

theorem AgreeFrom.check_eq (h : AgreeFrom now p q) (client : String) :
    (p.check client now).1 = (q.check client now).1 := by
  rw [check, check, windowAfter_eq_open?, windowAfter_eq_open?, h.open?]
  dsimp only
  rw [Quota.decide, Quota.decide, h.limit, h.length]

theorem AgreeFrom.check (h : AgreeFrom now p q) (client : String) :
    AgreeFrom now (p.check client now).2 (q.check client now).2 where
  limit := h.limit
  length := h.length
  open? other := by
    rw [Quota.open?, Quota.open?, window?_check, window?_check]
    by_cases hother : client = other
    · rw [if_pos hother, if_pos hother, windowAfter_eq_open?, windowAfter_eq_open?, h.open?,
        length_check, length_check, h.length]
    · rw [if_neg hother, if_neg hother]
      exact h.open? other

/-- A run is answered as it is without its evictions, also by a quota that differs in elapsed
windows. -/
theorem AgreeFrom.log_eq {events : List Event} (h : AgreeFrom now p q) (horder : InOrder events)
    (hnow : ∀ event ∈ events, now ≤ event.instant) :
    p.log events = q.log (events.filter Event.isRequest) := by
  induction events generalizing p q now with
  | nil => rfl
  | cons event events ih =>
      obtain ⟨hlater, htail⟩ := List.pairwise_cons.mp horder
      have hhere := h.later (hnow event List.mem_cons_self)
      cases event with
      | eviction t => exact ih hhere.evict htail hlater
      | request client t =>
          have hentry : (p.check client t).1 = (q.check client t).1 := hhere.check_eq client
          have hrest := ih (hhere.check client) htail hlater
          rw [List.filter_cons_of_pos rfl, log, log, hentry]
          exact congrArg (List.cons _) hrest

end

/-- Runs with the same requests are answered alike, wherever they have evictions, as long as time
does not go back in either. -/
theorem log_eq_of_requests_eq (q : Quota) {a b : List Event} (ha : InOrder a) (hb : InOrder b)
    (h : a.filter Event.isRequest = b.filter Event.isRequest) : q.log a = q.log b := by
  obtain ⟨s, hs⟩ := ha.exists_le
  obtain ⟨t, ht⟩ := hb.exists_le
  rw [(AgreeFrom.refl s q).log_eq ha hs, (AgreeFrom.refl t q).log_eq hb ht, h]

/-- The window of a client is forgotten as soon as it has elapsed, before its next request. -/
theorem log_eq_of_requests_eq_forgotten :
    let a : List Event :=
      [.request "c" 0, .eviction 1, .request "c" 1, .eviction 2, .eviction 2, .request "c" 3]
    let b : List Event := [.request "c" 0, .request "c" 1, .request "c" 3, .eviction 7]
    (InOrder a ∧ InOrder b ∧ a.filter Event.isRequest = b.filter Event.isRequest) ∧
      (Quota.mk 1 2 ∅).log a = (Quota.mk 1 2 ∅).log b := by
  intro a b
  have ha : InOrder a := by simp [InOrder, a, Event.instant]
  have hb : InOrder b := by simp [InOrder, b, Event.instant]
  exact ⟨⟨ha, hb, rfl⟩, log_eq_of_requests_eq _ ha hb rfl⟩

end Quota

end QueryAdmission
