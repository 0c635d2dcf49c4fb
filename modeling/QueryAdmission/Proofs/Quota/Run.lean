import QueryAdmission.Quota

/-! # Runs of a quota -/

namespace QueryAdmission

theorem Window.hasElapsed_iff {length : Nat} (hl : 0 < length) (w : Window) (now : Int) :
    w.hasElapsed length now = true ↔ w.start + length ≤ now := by
  rw [hasElapsed, age, decide_eq_true_iff]
  omega

def Decision.isAllowed : Decision → Bool
  | .allowed .. => true
  | .limited .. => false

namespace Quota

/-- What can happen to a quota. -/
inductive Event where
  | request (client : String) (now : Int)
  | eviction (now : Int)
  deriving DecidableEq

def Event.instant : Event → Int
  | .request _ now => now
  | .eviction now => now

/-- An answered request. -/
structure Entry where
  client : String
  now : Int
  decision : Decision

/-- The quota after an event. -/
def after (q : Quota) : Event → Quota
  | .request client now => (q.check client now).2
  | .eviction now => (q.evict now).2

/-- The requests of a run with their answers. -/
def log (q : Quota) : List Event → List Entry
  | [] => []
  | .request client now :: events =>
    ⟨client, now, (q.check client now).1⟩ :: (q.check client now).2.log events
  | .eviction now :: events => (q.evict now).2.log events

/-- The quota after a run. -/
def run (q : Quota) (events : List Event) : Quota := events.foldl after q

/-- The requests of one client in a run with their answers. -/
def answers (q : Quota) (client : String) (events : List Event) : List Entry :=
  (q.log events).filter (·.client == client)

/-- A run in which time does not go back. -/
def InOrder (events : List Event) : Prop := events.Pairwise (·.instant ≤ ·.instant)

theorem InOrder.exists_le {events : List Event} (h : InOrder events) :
    ∃ e, ∀ event ∈ events, e ≤ event.instant := by
  cases events with
  | nil => exact ⟨0, nofun⟩
  | cons first events =>
      refine ⟨first.instant, fun event hin => ?_⟩
      rcases List.mem_cons.mp hin with rfl | hin
      · exact Int.le_refl _
      · exact (List.pairwise_cons.mp h).1 event hin

/-- The last event of a run is the latest one. -/
theorem InOrder.le_last {events : List Event} {last : Event} (h : InOrder (events ++ [last])) :
    ∀ event ∈ events, event.instant ≤ last.instant :=
  fun event hin => (List.pairwise_append.mp h).2.2 event hin last List.mem_cons_self

/-- A run in which a client makes its first request at an instant. -/
def FirstRequest (events : List Event) (client : String) (now : Int) : Prop :=
  ∃ before after, events = before ++ .request client now :: after ∧
    ∀ t, .request client t ∉ before

/-- No request of a client is before its first one. -/
theorem FirstRequest.le {events : List Event} {client : String} {now t : Int}
    (h : FirstRequest events client now) (horder : InOrder events)
    (ht : .request client t ∈ events) : now ≤ t := by
  obtain ⟨before, after, rfl, hbefore⟩ := h
  have hafter := (List.pairwise_cons.mp (List.pairwise_append.mp horder).2.1).1
  rcases List.mem_append.mp ht with hin | hin
  · exact absurd hin (hbefore t)
  rcases List.mem_cons.mp hin with heq | hin
  · cases heq
    exact Int.le_refl now
  · exact hafter _ hin

section

variable (q : Quota) (event : Event) (events : List Event)

@[simp] theorem run_nil : q.run [] = q := rfl

@[simp] theorem run_cons : q.run (event :: events) = (q.after event).run events := rfl

@[simp] theorem run_append (later : List Event) :
    q.run (events ++ later) = (q.run events).run later := List.foldl_append

@[simp] theorem limit_after : (q.after event).limit = q.limit := by cases event <;> rfl

@[simp] theorem length_after : (q.after event).length = q.length := by cases event <;> rfl

@[simp] theorem limit_run : (q.run events).limit = q.limit := by
  induction events generalizing q with
  | nil => rfl
  | cons event events ih => rw [run_cons, ih, limit_after]

@[simp] theorem length_run : (q.run events).length = q.length := by
  induction events generalizing q with
  | nil => rfl
  | cons event events ih => rw [run_cons, ih, length_after]

theorem answers_request (client : String) (now : Int) :
    q.answers client (.request client now :: events) =
      ⟨client, now, (q.check client now).1⟩ ::
        (q.after (.request client now)).answers client events := by
  simp [answers, log, after]

theorem answers_of_ne {client other : String} (hne : other ≠ client) (now : Int) :
    q.answers client (.request other now :: events) =
      (q.after (.request other now)).answers client events := by
  simp [answers, log, after, hne]

theorem answers_eviction (client : String) (now : Int) :
    q.answers client (.eviction now :: events) =
      (q.after (.eviction now)).answers client events := rfl

end

section

variable (q : Quota) (client : String) (now : Int)

@[simp] theorem limit_check : (q.check client now).2.limit = q.limit := rfl

@[simp] theorem length_check : (q.check client now).2.length = q.length := rfl

@[simp] theorem limit_evict : (q.evict now).2.limit = q.limit := rfl

@[simp] theorem length_evict : (q.evict now).2.length = q.length := rfl

@[simp] theorem window?_empty (limit length : Nat) :
    (Quota.mk limit length ∅).window? client = none := by
  simp [window?]

theorem isAllowed_check :
    (q.check client now).1.isAllowed = true ↔ (q.windowAfter client now).count ≤ q.limit := by
  simp only [check, decide]
  split
  · simp [Decision.isAllowed]
    omega
  · simp [Decision.isAllowed]
    omega

/-- A request opens a window, unless one is open in which it is counted. -/
theorem windowAfter_cases :
    (q.windowAfter client now = .opened now ∧
      ∀ w, q.window? client = some w → w.hasElapsed q.length now = true) ∨
    ∃ w, q.window? client = some w ∧ ¬ w.hasElapsed q.length now = true ∧
      q.windowAfter client now = { w with count := min (w.count + 1) Window.maxCount } := by
  rw [windowAfter]
  cases q.window? client with
  | none => exact .inl ⟨rfl, nofun⟩
  | some w =>
      dsimp only [Window.request]
      by_cases helapsed : w.hasElapsed q.length now = true
      · rw [if_pos helapsed]
        refine .inl ⟨rfl, fun w' hw => ?_⟩
        cases hw
        exact helapsed
      · rw [if_neg helapsed]
        exact .inr ⟨w, rfl, helapsed, rfl⟩

/-- A request changes the window of its own client only. -/
theorem window?_check (other : String) :
    (q.check client now).2.window? other =
      if client = other then some (q.windowAfter client now) else q.window? other := by
  simp [check, window?, Std.ExtHashMap.getElem?_insert]

theorem window?_evict :
    (q.evict now).2.window? client =
      (q.window? client).filter fun w => !w.hasElapsed q.length now := by
  simp [evict, withoutElapsed, window?]

/-- A client's window has opened by an instant, if it has one. -/
def OpenedBy : Prop := ∀ w, q.window? client = some w → w.start ≤ now

end

section

variable {q : Quota} {client other : String} {now t : Int}

theorem OpenedBy.mono (h : q.OpenedBy client now) (ht : now ≤ t) : q.OpenedBy client t :=
  fun w hw => Int.le_trans (h w hw) ht

theorem OpenedBy.windowAfter (h : q.OpenedBy client now) :
    (q.windowAfter client now).start ≤ now := by
  rcases q.windowAfter_cases client now with ⟨heq, -⟩ | ⟨w, hw, -, heq⟩
  · rw [heq]
    exact Int.le_refl now
  · rw [heq]
    exact h w hw

theorem OpenedBy.check (h : q.OpenedBy client now) : (q.check other now).2.OpenedBy client now := by
  intro w hw
  rw [window?_check] at hw
  split at hw
  · rename_i heq
    subst heq
    cases hw
    exact h.windowAfter
  · exact h w hw

theorem OpenedBy.evict (h : q.OpenedBy client now) : (q.evict t).2.OpenedBy client now := by
  intro w hw
  rw [window?_evict, Option.filter_eq_some_iff] at hw
  exact h w hw.1

theorem OpenedBy.after {event : Event} (h : q.OpenedBy client event.instant) :
    (q.after event).OpenedBy client event.instant := by
  cases event with
  | request _ _ => exact h.check
  | eviction _ => exact h.evict

end

/-! ## Windows that are full -/

section

variable {q : Quota} {client : String} {now : Int}

/-- The window of a client as it was, or forgotten since it has elapsed. -/
def Keeps (q : Quota) (client : String) (w : Window) (now : Int) : Prop :=
  q.window? client = some w ∨ q.window? client = none ∧ w.start + q.length ≤ now

theorem Keeps.mono {w : Window} {t : Int} (h : q.Keeps client w now) (ht : now ≤ t) :
    q.Keeps client w t :=
  h.imp_right fun h => ⟨h.1, Int.le_trans h.2 ht⟩

theorem Keeps.check {w : Window} {other : String} (h : q.Keeps client w now)
    (hne : other ≠ client) : (q.check other now).2.Keeps client w now := by
  rw [Keeps, window?_check, if_neg hne]
  exact h

theorem Keeps.evict {w : Window} (hl : 0 < q.length) (h : q.Keeps client w now) :
    (q.evict now).2.Keeps client w now := by
  rw [Keeps, window?_evict]
  rcases h with hw | ⟨hw, helapsed⟩
  · rw [hw]
    by_cases helapsed : w.hasElapsed q.length now = true
    · exact .inr ⟨by simp [helapsed], (w.hasElapsed_iff hl now).mp helapsed⟩
    · exact .inl (by simp [helapsed])
  · exact .inr ⟨by rw [hw]; rfl, helapsed⟩

theorem count_windowAfter_le (q : Quota) (client : String) (now : Int) :
    (q.windowAfter client now).count ≤ Window.maxCount := by
  rcases q.windowAfter_cases client now with ⟨heq, -⟩ | ⟨w, -, -, heq⟩
  · rw [heq]
    exact (by decide : 1 ≤ Window.maxCount)
  · rw [heq]
    exact Nat.min_le_right _ _

theorem lt_windowAfter (hl : 0 < q.length) (client : String) (now : Int) :
    now < (q.windowAfter client now).start + q.length := by
  rcases q.windowAfter_cases client now with ⟨heq, -⟩ | ⟨w, -, helapsed, heq⟩
  · rw [heq]
    exact Int.lt_add_of_pos_right now (Int.natCast_pos.mpr hl)
  · rw [heq]
    exact Int.not_le.mp (mt (w.hasElapsed_iff hl now).mpr helapsed)

/-- A client beyond its limit is allowed nothing until its window has elapsed. -/
theorem Keeps.isAllowed_check {w : Window} (h : q.Keeps client w now) (hl : 0 < q.length)
    (hlimit : 0 < q.limit) (hcount : q.limit < w.count) (hmost : w.count ≤ Window.maxCount) :
    (q.check client now).1.isAllowed = true ↔ w.start + q.length ≤ now := by
  rw [Quota.isAllowed_check]
  rcases q.windowAfter_cases client now with ⟨heq, helapsed⟩ | ⟨w', hw', hopen, heq⟩
  · rw [heq]
    refine iff_of_true hlimit ?_
    rcases h with hw | ⟨-, hpast⟩
    · exact (w.hasElapsed_iff hl now).mp (helapsed w hw)
    · exact hpast
  · have hsame : w' = w := by
      rcases h with hw | ⟨hnone, -⟩
      · exact Option.some.inj (hw'.symm.trans hw)
      · rw [hnone] at hw'
        cases hw'
    subst hsame
    refine iff_of_false ?_ (mt (w'.hasElapsed_iff hl now).mpr hopen)
    rw [heq]
    dsimp only
    generalize Window.maxCount = most at hmost
    omega

/-- A request beyond the limit is told what is left of the client's window. -/
theorem check_limited (hl : 0 < q.length) (hs : q.OpenedBy client now)
    (h : (q.check client now).1.isAllowed = false) :
    q.limit < (q.windowAfter client now).count ∧ ∃ breach left,
      (q.check client now).1 = .limited breach left ∧ 0 < left ∧
      now + left = (q.windowAfter client now).start + q.length := by
  have hcount : q.limit < (q.windowAfter client now).count := by
    refine Nat.lt_of_not_le fun hle => ?_
    rw [(q.isAllowed_check client now).mpr hle] at h
    cases h
  have hstart := hs.windowAfter
  have hend := lt_windowAfter hl client now
  have hdecision : (q.check client now).1 =
      .limited ⟨.rate, (q.windowAfter client now).count, q.limit⟩
        ((q.windowAfter client now).timeLeft q.length now) := by
    simp only [check, Quota.decide, if_pos hcount]
  refine ⟨hcount, _, _, hdecision, ?_, ?_⟩
  · rw [Window.timeLeft, Window.age]
    omega
  · rw [Window.timeLeft, Window.age]
    omega

end

end Quota

end QueryAdmission
