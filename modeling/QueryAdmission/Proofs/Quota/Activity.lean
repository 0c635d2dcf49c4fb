import Mathlib.Data.Finset.Dedup
import QueryAdmission.Proofs.Quota.Clients

/-! # Evictions and recent clients

The windows that an eviction keeps are those that have not elapsed, and such a window was opened by
a request less than its length ago. So right after an eviction no more clients are tracked than have
lately made a request, however many have ever made one. -/

namespace QueryAdmission.Quota

/-- The client that makes a request after one instant and no later than another. -/
def Event.clientWithin? (a b : Int) : Event → Option String
  | .request client now => if a < now ∧ now ≤ b then some client else none
  | .eviction _ => none

/-- The clients that make a request after one instant and no later than another. -/
def clientsWithin (events : List Event) (a b : Int) : Finset String :=
  (events.filterMap (·.clientWithin? a b)).toFinset

theorem mem_clientsWithin {events : List Event} {a b : Int} {client : String} :
    client ∈ clientsWithin events a b ↔
      ∃ now, .request client now ∈ events ∧ a < now ∧ now ≤ b := by
  rw [clientsWithin, List.mem_toFinset, List.mem_filterMap]
  constructor
  · rintro ⟨event, hin, hclient⟩
    cases event with
    | eviction now => cases hclient
    | request other now =>
        rw [Event.clientWithin?] at hclient
        split at hclient
        · rename_i hwithin
          cases hclient
          exact ⟨now, hin, hwithin⟩
        · cases hclient
  · rintro ⟨now, hin, hwithin⟩
    exact ⟨_, hin, if_pos hwithin⟩

section

variable {q : Quota} {client : String} {now : Int}

/-! ## One eviction -/

theorem window?_evict_eq_some (hl : 0 < q.length) {w : Window} :
    (q.evict now).2.window? client = some w ↔
      q.window? client = some w ∧ now - w.start < q.length := by
  rw [window?_evict, Option.filter_eq_some_iff, Bool.not_eq_true', ← Bool.not_eq_true,
    w.hasElapsed_iff hl]
  exact and_congr_right fun _ => by omega

/-- What an eviction has kept, it keeps again. -/
theorem evict_evict (q : Quota) (now : Int) : (q.evict now).2.evict now = (0, (q.evict now).2) := by
  have hkept : ((q.evict now).2.evict now).2 = (q.evict now).2 := by
    refine ext_window? rfl rfl fun client => ?_
    rw [window?_evict, window?_evict, Option.filter_filter, length_evict]
    simp
  refine Prod.ext ?_ hkept
  exact (congrArg (fun r => (q.evict now).2.tracked - r.tracked) hkept).trans (Nat.sub_self _)

theorem tracked_evict_le (q : Quota) (now : Int) : (q.evict now).2.tracked ≤ q.tracked :=
  Std.ExtHashMap.size_filter_le_size

/-- As many clients are tracked as can be told apart among those with a window. -/
theorem tracked_le_card {clients : Finset String}
    (h : ∀ client w, q.window? client = some w → client ∈ clients) :
    q.tracked ≤ clients.card := by
  obtain ⟨keys, hkeys, hsize⟩ := exists_finset_mem_iff q.windows
  rw [tracked, hsize]
  refine Finset.card_le_card fun client hin => ?_
  rw [hkeys, Std.ExtHashMap.mem_iff_isSome_getElem?, Option.isSome_iff_exists] at hin
  obtain ⟨w, hw⟩ := hin
  exact h client w hw

end

/-! ## An eviction at the end of a run -/

/-- An eviction keeps exactly the windows that have not elapsed, as they are. Each of them was
opened by a request of its client less than the length of a window ago, so no more clients are
tracked than have made a request since. The number that an eviction reports is by how many fewer
clients are tracked, and a second one at the same instant reports none. -/
theorem evict_keepsRecent {limit length : Nat} {events : List Event} {now : Int} (hl : 0 < length)
    (horder : InOrder (events ++ [.eviction now])) :
    let q := (Quota.mk limit length ∅).run events
    let kept := (q.evict now).2
    (∀ client w, kept.window? client = some w ↔
      q.window? client = some w ∧ now - w.start < length) ∧
    (∀ client w, kept.window? client = some w →
      .request client w.start ∈ events ∧ now - length < w.start ∧ w.start ≤ now) ∧
    kept.tracked ≤ (clientsWithin events (now - length) now).card ∧
    (q.evict now).1 + kept.tracked = q.tracked ∧
    (kept.evict now).1 = 0 := by
  intro q kept
  have hlength : q.length = length := length_run _ _
  have hkept : ∀ client w, kept.window? client = some w ↔
      q.window? client = some w ∧ now - w.start < length := by
    intro client w
    rw [← hlength]
    exact window?_evict_eq_some (hlength.symm ▸ hl)
  have hopened : ∀ client w, kept.window? client = some w →
      .request client w.start ∈ events ∧ now - length < w.start ∧ w.start ≤ now := by
    intro client w hw
    obtain ⟨hwindow, hrecent⟩ := (hkept client w).mp hw
    obtain ⟨before, within, rfl, -⟩ := exists_isCourse hl events hwindow
    have hin : .request client w.start ∈ before ++ .request client w.start :: within := by simp
    exact ⟨hin, by omega, horder.le_last _ hin⟩
  refine ⟨hkept, hopened, tracked_le_card fun client w hw => ?_, ?_, ?_⟩
  · obtain ⟨hin, hrecent⟩ := hopened client w hw
    exact mem_clientsWithin.mpr ⟨w.start, hin, hrecent⟩
  · exact Nat.sub_add_cancel (tracked_evict_le q now)
  · rw [evict_evict]

/-- Two clients make a request, and one of them is forgotten. -/
theorem evict_keepsRecent_fresh :
    let events : List Event := [.request "old" 0, .request "fresh" 30, .request "fresh" 40]
    let q := (Quota.mk 10 60 ∅).run events
    let kept := (q.evict 61).2
    (0 < 60 ∧ InOrder (events ++ [.eviction 61])) ∧
    kept.window? "fresh" = some ⟨30, 2⟩ ∧ kept.window? "old" = none ∧ kept.tracked ≤ 1 ∧
      (q.evict 61).1 + kept.tracked = 2 ∧ (kept.evict 61).1 = 0 := by
  intro events q kept
  have horder : InOrder (events ++ [.eviction 61]) := by simp [InOrder, events, Event.instant]
  have hwindow : ∀ client, q.window? client =
      if client = "fresh" then some ⟨30, 2⟩ else if client = "old" then some ⟨0, 1⟩ else none := by
    intro client
    simp +contextual [q, events, Quota.after, window?_check, windowAfter, Window.opened,
      Window.request, Window.hasElapsed, Window.age, Window.maxCount, @eq_comm _ _ client]
  obtain ⟨hkept, -, hcard, hcount, hagain⟩ :=
    @evict_keepsRecent 10 60 events 61 (by decide) horder
  refine ⟨⟨by decide, horder⟩, ?_, ?_, ?_, ?_, hagain⟩
  · exact (hkept "fresh" ⟨30, 2⟩).mpr ⟨by rw [hwindow]; decide, by decide⟩
  · rw [Option.eq_none_iff_forall_ne_some]
    intro w hw
    obtain ⟨hold, hrecent⟩ := (hkept "old" w).mp hw
    rw [hwindow] at hold
    cases hold
    exact absurd hrecent (by decide)
  · exact hcard.trans (by decide)
  · refine hcount.trans ?_
    simp [events, Quota.after, check, tracked, Std.ExtHashMap.size_insert]

end QueryAdmission.Quota
