import Mathlib.Data.List.Induction
import QueryAdmission.Proofs.Quota.Run

/-! # The course of a window

A window is opened by a request of its client and stays until it has elapsed. In between each
request of the client is the next one in the window, at whatever instant before its end it comes,
also one before its opening. What a request is answered depends on its number in the window and on
the time to the window's end, and on nothing else. -/

namespace QueryAdmission.Quota

/-- A request of a client opens a window: the client has none, or the one it has has elapsed. -/
def Opens (q : Quota) (client : String) (now : Int) : Prop :=
  ∀ w, q.window? client = some w → w.start + q.length ≤ now

/-- Whether an event can change the window of a client. -/
def Event.Concerns (client : String) : Event → Prop
  | .request other _ => other = client
  | .eviction _ => True

/-- After the run `before` a request of a client opens a window at `start`, and all in the run
`within` that concerns the client comes before the end of that window. -/
structure IsCourse (q : Quota) (client : String) (before : List Event) (start : Int)
    (within : List Event) : Prop where
  opens : (q.run before).Opens client start
  ends : ∀ event ∈ within, event.Concerns client → event.instant < start + q.length

section

variable {q : Quota} {client : String} {start now : Int}

theorem opens_iff {w : Window} (h : q.window? client = some w) :
    q.Opens client now ↔ w.start + q.length ≤ now := by
  constructor
  · exact fun hopens => hopens w h
  · intro helapsed w' hw'
    cases h.symm.trans hw'
    exact helapsed

theorem Opens.windowAfter_eq (hl : 0 < q.length) (h : q.Opens client now) :
    q.windowAfter client now = .opened now := by
  rcases q.windowAfter_cases client now with ⟨heq, -⟩ | ⟨w, hw, hopen, -⟩
  · exact heq
  · exact absurd ((w.hasElapsed_iff hl now).mpr (h w hw)) hopen

/-! ## Requests in an open window -/

/-- The window of a client as it is after so many requests in it. -/
def HasCounted (q : Quota) (client : String) (start : Int) (requests : Nat) : Prop :=
  q.window? client = some ⟨start, min requests Window.maxCount⟩

/-- An opening request is the first one in its window. -/
theorem Opens.hasCounted (hl : 0 < q.length) (h : q.Opens client now) :
    (q.after (.request client now)).HasCounted client now 1 := by
  rw [HasCounted, Quota.after, window?_check, if_pos rfl, h.windowAfter_eq hl]
  rfl

theorem HasCounted.windowAfter_eq {requests : Nat} (hl : 0 < q.length)
    (h : q.HasCounted client start requests) (hnow : now < start + q.length) :
    q.windowAfter client now = ⟨start, min (requests + 1) Window.maxCount⟩ := by
  rcases q.windowAfter_cases client now with ⟨-, helapsed⟩ | ⟨w, hw, -, heq⟩
  · exact absurd ((Window.hasElapsed_iff hl _ now).mp (helapsed _ h)) (Int.not_le.mpr hnow)
  · cases h.symm.trans hw
    rw [heq]
    congr 1
    dsimp only
    omega

theorem HasCounted.request {requests : Nat} (hl : 0 < q.length)
    (h : q.HasCounted client start requests) (hnow : now < start + q.length) :
    (q.after (.request client now)).HasCounted client start (requests + 1) := by
  rw [HasCounted, Quota.after, window?_check, if_pos rfl, h.windowAfter_eq hl hnow]

theorem HasCounted.request_of_ne {requests : Nat} {other : String}
    (h : q.HasCounted client start requests) (hne : other ≠ client) :
    (q.after (.request other now)).HasCounted client start requests := by
  rw [HasCounted, Quota.after, window?_check, if_neg hne]
  exact h

theorem HasCounted.eviction {requests : Nat} (hl : 0 < q.length)
    (h : q.HasCounted client start requests) (hnow : now < start + q.length) :
    (q.after (.eviction now)).HasCounted client start requests := by
  have hopen := mt (Window.hasElapsed_iff hl ⟨start, min requests Window.maxCount⟩ now).mp
    (Int.not_le.mpr hnow)
  rw [HasCounted, Quota.after, window?_evict, h, Option.filter_some]
  simp [hopen]

/-- An open window stays, and each request of its client is answered by its number in it. -/
theorem HasCounted.answers {requests : Nat} {events : List Event} (hl : 0 < q.length)
    (h : q.HasCounted client start requests)
    (hends : ∀ event ∈ events, event.Concerns client → event.instant < start + q.length) :
    (∃ n, (q.run events).HasCounted client start n) ∧
      ∀ (i : Nat) (entry : Entry), (q.answers client events)[i]? = some entry →
        entry.now < start + q.length ∧ entry.decision =
          q.decide ⟨start, min (requests + i + 1) Window.maxCount⟩ entry.now := by
  induction events generalizing q requests with
  | nil => exact ⟨⟨requests, h⟩, nofun⟩
  | cons event events ih =>
      have hevent := hends event List.mem_cons_self
      have hrest : ∀ later ∈ events, later.Concerns client →
          later.instant < start + (q.after event).length := by
        intro later hin
        rw [length_after]
        exact hends later (List.mem_cons_of_mem event hin)
      have hlength : 0 < (q.after event).length := by
        rw [length_after]
        exact hl
      cases event with
      | eviction now => exact ih hlength (h.eviction hl (hevent trivial)) hrest
      | request other now =>
          by_cases hother : other = client
          · subst hother
            have hnow : now < start + q.length := hevent rfl
            obtain ⟨hrun, hnext⟩ := ih hlength (h.request hl hnow) hrest
            refine ⟨hrun, fun i entry hi => ?_⟩
            rw [answers_request] at hi
            cases i with
            | zero =>
                cases hi
                refine ⟨hnow, ?_⟩
                rw [Quota.check, h.windowAfter_eq hl hnow, Nat.add_zero]
            | succ i =>
                obtain ⟨hbefore, hdecision⟩ := hnext i entry hi
                refine ⟨hbefore, hdecision.trans ?_⟩
                rw [Nat.add_right_comm requests 1 i]
                rfl
          · rw [run_cons, answers_of_ne _ _ hother]
            exact ih hlength (h.request_of_ne hother) hrest

/-- The answer to a request by its number in the window and the time to the window's end. -/
theorem decide_eq (q : Quota) (n : Nat) (start now : Int) :
    let left := (q.length - max 0 (now - start)).toNat
    (n ≤ q.limit → q.decide ⟨start, n⟩ now = .allowed (q.limit - n) left) ∧
      (q.limit < n → q.decide ⟨start, n⟩ now = .limited ⟨.rate, n, q.limit⟩ left) := by
  have hleft : (Window.mk start n).timeLeft q.length now =
      ((q.length : Int) - max 0 (now - start)).toNat := by
    rw [Window.timeLeft, Window.age]
    dsimp only
    omega
  constructor
  · intro hn
    rw [Quota.decide, if_neg (Nat.not_lt.mpr hn), hleft]
  · intro hn
    rw [Quota.decide, if_pos hn, hleft]

end

/-! ## Where a window comes from -/

/-- A window was opened by a request of its client. All that concerned the client since then came
before the window's end. -/
theorem exists_isCourse {limit length : Nat} (hl : 0 < length) {client : String}
    (events : List Event) {w : Window}
    (h : ((Quota.mk limit length ∅).run events).window? client = some w) :
    ∃ before within, events = before ++ .request client w.start :: within ∧
      (Quota.mk limit length ∅).IsCourse client before w.start within := by
  induction events using List.reverseRecOn generalizing w with
  | nil => simp at h
  | append_singleton events event ih =>
      rw [run_append, run_cons, run_nil] at h
      -- The window was there before the last event, and that came before its end.
      have hextend : ∀ {w' : Window},
          ((Quota.mk limit length ∅).run events).window? client = some w' →
          w'.start = w.start → (event.Concerns client → event.instant < w.start + length) →
          ∃ before within, events ++ [event] = before ++ .request client w.start :: within ∧
            (Quota.mk limit length ∅).IsCourse client before w.start within := by
        intro w' hw' hstart hevent
        obtain ⟨before, within, rfl, hopens, hends⟩ := ih hw'
        rw [hstart] at hopens hends ⊢
        refine ⟨before, within ++ [event], by simp, hopens, fun later hin => ?_⟩
        rcases List.mem_append.mp hin with hin | hin
        · exact hends later hin
        · rw [List.mem_singleton.mp hin]
          exact hevent
      have hlength : 0 < ((Quota.mk limit length ∅).run events).length := by
        rw [length_run]
        exact hl
      cases event with
      | eviction now =>
          rw [Quota.after, window?_evict, Option.filter_eq_some_iff] at h
          refine hextend h.1 rfl fun _ => Int.not_le.mp fun helapsed => ?_
          have hover : w.hasElapsed length now = true := (w.hasElapsed_iff hl now).mpr helapsed
          rw [length_run, hover] at h
          exact Bool.noConfusion h.2
      | request other now =>
          rw [Quota.after, window?_check] at h
          by_cases hother : other = client
          · subst hother
            rw [if_pos rfl, Option.some_inj] at h
            rcases windowAfter_cases _ other now with ⟨heq, helapsed⟩ | ⟨w', hw', hopen, heq⟩
            · rw [← h, heq]
              refine ⟨events, [], rfl, fun w' hw' => ?_, by simp⟩
              exact (w'.hasElapsed_iff hlength now).mp (helapsed w' hw')
            · rw [heq] at h
              have hstart : w'.start = w.start := by rw [← h]
              refine hextend hw' hstart fun _ => Int.not_le.mp fun helapsed => hopen ?_
              rw [w'.hasElapsed_iff hlength, length_run, hstart]
              exact helapsed
          · rw [if_neg hother] at h
            exact hextend h rfl fun hsame => absurd hsame hother

/-- The requests of a window are answered by their numbers in it, the opening one first. -/
theorem IsCourse.answers {q : Quota} {client : String} {before within : List Event} {start : Int}
    (hl : 0 < q.length) (h : q.IsCourse client before start within) :
    (∀ now, (q.run (before ++ .request client start :: within)).Opens client now ↔
      start + q.length ≤ now) ∧
    ∀ (i : Nat) (entry : Entry),
      ((q.run before).answers client (.request client start :: within))[i]? = some entry →
      entry.now < start + q.length ∧
        entry.decision = q.decide ⟨start, min (i + 1) Window.maxCount⟩ entry.now := by
  have hlength : 0 < (q.run before).length := by
    rw [length_run]
    exact hl
  have hends : ∀ event ∈ within, event.Concerns client →
      event.instant < start + ((q.run before).after (.request client start)).length := by
    rw [length_after, length_run]
    exact h.ends
  obtain ⟨⟨n, hrun⟩, hanswers⟩ := (h.opens.hasCounted hlength).answers
    (by rw [length_after]; exact hlength) hends
  have hdecide : ∀ w now, (q.run before).decide w now = q.decide w now := fun w now => by
    rw [Quota.decide, Quota.decide, limit_run, length_run]
  constructor
  · intro now
    rw [run_append, run_cons, opens_iff hrun, length_run, length_after, length_run]
  · intro i entry hi
    rw [answers_request] at hi
    cases i with
    | zero =>
        cases hi
        refine ⟨by dsimp only; omega, ?_⟩
        rw [check, h.opens.windowAfter_eq hlength]
        exact hdecide _ _
    | succ i =>
        obtain ⟨hnow, hdecision⟩ := hanswers i entry hi
        rw [length_after, length_run] at hnow
        refine ⟨hnow, hdecision.trans ?_⟩
        rw [Nat.add_comm 1 i]
        exact hdecide _ _

/-- In every run, whatever its instants, a request of a client either opens a window or comes before
the end of one that an earlier request has opened. Of that window's requests, the opening one being
number 0, number `i` is answered as the count of `i + 1` requests asks for, refused ones included,
and as the time to the window's end, all of it for requests before the opening. The next window is
opened by the first request that is not before that end. -/
theorem answers_course {limit length : Nat} (hl : 0 < length) (client : String) :
    (∀ events now, ((Quota.mk limit length ∅).run events).Opens client now ∨
      ∃ before start within, events = before ++ .request client start :: within ∧
        (Quota.mk limit length ∅).IsCourse client before start within ∧ now < start + length) ∧
    ∀ before start within, (Quota.mk limit length ∅).IsCourse client before start within →
      (∀ now, ((Quota.mk limit length ∅).run (before ++ .request client start :: within)).Opens
        client now ↔ start + length ≤ now) ∧
      ∀ (i : Nat) (entry : Entry),
        (((Quota.mk limit length ∅).run before).answers client
          (.request client start :: within))[i]? = some entry →
        let n := min (i + 1) Window.maxCount
        let left := (length - max 0 (entry.now - start)).toNat
        0 < left ∧
        (n ≤ limit → entry.decision = .allowed (limit - n) left) ∧
        (limit < n → entry.decision = .limited ⟨.rate, n, limit⟩ left) ∧
        (limit < Window.maxCount → (entry.decision.isAllowed = true ↔ i < limit)) := by
  constructor
  · intro events now
    cases hw : ((Quota.mk limit length ∅).run events).window? client with
    | none => exact .inl fun w hw' => by rw [hw] at hw'; cases hw'
    | some w =>
        by_cases helapsed : w.start + length ≤ now
        · refine .inl ((opens_iff hw).mpr ?_)
          rw [length_run]
          exact helapsed
        · obtain ⟨before, within, heq, hcourse⟩ := exists_isCourse hl events hw
          exact .inr ⟨before, w.start, within, heq, hcourse, Int.not_le.mp helapsed⟩
  · intro before start within hcourse
    obtain ⟨hopens, hanswers⟩ := hcourse.answers hl
    refine ⟨hopens, fun i entry hi => ?_⟩
    have hnow : entry.now < start + length := (hanswers i entry hi).1
    have hdecide := decide_eq (Quota.mk limit length ∅) (min (i + 1) Window.maxCount) start
      entry.now
    rw [← (hanswers i entry hi).2] at hdecide
    obtain ⟨hallowed, hlimited⟩ := hdecide
    refine ⟨by omega, hallowed, hlimited, fun hlimit => ?_⟩
    by_cases hi : i < limit
    · rw [hallowed (show min (i + 1) Window.maxCount ≤ limit by omega)]
      exact iff_of_true rfl hi
    · rw [hlimited (show limit < min (i + 1) Window.maxCount by omega)]
      exact iff_of_false nofun hi

/-- A window opened at 0 after one that has elapsed: the second request comes before the opening and
has all of the time left, the third is refused, and a request at the window's end opens the next. -/
theorem answers_course_backwards :
    let fresh := Quota.mk 2 10 ∅
    let before : List Event := [.request "c" (-20)]
    let within : List Event := [.request "c" (-5), .eviction 9, .request "d" 20, .request "c" 9]
    let answers := (fresh.run before).answers "c" (.request "c" 0 :: within)
    0 < 10 ∧ fresh.IsCourse "c" before 0 within ∧
      (answers[1]?.map fun entry => entry.decision) = some (.allowed 0 10) ∧
      (answers[2]?.map fun entry => entry.decision) = some (.limited ⟨.rate, 3, 2⟩ 1) ∧
      (fresh.run (before ++ .request "c" 0 :: within)).Opens "c" 10 := by
  intro fresh before within answers
  have hopens : (fresh.run before).Opens "c" 0 := by
    refine (opens_iff (w := .opened (-20)) ?_).mpr (by decide)
    exact (window?_check fresh "c" (-20) "c").trans (by simp [windowAfter, fresh])
  have hcourse : fresh.IsCourse "c" before 0 within :=
    ⟨hopens, by simp [within, Event.Concerns, Event.instant, fresh]⟩
  obtain ⟨hnext, hanswers⟩ := (@answers_course 2 10 (by decide) "c").2 before 0 within hcourse
  have hinstants : answers.map (·.now) = [0, -5, 9] := by
    simp [answers, within, answers_request, answers_of_ne, answers_eviction]
    rfl
  have hentry : ∀ (i : Nat) (now : Int), [0, -5, 9][i]? = some now →
      ∃ entry, answers[i]? = some entry ∧ entry.now = now := by
    intro i now hi
    rw [← hinstants, List.getElem?_map] at hi
    exact Option.map_eq_some_iff.mp hi
  obtain ⟨second, hsecond, hnow⟩ := hentry 1 (-5) rfl
  obtain ⟨third, hthird, hnow'⟩ := hentry 2 9 rfl
  refine ⟨by decide, hcourse, ?_, ?_, (hnext 10).mpr (by decide)⟩
  · rw [hsecond, Option.map_some, (hanswers 1 second hsecond).2.1 (by decide), hnow]
    rfl
  · rw [hthird, Option.map_some, (hanswers 2 third hthird).2.2.1 (by decide), hnow']
    rfl

end QueryAdmission.Quota
