import QueryAdmission.Proofs.Quota.Window

/-! # The time that is left of a window

Every answer tells a client how long its window still lasts, and the quota keeps to it. Requests
that come sooner are counted in the same window, and the first one that does not come sooner opens
the next window. What others do in between, and whether the window is forgotten once it has elapsed,
makes no difference. -/

namespace QueryAdmission

/-- The time to the end of the window that an answer tells. -/
def Decision.timeLeft : Decision → Nat
  | .allowed _ resetIn => resetIn
  | .limited _ retryAfter => retryAfter

namespace Quota

section

variable {q : Quota} {client : String} {start now t : Int}

/-! ## What an answer tells -/

/-- All that a request can be answered, by the number of requests in its window. -/
theorem answer_cases (q : Quota) (client : String) (now : Int) :
    let w := q.windowAfter client now
    let left := w.timeLeft q.length now
    (w.count ≤ q.limit ∧ (q.check client now).1 = .allowed (q.limit - w.count) left) ∨
      (q.limit < w.count ∧ (q.check client now).1 = .limited ⟨.rate, w.count, q.limit⟩ left) := by
  dsimp only [check, Quota.decide]
  by_cases hover : q.limit < (q.windowAfter client now).count
  · exact .inr ⟨hover, if_pos hover⟩
  · exact .inl ⟨Nat.not_lt.mp hover, if_neg hover⟩

theorem timeLeft_check (q : Quota) (client : String) (now : Int) :
    (q.check client now).1.timeLeft = (q.windowAfter client now).timeLeft q.length now := by
  rcases q.answer_cases client now with ⟨-, heq⟩ | ⟨-, heq⟩
  · rw [heq, Decision.timeLeft]
  · rw [heq, Decision.timeLeft]

theorem observed_of_limited {breach : Breach} {wait : Nat}
    (h : (q.check client now).1 = .limited breach wait) :
    breach.observed = (q.windowAfter client now).count ∧ q.limit < breach.observed := by
  rcases q.answer_cases client now with ⟨-, heq⟩ | ⟨hover, heq⟩
  · cases heq.symm.trans h
  · cases heq.symm.trans h
    exact ⟨rfl, hover⟩

theorem remaining_add_count {remaining resetIn : Nat}
    (h : (q.check client now).1 = .allowed remaining resetIn) :
    remaining + (q.windowAfter client now).count = q.limit := by
  rcases q.answer_cases client now with ⟨hwithin, heq⟩ | ⟨-, heq⟩
  · cases heq.symm.trans h
    exact Nat.sub_add_cancel hwithin
  · cases heq.symm.trans h

/-- The window of an answered request ends when the time that is told has passed. -/
theorem timeLeft_spec (hl : 0 < q.length) (hs : q.OpenedBy client now) :
    let left := (q.check client now).1.timeLeft
    0 < left ∧ left ≤ q.length ∧ now + left = (q.windowAfter client now).start + q.length := by
  have hstart := hs.windowAfter
  have hend := lt_windowAfter hl client now
  rw [timeLeft_check, Window.timeLeft, Window.age]
  refine ⟨?_, ?_, ?_⟩ <;> omega

/-- In a run, no window opens after the present instant. -/
theorem openedBy_run {limit length : Nat} {events : List Event} (hl : 0 < length)
    (hnow : ∀ event ∈ events, event.instant ≤ now) (client : String) :
    ((Quota.mk limit length ∅).run events).OpenedBy client now := by
  intro w hw
  obtain ⟨before, within, rfl, -⟩ := exists_isCourse hl events hw
  exact hnow (.request client w.start) (by simp)

/-! ## A window while its client goes on -/

theorem Keeps.hasCounted {n : Nat} (h : q.Keeps client ⟨start, min n Window.maxCount⟩ now)
    (hnow : now < start + q.length) : q.HasCounted client start n := by
  rcases h with hw | ⟨-, helapsed⟩
  · exact hw
  · exact absurd helapsed (Int.not_le.mpr hnow)

/-- Requests in a window are counted, and nothing else happens to it until it has elapsed. -/
theorem Keeps.run {n : Nat} {events : List Event} (hl : 0 < q.length)
    (h : q.Keeps client ⟨start, min n Window.maxCount⟩ now) (horder : InOrder events)
    (hnow : ∀ event ∈ events, now ≤ event.instant) (ht : now ≤ t)
    (hlast : ∀ event ∈ events, event.instant ≤ t)
    (hends : ∀ u, .request client u ∈ events → u < start + q.length) :
    (q.run events).Keeps client
      ⟨start, min (n + (q.answers client events).length) Window.maxCount⟩ t := by
  induction events generalizing q n now with
  | nil => exact h.mono ht
  | cons event events ih =>
      obtain ⟨hlater, htail⟩ := List.pairwise_cons.mp horder
      obtain ⟨hfirst, hrest⟩ := List.forall_mem_cons.mp hlast
      have hhere := h.mono (hnow event List.mem_cons_self)
      have hlength : 0 < (q.after event).length := by
        rw [length_after]
        exact hl
      have hends' : ∀ u, .request client u ∈ events → u < start + (q.after event).length := by
        intro u hu
        rw [length_after]
        exact hends u (List.mem_cons_of_mem event hu)
      cases event with
      | eviction u => exact ih hlength (hhere.evict hl) htail hlater hfirst hrest hends'
      | request other u =>
          by_cases hother : other = client
          · subst hother
            have hcounted := (hhere.hasCounted (hends u List.mem_cons_self)).request hl
              (hends u List.mem_cons_self)
            have hrun := ih hlength (.inl hcounted) htail hlater hfirst hrest hends'
            rw [run_cons, answers_request, List.length_cons]
            rwa [Nat.add_assoc, Nat.add_comm 1] at hrun
          · rw [run_cons, answers_of_ne _ _ hother]
            exact ih hlength (hhere.check hother) htail hlater hfirst hrest hends'

/-- In a full window, a request is told its number and the time to the window's end. -/
theorem HasCounted.check_eq {n : Nat} (hl : 0 < q.length) (h : q.HasCounted client start n)
    (hfull : q.limit < min (n + 1) Window.maxCount) (hstart : start ≤ now)
    (hnow : now < start + q.length) :
    (q.check client now).1 = .limited ⟨.rate, min (n + 1) Window.maxCount, q.limit⟩
      (start + q.length - now).toNat := by
  have hleft : q.length - max 0 (now - start) = start + q.length - now := by omega
  rw [check, h.windowAfter_eq hl hnow]
  dsimp only
  rw [(q.decide_eq _ start now).2 hfull, hleft]

/-- A window that has elapsed makes way for the next one, whether it was forgotten or not. -/
theorem Keeps.opens_iff {w : Window} (h : q.Keeps client w now) :
    q.Opens client now ↔ w.start + q.length ≤ now := by
  rcases h with hw | ⟨hnone, helapsed⟩
  · exact Quota.opens_iff hw
  · refine iff_of_true (fun w' hw' => ?_) helapsed
    rw [hnone] at hw'
    cases hw'

theorem Opens.check_eq (hl : 0 < q.length) (hlimit : 0 < q.limit) (h : q.Opens client now) :
    (q.check client now).1 = .allowed (q.limit - 1) q.length := by
  have hleft : (Window.opened now).timeLeft q.length now = q.length := by
    simp [Window.timeLeft, Window.age, Window.opened]
  rw [check, h.windowAfter_eq hl, Quota.decide, hleft]
  exact if_neg (Nat.not_lt.mpr hlimit)

end

/-! ## One client's requests in a run -/

section

variable {limit length : Nat} {client : String} {before between : List Event} {t t' : Int}

/-- A client's window after a request, and after more of them that come before it ends. -/
theorem keeps_between (hl : 0 < length)
    (horder : InOrder (before ++ .request client t :: between ++ [.request client t'])) :
    let p := (Quota.mk limit length ∅).run before
    let w := p.windowAfter client t
    p.OpenedBy client t ∧ ((∀ u, .request client u ∈ between → u < w.start + length) →
      ((p.after (.request client t)).run between).Keeps client
        ⟨w.start, min (w.count + ((p.after (.request client t)).answers client between).length)
          Window.maxCount⟩ t') := by
  intro p w
  have hlast := horder.le_last
  obtain ⟨-, hlater, hbefore⟩ := List.pairwise_append.mp (List.pairwise_append.mp horder).1
  obtain ⟨hafter, hbetween⟩ := List.pairwise_cons.mp hlater
  refine ⟨openedBy_run hl (fun event hin => hbefore event hin _ List.mem_cons_self) client,
    fun hends => ?_⟩
  have hlength : 0 < (p.after (.request client t)).length := by
    rw [length_after, length_run]
    exact hl
  have hw : w = ⟨w.start, min w.count Window.maxCount⟩ := by
    rw [Nat.min_eq_left (count_windowAfter_le p client t)]
  have hfirst : (p.after (.request client t)).Keeps client
      ⟨w.start, min w.count Window.maxCount⟩ t := by
    rw [← hw]
    refine .inl ?_
    rw [Quota.after, window?_check, if_pos rfl]
  refine hfirst.run hlength hbetween hafter (hlast (.request client t) (by simp))
    (fun event hin => hlast event (by simp [hin])) fun u hu => ?_
  rw [length_after, length_run]
  exact hends u hu

/-- In a run in which time does not go back, a client that is refused and told to wait for `wait` is
refused until `wait` has passed, each time counted once more and told what is left of the wait. Its
first request after that is allowed as the first one of a new window. A client that is allowed a
request is told when its next one opens a new window. It matters for none of this what else happens
in between. -/
theorem timeLeft_isKept (hl : 0 < length) (hlimit : 0 < limit)
    (horder : InOrder (before ++ .request client t :: between ++ [.request client t'])) :
    let p := (Quota.mk limit length ∅).run before
    let q := (p.after (.request client t)).run between
    let since := ((p.after (.request client t)).answers client between).length
    (∀ breach wait, (p.check client t).1 = .limited breach wait →
      0 < wait ∧ wait ≤ length ∧
      (t' < t + wait → (q.check client t').1 =
        .limited ⟨.rate, min (breach.observed + since + 1) Window.maxCount, limit⟩
          (t + wait - t').toNat) ∧
      (t + wait ≤ t' → (∀ u, .request client u ∈ between → u < t + wait) →
        (q.check client t').1 = .allowed (limit - 1) length)) ∧
    ∀ remaining resetIn, (p.check client t).1 = .allowed remaining resetIn →
      0 < resetIn ∧ resetIn ≤ length ∧
      ((∀ u, .request client u ∉ between) → (q.Opens client t' ↔ t + resetIn ≤ t')) := by
  intro p q since
  obtain ⟨hopened, hkeeps⟩ : p.OpenedBy client t ∧
      ((∀ u, .request client u ∈ between → u < (p.windowAfter client t).start + length) →
        q.Keeps client ⟨(p.windowAfter client t).start,
          min ((p.windowAfter client t).count + since) Window.maxCount⟩ t') :=
    keeps_between hl horder
  have hplimit : p.limit = limit := limit_run _ _
  have hplength : p.length = length := length_run _ _
  have hqlimit : q.limit = limit := by rw [limit_run, limit_after, hplimit]
  have hqlength : q.length = length := by rw [length_run, length_after, hplength]
  obtain ⟨hpos, hle, hend⟩ := timeLeft_spec (hplength.symm ▸ hl) hopened
  rw [hplength] at hle hend
  constructor
  · intro breach wait hdecision
    rw [hdecision, Decision.timeLeft] at hpos hle hend
    obtain ⟨hobserved, hover⟩ := observed_of_limited hdecision
    rw [hplimit, hobserved] at hover
    rw [hend, hobserved]
    refine ⟨hpos, hle, fun hsooner => ?_, fun hlater hsooner => ?_⟩
    · have hends : ∀ u, .request client u ∈ between →
          u < (p.windowAfter client t).start + length := fun u hu =>
        Int.lt_of_le_of_lt (horder.le_last (.request client u) (by simp [hu])) hsooner
      have hstart : (p.windowAfter client t).start ≤ t' :=
        Int.le_trans hopened.windowAfter (horder.le_last (.request client t) (by simp))
      have hfull : limit < min ((p.windowAfter client t).count + since + 1) Window.maxCount :=
        Nat.lt_min.mpr ⟨by omega, Nat.lt_of_lt_of_le hover (count_windowAfter_le p client t)⟩
      rw [← hqlength] at hsooner
      rw [((hkeeps hends).hasCounted hsooner).check_eq (hqlength.symm ▸ hl)
        (by rw [hqlimit]; exact hfull) hstart hsooner, hqlimit, hqlength]
    · have hopens := (hkeeps hsooner).opens_iff.mpr (by rw [hqlength]; exact hlater)
      rw [hopens.check_eq (hqlength.symm ▸ hl) (hqlimit.symm ▸ hlimit), hqlimit, hqlength]
  · intro remaining resetIn hdecision
    rw [hdecision, Decision.timeLeft] at hpos hle hend
    refine ⟨hpos, hle, fun hnone => ?_⟩
    rw [(hkeeps fun u hu => absurd hu (hnone u)).opens_iff, hqlength, hend]

end

/-- One request in ten is allowed. After the refused one at 4 there are 6 left, also for a request
at 9 after another one, and also if the window is forgotten before the request at 10. -/
theorem timeLeft_isKept_forgotten :
    let before : List Event := [.request "c" 0]
    let p := (Quota.mk 1 10 ∅).run before
    let soon : List Event := [.request "d" 5, .request "c" 6]
    let late : List Event := [.request "d" 5, .request "c" 6, .eviction 10]
    (0 < 10 ∧ 0 < 1 ∧
      InOrder (before ++ .request "c" 4 :: soon ++ [.request "c" 9]) ∧
      InOrder (before ++ .request "c" 4 :: late ++ [.request "c" 10])) ∧
    (p.check "c" 4).1 = .limited ⟨.rate, 2, 1⟩ 6 ∧
    (((p.after (.request "c" 4)).run soon).check "c" 9).1 = .limited ⟨.rate, 4, 1⟩ 1 ∧
    (((p.after (.request "c" 4)).run late).check "c" 10).1 = .allowed 0 10 := by
  intro before p soon late
  have hsoon : InOrder (before ++ .request "c" 4 :: soon ++ [.request "c" 9]) := by
    simp [InOrder, before, soon, Event.instant]
  have hlate : InOrder (before ++ .request "c" 4 :: late ++ [.request "c" 10]) := by
    simp [InOrder, before, late, Event.instant]
  have hdecision : (p.check "c" 4).1 = .limited ⟨.rate, 2, 1⟩ 6 := by
    simp [p, before, Quota.after, check, window?, windowAfter, Quota.decide, Window.opened,
      Window.request, Window.hasElapsed, Window.age, Window.timeLeft, Window.maxCount]
  have hsince : ((p.after (.request "c" 4)).answers "c" soon).length = 1 := by
    simp [soon, answers, log]
  obtain ⟨-, -, hsooner, -⟩ := (timeLeft_isKept (by decide) (by decide) hsoon).1 _ _ hdecision
  obtain ⟨-, -, -, hlater⟩ := (timeLeft_isKept (by decide) (by decide) hlate).1 _ _ hdecision
  refine ⟨⟨by decide, by decide, hsoon, hlate⟩, hdecision, ?_, ?_⟩
  · rw [hsooner (by decide), hsince]
    rfl
  · exact hlater (by decide) (by simp [late])

end Quota

end QueryAdmission
