import QueryAdmission.Proofs.Service.Run

/-! # Clients that wait as long as they are told

A client beyond its quota is told whole seconds to wait, rounded down, but at least one. What is
left of its window is known to the nanosecond. So the wait is long enough exactly if less than a
second is left or nothing was lost in rounding. -/

namespace QueryAdmission

namespace Service

namespace Clocked

variable {s : RateSettings} {c : Clocked} {r : Request} {client : String}

/-- Nothing in `events` is a request that names the client. -/
def Quiet (client : String) (events : List Event) : Prop :=
  ∀ r, .request r ∈ events → ¬ Names r client

theorem Sound.keeps_after {w : Window} {event : Event} (h : c.Sound s) (hl : 0 < s.window)
    (hw : c.service.quota.Keeps client w c.now)
    (hquiet : ∀ r, event = .request r → ¬ Names r client) :
    (c.after event).service.quota.Keeps client w (c.after event).now := by
  cases event with
  | request r =>
      dsimp only [Clocked.after]
      rcases quota_respond c.service c.now r with heq | ⟨other, hr, heq⟩
      · rw [heq]
        exact hw
      · rw [heq]
        refine hw.check fun hother => hquiet r rfl ?_
        rw [← hother]
        exact hr
  | advance nanos => exact hw.mono (Int.le.intro nanos rfl)
  | cleanup => exact hw.evict (by rw [h.length]; exact hl)

theorem Sound.keeps_run {w : Window} {events : List Event} (h : c.Sound s) (hl : 0 < s.window)
    (hw : c.service.quota.Keeps client w c.now) (hquiet : Quiet client events) :
    (c.run events).service.quota.Keeps client w (c.run events).now := by
  induction events generalizing c with
  | nil => exact hw
  | cons event events ih =>
      have hfirst := h.keeps_after hl hw fun r heq => hquiet r (heq ▸ List.mem_cons_self)
      exact ih (h.after event) hfirst fun r hr => hquiet r (List.mem_cons_of_mem event hr)

/-- Whether a client that was told to wait gets through with its next request, whatever happens
in between, if it comes no earlier than after so many seconds. -/
def IsEnough (c : Clocked) (r : Request) (client : String) (secs : Nat) : Prop :=
  ∀ between later, Quiet client between → Names later client →
    let d := (c.after (.request r)).run between
    c.now + (secs * nanosPerSecond : Nat) ≤ d.now → (d.reply later).status ≠ 429

/-- The next request after one that was told to wait is refused as long as something is left of
the window. -/
theorem Sound.status_next {breach : Breach} {left : Nat} (h : c.Sound s) (hl : 0 < s.window)
    (hlimit : 0 < s.limit.toNat) (hr : Names r client)
    (hleft : (c.service.quota.check client c.now).1 = .limited breach left)
    {between : List Event} (hquiet : Quiet client between) {later : Request}
    (hlater : Names later client) :
    (((c.after (.request r)).run between).reply later).status = 429 ↔
      ((c.after (.request r)).run between).now < c.now + left := by
  obtain ⟨hcount, breach', left', hdecision, -, hend⟩ :=
    Quota.check_limited (h.length_pos hl) (h.opened client) (by rw [hleft]; rfl)
  rw [hleft] at hdecision
  cases hdecision
  obtain ⟨-, -, hquota⟩ := hr.respond_eq c.service c.now
  have hfirst : (c.after (.request r)).service.quota.Keeps client
      (c.service.quota.windowAfter client c.now) c.now := by
    refine .inl ?_
    rw [show (c.after (.request r)).service.quota = _ from hquota, Quota.window?_check, if_pos rfl]
  have hkeeps := (h.after (.request r)).keeps_run hl hfirst hquiet
  have hsound := (h.after (.request r)).run between
  have hallowed := hkeeps.isAllowed_check (hsound.length_pos hl) (hsound.limit_pos hlimit)
    (by rw [hsound.limit, ← h.limit]; exact hcount) (Quota.count_windowAfter_le _ _ _)
  rw [status_reply hlater, ← Bool.not_eq_true, hallowed, hend, hsound.length, h.length]
  exact Int.not_le

theorem isEnough_iff {left : Nat} (hr : Names r client)
    (hnext : ∀ between later, Quiet client between → Names later client →
      ((((c.after (.request r)).run between).reply later).status = 429 ↔
        ((c.after (.request r)).run between).now < c.now + left)) (secs : Nat) :
    c.IsEnough r client secs ↔ left ≤ secs * nanosPerSecond := by
  constructor
  · -- The same request again, right when the wait is over.
    intro h
    have hquiet : Quiet client [.advance (secs * nanosPerSecond)] := fun _ hin => by simp at hin
    have hpassed := mt (hnext _ r hquiet hr).mpr (h _ r hquiet hr (Int.le_refl _))
    have hnow : ((c.after (.request r)).run [.advance (secs * nanosPerSecond)]).now =
        c.now + (secs * nanosPerSecond : Nat) := rfl
    rw [hnow] at hpassed
    omega
  · intro h between later hquiet hlater
    dsimp only
    intro hlate h429
    have hearly := (hnext between later hquiet hlater).mp h429
    omega

end Clocked

/-- Rounding down is harmless below a second, where the wait is a whole one. -/
theorem le_waitSecs_iff (left : Nat) :
    left ≤ waitSecs left * nanosPerSecond ↔ left ≤ nanosPerSecond ∨ nanosPerSecond ∣ left := by
  rw [waitSecs, nanosPerSecond]
  omega

theorem lt_waitSecs_add_one (left : Nat) : left ≤ (waitSecs left + 1) * nanosPerSecond := by
  rw [waitSecs, nanosPerSecond]
  omega

/-- A client beyond its quota is told `max 1 (left / 10 ^ 9)` seconds where `left` nanoseconds are
left of its window, and its next request that is read is refused exactly if it comes before those
have passed. So the wait is enough if at most a second is left or a whole number of seconds, and in
no other case; one second more always is. -/
theorem retryAfter_isEnough_iff {settings : Settings} {service : Service}
    (hvalid : ofSettings settings = .ok service) (start : Int) (before : List Event)
    {r : Request} {client : String} (hr : Names r client)
    (h429 : (((Clocked.mk service start).run before).reply r).status = 429) :
    let c := (Clocked.mk service start).run before
    ∃ breach left secs,
      (c.service.quota.check client c.now).1 = .limited breach left ∧
      (c.reply r).retryAfter = some secs ∧ secs = max 1 (left / nanosPerSecond) ∧
      (∀ between later, Clocked.Quiet client between → Names later client →
        let d := (c.after (.request r)).run between
        (d.reply later).status = 429 ↔ d.now < c.now + left) ∧
      (c.IsEnough r client secs ↔ left ≤ nanosPerSecond ∨ nanosPerSecond ∣ left) ∧
      c.IsEnough r client (secs + 1) := by
  intro c
  obtain ⟨hissues, -⟩ := ofSettings_spec hvalid
  have hsound : c.Sound settings.rate := (sound_ofSettings hvalid start).run before
  have hwindow := window_pos hissues
  obtain ⟨-, breach, left, hleft, -, -⟩ := Quota.check_limited
    (hsound.length_pos hwindow) (hsound.opened client) ((Clocked.status_reply hr c).mp h429)
  obtain ⟨envelope, hreply, -⟩ := hr.respond_eq c.service c.now
  have hnext : ∀ between later, Clocked.Quiet client between → Names later client →
      ((((c.after (.request r)).run between).reply later).status = 429 ↔
        ((c.after (.request r)).run between).now < c.now + left) :=
    fun _ _ hquiet hlater => hsound.status_next hwindow (limit_pos hissues) hr hleft hquiet hlater
  refine ⟨breach, left, waitSecs left, hleft, ?_, rfl, hnext, ?_, ?_⟩
  · rw [Clocked.reply, hreply, hleft]
    rfl
  · rw [Clocked.isEnough_iff hr hnext]
    exact le_waitSecs_iff left
  · rw [Clocked.isEnough_iff hr hnext]
    exact lt_waitSecs_add_one left

/-- One request in two seconds is allowed, the second comes after half a second. The client is told
to wait for one second, but is refused again if it does. -/
theorem retryAfter_too_short :
    let settings : Settings :=
      { rate := { limit := 1, windowSecs := 2 }, costs := { weights := ∅ } }
    let r : Request := ⟨"POST", "/check", bytesOf "\x7b\"client\":\"c\"\x7d"⟩
    ∃ service, ofSettings settings = .ok service ∧ Names r "c" ∧
      let c := (Clocked.mk service 0).run [.request r, .advance 500000000]
      (c.reply r).status = 429 ∧ (c.reply r).retryAfter = some 1 ∧ ¬ c.IsEnough r "c" 1 := by
  intro settings r
  obtain ⟨service, hvalid⟩ : ∃ service, ofSettings settings = .ok service := ⟨_, rfl⟩
  have hr : Names r "c" := @names_plain "c" rfl (by decide) (by decide)
  refine ⟨service, hvalid, hr, ?_⟩
  intro c
  have hquota : c.service.quota = ((Quota.ofSettings settings.rate).check "c" 0).2 := by
    obtain ⟨-, -, hquota⟩ := hr.respond_eq service 0
    rw [(ofSettings_spec hvalid).2] at hquota
    exact hquota
  have hdecision : (c.service.quota.check "c" c.now).1 = .limited ⟨.rate, 2, 1⟩ 1500000000 := by
    have hfresh : Quota.ofSettings settings.rate = ⟨1, 2 * nanosPerSecond, ∅⟩ := rfl
    have hnow : c.now = 500000000 := rfl
    rw [hquota, hfresh, hnow]
    simp [Quota.check, Quota.window?, Quota.windowAfter, Quota.decide, Window.opened,
      Window.request, Window.hasElapsed, Window.age, Window.timeLeft, Window.maxCount,
      nanosPerSecond]
  have h429 : (c.reply r).status = 429 :=
    (Clocked.status_reply hr c).mpr (by rw [hdecision]; rfl)
  obtain ⟨_, left, secs, hleft, hsecs, hround, -, henough, -⟩ :=
    retryAfter_isEnough_iff hvalid 0 [.request r, .advance 500000000] hr h429
  have heq := hleft.symm.trans hdecision
  cases heq
  have hone : secs = 1 := hround
  subst hone
  refine ⟨h429, hsecs, fun h => ?_⟩
  have hbad := henough.mp h
  revert hbad
  decide

end Service

end QueryAdmission
