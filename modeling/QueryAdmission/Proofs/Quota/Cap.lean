import QueryAdmission.Proofs.Quota.Run

/-! # How much a quota allows in a span of time

Windows of one client open at least their length apart, also when one was forgotten in between.
So only so many of them can still allow something in a span `[a, b)`, and each allows no more than
the limit. -/

namespace QueryAdmission

/-- The number of windows, each open when the one before has elapsed, that can open from `e` on
and reach into the span `[a, b)`. -/
def openings (length : Nat) (a b e : Int) : Nat :=
  ((b - max e (a - length + 1) + length - 1) / length).toNat

section

variable {length : Nat} {a b e t : Int}

theorem openings_anti (hl : 0 < length) (he : e ≤ t) :
    openings length a b t ≤ openings length a b e := by
  have hpos : (0 : Int) < length := by omega
  exact Int.toNat_le_toNat (Int.ediv_le_ediv hpos (by omega))

/-- A window that reaches into the span takes the place of one. -/
theorem openings_add_one_le (hl : 0 < length) (ha : a < t + length) (hb : t < b) :
    openings length a b (t + length) + 1 ≤ openings length a b t := by
  have hpos : (0 : Int) < length := by omega
  have hsplit : b - max t (a - length + 1) + length - 1 =
      b - max (t + length) (a - length + 1) + length - 1 + 1 * length := by omega
  have hnonneg : 0 ≤ (b - max (t + length) (a - length + 1) + length - 1) / (length : Int) :=
    Int.ediv_nonneg (by omega) (by omega)
  rw [openings, openings, hsplit, Int.add_mul_ediv_right _ _ (by omega)]
  omega

theorem openings_le (hl : 0 < length) (k : Nat) :
    openings length a (a + k * length) e ≤ k + 1 := by
  have hpos : (0 : Int) < length := by omega
  rw [openings, Int.toNat_le, Int.ediv_le_iff_le_mul hpos]
  push_cast
  rw [Int.add_mul]
  omega

theorem openings_le_of_le (hl : 0 < length) (k : Nat) (he : a ≤ e) :
    openings length a (a + k * length) e ≤ k := by
  have hpos : (0 : Int) < length := by omega
  rw [openings, Int.toNat_le, Int.ediv_le_iff_le_mul hpos]
  omega

end

/-- What the requests to come in an open window can still be allowed in the span `[a, b)`. -/
def Window.room (w : Window) (limit length : Nat) (a b : Int) : Nat :=
  if a < w.start + length ∧ w.start < b then limit - w.count else 0

namespace Quota

/-- What a client can still be allowed in the span `[a, b)` if its requests to come are not before
`e`. -/
def room (q : Quota) (client : String) (a b e : Int) : Nat :=
  match q.window? client with
  | none => q.limit * openings q.length a b e
  | some w => w.room q.limit q.length a b + q.limit * openings q.length a b (w.start + q.length)

/-- The number of requests of a client in the span `[a, b)` that a run allows. -/
def allowed (q : Quota) (events : List Event) (client : String) (a b : Int) : Nat :=
  (q.log events).countP fun entry =>
    entry.client == client && (a ≤ entry.now && entry.now < b) && entry.decision.isAllowed

end Quota

/-! ## One request -/

section

variable {limit length : Nat} {a b e t : Int}

/-- A request that opens a window. -/
theorem room_opened (hl : 0 < length) (he : e ≤ t) :
    (if (a ≤ t ∧ t < b) ∧ 1 ≤ limit then 1 else 0) + (Window.opened t).room limit length a b +
      limit * openings length a b (t + length) ≤ limit * openings length a b e := by
  have hmono : limit * openings length a b t ≤ limit * openings length a b e :=
    Nat.mul_le_mul_left limit (openings_anti hl he)
  rw [Window.room, Window.opened]
  dsimp only
  by_cases h : a < t + length ∧ t < b
  · have hone : limit * (openings length a b (t + length) + 1) ≤ limit * openings length a b t :=
      Nat.mul_le_mul_left limit (openings_add_one_le hl h.1 h.2)
    rw [Nat.mul_add_one] at hone
    rw [if_pos h]
    split <;> omega
  · have hless : limit * openings length a b (t + length) ≤ limit * openings length a b t :=
      Nat.mul_le_mul_left limit (openings_anti hl (by omega))
    rw [if_neg h, if_neg (by omega)]
    omega

/-- A request in a window that is open. The count stops beyond the limit. -/
theorem room_counted (w : Window) {most : Nat} (hlimit : limit < most) (hs : w.start ≤ t)
    (ht : t < w.start + length) :
    (if (a ≤ t ∧ t < b) ∧ min (w.count + 1) most ≤ limit then 1 else 0) +
      Window.room { w with count := min (w.count + 1) most } limit length a b ≤
      w.room limit length a b := by
  rw [Window.room, Window.room]
  dsimp only
  by_cases h : a < w.start + length ∧ w.start < b
  · rw [if_pos h, if_pos h]
    split <;> omega
  · have hspan : ¬ ((a ≤ t ∧ t < b) ∧ min (w.count + 1) most ≤ limit) := by omega
    simp only [if_neg hspan, if_neg h, Nat.zero_add, Nat.le_refl]

end

namespace Quota

section

variable {q : Quota} {client : String} {a b e t : Int}

/-- What a request is allowed is taken from what its client can still be allowed. -/
theorem room_check (hl : 0 < q.length) (hlimit : q.limit < Window.maxCount)
    (hs : q.OpenedBy client t) (he : e ≤ t) :
    (if (a ≤ t ∧ t < b) ∧ (q.check client t).1.isAllowed then 1 else 0) +
      (q.check client t).2.room client a b t ≤ q.room client a b e := by
  have hwindow : (q.check client t).2.window? client = some (q.windowAfter client t) := by
    rw [window?_check, if_pos rfl]
  simp only [isAllowed_check]
  rw [room, room, hwindow]
  dsimp only [limit_check, length_check]
  rw [← Nat.add_assoc]
  rcases q.windowAfter_cases client t with ⟨heq, helapsed⟩ | ⟨w, hw, hopen, heq⟩
  · rw [heq]
    cases hw : q.window? client with
    | none => exact room_opened hl he
    | some w =>
        have hbefore := (w.hasElapsed_iff hl t).mp (helapsed w hw)
        exact Nat.le_trans (room_opened hl hbefore) (Nat.le_add_left _ _)
  · rw [heq, hw]
    refine Nat.add_le_add_right (room_counted w hlimit (hs w hw) ?_) _
    exact Int.not_le.mp (mt (w.hasElapsed_iff hl t).mpr hopen)

theorem room_check_of_ne {other : String} (hne : other ≠ client) :
    (q.check other t).2.room client a b e = q.room client a b e := by
  rw [room, room, window?_check, if_neg hne]
  rfl

/-- A client whose window is forgotten cannot be allowed more than if it were not. -/
theorem room_evict (hl : 0 < q.length) :
    (q.evict t).2.room client a b (max e t) ≤ q.room client a b e := by
  rw [room, room, window?_evict]
  cases hw : q.window? client with
  | none => exact Nat.mul_le_mul_left _ (openings_anti hl (Int.le_max_left e t))
  | some w =>
      by_cases helapsed : w.hasElapsed q.length t = true
      · have hbefore := Int.le_trans ((w.hasElapsed_iff hl t).mp helapsed) (Int.le_max_right e t)
        simp only [Option.filter_some, helapsed]
        exact Nat.le_trans (Nat.mul_le_mul_left _ (openings_anti hl hbefore)) (Nat.le_add_left _ _)
      · simp [Option.filter_some, helapsed]

end

/-! ## A whole run -/

section

variable {client : String} {a b e : Int}

theorem allowed_request (q : Quota) (other : String) (t : Int) (events : List Event) :
    q.allowed (.request other t :: events) client a b =
      (if other = client ∧ (a ≤ t ∧ t < b) ∧ (q.check other t).1.isAllowed then 1 else 0) +
        (q.check other t).2.allowed events client a b := by
  rw [allowed, log, List.countP_cons, Nat.add_comm]
  simp [allowed, and_assoc]

theorem allowed_eviction (q : Quota) (t : Int) (events : List Event) :
    q.allowed (.eviction t :: events) client a b = (q.evict t).2.allowed events client a b := rfl

theorem allowed_le_room {q : Quota} {events : List Event} (hl : 0 < q.length)
    (hlimit : q.limit < Window.maxCount) (horder : InOrder events)
    (hs : ∀ event ∈ events, q.OpenedBy client event.instant)
    (he : ∀ t, .request client t ∈ events → e ≤ t) :
    q.allowed events client a b ≤ q.room client a b e := by
  induction events generalizing q e with
  | nil => exact Nat.zero_le _
  | cons event events ih =>
      obtain ⟨hlater, htail⟩ := List.pairwise_cons.mp horder
      have hopened := (hs event List.mem_cons_self).after
      have hnext : ∀ later ∈ events, (q.after event).OpenedBy client later.instant :=
        fun later hin => hopened.mono (hlater later hin)
      cases event with
      | eviction t =>
          have hreq : ∀ u, .request client u ∈ events → max e t ≤ u := fun u hu =>
            Int.max_le.mpr ⟨he u (List.mem_cons_of_mem _ hu), hlater _ hu⟩
          rw [allowed_eviction]
          exact Nat.le_trans (ih (q := (q.evict t).2) hl hlimit htail hnext hreq) (room_evict hl)
      | request other t =>
          rw [allowed_request]
          by_cases hclient : other = client
          · subst hclient
            have hrest := ih (q := (q.check other t).2) (e := t) hl hlimit htail hnext
              fun u hu => hlater _ hu
            have hone : _ ≤ q.room other a b e :=
              room_check (t := t) hl hlimit (hs _ List.mem_cons_self) (he t List.mem_cons_self)
            simp only [true_and]
            exact Nat.le_trans (Nat.add_le_add_left hrest _) hone
          · have hrest := ih (q := (q.check other t).2) (e := e) hl hlimit htail hnext fun u hu =>
              he u (List.mem_cons_of_mem _ hu)
            rw [if_neg (fun h => hclient h.1), Nat.zero_add]
            exact Nat.le_trans hrest (Nat.le_of_eq (room_check_of_ne hclient))

end

/-- In any span of `k` window lengths a client is allowed at most the requests of `k + 1` windows,
and at most those of `k` windows if its first request begins the span. -/
theorem allowed_le {limit length : Nat} {events : List Event} (hl : 0 < length)
    (hlimit : limit < Window.maxCount) (horder : InOrder events) (client : String) (a : Int)
    (k : Nat) :
    (Quota.mk limit length ∅).allowed events client a (a + k * length) ≤ (k + 1) * limit ∧
      (FirstRequest events client a →
        (Quota.mk limit length ∅).allowed events client a (a + k * length) ≤ k * limit) := by
  have hs : ∀ event ∈ events, (Quota.mk limit length ∅).OpenedBy client event.instant :=
    fun _ _ w hw => by simp at hw
  have hroom : ∀ e, (∀ t, .request client t ∈ events → e ≤ t) →
      (Quota.mk limit length ∅).allowed events client a (a + k * length) ≤
        limit * openings length a (a + k * length) e := by
    intro e he
    refine Nat.le_trans (allowed_le_room hl hlimit horder hs he) (Nat.le_of_eq ?_)
    simp [room]
  constructor
  · obtain ⟨e, he⟩ := horder.exists_le
    refine Nat.le_trans (hroom e fun t ht => he _ ht) ?_
    rw [Nat.mul_comm]
    exact Nat.mul_le_mul_right limit (openings_le hl k)
  · intro hfirst
    refine Nat.le_trans (hroom a fun t ht => hfirst.le horder ht) ?_
    rw [Nat.mul_comm]
    exact Nat.mul_le_mul_right limit (openings_le_of_le hl k (Int.le_refl a))

/-- Four requests of one client, the first window forgotten when it has elapsed. -/
theorem allowed_le_forgotten :
    let events : List Event :=
      [.request "c" 0, .request "c" 1, .eviction 2, .request "c" 2, .request "c" 2]
    (0 < 2 ∧ 2 < Window.maxCount ∧ InOrder events ∧ FirstRequest events "c" 0) ∧
      (Quota.mk 2 2 ∅).allowed events "c" 1 (1 + 1 * 2) ≤ (1 + 1) * 2 ∧
      (Quota.mk 2 2 ∅).allowed events "c" 0 (0 + 1 * 2) ≤ 1 * 2 := by
  intro events
  have horder : InOrder events := by simp [InOrder, events, Event.instant]
  have hfirst : FirstRequest events "c" 0 := ⟨[], _, rfl, by simp⟩
  exact ⟨⟨by decide, by decide, horder, hfirst⟩,
    (allowed_le (by decide) (by decide) horder "c" 1 1).1,
    (allowed_le (by decide) (by decide) horder "c" 0 1).2 hfirst⟩

end Quota

end QueryAdmission
