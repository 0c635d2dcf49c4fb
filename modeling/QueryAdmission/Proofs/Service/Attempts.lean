import QueryAdmission.Proofs.Quota.TimeLeft
import QueryAdmission.Proofs.Service.Queries
import QueryAdmission.Proofs.Service.Tally

/-! # What a request counts for

What a run of the service asks of the quotas is a run of the quotas in which time does not go back.
There the count of a window is the number of requests that its client has made since it opened. So
a request that says who asks is counted once, whatever becomes of its query, and one that does not,
or that is too long to be read, is counted nowhere. -/

namespace QueryAdmission

/-! ## The count of a window -/

namespace Quota

def Event.isBy (client : String) : Event → Bool
  | .request other _ => other == client
  | .eviction _ => false

/-- The number of requests that a client makes in a run from an instant on. -/
def requestsSince (client : String) (start : Int) (events : List Event) : Nat :=
  events.countP fun event => event.isBy client && start ≤ event.instant

section

variable {client : String} {limit length : Nat} {events : List Event} {now : Int}

theorem length_answers (q : Quota) (client : String) (events : List Event) :
    (q.answers client events).length = events.countP (·.isBy client) := by
  induction events generalizing q with
  | nil => rfl
  | cons event events ih =>
      cases event with
      | eviction now =>
          rw [answers_eviction, ih]
          rfl
      | request other now =>
          rw [List.countP_cons]
          by_cases hother : other = client
          · subst hother
            rw [answers_request, List.length_cons, ih]
            simp [Event.isBy]
          · rw [answers_of_ne _ _ hother, ih]
            simp [Event.isBy, hother]

theorem isBy_iff {event : Event} :
    event.isBy client = true ↔ ∃ now, event = .request client now := by
  cases event with
  | eviction now => simp [Event.isBy]
  | request other now => simp [Event.isBy]

/-- When a window opens, its client's earlier requests were all before. -/
theorem lt_of_opens (hl : 0 < length) (horder : InOrder (events ++ [.request client now]))
    (hopens : ((Quota.mk limit length ∅).run events).Opens client now) {u : Int}
    (hu : .request client u ∈ events) : u < now := by
  obtain ⟨before, between, rfl⟩ := List.append_of_mem hu
  refine Int.not_le.mp fun hle => ?_
  have hend := lt_windowAfter (q := (Quota.mk limit length ∅).run before)
    (by rw [length_run]; exact hl) client u
  rw [length_run] at hend
  have hkeeps := (@keeps_between limit _ _ _ _ _ _ hl horder).2 fun v hv =>
    Int.lt_of_le_of_lt ((horder.le_last (.request client v) (by simp [hv])).trans hle) hend
  rw [run_append, run_cons, hkeeps.opens_iff, length_run, length_after, length_run] at hopens
  exact Int.not_le.mpr hend (hopens.trans hle)

/-- The count of a window is the number of its client's requests since it opened. -/
theorem count_eq_requestsSince (hl : 0 < length)
    (horder : InOrder (events ++ [.request client now])) {w : Window}
    (hw : ((Quota.mk limit length ∅).run events).window? client = some w) :
    w.count = min (requestsSince client w.start events) Window.maxCount := by
  obtain ⟨before, within, rfl, hopens, hends⟩ := exists_isCourse hl events hw
  have hbefore : requestsSince client w.start before = 0 := by
    refine List.countP_eq_zero.mpr fun event hin hsince => ?_
    rw [Bool.and_eq_true, isBy_iff, decide_eq_true_iff] at hsince
    obtain ⟨⟨u, rfl⟩, hle⟩ := hsince
    have horder' : InOrder (before ++ [.request client w.start]) :=
      horder.sublist (by simp)
    exact absurd (lt_of_opens hl horder' hopens hin) (Int.not_lt.mpr hle)
  have hwithin : requestsSince client w.start within = within.countP (·.isBy client) := by
    refine List.countP_congr fun event hin => ?_
    have hafter : w.start ≤ event.instant :=
      (List.pairwise_cons.mp (List.pairwise_append.mp (List.pairwise_append.mp horder).1).2.1).1
        event hin
    simp [hafter]
  have hopener : requestsSince client w.start [.request client w.start] = 1 := by
    simp [requestsSince, Event.isBy, Event.instant]
  have hcount : requestsSince client w.start (before ++ .request client w.start :: within) =
      1 + within.countP (·.isBy client) := by
    rw [← hwithin, ← hopener, ← Nat.zero_add (requestsSince client w.start [_]), ← hbefore,
      requestsSince, List.append_cons, List.countP_append, List.countP_append]
    rfl
  have hkeeps := (@keeps_between limit _ _ _ _ _ _ hl horder).2
  rw [hopens.windowAfter_eq (by rw [length_run]; exact hl)] at hkeeps
  rw [run_append, run_cons] at hw
  rcases hkeeps fun u hu => hends _ hu rfl with heq | ⟨hnone, -⟩
  · rw [hw, Option.some_inj] at heq
    rw [hcount, heq, length_answers]
    rfl
  · rw [hw] at hnone
    cases hnone

end

end Quota

namespace Service

/-! ## What a run asks of the quotas -/

/-- The client that a request to check a query names, if it is read. -/
def namedBy? (r : Request) : Option String :=
  if IsRead r then (clientOf? r.body).filter fun client => !Text.isBlankText client else none

theorem namedBy?_eq_some {r : Request} {client : String} :
    namedBy? r = some client ↔ Names r client := by
  rw [names_iff, namedBy?]
  by_cases hr : IsRead r
  · simp [hr, Option.filter_eq_some_iff]
  · simp [hr]

namespace Clocked

/-- What an event asks of the quotas. -/
def asked? (c : Clocked) : Event → Option Quota.Event
  | .request r => (namedBy? r).map fun client => .request client c.now
  | .advance _ => none
  | .cleanup => some (.eviction c.now)

/-- What a run asks of the quotas. -/
def traffic (c : Clocked) : List Event → List Quota.Event
  | [] => []
  | event :: events => (c.asked? event).toList ++ (c.after event).traffic events

section

variable (c : Clocked) (event : Event) (events : List Event)

theorem quota_after :
    (c.after event).service.quota = c.service.quota.run (c.asked? event).toList := by
  cases event with
  | advance nanos => rfl
  | cleanup => rfl
  | request r =>
      rw [asked?]
      cases hnamed : namedBy? r with
      | none =>
          have hnobody : ∀ client, ¬ Names r client := fun client hr => by
            rw [namedBy?_eq_some.mpr hr] at hnamed
            cases hnamed
          exact (c.service.respond_of_nobody c.now hnobody).2.1
      | some client =>
          obtain ⟨-, -, hquota⟩ := (namedBy?_eq_some.mp hnamed).respond_eq c.service c.now
          exact hquota

/-- The quotas after a run are those after what the run asks of them. -/
theorem quota_run : (c.run events).service.quota = c.service.quota.run (c.traffic events) := by
  induction events generalizing c with
  | nil => rfl
  | cons event events ih =>
      rw [run_cons, ih, quota_after, traffic, Quota.run_append]

theorem now_le_after : c.now ≤ (c.after event).now := by
  cases event with
  | request r => rw [now_after_request]
  | advance nanos => exact Int.le.intro nanos rfl
  | cleanup => exact Int.le_refl c.now

theorem instant_of_asked {asked : Quota.Event} (h : asked ∈ (c.asked? event).toList) :
    asked.instant = c.now := by
  rw [Option.mem_toList] at h
  cases event with
  | advance nanos => cases h
  | cleanup =>
      cases h
      rfl
  | request r =>
      obtain ⟨client, -, rfl⟩ := Option.map_eq_some_iff.mp h
      rfl

/-- Time does not go back in what a run asks of the quotas, and not when the run is over. -/
theorem inOrder_traffic {last : Quota.Event} (h : last.instant = (c.run events).now) :
    (∀ asked ∈ c.traffic events ++ [last], c.now ≤ asked.instant) ∧
      Quota.InOrder (c.traffic events ++ [last]) := by
  induction events generalizing c with
  | nil =>
      refine ⟨fun asked hin => ?_, List.pairwise_singleton _ _⟩
      rw [List.mem_singleton.mp hin, h]
      exact Int.le_refl c.now
  | cons event events ih =>
      obtain ⟨hlater, horder⟩ := ih (c.after event) h
      have hnext : ∀ asked ∈ (c.after event).traffic events ++ [last], c.now ≤ asked.instant :=
        fun asked hin => (c.now_le_after event).trans (hlater asked hin)
      rw [traffic, List.append_assoc]
      refine ⟨List.forall_mem_append.mpr ⟨fun asked hin => ?_, hnext⟩, ?_⟩
      · exact (c.instant_of_asked event hin).ge
      · refine List.pairwise_append.mpr ⟨?_, horder, fun asked hin later hlater => ?_⟩
        · cases c.asked? event with
          | none => exact .nil
          | some asked => exact List.pairwise_singleton _ _
        · rw [c.instant_of_asked event hin]
          exact hnext later hlater

end

end Clocked

/-! ## One request -/

/-- Without a client that says who it is, a request is only counted as one that cannot be read. -/
theorem check_of_nobody (s : Service) (now : Int) {body : Bytes}
    (h : ∀ client, clientOf? body = some client → Text.isBlankText client = true) :
    ∃ a, s.check now body = (a, s.counted a) ∧ a.outcome = .invalid ∧ a.breaches = [] ∧
      a.status = 400 ∧ (answerReply a).member? "remaining" = none := by
  cases henvelope : Envelope.ofBytes body with
  | error fault =>
      refine ⟨.malformed fault, by simp [check, henvelope], rfl, rfl, rfl, ?_⟩
      exact Json.member?_ofMembers (by simp) "remaining"
  | ok envelope =>
      have hblank := h _ (clientOf?_eq_some.mpr ⟨envelope, henvelope, rfl⟩)
      refine ⟨.anonymous, s.check_of_blank now henvelope hblank, rfl, rfl, rfl, ?_⟩
      exact Json.member?_ofMembers (by simp) "remaining"

theorem requestsOf_counted (s : Service) (a : Answer) (o : Outcome) :
    (s.counted a).tally.requestsOf o =
      s.tally.requestsOf o + if o = a.outcome then 1 else 0 := by
  rw [counted, Tally.requestsOf_count]
  simp only [eq_comm]

/-- A client's window after a request that names it. -/
theorem Names.window?_after {r : Request} {client : String} (hr : Names r client) (c : Clocked)
    (other : String) :
    (c.after (.request r)).service.quota.window? other =
      if client = other then some (c.service.quota.windowAfter client c.now)
      else c.service.quota.window? other := by
  obtain ⟨-, -, hquota⟩ := hr.respond_eq c.service c.now
  rw [Clocked.after, hquota, Quota.window?_check]

namespace Clocked

variable {s : RateSettings} {c : Clocked} {r : Request} {client : String}

theorem Sound.windowAfter_open (h : c.Sound s) (hl : 0 < s.window) {v : Window}
    (hv : c.service.quota.window? client = some v) (hopen : c.now < v.start + s.window) :
    c.service.quota.windowAfter client c.now =
      ⟨v.start, min (v.count + 1) Window.maxCount⟩ := by
  rcases c.service.quota.windowAfter_cases client c.now with ⟨-, helapsed⟩ | ⟨w, hw, -, heq⟩
  · have hover := (v.hasElapsed_iff (h.length_pos hl) c.now).mp (helapsed v hv)
    rw [h.length] at hover
    exact absurd hover (Int.not_le.mpr hopen)
  · cases hv.symm.trans hw
    exact heq

/-- What a client is told it has left, and what it has used up. -/
theorem Sound.remaining (h : c.Sound s) (hr : Names r client) (h429 : (c.reply r).status ≠ 429) :
    ∃ remaining : Nat, (c.reply r).member? "remaining" = some (.nat remaining) ∧
      remaining + (c.service.quota.windowAfter client c.now).count = s.limit.toNat := by
  cases hdecision : (c.service.quota.check client c.now).1 with
  | limited breach wait =>
      refine absurd ((status_reply hr c).mpr ?_) h429
      rw [hdecision]
      rfl
  | allowed remaining resetIn =>
      refine ⟨remaining, remaining_of_allowed hr hdecision, ?_⟩
      rw [Quota.remaining_add_count hdecision, h.limit]

/-- In a run of a fresh service, a window's count is the number of its client's requests since it
opened. -/
theorem count_run {settings : Settings} {service : Service} {events : List Event} {w : Window}
    (hvalid : ofSettings settings = .ok service) (start : Int)
    (hw : ((Clocked.mk service start).run events).service.quota.window? client = some w) :
    w.count = min
      (Quota.requestsSince client w.start ((Clocked.mk service start).traffic events))
      Window.maxCount := by
  obtain ⟨hissues, hquota⟩ := ofSettings_spec hvalid
  have hlast : (Quota.Event.request client ((Clocked.mk service start).run events).now).instant =
      ((Clocked.mk service start).run events).now := rfl
  obtain ⟨-, horder⟩ := (Clocked.mk service start).inOrder_traffic events hlast
  rw [quota_run, show (Clocked.mk service start).service.quota = _ from hquota] at hw
  exact Quota.count_eq_requestsSince (window_pos hissues) horder hw

end Clocked

/-- After any run, let a request to check a query come. If it is too long to be read, nothing
changes. If it is no envelope or does not say who asks, it is refused as such and without a word on
quotas; all windows stay as they are, and so do all counters but the one of such requests. If it
says who asks, it is counted in the window of that client, the next one or the first one, whatever
it asks for, and all other windows stay as they are. The count of that window is the number of
requests that the client has made since the window opened, this one among them, up to the greatest
count. A client that is not told to wait is told what is left from this count to the limit. -/
theorem check_countsOnce {settings : Settings} {service : Service}
    (hvalid : ofSettings settings = .ok service) (start : Int) (before : List Event)
    {r : Request} (hr : IsCheck r) :
    let fresh := Clocked.mk service start
    let c := fresh.run before
    let d := c.after (.request r)
    (maxBodyLength < r.body.length → (c.reply r).status = 413 ∧
      (c.reply r).member? "remaining" = none ∧ d.service = c.service) ∧
    (r.body.length ≤ maxBodyLength →
      (∀ client, clientOf? r.body = some client → Text.isBlankText client = true) →
      (c.reply r).status = 400 ∧ (c.reply r).member? "remaining" = none ∧
      d.service.quota = c.service.quota ∧
      d.service.tally.tracked = c.service.tally.tracked ∧
      (∀ o, d.service.tally.requestsOf o =
        c.service.tally.requestsOf o + if o = .invalid then 1 else 0) ∧
      d.service.tally.breaches = c.service.tally.breaches ∧
      d.service.tally.refused = c.service.tally.refused) ∧
    ∀ client, r.body.length ≤ maxBodyLength → clientOf? r.body = some client →
      Text.isBlankText client = false →
      ∃ w, d.service.quota.window? client = some w ∧
        (∀ v, c.service.quota.window? client = some v →
          c.now < v.start + settings.rate.window →
          w = ⟨v.start, min (v.count + 1) Window.maxCount⟩) ∧
        (c.service.quota.Opens client c.now → w = ⟨c.now, 1⟩) ∧
        w.count = min (Quota.requestsSince client w.start (fresh.traffic (before ++ [.request r])))
          Window.maxCount ∧
        (∀ other, other ≠ client →
          d.service.quota.window? other = c.service.quota.window? other) ∧
        ((c.reply r).status ≠ 429 → ∃ remaining : Nat,
          (c.reply r).member? "remaining" = some (.nat remaining) ∧
          remaining + w.count = settings.rate.limit.toNat) := by
  intro fresh c d
  have hwindow := window_pos (ofSettings_spec hvalid).1
  have hsound : c.Sound settings.rate := (sound_ofSettings hvalid start).run before
  refine ⟨fun hlong => ?_, fun hlength hnobody => ?_, fun client hlength hclient hblank => ?_⟩
  · have hrespond := c.service.respond_of_overlong c.now hr hlong
    rw [Clocked.reply, hrespond]
    exact ⟨rfl, rfl, congrArg Prod.snd hrespond⟩
  · have hread : IsRead r := ⟨hr, hlength⟩
    obtain ⟨a, hcheck, houtcome, hbreaches, hstatus, hmember⟩ :=
      c.service.check_of_nobody c.now hnobody
    have hservice : d.service = c.service.counted a := by
      rw [show d.service = (c.service.respond c.now r).2 from rfl, respond_of_read _ _ hread,
        hcheck]
    have hreply : c.reply r = answerReply a := by
      rw [Clocked.reply, respond_of_read _ _ hread, hcheck]
    rw [hreply, hservice]
    refine ⟨hstatus, hmember, rfl, rfl, fun o => ?_, ?_, ?_⟩
    · rw [requestsOf_counted, houtcome]
    · rw [counted, hbreaches]
      rfl
    · rw [counted, houtcome]
      rfl
  · have hnames : Names r client := names_iff.mpr ⟨⟨hr, hlength⟩, hclient, hblank⟩
    have hafter : d.service.quota.window? client =
        some (c.service.quota.windowAfter client c.now) := by
      rw [hnames.window?_after, if_pos rfl]
    refine ⟨_, hafter, fun v hv hopen => hsound.windowAfter_open hwindow hv hopen,
      fun hopens => hopens.windowAfter_eq (hsound.length_pos hwindow), ?_, fun other hne => ?_,
      fun h429 => hsound.remaining hnames h429⟩
    · have hrun : d = fresh.run (before ++ [.request r]) := by
        rw [Clocked.run, List.foldl_append]
        rfl
      exact Clocked.count_run hvalid start (hrun ▸ hafter)
    · rw [hnames.window?_after, if_neg hne.symm]

/-- The second and last request that is allowed asks for what is no query. A request that names
nobody comes in its place. -/
theorem check_countsOnce_unreadable :
    let settings : Settings := { rate := { limit := 2 }, costs := { weights := ∅ } }
    let first : Request := ⟨"POST", "/check", bytesOf "\x7b\"client\":\"c\"\x7d"⟩
    let second : Request := ⟨"POST", "/check", bytesOf "\x7b\"query\":0,\"client\":\"c\"\x7d"⟩
    let nobody : Request := ⟨"POST", "/check", bytesOf "\x7b\"query\":0\x7d"⟩
    ∃ service, ofSettings settings = .ok service ∧ IsCheck second ∧ IsCheck nobody ∧
      clientOf? second.body = some "c" ∧ clientOf? nobody.body = none ∧
      let c := (Clocked.mk service 0).run [.request first, .advance 5]
      (c.after (.request second)).service.quota.window? "c" = some ⟨0, 2⟩ ∧
      (c.reply second).member? "remaining" = some (.nat 0) ∧
      (c.reply nobody).status = 400 ∧
      (c.after (.request nobody)).service.quota = c.service.quota := by
  intro settings first second nobody
  obtain ⟨service, hvalid⟩ : ∃ service, ofSettings settings = .ok service := ⟨_, rfl⟩
  have hfirst : Names first "c" := @names_plain "c" rfl (by decide) (by decide)
  have hsecond : clientOf? second.body = some "c" := by decide +kernel
  have hnobody : clientOf? nobody.body = none := by decide +kernel
  have hquota : ((Clocked.mk service 0).run [.request first, .advance 5]).service.quota =
      ((Quota.mk 2 (60 * nanosPerSecond) ∅).check "c" 0).2 := by
    obtain ⟨-, -, hquota⟩ := hfirst.respond_eq service 0
    rw [(ofSettings_spec hvalid).2] at hquota
    exact hquota
  have hnow : ((Clocked.mk service 0).run [.request first, .advance 5]).now = 5 := rfl
  have hwindow : ((Quota.mk 2 (60 * nanosPerSecond) ∅).check "c" 0).2.window? "c" =
      some ⟨0, 1⟩ := by
    simp [Quota.window?_check, Quota.windowAfter, Window.opened]
  obtain ⟨-, -, hnamed⟩ := check_countsOnce hvalid 0 [.request first, .advance 5]
    (r := second) (by decide)
  obtain ⟨hstatus, -, hsame, -⟩ := (check_countsOnce hvalid 0 [.request first, .advance 5]
    (r := nobody) (by decide)).2.1 (by decide) fun client h => by rw [hnobody] at h; cases h
  obtain ⟨w, hafter, hcounted, -, -, -, hremaining⟩ := hnamed "c" (by decide) hsecond (by decide)
  rw [hquota, hnow] at hcounted
  obtain rfl := hcounted ⟨0, 1⟩ hwindow (by decide)
  have h429 : (((Clocked.mk service 0).run [.request first, .advance 5]).reply second).status ≠
      429 := by
    rw [ne_eq, Clocked.status_reply (names_iff.mpr ⟨by decide, hsecond, by decide⟩), hquota,
      Bool.not_eq_false, Quota.isAllowed_check, hnow, Quota.windowAfter, hwindow]
    decide
  obtain ⟨remaining, hmember, hsum⟩ := hremaining h429
  obtain rfl : remaining = 0 := by simpa [settings, Window.maxCount] using hsum
  exact ⟨service, hvalid, by decide, by decide, hsecond, hnobody, hafter, hmember, hstatus, hsame⟩

/-- Two megabytes of blanks in the query: the client is named, but nothing is counted. -/
theorem check_countsOnce_overlong :
    let settings : Settings := { costs := { weights := ∅ } }
    let r : Request := ⟨"POST", "/check", Envelope.blankBody maxBodyLength⟩
    ∃ service, ofSettings settings = .ok service ∧ IsCheck r ∧
      clientOf? r.body = some "c" ∧ Text.isBlankText "c" = false ∧
      let c := Clocked.mk service 0
      (c.reply r).status = 413 ∧ (c.reply r).member? "remaining" = none ∧
      (c.after (.request r)).service.quota.window? "c" = none := by
  intro settings r
  obtain ⟨service, hvalid⟩ : ∃ service, ofSettings settings = .ok service := ⟨_, rfl⟩
  have hr : IsCheck r := isCheck_check _
  have hclient : clientOf? r.body = some "c" :=
    clientOf?_eq_some.mpr ⟨_, (Envelope.asks_blankBody _).ofBytes_eq, rfl⟩
  have hrespond := service.respond_of_overlong 0 hr (Envelope.lt_length_blankBody _)
  refine ⟨service, hvalid, hr, hclient, by decide, ?_, ?_, ?_⟩
  · rw [Clocked.reply, hrespond]
    rfl
  · rw [Clocked.reply, hrespond]
    rfl
  · rw [Clocked.after, hrespond, (ofSettings_spec hvalid).2]
    simp [Quota.ofSettings]

end Service

end QueryAdmission
