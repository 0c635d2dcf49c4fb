import Mathlib.Data.Finset.Card
import QueryAdmission.Proofs.Quota.Window

/-! # Clients side by side

A request reads and writes the window of its own client, and an eviction decides on each window by
itself. So what a client is answered depends on its own requests and on the evictions only, and the
clients that are tracked can be told one by one. -/

namespace QueryAdmission.Quota

instance (client : String) : DecidablePred (Event.Concerns client)
  | .request other _ => inferInstanceAs (Decidable (other = client))
  | .eviction _ => inferInstanceAs (Decidable True)

theorem ext_window? {p q : Quota} (hlimit : p.limit = q.limit) (hlength : p.length = q.length)
    (hwindow : ∀ client, p.window? client = q.window? client) : p = q := by
  cases p
  cases q
  cases hlimit
  cases hlength
  exact congrArg _ (Std.ExtHashMap.ext_getElem? hwindow)

/-! ## One client -/

/-- Two quotas are the same to a client. -/
structure SameFor (client : String) (p q : Quota) : Prop where
  limit : p.limit = q.limit
  length : p.length = q.length
  window? : p.window? client = q.window? client

section

variable {client other : String} {p q : Quota} {now t : Int}

theorem SameFor.refl (client : String) (q : Quota) : SameFor client q q := ⟨rfl, rfl, rfl⟩

theorem SameFor.windowAfter_eq (h : SameFor client p q) (now : Int) :
    p.windowAfter client now = q.windowAfter client now := by
  rw [windowAfter, windowAfter, h.window?, h.length]

theorem SameFor.check_eq (h : SameFor client p q) (now : Int) :
    (p.check client now).1 = (q.check client now).1 := by
  dsimp only [Quota.check, Quota.decide]
  rw [h.windowAfter_eq, h.limit, h.length]

theorem SameFor.check (h : SameFor client p q) (now : Int) :
    SameFor client (p.check client now).2 (q.check client now).2 where
  limit := h.limit
  length := h.length
  window? := by rw [window?_check, window?_check, if_pos rfl, if_pos rfl, h.windowAfter_eq]

/-- A request of another client changes nothing for the client. -/
theorem SameFor.check_of_ne (h : SameFor client p q) (hne : other ≠ client) (now : Int) :
    SameFor client (p.check other now).2 q where
  limit := h.limit
  length := h.length
  window? := by rw [window?_check, if_neg hne, h.window?]

theorem SameFor.evict (h : SameFor client p q) (now : Int) :
    SameFor client (p.evict now).2 (q.evict now).2 where
  limit := h.limit
  length := h.length
  window? := by rw [window?_evict, window?_evict, h.window?, h.length]

theorem SameFor.answers_eq (h : SameFor client p q) (events : List Event) :
    p.answers client events = q.log (events.filter (·.Concerns client)) := by
  induction events generalizing p q with
  | nil => rfl
  | cons event events ih =>
      cases event with
      | eviction now =>
          have hkept : Event.Concerns client (.eviction now) := trivial
          rw [answers_eviction, List.filter_cons_of_pos (by simpa using hkept), log]
          exact ih (h.evict now)
      | request other now =>
          by_cases hother : other = client
          · subst hother
            have hkept : Event.Concerns other (.request other now) := rfl
            rw [answers_request, List.filter_cons_of_pos (by simpa using hkept), log,
              h.check_eq now]
            exact congrArg _ (ih (h.check now))
          · have hdropped : ¬ Event.Concerns client (.request other now) := hother
            rw [answers_of_ne _ _ hother, List.filter_cons_of_neg (by simpa using hdropped)]
            exact ih (h.check_of_ne hother now)

/-- Requests of different clients do the same in either order. -/
theorem check_check_comm (q : Quota) (hne : client ≠ other) (now t : Int) :
    ((q.check client now).2.check other t).2 = ((q.check other t).2.check client now).2 := by
  have hclient := (SameFor.refl client q).check_of_ne hne.symm t
  have hother := (SameFor.refl other q).check_of_ne hne now
  refine ext_window? (by simp only [limit_check]) (by simp only [length_check]) fun c => ?_
  rw [window?_check, window?_check, window?_check, window?_check, hclient.windowAfter_eq,
    hother.windowAfter_eq]
  by_cases hc : client = c
  · subst hc
    rw [if_neg hne.symm, if_pos rfl, if_pos rfl]
  · rw [if_neg hc, if_neg hc]

end

/-! ## Clients that are tracked -/

/-- An eviction forgets the client: it has a window, and the window has elapsed. -/
def Forgets (q : Quota) (client : String) (now : Int) : Prop :=
  ∃ w, q.window? client = some w ∧ w.hasElapsed q.length now = true

/-- In a run the client makes a request, and no eviction after it forgets the client. -/
def Tracks (q : Quota) (client : String) (events : List Event) : Prop :=
  ∃ before now later, events = before ++ .request client now :: later ∧
    ∀ mid t rest, later = mid ++ .eviction t :: rest →
      ¬ (q.run (before ++ .request client now :: mid)).Forgets client t

section

variable {q : Quota} {client : String} {events : List Event} {event : Event}

theorem Tracks.append_request (q : Quota) (client : String) (events : List Event) (now : Int) :
    q.Tracks client (events ++ [.request client now]) :=
  ⟨events, now, [], rfl, fun mid t rest h => by simp at h⟩

theorem Tracks.append (h : q.Tracks client events)
    (hevent : ∀ t, event = .eviction t → ¬ (q.run events).Forgets client t) :
    q.Tracks client (events ++ [event]) := by
  obtain ⟨before, now, later, rfl, hlater⟩ := h
  refine ⟨before, now, later ++ [event], by simp, fun mid t rest hsplit => ?_⟩
  rcases List.eq_nil_or_concat rest with rfl | ⟨rest, last, rfl⟩
  · obtain ⟨rfl, hlast⟩ := List.append_inj' hsplit rfl
    exact hevent t (List.singleton_inj.mp hlast)
  · rw [List.concat_eq_append, ← List.cons_append, ← List.append_assoc] at hsplit
    exact hlater mid t rest (List.append_inj' hsplit rfl).1

/-- Whether a client is tracked after one event more. -/
theorem tracks_append_singleton :
    q.Tracks client (events ++ [event]) ↔
      (∃ now, event = .request client now) ∨
        q.Tracks client events ∧ ∀ t, event = .eviction t → ¬ (q.run events).Forgets client t := by
  constructor
  · rintro ⟨before, now, later, hsplit, hlater⟩
    rcases List.eq_nil_or_concat later with rfl | ⟨later, last, rfl⟩
    · exact .inl ⟨now, List.singleton_inj.mp (List.append_inj' hsplit rfl).2⟩
    · rw [List.concat_eq_append, ← List.cons_append, ← List.append_assoc] at hsplit
      obtain ⟨rfl, hlast⟩ := List.append_inj' hsplit rfl
      obtain rfl := List.singleton_inj.mp hlast
      refine .inr ⟨⟨before, now, later, rfl, fun mid t rest h => ?_⟩, fun t h => ?_⟩
      · exact hlater mid t (rest ++ [event]) (by simp [h])
      · exact hlater later t [] (by simp [h])
  · rintro (⟨now, rfl⟩ | ⟨htracks, hevent⟩)
    · exact .append_request q client events now
    · exact htracks.append hevent

/-- The clients that are tracked are those with a window. -/
theorem tracks_iff (limit length : Nat) (client : String) (events : List Event) :
    (Quota.mk limit length ∅).Tracks client events ↔
      (((Quota.mk limit length ∅).run events).window? client).isSome = true := by
  induction events using List.reverseRecOn with
  | nil =>
      refine iff_of_false ?_ (by simp)
      rintro ⟨before, now, later, hsplit, -⟩
      simp at hsplit
  | append_singleton events event ih =>
      rw [tracks_append_singleton, run_append, run_cons, run_nil, ih]
      cases event with
      | request other now =>
          rw [Quota.after, window?_check]
          by_cases hother : other = client
          · simp [hother]
          · simp [hother]
      | eviction now =>
          rw [Quota.after, window?_evict]
          simp only [Forgets]
          cases ((Quota.mk limit length ∅).run events).window? client with
          | none => simp
          | some w => simp [Option.filter_some]

end

/-- A map has as many entries as it has keys. -/
theorem exists_finset_mem_iff {κ ν : Type} [BEq κ] [LawfulBEq κ] [Hashable κ]
    (m : Std.ExtHashMap κ ν) :
    ∃ keys : Finset κ, (∀ key, key ∈ keys ↔ key ∈ m) ∧ m.size = keys.card := by
  induction hn : m.size generalizing m with
  | zero =>
      obtain rfl := Std.ExtHashMap.eq_empty_iff_size_eq_zero.mpr hn
      exact ⟨∅, by simp, rfl⟩
  | succ n ih =>
      obtain ⟨key, hkey⟩ : ∃ key, key ∈ m := by
        by_contra hnone
        rw [not_exists] at hnone
        have hempty : m = ∅ := Std.ExtHashMap.ext_getElem? fun key => by simp [hnone key]
        rw [hempty, Std.ExtHashMap.size_empty] at hn
        cases hn
      obtain ⟨keys, hkeys, hcard⟩ := ih (m.erase key) (by
        rw [Std.ExtHashMap.size_erase, if_pos hkey, hn, Nat.add_sub_cancel])
      have hnew : key ∉ keys := by simp [hkeys]
      refine ⟨keys.cons key hnew, fun other => ?_, ?_⟩
      · rw [Finset.mem_cons, hkeys, Std.ExtHashMap.mem_erase]
        by_cases hother : other = key
        · simp [hother, hkey]
        · simp [hother, Ne.symm hother]
      · rw [Finset.card_cons, hcard]

/-- A client is answered as if it were alone with the evictions. Two requests of different clients
that follow each other can change places, and neither the answers nor the windows after them show
it. The clients that are tracked are as many as have made a request since they were forgotten. -/
theorem answers_without_others (q : Quota) :
    (∀ client events, q.answers client events = q.log (events.filter (·.Concerns client))) ∧
    (∀ client other, client ≠ other → ∀ now t,
      ((q.check client now).2.check other t).1 = (q.check other t).1 ∧
      ((q.check other t).2.check client now).1 = (q.check client now).1 ∧
      ((q.check client now).2.check other t).2 = ((q.check other t).2.check client now).2) ∧
    ∀ limit length events, ∃ clients : Finset String,
      (∀ client, client ∈ clients ↔ (Quota.mk limit length ∅).Tracks client events) ∧
      ((Quota.mk limit length ∅).run events).tracked = clients.card := by
  refine ⟨fun client events => (SameFor.refl client q).answers_eq events,
    fun client other hne now t => ⟨?_, ?_, q.check_check_comm hne now t⟩,
    fun limit length events => ?_⟩
  · exact ((SameFor.refl other q).check_of_ne hne now).check_eq t
  · exact ((SameFor.refl client q).check_of_ne hne.symm t).check_eq now
  · obtain ⟨clients, hclients, hcard⟩ :=
      exists_finset_mem_iff ((Quota.mk limit length ∅).run events).windows
    refine ⟨clients, fun client => ?_, hcard⟩
    rw [hclients, tracks_iff]
    exact Std.ExtHashMap.mem_iff_isSome_getElem?

/-- A client is forgotten and comes back while another one goes on, and time runs backwards. -/
theorem answers_without_others_forgotten :
    let q := Quota.mk 1 2 ∅
    let events : List Event := [.request "a" 5, .request "b" 0, .eviction 2, .request "a" 4,
      .request "b" 1]
    "a" ≠ "b" ∧
      q.answers "a" events = q.log [.request "a" 5, .eviction 2, .request "a" 4] ∧
      ((q.check "a" 5).2.check "b" 0).2 = ((q.check "b" 0).2.check "a" 5).2 := by
  intro q events
  obtain ⟨hanswers, hswap, -⟩ := answers_without_others q
  have hown : events.filter (·.Concerns "a") = [.request "a" 5, .eviction 2, .request "a" 4] := by
    decide
  exact ⟨by decide, hown ▸ hanswers "a" events, (hswap "a" "b" (by decide) 5 0).2.2⟩

end QueryAdmission.Quota
