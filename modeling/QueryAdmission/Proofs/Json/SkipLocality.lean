import QueryAdmission.Proofs.Json.ReaderLocality

/-! # How far values that are passed over are looked at

To pass over a value looks no further than to read it. -/

namespace QueryAdmission.Json

open Wire (separates)

section

variable {s r : Bytes} {b : UInt8}

/-! ## Texts and numerals -/

theorem stable_skipEscape (h : skipEscape s = .ok r) :
    Stable (fun x t => skipEscape x = .ok t) s r := by
  unfold skipEscape at h
  split at h
  · cases h
  rename_i b s
  split at h
  · rename_i hb
    split at h
    · cases h
    · rename_i hunit
      cases h
      refine (stable_readUnit hunit).cons (length_readUnit_lt hunit) fun x t hx => ?_
      simp only [skipEscape, if_pos hb, hx]
  · rename_i hb
    split at h
    · rename_i hc
      cases h
      obtain ⟨c, hc'⟩ := Option.isSome_iff_exists.mp hc
      exact stable_cons (lt_of_escapedByte? hc') fun t => by
        simp only [skipEscape, if_neg hb, if_pos hc]
    · cases h

theorem stable_skipText (h : skipText s = .ok r) : Stable (fun x t => skipText x = .ok t) s r := by
  fun_induction skipText s with
  | case1 => cases h
  | case2 b s hb =>
      cases h
      obtain rfl := beq_iff_eq.mp hb
      exact stable_cons (by decide) fun t => by rw [skipText]; simp
  | case3 => cases h
  | case4 b s hq hb q hc _ ih =>
      obtain rfl := beq_iff_eq.mp hb
      have hlt := Nat.lt_trans (length_skipText_lt h) (length_skipEscape_lt hc)
      refine ((stable_skipEscape hc).trans (ih h)).cons hlt ?_
      rintro x t ⟨y, hx, hy⟩
      exact skipText_escape hx hy
  | case5 => cases h
  | case6 b s hq hs hb ih =>
      refine (ih h).cons (length_skipText_lt h) fun x t hx => ?_
      rw [skipText]
      simp only [hq, hs, hb, if_false, hx, Bool.false_eq_true]

theorem noDigit_of_head?_any (h : s.head?.any Byte.isDigit = false) : NoDigit s := by
  intro b hb
  rw [Option.mem_def.mp hb] at h
  exact h

theorem stable_dropDigits (s : Bytes) :
    Stable (fun x t => x.dropWhile Byte.isDigit = t) s (s.dropWhile Byte.isDigit) := by
  induction s with
  | nil =>
      exact stable_end (fun b hb => (separates_spec hb).1) rfl fun t ht =>
        (noDigit_of_head?_any ht).dropWhile_eq
  | cons b s ih =>
      by_cases hb : Byte.isDigit b = true
      · rw [List.dropWhile_cons_of_pos hb]
        refine ((stable_byte (isDigit_lt hb)).trans ih).mono ?_
        rintro x t ⟨y, rfl, hy⟩
        rw [List.dropWhile_cons_of_pos hb, hy]
      · rw [List.dropWhile_cons_of_neg hb]
        exact stable_end (fun b hb => (separates_spec hb).1) (by simpa using hb) fun t ht =>
          (noDigit_of_head?_any ht).dropWhile_eq

theorem stable_skipDigits (h : skipDigits s = .ok r) :
    Stable (fun x t => skipDigits x = .ok t) s r := by
  unfold skipDigits at h
  split at h
  · cases h
  rename_i b s
  split at h
  · rename_i hb
    cases h
    refine ((stable_byte (isDigit_lt hb)).trans
      (stable_dropDigits s)).mono ?_
    rintro x t ⟨y, rfl, hy⟩
    rw [skipDigits, if_pos hb, hy]
  · cases h

theorem skipExponent_of_digits (hb : Byte.isExponentMark b = true) (h : skipDigits s = .ok r) :
    skipExponent (b :: s) = .ok r := by
  cases s with
  | nil => cases h
  | cons c s =>
      have hc : Byte.isDigit c = true := by
        rw [skipDigits] at h
        split at h
        · assumption
        · cases h
      have hsign : ¬(c == Byte.plus || c == Byte.minus) = true := by
        rw [Bool.or_eq_true, beq_iff_eq, beq_iff_eq]
        rintro (rfl | rfl) <;> exact absurd hc (by decide)
      unfold skipExponent
      simp only [if_pos hb, if_neg hsign, h]

theorem skipExponent_of_noMark (h : s.head?.any Byte.isExponentMark = false) :
    skipExponent s = .ok s := by
  cases s with
  | nil => rfl
  | cons b s =>
      have hb : ¬ Byte.isExponentMark b = true := by simpa using h
      unfold skipExponent
      simp only [if_neg hb]

theorem stable_skipExponent (h : skipExponent s = .ok r) :
    Stable (fun x t => skipExponent x = .ok t) s r := by
  cases hs : s.head?.any Byte.isExponentMark with
  | false =>
      rw [skipExponent_of_noMark hs] at h
      cases h
      exact stable_end (fun b hb => (separates_spec hb).2.2) hs fun t ht =>
        skipExponent_of_noMark ht
  | true =>
      cases s with
      | nil => cases hs
      | cons b s =>
          have hb : Byte.isExponentMark b = true := by simpa using hs
          unfold skipExponent at h
          simp only [if_pos hb] at h
          split at h
          · cases h
          rename_i c q
          split at h
          · rename_i hc
            have hlt : c < 0x80 := by
              rw [Bool.or_eq_true, beq_iff_eq, beq_iff_eq] at hc
              rcases hc with rfl | rfl <;> decide
            have hsign : Stable (fun x t : Bytes => x = b :: c :: t) (b :: c :: q) q :=
              ⟨[b, c], rfl, endsAscii_of_forall (by simp [isExponentMark_lt hb, hlt]),
                fun t _ => rfl⟩
            refine (hsign.trans (stable_skipDigits h)).mono ?_
            rintro x t ⟨y, rfl, hy⟩
            unfold skipExponent
            simp only [if_pos hb, if_pos hc, hy]
          · exact (stable_skipDigits h).cons (length_skipDigits_lt h) fun x t hx =>
              skipExponent_of_digits hb hx

theorem skipScale_of_noPoint (h : s.head?.any (· == Byte.point) = false) :
    skipScale s = skipExponent s := by
  cases s with
  | nil => rfl
  | cons b s => rw [skipScale, if_neg (by simpa using h)]

theorem stable_skipScale (h : skipScale s = .ok r) :
    Stable (fun x t => skipScale x = .ok t) s r := by
  cases hs : s.head?.any (· == Byte.point) with
  | false =>
      rw [skipScale_of_noPoint hs] at h
      refine (stable_skipExponent h).canReplace.mono fun x t ⟨hx, hreplace⟩ => ?_
      rw [skipScale_of_noPoint (hreplace.head?_any (fun b hb => (separates_spec hb).2.1) hs), hx]
  | true =>
      cases s with
      | nil => cases hs
      | cons b s =>
          have hb : (b == Byte.point) = true := by simpa using hs
          rw [skipScale, if_pos hb] at h
          split at h
          · cases h
          rename_i hdigits
          have hfirst : Stable (fun x t : Bytes => x = b :: t) (b :: s) s :=
            stable_byte (by rw [beq_iff_eq.mp hb]; decide)
          refine (hfirst.trans ((stable_skipDigits hdigits).trans (stable_skipExponent h))).mono ?_
          rintro x t ⟨y, rfl, z, hy, hz⟩
          rw [skipScale, if_pos hb, hy]
          exact hz

theorem stable_skipMagnitude (h : skipMagnitude s = .ok r) :
    Stable (fun x t => skipMagnitude x = .ok t) s r := by
  unfold skipMagnitude at h
  split at h
  · cases h
  rename_i b s
  split at h
  · rename_i hb
    split at h
    · cases h
    rename_i hzero
    have hnext : s.head?.any Byte.isDigit = false := Bool.eq_false_iff.mpr hzero
    have hfirst : Stable (fun x t : Bytes => x = b :: t) (b :: s) s :=
      stable_byte (by rw [beq_iff_eq.mp hb]; decide)
    refine (hfirst.trans (stable_skipScale h).canReplace).mono ?_
    rintro x t ⟨y, rfl, hy, hreplace⟩
    have hy' := hreplace.head?_any (fun b hb => (separates_spec hb).1) hnext
    rw [skipMagnitude, if_pos hb, hy', if_neg Bool.false_ne_true, hy]
  · rename_i hb
    split at h
    · cases h
    rename_i hdigits
    have hstable := (stable_skipDigits hdigits).head (length_skipDigits_lt hdigits)
    refine (hstable.trans (stable_skipScale h)).mono ?_
    rintro x t ⟨y, ⟨hx, hhead⟩, hy⟩
    obtain ⟨x, rfl⟩ := List.head?_eq_some_iff.mp hhead
    rw [skipMagnitude, if_neg hb, hx]
    exact hy

theorem stable_skipScalar (h : skipScalar b s = .ok r) :
    b < 0x80 ∧ Stable (fun x t => skipScalar b x = .ok t) s r := by
  unfold skipScalar at h ⊢
  split at h
  · rename_i hb
    simp only [if_pos hb]
    exact ⟨by rw [beq_iff_eq.mp hb]; decide, stable_restOfNull h⟩
  rename_i hnull
  split at h
  · rename_i hb
    simp only [if_neg hnull, if_pos hb]
    exact ⟨by rw [beq_iff_eq.mp hb]; decide, stable_restOfTrue h⟩
  rename_i htrue
  split at h
  · rename_i hb
    simp only [if_neg hnull, if_neg htrue, if_pos hb]
    exact ⟨by rw [beq_iff_eq.mp hb]; decide, stable_restOfFalse h⟩
  rename_i hfalse
  simp only [if_neg hnull, if_neg htrue, if_neg hfalse]
  split at h
  · rename_i hb
    simp only [if_pos hb]
    exact ⟨by rw [beq_iff_eq.mp hb]; decide, stable_skipMagnitude h⟩
  rename_i hminus
  split at h
  · rename_i hb
    simp only [if_neg hminus, if_pos hb]
    exact ⟨isDigit_lt hb, (stable_skipMagnitude h).tail (length_skipMagnitude_lt h)⟩
  rename_i hdigit
  split at h
  · rename_i hb
    simp only [if_neg hminus, if_neg hdigit, if_pos hb]
    exact ⟨by rw [beq_iff_eq.mp hb]; decide, stable_skipText h⟩
  · cases h

/-! ## Brackets -/

theorem stable_skipName (h : skipName s = .ok r) : Stable (fun x t => skipName x = .ok t) s r := by
  unfold skipName at h
  split at h
  · cases h
  rename_i b q hs
  split at h
  · rename_i hb
    split at h
    · cases h
    rename_i htext
    have hfirst : Stable (fun x y => skipSpace x = b :: y) s q :=
      stable_first hs (by rw [beq_iff_eq.mp hb]; decide)
    refine (hfirst.trans ((stable_skipText htext).trans (stable_readColon h))).mono ?_
    rintro x t ⟨y, hx, z, hy, hz⟩
    simp only [skipName, hx, if_pos hb, hy, hz]
  · cases h

/-- The first byte of a list's first item is looked at before the item is passed over. -/
theorem stable_start {brackets : List Bracket} {m : Skip} (h : Skip.start brackets s = .ok m) :
    (m.wanted = false →
      Stable (fun x t => Skip.start brackets x = .ok { m with rest := t }) s m.rest) ∧
    StableBefore (fun x t => Skip.start brackets x = .ok { m with rest := t }) s m.rest := by
  have hboth : ∀ {R : Bytes → Bytes → Prop} {s r : Bytes}, Stable R s r →
      (m.wanted = false → Stable R s r) ∧ StableBefore R s r :=
    fun hstable => ⟨fun _ => hstable, hstable.before⟩
  unfold Skip.start at h
  split at h
  · cases h
  rename_i b q hs
  split at h
  · rename_i hb
    have hfirst : Stable (fun x y => skipSpace x = b :: y) s q :=
      stable_first hs (by rw [beq_iff_eq.mp hb]; decide)
    split at h
    · cases h
    rename_i c w hq
    split at h
    · rename_i hc
      cases h
      refine hboth ((hfirst.trans (stable_first hq (by rw [beq_iff_eq.mp hc]; decide))).mono ?_)
      rintro x t ⟨y, hx, hy⟩
      simp only [Skip.start, hx, if_pos hb, hy, if_pos hc]
    · rename_i hc
      cases h
      refine ⟨fun hwanted => Bool.noConfusion hwanted,
        (hfirst.transBefore (stableBefore_first hq)).mono ?_⟩
      rintro x t ⟨y, hx, hy, hhead⟩
      obtain ⟨t, rfl⟩ := List.head?_eq_some_iff.mp hhead
      simp only [Skip.start, hx, if_pos hb, hy, if_neg hc]
  rename_i hsquare
  split at h
  · rename_i hb
    have hfirst : Stable (fun x y => skipSpace x = b :: y) s q :=
      stable_first hs (by rw [beq_iff_eq.mp hb]; decide)
    split at h
    · cases h
    rename_i c w hq
    split at h
    · rename_i hc
      cases h
      refine hboth ((hfirst.trans (stable_first hq (by rw [beq_iff_eq.mp hc]; decide))).mono ?_)
      rintro x t ⟨y, hx, hy⟩
      simp only [Skip.start, hx, if_neg hsquare, if_pos hb, hy, if_pos hc]
    · rename_i hc
      split at h
      · cases h
      rename_i hname
      cases h
      have hpeek : StableBefore (fun x y => skipSpace x = y ∧ y.head? = some c) q (c :: w) :=
        stableBefore_first hq
      refine hboth ((hfirst.trans (hpeek.trans (stable_skipName hname)
        (length_skipName_lt hname))).mono ?_)
      rintro x t ⟨y, hx, z, ⟨hy, hhead⟩, hz⟩
      obtain ⟨z, rfl⟩ := List.head?_eq_some_iff.mp hhead
      simp only [Skip.start, hx, if_neg hsquare, if_pos hb, hy, if_neg hc, hz]
  rename_i hcurly
  split at h
  · cases h
  rename_i hscalar
  cases h
  obtain ⟨hb, hstable⟩ := stable_skipScalar hscalar
  have hfirst : Stable (fun x y => skipSpace x = b :: y) s q :=
    stable_first hs hb
  refine hboth ((hfirst.trans hstable).mono ?_)
  rintro x t ⟨y, hx, hy⟩
  simp only [Skip.start, hx, if_neg hsquare, if_neg hcurly, hy]

theorem stable_continue {bracket : Bracket} {brackets : List Bracket} {m : Skip}
    (h : Skip.continue bracket brackets s = .ok m) :
    Stable (fun x t => Skip.continue bracket brackets x = .ok { m with rest := t }) s m.rest := by
  unfold Skip.continue at h
  split at h
  · split at h
    · cases h
    rename_i b q hs
    split at h
    · rename_i hb
      cases h
      refine stable_skipSpace hs (by rw [beq_iff_eq.mp hb]; decide) fun x t hx => ?_
      simp only [Skip.continue, hx, if_pos hb]
    rename_i hcomma
    split at h
    · rename_i hb
      cases h
      refine stable_skipSpace hs (by rw [beq_iff_eq.mp hb]; decide) fun x t hx => ?_
      simp only [Skip.continue, hx, if_neg hcomma, if_pos hb]
    · cases h
  · split at h
    · cases h
    rename_i b q hs
    split at h
    · rename_i hb
      split at h
      · cases h
      rename_i hname
      cases h
      have hfirst : Stable (fun x y => skipSpace x = b :: y) s q :=
        stable_first hs (by rw [beq_iff_eq.mp hb]; decide)
      refine (hfirst.trans (stable_skipName hname)).mono ?_
      rintro x t ⟨y, hx, hy⟩
      simp only [Skip.continue, hx, if_pos hb, hy]
    rename_i hcomma
    split at h
    · rename_i hb
      cases h
      refine stable_skipSpace hs (by rw [beq_iff_eq.mp hb]; decide) fun x t hx => ?_
      simp only [Skip.continue, hx, if_neg hcomma, if_pos hb]
    · cases h

/-- A value that is still to come uses up text. -/
theorem length_finish_lt {brackets : List Bracket}
    (h : Skip.finish ⟨true, brackets, s⟩ = .ok r) : r.length < s.length := by
  cases hstart : Skip.start brackets s with
  | error e =>
      rw [Skip.finish] at h
      split at h <;> simp_all
  | ok next =>
      rw [Skip.finish_start hstart] at h
      exact Nat.lt_of_le_of_lt (Skip.length_finish_le h) (Skip.start_lt hstart)

theorem stable_finish {m : Skip} (h : m.finish = .ok r) :
    Stable (fun x t => Skip.finish { m with rest := x } = .ok t) m.rest r := by
  fun_induction Skip.finish m with
  | case1 => cases h
  | case2 brackets s next hstart hlt ih =>
      have hnext := ih h
      obtain ⟨wanted, brackets', q⟩ := next
      cases wanted with
      | false =>
          refine (((stable_start hstart).1 rfl).trans hnext).mono ?_
          rintro x t ⟨y, hx, hy⟩
          rw [Skip.finish_start hx, hy]
      | true =>
          refine ((stable_start hstart).2.trans hnext (length_finish_lt h)).mono ?_
          rintro x t ⟨y, hx, hy⟩
          rw [Skip.finish_start hx, hy]
  | case3 s =>
      cases h
      exact stable_self fun t => by rw [Skip.finish]
  | case4 => cases h
  | case5 bracket brackets s next hcontinue hlt ih =>
      refine ((stable_continue hcontinue).trans (ih h)).mono ?_
      rintro x t ⟨y, hx, hy⟩
      rw [Skip.finish_continue hx, hy]

theorem isStable_skip : Reader.skip.IsStable := by
  constructor
  intro s u r h
  simp only [Reader.skip] at h ⊢
  split at h
  · cases h
  rename_i hvalue
  cases h
  refine (stable_finish hvalue).mono fun x t hx => ?_
  rw [skipValue, hx]

end

end QueryAdmission.Json
