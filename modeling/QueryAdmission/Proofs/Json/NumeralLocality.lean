import QueryAdmission.Proofs.Json.Locality

/-! # How far numerals are looked at

A numeral does not show where it ends. It ends before the first byte that it cannot go on with, and
so before any byte that separates. -/

namespace QueryAdmission.Json

open Wire (separates)

variable {s r : Bytes} {negative : Bool}

/-- No byte that separates goes on with a numeral. -/
theorem separates_spec {b : UInt8} (h : separates b = true) :
    Byte.isDigit b = false ∧ (b == Byte.point) = false ∧ Byte.isExponentMark b = false := by
  simp only [separates, Byte.isSpace, Bool.or_eq_true, beq_iff_eq] at h
  rcases h with ((((((((((rfl | rfl) | rfl) | rfl) | rfl) | rfl) | rfl) | rfl) | rfl) | rfl) | rfl) <;>
    decide

theorem isDigit_lt {b : UInt8} (h : Byte.isDigit b = true) : b < 0x80 := by
  simp only [Byte.isDigit, Bool.and_eq_true, decide_eq_true_eq] at h
  exact UInt8.lt_of_le_of_lt h.2 (by decide)

theorem isExponentMark_lt {b : UInt8} (h : Byte.isExponentMark b = true) : b < 0x80 := by
  simp only [Byte.isExponentMark, Bool.or_eq_true, beq_iff_eq] at h
  rcases h with rfl | rfl <;> decide

theorem stable_readDigits (n k d : Nat) (s : Bytes) :
    Stable (fun x t => readDigits n k d x = { readDigits n k d s with rest := t }) s
      (readDigits n k d s).rest := by
  have hstop : ∀ (n k d : Nat) (t : Bytes), t.head?.any Byte.isDigit = false →
      readDigits n k d t = ⟨n, k, d, t⟩ := by
    intro n k d t ht
    cases t with
    | nil => rfl
    | cons b t => rw [readDigits, if_neg (by simpa using ht)]
  fun_induction readDigits n k d s with
  | case1 n k d => exact stable_end (fun b hb => (separates_spec hb).1) rfl (hstop n k d)
  | case2 n k d b s hb next hnext ih =>
      refine ((stable_byte (isDigit_lt hb)).trans ih).mono ?_
      rintro x t ⟨y, rfl, hy⟩
      rw [readDigits, if_pos hb, ← hy]
      exact if_pos hnext
  | case3 n k d b s hb next hnext ih =>
      refine ((stable_byte (isDigit_lt hb)).trans ih).mono ?_
      rintro x t ⟨y, rfl, hy⟩
      rw [readDigits, if_pos hb, ← hy]
      exact if_neg hnext
  | case4 n k d b s hb =>
      exact stable_end (fun b hb => (separates_spec hb).1) (by simpa using hb) (hstop n k d)

theorem stable_readExponentDigits (n : Nat) (s : Bytes) :
    Stable (fun x t => readExponentDigits n x = ((readExponentDigits n s).1, t)) s
      (readExponentDigits n s).2 := by
  have hstop : ∀ (n : Nat) (t : Bytes), t.head?.any Byte.isDigit = false →
      readExponentDigits n t = (n, t) := by
    intro n t ht
    cases t with
    | nil => rfl
    | cons b t => rw [readExponentDigits, if_neg (by simpa using ht)]
  fun_induction readExponentDigits n s with
  | case1 n => exact stable_end (fun b hb => (separates_spec hb).1) rfl (hstop n)
  | case2 n b s hb ih =>
      refine ((stable_byte (isDigit_lt hb)).trans ih).mono ?_
      rintro x t ⟨y, rfl, hy⟩
      rw [readExponentDigits, if_pos hb, ← hy]
  | case3 n b s hb =>
      exact stable_end (fun b hb => (separates_spec hb).1) (by simpa using hb) (hstop n)

theorem scaled_replace {n : Nat} {e : Int} {x : Number} (h : scaled negative n e s = .ok (x, r))
    (t : Bytes) : scaled negative n e t = .ok (x, t) := by
  unfold scaled at h ⊢
  split at h
  · cases h
  · cases h
    rfl

theorem stable_readSign {down : Bool} {b : UInt8} (h : readSign s = (down, b :: r)) :
    StableBefore (fun x t => readSign x = (down, t) ∧ t.head? = some b) s (b :: r) := by
  have hsign : ∀ {c : UInt8}, c < 0x80 → (∀ t, readSign (c :: t) = (down, t)) →
      StableBefore (fun x t => readSign x = (down, t) ∧ t.head? = some b) (c :: b :: r)
        (b :: r) := fun {c} hc hread =>
    ⟨[c], rfl, endsAscii_of_forall (by simpa using hc), fun t ht => ⟨hread t, ht⟩⟩
  cases s with
  | nil => cases h
  | cons c s =>
      rw [readSign] at h
      split at h
      · rename_i hc
        cases h
        obtain rfl := beq_iff_eq.mp hc
        exact hsign (by decide) fun t => rfl
      split at h
      · rename_i hc
        cases h
        obtain rfl := beq_iff_eq.mp hc
        exact hsign (by decide) fun t => rfl
      · rename_i hplus hminus
        cases h
        refine stableBefore_self fun t ht => ⟨?_, ht⟩
        obtain ⟨t, rfl⟩ := List.head?_eq_some_iff.mp ht
        rw [readSign, if_neg hplus, if_neg hminus]

theorem stable_readExponent {n : Nat} {e : Int} {x : Number}
    (h : readExponent negative n e s = .ok (x, r)) :
    Stable (fun y t => readExponent negative n e y = .ok (x, t)) s r := by
  unfold readExponent at h
  split at h
  · cases h
  rename_i down b q hs
  split at h
  · rename_i hb
    have hdigits := stable_readExponentDigits 0 (b :: q)
    have hlt : (readExponentDigits 0 (b :: q)).2.length < (b :: q).length := by
      rw [readExponentDigits, if_pos hb]
      exact Nat.lt_succ_of_le (length_readExponentDigits_le _ _)
    generalize readExponentDigits 0 (b :: q) = found at h hdigits hlt
    obtain ⟨m, rest⟩ := found
    dsimp only at h hdigits hlt
    have hr : r = rest := by
      split at h
      · exact rest_scaled h
      · split at h <;> cases h
        rfl
    subst hr
    refine ((stable_readSign hs).trans hdigits hlt).mono ?_
    rintro y t ⟨z, ⟨hy, hz⟩, ht⟩
    obtain ⟨z, rfl⟩ := List.head?_eq_some_iff.mp hz
    rw [readExponent, hy]
    dsimp only
    rw [if_pos hb, ht]
    dsimp only
    split
    · rename_i hm
      rw [if_pos hm] at h
      exact scaled_replace h t
    · rename_i hm
      rw [if_neg hm] at h
      split at h
      · cases h
      · cases h
        rename_i hrange
        rw [if_neg hrange]
  · cases h

theorem stable_readScale {n : Nat} {e : Int} {x : Number}
    (h : readScale negative n e s = .ok (x, r)) :
    Stable (fun y t => readScale negative n e y = .ok (x, t)) s r := by
  have hstop : ∀ {s : Bytes}, s.head?.any Byte.isExponentMark = false →
      readScale negative n e s = scaled negative n e s := by
    intro s hs
    cases s with
    | nil => rfl
    | cons b s => rw [readScale, if_neg (by simpa using hs)]
  cases hs : s.head?.any Byte.isExponentMark with
  | false =>
      rw [hstop hs] at h
      obtain rfl := rest_scaled h
      exact stable_end (fun b hb => (separates_spec hb).2.2) hs fun t ht => by
        rw [hstop ht, scaled_replace h]
  | true =>
      cases s with
      | nil => cases hs
      | cons b s =>
          have hb : Byte.isExponentMark b = true := by simpa using hs
          rw [readScale, if_pos hb] at h
          refine (stable_readExponent h).cons (length_readExponent_lt h) fun y t hy => ?_
          rw [readScale, if_pos hb, hy]

theorem stable_readFraction {n d : Nat} {x : Number}
    (h : readFraction negative n d s = .ok (x, r)) :
    Stable (fun y t => readFraction negative n d y = .ok (x, t)) s r := by
  unfold readFraction at h
  dsimp only at h
  split at h
  · split at h <;> cases h
  · rename_i hsome
    refine ((stable_readDigits n 0 0 s).trans (stable_readScale h)).mono ?_
    rintro y t ⟨z, hy, hz⟩
    unfold readFraction
    dsimp only
    rw [hy]
    dsimp only
    rw [if_neg hsome, hz]

theorem wholeNumber_replace {d : Digits} {x : Number} (h : wholeNumber negative d = .ok (x, r))
    (t : Bytes) : wholeNumber negative { d with rest := t } = .ok (x, t) := by
  unfold wholeNumber at h ⊢
  dsimp only
  split at h
  · rename_i hd
    rw [if_pos hd, scaled_replace h]
  · rename_i hd
    rw [if_neg hd]
    split at h
    · rename_i hn
      cases h
      rw [if_pos hn]
    · rename_i hn
      rw [if_neg hn]
      split at h
      · rename_i hfits
        cases h
        rw [if_pos hfits]
      · rename_i hfits
        cases h
        rw [if_neg hfits]

theorem stable_readAfterWhole {d : Digits} {x : Number}
    (h : readAfterWhole negative d = .ok (x, r)) :
    Stable (fun y t => readAfterWhole negative { d with rest := y } = .ok (x, t)) d.rest r := by
  have hstop : ∀ {d : Digits},
      d.rest.head?.any (fun b => b == Byte.point || Byte.isExponentMark b) = false →
      readAfterWhole negative d = wholeNumber negative d := by
    intro d hd
    unfold readAfterWhole
    split
    · rfl
    · rename_i b t hrest
      rw [hrest, List.head?_cons, Option.any_some, Bool.or_eq_false_iff] at hd
      rw [if_neg (by simp [hd.1]), if_neg (by simp [hd.2])]
  have hsep : ∀ b, separates b = true → (b == Byte.point || Byte.isExponentMark b) = false := by
    intro b hb
    rw [(separates_spec hb).2.1, (separates_spec hb).2.2, Bool.or_false]
  cases hs : d.rest.head?.any fun b => b == Byte.point || Byte.isExponentMark b with
  | false =>
      rw [hstop hs] at h
      obtain rfl := rest_wholeNumber h
      exact stable_end hsep hs fun t ht => by rw [hstop ht, wholeNumber_replace h]
  | true =>
      obtain ⟨n, k, m, s⟩ := d
      cases s with
      | nil => cases hs
      | cons b s =>
          unfold readAfterWhole at h
          dsimp only at h
          split at h
          · rename_i hb
            have hfirst : Stable (fun y t : Bytes => y = b :: t) (b :: s) s :=
              stable_byte (by rw [beq_iff_eq.mp hb]; decide)
            refine (hfirst.trans (stable_readFraction h)).mono ?_
            rintro y t ⟨z, rfl, hz⟩
            rw [readAfterWhole]
            dsimp only
            rw [if_pos hb, hz]
          split at h
          · rename_i hb hmark
            refine (stable_readExponent h).cons (length_readExponent_lt h) fun y t hy => ?_
            rw [readAfterWhole]
            dsimp only
            rw [if_neg hb, if_pos hmark, hy]
          · rename_i hb hmark
            simp [hb, hmark] at hs

theorem stable_readMagnitude {x : Number} (h : readMagnitude negative s = .ok (x, r)) :
    Stable (fun y t => readMagnitude negative y = .ok (x, t)) s r := by
  unfold readMagnitude at h
  split at h
  · cases h
  rename_i b s
  split at h
  · cases h
  rename_i hb
  split at h
  · cases h
  rename_i hzero
  have hdigit : Byte.isDigit b = true := by simpa using hb
  have hfirst : Stable (fun y t => y = b :: t ∧ ¬(b == Byte.zero && t.head?.any Byte.isDigit) = true)
      (b :: s) s := by
    refine ⟨[b], rfl, endsAscii_of_forall (by simpa using isDigit_lt hdigit), fun t ht => ⟨rfl, ?_⟩⟩
    cases hz : b == Byte.zero with
    | false => simp
    | true =>
        rw [hz, Bool.true_and, Bool.not_eq_true] at hzero
        rw [ht.head?_any (fun b hb => (separates_spec hb).1) hzero]
        decide
  have hdigits : ∀ y, readDigits 0 0 0 (b :: y) =
      readDigits (b.toNat - Byte.zero.toNat) 1 0 y := by
    intro y
    have hsmall : 0 * 10 + (b.toNat - Byte.zero.toNat) < UInt64.size := by
      have := b.toNat_lt
      simp only [UInt64.size]
      omega
    rw [readDigits, if_pos hdigit]
    dsimp only
    rw [if_pos ⟨rfl, hsmall⟩, Nat.zero_mul, Nat.zero_add]
  rw [hdigits] at h
  refine (hfirst.trans ((stable_readDigits _ 1 0 s).trans (stable_readAfterWhole h))).mono ?_
  rintro y t ⟨z, ⟨rfl, hz⟩, w, hw, hx⟩
  rw [readMagnitude, if_neg hb, if_neg hz, hdigits, hw, hx]

theorem stable_readNumber {b : UInt8} {x : Number} (h : readNumber b s = .ok (x, r)) :
    Stable (fun y t => readNumber b y = .ok (x, t)) s r := by
  unfold readNumber at h
  split at h
  · rename_i hb
    exact (stable_readMagnitude h).mono fun y t hy => by rw [readNumber, if_pos hb, hy]
  · rename_i hb
    refine ((stable_readMagnitude h).tail (length_readMagnitude_lt h)).mono fun y t hy => ?_
    rw [readNumber, if_neg hb, hy]

end QueryAdmission.Json
