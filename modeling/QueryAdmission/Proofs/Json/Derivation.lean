import QueryAdmission.Proofs.Json.Locality

/-! # What readers accept

What a reader uses up of a text is a phrase of the grammar, whether the reader makes a value of it
or passes over it. The grammar itself puts no limit on how deep values are nested. -/

namespace QueryAdmission.Json

section

variable {s t r : Bytes}

/-! ## White space -/

theorem Blanks.trans (h : Blanks s t) (h' : Blanks t r) : Blanks s r := by
  induction h with
  | nil => exact h'
  | cons hb _ ih => exact .cons hb (ih h')

theorem Comma.blanks {fresh : Bool} (h : Comma fresh s t) (h' : Blanks t r) : Comma fresh s r := by
  cases h with
  | fresh hs => exact .fresh (hs.trans h')
  | later hs ht => exact .later hs (ht.trans h')

theorem Blanks.comma {fresh : Bool} (h : Blanks s t) (h' : Comma fresh t r) : Comma fresh s r := by
  cases h' with
  | fresh ht => exact .fresh (h.trans ht)
  | later ht hu => exact .later (h.trans ht) hu

/-- White space does no harm before the rest of a list or an object. -/
theorem Blanks.derives {p : Phrase} (h : Blanks s t) (hp : p ≠ .value) (h' : Derives p t r) :
    Derives p s r := by
  cases h' with
  | endList fresh ht => exact .endList fresh (h.trans ht)
  | item ht hu hv => exact .item (h.comma ht) hu hv
  | endObject fresh ht => exact .endObject fresh (h.trans ht)
  | member ht hu hv hw hx hy => exact .member (h.comma ht) hu hv hw hx hy
  | _ => exact absurd rfl hp

theorem Blanks.follows_of_follows (h : Blanks s r) (hr : Follows r) : Follows s := by
  cases h with
  | nil => exact hr
  | cons hb _ => simp [Follows, canFollow, hb]

theorem blanks_of_skipSpace {b : UInt8} (h : skipSpace s = b :: r) : Blanks s (b :: r) :=
  h ▸ blanks_skipSpace s

/-- A reader that looks for a byte finds it after white space. -/
theorem blanks_of_beq {b c : UInt8} (h : skipSpace s = b :: r) (hb : (b == c) = true) :
    Blanks s (c :: r) := by
  rw [beq_iff_eq.mp hb] at h
  exact blanks_of_skipSpace h

/-! ## Strings -/

theorem isText_of_readUnit {n : Nat} (h : readUnit s = .ok (n, t)) (ht : IsText t r) :
    IsText (Byte.backslash :: Byte.letteru :: s) r := by
  unfold readUnit at h
  split at h
  · split at h
    · rename_i ha hb hc hd
      cases h
      refine .unit (fun x hx => ?_) ht
      simp only [List.mem_cons, List.not_mem_nil, or_false] at hx
      rcases hx with rfl | rfl | rfl | rfl
      · rw [ha]; rfl
      · rw [hb]; rfl
      · rw [hc]; rfl
      · rw [hd]; rfl
    · cases h
  · cases h

theorem eq_of_readPairMark {mark : UInt8} (h : readPairMark mark s = .ok t) : s = mark :: t := by
  unfold readPairMark at h
  split at h
  · cases h
  · split at h
    · rename_i hb
      cases h
      rw [beq_iff_eq.mp hb]
    · cases h

theorem isText_of_readPair {high : Nat} {c : Char} (h : readPair high s = .ok (c, t))
    (ht : IsText t r) : IsText s r := by
  unfold readPair at h
  split at h
  · cases h
  rename_i hslash
  split at h
  · cases h
  rename_i hletter
  split at h
  · cases h
  rename_i hunit
  split at h
  · obtain ⟨-, rfl⟩ := Prod.mk.inj (Except.ok.inj h)
    rw [eq_of_readPairMark hslash, eq_of_readPairMark hletter]
    exact isText_of_readUnit hunit ht
  · cases h

/-- A pair of units makes one character, but to the grammar it is two escapes. -/
theorem isText_of_readCodePoint {c : Char} (h : readCodePoint s = .ok (c, t)) (ht : IsText t r) :
    IsText (Byte.backslash :: Byte.letteru :: s) r := by
  unfold readCodePoint at h
  split at h
  · cases h
  rename_i hunit
  split at h
  · cases h
  split at h
  · exact isText_of_readUnit hunit (isText_of_readPair h ht)
  · cases h
    exact isText_of_readUnit hunit ht

theorem mem_escapes {b c : UInt8} (h : escapedByte? b = some c) : b ∈ escapes := by
  unfold escapedByte? at h
  simp only [escapes, List.mem_cons, List.not_mem_nil, or_false]
  grind

theorem isText_of_readEscape {c : Bytes} (h : readEscape s = .ok (c, t)) (ht : IsText t r) :
    IsText (Byte.backslash :: s) r := by
  unfold readEscape at h
  split at h
  · cases h
  split at h
  · rename_i hb
    obtain rfl := beq_iff_eq.mp hb
    split at h
    · cases h
    · rename_i hc
      cases h
      exact isText_of_readCodePoint hc ht
  · split at h
    · rename_i hc
      cases h
      exact .escaped (mem_escapes hc) ht
    · cases h

theorem isText_of_readTextBytes {taken bytes : Bytes} (h : readTextBytes taken s = .ok (bytes, r)) :
    IsText s r := by
  fun_induction readTextBytes taken s with
  | case1 => cases h
  | case2 taken b s hb =>
      cases h
      rw [beq_iff_eq.mp hb]
      exact .close _
  | case3 => cases h
  | case4 taken b s hq hb c t hc _ ih =>
      rw [beq_iff_eq.mp hb]
      exact isText_of_readEscape hc (ih h)
  | case5 => cases h
  | case6 taken b s hq hs hb ih =>
      exact .plain (UInt8.not_lt.mp hb) (by simpa using hq) (by simpa using hs) (ih h)

theorem isText_of_readText {text : String} (h : readText s = .ok (text, r)) : IsText s r := by
  unfold readText at h
  split at h
  · cases h
  rename_i hbytes
  split at h
  · cases h
  · cases h
    exact isText_of_readTextBytes hbytes

theorem isText_of_skipEscape (h : skipEscape s = .ok t) (ht : IsText t r) :
    IsText (Byte.backslash :: s) r := by
  unfold skipEscape at h
  split at h
  · cases h
  split at h
  · rename_i hb
    obtain rfl := beq_iff_eq.mp hb
    split at h
    · cases h
    · rename_i hunit
      cases h
      exact isText_of_readUnit hunit ht
  · split at h
    · rename_i hsome
      obtain ⟨c, hc⟩ := Option.isSome_iff_exists.mp hsome
      cases h
      exact .escaped (mem_escapes hc) ht
    · cases h

theorem isText_of_skipText (h : skipText s = .ok r) : IsText s r := by
  fun_induction skipText s with
  | case1 => cases h
  | case2 b s hb =>
      cases h
      rw [beq_iff_eq.mp hb]
      exact .close _
  | case3 => cases h
  | case4 b s hq hb t ht _ ih =>
      rw [beq_iff_eq.mp hb]
      exact isText_of_skipEscape ht (ih h)
  | case5 => cases h
  | case6 b s hq hs hb ih =>
      exact .plain (UInt8.not_lt.mp hb) (by simpa using hq) (by simpa using hs) (ih h)

theorem eq_of_word {w : Bytes} (h : word w s = .ok r) : s = w ++ r := by
  fun_induction word w s with
  | case1 =>
      cases h
      rfl
  | case2 => cases h
  | case3 cs c s ih => rw [ih h, List.cons_append]
  | case4 => cases h

/-! ## Numerals -/

theorem digitRun_dropWhile {b : UInt8} (hb : Byte.isDigit b = true) (s : Bytes) :
    DigitRun (b :: s) (s.dropWhile Byte.isDigit) := by
  induction s generalizing b with
  | nil => exact .last [] hb
  | cons c s ih =>
      by_cases hc : Byte.isDigit c = true
      · rw [List.dropWhile_cons_of_pos hc]
        exact .more hb (ih hc)
      · rw [List.dropWhile_cons_of_neg hc]
        exact .last _ hb

theorem rest_readDigits (n k d : Nat) (s : Bytes) :
    (readDigits n k d s).rest = s.dropWhile Byte.isDigit := by
  fun_induction readDigits n k d s with
  | case1 => rfl
  | case2 n k d b s hb _ _ ih => rw [ih, List.dropWhile_cons_of_pos hb]
  | case3 n k d b s hb _ _ ih => rw [ih, List.dropWhile_cons_of_pos hb]
  | case4 n k d b s hb => rw [List.dropWhile_cons_of_neg hb]

theorem rest_readExponentDigits (n : Nat) (s : Bytes) :
    (readExponentDigits n s).2 = s.dropWhile Byte.isDigit := by
  fun_induction readExponentDigits n s with
  | case1 => rfl
  | case2 n b s hb ih => rw [ih, List.dropWhile_cons_of_pos hb]
  | case3 n b s hb => rw [List.dropWhile_cons_of_neg hb]

/-- An exponent has its sign, if any, before its digits. -/
theorem exponentPart_of_readSign {b c : UInt8} {down : Bool} (hb : Byte.isExponentMark b = true)
    (hs : readSign s = (down, c :: t)) (ht : DigitRun (c :: t) r) : ExponentPart (b :: s) r := by
  unfold readSign at hs
  split at hs
  · cases hs
  split at hs
  · rename_i hplus
    cases hs
    exact .signed hb (.inl (beq_iff_eq.mp hplus)) ht
  split at hs
  · rename_i hminus
    cases hs
    exact .signed hb (.inr (beq_iff_eq.mp hminus)) ht
  · cases hs
    exact .unsigned hb ht

theorem exponentPart_of_readExponent {negative : Bool} {n : Nat} {e : Int} {x : Number} {b : UInt8}
    (hb : Byte.isExponentMark b = true) (h : readExponent negative n e s = .ok (x, r)) :
    ExponentPart (b :: s) r := by
  unfold readExponent at h
  split at h
  · cases h
  rename_i down c t hs
  split at h
  · rename_i hc
    have hrest := rest_readExponentDigits 0 (c :: t)
    rw [List.dropWhile_cons_of_pos hc] at hrest
    have hr : r = (readExponentDigits 0 (c :: t)).2 := by
      dsimp only at h
      split at h
      · exact rest_scaled h
      · split at h
        · cases h
        · cases h
          rfl
    rw [hr, hrest]
    exact exponentPart_of_readSign hb hs (digitRun_dropWhile hc t)
  · cases h

theorem exponentPart_of_readScale {negative : Bool} {n : Nat} {e : Int} {x : Number}
    (h : readScale negative n e s = .ok (x, r)) : ExponentPart s r := by
  unfold readScale at h
  split at h
  · rw [rest_scaled h]
    exact .none _
  · split at h
    · rename_i hb
      exact exponentPart_of_readExponent hb h
    · rw [rest_scaled h]
      exact .none _

theorem fractionPart_of_readFraction {negative : Bool} {n d : Nat} {x : Number}
    (h : readFraction negative n d s = .ok (x, r)) :
    ∃ u, FractionPart (Byte.point :: s) u ∧ ExponentPart u r := by
  unfold readFraction at h
  dsimp only at h
  split at h
  · split at h <;> cases h
  rename_i hsome
  refine ⟨_, .some ?_, exponentPart_of_readScale h⟩
  rw [rest_readDigits]
  cases s with
  | nil => exact absurd rfl hsome
  | cons b s =>
      by_cases hb : Byte.isDigit b = true
      · rw [List.dropWhile_cons_of_pos hb]
        exact digitRun_dropWhile hb s
      · rw [readDigits, if_neg hb] at hsome
        exact absurd rfl hsome

theorem fractionPart_of_readAfterWhole {negative : Bool} {d : Digits} {x : Number}
    (h : readAfterWhole negative d = .ok (x, r)) :
    ∃ u, FractionPart d.rest u ∧ ExponentPart u r := by
  unfold readAfterWhole at h
  split at h
  · rename_i hnil
    rw [rest_wholeNumber h, hnil]
    exact ⟨_, .none _, .none _⟩
  rename_i b t hrest
  rw [hrest]
  split at h
  · rename_i hb
    rw [beq_iff_eq.mp hb]
    exact fractionPart_of_readFraction h
  split at h
  · rename_i hb
    exact ⟨_, .none _, exponentPart_of_readExponent hb h⟩
  · rw [rest_wholeNumber h, hrest]
    exact ⟨_, .none _, .none _⟩

/-- What can come before the fraction: no digit follows a zero at the front. -/
theorem wholePart_dropWhile {b : UInt8} (hb : Byte.isDigit b = true)
    (hzero : ¬(b == Byte.zero && s.head?.any Byte.isDigit) = true) :
    WholePart (b :: s) (s.dropWhile Byte.isDigit) := by
  by_cases hz : b = Byte.zero
  · subst hz
    have hstop : NoDigit s := by
      intro c hc
      have hnone : s.head?.any Byte.isDigit = false := by simpa using hzero
      rw [Option.mem_def.mp hc] at hnone
      exact hnone
    rw [hstop.dropWhile_eq]
    exact .zero s
  · exact .digits hz (digitRun_dropWhile hb s)

/-- A numeral without its sign. -/
def IsMagnitude (s r : Bytes) : Prop :=
  ∃ t u, WholePart s t ∧ FractionPart t u ∧ ExponentPart u r

theorem isMagnitude_of_readMagnitude {negative : Bool} {x : Number}
    (h : readMagnitude negative s = .ok (x, r)) : IsMagnitude s r := by
  unfold readMagnitude at h
  split at h
  · cases h
  split at h
  · cases h
  rename_i hb
  split at h
  · cases h
  rename_i hzero
  have hdigit := by simpa using hb
  obtain ⟨u, hfraction, hexponent⟩ := fractionPart_of_readAfterWhole h
  rw [rest_readDigits, List.dropWhile_cons_of_pos hdigit] at hfraction
  exact ⟨_, u, wholePart_dropWhile hdigit hzero, hfraction, hexponent⟩

theorem isNumeral_of_readNumber {b : UInt8} {x : Number} (h : readNumber b s = .ok (x, r)) :
    IsNumeral (b :: s) r := by
  unfold readNumber at h
  split at h
  · rename_i hb
    obtain ⟨t, u, ht, hu, hr⟩ := isMagnitude_of_readMagnitude h
    rw [beq_iff_eq.mp hb]
    exact .negative ht hu hr
  · obtain ⟨t, u, ht, hu, hr⟩ := isMagnitude_of_readMagnitude h
    exact .positive ht hu hr

theorem digitRun_of_skipDigits (h : skipDigits s = .ok r) : DigitRun s r := by
  unfold skipDigits at h
  split at h
  · cases h
  split at h
  · rename_i hb
    cases h
    exact digitRun_dropWhile hb _
  · cases h

theorem exponentPart_of_skipExponent (h : skipExponent s = .ok r) : ExponentPart s r := by
  unfold skipExponent at h
  split at h
  · cases h
    exact .none _
  split at h
  · rename_i hb
    split at h
    · cases h
    split at h
    · rename_i hc
      exact .signed hb (by simpa using hc) (digitRun_of_skipDigits h)
    · exact .unsigned hb (digitRun_of_skipDigits h)
  · cases h
    exact .none _

theorem fractionPart_of_skipScale (h : skipScale s = .ok r) :
    ∃ u, FractionPart s u ∧ ExponentPart u r := by
  unfold skipScale at h
  split at h
  · cases h
    exact ⟨_, .none _, .none _⟩
  split at h
  · rename_i hb
    split at h
    · cases h
    · rename_i hdigits
      rw [beq_iff_eq.mp hb]
      exact ⟨_, .some (digitRun_of_skipDigits hdigits), exponentPart_of_skipExponent h⟩
  · exact ⟨_, .none _, exponentPart_of_skipExponent h⟩

theorem isMagnitude_of_skipMagnitude (h : skipMagnitude s = .ok r) : IsMagnitude s r := by
  unfold skipMagnitude at h
  split at h
  · cases h
  split at h
  · rename_i hb
    obtain rfl := beq_iff_eq.mp hb
    split at h
    · cases h
    · obtain ⟨u, hu, hr⟩ := fractionPart_of_skipScale h
      exact ⟨_, u, .zero _, hu, hr⟩
  · rename_i hb
    split at h
    · cases h
    · rename_i hdigits
      obtain ⟨u, hu, hr⟩ := fractionPart_of_skipScale h
      exact ⟨_, u, .digits (by simpa using hb) (digitRun_of_skipDigits hdigits), hu, hr⟩

theorem derives_of_skipScalar {b : UInt8} (h : skipScalar b s = .ok r) :
    Derives .value (b :: s) r := by
  unfold skipScalar at h
  split at h
  · rename_i hb
    rw [beq_iff_eq.mp hb, eq_of_word h]
    exact .null r
  split at h
  · rename_i hb
    rw [beq_iff_eq.mp hb, eq_of_word h]
    exact .yes r
  split at h
  · rename_i hb
    rw [beq_iff_eq.mp hb, eq_of_word h]
    exact .no r
  split at h
  · rename_i hb
    obtain ⟨t, u, ht, hu, hr⟩ := isMagnitude_of_skipMagnitude h
    rw [beq_iff_eq.mp hb]
    exact .numeral (.negative ht hu hr)
  split at h
  · obtain ⟨t, u, ht, hu, hr⟩ := isMagnitude_of_skipMagnitude h
    exact .numeral (.positive ht hu hr)
  split at h
  · rename_i hb
    rw [beq_iff_eq.mp hb]
    exact .text (isText_of_skipText h)
  · cases h

/-! ## Separators -/

theorem comma_of_nextItem {fresh : Bool} (h : nextItem fresh s = .ok (.item t)) :
    Comma fresh s t := by
  unfold nextItem at h
  split at h
  · cases h
  rename_i hs
  split at h
  · cases h
  split at h
  · rename_i hfresh
    cases h
    subst hfresh
    exact .fresh (blanks_of_skipSpace hs)
  split at h
  · rename_i hfresh hb
    obtain rfl := Bool.eq_false_iff.mpr hfresh
    split at h
    · cases h
    rename_i ht
    split at h
    · cases h
    · cases h
      exact .later (blanks_of_beq hs hb) (blanks_of_skipSpace ht)
  · cases h

theorem blanks_of_nextItem {fresh : Bool} (h : nextItem fresh s = .ok (.close r)) :
    Blanks s (Byte.closeSquare :: r) := by
  unfold nextItem at h
  split at h
  · cases h
  rename_i hs
  split at h
  · rename_i hb
    cases h
    exact blanks_of_beq hs hb
  split at h
  · cases h
  split at h
  · split at h
    · cases h
    · split at h <;> cases h
  · cases h

theorem comma_of_nextMember {fresh : Bool} (h : nextMember fresh s = .ok (.item t)) :
    Comma fresh s (Byte.quote :: t) := by
  unfold nextMember at h
  split at h
  · cases h
  rename_i hs
  split at h
  · cases h
  split at h
  · rename_i hfresh
    subst hfresh
    split at h
    · rename_i hb
      cases h
      exact .fresh (blanks_of_beq hs hb)
    · cases h
  split at h
  · rename_i hfresh hb
    obtain rfl := Bool.eq_false_iff.mpr hfresh
    split at h
    · cases h
    rename_i ht
    split at h
    · cases h
    split at h
    · rename_i hc
      cases h
      exact .later (blanks_of_beq hs hb) (blanks_of_beq ht hc)
    · cases h
  · cases h

theorem blanks_of_nextMember {fresh : Bool} (h : nextMember fresh s = .ok (.close r)) :
    Blanks s (Byte.closeCurly :: r) := by
  unfold nextMember at h
  split at h
  · cases h
  rename_i hs
  split at h
  · rename_i hb
    cases h
    exact blanks_of_beq hs hb
  split at h
  · split at h <;> cases h
  split at h
  · split at h
    · cases h
    split at h
    · cases h
    · split at h <;> cases h
  · cases h

theorem blanks_of_readColon (h : readColon s = .ok r) : Blanks s (Byte.colon :: r) := by
  unfold readColon at h
  split at h
  · cases h
  rename_i hs
  split at h
  · rename_i hb
    cases h
    exact blanks_of_beq hs hb
  · cases h

end

end QueryAdmission.Json
