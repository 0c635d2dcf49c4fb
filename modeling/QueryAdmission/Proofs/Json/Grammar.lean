import QueryAdmission.Json.Skip

/-! # The grammar of JSON

A phrase is read off the front of a text: `Derives p s r` says that `s` begins with a phrase `p`
and goes on with `r`. The grammar knows nothing of values. A value that it derives is passed over
whole, whatever is nested in it. -/

namespace QueryAdmission.Json

/-! ## White space and separators -/

/-- White space, then `r`. -/
inductive Blanks : Bytes → Bytes → Prop where
  | nil (s : Bytes) : Blanks s s
  | cons {b : UInt8} {s r : Bytes} : Byte.isSpace b → Blanks s r → Blanks (b :: s) r

/-- What comes before an item: a comma, except right after the opening bracket. -/
inductive Comma : (fresh : Bool) → Bytes → Bytes → Prop where
  | fresh {s r : Bytes} : Blanks s r → Comma true s r
  | later {s t r : Bytes} : Blanks s (Byte.comma :: t) → Blanks t r → Comma false s r

/-- Whether a byte can follow a value in a list or an object. -/
def canFollow (b : UInt8) : Bool :=
  Byte.isSpace b || b == Byte.comma || b == Byte.closeSquare || b == Byte.closeCurly

/-- Nothing follows, or something that can follow a value. -/
def Follows (r : Bytes) : Prop := ∀ b ∈ r.head?, canFollow b

theorem skipSpace_cons {b : UInt8} (r : Bytes) (hb : Byte.isSpace b = false) :
    skipSpace (b :: r) = b :: r := by
  simp [skipSpace, hb]

theorem Blanks.skipSpace_eq {s r : Bytes} (h : Blanks s r) : skipSpace s = skipSpace r := by
  induction h with
  | nil s => rfl
  | cons hb _ ih => rw [← ih, skipSpace, skipSpace, List.dropWhile_cons_of_pos hb]

theorem Blanks.skipSpace_cons {s r : Bytes} {b : UInt8} (h : Blanks s (b :: r))
    (hb : Byte.isSpace b = false) : skipSpace s = b :: r :=
  h.skipSpace_eq.trans (QueryAdmission.Json.skipSpace_cons r hb)

theorem Blanks.follows {s r : Bytes} {b : UInt8} (h : Blanks s (b :: r)) (hb : canFollow b) :
    Follows s := by
  cases h with
  | nil => simpa [Follows] using hb
  | cons hc _ => simp [Follows, canFollow, hc]

theorem Comma.follows {s r : Bytes} (h : Comma false s r) : Follows s := by
  cases h with
  | later hs _ => exact hs.follows (by decide)

/-- Nothing that follows a value goes on with a numeral. -/
theorem canFollow_spec {b : UInt8} (h : canFollow b) :
    Byte.isDigit b = false ∧ (b == Byte.point) = false ∧ Byte.isExponentMark b = false := by
  simp only [canFollow, Byte.isSpace, Bool.or_eq_true, beq_iff_eq] at h
  rcases h with (((((rfl | rfl) | rfl) | rfl) | rfl) | rfl) | rfl <;> decide

/-! ## Numerals -/

/-- One digit or more. -/
inductive DigitRun : Bytes → Bytes → Prop where
  | last {b : UInt8} (r : Bytes) : Byte.isDigit b → DigitRun (b :: r) r
  | more {b : UInt8} {s r : Bytes} : Byte.isDigit b → DigitRun s r → DigitRun (b :: s) r

/-- A zero alone, or digits that do not begin with a zero. -/
inductive WholePart : Bytes → Bytes → Prop where
  | zero (r : Bytes) : WholePart (Byte.zero :: r) r
  | digits {b : UInt8} {s r : Bytes} : b ≠ Byte.zero → DigitRun (b :: s) r → WholePart (b :: s) r

inductive FractionPart : Bytes → Bytes → Prop where
  | none (s : Bytes) : FractionPart s s
  | some {s r : Bytes} : DigitRun s r → FractionPart (Byte.point :: s) r

inductive ExponentPart : Bytes → Bytes → Prop where
  | none (s : Bytes) : ExponentPart s s
  | unsigned {b : UInt8} {s r : Bytes} : Byte.isExponentMark b → DigitRun s r →
      ExponentPart (b :: s) r
  | signed {b c : UInt8} {s r : Bytes} : Byte.isExponentMark b →
      c = Byte.plus ∨ c = Byte.minus → DigitRun s r → ExponentPart (b :: c :: s) r

inductive IsNumeral : Bytes → Bytes → Prop where
  | positive {s t u r : Bytes} : WholePart s t → FractionPart t u → ExponentPart u r →
      IsNumeral s r
  | negative {s t u r : Bytes} : WholePart s t → FractionPart t u → ExponentPart u r →
      IsNumeral (Byte.minus :: s) r

def NoDigit (r : Bytes) : Prop := ∀ b ∈ r.head?, Byte.isDigit b = false

theorem Follows.noDigit {r : Bytes} (h : Follows r) : NoDigit r :=
  fun b hb => (canFollow_spec (h b hb)).1

theorem NoDigit.dropWhile_eq {r : Bytes} (h : NoDigit r) : r.dropWhile Byte.isDigit = r := by
  cases r with
  | nil => rfl
  | cons b r => simp [h b rfl]

theorem DigitRun.head {s r : Bytes} (h : DigitRun s r) :
    ∃ b t, s = b :: t ∧ Byte.isDigit b := by
  cases h with
  | last r hb => exact ⟨_, _, rfl, hb⟩
  | more hb _ => exact ⟨_, _, rfl, hb⟩

theorem DigitRun.skipDigits_eq {s r : Bytes} (h : DigitRun s r) (hr : NoDigit r) :
    skipDigits s = .ok r := by
  have hdrop : s.dropWhile Byte.isDigit = r := by
    induction h with
    | last r hb => rw [List.dropWhile_cons_of_pos hb, hr.dropWhile_eq]
    | more hb _ ih => rw [List.dropWhile_cons_of_pos hb, ih hr]
  obtain ⟨b, t, rfl, hb⟩ := h.head
  rw [List.dropWhile_cons_of_pos hb] at hdrop
  simp [skipDigits, hb, hdrop]

theorem isExponentMark_spec {b : UInt8} (h : Byte.isExponentMark b) :
    Byte.isDigit b = false ∧ (b == Byte.point) = false := by
  simp only [Byte.isExponentMark, Bool.or_eq_true, beq_iff_eq] at h
  rcases h with rfl | rfl <;> decide

theorem isDigit_spec {b : UInt8} (h : Byte.isDigit b) :
    (b == Byte.plus || b == Byte.minus) = false := by
  simp only [Byte.isDigit, Bool.and_eq_true, decide_eq_true_eq, UInt8.le_iff_toNat_le] at h
  simp only [Bool.or_eq_false_iff, beq_eq_false_iff_ne, ne_eq, UInt8.toNat_inj.symm]
  have : Byte.zero.toNat = 48 := rfl
  have : Byte.plus.toNat = 43 := rfl
  have : Byte.minus.toNat = 45 := rfl
  omega

theorem ExponentPart.skipExponent_eq {s r : Bytes} (h : ExponentPart s r) (hr : Follows r) :
    skipExponent s = .ok r := by
  cases h with
  | none =>
      cases s with
      | nil => rfl
      | cons b s => simp [skipExponent, (canFollow_spec (hr b rfl)).2.2]
  | unsigned hb hd =>
      have heq := hd.skipDigits_eq hr.noDigit
      obtain ⟨c, t, rfl, hc⟩ := hd.head
      simp [skipExponent, hb, isDigit_spec hc, heq]
  | signed hb hc hd =>
      rcases hc with rfl | rfl <;> simp [skipExponent, hb, hd.skipDigits_eq hr.noDigit]

/-- What follows the digits of a numeral begins neither with a digit nor with a point. -/
theorem ExponentPart.head {s r : Bytes} (h : ExponentPart s r) (hr : Follows r) :
    ∀ b ∈ s.head?, Byte.isDigit b = false ∧ (b == Byte.point) = false := by
  intro b hb
  cases h with
  | none => exact ⟨(canFollow_spec (hr b hb)).1, (canFollow_spec (hr b hb)).2.1⟩
  | unsigned hm _ => cases hb; exact isExponentMark_spec hm
  | signed hm _ _ => cases hb; exact isExponentMark_spec hm

theorem FractionPart.skipScale_eq {s t r : Bytes} (h : FractionPart s t)
    (he : ExponentPart t r) (hr : Follows r) : skipScale s = .ok r := by
  cases h with
  | none =>
      cases s with
      | nil => rw [← he.skipExponent_eq hr]; rfl
      | cons b s => simp [skipScale, (he.head hr b rfl).2, he.skipExponent_eq hr]
  | some hd =>
      simp [skipScale, hd.skipDigits_eq fun b hb => (he.head hr b hb).1, he.skipExponent_eq hr]

theorem FractionPart.noDigit {s t r : Bytes} (h : FractionPart s t) (he : ExponentPart t r)
    (hr : Follows r) : NoDigit s := by
  intro b hb
  cases h with
  | none => exact (he.head hr b hb).1
  | some _ => cases hb; decide

theorem WholePart.skipMagnitude_eq {s t u r : Bytes} (h : WholePart s t) (hf : FractionPart t u)
    (he : ExponentPart u r) (hr : Follows r) : skipMagnitude s = .ok r := by
  have ht := hf.noDigit he hr
  cases h with
  | zero =>
      have hany : t.head?.any Byte.isDigit = false := by
        cases t with
        | nil => rfl
        | cons b t => exact ht b rfl
      simp [skipMagnitude, hany, hf.skipScale_eq he hr]
  | digits hb hd =>
      simp [skipMagnitude, hb, hd.skipDigits_eq ht, hf.skipScale_eq he hr]

theorem WholePart.head {s r : Bytes} (h : WholePart s r) : ∃ b t, s = b :: t ∧ Byte.isDigit b := by
  cases h with
  | zero r => exact ⟨_, _, rfl, by decide⟩
  | digits _ hd => exact hd.head

/-! ## Strings -/

/-- The bytes that stand after a backslash for one character. -/
def escapes : Bytes :=
  [Byte.quote, Byte.backslash, Byte.slash, Byte.letterb, Byte.letterf, Byte.lettern,
    Byte.letterr, Byte.lettert]

/-- A string, after its opening quotation mark. -/
inductive IsText : Bytes → Bytes → Prop where
  | close (r : Bytes) : IsText (Byte.quote :: r) r
  | plain {b : UInt8} {s r : Bytes} : 0x20 ≤ b → b ≠ Byte.quote → b ≠ Byte.backslash →
      IsText s r → IsText (b :: s) r
  | escaped {b : UInt8} {s r : Bytes} : b ∈ escapes → IsText s r →
      IsText (Byte.backslash :: b :: s) r
  | unit {a b c d : UInt8} {s r : Bytes} :
      (∀ x ∈ [a, b, c, d], (Byte.hexDigit? x).isSome) → IsText s r →
      IsText (Byte.backslash :: Byte.letteru :: a :: b :: c :: d :: s) r

theorem skipText_escape {s t r : Bytes} (h : skipEscape s = .ok t) (ht : skipText t = .ok r) :
    skipText (Byte.backslash :: s) = .ok r := by
  rw [skipText]
  simp only [show (Byte.backslash == Byte.quote) = false from rfl,
    show (Byte.backslash == Byte.backslash) = true from rfl, Bool.false_eq_true, if_false, if_true]
  split
  · simp_all
  · simp_all

theorem IsText.skipText_eq {s r : Bytes} (h : IsText s r) : skipText s = .ok r := by
  induction h with
  | close r => simp [skipText]
  | plain hb hq hs _ ih =>
      rw [skipText]
      simp [hq, hs, UInt8.not_lt.mpr hb, ih]
  | escaped hb _ ih =>
      refine skipText_escape ?_ ih
      simp only [escapes, List.mem_cons, List.not_mem_nil, or_false] at hb
      rcases hb with rfl | rfl | rfl | rfl | rfl | rfl | rfl | rfl <;> rfl
  | unit hx _ ih =>
      refine skipText_escape ?_ ih
      simp only [List.mem_cons, List.not_mem_nil, or_false, forall_eq_or_imp, forall_eq,
        Option.isSome_iff_exists] at hx
      obtain ⟨⟨a, ha⟩, ⟨b, hb⟩, ⟨c, hc⟩, ⟨d, hd⟩⟩ := hx
      simp [skipEscape, readUnit, ha, hb, hc, hd]

/-! ## Values -/

/-- What a text can begin with: a value, or what is left of a list or an object up to its closing
bracket. `fresh` holds right after the opening bracket. -/
inductive Phrase where
  | value
  | items (fresh : Bool)
  | members (fresh : Bool)

inductive Derives : Phrase → Bytes → Bytes → Prop where
  | null (r : Bytes) : Derives .value (0x6E :: 0x75 :: 0x6C :: 0x6C :: r) r
  | yes (r : Bytes) : Derives .value (0x74 :: 0x72 :: 0x75 :: 0x65 :: r) r
  | no (r : Bytes) : Derives .value (0x66 :: 0x61 :: 0x6C :: 0x73 :: 0x65 :: r) r
  | numeral {s r : Bytes} : IsNumeral s r → Derives .value s r
  | text {s r : Bytes} : IsText s r → Derives .value (Byte.quote :: s) r
  | list {s r : Bytes} : Derives (.items true) s r → Derives .value (Byte.openSquare :: s) r
  | object {s r : Bytes} : Derives (.members true) s r → Derives .value (Byte.openCurly :: s) r
  | endList (fresh : Bool) {s r : Bytes} : Blanks s (Byte.closeSquare :: r) →
      Derives (.items fresh) s r
  | item {fresh : Bool} {s t u r : Bytes} : Comma fresh s t → Derives .value t u →
      Derives (.items false) u r → Derives (.items fresh) s r
  | endObject (fresh : Bool) {s r : Bytes} : Blanks s (Byte.closeCurly :: r) →
      Derives (.members fresh) s r
  | member {fresh : Bool} {s t u v w x r : Bytes} : Comma fresh s (Byte.quote :: t) →
      IsText t u → Blanks u (Byte.colon :: v) → Blanks v w → Derives .value w x →
      Derives (.members false) x r → Derives (.members fresh) s r

/-- What follows an item can follow a value. -/
theorem Derives.follows_items {s r : Bytes} (h : Derives (.items false) s r) : Follows s := by
  cases h with
  | endList _ hs => exact hs.follows (by decide)
  | item hs _ _ => exact hs.follows

theorem Derives.follows_members {s r : Bytes} (h : Derives (.members false) s r) : Follows s := by
  cases h with
  | endObject _ hs => exact hs.follows (by decide)
  | member hs _ _ _ _ _ => exact hs.follows

theorem IsNumeral.head {s r : Bytes} (h : IsNumeral s r) :
    ∃ b t, s = b :: t ∧ (b = Byte.minus ∨ Byte.isDigit b) := by
  cases h with
  | positive hw _ _ =>
      obtain ⟨b, t, rfl, hb⟩ := hw.head
      exact ⟨b, t, rfl, .inr hb⟩
  | negative _ _ _ => exact ⟨_, _, rfl, .inl rfl⟩

/-- A byte that begins a numeral begins nothing else. -/
theorem numeral_head_spec {b : UInt8} (h : b = Byte.minus ∨ Byte.isDigit b) :
    Byte.isSpace b = false ∧ b ≠ Byte.lettern ∧ b ≠ Byte.lettert ∧ b ≠ Byte.letterf ∧
      b ≠ Byte.quote ∧ b ≠ Byte.openSquare ∧ b ≠ Byte.openCurly ∧ b ≠ Byte.closeSquare := by
  rcases h with rfl | h
  · decide
  simp only [Byte.isDigit, Bool.and_eq_true, decide_eq_true_eq, UInt8.le_iff_toNat_le] at h
  simp only [Byte.isSpace, Bool.or_eq_false_iff, beq_eq_false_iff_ne, ne_eq, UInt8.toNat_inj.symm]
  have : Byte.zero.toNat = 48 := rfl
  have : Byte.nine.toNat = 57 := rfl
  refine ⟨⟨⟨⟨?_, ?_⟩, ?_⟩, ?_⟩, ?_, ?_, ?_, ?_, ?_, ?_, ?_⟩ <;> intro heq <;>
    rw [heq] at h <;> revert h <;> decide

theorem Derives.head {s r : Bytes} (h : Derives .value s r) :
    ∃ b t, s = b :: t ∧ Byte.isSpace b = false ∧ b ≠ Byte.closeSquare := by
  cases h with
  | numeral hn =>
      obtain ⟨b, t, rfl, hb⟩ := hn.head
      obtain ⟨hspace, -, -, -, -, -, -, hclose⟩ := numeral_head_spec hb
      exact ⟨b, t, rfl, hspace, hclose⟩
  | _ => exact ⟨_, _, rfl, by decide, by decide⟩

/-! ## Passing over values -/

theorem Skip.finish_start {brackets : List Bracket} {s : Bytes} {m : Skip}
    (h : Skip.start brackets s = .ok m) : Skip.finish ⟨true, brackets, s⟩ = m.finish := by
  rw [Skip.finish]
  split <;> simp_all

theorem Skip.finish_continue {bracket : Bracket} {brackets : List Bracket} {s : Bytes} {m : Skip}
    (h : Skip.continue bracket brackets s = .ok m) :
    Skip.finish ⟨false, bracket :: brackets, s⟩ = m.finish := by
  rw [Skip.finish]
  split <;> simp_all

/-- A phrase is passed over, whatever brackets are open around it. -/
def Passes : Phrase → Bytes → Bytes → Prop
  | .value, s, r => Follows r → ∀ t brackets, skipSpace t = s →
      Skip.finish ⟨true, brackets, t⟩ = Skip.finish ⟨false, brackets, r⟩
  | .items true, s, r => ∀ t brackets, skipSpace t = Byte.openSquare :: s →
      Skip.finish ⟨true, brackets, t⟩ = Skip.finish ⟨false, brackets, r⟩
  | .members true, s, r => ∀ t brackets, skipSpace t = Byte.openCurly :: s →
      Skip.finish ⟨true, brackets, t⟩ = Skip.finish ⟨false, brackets, r⟩
  | .items false, s, r => ∀ brackets,
      Skip.finish ⟨false, .square :: brackets, s⟩ = Skip.finish ⟨false, brackets, r⟩
  | .members false, s, r => ∀ brackets,
      Skip.finish ⟨false, .curly :: brackets, s⟩ = Skip.finish ⟨false, brackets, r⟩

theorem IsNumeral.skipScalar_eq {b : UInt8} {s r : Bytes} (h : IsNumeral (b :: s) r)
    (hr : Follows r) : skipScalar b s = .ok r := by
  cases h with
  | positive hw hf he =>
      have heq := hw.skipMagnitude_eq hf he hr
      obtain ⟨c, t, hc, hd⟩ := hw.head
      cases hc
      have hspec := numeral_head_spec (.inr hd)
      by_cases hm : b = Byte.minus
      · rw [hm] at hd
        exact absurd hd (by decide)
      · simp [skipScalar, hspec, hm, hd, heq]
  | negative hw hf he =>
      rw [show skipScalar Byte.minus s = skipMagnitude s from rfl]
      exact hw.skipMagnitude_eq hf he hr

/-- A scalar is passed over in one round. -/
theorem Skip.finish_scalar {b : UInt8} {s t r : Bytes} {brackets : List Bracket}
    (ht : skipSpace t = b :: s) (hs : b ≠ Byte.openSquare) (hc : b ≠ Byte.openCurly)
    (h : skipScalar b s = .ok r) :
    Skip.finish ⟨true, brackets, t⟩ = Skip.finish ⟨false, brackets, r⟩ :=
  Skip.finish_start (by simp [Skip.start, ht, hs, hc, h])

theorem skipName_eq {s t u v : Bytes} (hs : skipSpace s = Byte.quote :: t) (ht : IsText t u)
    (hu : Blanks u (Byte.colon :: v)) : skipName s = .ok v := by
  have hcolon := hu.skipSpace_cons (by decide)
  simp [skipName, hs, ht.skipText_eq, readColon, hcolon]

theorem Derives.passes {p : Phrase} {s r : Bytes} (h : Derives p s r) : Passes p s r := by
  induction h with
  | null r => exact fun _ t brackets ht => Skip.finish_scalar ht (by decide) (by decide) rfl
  | yes r => exact fun _ t brackets ht => Skip.finish_scalar ht (by decide) (by decide) rfl
  | no r => exact fun _ t brackets ht => Skip.finish_scalar ht (by decide) (by decide) rfl
  | numeral hn =>
      intro hr t brackets ht
      obtain ⟨b, u, rfl, hb⟩ := hn.head
      obtain ⟨-, -, -, -, -, hs, hc, -⟩ := numeral_head_spec hb
      exact Skip.finish_scalar ht hs hc (hn.skipScalar_eq hr)
  | text hs =>
      exact fun _ t brackets ht =>
        Skip.finish_scalar ht (by decide) (by decide) hs.skipText_eq
  | list _ ih => exact fun _ => ih
  | object _ ih => exact fun _ => ih
  | endList fresh hs =>
      have hclose := hs.skipSpace_cons (by decide)
      cases fresh with
      | true =>
          intro t brackets ht
          exact Skip.finish_start (by simp [Skip.start, ht, hclose])
      | false =>
          intro brackets
          exact Skip.finish_continue (by simp +decide [Skip.continue, hclose])
  | @item _ s t u r hs ht hu iht ihu =>
      obtain ⟨b, t, rfl, hspace, hclose⟩ := ht.head
      have hvalue := iht hu.follows_items
      cases hs with
      | fresh hs =>
          intro t' brackets hopen
          have hfirst := hs.skipSpace_cons hspace
          have hstart : Skip.start brackets t' = .ok ⟨true, .square :: brackets, b :: t⟩ := by
            simp [Skip.start, hopen, hfirst, hclose]
          rw [Skip.finish_start hstart, hvalue _ _ (skipSpace_cons t hspace), ihu]
      | @later _ c _ hs hc =>
          intro brackets
          have hcomma := hs.skipSpace_cons (by decide)
          have hcont : Skip.continue .square brackets s = .ok ⟨true, .square :: brackets, c⟩ := by
            simp [Skip.continue, hcomma]
          rw [Skip.finish_continue hcont, hvalue _ _ (hc.skipSpace_cons hspace), ihu]
  | endObject fresh hs =>
      have hclose := hs.skipSpace_cons (by decide)
      cases fresh with
      | true =>
          intro t brackets ht
          exact Skip.finish_start (by simp +decide [Skip.start, ht, hclose])
      | false =>
          intro brackets
          exact Skip.finish_continue (by simp +decide [Skip.continue, hclose])
  | @member _ s t u v w x r hs ht hu hv hw hx ihw ihx =>
      obtain ⟨b, w, rfl, hspace, -⟩ := hw.head
      have hvalue := fun brackets => ihw hx.follows_members v brackets (hv.skipSpace_cons hspace)
      cases hs with
      | fresh hs =>
          intro t' brackets hopen
          have hfirst := hs.skipSpace_cons (by decide)
          have hname := skipName_eq (skipSpace_cons t (by decide)) ht hu
          have hstart : Skip.start brackets t' = .ok ⟨true, .curly :: brackets, v⟩ := by
            simp +decide [Skip.start, hopen, hfirst, hname]
          rw [Skip.finish_start hstart, hvalue, ihx]
      | later hs hc =>
          intro brackets
          have hcomma := hs.skipSpace_cons (by decide)
          have hname := skipName_eq (hc.skipSpace_cons (by decide)) ht hu
          have hcont : Skip.continue .curly brackets s = .ok ⟨true, .curly :: brackets, v⟩ := by
            simp [Skip.continue, hcomma, hname]
          rw [Skip.finish_continue hcont, hvalue, ihx]

theorem Derives.skipValue_eq {s t r : Bytes} (h : Derives .value s r) (hs : Blanks t s)
    (hr : Follows r) : skipValue t = .ok r := by
  obtain ⟨b, s, rfl, hspace, -⟩ := h.head
  rw [skipValue, h.passes hr t [] (hs.skipSpace_cons hspace), Skip.finish]

/-! ## Texts that go on

A phrase at the front of a text is there whatever comes after that text. -/

section

variable {s r : Bytes} (x : Bytes)

theorem Blanks.append (h : Blanks s r) : Blanks (s ++ x) (r ++ x) := by
  induction h with
  | nil s => exact .nil _
  | cons hb _ ih => exact .cons hb ih

theorem Comma.append {fresh : Bool} (h : Comma fresh s r) : Comma fresh (s ++ x) (r ++ x) := by
  cases h with
  | fresh hs => exact .fresh (hs.append x)
  | later hs ht => exact .later (hs.append x) (ht.append x)

theorem DigitRun.append (h : DigitRun s r) : DigitRun (s ++ x) (r ++ x) := by
  induction h with
  | last r hb => exact .last _ hb
  | more hb _ ih => exact .more hb ih

theorem WholePart.append (h : WholePart s r) : WholePart (s ++ x) (r ++ x) := by
  cases h with
  | zero => exact .zero _
  | digits hb hd => exact .digits hb (hd.append x)

theorem FractionPart.append (h : FractionPart s r) : FractionPart (s ++ x) (r ++ x) := by
  cases h with
  | none => exact .none _
  | some hd => exact .some (hd.append x)

theorem ExponentPart.append (h : ExponentPart s r) : ExponentPart (s ++ x) (r ++ x) := by
  cases h with
  | none => exact .none _
  | unsigned hb hd => exact .unsigned hb (hd.append x)
  | signed hb hc hd => exact .signed hb hc (hd.append x)

theorem IsNumeral.append (h : IsNumeral s r) : IsNumeral (s ++ x) (r ++ x) := by
  cases h with
  | positive hw hf he => exact .positive (hw.append x) (hf.append x) (he.append x)
  | negative hw hf he => exact .negative (hw.append x) (hf.append x) (he.append x)

theorem IsText.append (h : IsText s r) : IsText (s ++ x) (r ++ x) := by
  induction h with
  | close r => exact .close _
  | plain hb hq hs _ ih => exact .plain hb hq hs ih
  | escaped hb _ ih => exact .escaped hb ih
  | unit hx _ ih => exact .unit hx ih

theorem Derives.append {p : Phrase} (h : Derives p s r) : Derives p (s ++ x) (r ++ x) := by
  induction h with
  | null r => exact .null _
  | yes r => exact .yes _
  | no r => exact .no _
  | numeral hn => exact .numeral (hn.append x)
  | text ht => exact .text (ht.append x)
  | list _ ih => exact .list ih
  | object _ ih => exact .object ih
  | endList fresh hs => exact .endList fresh (hs.append x)
  | item hs _ _ iht ihu => exact .item (hs.append x) iht ihu
  | endObject fresh hs => exact .endObject fresh (hs.append x)
  | member hs ht hu hv _ _ ihw ihx =>
      exact .member (hs.append x) (ht.append x) (hu.append x) (hv.append x) ihw ihx

end

end QueryAdmission.Json
