import QueryAdmission.Proofs.Json.Spelling
import QueryAdmission.Query.Wire

/-! # How far readers look

Where a value is read, the text that is used up decides what is read. Of the rest only the first
byte is looked at, and any byte that separates would do as well. What is used up ends with a byte
that is a character. -/

namespace QueryAdmission.Json

open Wire (separates)

/-- Bytes that do not end inside a character: none, or an ASCII character comes last. -/
def EndsAscii (u : Bytes) : Prop := ∀ b ∈ u.getLast?, b < 0x80

/-- Whether a value that ends before `r` also ends before `t`. -/
def CanReplace (r t : Bytes) : Prop := t.head? = r.head? ∨ ∀ b ∈ t.head?, separates b

/-- `R` holds of `s` and its rest `r`, and goes on to hold if another rest is put in the place of
`r`, which does not begin inside a character. -/
def Stable (R : Bytes → Bytes → Prop) (s r : Bytes) : Prop :=
  ∃ u, s = u ++ r ∧ EndsAscii u ∧ ∀ t, CanReplace r t → R (u ++ t) t

/-- The same for rests that begin with the same byte. -/
def StableBefore (R : Bytes → Bytes → Prop) (s r : Bytes) : Prop :=
  ∃ u, s = u ++ r ∧ EndsAscii u ∧ ∀ t, t.head? = r.head? → R (u ++ t) t

section

variable {R S : Bytes → Bytes → Prop} {s q r t u v : Bytes} {b : UInt8}

/-! ## Parts of a text -/

theorem EndsAscii.nil : EndsAscii [] := by
  rintro b ⟨⟩

theorem EndsAscii.append (hu : EndsAscii u) (hv : EndsAscii v) : EndsAscii (u ++ v) := by
  intro b hb
  rw [List.getLast?_append, Option.mem_def, Option.or_eq_some_iff] at hb
  rcases hb with hb | ⟨-, hb⟩
  · exact hv b hb
  · exact hu b hb

theorem EndsAscii.cons (hu : EndsAscii u) (hne : u ≠ []) (b : UInt8) : EndsAscii (b :: u) := by
  rwa [EndsAscii, List.getLast?_cons_of_ne_nil hne]

theorem endsAscii_of_forall (h : ∀ b ∈ u, b < 0x80) : EndsAscii u :=
  fun b hb => h b (List.mem_of_getLast? hb)

theorem CanReplace.append (h : CanReplace r t) (u : Bytes) : CanReplace (u ++ r) (u ++ t) := by
  cases u with
  | nil => exact h
  | cons b u => exact .inl rfl

/-- What does not separate does not come next in another rest either. -/
theorem CanReplace.head?_any (h : CanReplace r t) {p : UInt8 → Bool}
    (hp : ∀ b, separates b = true → p b = false) (hr : r.head?.any p = false) :
    t.head?.any p = false := by
  rcases h with heq | hsep
  · rw [heq, hr]
  · cases t with
    | nil => rfl
    | cons b t => exact hp b (hsep b rfl)

theorem CanReplace.head?_all (h : CanReplace r t) (hr : r.head?.all separates = true) :
    t.head?.all separates = true := by
  rcases h with heq | hsep
  · rw [heq, hr]
  · cases t with
    | nil => rfl
    | cons b t => exact hsep b rfl

/-! ## Single bytes -/

theorem stable_self (h : ∀ t, R t t) : Stable R r r := ⟨[], rfl, .nil, fun t _ => h t⟩

/-- A place where something ends because no byte comes next that it goes on with. -/
theorem stable_end {p : UInt8 → Bool} (hp : ∀ b, separates b = true → p b = false)
    (hr : r.head?.any p = false) (h : ∀ t, t.head?.any p = false → R t t) : Stable R r r :=
  ⟨[], rfl, .nil, fun t ht => h t (ht.head?_any hp hr)⟩

theorem stableBefore_self (h : ∀ t, t.head? = r.head? → R t t) : StableBefore R r r :=
  ⟨[], rfl, .nil, fun t ht => h t ht⟩

theorem stable_cons (hb : b < 0x80) (h : ∀ t, R (b :: t) t) : Stable R (b :: r) r :=
  ⟨[b], rfl, endsAscii_of_forall (by simpa using hb), fun t _ => h t⟩

theorem isSpace_lt (hb : Byte.isSpace b = true) : b < 0x80 := by
  simp only [Byte.isSpace, Bool.or_eq_true, beq_iff_eq] at hb
  rcases hb with ((rfl | rfl) | rfl) | rfl <;> decide

/-- White space before the first byte that is looked at. -/
theorem exists_skipSpace_eq (s : Bytes) :
    ∃ u, s = u ++ skipSpace s ∧ EndsAscii u ∧ ∀ t, Blanks (u ++ t) t := by
  induction s with
  | nil => exact ⟨[], rfl, .nil, fun t => .nil t⟩
  | cons b s ih =>
      by_cases hb : Byte.isSpace b = true
      · obtain ⟨u, hu, hascii, hblanks⟩ := ih
        refine ⟨b :: u, ?_, ?_, fun t => .cons hb (hblanks t)⟩
        · rw [skipSpace, List.dropWhile_cons_of_pos hb, ← skipSpace, List.cons_append, ← hu]
        · exact EndsAscii.append (u := [b])
            (endsAscii_of_forall (by simpa using isSpace_lt hb)) hascii
      · exact ⟨[], (skipSpace_cons s (Bool.eq_false_iff.mpr hb)).symm, .nil, fun t => .nil t⟩

theorem blanks_skipSpace (s : Bytes) : Blanks s (skipSpace s) := by
  obtain ⟨u, hu, -, hblanks⟩ := exists_skipSpace_eq s
  have hspace := hblanks (skipSpace s)
  rwa [← hu] at hspace

theorem isSpace_of_skipSpace (h : skipSpace s = b :: r) : Byte.isSpace b = false := by
  have hhead := List.head?_dropWhile_not Byte.isSpace s
  rw [← skipSpace, h] at hhead
  simpa using hhead

theorem stable_skipSpace (hs : skipSpace s = b :: r) (hb : b < 0x80)
    (h : ∀ x t, skipSpace x = b :: t → R x t) : Stable R s r := by
  obtain ⟨u, hu, hascii, hblanks⟩ := exists_skipSpace_eq s
  refine ⟨u ++ [b], ?_, hascii.append (endsAscii_of_forall (by simpa using hb)), fun t _ => ?_⟩
  · rw [List.append_assoc, List.singleton_append, ← hs]
    exact hu
  · apply h
    rw [List.append_assoc]
    exact (hblanks (b :: t)).skipSpace_cons (isSpace_of_skipSpace hs)

theorem stableBefore_skipSpace (hs : skipSpace s = b :: r)
    (h : ∀ x t, skipSpace x = b :: t → R x (b :: t)) : StableBefore R s (b :: r) := by
  obtain ⟨u, hu, hascii, hblanks⟩ := exists_skipSpace_eq s
  refine ⟨u, hs ▸ hu, hascii, fun t ht => ?_⟩
  obtain ⟨t, rfl⟩ := List.head?_eq_some_iff.mp ht
  exact h _ t ((hblanks (b :: t)).skipSpace_cons (isSpace_of_skipSpace hs))

theorem stable_byte (hb : b < 0x80) : Stable (fun x t : Bytes => x = b :: t) (b :: r) r :=
  stable_cons hb fun _ => rfl

theorem stable_first (hs : skipSpace s = b :: r) (hb : b < 0x80) :
    Stable (fun x t => skipSpace x = b :: t) s r :=
  stable_skipSpace hs hb fun _ _ hx => hx

theorem stableBefore_first (hs : skipSpace s = b :: r) :
    StableBefore (fun x t => skipSpace x = t ∧ t.head? = some b) s (b :: r) :=
  stableBefore_skipSpace hs fun _ _ hx => ⟨hx, rfl⟩

/-! ## One after the other -/

theorem Stable.mono (h : Stable R s r) (hR : ∀ x t, R x t → S x t) : Stable S s r := by
  obtain ⟨u, hu, hascii, hall⟩ := h
  exact ⟨u, hu, hascii, fun t ht => hR _ _ (hall t ht)⟩

theorem StableBefore.mono (h : StableBefore R s r) (hR : ∀ x t, R x t → S x t) :
    StableBefore S s r := by
  obtain ⟨u, hu, hascii, hall⟩ := h
  exact ⟨u, hu, hascii, fun t ht => hR _ _ (hall t ht)⟩

theorem Stable.trans (h₁ : Stable R s q) (h₂ : Stable S q r) :
    Stable (fun x t => ∃ y, R x y ∧ S y t) s r := by
  obtain ⟨u, rfl, hu, hR⟩ := h₁
  obtain ⟨v, rfl, hv, hS⟩ := h₂
  refine ⟨u ++ v, (List.append_assoc u v r).symm, hu.append hv, fun t ht => ?_⟩
  rw [List.append_assoc]
  exact ⟨v ++ t, hR _ (ht.append v), hS t ht⟩

/-- Where nothing but the next byte is looked at, that byte stays if it is used up next. -/
theorem StableBefore.trans (h₁ : StableBefore R s q) (h₂ : Stable S q r)
    (hlt : r.length < q.length) : Stable (fun x t => ∃ y, R x y ∧ S y t) s r := by
  obtain ⟨u, rfl, hu, hR⟩ := h₁
  obtain ⟨v, rfl, hv, hS⟩ := h₂
  refine ⟨u ++ v, (List.append_assoc u v r).symm, hu.append hv, fun t ht => ?_⟩
  rw [List.append_assoc]
  refine ⟨v ++ t, hR _ ?_, hS t ht⟩
  cases v with
  | nil => exact absurd hlt (Nat.lt_irrefl _)
  | cons b v => rfl

/-- A byte inside a character, if more is used up after it. -/
theorem Stable.cons (h : Stable R s r) (hlt : r.length < s.length)
    (hR : ∀ x t, R x t → S (b :: x) t) : Stable S (b :: s) r := by
  obtain ⟨u, rfl, hu, hall⟩ := h
  have hne : u ≠ [] := by
    rintro rfl
    exact Nat.lt_irrefl _ hlt
  exact ⟨b :: u, rfl, hu.cons hne b, fun t ht => hR _ _ (hall t ht)⟩

theorem Stable.transBefore (h₁ : Stable R s q) (h₂ : StableBefore S q r) :
    StableBefore (fun x t => ∃ y, R x y ∧ S y t) s r := by
  obtain ⟨u, rfl, hu, hR⟩ := h₁
  obtain ⟨v, rfl, hv, hS⟩ := h₂
  refine ⟨u ++ v, (List.append_assoc u v r).symm, hu.append hv, fun t ht => ?_⟩
  rw [List.append_assoc]
  exact ⟨v ++ t, hR _ (CanReplace.append (.inl ht) v), hS t ht⟩

/-- The first byte of what is used up stays. -/
theorem Stable.head (h : Stable R s r) (hlt : r.length < s.length) :
    Stable (fun x t => R x t ∧ x.head? = s.head?) s r := by
  obtain ⟨u, rfl, hu, hall⟩ := h
  refine ⟨u, rfl, hu, fun t ht => ⟨hall t ht, ?_⟩⟩
  cases u with
  | nil => exact absurd hlt (Nat.lt_irrefl _)
  | cons b u => rfl

theorem Stable.canReplace (h : Stable R s r) :
    Stable (fun x t => R x t ∧ CanReplace s x) s r := by
  obtain ⟨u, rfl, hu, hall⟩ := h
  exact ⟨u, rfl, hu, fun t ht => ⟨hall t ht, ht.append u⟩⟩

theorem Stable.rest (h : Stable R s r) :
    Stable (fun x t => R x t ∧ CanReplace r t) s r := by
  obtain ⟨u, hu, hascii, hall⟩ := h
  exact ⟨u, hu, hascii, fun t ht => ⟨hall t ht, ht⟩⟩

theorem Stable.tail (h : Stable R (b :: s) r) (hlt : r.length < (b :: s).length) :
    Stable (fun x t => R (b :: x) t) s r := by
  obtain ⟨u, hu, hascii, hall⟩ := h
  cases u with
  | nil =>
      rw [hu] at hlt
      exact absurd hlt (Nat.lt_irrefl _)
  | cons c u =>
      obtain ⟨rfl, rfl⟩ := List.cons.inj hu
      refine ⟨u, rfl, ?_, hall⟩
      cases u with
      | nil => exact .nil
      | cons c u => rwa [EndsAscii, List.getLast?_cons_cons] at hascii

theorem Stable.before (h : Stable R s r) : StableBefore R s r := by
  obtain ⟨u, hu, hascii, hall⟩ := h
  exact ⟨u, hu, hascii, fun t ht => hall t (.inl ht)⟩

end

/-! ## Texts -/

section

variable {s r : Bytes}

theorem lt_of_hexDigit? {b : UInt8} {n : Nat} (h : Byte.hexDigit? b = some n) : b < 0x80 := by
  rw [UInt8.lt_iff_toNat_lt]
  unfold Byte.hexDigit? at h
  dsimp only at h
  split at h
  · show b.toNat < 0x80
    omega
  split at h
  · show b.toNat < 0x80
    omega
  split at h
  · show b.toNat < 0x80
    omega
  · cases h

theorem stable_readUnit {n : Nat} (h : readUnit s = .ok (n, r)) :
    Stable (fun x t => readUnit x = .ok (n, t)) s r := by
  unfold readUnit at h
  split at h
  · rename_i a b c d s
    split at h
    · rename_i ha hb hc hd
      cases h
      refine ⟨[a, b, c, d], rfl, ?_, fun t _ => by simp [readUnit, ha, hb, hc, hd]⟩
      rintro b ⟨⟩
      exact lt_of_hexDigit? hd
    · cases h
  · cases h

theorem stable_readPairMark {mark : UInt8} (hm : mark < 0x80) (h : readPairMark mark s = .ok r) :
    Stable (fun x t => readPairMark mark x = .ok t) s r := by
  unfold readPairMark at h
  split at h
  · cases h
  · split at h
    · rename_i b s hb
      cases h
      obtain rfl := beq_iff_eq.mp hb
      exact stable_cons hm fun t => by simp [readPairMark]
    · cases h

theorem stable_readPair {high : Nat} {c : Char} (h : readPair high s = .ok (c, r)) :
    Stable (fun x t => readPair high x = .ok (c, t)) s r := by
  unfold readPair at h
  split at h
  · cases h
  rename_i h₁
  split at h
  · cases h
  rename_i h₂
  split at h
  · cases h
  rename_i h₃
  split at h
  · rename_i hlow
    obtain ⟨rfl, rfl⟩ := Prod.mk.inj (Except.ok.inj h)
    have hmarks := (stable_readPairMark (by decide) h₁).trans (stable_readPairMark (by decide) h₂)
    refine (hmarks.trans (stable_readUnit h₃)).mono ?_
    rintro x t ⟨y, ⟨z, hx, hz⟩, hy⟩
    simp only [readPair, hx, hz, hy, if_pos hlow]
  · cases h

theorem stable_readCodePoint {c : Char} (h : readCodePoint s = .ok (c, r)) :
    Stable (fun x t => readCodePoint x = .ok (c, t)) s r := by
  unfold readCodePoint at h
  split at h
  · cases h
  rename_i unit q hunit
  have hstable := stable_readUnit hunit
  split at h
  · cases h
  rename_i hlow
  split at h
  · rename_i hhigh
    refine (hstable.trans (stable_readPair h)).mono ?_
    rintro x t ⟨y, hx, hy⟩
    simp only [readCodePoint, hx, if_neg hlow, if_pos hhigh, hy]
  · rename_i hhigh
    cases h
    exact hstable.mono fun x t hx => by simp only [readCodePoint, hx, if_neg hlow, if_neg hhigh]

theorem lt_of_escapedByte? {b c : UInt8} (h : escapedByte? b = some c) : b < 0x80 := by
  unfold escapedByte? at h
  simp only [Bool.or_eq_true, beq_iff_eq] at h
  split at h
  · rename_i hb
    rcases hb with (rfl | rfl) | rfl <;> decide
  iterate 5
    split at h
    · rename_i hb
      rw [hb]
      decide
  cases h

theorem stable_readEscape {c : Bytes} (h : readEscape s = .ok (c, r)) :
    Stable (fun x t => readEscape x = .ok (c, t)) s r := by
  unfold readEscape at h
  split at h
  · cases h
  rename_i b s
  split at h
  · rename_i hb
    obtain rfl := beq_iff_eq.mp hb
    split at h
    · cases h
    · rename_i hc
      cases h
      exact (stable_readCodePoint hc).cons (length_readCodePoint_lt hc) fun x t hx => by
        simp [readEscape, hx]
  · rename_i hb
    split at h
    · rename_i hc
      cases h
      exact stable_cons (lt_of_escapedByte? hc) fun t => by simp [readEscape, hb, hc]
    · cases h

theorem stable_readTextBytes {taken t : Bytes} (h : readTextBytes taken s = .ok (t, r)) :
    Stable (fun x y => readTextBytes taken x = .ok (t, y)) s r := by
  fun_induction readTextBytes taken s with
  | case1 => cases h
  | case2 taken b s hb =>
      cases h
      obtain rfl := beq_iff_eq.mp hb
      exact stable_cons (by decide) fun t => by rw [readTextBytes]; simp
  | case3 => cases h
  | case4 taken b s hq hb c q hc _ ih =>
      obtain rfl := beq_iff_eq.mp hb
      have hlt := Nat.lt_trans (length_readTextBytes_lt h) (length_readEscape_lt hc)
      refine ((stable_readEscape hc).trans (ih h)).cons hlt ?_
      rintro x y ⟨z, hx, hz⟩
      rw [readTextBytes_escape hx, hz]
  | case5 => cases h
  | case6 taken b s hq hs hb ih =>
      refine (ih h).cons (length_readTextBytes_lt h) fun x y hx => ?_
      rw [readTextBytes]
      simp only [hq, hs, hb, if_false, hx, Bool.false_eq_true]

theorem stable_readText {t : String} (h : readText s = .ok (t, r)) :
    Stable (fun x y => readText x = .ok (t, y)) s r := by
  unfold readText at h
  split at h
  · cases h
  rename_i hbytes
  split at h
  · cases h
  rename_i htext
  cases h
  exact (stable_readTextBytes hbytes).mono fun x y hx => by simp only [readText, hx, htext]

theorem stable_word {w : Bytes} (hw : ∀ b ∈ w, b < 0x80) (h : word w s = .ok r) :
    Stable (fun x t => word w x = .ok t) s r := by
  fun_induction word w s with
  | case1 s =>
      cases h
      exact stable_self fun t => rfl
  | case2 => cases h
  | case3 cs c s ih =>
      obtain ⟨hc, hcs⟩ := List.forall_mem_cons.mp hw
      refine ((stable_byte hc).trans (ih hcs h)).mono ?_
      rintro x t ⟨y, rfl, hy⟩
      rw [word, if_pos rfl, hy]
  | case4 => cases h

theorem stable_restOfNull (h : restOfNull s = .ok r) :
    Stable (fun x t => restOfNull x = .ok t) s r := stable_word (by simp) h

theorem stable_restOfTrue (h : restOfTrue s = .ok r) :
    Stable (fun x t => restOfTrue x = .ok t) s r := stable_word (by simp) h

theorem stable_restOfFalse (h : restOfFalse s = .ok r) :
    Stable (fun x t => restOfFalse x = .ok t) s r := stable_word (by simp) h

end

end QueryAdmission.Json
