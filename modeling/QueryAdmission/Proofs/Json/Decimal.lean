import QueryAdmission.Proofs.Json.Boundary

/-! # Whole numbers in decimal

A whole number is written as its digits, without a zero in front, and after a minus sign if it is
negative. What is read back is the number, if it fits 64 bits with or without a sign. -/

namespace QueryAdmission.Json

/-! ## Digits -/

section

variable {c : Char} {cs : List Char} {n : Nat} {r : Bytes}

theorem toNat_toUInt8 (h : c.isDigit = true) : c.toUInt8.toNat = c.toNat := by
  have hhigh : c.toNat ≤ 57 := (Char.isDigit_iff_toNat.mp h).2
  have hval : c.val.toNat = c.toNat := rfl
  rw [Char.toUInt8, UInt32.toNat_toUInt8, hval]
  omega

theorem isDigit_toUInt8 (h : c.isDigit = true) : Byte.isDigit c.toUInt8 = true := by
  have hdigit := Char.isDigit_iff_toNat.mp h
  rw [Byte.isDigit, Bool.and_eq_true, decide_eq_true_iff, decide_eq_true_iff,
    UInt8.le_iff_toNat_le, UInt8.le_iff_toNat_le, toNat_toUInt8 h]
  exact hdigit

theorem utf8EncodeChar_digit (h : c.isDigit = true) :
    String.utf8EncodeChar c = [c.toUInt8] := by
  have hhigh : c.toNat ≤ 57 := (Char.isDigit_iff_toNat.mp h).2
  have hval : c.val.toNat = c.toNat := rfl
  rw [String.utf8EncodeChar, if_pos (by omega), Char.toUInt8, hval]
  rfl

theorem flatMap_utf8EncodeChar (h : ∀ c ∈ cs, c.isDigit = true) :
    cs.flatMap String.utf8EncodeChar = cs.map Char.toUInt8 := by
  induction cs with
  | nil => rfl
  | cons c cs ih =>
      obtain ⟨hc, hcs⟩ := List.forall_mem_cons.mp h
      rw [List.flatMap_cons, utf8EncodeChar_digit hc, ih hcs, List.map_cons,
        List.singleton_append]

theorem isDigit_of_mem_toDigits (h : c ∈ Nat.toDigits 10 n) : c.isDigit = true :=
  Nat.isDigit_of_mem_toDigits (by decide) (by decide) h

/-- The digits of a number, as bytes. -/
theorem bytesOf_repr (n : Nat) : bytesOf n.repr = (Nat.toDigits 10 n).map Char.toUInt8 := by
  rw [bytesOf_eq, Nat.toList_repr, flatMap_utf8EncodeChar fun _ => isDigit_of_mem_toDigits]

theorem le_ofDigitChars (cs : List Char) (n : Nat) : n ≤ Nat.ofDigitChars 10 cs n := by
  induction cs generalizing n with
  | nil => exact Nat.le_refl n
  | cons c cs ih =>
      rw [Nat.ofDigitChars_cons]
      exact Nat.le_trans (by omega) (ih _)

/-- Digits whose number fits are all kept. -/
theorem readDigits_digits (k : Nat) (hcs : ∀ c ∈ cs, c.isDigit = true)
    (hfits : Nat.ofDigitChars 10 cs n < UInt64.size) (hr : NoDigit r) :
    readDigits n k 0 (cs.map Char.toUInt8 ++ r) =
      ⟨Nat.ofDigitChars 10 cs n, k + cs.length, 0, r⟩ := by
  induction cs generalizing n k with
  | nil =>
      cases r with
      | nil => rfl
      | cons b r =>
          rw [List.map_nil, List.nil_append, readDigits, if_neg (by simp [hr b rfl])]
          rfl
  | cons c cs ih =>
      obtain ⟨hc, hcs⟩ := List.forall_mem_cons.mp hcs
      have hnext : n * 10 + (c.toUInt8.toNat - Byte.zero.toNat) =
          10 * n + (c.toNat - '0'.toNat) := by
        rw [toNat_toUInt8 hc, Nat.mul_comm]
        rfl
      rw [Nat.ofDigitChars_cons] at hfits
      have hlt := Nat.lt_of_le_of_lt (le_ofDigitChars cs _) hfits
      rw [List.map_cons, List.cons_append, readDigits, if_pos (isDigit_toUInt8 hc)]
      dsimp only
      rw [hnext, if_pos ⟨rfl, hlt⟩, ih _ hcs hfits, Nat.ofDigitChars_cons, List.length_cons,
        Nat.add_right_comm, Nat.add_assoc k]

/-- A zero in front is the only digit. -/
theorem exists_toDigits (n : Nat) :
    ∃ c cs, Nat.toDigits 10 n = c :: cs ∧ (c = '0' → n = 0 ∧ cs = []) := by
  induction n using Nat.strongRecOn with
  | _ n ih =>
      by_cases hone : n < 10
      · have hall : ∀ n < 10, n.digitChar = '0' → n = 0 := by decide
        exact ⟨_, [], Nat.toDigits_of_lt_base hone, fun hc => ⟨hall n hone hc, rfl⟩⟩
      · obtain ⟨c, cs, hdigits, hzero⟩ := ih (n / 10) (by omega)
        refine ⟨c, cs ++ [(n % 10).digitChar], ?_, fun hc => ?_⟩
        · rw [Nat.toDigits_of_base_le (by decide) (by omega), hdigits, List.cons_append]
        · have hfront := (hzero hc).1
          omega

end

/-! ## Numerals -/

section

variable {negative : Bool} {n : Nat} {r : Bytes}

theorem readAfterWhole_eq {d : Digits} (h : Follows d.rest) :
    readAfterWhole negative d = wholeNumber negative d := by
  cases hd : d.rest with
  | nil => simp [readAfterWhole, hd]
  | cons b t =>
      obtain ⟨-, hpoint, hmark⟩ := canFollow_spec (h b (by rw [hd]; rfl))
      simp [readAfterWhole, hd, hpoint, hmark]

theorem readMagnitude_digits {b : UInt8} {s : Bytes} (hb : Byte.isDigit b = true)
    (hzero : b = Byte.zero → NoDigit s) :
    readMagnitude negative (b :: s) = readAfterWhole negative (readDigits 0 0 0 (b :: s)) := by
  have hfront : (b == Byte.zero && s.head?.any Byte.isDigit) = false := by
    by_cases hb : b = Byte.zero
    · cases s with
      | nil => rw [List.head?_nil, Option.any_none, Bool.and_false]
      | cons c s => rw [List.head?_cons, Option.any_some, hzero hb c rfl, Bool.and_false]
    · rw [beq_false_of_ne hb, Bool.false_and]
  rw [readMagnitude, if_neg (by simp [hb]), if_neg (by simp [hfront])]

/-- The digits of a number that fits are read as this number. -/
theorem exists_readMagnitude (negative : Bool) (hn : n < UInt64.size) (hr : Follows r) :
    ∃ k, readMagnitude negative (bytesOf n.repr ++ r) = wholeNumber negative ⟨n, k, 0, r⟩ := by
  obtain ⟨c, cs, hdigits, hzero⟩ := exists_toDigits n
  have hread := readDigits_digits (n := 0) 0 (fun c => isDigit_of_mem_toDigits (n := n))
    (by rwa [Nat.ofDigitChars_ten_toDigits]) hr.noDigit
  have hc : c.isDigit = true :=
    isDigit_of_mem_toDigits (n := n) (hdigits ▸ List.mem_cons_self)
  have hrest : c.toUInt8 = Byte.zero → NoDigit (cs.map Char.toUInt8 ++ r) := by
    intro heq
    have hchar : c.toNat = '0'.toNat := by rw [← toNat_toUInt8 hc, heq]; rfl
    rw [(hzero (Char.toNat_inj.mp hchar)).2]
    exact hr.noDigit
  rw [Nat.ofDigitChars_ten_toDigits, hdigits] at hread
  refine ⟨0 + (c :: cs).length, ?_⟩
  rw [bytesOf_repr, hdigits, List.map_cons, List.cons_append,
    readMagnitude_digits (isDigit_toUInt8 hc) hrest, ← List.cons_append, ← List.map_cons, hread,
    readAfterWhole_eq hr]

/-- Whole numbers of 64 bits, with or without a sign. -/
def Fits (n : Int) : Prop := -9223372036854775808 ≤ n ∧ n < 18446744073709551616

theorem bytesOf_toString (n : Int) : bytesOf (toString n) =
    if 0 ≤ n then bytesOf n.toNat.repr else Byte.minus :: bytesOf (-n).toNat.repr := by
  rw [Int.toString_eq_repr, Int.repr_eq_if]
  split
  · rfl
  · exact bytesOf_append "-" _

theorem exists_repr (n : Nat) : ∃ b s, bytesOf n.repr = b :: s ∧ Byte.isDigit b = true := by
  obtain ⟨c, cs, hdigits, -⟩ := exists_toDigits n
  refine ⟨_, _, by rw [bytesOf_repr, hdigits, List.map_cons], isDigit_toUInt8 ?_⟩
  exact isDigit_of_mem_toDigits (n := n) (hdigits ▸ List.mem_cons_self)

theorem exists_numeral (n : Int) :
    ∃ b s, bytesOf (toString n) = b :: s ∧ (b = Byte.minus ∨ Byte.isDigit b = true) := by
  rw [bytesOf_toString]
  split
  · obtain ⟨b, s, hbytes, hb⟩ := exists_repr n.toNat
    exact ⟨b, s, hbytes, .inr hb⟩
  · exact ⟨_, _, rfl, .inl rfl⟩

/-- A whole number is read off its numeral. -/
theorem readNumber_numeral {n : Int} {b : UInt8} {s : Bytes} (hn : Fits n)
    (hbytes : bytesOf (toString n) = b :: s) (hr : Follows r) :
    readNumber b (s ++ r) = .ok (.whole n, r) := by
  obtain ⟨hlow, hhigh⟩ := hn
  rw [bytesOf_toString] at hbytes
  split at hbytes
  · rename_i hsign
    obtain ⟨c, t, hfront, hc⟩ := exists_repr n.toNat
    obtain ⟨rfl, rfl⟩ := List.cons.inj (hfront.symm.trans hbytes)
    obtain ⟨k, hread⟩ := exists_readMagnitude (n := n.toNat) false
      (by rw [UInt64.size]; omega) hr
    have hplain : (c == Byte.minus) = false := (Bool.or_eq_false_iff.mp (isDigit_spec hc)).2
    rw [readNumber, hplain, if_neg Bool.false_ne_true, ← List.cons_append, ← hbytes, hread,
      wholeNumber, if_neg (by simp), if_pos (by simp), Int.toNat_of_nonneg hsign]
  · rename_i hsign
    obtain ⟨rfl, rfl⟩ := List.cons.inj hbytes
    obtain ⟨k, hread⟩ := exists_readMagnitude (n := (-n).toNat) true
      (by rw [UInt64.size]; omega) hr
    have hvalue : -((-n).toNat : Int) = n := by omega
    have hbound : 0 < (-n).toNat ∧ (-n).toNat ≤ 9223372036854775808 := by omega
    rw [readNumber, if_pos (by decide), hread, wholeNumber, if_neg (by simp), if_neg (by simp),
      if_pos hbound, hvalue]

end

end QueryAdmission.Json
