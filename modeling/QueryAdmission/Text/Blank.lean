/-! White space as Unicode defines it, and its removal from both ends of a text. -/

namespace QueryAdmission.Text

/-- The characters that have the Unicode property `White_Space`. -/
def isBlank (c : Char) : Bool :=
  let n := c.toNat
  (0x09 ≤ n && n ≤ 0x0D) || n == 0x20 || n == 0x85 || n == 0xA0 || n == 0x1680 ||
    (0x2000 ≤ n && n ≤ 0x200A) || n == 0x2028 || n == 0x2029 || n == 0x202F ||
    n == 0x205F || n == 0x3000

/-- The characters from the first that is not blank to the last that is not blank. -/
def trimChars (cs : List Char) : List Char :=
  ((cs.dropWhile isBlank).reverse.dropWhile isBlank).reverse

/-- A text that trimming would leave empty. -/
def isBlankText (s : String) : Bool :=
  s.toList.all isBlank

theorem trimChars_eq_nil_iff {cs : List Char} :
    trimChars cs = [] ↔ ∀ c ∈ cs, isBlank c = true := by
  have blank : ∀ l : List Char, l.dropWhile isBlank = [] ↔ ∀ c ∈ l, isBlank c = true := by
    intro l
    induction l with
    | nil => simp
    | cons c l ih => by_cases h : isBlank c = true <;> simp [h, ih]
  constructor
  · intro h
    have h' : (cs.dropWhile isBlank).reverse.dropWhile isBlank = [] := by
      simpa [trimChars] using h
    cases hd : cs.dropWhile isBlank with
    | nil => exact (blank cs).1 hd
    | cons c l =>
      have hc : isBlank c = true := (blank _).1 h' c (by simp [hd])
      have := List.head?_dropWhile_not isBlank cs
      simp [hd, hc] at this
  · intro h
    simp [trimChars, (blank cs).2 h]

theorem isBlankText_iff {s : String} : isBlankText s = true ↔ trimChars s.toList = [] := by
  simp [isBlankText, trimChars_eq_nil_iff]

end QueryAdmission.Text
