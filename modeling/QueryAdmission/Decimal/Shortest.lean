/-! The shortest decimal that reads back as a given binary floating-point number.

A positive number `m * 2 ^ q` is read back from every decimal in its rounding interval. On the
grid of the multiples of `10 ^ e` the interval is met by a neighbour of the number or not at all,
so the coarsest grid that meets it gives the fewest digits. -/

namespace QueryAdmission

/-- The number `digits * 10 ^ exponent`. -/
structure Decimal where
  digits : Nat
  exponent : Int
  deriving DecidableEq, Repr

namespace Decimal

/-- A positive number `m * 2 ^ q`. `narrow` holds at a power of two, where the number below is
only half as far away as the number above. -/
structure Binary where
  m : Nat
  q : Int
  narrow : Bool

/-- `n * 2 ^ k * 10 ^ d` as a fraction. -/
def fraction (n : Nat) (k d : Int) : Nat × Nat :=
  (n * Nat.pow 2 k.toNat * Nat.pow 10 d.toNat, Nat.pow 2 (-k).toNat * Nat.pow 10 (-d).toNat)

/-- Whether `d * 10 ^ e` is rounded to the number. The ends of the interval belong to it when the
significand is even. -/
def Binary.readsBack (x : Binary) (e : Int) (d : Nat) : Bool :=
  let low := fraction (4 * x.m - if x.narrow then 1 else 2) (x.q - 2) (-e)
  let high := fraction (4 * x.m + 2) (x.q - 2) (-e)
  if x.m % 2 = 0 then low.1 ≤ d * low.2 && d * high.2 ≤ high.1
  else low.1 < d * low.2 && d * high.2 < high.1

/-- The multiple of `10 ^ e` nearest to the number among those that read back. -/
def Binary.onGrid? (x : Binary) (e : Int) : Option Nat :=
  let (num, den) := fraction x.m x.q (-e)
  let below := num / den
  let above := below + 1
  match 0 < below && x.readsBack e below, x.readsBack e above with
  | false, false => none
  | true, false => some below
  | false, true => some above
  | true, true =>
    let twice := 2 * (num % den)
    some (if twice < den || (twice == den && below % 2 == 0) then below else above)

/-- The first grid with a hit, from `10 ^ e` downwards over `n` grids. -/
def Binary.search (x : Binary) : Nat → Int → Option Decimal
  | 0, _ => none
  | n + 1, e =>
    match x.onGrid? e with
    | some d => some ⟨d, e⟩
    | none => x.search n (e - 1)

/-- The shortest decimal that reads back. The search starts above the number's first digit; at
exponent `q` at the latest the number itself lies on the grid. -/
def Binary.shortest (x : Binary) : Decimal :=
  let whole := x.m * Nat.pow 2 x.q.toNat / Nat.pow 2 (-x.q).toNat
  let start := (Nat.toDigits 10 whole).length
  ((x.search (start + 1 + (-x.q).toNat) start).getD ⟨x.m, 0⟩)

/-- The number of fractions that the significand of a double has at one exponent. -/
def fractionSpan : Nat := 4503599627370496

/-- The parts of a finite double that is not zero, its sign left out. -/
def ofDouble? (x : Float) : Option Binary :=
  let bits := x.toBits.toNat
  let field : Nat := bits / fractionSpan % 2048
  let fraction : Nat := bits % fractionSpan
  if field = 2047 ∨ (field = 0 ∧ fraction = 0) then none
  else if field = 0 then some ⟨fraction, -1074, false⟩
  else some ⟨fractionSpan + fraction, (field : Int) - 1075, fraction = 0 && 1 < field⟩

end Decimal

end QueryAdmission
