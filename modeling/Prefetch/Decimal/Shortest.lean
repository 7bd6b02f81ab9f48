/-!
# Shortest — the fewest decimal digits that read back as a binary double

A finite double is `m · 2^q` with whole `m` and `q`.  The reals that round to it form an interval
around it, half a unit wide to each side (a quarter unit below a power of two); its ends belong to
it when `m` is even.  For one digit, two digits and so on up to seventeen, the two neighbours of
the value on that decimal grid are tried, in exact arithmetic.  The first grid with a neighbour in
the interval gives the digits, of two the nearer one, and the even one if both are as near.
-/

namespace Prefetch.Decimal

/-- A positive binary fraction `m · 2^q`; `tight` when the doubles below it lie twice as dense. -/
structure Binary where
  m : Nat
  q : Int
  tight : Bool
  deriving DecidableEq

/-- A positive decimal `digits · 10^exponent`. -/
structure Digits where
  digits : Nat
  exponent : Int
  deriving DecidableEq

/-- The magnitude of a finite double by its bits; zero has `m = 0`. -/
def Binary.ofBits (bits : Nat) : Binary :=
  let fraction : Nat := bits % Nat.pow 2 52
  let exponent : Nat := bits / Nat.pow 2 52 % Nat.pow 2 11
  if exponent = 0 then ⟨fraction, -1074, false⟩
  else ⟨fraction + Nat.pow 2 52, (exponent : Int) - 1075, fraction = 0 && 1 < exponent⟩

/-- Four times the value as a quotient `num / den` of whole numbers. -/
def Binary.quotient (b : Binary) (quarters : Nat) : Nat × Nat :=
  (quarters * Nat.pow 2 b.q.toNat, 4 * Nat.pow 2 (-b.q).toNat)

/-- Whether `a · 10^k` lies in the interval of the reals that round to `b`: with everything
multiplied by common denominators, between the quarters `4m - 2` (or `4m - 1`) and `4m + 2`. -/
def fits (b : Binary) (a : Nat) (k : Int) : Bool :=
  let (lower, den) := b.quotient (if b.tight then 4 * b.m - 1 else 4 * b.m - 2)
  let (upper, _) := b.quotient (4 * b.m + 2)
  let value := a * Nat.pow 10 k.toNat * den
  let scale := Nat.pow 10 (-k).toNat
  if b.m % 2 = 0 then lower * scale ≤ value && value ≤ upper * scale
  else lower * scale < value && value < upper * scale

/-- The greatest whole `a` with `a · 10^k` at most the value. -/
def below (b : Binary) (k : Int) : Nat :=
  let (num, den) := b.quotient (4 * b.m)
  num * Nat.pow 10 (-k).toNat / (den * Nat.pow 10 k.toNat)

/-- Of `a` and `a + 1` the one whose decimal lies nearer to the value; the even one on a tie. -/
def nearer (b : Binary) (a : Nat) (k : Int) : Nat :=
  let (num, den) := b.quotient (4 * b.m)
  let twice := 2 * num * Nat.pow 10 (-k).toNat
  let middle := (2 * a + 1) * Nat.pow 10 k.toNat * den
  if twice < middle then a
  else if middle < twice then a + 1
  else if a % 2 = 0 then a else a + 1

/-- The neighbour of the value on the grid `10^k` that rounds to it, if there is one. -/
def onGrid (b : Binary) (k : Int) : Option Digits :=
  let a := below b k
  match fits b a k && 0 < a, fits b (a + 1) k with
  | true, true => some ⟨nearer b a k, k⟩
  | true, false => some ⟨a, k⟩
  | false, true => some ⟨a + 1, k⟩
  | false, false => none

/-- How many zeros follow the decimal point of `num / den`, below one: the least `j` with
`den ≤ num · 10^(j + 1)`, tried `fuel` times. -/
def leadingZeros (num den : Nat) : Nat → Nat
  | 0 => 0
  | fuel + 1 => if den ≤ num * 10 then 0 else leadingZeros (num * 10) den fuel + 1

/-- The place of the decimal point: the value lies between `10^(magnitude - 1)` and `10^magnitude`.
No double is so small that more than 324 zeros follow the point. -/
def magnitude (b : Binary) : Int :=
  let (num, den) := b.quotient (4 * b.m)
  if den ≤ num then (Nat.toDigits 10 (num / den)).length
  else -(leadingZeros num den 324 : Int)

/-- The shortest digits of a positive value. -/
def shortest (b : Binary) : Digits :=
  let top := magnitude b
  ((List.range 17).findSome? fun n : Nat => onGrid b (top - (n + 1 : Nat))).getD ⟨below b (top - 17), top - 17⟩

/-- Drops the zeros at the end of the digits; a grid of one digit may answer ten. -/
def Digits.normal (d : Digits) : Digits :=
  if d.digits = 10 then ⟨1, d.exponent + 1⟩ else d

end Prefetch.Decimal
