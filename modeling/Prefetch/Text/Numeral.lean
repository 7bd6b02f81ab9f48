/-!
# Numeral — unsigned numbers in 64 bits, read from decimal text

A numeral is a run of the ten ASCII digits; its value has to fit in 64 bits.  Settings may put one
`+` in front.

* `valueOfDigits_toDigits` — the decimal digits of a number read back as that number.
-/

namespace Prefetch.Text

/-- The largest number that fits in 64 bits: one less than the 64th power of two. -/
def maxWord : Nat := 18446744073709551615

/-- The number that a run of digits denotes; leading zeros count for nothing. -/
def valueOfDigits (ds : List Char) : Nat :=
  Nat.ofDigitChars 10 ds 0

theorem valueOfDigits_toDigits (n : Nat) : valueOfDigits (Nat.toDigits 10 n) = n :=
  Nat.ofDigitChars_toDigits (by decide) (by decide)

/-- The number that a run of digits denotes, if there is a digit and it fits in 64 bits. -/
def word? (ds : List Char) : Option Nat :=
  if ds.isEmpty || !ds.all Char.isDigit then none
  else if valueOfDigits ds ≤ maxWord then some (valueOfDigits ds)
  else none

/-- The same, with one `+` allowed in front. -/
def signedWord? : List Char → Option Nat
  | '+' :: ds => word? ds
  | ds => word? ds

end Prefetch.Text
