import Prefetch.Decimal.Shortest

/-!
# Layout — how the digits of a double are set

A double is written with its shortest digits.  The point is set among them when it stands at most
sixteen places to the right of the first digit or at most four zeros to its left, and a whole number
then ends in `.0`; every other number takes an exponent, as in `1.5e16` and `1e-7`.
-/

namespace Prefetch.Decimal

/-- Places of the point, counted from the first digit, between which it is set among the digits. -/
structure PointRange where
  least : Int
  most : Int

/-- From four zeros after the point to sixteen digits before it. -/
def positional : PointRange := ⟨-4, 16⟩

/-- So many zeros. -/
def zeros (n : Nat) : List Char := List.replicate n '0'

/-- The digits with their point. -/
def Digits.layout (d : Digits) : List Char :=
  let ds := Nat.toDigits 10 d.digits
  let point : Int := ds.length + d.exponent
  if 0 ≤ d.exponent ∧ point ≤ positional.most then
    ds ++ zeros d.exponent.toNat ++ ['.', '0']
  else if 0 < point ∧ point ≤ positional.most then
    ds.take point.toNat ++ '.' :: ds.drop point.toNat
  else if positional.least ≤ point ∧ point ≤ 0 then
    '0' :: '.' :: zeros (-point).toNat ++ ds
  else
    ds.take 1 ++ (if ds.length = 1 then [] else '.' :: ds.drop 1) ++
      'e' :: (toString (point - 1)).toList

/-- The text of a finite double by its bits. -/
def textOfBits (bits : Nat) : List Char :=
  let sign := if bits / Nat.pow 2 63 % 2 = 1 then ['-'] else []
  let b := Binary.ofBits bits
  if b.m = 0 then sign ++ ['0', '.', '0'] else sign ++ (shortest b).normal.layout

end Prefetch.Decimal
