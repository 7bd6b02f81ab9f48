/-!
# Blank — the blank characters of Unicode, and trimming

`isBlank` is the Unicode property White_Space: twenty-five characters, as a table of ranges.
-/

namespace Prefetch.Text

/-- The ranges of code points with the Unicode property White_Space, ends included. -/
def blankRanges : List (Nat × Nat) :=
  [(0x0009, 0x000D), (0x0020, 0x0020), (0x0085, 0x0085), (0x00A0, 0x00A0), (0x1680, 0x1680),
    (0x2000, 0x200A), (0x2028, 0x2029), (0x202F, 0x202F), (0x205F, 0x205F), (0x3000, 0x3000)]

/-- A character is blank when its code point lies in one of the ranges. -/
def isBlank (c : Char) : Bool :=
  blankRanges.any fun r => r.1 ≤ c.toNat && c.toNat ≤ r.2

/-- A text of blanks only; the empty text is one. -/
def allBlank (s : String) : Bool :=
  s.toList.all isBlank

/-- Drops the blanks at both ends. -/
def trim (cs : List Char) : List Char :=
  ((cs.dropWhile isBlank).reverse.dropWhile isBlank).reverse

end Prefetch.Text
