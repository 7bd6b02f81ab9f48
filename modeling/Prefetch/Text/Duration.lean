/-!
# Duration — how a span of time is written

A span is a number of milliseconds.  Nothing is `0ns`, less than a second is counted in
milliseconds, and from one second on it is counted in seconds with at most three decimals and no
zero at the end: `1s`, `1.5s`, `1.01s`, `1234.567s`.
-/

namespace Prefetch.Text

/-- The three decimals of a fraction of a second, without the zeros at the end. -/
def decimalsOfMillis (ms : Nat) : List Char :=
  let digits := Nat.toDigits 10 ms
  (List.replicate (3 - digits.length) '0' ++ digits).reverse.dropWhile (· == '0') |>.reverse

/-- The text of a span of `ms` milliseconds. -/
def duration (ms : Nat) : String :=
  if ms = 0 then "0ns"
  else if ms < 1000 then String.join [toString ms, "ms"]
  else if ms % 1000 = 0 then String.join [toString (ms / 1000), "s"]
  else
    String.join [toString (ms / 1000), ".", String.ofList (decimalsOfMillis (ms % 1000)), "s"]

end Prefetch.Text
