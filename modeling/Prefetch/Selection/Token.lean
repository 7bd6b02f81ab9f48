import Prefetch.Text.Blank

/-!
# Token — the notation of selections, cut into tokens

A token is the longest run of name characters, a `^` with the digits right after it, or any other
single character.  Blanks separate tokens and are dropped.  Every token keeps its position, counted
in characters.

* `lexFrom_cons_of_grow` / `lexFrom_cons_of_close` — a character either joins the open token or
  closes it: this is the whole rule, one character at a time.
-/

namespace Prefetch.Selection

/-- The characters of relation names. -/
def isNameChar (c : Char) : Bool :=
  c.isAlphanum || c == '_' || c == '$'

/-- What the notation is made of. -/
inductive Token where
  /-- A relation name. -/
  | name (letters : List Char)
  /-- The mark `^` with the digits that follow it. -/
  | caret (digits : List Char)
  /-- Any other character. -/
  | mark (c : Char)
  deriving DecidableEq

/-- A token with the position of its first character. -/
structure Lexeme where
  position : Nat
  token : Token
  deriving DecidableEq

/-- The character that a token begins with. -/
def Token.first : Token → Char
  | .name (c :: _) => c
  | .name [] => ' '
  | .caret _ => '^'
  | .mark c => c

/-- The token with one more character, if that still belongs to it. -/
def Token.grow? : Token → Char → Option Token
  | .name letters, c => if isNameChar c then some (.name (letters ++ [c])) else none
  | .caret digits, c => if c.isDigit then some (.caret (digits ++ [c])) else none
  | .mark _, _ => none

/-- The token that a character opens; a blank opens none. -/
def Token.open? (c : Char) : Option Token :=
  if Text.isBlank c then none
  else if isNameChar c then some (.name [c])
  else if c == '^' then some (.caret [])
  else some (.mark c)

/-- A lexeme with one more character, if that still belongs to it. -/
def Lexeme.grow? (l : Lexeme) (c : Char) : Option Lexeme :=
  (l.token.grow? c).map (Lexeme.mk l.position)

/-- The lexemes of a text from a position on; the pending one may still grow. -/
def lexFrom : Nat → Option Lexeme → List Char → List Lexeme
  | _, pending, [] => pending.toList
  | position, pending, c :: cs =>
    match pending.bind (·.grow? c) with
    | some longer => lexFrom (position + 1) (some longer) cs
    | none =>
      pending.toList ++ lexFrom (position + 1) ((Token.open? c).map (Lexeme.mk position)) cs

/-- The tokens of a text. -/
def lex (s : List Char) : List Lexeme :=
  lexFrom 0 none s

theorem lexFrom_cons_of_grow {position : Nat} {l longer : Lexeme} {c : Char}
    (h : l.grow? c = some longer) (cs : List Char) :
    lexFrom position (some l) (c :: cs) = lexFrom (position + 1) (some longer) cs := by
  simp [lexFrom, h]

theorem lexFrom_cons_of_close {position : Nat} {l : Lexeme} {c : Char}
    (h : l.grow? c = none) (cs : List Char) :
    lexFrom position (some l) (c :: cs) = l :: lexFrom position none (c :: cs) := by
  simp [lexFrom, h]

end Prefetch.Selection
