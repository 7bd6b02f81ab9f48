import Prefetch.Selection.Token

/-!
# Identifier — names of tables and columns in query text

A name is accepted when it is not empty, has at most 63 bytes, holds name characters only and does
not begin with a digit.  Query text quotes every name, accepted or not: between double quotes, with
every double quote in the name written twice.

* `check_eq_ok_iff` — the four rules are all there is to check.
-/

namespace Prefetch.Identifier

/-- Why a name is not accepted. -/
inductive Fault where
  /-- The empty name. -/
  | empty
  /-- More bytes than `maxLength`. -/
  | tooLong (name : String)
  /-- The first character that is no name character. -/
  | badCharacter (name : String) (c : Char)
  /-- A digit in front. -/
  | leadingDigit (name : String)
  deriving DecidableEq

/-- The most bytes a name may have. -/
def maxLength : Nat := 63

/-- A fault in words. -/
def Fault.message : Fault → String
  | empty => "Identifier cannot be empty"
  | tooLong name =>
    String.join ["Identifier '", name, "' is too long (max ", toString maxLength, " characters)"]
  | badCharacter name c =>
    String.join ["Identifier '", name, "' contains invalid character '", c.toString, "'"]
  | leadingDigit name => String.join ["Identifier '", name, "' cannot start with a number"]

/-- Accepts a name, or says what is wrong with it first: length before characters before the digit
in front. -/
def check (name : String) : Except Fault Unit :=
  match name.toList with
  | [] => .error .empty
  | first :: rest =>
    if name.utf8ByteSize > maxLength then .error (.tooLong name)
    else match (first :: rest).find? fun c => !Selection.isNameChar c with
      | some c => .error (.badCharacter name c)
      | none => if first.isDigit then .error (.leadingDigit name) else .ok ()

theorem check_eq_ok_iff {name : String} :
    check name = .ok () ↔
      name.toList ≠ [] ∧ name.utf8ByteSize ≤ maxLength ∧
        (∀ c ∈ name.toList, Selection.isNameChar c = true) ∧
        ∀ c, name.toList.head? = some c → c.isDigit = false := by
  unfold check
  cases hn : name.toList with
  | nil => simp
  | cons first rest =>
    by_cases hl : name.utf8ByteSize > maxLength
    · simp only [hl, if_true]
      simp only [reduceCtorEq, false_iff, not_and]
      intro _ h
      omega
    · simp only [hl, if_false]
      cases hf : (first :: rest).find? fun c => !Selection.isNameChar c with
      | some c =>
        have hm := List.mem_of_find?_eq_some hf
        have hc := List.find?_some hf
        simp only [reduceCtorEq, false_iff, not_and]
        intro _ _ h
        simp [h c hm] at hc
      | none =>
        have hall := List.find?_eq_none.1 hf
        have hall' : ∀ c ∈ first :: rest, Selection.isNameChar c = true := fun c hc => by
          simpa using hall c hc
        by_cases hd : first.isDigit = true
        · simp [hd]
        · simp only [hd, if_false, true_iff, Bool.false_eq_true]
          refine ⟨by simp, by omega, hall', ?_⟩
          intro c hc
          simp only [List.head?_cons, Option.some.injEq] at hc
          subst hc
          simpa using hd

/-- The characters of a name with every double quote written twice. -/
def doubleQuotes : List Char → List Char
  | [] => []
  | c :: cs => if c = '"' then '"' :: '"' :: doubleQuotes cs else c :: doubleQuotes cs

/-- A name as query text writes it. -/
def quoteChars (name : String) : List Char :=
  '"' :: (doubleQuotes name.toList ++ ['"'])

/-- A column of a table as query text writes it. -/
def columnChars (table column : String) : List Char :=
  quoteChars table ++ '.' :: quoteChars column

/-- The quoted name. -/
def quote (name : String) : String := String.ofList (quoteChars name)

/-- The quoted column of a table. -/
def column (table name : String) : String := String.ofList (columnChars table name)

end Prefetch.Identifier
