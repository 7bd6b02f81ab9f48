import Prefetch.Query.Sql
import Prefetch.Text.Numeral

/-!
# Scanning — a statement reads back as its skeleton

Query text is scanned from left to right.  A double quote opens a quoted name; inside, two double
quotes are one that belongs to the name, and a single one closes it.  A `$` and the digits after it
are a placeholder.  Outside quotes letters, digits and underscores make words, blanks only separate,
and every other character is a mark of its own.

A statement that is scanned like this gives its skeleton: fixed words and marks, the names just as
they are in the query, and one placeholder for each parameter.  No name, whatever it is made of,
ends early or is taken for anything but a name, and no key has a part in the text.

* `run_append` — text is scanned piece by piece.
* `run_quoteChars` — a quoted name is read back, and what follows decides that it is over.
* `scan_fragments` — fragments that are parted by text are scanned one by one.
* `parted_statement` — those of a statement are.
* `scan_sql` — so a statement is scanned as its skeleton.
-/

namespace Prefetch.Query

/-! ### The scan -/

/-- What query text is made of. -/
inductive Token where
  /-- A word outside quotes. -/
  | word (s : String)
  /-- A quoted name, without its quotes. -/
  | name (s : String)
  /-- The place of a parameter. -/
  | placeholder (n : Nat)
  /-- Any other character. -/
  | mark (c : Char)
  deriving DecidableEq

/-- What is open between two characters. -/
inductive Scan where
  /-- Nothing. -/
  | between
  /-- A word. -/
  | word (letters : List Char)
  /-- A placeholder. -/
  | placeholder (digits : List Char)
  /-- A name, with its closing quote still to come. -/
  | name (letters : List Char)
  /-- A name with a quote in it that closes the name, unless another one follows. -/
  | quote (letters : List Char)
  deriving DecidableEq

/-- The characters of words. -/
def isWordChar (c : Char) : Bool :=
  c.isAlphanum || c == '_'

namespace Scan

/-- What is complete if the text ends here; a name that is not closed has no end. -/
def close : Scan → Option (List Token)
  | between => some []
  | word letters => some [.word (String.ofList letters)]
  | placeholder digits => some [.placeholder (Text.valueOfDigits digits)]
  | name _ => none
  | quote letters => some [.name (String.ofList letters)]

/-- A character with nothing open before it. -/
def first (c : Char) : List Token × Scan :=
  if c.isWhitespace then ([], between)
  else if c = '"' then ([], name [])
  else if c = '$' then ([], placeholder [])
  else if isWordChar c then ([], word [c])
  else ([.mark c], between)

/-- A character with a complete token before it. -/
def next (t : Token) (c : Char) : List Token × Scan :=
  (t :: (first c).1, (first c).2)

/-- One character: the tokens that are complete before what it belongs to, and what is open then. -/
def step : Scan → Char → List Token × Scan
  | between, c => first c
  | word letters, c =>
    if isWordChar c then ([], word (letters ++ [c])) else next (.word (String.ofList letters)) c
  | placeholder digits, c =>
    if c.isDigit then ([], placeholder (digits ++ [c]))
    else next (.placeholder (Text.valueOfDigits digits)) c
  | name letters, c => if c = '"' then ([], quote letters) else ([], name (letters ++ [c]))
  | quote letters, c =>
    if c = '"' then ([], name (letters ++ [c])) else next (.name (String.ofList letters)) c

/-- Some characters, one after the other. -/
def run : Scan → List Char → List Token × Scan
  | st, [] => ([], st)
  | st, c :: cs => ((st.step c).1 ++ (run (st.step c).2 cs).1, (run (st.step c).2 cs).2)

/-- The tokens of a text that begins with something open. -/
def finish (st : Scan) (cs : List Char) : Option (List Token) :=
  (st.run cs).2.close.map ((st.run cs).1 ++ ·)

end Scan

/-- The tokens of query text; a text with a name that is not closed has none. -/
def scan (text : String) : Option (List Token) :=
  Scan.between.finish text.toList

/-! ### Piece by piece -/

namespace Scan

theorem run_append (st : Scan) (cs ds : List Char) :
    st.run (cs ++ ds) =
      ((st.run cs).1 ++ ((st.run cs).2.run ds).1, ((st.run cs).2.run ds).2) := by
  induction cs generalizing st with
  | nil => rfl
  | cons c cs ih => simp [run, ih, List.append_assoc]

theorem finish_append (st : Scan) (cs ds : List Char) :
    st.finish (cs ++ ds) = ((st.run cs).2.finish ds).map ((st.run cs).1 ++ ·) := by
  simp only [finish, run_append, Option.map_map]
  congr 1
  funext ts
  exact List.append_assoc _ _ _

/-- A character that belongs to no name, word or placeholder closes whichever is open. -/
theorem step_of_close {st : Scan} {ts : List Token} (h : st.close = some ts) {c : Char}
    (hq : c ≠ '"') (hw : isWordChar c = false) : st.step c = (ts ++ (first c).1, (first c).2) := by
  cases st with
  | between =>
    obtain rfl := Option.some.inj h
    rfl
  | word letters =>
    obtain rfl := Option.some.inj h
    simp [step, hw, next]
  | placeholder digits =>
    obtain rfl := Option.some.inj h
    have hd : c.isDigit = false := by
      simp only [isWordChar, Char.isAlphanum, Bool.or_eq_false_iff] at hw
      exact hw.1.2
    simp [step, hd, next]
  | name letters => cases h
  | quote letters =>
    obtain rfl := Option.some.inj h
    simp [step, hq, next]

theorem run_of_close {st : Scan} {ts : List Token} (h : st.close = some ts) {c : Char}
    (hq : c ≠ '"') (hw : isWordChar c = false) (cs : List Char) :
    st.run (c :: cs) = (ts ++ (between.run (c :: cs)).1, (between.run (c :: cs)).2) := by
  have hfirst : between.step c = first c := rfl
  simp only [run, step_of_close h hq hw, hfirst, List.append_assoc]

/-- Inside a name the characters of a name are read back, its double quotes one for two. -/
theorem run_doubleQuotes (letters cs : List Char) :
    (name letters).run (Identifier.doubleQuotes cs) = ([], name (letters ++ cs)) := by
  induction cs generalizing letters with
  | nil => simp [Identifier.doubleQuotes, run]
  | cons c cs ih =>
    by_cases hc : c = '"'
    · simp [Identifier.doubleQuotes, hc, run, step, ih]
    · simp [Identifier.doubleQuotes, hc, run, step, ih]

/-- A quoted name is read back; it is over as soon as anything but a double quote follows. -/
theorem run_quoteChars (s : String) :
    between.run (Identifier.quoteChars s) = ([], quote s.toList) := by
  have hopen : between.step '"' = ([], name []) := rfl
  simp only [Identifier.quoteChars, run, hopen, run_append, run_doubleQuotes, List.nil_append]
  simp [step]

theorem run_digits {cs : List Char} (h : ∀ c ∈ cs, c.isDigit = true) (digits : List Char) :
    (placeholder digits).run cs = ([], placeholder (digits ++ cs)) := by
  induction cs generalizing digits with
  | nil => simp [run]
  | cons c cs ih =>
    have hc : c.isDigit = true := h c List.mem_cons_self
    simp [run, step, hc, ih fun d hd => h d (List.mem_cons_of_mem c hd)]

theorem run_placeholder (n : Nat) :
    between.run ('$' :: Nat.toDigits 10 n) = ([], placeholder (Nat.toDigits 10 n)) := by
  have hopen : between.step '$' = ([], placeholder []) := rfl
  have hdigits : ∀ c ∈ Nat.toDigits 10 n, c.isDigit = true := fun c hc =>
    Nat.isDigit_of_mem_toDigits (by decide) (by decide) hc
  simp [run, hopen, run_digits hdigits]

end Scan

/-! ### Fragment by fragment -/

namespace Fragment

/-- The tokens of a fragment by itself. -/
def tokens : Fragment → List Token
  | text s => (Scan.between.run s.toList).1
  | name s => [.name s]
  | placeholder n => [.placeholder n]

theorem tokens_name (s : String) : (name s).tokens = [.name s] := rfl

/-- Whether a text leaves nothing open. -/
def isWhole : Fragment → Bool
  | text s => (Scan.between.run s.toList).2 = .between
  | name _ => true
  | placeholder _ => true

/-- Whether a fragment is over where another one begins: nothing is open after a text, and a text
that begins with neither a quote nor a letter or digit closes what is open. -/
def endsBefore : Fragment → Fragment → Bool
  | text _, _ => true
  | _, text s => s.toList.head?.any fun c => c != '"' && !isWordChar c
  | _, _ => false

/-- Whether every fragment is whole and over where the next one begins. -/
def parted : List Fragment → Bool
  | [] => true
  | [f] => f.isWhole
  | f :: g :: fs => f.isWhole && f.endsBefore g && parted (g :: fs)

/-- What is open after a fragment. -/
def after : Fragment → Scan
  | text _ => .between
  | name s => .quote s.toList
  | placeholder n => .placeholder (Nat.toDigits 10 n)

/-- The tokens of a fragment that are complete only when something follows. -/
def held : Fragment → List Token
  | text _ => []
  | name s => [.name s]
  | placeholder n => [.placeholder n]

theorem close_after (f : Fragment) : f.after.close = some f.held := by
  cases f with
  | text s => rfl
  | name s => simp [after, held, Scan.close]
  | placeholder n => simp [after, held, Scan.close, Text.valueOfDigits_toDigits]

/-- A fragment with nothing open before it. -/
theorem run_chars {f : Fragment} (h : f.isWhole = true) :
    ∃ ts, Scan.between.run f.chars = (ts, f.after) ∧ ts ++ f.held = f.tokens := by
  cases f with
  | text s =>
    have hend : (Scan.between.run s.toList).2 = .between := by simpa [isWhole] using h
    exact ⟨_, Prod.ext rfl hend, List.append_nil _⟩
  | name s => exact ⟨[], Scan.run_quoteChars s, rfl⟩
  | placeholder n => exact ⟨[], Scan.run_placeholder n, rfl⟩

/-- A fragment after another one. -/
theorem run_after {f g : Fragment} (hends : f.endsBefore g = true) (h : g.isWhole = true) :
    ∃ ts, f.after.run g.chars = (f.held ++ ts, g.after) ∧ ts ++ g.held = g.tokens := by
  obtain ⟨ts, hrun, htokens⟩ := run_chars h
  refine ⟨ts, ?_, htokens⟩
  by_cases hf : ∃ s, f = text s
  · obtain ⟨s, rfl⟩ := hf
    exact hrun
  · -- only a text may follow, and its first character closes what is open
    obtain ⟨s, rfl⟩ : ∃ s, g = text s := by cases f <;> cases g <;> simp_all [endsBefore]
    have hhead : s.toList.head?.any (fun c => c != '"' && !isWordChar c) = true := by
      cases f with
      | text t => exact absurd ⟨t, rfl⟩ hf
      | name _ => exact hends
      | placeholder _ => exact hends
    change f.after.run s.toList = _
    change Scan.between.run s.toList = _ at hrun
    cases hs : s.toList with
    | nil => simp [hs] at hhead
    | cons c cs =>
      rw [hs] at hrun hhead
      obtain ⟨hq, hw⟩ : c ≠ '"' ∧ isWordChar c = false := by simpa using hhead
      rw [Scan.run_of_close f.close_after hq hw, hrun]

theorem finish_after {f : Fragment} {fs : List Fragment} (h : parted (f :: fs) = true) :
    f.after.finish (fs.flatMap chars) = some (f.held ++ fs.flatMap tokens) := by
  induction fs generalizing f with
  | nil => simp [Scan.finish, Scan.run, close_after]
  | cons g fs ih =>
    obtain ⟨⟨hf, hends⟩, hrest⟩ : (f.isWhole = true ∧ f.endsBefore g = true) ∧
        parted (g :: fs) = true := by simpa [parted] using h
    have hg : g.isWhole = true := by
      cases fs with
      | nil => exact hrest
      | cons _ _ => simp only [parted, Bool.and_eq_true] at hrest; exact hrest.1.1
    obtain ⟨ts, hrun, htokens⟩ := run_after hends hg
    simp only [List.flatMap_cons, Scan.finish_append, hrun, ih hrest, Option.map_some, ← htokens,
      List.append_assoc]

end Fragment

/-- Fragments that are parted are scanned one by one. -/
theorem scan_fragments {fs : List Fragment} (h : Fragment.parted fs = true) :
    scan (String.ofList (fs.flatMap Fragment.chars)) = some (fs.flatMap Fragment.tokens) := by
  have hstart : Fragment.parted (.text "" :: fs) = true := by
    cases fs with
    | nil => rfl
    | cons f fs => rw [Fragment.parted, h, Bool.and_true]; rfl
  rw [scan, String.toList_ofList]
  exact Fragment.finish_after hstart

/-! ### Statements -/

/-- The tokens of a column with its table. -/
def columnTokens (table column : String) : List Token :=
  [.name table, .mark '.', .name column]

/-- The tokens of so many placeholders between parentheses, compared with a text. -/
def keyTokens (count : Nat) : List Token :=
  [.mark ':', .mark ':', .word "text", .word "IN", .mark '('] ++
    ((List.range' 1 count).map Token.placeholder).intersperse (.mark ',') ++ [.mark ')']

/-- The tokens of a statement: only the names come from the query, and only the number of
placeholders from its keys. -/
def skeleton (q : Query) : List Token :=
  match q.link with
  | none =>
    [.word "SELECT", .name q.table, .mark '.', .mark '*', .word "FROM", .name q.table,
      .word "WHERE"] ++ columnTokens q.table q.keyColumn ++ keyTokens q.parameters.length
  | some link =>
    [.word "SELECT", .name q.table, .mark '.', .mark '*', .mark ','] ++
      columnTokens link.table link.ownerColumn ++
      [.word "AS", .name "__eager_owner_key", .word "FROM", .name q.table, .word "INNER",
        .word "JOIN", .name link.table, .word "ON"] ++
      columnTokens link.table link.relatedColumn ++ [.mark '='] ++
      columnTokens q.table link.targetColumn ++ [.word "WHERE"] ++
      columnTokens link.table link.ownerColumn ++ keyTokens q.parameters.length

theorem parted_furtherPlaces (n count : Nat) (m : Nat) :
    Fragment.parted (.placeholder m :: (furtherPlaces n count ++ [.text ")"])) = true := by
  induction count generalizing n m with
  | zero => rfl
  | succ count ih => exact ih (n + 1) n

theorem parted_places (count : Nat) :
    Fragment.parted (.text "::text IN (" :: (places count ++ [.text ")"])) = true := by
  cases count with
  | zero => rfl
  | succ count => exact parted_furtherPlaces 2 count 1

theorem parted_statement (q : Query) (count : Nat) :
    Fragment.parted (q.statement count) = true := by
  unfold statement
  cases q.link with
  | none => exact parted_places count
  | some link => exact parted_places count

theorem tokens_furtherPlaces (n count : Nat) (t : Token) :
    t :: (furtherPlaces n count).flatMap Fragment.tokens =
      (t :: (List.range' n count).map Token.placeholder).intersperse (.mark ',') := by
  induction count generalizing n t with
  | zero => rfl
  | succ count ih =>
    simp only [furtherPlaces, List.flatMap_cons, List.range'_succ, List.map_cons,
      List.intersperse_cons_cons, ← ih]
    rfl

theorem tokens_places (count : Nat) :
    (places count).flatMap Fragment.tokens =
      ((List.range' 1 count).map Token.placeholder).intersperse (.mark ',') := by
  cases count with
  | zero => rfl
  | succ count => exact tokens_furtherPlaces 2 count (.placeholder 1)

/-- The fixed texts of statements. -/
theorem tokens_texts :
    (Fragment.text "SELECT ").tokens = [.word "SELECT"] ∧
      (Fragment.text ".* FROM ").tokens = [.mark '.', .mark '*', .word "FROM"] ∧
      (Fragment.text ".*, ").tokens = [.mark '.', .mark '*', .mark ','] ∧
      (Fragment.text ".").tokens = [.mark '.'] ∧
      (Fragment.text " AS ").tokens = [.word "AS"] ∧
      (Fragment.text " FROM ").tokens = [.word "FROM"] ∧
      (Fragment.text " INNER JOIN ").tokens = [.word "INNER", .word "JOIN"] ∧
      (Fragment.text " ON ").tokens = [.word "ON"] ∧
      (Fragment.text " = ").tokens = [.mark '='] ∧
      (Fragment.text " WHERE ").tokens = [.word "WHERE"] ∧
      (Fragment.text "::text IN (").tokens =
        [.mark ':', .mark ':', .word "text", .word "IN", .mark '('] ∧
      (Fragment.text ")").tokens = [.mark ')'] := by
  decide +kernel

theorem tokens_columnOf (table column : String) :
    (columnOf table column).flatMap Fragment.tokens = columnTokens table column := by
  simp only [columnOf, columnTokens, List.flatMap_cons, List.flatMap_nil, tokens_texts,
    Fragment.tokens_name, List.cons_append, List.nil_append]

theorem tokens_fragments (q : Query) : q.fragments.flatMap Fragment.tokens = q.skeleton := by
  unfold fragments statement skeleton keyTokens
  cases q.link with
  | none =>
    simp only [List.flatMap_append, List.flatMap_cons, List.flatMap_nil, tokens_texts,
      tokens_columnOf, tokens_places, Fragment.tokens_name, List.append_assoc, List.cons_append,
      List.nil_append]
  | some link =>
    simp only [List.flatMap_append, List.flatMap_cons, List.flatMap_nil, tokens_texts,
      tokens_columnOf, tokens_places, Fragment.tokens_name, List.append_assoc, List.cons_append,
      List.nil_append, Association.ownerKeyField]

/-- A statement is scanned as its skeleton, whatever its tables, columns and keys are made of: the
names come back as they are, the placeholders are numbered from one on, one for each parameter, and
the parameters are the texts of the keys that join.  For other keys with as many parameters the
statement stays the same. -/
theorem scan_sql (q : Query) :
    scan q.sql = some q.skeleton ∧
      q.parameters = q.keys.filterMap (fun v => v.joinKey?.map (·.text)) ∧
      ∀ keys, (q.withKeys keys).parameters.length = q.parameters.length →
        (q.withKeys keys).sql = q.sql := by
  refine ⟨?_, ?_, fun keys h => ?_⟩
  · rw [← tokens_fragments, sql]
    exact scan_fragments (parted_statement q q.parameters.length)
  · simp [parameters, joinKeys, List.map_filterMap]
  · rw [sql, fragments_eq_of_parameters h, sql]

/-- A name that looks like the end of its statement, and keys of every kind. -/
theorem scan_sql_join :
    let q : Query := ⟨"tags", "t\" --", "k",
      [.string "a\"b", .null, .number (.whole 7)], some ⟨"j\"\"", "o", "r", "id\""⟩⟩
    let keys : List Value := [.bool true, .array [], .string "$1)"]
    scan q.sql = some q.skeleton ∧ q.parameters = ["a\"b", "7"] ∧
      (q.withKeys keys).parameters.length = q.parameters.length ∧ (q.withKeys keys).sql = q.sql := by
  intro q keys
  have hlength : (q.withKeys keys).parameters.length = q.parameters.length := by rfl
  exact ⟨(scan_sql q).1, by rfl, hlength, (scan_sql q).2.2 keys hlength⟩

end Prefetch.Query
