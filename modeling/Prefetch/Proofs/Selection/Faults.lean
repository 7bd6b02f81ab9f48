import Prefetch.Proofs.Selection.Stepping

/-!
# Faults — where a text goes wrong

A refused text is refused at one character.  A fault of the notation is reported at the first
character that no ending can make up for; a text that ends too early, at its end or at the innermost
bracket that is still open.  A name that repeats is reported where it begins, and a bound out of
range at its first digit.

* `ReadError.Exact` — where an error of a certain kind belongs.
* `Follows.run` — what is known of the reader and the text it has gone through.
* `parse_error_exact` — the position of every error.
-/

namespace Prefetch.Selection

/-! ### What is wrong, and where -/

/-- Tokens lead to a place for an item, with the names of the siblings before it.  The items of a
group are on the level of the group. -/
inductive Leads : List Token → List String → Prop where
  | start : Leads [] []
  | group {ts : List Token} {names : List String} (is : List Item) (outer : Leads ts names) :
      Leads (ts ++ .mark '[' :: tokensOfBefore is) (names ++ (nodesOfAll is).map (·.label))
  | tail {ts : List Token} {names : List String} (letters : List Char) (outer : Leads ts names) :
      Leads (ts ++ [.name letters, .mark '.']) []

/-- At a position begins a name that a sibling before it has. -/
def Repeats (s : List Char) (position : Nat) (name : String) : Prop :=
  name.toList ≠ [] ∧ name.toList = (s.drop position).takeWhile isNameChar ∧
    ∃ ts siblings, Spells (s.take position) ts ∧ Leads ts siblings ∧ name ∈ siblings

/-- At a position begin the digits of a `^`, and they denote such a number. -/
def BoundAt (s : List Char) (position : Nat) (p : Nat → Prop) : Prop :=
  ∃ i, position = i + 1 ∧ s[i]? = some '^' ∧ (s.drop position).takeWhile Char.isDigit ≠ [] ∧
    p (Text.valueOfDigits ((s.drop position).takeWhile Char.isDigit))

/-- An error stands at the character that it is about. -/
def ReadError.Exact (e : ReadError) (s : List Char) : Prop :=
  match e.fault with
  | .duplicate name => Repeats s e.position name
  | .zeroLimit => BoundAt s e.position fun n => n = 0
  | .hugeLimit => BoundAt s e.position fun n => Text.maxWord < n
  | .unterminatedGroup => (unclosed s).head? = some e.position ∧ Extends s
  | .unexpectedEnd => e.position = s.length ∧ unclosed s = [] ∧ Extends s
  | _ => e.position < s.length ∧ Extends (s.take e.position) ∧
      ¬ Extends (s.take (e.position + 1))

variable {s : List Char} {r r' : Reader} {l : Lexeme} {e : ReadError} {frames outer : List Frame}
  {level before : List Selection} {node : Selection} {name : String} {position : Nat}
  {ts : List Token} {ls pre post : List Lexeme}

theorem exact_of_isFormal (h : e.fault.IsFormal) (hlt : e.position < s.length)
    (hextends : Extends (s.take e.position)) (hstops : ¬ Extends (s.take (e.position + 1))) :
    e.Exact s := by
  obtain ⟨p, fault⟩ := e
  cases fault <;> first | exact h.elim | exact ⟨hlt, hextends, hstops⟩

theorem Opens.leads (h : Opens frames level ts) : Leads ts (level.map (·.label)) := by
  induction h with
  | start => exact .start
  | group opened is outer legal distinct ih =>
    rw [List.map_append]
    exact .group is ih
  | node letters position outer ih => exact .tail letters ih

/-! ### The text that has been gone through -/

/-- At a position of a text begins a name, behind such siblings. -/
def Begins (ls : List Lexeme) (name : String) (position : Nat) (before : List Selection) : Prop :=
  ∃ pre l post letters, ls = pre ++ l :: post ∧ l.position = position ∧ l.token = .name letters ∧
    name = String.ofList letters ∧ Leads (pre.map (·.token)) (before.map (·.label))

/-- The reader has gone through the first of some lexemes. -/
structure Follows (ls pre : List Lexeme) (r : Reader) : Prop where
  reads : Reads r (pre.map (·.token))
  outline : Outline.run ⟨0, .start⟩ (pre.map (·.token)) = some r.outline
  brackets : opened r.frames = pre.foldl bracketOf []
  held : ∀ {name position before}, Holds r name position before → Begins ls name position before
  settled : r.spot = .done → Settled r.frames

theorem Follows.start (ls : List Lexeme) : Follows ls [] .start := by
  refine ⟨.start, rfl, rfl, fun hheld => ?_, nofun⟩
  cases hheld with
  | frame hmem => cases hmem
  | named hspot => cases hspot
  | dotted hspot => cases hspot

/-- Where a name has just been read, its siblings are those on the level. -/
theorem Reads.named_inv (h : Reads r ts) (hspot : r.spot = .named name position) :
    ∃ letters before, ts = before ++ [.name letters] ∧ name = String.ofList letters ∧
      Leads before (r.level.map (·.label)) := by
  cases h with
  | named letters position hopen =>
    obtain ⟨rfl, rfl⟩ := Spot.named.inj hspot
    exact ⟨letters, _, rfl, rfl, hopen.leads⟩
  | start => cases hspot
  | star => cases hspot
  | item _ => cases hspot
  | dotted _ _ _ => cases hspot
  | done _ _ _ _ => cases hspot

/-- One token more. -/
theorem Follows.step (h : Follows ls pre r) (hls : ls = pre ++ l :: post)
    (hstep : r.step l = .ok r') : Follows ls (pre ++ [l]) r' := by
  have hmoves := step_eq_ok h.reads hstep
  have hreads : Reads r' (pre.map (·.token) ++ [l.token]) := h.reads.step hstep
  refine ⟨by rwa [List.map_append], ?_, ?_, fun hheld => ?_, hmoves.settled⟩
  · rw [List.map_append, List.map_singleton, Outline.run_concat, h.outline, Option.bind_some,
      hmoves.outline]
  · rw [List.foldl_append, ← h.brackets, hmoves.brackets]
    rfl
  · rcases hmoves.held hheld with hold | ⟨hspot, rfl, rfl⟩
    · exact h.held hold
    · obtain ⟨letters, before, htokens, hname, hleads⟩ := hreads.named_inv hspot
      obtain ⟨rfl, htoken⟩ := List.append_inj' htokens rfl
      exact ⟨pre, l, post, letters, hls, rfl, (List.cons_eq_cons.1 htoken).1, hname, hleads⟩

/-- A text is gone through to its end, or up to a token that is refused. -/
theorem Follows.run {rest : List Lexeme} (h : Follows ls pre r) (hls : ls = pre ++ rest) :
    match r.run rest with
    | .ok r' => Follows ls ls r'
    | .error e => ∃ pre' l post' r', ls = pre' ++ l :: post' ∧ Follows ls pre' r' ∧
        r'.step l = .error e := by
  induction rest generalizing pre r with
  | nil =>
    obtain rfl : ls = pre := by rw [hls, List.append_nil]
    exact h
  | cons l rest ih =>
    rw [Reader.run]
    cases hstep : r.step l with
    | error e => exact ⟨pre, l, rest, r, hls, h, hstep⟩
    | ok r' => exact ih (h.step hls hstep) (by rw [hls, List.append_assoc, List.singleton_append])

/-! ### Errors -/

theorem Begins.repeats (h : Begins (lex s) name position before)
    (htaken : (find? before name).isSome = true) : Repeats s position name := by
  obtain ⟨pre, l, post, letters, hls, rfl, htoken, rfl, hleads⟩ := h
  obtain ⟨cs, c, rest, hs, hposition, hcs, -⟩ := lex_split hls
  have hlies := liesAt_of_mem_lex (s := s) (l := l) (by simp [hls])
  rw [htoken] at hlies
  refine ⟨by simpa using hlies.1, by simpa using hlies.2, pre.map (·.token),
    before.map (·.label), ?_, hleads, ?_⟩
  · rw [hposition, hs, List.take_left, ← hcs]
    exact spells_lex cs
  · obtain ⟨c, hc⟩ := Option.isSome_iff_exists.1 htaken
    exact List.mem_map.2 ⟨c, List.mem_of_find?_eq_some hc,
      label_of_name (by simpa using List.find?_some hc)⟩

theorem lt_valueOfDigits_of_word? {digits : List Char} (hne : digits ≠ [])
    (hdigits : ∀ c ∈ digits, c.isDigit = true) (h : Text.word? digits = none) :
    Text.maxWord < Text.valueOfDigits digits := by
  have hall : digits.all Char.isDigit = true := List.all_eq_true.2 hdigits
  simpa [Text.word?, hne, hall] using h

theorem boundAt_of_caret {digits : List Char} {p : Nat → Prop} (hl : l ∈ lex s)
    (htoken : l.token = .caret digits) (hne : digits ≠ [])
    (hp : (∀ c ∈ digits, c.isDigit = true) → p (Text.valueOfDigits digits)) :
    BoundAt s (l.position + 1) p := by
  have hlies := liesAt_of_mem_lex hl
  rw [htoken] at hlies
  obtain ⟨hcaret, rfl⟩ := hlies
  exact ⟨l.position, rfl, hcaret, hne, hp fun c hc => List.mem_takeWhile_imp hc⟩

theorem Blames.exact (h : Follows (lex s) pre r) (hls : lex s = pre ++ l :: post)
    (hblames : Blames r l e) : e.Exact s := by
  have hl : l ∈ lex s := by simp [hls]
  obtain ⟨cs, c, rest, hs, hposition, hcs, -⟩ := lex_split hls
  cases hblames with
  | form formal stops =>
    refine exact_of_isFormal formal ?_ ?_ (not_extends_of_outline hls h.outline stops)
    · change l.position < s.length
      rw [hposition, hs, List.length_append, List.length_cons]
      omega
    · rw [hposition, hs, List.take_left]
      exact h.reads.extends (hcs ▸ spells_lex cs)
  | repeated held taken => exact (h.held held).repeats taken
  | zero token nonempty word =>
    exact boundAt_of_caret (p := fun n => n = 0) hl token nonempty fun _ =>
      (word?_eq_some word).1.symm
  | huge token nonempty word =>
    exact boundAt_of_caret (p := fun n => Text.maxWord < n) hl token nonempty fun hdigits =>
      lt_valueOfDigits_of_word? nonempty hdigits word

/-- A text that ends inside a group, or too early. -/
theorem endFault_exact (h : Follows (lex s) (lex s) r) (hopened : opened frames = opened r.frames) :
    (endFault frames s.length).Exact s := by
  have hextends : Extends s := h.reads.extends (spells_lex s)
  have hunclosed : unclosed s = opened frames := by rw [unclosed_eq, hopened, h.brackets]
  unfold endFault
  rw [innermostGroup?_eq]
  split
  · rename_i position hhead
    exact ⟨by rw [hunclosed, hhead], hextends⟩
  · rename_i hhead
    exact ⟨rfl, by rw [hunclosed]; exact List.head?_eq_none_iff.1 hhead, hextends⟩

theorem finishItem_eq_error {length : Nat} (h : finishItem r length = .error e) :
    e = endFault r.frames length := by
  unfold finishItem at h
  split at h
  · cases h
  · exact (Except.error.inj h).symm

theorem finish_exact (h : Follows (lex s) (lex s) r) (he : r.finish s.length = .error e) :
    e.Exact s := by
  unfold Reader.finish at he
  split at he
  · cases he
  · cases he
  · rename_i name position hspot
    split at he
    · rename_i e' hplace
      obtain rfl := Except.error.inj he
      obtain ⟨name', position', before, hheld, htaken, rfl⟩ :=
        placeItem_eq_error rfl (.named hspot) hplace
      exact (h.held hheld).repeats htaken
    · rename_i r₁ hplace
      obtain ⟨level', hcomplete⟩ := placeItem_eq_ok hplace
      rw [finishItem_eq_error he]
      exact endFault_exact h (complete_eq_ok hcomplete).2
  · rw [finishItem_eq_error he]
    exact endFault_exact h rfl
  · obtain rfl := Except.error.inj he
    exact endFault_exact h rfl
  · obtain rfl := Except.error.inj he
    exact endFault_exact h rfl

/-- Every error stands at the character that it is about. -/
theorem parse_error_exact {text : String} (h : parse text = .error e) : e.Exact text.toList := by
  unfold parse parseChars at h
  have hrun := (Follows.start (lex text.toList)).run (List.nil_append (lex text.toList)).symm
  split at h
  · rename_i e' he
    rw [he] at hrun
    obtain rfl := Except.error.inj h
    obtain ⟨pre, l, post, r, hls, hfollows, hstep⟩ := hrun
    exact (step_eq_error hfollows.reads hfollows.settled hstep).exact hfollows hls
  · rename_i r he
    rw [he] at hrun
    exact finish_exact hrun h

/-- A name that repeats behind a nested group, a bound of zero, a group that is not closed, and a
name where a comma is missing. -/
theorem parse_error_exact_groups :
    parse "[a, b.[c, a], b]" = .error ⟨14, .duplicate "b"⟩ ∧
      Repeats "[a, b.[c, a], b]".toList 14 "b" ∧
      parse "[a.^0]" = .error ⟨4, .zeroLimit⟩ ∧ BoundAt "[a.^0]".toList 4 (fun n => n = 0) ∧
      parse "[a, b.[c" = .error ⟨6, .unterminatedGroup⟩ ∧
      (unclosed "[a, b.[c".toList).head? = some 6 ∧ Extends "[a, b.[c".toList ∧
      parse "[a, b c]" = .error ⟨6, .missingSeparator 'c'⟩ ∧
      Extends ("[a, b c]".toList.take 6) ∧ ¬ Extends ("[a, b c]".toList.take 7) := by
  have hrepeated : parse "[a, b.[c, a], b]" = .error ⟨14, .duplicate "b"⟩ := by rfl
  have hzero : parse "[a.^0]" = .error ⟨4, .zeroLimit⟩ := by rfl
  have hopen : parse "[a, b.[c" = .error ⟨6, .unterminatedGroup⟩ := by rfl
  have hcomma : parse "[a, b c]" = .error ⟨6, .missingSeparator 'c'⟩ := by rfl
  obtain ⟨hhead, hextends⟩ := parse_error_exact hopen
  obtain ⟨-, hbefore, hstops⟩ := parse_error_exact hcomma
  exact ⟨hrepeated, parse_error_exact hrepeated, hzero, parse_error_exact hzero, hopen, hhead,
    hextends, hcomma, hbefore, hstops⟩

end Prefetch.Selection
