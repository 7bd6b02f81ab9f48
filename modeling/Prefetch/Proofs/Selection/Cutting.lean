import Mathlib.Data.List.TakeWhile
import Prefetch.Proofs.Selection.Lexing

/-!
# Cutting — where the tokens of a text lie

The tokens of a text are cut greedily from its front: a name is the longest run of name characters,
a `^` takes the digits right after it, any other character that is not blank is a token by itself.
A token is known by its first character to be a name, a `^` or a certain mark, and the tokens before
it do not depend on what follows.

* `lex_eq_cut` — one character at a time, the same tokens come out.
* `liesAt_of_mem_lex` — the characters at the position of a token.
* `lex_split` — a token and those before it, under another ending of the text.
* `unclosed_eq` — the brackets that are open, by characters and by tokens.
-/

namespace Prefetch.Selection

variable {s cs : List Char} {c : Char} {t : Token} {l : Lexeme} {pre post : List Lexeme}
  {q position : Nat} {pending : Option Lexeme}

/-! ### The longest tokens -/

/-- The lexemes of a text whose first character has a position, cut from its front. -/
def cut (position : Nat) : List Char → List Lexeme
  | [] => []
  | c :: cs =>
    if Text.isBlank c then cut (position + 1) cs
    else if isNameChar c then
      ⟨position, .name (c :: cs.takeWhile isNameChar)⟩ ::
        cut (position + 1 + (cs.takeWhile isNameChar).length) (cs.dropWhile isNameChar)
    else if c = '^' then
      ⟨position, .caret (cs.takeWhile Char.isDigit)⟩ ::
        cut (position + 1 + (cs.takeWhile Char.isDigit).length) (cs.dropWhile Char.isDigit)
    else ⟨position, .mark c⟩ :: cut (position + 1) cs
termination_by cs => cs.length
decreasing_by
  all_goals
    have := List.length_dropWhile_le isNameChar cs
    have := List.length_dropWhile_le Char.isDigit cs
    simp only [List.length_cons]
    omega

theorem lexFrom_nil (q : Nat) (pending : Option Lexeme) :
    lexFrom q pending [] = pending.toList := by
  cases pending <;> rfl

theorem lexFrom_name_run (q position : Nat) (letters cs : List Char) :
    lexFrom q (some ⟨position, .name letters⟩) cs =
      ⟨position, .name (letters ++ cs.takeWhile isNameChar)⟩ ::
        lexFrom (q + (cs.takeWhile isNameChar).length) none (cs.dropWhile isNameChar) := by
  induction cs generalizing q letters with
  | nil => simp [lexFrom]
  | cons c cs ih =>
    by_cases hc : isNameChar c = true
    · have hg : Lexeme.grow? ⟨position, .name letters⟩ c =
          some ⟨position, .name (letters ++ [c])⟩ := by
        simp [Lexeme.grow?, Token.grow?, hc]
      rw [lexFrom_cons_of_grow hg, ih, List.takeWhile_cons_of_pos hc, List.dropWhile_cons_of_pos hc,
        List.append_assoc, List.singleton_append, List.length_cons, Nat.add_assoc, Nat.add_comm 1]
    · have hg : Lexeme.grow? ⟨position, .name letters⟩ c = none := by
        simp [Lexeme.grow?, Token.grow?, hc]
      rw [lexFrom_cons_of_close hg, List.takeWhile_cons_of_neg hc, List.dropWhile_cons_of_neg hc,
        List.append_nil]
      rfl

theorem lexFrom_caret_run (q position : Nat) (digits cs : List Char) :
    lexFrom q (some ⟨position, .caret digits⟩) cs =
      ⟨position, .caret (digits ++ cs.takeWhile Char.isDigit)⟩ ::
        lexFrom (q + (cs.takeWhile Char.isDigit).length) none (cs.dropWhile Char.isDigit) := by
  induction cs generalizing q digits with
  | nil => simp [lexFrom]
  | cons c cs ih =>
    by_cases hc : c.isDigit = true
    · have hg : Lexeme.grow? ⟨position, .caret digits⟩ c =
          some ⟨position, .caret (digits ++ [c])⟩ := by
        simp [Lexeme.grow?, Token.grow?, hc]
      rw [lexFrom_cons_of_grow hg, ih, List.takeWhile_cons_of_pos hc, List.dropWhile_cons_of_pos hc,
        List.append_assoc, List.singleton_append, List.length_cons, Nat.add_assoc, Nat.add_comm 1]
    · have hg : Lexeme.grow? ⟨position, .caret digits⟩ c = none := by
        simp [Lexeme.grow?, Token.grow?, hc]
      rw [lexFrom_cons_of_close hg, List.takeWhile_cons_of_neg hc, List.dropWhile_cons_of_neg hc,
        List.append_nil]
      rfl

theorem lexFrom_mark_run (q position : Nat) (m : Char) (cs : List Char) :
    lexFrom q (some ⟨position, .mark m⟩) cs = ⟨position, .mark m⟩ :: lexFrom q none cs := by
  cases cs with
  | nil => rfl
  | cons c cs => exact lexFrom_cons_of_close rfl cs

theorem lexFrom_none_cons (q : Nat) (c : Char) (cs : List Char) :
    lexFrom q none (c :: cs) = lexFrom (q + 1) ((Token.open? c).map (Lexeme.mk q)) cs := by
  rw [lexFrom]
  rfl

/-- One character at a time, the longest tokens come out. -/
theorem lexFrom_eq_cut (q : Nat) (cs : List Char) : lexFrom q none cs = cut q cs := by
  fun_induction cut q cs with
  | case1 => rfl
  | case2 q c cs hb ih => rw [lexFrom_none_cons, open?_eq_none.2 hb, Option.map_none, ih]
  | case3 q c cs hb hn ih =>
    have ho : Token.open? c = some (.name [c]) := by simp [Token.open?, hb, hn]
    rw [lexFrom_none_cons, ho, Option.map_some, lexFrom_name_run, ih, List.singleton_append]
  | case4 q cs hb hn ih =>
    have ho : Token.open? '^' = some (.caret []) := by decide
    rw [lexFrom_none_cons, ho, Option.map_some, lexFrom_caret_run, ih, List.nil_append]
  | case5 q c cs hb hn hc ih =>
    have ho : Token.open? c = some (.mark c) := by simp [Token.open?, hb, hn, hc]
    rw [lexFrom_none_cons, ho, Option.map_some, lexFrom_mark_run, ih]

theorem lex_eq_cut (s : List Char) : lex s = cut 0 s :=
  lexFrom_eq_cut 0 s

/-! ### The characters of a token -/

/-- A token with its characters at an index of a text; a name or the digits of a `^` end where no
more of them follow. -/
def LiesAt (s : List Char) (i : Nat) : Token → Prop
  | .name letters => letters ≠ [] ∧ letters = (s.drop i).takeWhile isNameChar
  | .caret digits => s[i]? = some '^' ∧ digits = (s.drop (i + 1)).takeWhile Char.isDigit
  | .mark c => s[i]? = some c

theorem LiesAt.of_drop {n i : Nat} (h : LiesAt (s.drop n) i t) : LiesAt s (n + i) t := by
  cases t with
  | name letters => simpa only [LiesAt, List.drop_drop] using h
  | caret digits => simpa only [LiesAt, List.drop_drop, List.getElem?_drop, Nat.add_assoc] using h
  | mark c => simpa only [LiesAt, List.getElem?_drop] using h

theorem LiesAt.of_dropWhile {p : Char → Bool} {i : Nat} (h : LiesAt (cs.dropWhile p) i t) :
    LiesAt (c :: cs) (1 + (cs.takeWhile p).length + i) t := by
  refine LiesAt.of_drop ?_
  rw [Nat.add_comm 1, List.drop_succ_cons]
  have hdrop : cs.drop (cs.takeWhile p).length = cs.dropWhile p :=
    calc cs.drop (cs.takeWhile p).length
        = (cs.takeWhile p ++ cs.dropWhile p).drop (cs.takeWhile p).length := by
          rw [List.takeWhile_append_dropWhile]
      _ = cs.dropWhile p := List.drop_left
  rwa [hdrop]

theorem liesAt_of_mem_cut (h : l ∈ cut q s) : ∃ i, l.position = q + i ∧ LiesAt s i l.token := by
  fun_induction cut q s with
  | case1 => cases h
  | case2 q c cs hb ih =>
    obtain ⟨i, hi, hlies⟩ := ih h
    exact ⟨1 + i, by omega, LiesAt.of_drop (n := 1) hlies⟩
  | case3 q c cs hb hn ih =>
    rcases List.mem_cons.1 h with rfl | h
    · refine ⟨0, rfl, nofun, ?_⟩
      rw [List.drop_zero, List.takeWhile_cons_of_pos hn]
    · obtain ⟨i, hi, hlies⟩ := ih h
      exact ⟨_, by omega, hlies.of_dropWhile⟩
  | case4 q cs hb hn ih =>
    rcases List.mem_cons.1 h with rfl | h
    · exact ⟨0, rfl, rfl, rfl⟩
    · obtain ⟨i, hi, hlies⟩ := ih h
      exact ⟨_, by omega, hlies.of_dropWhile⟩
  | case5 q c cs hb hn hc ih =>
    rcases List.mem_cons.1 h with rfl | h
    · exact ⟨0, rfl, rfl⟩
    · obtain ⟨i, hi, hlies⟩ := ih h
      exact ⟨1 + i, by omega, LiesAt.of_drop (n := 1) hlies⟩

/-- The characters of a token stand at its position. -/
theorem liesAt_of_mem_lex (h : l ∈ lex s) : LiesAt s l.position l.token := by
  rw [lex_eq_cut] at h
  obtain ⟨i, hi, hlies⟩ := liesAt_of_mem_cut h
  rwa [hi, Nat.zero_add]

/-! ### Another ending -/

/-- What the first character of a token tells: a name, a `^`, or a certain mark. -/
def Token.form : Token → Token
  | .name _ => .name []
  | .caret _ => .caret []
  | .mark c => .mark c

theorem form_of_grow? {t' : Token} (h : t.grow? c = some t') : t'.form = t.form := by
  cases t with
  | name letters =>
    simp only [Token.grow?, Option.ite_none_right_eq_some, Option.some.injEq] at h
    rw [← h.2]
    rfl
  | caret digits =>
    simp only [Token.grow?, Option.ite_none_right_eq_some, Option.some.injEq] at h
    rw [← h.2]
    rfl
  | mark m => cases h

/-- What is pending comes out first, in the same form. -/
theorem lexFrom_pending (q : Nat) (l : Lexeme) (cs : List Char) :
    ∃ l' post, lexFrom q (some l) cs = l' :: post ∧ l'.position = l.position ∧
      l'.token.form = l.token.form := by
  induction cs generalizing q l with
  | nil => exact ⟨l, [], rfl, rfl, rfl⟩
  | cons c cs ih =>
    cases hg : l.grow? c with
    | none => exact ⟨l, _, lexFrom_cons_of_close hg cs, rfl, rfl⟩
    | some longer =>
      obtain ⟨l', post, hlex, hposition, hform⟩ := ih (q + 1) longer
      obtain ⟨t, ht, rfl⟩ := Option.map_eq_some_iff.1 hg
      exact ⟨l', post, by rw [lexFrom_cons_of_grow hg, hlex], hposition,
        hform.trans (form_of_grow? ht)⟩

/-- A lexeme is opened by a character, and this character closes what comes before the lexeme. -/
def Splits (q : Nat) (pending : Option Lexeme) (s : List Char) (pre : List Lexeme) (l : Lexeme) :
    Prop :=
  ∃ cs c rest t, s = cs ++ c :: rest ∧ l.position = q + cs.length ∧ lexFrom q pending cs = pre ∧
    ∀ more, lexFrom q pending (cs ++ c :: more) =
      pre ++ lexFrom (l.position + 1) (some ⟨l.position, t⟩) more

theorem Splits.grow {l₀ longer : Lexeme} (hg : l₀.grow? c = some longer)
    (h : Splits (q + 1) (some longer) cs pre l) : Splits q (some l₀) (c :: cs) pre l := by
  obtain ⟨before, c', rest, t, rfl, hposition, hbefore, hmore⟩ := h
  refine ⟨c :: before, c', rest, t, rfl, by rw [hposition, List.length_cons]; omega, ?_,
    fun more => ?_⟩
  · rw [lexFrom_cons_of_grow hg, hbefore]
  · rw [List.cons_append, lexFrom_cons_of_grow hg, hmore]

theorem Splits.open (h : Splits (q + 1) ((Token.open? c).map (Lexeme.mk q)) cs pre l) :
    Splits q none (c :: cs) pre l := by
  obtain ⟨before, c', rest, t, rfl, hposition, hbefore, hmore⟩ := h
  refine ⟨c :: before, c', rest, t, rfl, by rw [hposition, List.length_cons]; omega, ?_,
    fun more => ?_⟩
  · rw [lexFrom_none_cons, hbefore]
  · rw [List.cons_append, lexFrom_none_cons, hmore]

theorem Splits.close {l₀ : Lexeme} (hg : l₀.grow? c = none) (h : Splits q none (c :: cs) pre l) :
    Splits q (some l₀) (c :: cs) (l₀ :: pre) l := by
  obtain ⟨before, c', rest, t, hs, hposition, hbefore, hmore⟩ := h
  cases before with
  | nil =>
    obtain ⟨rfl, rfl⟩ := List.cons_eq_cons.1 hs
    obtain rfl : [] = pre := hbefore
    refine ⟨[], c, cs, t, rfl, hposition, rfl, fun more => ?_⟩
    rw [List.nil_append, lexFrom_cons_of_close hg, ← List.nil_append (c :: more), hmore]
    rfl
  | cons d before =>
    obtain ⟨rfl, rfl⟩ := List.cons_eq_cons.1 hs
    refine ⟨c :: before, c', rest, t, rfl, hposition, ?_, fun more => ?_⟩
    · rw [lexFrom_cons_of_close hg, hbefore]
    · rw [List.cons_append, lexFrom_cons_of_close hg, ← List.cons_append, hmore]
      rfl

/-- A lexeme that was not pending is opened by a character. -/
theorem lexFrom_split (h : lexFrom q pending s = pre ++ l :: post) :
    (pre = [] ∧ ∃ l₀, pending = some l₀ ∧ l.position = l₀.position) ∨ Splits q pending s pre l := by
  induction s generalizing q pending pre with
  | nil =>
    rw [lexFrom_nil] at h
    cases pending with
    | none => simp at h
    | some l₀ =>
      obtain ⟨rfl, hl⟩ := List.append_eq_singleton_iff.1 h.symm |>.resolve_right (by simp)
      obtain rfl := (List.cons_eq_cons.1 hl).1
      exact .inl ⟨rfl, l, rfl, rfl⟩
  | cons c cs ih =>
    have hopened : ∀ {pre : List Lexeme}, lexFrom q none (c :: cs) = pre ++ l :: post →
        Splits q none (c :: cs) pre l := by
      intro pre hpre
      rw [lexFrom_none_cons] at hpre
      rcases ih hpre with ⟨rfl, l₀, hl₀, hposition⟩ | hsplits
      · obtain ⟨t, ht, rfl⟩ := Option.map_eq_some_iff.1 hl₀
        refine ⟨[], c, cs, t, rfl, hposition, rfl, fun more => ?_⟩
        rw [List.nil_append, List.nil_append, lexFrom_none_cons, ht, hposition]
        rfl
      · exact hsplits.open
    cases pending with
    | none => exact .inr (hopened h)
    | some l₀ =>
      cases hg : l₀.grow? c with
      | some longer =>
        rw [lexFrom_cons_of_grow hg] at h
        rcases ih h with ⟨rfl, l₁, hl₁, hposition⟩ | hsplits
        · obtain rfl := Option.some.inj hl₁
          obtain ⟨t, -, rfl⟩ := Option.map_eq_some_iff.1 hg
          exact .inl ⟨rfl, l₀, rfl, hposition⟩
        · exact .inr (hsplits.grow hg)
      | none =>
        rw [lexFrom_cons_of_close hg] at h
        cases pre with
        | nil =>
          obtain ⟨rfl, -⟩ := List.cons_eq_cons.1 h
          exact .inl ⟨rfl, l₀, rfl, rfl⟩
        | cons l₁ pre =>
          obtain ⟨rfl, hrest⟩ := List.cons_eq_cons.1 h
          exact .inr ((hopened hrest).close hg)

/-- A token begins where the text before it has been cut, and under another ending it has the same
form at least. -/
theorem lex_split (h : lex s = pre ++ l :: post) :
    ∃ cs c rest, s = cs ++ c :: rest ∧ l.position = cs.length ∧ lex cs = pre ∧
      ∀ more, ∃ l' post', lex (cs ++ c :: more) = pre ++ l' :: post' ∧
        l'.token.form = l.token.form := by
  obtain ⟨-, l₀, hnone, -⟩ | ⟨cs, c, rest, t, rfl, hposition, hcs, hmore⟩ := lexFrom_split h
  · cases hnone
  have hform : ∀ more, ∃ l' post', lex (cs ++ c :: more) = pre ++ l' :: post' ∧
      l'.token.form = t.form := fun more => by
    obtain ⟨l', post', hlex, -, hform⟩ := lexFrom_pending (l.position + 1) ⟨l.position, t⟩ more
    exact ⟨l', post', by rw [lex, hmore, hlex], hform⟩
  obtain ⟨l', post', hlex, hl'⟩ := hform rest
  obtain ⟨rfl, -⟩ := List.cons_eq_cons.1 (List.append_cancel_left (h.symm.trans hlex))
  rw [Nat.zero_add] at hposition
  refine ⟨cs, c, rest, rfl, hposition, hcs, fun more => ?_⟩
  obtain ⟨l'', post'', hmore, hl''⟩ := hform more
  exact ⟨l'', post'', hmore, hl''.trans hl'.symm⟩

/-! ### Brackets -/

/-- The positions of the open brackets, innermost first, after one more character. -/
def bracket (opened : List Nat) (position : Nat) (c : Char) : List Nat :=
  if c = '[' then position :: opened else if c = ']' then opened.tail else opened

/-- The positions of the open brackets after a text, innermost first. -/
def unclosedFrom (position : Nat) (opened : List Nat) : List Char → List Nat
  | [] => opened
  | c :: cs => unclosedFrom (position + 1) (bracket opened position c) cs

/-- The positions of the brackets of a text that are not closed, innermost first. -/
def unclosed (s : List Char) : List Nat :=
  unclosedFrom 0 [] s

/-- The same after one more token. -/
def bracketOf (opened : List Nat) (l : Lexeme) : List Nat :=
  match l.token with
  | .mark c => bracket opened l.position c
  | _ => opened

theorem bracket_of_not (opened : List Nat) (position : Nat) (h : c ≠ '[' ∧ c ≠ ']') :
    bracket opened position c = opened := by
  rw [bracket, if_neg h.1, if_neg h.2]

theorem unclosedFrom_append {xs ys : List Char} {opened : List Nat}
    (h : ∀ c ∈ xs, c ≠ '[' ∧ c ≠ ']') :
    unclosedFrom q opened (xs ++ ys) = unclosedFrom (q + xs.length) opened ys := by
  induction xs generalizing q with
  | nil => rfl
  | cons c xs ih =>
    obtain ⟨hc, hxs⟩ := List.forall_mem_cons.1 h
    rw [List.cons_append, unclosedFrom, bracket_of_not opened q hc, ih hxs, List.length_cons,
      Nat.add_assoc, Nat.add_comm 1]

theorem not_bracket_of_isNameChar (h : isNameChar c = true) : c ≠ '[' ∧ c ≠ ']' := by
  constructor <;> rintro rfl <;> revert h <;> decide

theorem not_bracket_of_isBlank (h : Text.isBlank c = true) : c ≠ '[' ∧ c ≠ ']' := by
  constructor <;> rintro rfl <;> revert h <;> decide

/-- Brackets are tokens by themselves. -/
theorem unclosedFrom_eq (q : Nat) (opened : List Nat) (s : List Char) :
    unclosedFrom q opened s = (cut q s).foldl bracketOf opened := by
  have hskip : ∀ {p : Char → Bool} (q : Nat) (opened : List Nat) (cs : List Char),
      (∀ c, p c = true → isNameChar c = true) →
        unclosedFrom q opened cs =
          unclosedFrom (q + (cs.takeWhile p).length) opened (cs.dropWhile p) := by
    intro p q opened cs hp
    rw [← unclosedFrom_append fun c hc => not_bracket_of_isNameChar (hp c ?_),
      List.takeWhile_append_dropWhile]
    exact List.mem_takeWhile_imp hc
  fun_induction cut q s generalizing opened with
  | case1 => rfl
  | case2 q c cs hb ih =>
    rw [unclosedFrom, bracket_of_not opened q (not_bracket_of_isBlank hb), ih]
  | case3 q c cs hb hn ih =>
    rw [unclosedFrom, bracket_of_not opened q (not_bracket_of_isNameChar hn),
      hskip (p := isNameChar) (q + 1) opened cs fun c hc => hc, ih, List.foldl_cons, bracketOf]
  | case4 q cs hb hn ih =>
    rw [unclosedFrom, bracket_of_not opened q (by decide),
      hskip (p := Char.isDigit) (q + 1) opened cs fun c hc => isNameChar_of_isDigit hc, ih,
      List.foldl_cons, bracketOf]
  | case5 q c cs hb hn hc ih => rw [unclosedFrom, ih, List.foldl_cons, bracketOf]

theorem unclosed_eq (s : List Char) : unclosed s = (lex s).foldl bracketOf [] := by
  rw [unclosed, unclosedFrom_eq, lex_eq_cut]

end Prefetch.Selection
