import Mathlib.Data.List.Chain
import Prefetch.Proofs.Selection.Grammar

/-!
# Lexing — the tokens of a text are those it spells

Cutting a text into tokens gives a sequence that the text spells.  Where no token can be taken for
the end of the one before it, it is the only such sequence.

* `spells_lex` — a text spells its own tokens.
* `lex_of_spells` — a text that spells clear tokens is cut into these.
* `Item.clear_tokens` — the tokens of an item are clear.
-/

namespace Prefetch.Selection

/-! ### Characters -/

theorem isNameChar_of_isDigit {c : Char} (h : c.isDigit = true) : isNameChar c = true := by
  simp [isNameChar, Char.isAlphanum, h]

theorem isNameChar_range {c : Char} (h : isNameChar c = true) : 36 ≤ c.toNat ∧ c.toNat ≤ 122 := by
  simp only [isNameChar, Bool.or_eq_true, beq_iff_eq] at h
  rcases h with (h | rfl) | rfl
  · unfold Char.isAlphanum Char.isAlpha Char.isUpper Char.isLower Char.isDigit at h
    simp only [Bool.or_eq_true, Bool.and_eq_true, decide_eq_true_eq, UInt32.le_iff_toNat_le,
      ge_iff_le] at h
    change ((65 ≤ c.toNat ∧ c.toNat ≤ 90) ∨ (97 ≤ c.toNat ∧ c.toNat ≤ 122)) ∨
      (48 ≤ c.toNat ∧ c.toNat ≤ 57) at h
    omega
  · decide
  · decide

theorem isNameChar_of_isBlank {c : Char} (h : Text.isBlank c = true) : isNameChar c = false := by
  have hb : c.toNat ≤ 32 ∨ 133 ≤ c.toNat := by
    simp only [Text.isBlank, Text.blankRanges, List.any_cons, List.any_nil, Bool.or_eq_true,
      Bool.and_eq_true, decide_eq_true_eq, Bool.false_eq_true, or_false] at h
    omega
  by_contra hn
  have := isNameChar_range (by simpa using hn)
  omega

theorem isDigit_of_isNameChar_false {c : Char} (h : isNameChar c = false) : c.isDigit = false := by
  by_contra hd
  rw [isNameChar_of_isDigit (by simpa using hd)] at h
  cases h

/-! ### From a text to its tokens -/

/-- The characters of a pending token. -/
def pendingChars : Option Lexeme → List Char
  | none => []
  | some l => l.token.chars

theorem open?_eq_none {c : Char} : Token.open? c = none ↔ Text.isBlank c = true := by
  unfold Token.open?
  split
  · simp_all
  · split
    · simp_all
    · split <;> simp_all

/-- The token that a character opens is that character alone. -/
theorem open?_eq_some {c : Char} {t : Token} (h : Token.open? c = some t) :
    t.Proper ∧ t.chars = [c] := by
  unfold Token.open? at h
  split at h
  · cases h
  · rename_i hb
    split at h
    · rename_i hn
      obtain rfl := Option.some.inj h
      exact ⟨⟨by simp, by simpa using hn⟩, rfl⟩
    · rename_i hn
      split at h
      · rename_i hc
        obtain rfl := Option.some.inj h
        exact ⟨fun _ hd => by simp at hd, by simp [Token.chars, eq_of_beq hc]⟩
      · rename_i hc
        obtain rfl := Option.some.inj h
        exact ⟨⟨by simpa using hb, by simpa using hn, by simpa using hc⟩, rfl⟩

/-- A token grows by characters of its own kind. -/
theorem grow?_eq_some {t t' : Token} {c : Char} (ht : t.Proper) (h : t.grow? c = some t') :
    t'.Proper ∧ t'.chars = t.chars ++ [c] := by
  cases t with
  | name letters =>
    simp only [Token.grow?, Option.ite_none_right_eq_some, Option.some.injEq] at h
    obtain ⟨hc, rfl⟩ := h
    refine ⟨⟨by simp, fun d hd => ?_⟩, rfl⟩
    rcases List.mem_append.1 hd with hd | hd
    · exact ht.2 d hd
    · rw [List.mem_singleton] at hd
      exact hd ▸ hc
  | caret digits =>
    simp only [Token.grow?, Option.ite_none_right_eq_some, Option.some.injEq] at h
    obtain ⟨hc, rfl⟩ := h
    refine ⟨fun d hd => ?_, rfl⟩
    rcases List.mem_append.1 hd with hd | hd
    · exact ht d hd
    · rw [List.mem_singleton] at hd
      exact hd ▸ hc
  | mark d => simp [Token.grow?] at h

/-- The invariant of the cut: what is pending and what is still to come spell what comes out. -/
theorem spells_lexFrom (cs : List Char) (position : Nat) (pending : Option Lexeme)
    (hp : ∀ l ∈ pending, l.token.Proper) :
    Spells (pendingChars pending ++ cs) ((lexFrom position pending cs).map (·.token)) := by
  induction cs generalizing position pending with
  | nil =>
    cases pending with
    | none => exact .nil
    | some l => exact .token (hp l rfl) .nil
  | cons c cs ih =>
    have opened : Spells (c :: cs)
        ((lexFrom (position + 1) ((Token.open? c).map (Lexeme.mk position)) cs).map
          (·.token)) := by
      cases ho : Token.open? c with
      | none => exact .blank (open?_eq_none.1 ho) (ih _ none (by simp))
      | some t =>
        obtain ⟨ht, hc⟩ := open?_eq_some ho
        have := ih (position + 1) (some ⟨position, t⟩) (by simpa using ht)
        simpa [pendingChars, hc] using this
    cases pending with
    | none => simpa [lexFrom, pendingChars] using opened
    | some l =>
      cases hg : l.token.grow? c with
      | none =>
        have hl : l.grow? c = none := by simp [Lexeme.grow?, hg]
        rw [lexFrom_cons_of_close hl]
        refine .token (hp l rfl) ?_
        simpa [lexFrom] using opened
      | some t =>
        have hl : l.grow? c = some ⟨l.position, t⟩ := by simp [Lexeme.grow?, hg]
        obtain ⟨ht, hc⟩ := grow?_eq_some (hp l rfl) hg
        rw [lexFrom_cons_of_grow hl]
        have := ih (position + 1) (some ⟨l.position, t⟩) (by simpa using ht)
        simpa [pendingChars, hc] using this

/-- A text spells its own tokens. -/
theorem spells_lex (s : List Char) : Spells s ((lex s).map (·.token)) := by
  exact spells_lexFrom s 0 none (by simp)

/-! ### From tokens to the text's -/

/-- Whether the second token cannot be taken for the end of the first. -/
def Token.Clear : Token → Token → Prop
  | .mark _, _ => True
  | _, .name _ => False
  | _, _ => True

/-- No token can be taken for the end of the one before it. -/
def Clear (ts : List Token) : Prop :=
  ts.IsChain Token.Clear

theorem lexFrom_name (q : Nat) (letters more cs : List Char) (position : Nat)
    (h : ∀ c ∈ more, isNameChar c = true) :
    lexFrom position (some ⟨q, .name letters⟩) (more ++ cs) =
      lexFrom (position + more.length) (some ⟨q, .name (letters ++ more)⟩) cs := by
  induction more generalizing position letters with
  | nil => simp
  | cons c more ih =>
    have hg : Lexeme.grow? ⟨q, .name letters⟩ c = some ⟨q, .name (letters ++ [c])⟩ := by
      simp [Lexeme.grow?, Token.grow?, h c List.mem_cons_self]
    rw [List.cons_append, lexFrom_cons_of_grow hg,
      ih _ _ fun d hd => h d (List.mem_cons_of_mem c hd)]
    simp [Nat.add_assoc, Nat.add_comm 1]

theorem lexFrom_caret (q : Nat) (digits more cs : List Char) (position : Nat)
    (h : ∀ c ∈ more, c.isDigit = true) :
    lexFrom position (some ⟨q, .caret digits⟩) (more ++ cs) =
      lexFrom (position + more.length) (some ⟨q, .caret (digits ++ more)⟩) cs := by
  induction more generalizing position digits with
  | nil => simp
  | cons c more ih =>
    have hg : Lexeme.grow? ⟨q, .caret digits⟩ c = some ⟨q, .caret (digits ++ [c])⟩ := by
      simp [Lexeme.grow?, Token.grow?, h c List.mem_cons_self]
    rw [List.cons_append, lexFrom_cons_of_grow hg,
      ih _ _ fun d hd => h d (List.mem_cons_of_mem c hd)]
    simp [Nat.add_assoc, Nat.add_comm 1]

/-- A token in front of a text is pending once its characters are read. -/
theorem lexFrom_token {t : Token} (ht : t.Proper) (position : Nat) (cs : List Char) :
    lexFrom position none (t.chars ++ cs) =
      lexFrom (position + t.chars.length) (some ⟨position, t⟩) cs := by
  cases t with
  | name letters =>
    obtain ⟨hne, hall⟩ := ht
    obtain ⟨c, more, rfl⟩ := List.exists_cons_of_ne_nil hne
    have hc := hall c List.mem_cons_self
    have hb : Text.isBlank c = false := by
      by_contra hb
      rw [isNameChar_of_isBlank (by simpa using hb)] at hc
      cases hc
    have ho : Token.open? c = some (.name [c]) := by simp [Token.open?, hb, hc]
    simp only [Token.chars, List.cons_append, lexFrom, Option.bind_none, Option.toList_none,
      List.nil_append, ho, Option.map_some]
    rw [lexFrom_name _ _ _ _ _ fun d hd => hall d (List.mem_cons_of_mem c hd)]
    simp [Nat.add_assoc, Nat.add_comm 1]
  | caret digits =>
    have ho : Token.open? '^' = some (.caret []) := by decide
    simp only [Token.chars, List.cons_append, lexFrom, Option.bind_none, Option.toList_none,
      List.nil_append, ho, Option.map_some]
    rw [lexFrom_caret _ _ _ _ _ ht]
    simp [Nat.add_assoc, Nat.add_comm 1]
  | mark c =>
    obtain ⟨hb, hn, hc⟩ := ht
    have ho : Token.open? c = some (.mark c) := by simp [Token.open?, hb, hn, hc]
    simp [Token.chars, lexFrom, ho]

/-- A text that spells tokens after `t` does not begin with a character that `t` would take. -/
theorem grow?_head_eq_none {t : Token} {cs : List Char} {ts : List Token} (hs : Spells cs ts)
    (hc : Clear (t :: ts)) {c : Char} (hh : cs.head? = some c) : t.grow? c = none := by
  have stop : isNameChar c = false → t.grow? c = none := by
    intro hn
    cases t with
    | name letters => simp [Token.grow?, hn]
    | caret digits => simp [Token.grow?, isDigit_of_isNameChar_false hn]
    | mark d => rfl
  cases hs with
  | nil => simp at hh
  | blank hb _ =>
    simp only [List.head?_cons, Option.some.injEq] at hh
    exact stop (isNameChar_of_isBlank (hh ▸ hb))
  | @token u cs ts hu _ =>
    have htu : t.Clear u := (List.isChain_cons_cons.1 hc).1
    cases u with
    | name letters =>
      cases t with
      | name _ => exact htu.elim
      | caret _ => exact htu.elim
      | mark d => rfl
    | caret digits =>
      simp only [Token.chars, List.cons_append, List.head?_cons, Option.some.injEq] at hh
      exact stop (hh ▸ by decide)
    | mark d =>
      simp only [Token.chars, List.cons_append, List.head?_cons, Option.some.injEq] at hh
      exact stop (hh ▸ hu.2.1)

theorem lexFrom_of_spells {cs : List Char} {ts : List Token} (hs : Spells cs ts) (hc : Clear ts)
    (position : Nat) : (lexFrom position none cs).map (·.token) = ts := by
  induction hs generalizing position with
  | nil => rfl
  | blank hb _ ih =>
    simp only [lexFrom, Option.bind_none, Option.toList_none, List.nil_append,
      open?_eq_none.2 hb, Option.map_none]
    exact ih hc _
  | @token t cs ts ht hs ih =>
    rw [lexFrom_token ht]
    have hrest : ∀ p, (lexFrom p none cs).map (·.token) = ts := ih (List.IsChain.of_cons hc)
    cases cs with
    | nil => simpa [lexFrom] using hrest 0
    | cons c cs =>
      have hg : Lexeme.grow? ⟨position, t⟩ c = none := by
        simp [Lexeme.grow?, grow?_head_eq_none hs hc rfl]
      rw [lexFrom_cons_of_close hg, List.map_cons, hrest]

/-- A text that spells clear tokens is cut into these. -/
theorem lex_of_spells {s : List Char} {ts : List Token} (hs : Spells s ts) (hc : Clear ts) :
    (lex s).map (·.token) = ts :=
  lexFrom_of_spells hs hc 0

/-! ### The tokens of the grammar -/

/-- What may follow an item: nothing, or a mark. -/
def Stops (ts : List Token) : Prop :=
  ∀ t ∈ ts.head?, ∃ c, t = .mark c

theorem clear_mark {c : Char} {ts : List Token} : Clear (.mark c :: ts) ↔ Clear ts := by
  cases ts with
  | nil => simp [Clear]
  | cons t ts => simp [Clear, Token.Clear]

theorem clear_name {letters : List Char} {ts : List Token} (hs : Stops ts) :
    Clear (.name letters :: ts) ↔ Clear ts := by
  cases ts with
  | nil => simp [Clear]
  | cons t ts =>
    obtain ⟨c, rfl⟩ := hs t rfl
    simp [Clear, Token.Clear]

theorem clear_caret {digits : List Char} {ts : List Token} (hs : Stops ts) :
    Clear (.caret digits :: ts) ↔ Clear ts := by
  cases ts with
  | nil => simp [Clear]
  | cons t ts =>
    obtain ⟨c, rfl⟩ := hs t rfl
    simp [Clear, Token.Clear]

theorem stops_mark (c : Char) (ts : List Token) : Stops (.mark c :: ts) := by
  simp [Stops]

mutual

/-- The tokens of an item are clear, also in front of a mark. -/
theorem Item.clear_tokens (i : Item) {ts : List Token} (hs : Stops ts) (hc : Clear ts) :
    Clear (i.tokens ++ ts) := by
  match i with
  | .name letters => exact (clear_name hs).2 hc
  | .path letters tail =>
    exact (clear_name (stops_mark _ _)).2 (clear_mark.2 (tail.clear_tokens hs hc))
  | .again letters digits =>
    exact (clear_name (stops_mark _ _)).2 (clear_mark.2 ((clear_caret hs).2 hc))
  | .every letters =>
    exact (clear_name (stops_mark _ _)).2 (clear_mark.2 (clear_mark.2 hc))
  | .group first others =>
    have hclose : Clear (.mark ']' :: ts) := clear_mark.2 hc
    have hothers := clear_tokensOfOthers others (stops_mark ']' ts) hclose
    simp only [Item.tokens, List.cons_append, List.append_assoc, List.nil_append]
    exact clear_mark.2 (first.clear_tokens (stops_tokensOfOthers others (stops_mark _ _)) hothers)

theorem clear_tokensOfOthers (is : List Item) {ts : List Token} (hs : Stops ts) (hc : Clear ts) :
    Clear (tokensOfOthers is ++ ts) := by
  match is with
  | [] => exact hc
  | i :: is =>
    have hrest := clear_tokensOfOthers is hs hc
    simp only [tokensOfOthers, List.cons_append, List.append_assoc]
    exact clear_mark.2 (i.clear_tokens (stops_tokensOfOthers is hs) hrest)

theorem stops_tokensOfOthers (is : List Item) {ts : List Token} (hs : Stops ts) :
    Stops (tokensOfOthers is ++ ts) := by
  match is with
  | [] => exact hs
  | i :: is =>
    rw [tokensOfOthers]
    exact stops_mark _ _

end

theorem Expression.clear_tokens (e : Expression) : Clear e.tokens := by
  cases e with
  | nothing => exact List.isChain_nil
  | everything => exact List.isChain_singleton _
  | item i =>
    have hstops : Stops [] := by simp [Stops]
    have := i.clear_tokens hstops List.isChain_nil
    rwa [List.append_nil] at this

end Prefetch.Selection
