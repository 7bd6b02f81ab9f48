import Prefetch.Proofs.Selection.Cutting
import Prefetch.Proofs.Selection.Reading

/-!
# Viable — what a text can still become

A text can be completed when some ending makes it one that the grammar derives; names that repeat
and bounds out of range do not matter for that.  What the reader has gone through can be completed:
close what is open.  An outline of the reader, which counts the open groups and forgets everything
else, goes through every derivation; where the outline stops, no ending helps.

* `Reads.extends` — what the reader has gone through can be completed.
* `Expression.run_outline` — the outline goes through what the grammar derives.
* `not_extends_of_outline` — where the outline stops, the text cannot be completed.
-/

namespace Prefetch.Selection

/-- Some ending makes the text one that the grammar derives. -/
def Extends (s : List Char) : Prop :=
  ∃ (more : List Char) (e : Expression), Spells (s ++ more) e.tokens

variable {cs cs' : List Char} {ts ts' : List Token} {t : Token} {r : Reader} {frames : List Frame}
  {level : List Selection}

/-! ### Closing what is open -/

theorem Spells.append (h : Spells cs ts) (h' : Spells cs' ts') :
    Spells (cs ++ cs') (ts ++ ts') := by
  induction h with
  | nil => exact h'
  | blank hc _ ih => exact .blank hc ih
  | token ht _ ih =>
    rw [List.append_assoc]
    exact .token ht ih

/-- Tokens are spelled by their characters. -/
theorem spells_chars (h : ∀ t ∈ ts, t.Proper) : Spells (ts.flatMap Token.chars) ts := by
  induction ts with
  | nil => exact .nil
  | cons t ts ih =>
    obtain ⟨ht, hts⟩ := List.forall_mem_cons.1 h
    exact .token ht (ih hts)

/-- Whatever item comes next, what is open around it can be closed. -/
theorem Opens.completes (h : Opens frames level ts) (i : Item) :
    ∃ (e : Item) (rest : List Token), e.tokens = ts ++ (i.tokens ++ rest) ∧
      ∀ t ∈ rest, t.Proper := by
  induction h generalizing i with
  | start => exact ⟨i, [], by simp, nofun⟩
  | group opened is outer legal distinct ih =>
    obtain ⟨g, -, -, hg⟩ := exists_group is i
    obtain ⟨e, rest, he, hrest⟩ := ih g
    refine ⟨e, .mark ']' :: rest, by simp [he, hg], List.forall_mem_cons.2 ⟨?_, hrest⟩⟩
    exact ⟨by decide, by decide, by decide⟩
  | node letters position outer ih =>
    obtain ⟨e, rest, he, hrest⟩ := ih (.path letters i)
    exact ⟨e, rest, by simp [he, Item.tokens], hrest⟩

/-- The tokens that the reader has gone through are the beginning of a derivation. -/
theorem Reads.completes (h : Reads r ts) :
    ∃ (e : Expression) (rest : List Token), e.tokens = ts ++ rest ∧ ∀ t ∈ rest, t.Proper := by
  cases h with
  | start => exact ⟨.nothing, [], rfl, nofun⟩
  | star => exact ⟨.everything, [], rfl, nofun⟩
  | item h =>
    obtain ⟨e, rest, he, hrest⟩ := h.completes (.name ['a'])
    refine ⟨.item e, .name ['a'] :: rest, by simp [Expression.tokens, he, Item.tokens],
      List.forall_mem_cons.2 ⟨⟨nofun, List.forall_mem_singleton.2 (by decide)⟩, hrest⟩⟩
  | named letters position h =>
    obtain ⟨e, rest, he, hrest⟩ := h.completes (.name letters)
    exact ⟨.item e, rest, by simp [Expression.tokens, he, Item.tokens], hrest⟩
  | dotted letters position h =>
    obtain ⟨e, rest, he, hrest⟩ := h.completes (.every letters)
    refine ⟨.item e, .mark '*' :: rest, by simp [Expression.tokens, he, Item.tokens],
      List.forall_mem_cons.2 ⟨⟨by decide, by decide, by decide⟩, hrest⟩⟩
  | done i h legal distinct =>
    obtain ⟨e, rest, he, hrest⟩ := h.completes i
    exact ⟨.item e, rest, by simp [Expression.tokens, he], hrest⟩

/-- What the reader has gone through can be completed. -/
theorem Reads.extends (h : Reads r ts) (hs : Spells cs ts) : Extends cs := by
  obtain ⟨e, rest, he, hrest⟩ := h.completes
  exact ⟨rest.flatMap Token.chars, e, he ▸ hs.append (spells_chars hrest)⟩

/-! ### The outline of the reader -/

/-- What the next token is measured against. -/
inductive Phase where
  | start
  | star
  | item
  | named
  | dotted
  | done

/-- How many groups are open, and where on the innermost level the text stands. -/
structure Outline where
  groups : Nat
  phase : Phase

namespace Outline

/-- A token where an item has to begin. -/
def item (groups : Nat) : Token → Option Outline
  | .name _ => some ⟨groups, .named⟩
  | .mark '[' => some ⟨groups + 1, .item⟩
  | _ => none

/-- A token after an item. -/
def after : Nat → Token → Option Outline
  | groups + 1, .mark ',' => some ⟨groups + 1, .item⟩
  | groups + 1, .mark ']' => some ⟨groups, .done⟩
  | _, _ => none

/-- One token. -/
def next (o : Outline) (t : Token) : Option Outline :=
  match o.phase with
  | .start => if t = .mark '*' then some ⟨o.groups, .star⟩ else item o.groups t
  | .star => none
  | .item => item o.groups t
  | .named => if t = .mark '.' then some ⟨o.groups, .dotted⟩ else after o.groups t
  | .dotted =>
    match t with
    | .caret _ => some ⟨o.groups, .done⟩
    | .mark '*' => some ⟨o.groups, .done⟩
    | t => item o.groups t
  | .done => after o.groups t

/-- Some tokens, one after the other. -/
def run (o : Outline) : List Token → Option Outline
  | [] => some o
  | t :: ts => (o.next t).bind fun o => o.run ts

theorem run_append (o : Outline) (ts us : List Token) :
    o.run (ts ++ us) = (o.run ts).bind fun o => o.run us := by
  induction ts generalizing o with
  | nil => rfl
  | cons t ts ih =>
    rw [List.cons_append, run, run, Option.bind_assoc]
    simp only [ih]

theorem run_concat (o : Outline) (ts : List Token) (t : Token) :
    o.run (ts ++ [t]) = (o.run ts).bind fun o => o.next t := by
  rw [run_append]
  congr 1
  funext o
  exact Option.bind_fun_some _

/-- An item is complete, or it may be. -/
def Ended (p : Phase) : Prop :=
  p = .named ∨ p = .done

theorem next_of_ended {p : Phase} (h : Ended p) (groups : Nat) {c : Char} (hc : c ≠ '.') :
    next ⟨groups, p⟩ (.mark c) = after groups (.mark c) := by
  rcases h with rfl | rfl
  · exact if_neg fun he => hc (Token.mark.inj he)
  · rfl

theorem next_dotted (hcaret : ∀ digits, t = .caret digits → False) (hstar : t = .mark '*' → False)
    (groups : Nat) : next ⟨groups, .dotted⟩ t = item groups t := by
  unfold next
  dsimp only
  split
  · rename_i digits
    exact (hcaret digits rfl).elim
  · exact (hstar rfl).elim
  · rfl

/-- At the beginning, and after a dot, an item begins as it does anywhere. -/
theorem run_item (i : Item) {p : Phase} (hp : p = .start ∨ p = .dotted) (groups : Nat) :
    run ⟨groups, p⟩ i.tokens = run ⟨groups, .item⟩ i.tokens := by
  rcases i.tokens_head with ⟨letters, ts, h⟩ | ⟨ts, h⟩ <;>
  · rw [h]
    rcases hp with rfl | rfl <;> rfl

end Outline

mutual

/-- The outline goes through an item and has as many groups open as before. -/
theorem Item.run_outline (i : Item) (groups : Nat) :
    ∃ p, Outline.Ended p ∧ Outline.run ⟨groups, .item⟩ i.tokens = some ⟨groups, p⟩ := by
  match i with
  | .name letters => exact ⟨.named, .inl rfl, rfl⟩
  | .path letters tail =>
    obtain ⟨p, hp, hrun⟩ := tail.run_outline groups
    refine ⟨p, hp, ?_⟩
    rw [← Outline.run_item tail (.inr rfl)] at hrun
    exact hrun
  | .again letters digits => exact ⟨.done, .inr rfl, rfl⟩
  | .every letters => exact ⟨.done, .inr rfl, rfl⟩
  | .group first others =>
    obtain ⟨p, hp, hfirst⟩ := first.run_outline (groups + 1)
    obtain ⟨p', hp', hothers⟩ := run_outline_others others groups hp
    refine ⟨.done, .inr rfl, ?_⟩
    have hopen : Outline.next ⟨groups, .item⟩ (.mark '[') = some ⟨groups + 1, .item⟩ := rfl
    have hclose : Outline.next ⟨groups + 1, p'⟩ (.mark ']') = some ⟨groups, .done⟩ :=
      Outline.next_of_ended hp' _ (by decide)
    rw [Item.tokens, Outline.run, hopen, Option.bind_some, Outline.run_append, hfirst,
      Option.bind_some, Outline.run_append, hothers, Option.bind_some, Outline.run, hclose]
    rfl

/-- The same for the items after the first of a group. -/
theorem run_outline_others (is : List Item) (groups : Nat) {p : Phase} (hp : Outline.Ended p) :
    ∃ p', Outline.Ended p' ∧
      Outline.run ⟨groups + 1, p⟩ (tokensOfOthers is) = some ⟨groups + 1, p'⟩ := by
  match is with
  | [] => exact ⟨p, hp, rfl⟩
  | i :: is =>
    obtain ⟨p', hp', hfirst⟩ := i.run_outline (groups + 1)
    obtain ⟨p'', hp'', hothers⟩ := run_outline_others is groups hp'
    refine ⟨p'', hp'', ?_⟩
    have hcomma : Outline.next ⟨groups + 1, p⟩ (.mark ',') = some ⟨groups + 1, .item⟩ :=
      Outline.next_of_ended hp _ (by decide)
    rw [tokensOfOthers, Outline.run, hcomma, Option.bind_some, Outline.run_append, hfirst,
      Option.bind_some, hothers]

end

/-- The outline goes through what the grammar derives. -/
theorem Expression.run_outline (e : Expression) :
    ∃ o, Outline.run ⟨0, .start⟩ e.tokens = some o := by
  cases e with
  | nothing => exact ⟨_, rfl⟩
  | everything => exact ⟨_, rfl⟩
  | item i =>
    obtain ⟨p, -, hrun⟩ := i.run_outline 0
    exact ⟨_, (Outline.run_item i (.inl rfl) 0).trans hrun⟩

/-! ### Where the outline stops -/

theorem next_eq_of_form (o : Outline) {t t' : Token} (h : t.form = t'.form) :
    o.next t = o.next t' := by
  obtain ⟨groups, phase⟩ := o
  cases groups <;> cases phase <;> cases t <;> cases t' <;> cases h <;> rfl

/-- Where the outline stops at the next token, the text up to the first character of this token
cannot be completed. -/
theorem not_extends_of_outline {s : List Char} {pre post : List Lexeme} {l : Lexeme} {o : Outline}
    (hs : lex s = pre ++ l :: post) (hpre : Outline.run ⟨0, .start⟩ (pre.map (·.token)) = some o)
    (hstop : o.next l.token = none) : ¬ Extends (s.take (l.position + 1)) := by
  rintro ⟨more, e, hspells⟩
  obtain ⟨cs, c, rest, rfl, hposition, -, hmore⟩ := lex_split hs
  obtain ⟨l', post', hlex, hform⟩ := hmore more
  have htake : (cs ++ c :: rest).take (l.position + 1) ++ more = cs ++ c :: more := by
    rw [hposition, List.take_length_add_append]
    simp
  rw [htake] at hspells
  have htokens := lex_of_spells hspells e.clear_tokens
  obtain ⟨o', ho'⟩ := e.run_outline
  rw [← htokens, hlex, List.map_append, List.map_cons, Outline.run_append, hpre, Option.bind_some,
    Outline.run, next_eq_of_form o hform, hstop] at ho'
  cases ho'

end Prefetch.Selection
