import Prefetch.Proofs.Selection.Cutting

/-!
# Spacing — blanks between tokens make no difference

The reader looks at positions only to report them.  Two texts with the same tokens drive it through
states that differ in positions alone, and wherever it remembers the position of a token in the one
text, it remembers that of the same token in the other.  So both are read as the same tree, or both
are refused for the same fault at the same place of the same token.

* `Reader.Alike.step` — one token keeps two states alike.
* `Reader.Alike.run`, `Reader.Alike.finish` — all tokens, and the end.
* `parse_spacing` — texts with the same tokens.
-/

namespace Prefetch.Selection

/-! ### States that differ in positions -/

section Alike

-- Which positions of the two texts belong together is said later; the reader only copies them.
variable (same : Nat → Nat → Prop)

/-- What is open, but for the position. -/
inductive Frame.Alike : Frame → Frame → Prop where
  | group {p p' : Nat} (h : same p p') : Frame.Alike (.group p) (.group p')
  | node (name : String) (before : List Selection) {p p' : Nat} (h : same p p') :
      Frame.Alike (.node name p before) (.node name p' before)

/-- What the next token is measured against, but for the position. -/
inductive Spot.Alike : Spot → Spot → Prop where
  | start : Spot.Alike .start .start
  | star : Spot.Alike .star .star
  | item : Spot.Alike .item .item
  | named (name : String) {p p' : Nat} (h : same p p') : Spot.Alike (.named name p) (.named name p')
  | dotted (name : String) {p p' : Nat} (h : same p p') :
      Spot.Alike (.dotted name p) (.dotted name p')
  | done : Spot.Alike .done .done

/-- Two states of the reader that differ in positions only. -/
inductive Reader.Alike : Reader → Reader → Prop where
  | intro {frames frames' : List Frame} (level : List Selection) {spot spot' : Spot}
      (hframes : List.Forall₂ (Frame.Alike same) frames frames')
      (hspot : Spot.Alike same spot spot') :
      Reader.Alike ⟨frames, level, spot⟩ ⟨frames', level, spot'⟩

/-- Two lexemes that differ in positions only, also in those of the digits of a `^`. -/
structure Lexeme.Alike (l l' : Lexeme) : Prop where
  token : l.token = l'.token
  position : same l.position l'.position
  digits : ∀ digits, l.token = .caret digits → digits ≠ [] → same (l.position + 1) (l'.position + 1)

/-- Two results: values that are alike, or the same fault. -/
inductive EndsAlike {α : Type} (rel : α → α → Prop) :
    Except ReadError α → Except ReadError α → Prop where
  | ok {a a' : α} (h : rel a a') : EndsAlike rel (.ok a) (.ok a')
  | error (fault : ReadFault) {p p' : Nat} (h : same p p') :
      EndsAlike rel (.error ⟨p, fault⟩) (.error ⟨p', fault⟩)

variable {same} {frames frames' : List Frame} {level : List Selection} {name : String}
  {l l' : Lexeme} {p p' : Nat} {r r' : Reader}

theorem EndsAlike.inv {α : Type} {rel : α → α → Prop} {x x' : Except ReadError α} :
    EndsAlike same rel x x' →
      (∃ a a', x = .ok a ∧ x' = .ok a' ∧ rel a a') ∨
        ∃ fault p p', x = .error ⟨p, fault⟩ ∧ x' = .error ⟨p', fault⟩ ∧ same p p'
  | .ok h => .inl ⟨_, _, rfl, rfl, h⟩
  | .error fault h => .inr ⟨fault, _, _, rfl, rfl, h⟩

theorem place_alike (level : List Selection) (node : Selection) (h : same p p') :
    EndsAlike same Eq (place level node p) (place level node p') := by
  unfold place
  split
  · exact .error _ h
  · exact .ok rfl

theorem complete_alike (h : List.Forall₂ (Frame.Alike same) frames frames') :
    EndsAlike same (Reader.Alike same) (complete frames level) (complete frames' level) := by
  induction h generalizing level with
  | nil => exact .ok (.intro level .nil .done)
  | @cons f f' frames frames' hf hrest ih =>
    cases hf with
    | group h => exact .ok (.intro level (.cons (.group h) hrest) .done)
    | @node name before p p' h =>
      rw [complete, complete]
      obtain ⟨outer, _, hok, hok', rfl⟩ | ⟨fault, q, q', herror, herror', hsame⟩ :=
        (place_alike before { named name with children := level } h).inv
      · rw [hok, hok']
        exact ih
      · rw [herror, herror']
        exact .error fault hsame

theorem placeItem_alike (level : List Selection) (node : Selection)
    (hframes : List.Forall₂ (Frame.Alike same) frames frames') (h : same p p') :
    EndsAlike same (Reader.Alike same) (placeItem frames level node p)
      (placeItem frames' level node p') := by
  unfold placeItem
  obtain ⟨level', _, hok, hok', rfl⟩ | ⟨fault, q, q', herror, herror', hsame⟩ :=
    (place_alike level node h).inv
  · rw [hok, hok']
    exact complete_alike hframes
  · rw [herror, herror']
    exact .error fault hsame

theorem readLimit_alike {digits : List Char} (h : digits ≠ [] → same p p') :
    EndsAlike same Eq (readLimit digits p) (readLimit digits p') := by
  unfold readLimit
  split
  · exact .ok rfl
  · rename_i hne
    have hsame := h (by simpa using hne)
    split
    · exact .error _ hsame
    · exact .error _ hsame
    · exact .ok rfl

theorem isSome_innermostGroup? (h : List.Forall₂ (Frame.Alike same) frames frames') :
    (innermostGroup? frames).isSome = (innermostGroup? frames').isSome := by
  induction h with
  | nil => rfl
  | cons hf _ ih =>
    cases hf with
    | group => rfl
    | node => exact ih

theorem readItem_alike (hframes : List.Forall₂ (Frame.Alike same) frames frames')
    (hl : l.Alike same l') :
    EndsAlike same (Reader.Alike same) (readItem frames level l) (readItem frames' level l') := by
  unfold readItem
  rw [← hl.token, isSome_innermostGroup? hframes]
  split
  · exact .ok (.intro level hframes (.named _ hl.position))
  · exact .error _ hl.position
  · exact .ok (.intro level (.cons (.group hl.position) hframes) .item)
  · exact .error _ hl.position
  · split <;> exact .error _ hl.position
  · exact .error _ hl.position

theorem readAfterAll_alike (marked : Bool) (hl : l.Alike same l') :
    EndsAlike same (Reader.Alike same) (.error (readAfterAll marked l))
      (.error (readAfterAll marked l')) := by
  unfold readAfterAll
  rw [← hl.token]
  split <;> exact .error _ hl.position

theorem readAfterItem_alike (hframes : List.Forall₂ (Frame.Alike same) frames frames')
    (hl : l.Alike same l') :
    EndsAlike same (Reader.Alike same) (readAfterItem frames level l)
      (readAfterItem frames' level l') := by
  cases hframes with
  | nil => exact readAfterAll_alike _ hl
  | @cons f f' frames frames' hf hrest =>
    cases hf with
    | node => exact readAfterAll_alike _ hl
    | group h =>
      simp only [readAfterItem, ← hl.token]
      split
      · exact .ok (.intro level (.cons (.group h) hrest) .item)
      · exact complete_alike hrest
      · exact .error _ hl.position
      · exact .error _ hl.position

theorem readTail_alike (hframes : List.Forall₂ (Frame.Alike same) frames frames') (h : same p p')
    (hl : l.Alike same l') :
    EndsAlike same (Reader.Alike same) (readTail frames level name p l)
      (readTail frames' level name p' l') := by
  unfold readTail
  rw [← hl.token]
  split
  · rename_i digits ht
    obtain ⟨limit, _, hok, hok', rfl⟩ | ⟨fault, q, q', herror, herror', hsame⟩ :=
      (readLimit_alike (hl.digits digits ht)).inv
    · rw [hok, hok']
      exact placeItem_alike level _ hframes h
    · rw [herror, herror']
      exact .error fault hsame
  · exact placeItem_alike level _ hframes h
  · exact readItem_alike (.cons (.node name level h) hframes) hl

/-- One token keeps two states alike. -/
theorem Reader.Alike.step (h : Reader.Alike same r r') (hl : l.Alike same l') :
    EndsAlike same (Reader.Alike same) (r.step l) (r'.step l') := by
  obtain ⟨level, hframes, hspot⟩ := h
  cases hspot with
  | start =>
    simp only [Reader.step, ← hl.token]
    split
    · exact .ok (.intro level hframes .star)
    · exact readItem_alike .nil hl
  | star => exact readAfterAll_alike true hl
  | item => exact readItem_alike hframes hl
  | named name h =>
    simp only [Reader.step, ← hl.token]
    split
    · exact .ok (.intro level hframes (.dotted name h))
    · obtain ⟨r, r', hok, hok', hr⟩ | ⟨fault, q, q', herror, herror', hsame⟩ :=
        (placeItem_alike level (named name) hframes h).inv
      · obtain ⟨level', hframes', -⟩ := hr
        rw [hok, hok']
        exact readAfterItem_alike hframes' hl
      · rw [herror, herror']
        exact .error fault hsame
  | dotted name h => exact readTail_alike hframes h hl
  | done => exact readAfterItem_alike hframes hl

theorem Reader.Alike.run {ls ls' : List Lexeme} (h : Reader.Alike same r r')
    (hls : List.Forall₂ (Lexeme.Alike same) ls ls') :
    EndsAlike same (Reader.Alike same) (r.run ls) (r'.run ls') := by
  induction hls generalizing r r' with
  | nil => exact .ok h
  | @cons l l' ls ls' hl hls ih =>
    rw [Reader.run, Reader.run]
    obtain ⟨r₁, r₁', hok, hok', hr⟩ | ⟨fault, p, p', herror, herror', hsame⟩ := (h.step hl).inv
    · rw [hok, hok']
      exact ih hr
    · rw [herror, herror']
      exact .error fault hsame

theorem endFault_alike {length length' : Nat}
    (hframes : List.Forall₂ (Frame.Alike same) frames frames') (hlength : same length length') :
    EndsAlike same Eq (.error (endFault frames length) : Except ReadError Selection)
      (.error (endFault frames' length')) := by
  induction hframes with
  | nil => exact .error _ hlength
  | cons hf _ ih =>
    cases hf with
    | group h => exact .error _ h
    | node => exact ih

theorem finishItem_alike {length length' : Nat} (h : Reader.Alike same r r')
    (hlength : same length length') :
    EndsAlike same Eq (finishItem r length) (finishItem r' length') := by
  obtain ⟨level, hframes, hspot⟩ := h
  cases hframes with
  | nil => exact .ok rfl
  | cons hf hrest => exact endFault_alike (.cons hf hrest) hlength

/-- The end of the text, of two states that are alike. -/
theorem Reader.Alike.finish {length length' : Nat} (h : Reader.Alike same r r')
    (hlength : same length length') :
    EndsAlike same Eq (r.finish length) (r'.finish length') := by
  obtain ⟨level, hframes, hspot⟩ := id h
  cases hspot with
  | start => exact .ok rfl
  | star => exact .ok rfl
  | item => exact endFault_alike hframes hlength
  | dotted name h => exact endFault_alike hframes hlength
  | done => exact finishItem_alike h hlength
  | named name hposition =>
    simp only [Reader.finish]
    obtain ⟨r, r', hok, hok', hr⟩ | ⟨fault, q, q', herror, herror', hsame⟩ :=
      (placeItem_alike level (named name) hframes hposition).inv
    · rw [hok, hok']
      exact finishItem_alike hr hlength
    · rw [herror, herror']
      exact .error fault hsame

end Alike

/-! ### Texts with the same tokens -/

/-- Positions at the same character of the same token of two texts, or at the end of both. -/
def SamePlace (s s' : List Char) (p p' : Nat) : Prop :=
  (∃ (i : Nat) (l l' : Lexeme) (k : Nat), (cut 0 s)[i]? = some l ∧ (cut 0 s')[i]? = some l' ∧
    k < l.token.chars.length ∧ p = l.position + k ∧ p' = l'.position + k) ∨
      p = s.length ∧ p' = s'.length

variable {s s' : List Char} {l : Lexeme}

/-- No token is empty. -/
theorem length_chars_pos (h : l ∈ lex s) : 0 < l.token.chars.length := by
  have hlies := liesAt_of_mem_lex h
  cases ht : l.token with
  | name letters =>
    rw [ht] at hlies
    exact List.length_pos_of_ne_nil hlies.1
  | caret digits => exact Nat.succ_pos _
  | mark c => exact Nat.one_pos

/-- Token by token, two texts with the same tokens are alike. -/
theorem alike_of_tokens (h : (cut 0 s).map (·.token) = (cut 0 s').map (·.token)) :
    List.Forall₂ (Lexeme.Alike (SamePlace s s')) (lex s) (lex s') := by
  have hlength : (cut 0 s).length = (cut 0 s').length := by simpa using congrArg List.length h
  rw [lex_eq_cut, lex_eq_cut, List.forall₂_iff_get]
  refine ⟨hlength, fun i hi hi' => ?_⟩
  have ht : (cut 0 s)[i].token = (cut 0 s')[i].token := by
    simpa [hi, hi'] using congrArg (·[i]?) h
  have hplace : ∀ k < (cut 0 s)[i].token.chars.length,
      SamePlace s s' ((cut 0 s)[i].position + k) ((cut 0 s')[i].position + k) := fun k hk =>
    .inl ⟨i, _, _, k, List.getElem?_eq_getElem hi, List.getElem?_eq_getElem hi', hk, rfl, rfl⟩
  have hmem : (cut 0 s)[i] ∈ lex s := by
    rw [lex_eq_cut]
    exact List.getElem_mem hi
  refine ⟨ht, hplace 0 (length_chars_pos hmem), fun digits hdigits hne => hplace 1 ?_⟩
  -- The first digit comes right after the `^`.
  have hcaret : (cut 0 s)[i].token = .caret digits := hdigits
  rw [hcaret]
  exact Nat.succ_lt_succ (List.length_pos_of_ne_nil hne)

/-- Texts with the same tokens, whatever blanks stand between them, are read as the same tree, or
refused for the same fault at the same place. -/
theorem parse_spacing {text text' : String}
    (h : (cut 0 text.toList).map (·.token) = (cut 0 text'.toList).map (·.token)) :
    (∃ t, parse text = .ok t ∧ parse text' = .ok t) ∨
      ∃ fault p p', parse text = .error ⟨p, fault⟩ ∧ parse text' = .error ⟨p', fault⟩ ∧
        SamePlace text.toList text'.toList p p' := by
  have hstart : Reader.Alike (SamePlace text.toList text'.toList) .start .start :=
    .intro [] .nil .start
  have hparse : EndsAlike (SamePlace text.toList text'.toList) Eq (parse text) (parse text') := by
    rw [parse, parse, parseChars, parseChars]
    obtain ⟨r, r', hok, hok', hr⟩ | ⟨fault, p, p', herror, herror', hsame⟩ :=
      (hstart.run (alike_of_tokens h)).inv
    · rw [hok, hok']
      exact hr.finish (.inr ⟨rfl, rfl⟩)
    · rw [herror, herror']
      exact .error fault hsame
  refine hparse.inv.imp_left ?_
  rintro ⟨t, _, ht, ht', rfl⟩
  exact ⟨t, ht, ht'⟩

/-- A group written in two ways, and one whose bound is refused at the same digit. -/
theorem parse_spacing_groups :
    ((parse "[a,b.*]").isOk = true ∧ parse "[a,b.*]" = parse " [ a ,\n b . * ]") ∧
      parse "[a.^0]" = .error ⟨4, .zeroLimit⟩ ∧ parse "[ a . ^0 ] " = .error ⟨7, .zeroLimit⟩ ∧
        SamePlace "[a.^0]".toList "[ a . ^0 ] ".toList 4 7 := by
  have hread : (parse "[a,b.*]").isOk = true := by rfl
  have hzero : parse "[a.^0]" = .error ⟨4, .zeroLimit⟩ := by rfl
  have hzero' : parse "[ a . ^0 ] " = .error ⟨7, .zeroLimit⟩ := by rfl
  refine ⟨⟨hread, ?_⟩, hzero, hzero', ?_⟩
  · have htokens : (cut 0 "[a,b.*]".toList).map (·.token) =
        (cut 0 " [ a ,\n b . * ]".toList).map (·.token) := by
      rw [← lex_eq_cut, ← lex_eq_cut]
      rfl
    obtain ⟨t, ht, ht'⟩ | ⟨fault, p, p', hfault, -⟩ := parse_spacing htokens
    · exact ht.trans ht'.symm
    · rw [hfault] at hread
      cases hread
  · have htokens : (cut 0 "[a.^0]".toList).map (·.token) =
        (cut 0 "[ a . ^0 ] ".toList).map (·.token) := by
      rw [← lex_eq_cut, ← lex_eq_cut]
      rfl
    obtain ⟨t, ht, -⟩ | ⟨fault, p, p', hfault, hfault', hplace⟩ := parse_spacing htokens
    · rw [hzero] at ht
      cases ht
    · rw [hzero] at hfault
      rw [hzero'] at hfault'
      cases hfault
      cases hfault'
      exact hplace

end Prefetch.Selection
