import Prefetch.Proofs.Selection.Lexing

/-!
# Reading — the reader accepts the grammar

What is open around a place is a derivation with a hole: every open group holds items already, and
every open node waits for its tail.  One token moves the hole, or closes some of what is open; at the
end of an accepted text nothing is open.  Conversely the reader runs through the tokens of an item
wherever an item may stand; the nodes of the item then join the siblings before it one after the other,
and only a name that is taken can be in the way.

* `Opens` — what is open, with the tokens that lead there.
* `Reads.step` — one token keeps the invariant.
* `derives_of_parse` — an accepted text derives from the grammar, and the tree is the one denoted.
* `read_item` — wherever an item may stand, its tokens are read as its nodes, which join the level.
* `parse_of_spells` — a text that spells a legal item, whether or not its names are distinct.
* `parse_of_derives` — what derives from the grammar is accepted.
-/

namespace Prefetch.Selection

/-! ### Placing nodes -/

theorem label_of_name {s : Selection} {n : String} (h : s.name = some n) : s.label = n := by
  simp [label, h]

theorem name_eq_label {s : Selection} (h : s.name ≠ none) : s.name = some s.label := by
  obtain ⟨name, hname⟩ := Option.ne_none_iff_exists'.1 h
  rw [label_of_name hname, hname]

theorem place_eq_ok {level out : List Selection} {node : Selection} {position : Nat} :
    place level node position = .ok out ↔
      find? level node.label = none ∧ out = level ++ [node] := by
  unfold place
  cases find? level node.label with
  | none => simp [eq_comm]
  | some c => simp

/-- A named node may join its siblings exactly when the names stay distinct. -/
theorem distinct_concat {level : List Selection} {node : Selection} {n : String}
    (hn : node.name = some n) :
    Distinct (level ++ [node]) ↔ Distinct level ∧ find? level node.label = none := by
  rw [distinct_append, find?_eq_none, label_of_name hn]
  simp only [distinct_singleton, true_and, List.mem_singleton, forall_eq, hn]

/-! ### What is open -/

/-- The tokens of items that a comma follows. -/
def tokensOfBefore : List Item → List Token
  | [] => []
  | i :: is => i.tokens ++ .mark ',' :: tokensOfBefore is

/-- What is open, the nodes on the innermost level and the tokens that lead there. -/
inductive Opens : List Frame → List Selection → List Token → Prop where
  | start : Opens [] [] []
  | group {frames : List Frame} {level : List Selection} {ts : List Token} (opened : Nat)
      (is : List Item) (outer : Opens frames level ts) (legal : LegalAll is)
      (distinct : Distinct (level ++ nodesOfAll is)) :
      Opens (.group opened :: frames) (level ++ nodesOfAll is)
        (ts ++ .mark '[' :: tokensOfBefore is)
  | node {frames : List Frame} {level : List Selection} {ts : List Token} (letters : List Char)
      (position : Nat) (outer : Opens frames level ts) :
      Opens (.node (String.ofList letters) position level :: frames) []
        (ts ++ [.name letters, .mark '.'])

/-- The state of the reader after some tokens. -/
inductive Reads : Reader → List Token → Prop where
  | start : Reads .start []
  | star : Reads ⟨[], [], .star⟩ [.mark '*']
  | item {frames : List Frame} {level : List Selection} {ts : List Token}
      (h : Opens frames level ts) : Reads ⟨frames, level, .item⟩ ts
  | named {frames : List Frame} {level : List Selection} {ts : List Token} (letters : List Char)
      (position : Nat) (h : Opens frames level ts) :
      Reads ⟨frames, level, .named (String.ofList letters) position⟩ (ts ++ [.name letters])
  | dotted {frames : List Frame} {level : List Selection} {ts : List Token} (letters : List Char)
      (position : Nat) (h : Opens frames level ts) :
      Reads ⟨frames, level, .dotted (String.ofList letters) position⟩
        (ts ++ [.name letters, .mark '.'])
  | done {frames : List Frame} {level : List Selection} {ts : List Token} (i : Item)
      (h : Opens frames level ts) (legal : i.Legal) (distinct : Distinct (level ++ i.nodes)) :
      Reads ⟨frames, level ++ i.nodes, .done⟩ (ts ++ i.tokens)

theorem Opens.distinct {frames : List Frame} {level : List Selection} {ts : List Token}
    (h : Opens frames level ts) : Distinct level := by
  cases h with
  | start => exact distinct_nil
  | group _ _ _ _ distinct => exact distinct
  | node _ _ _ => exact distinct_nil

theorem tokensOfBefore_append (is js : List Item) :
    tokensOfBefore (is ++ js) = tokensOfBefore is ++ tokensOfBefore js := by
  induction is with
  | nil => rfl
  | cons i is ih => simp [tokensOfBefore, ih]

theorem comma_tokensOfBefore (is : List Item) (i : Item) :
    .mark ',' :: (tokensOfBefore is ++ i.tokens) = tokensOfOthers (is ++ [i]) := by
  induction is with
  | nil => simp [tokensOfBefore, tokensOfOthers]
  | cons j is ih =>
    rw [List.cons_append, tokensOfOthers, ← ih]
    simp [tokensOfBefore]

/-- Items with a comma after each and one more item make a group. -/
theorem exists_group (is : List Item) (i : Item) :
    ∃ g : Item, (LegalAll is → i.Legal → g.Legal) ∧ g.nodes = nodesOfAll is ++ i.nodes ∧
      g.tokens = .mark '[' :: (tokensOfBefore is ++ (i.tokens ++ [.mark ']'])) := by
  cases is with
  | nil =>
    refine ⟨.group i [], fun _ hi => ⟨hi, trivial⟩, ?_, ?_⟩
    · simp [Item.nodes, nodesOfAll]
    · simp [Item.tokens, tokensOfOthers, tokensOfBefore]
  | cons first is =>
    refine ⟨.group first (is ++ [i]), fun his hi =>
      ⟨his.1, legalAll_append.2 ⟨his.2, hi, trivial⟩⟩, ?_, ?_⟩
    · simp [Item.nodes, nodesOfAll, nodesOfAll_append]
    · simp [Item.tokens, tokensOfBefore, ← comma_tokensOfBefore]

/-! ### An accepted text derives from the grammar -/

/-- A complete item closes every node whose tail it is. -/
theorem Reads.complete {frames : List Frame} {level : List Selection} {ts : List Token}
    (h : Opens frames level ts) {i : Item} (hi : i.Legal) (hd : Distinct (level ++ i.nodes))
    {r : Reader} (hr : Selection.complete frames (level ++ i.nodes) = .ok r) :
    Reads r (ts ++ i.tokens) := by
  induction frames generalizing level ts i with
  | nil =>
    obtain rfl := Except.ok.inj hr
    exact .done i h hi hd
  | cons f frames ih =>
    cases h with
    | group opened is outer legal distinct =>
      obtain rfl := Except.ok.inj hr
      exact .done i (.group opened is outer legal distinct) hi hd
    | @node _ before ts letters position outer =>
      rw [Selection.complete] at hr
      split at hr
      · cases hr
      · rename_i out hp
        obtain ⟨hfree, rfl⟩ := place_eq_ok.1 hp
        have hd' : Distinct (before ++ (Item.path letters i).nodes) :=
          (distinct_concat rfl).2 ⟨outer.distinct, hfree⟩
        have := ih outer (i := .path letters i) ⟨hi, by simpa using hd⟩ hd' hr
        simpa [Item.tokens] using this

theorem Reads.placeItem {frames : List Frame} {level : List Selection} {ts : List Token}
    (h : Opens frames level ts) {i : Item} (hi : i.Legal) {node : Selection} {n : String}
    (hnodes : i.nodes = [node]) (hn : node.name = some n) {position : Nat} {r : Reader}
    (hr : Selection.placeItem frames level node position = .ok r) : Reads r (ts ++ i.tokens) := by
  unfold Selection.placeItem at hr
  split at hr
  · cases hr
  · rename_i out hp
    obtain ⟨hfree, rfl⟩ := place_eq_ok.1 hp
    refine Reads.complete h hi ?_ (by rwa [hnodes])
    rw [hnodes]
    exact (distinct_concat hn).2 ⟨h.distinct, hfree⟩

theorem Reads.readItem {frames : List Frame} {level : List Selection} {ts : List Token}
    (h : Opens frames level ts) {l : Lexeme} {r : Reader}
    (hr : Selection.readItem frames level l = .ok r) : Reads r (ts ++ [l.token]) := by
  unfold Selection.readItem at hr
  split at hr
  · rename_i letters ht
    obtain rfl := Except.ok.inj hr
    rw [ht]
    exact .named letters _ h
  · cases hr
  · rename_i ht
    obtain rfl := Except.ok.inj hr
    have hd : Distinct (level ++ nodesOfAll []) := by
      simpa [nodesOfAll] using h.distinct
    have := Reads.item (.group l.position [] h trivial hd)
    simpa [nodesOfAll, tokensOfBefore, ht] using this
  · cases hr
  · split at hr <;> cases hr
  · cases hr

theorem spot_complete {frames : List Frame} {level : List Selection} {r : Reader}
    (h : complete frames level = .ok r) : r.spot = .done := by
  induction frames generalizing level with
  | nil => exact congrArg Reader.spot (Except.ok.inj h).symm
  | cons f frames ih =>
    cases f with
    | group opened => exact congrArg Reader.spot (Except.ok.inj h).symm
    | node name position before =>
      rw [complete] at h
      split at h
      · cases h
      · exact ih h

theorem spot_placeItem {frames : List Frame} {level : List Selection} {node : Selection}
    {position : Nat} {r : Reader} (h : placeItem frames level node position = .ok r) :
    r.spot = .done := by
  unfold placeItem at h
  split at h
  · cases h
  · exact spot_complete h

/-- After an item, the reader has read what is open and the item. -/
theorem Reads.exists_item {r : Reader} {ts : List Token} (h : Reads r ts) (hs : r.spot = .done) :
    ∃ (level : List Selection) (before : List Token) (i : Item), Opens r.frames level before ∧
      i.Legal ∧ Distinct (level ++ i.nodes) ∧ r.level = level ++ i.nodes ∧
      ts = before ++ i.tokens := by
  cases h with
  | done i h legal distinct => exact ⟨_, _, i, h, legal, distinct, rfl, rfl⟩
  | start => cases hs
  | star => cases hs
  | item _ => cases hs
  | named _ _ _ => cases hs
  | dotted _ _ _ => cases hs

theorem Reads.readAfterItem {r r' : Reader} {ts : List Token} (h : Reads r ts)
    (hs : r.spot = .done) {l : Lexeme}
    (hr : Selection.readAfterItem r.frames r.level l = .ok r') : Reads r' (ts ++ [l.token]) := by
  obtain ⟨level, before, i, hopen, hi, hd, hlevel, rfl⟩ := h.exists_item hs
  rw [hlevel] at hr
  generalize r.frames = frames at hr hopen
  cases hopen with
  | start => cases hr
  | node _ _ _ => cases hr
  | @group _ level ts opened is outer legal distinct =>
    simp only [Selection.readAfterItem] at hr
    split at hr
    · rename_i ht
      obtain rfl := Except.ok.inj hr
      have hd' : Distinct (level ++ nodesOfAll (is ++ [i])) := by
        simpa [nodesOfAll_append, nodesOfAll] using hd
      have := Reads.item (.group opened (is ++ [i]) outer
        (legalAll_append.2 ⟨legal, hi, trivial⟩) hd')
      simpa [nodesOfAll_append, nodesOfAll, tokensOfBefore_append, tokensOfBefore, ht] using this
    · rename_i ht
      obtain ⟨g, hg, hnodes, htokens⟩ := exists_group is i
      rw [List.append_assoc, ← hnodes] at hr hd
      have := Reads.complete outer (hg legal hi) hd hr
      rw [htokens] at this
      simpa [ht] using this
    · cases hr
    · cases hr

theorem word?_eq_some {digits : List Char} {n : Nat} (h : Text.word? digits = some n) :
    n = Text.valueOfDigits digits ∧ n ≤ Text.maxWord := by
  unfold Text.word? at h
  split at h
  · cases h
  · simp only [Option.ite_none_right_eq_some, Option.some.injEq] at h
    exact ⟨h.2.symm, h.2 ▸ h.1⟩

/-- The bound that is read is the one the digits denote, and it is in range. -/
theorem readLimit_eq_ok {digits : List Char} {position : Nat} {limit : Option Nat}
    (h : readLimit digits position = .ok limit) :
    limit = boundOf digits ∧ ∀ n, boundOf digits = some n → 1 ≤ n ∧ n ≤ Text.maxWord := by
  unfold readLimit at h
  split at h
  · rename_i he
    have : digits = [] := by simpa using he
    obtain rfl := Except.ok.inj h
    simp [boundOf, this]
  · rename_i he
    have hne : digits ≠ [] := by simpa using he
    split at h
    · cases h
    · cases h
    · rename_i n hz hw
      obtain rfl := Except.ok.inj h
      have hw' := word?_eq_some hw
      have hb : boundOf digits = some n := by simp [boundOf, hne, hw'.1]
      refine ⟨hb.symm, ?_⟩
      intro m hm
      obtain rfl : n = m := Option.some.inj (hb.symm.trans hm)
      refine ⟨?_, hw'.2⟩
      exact Nat.pos_of_ne_zero fun h0 => hz (h0 ▸ rfl)

theorem Reads.readTail {frames : List Frame} {level : List Selection} {ts : List Token}
    (h : Opens frames level ts) {letters : List Char} {position : Nat} {l : Lexeme} {r : Reader}
    (hr : Selection.readTail frames level (String.ofList letters) position l = .ok r) :
    Reads r (ts ++ [.name letters, .mark '.'] ++ [l.token]) := by
  unfold Selection.readTail at hr
  split at hr
  · rename_i digits ht
    split at hr
    · cases hr
    · rename_i limit hl
      obtain ⟨rfl, hrange⟩ := readLimit_eq_ok hl
      have := Reads.placeItem h (i := .again letters digits) hrange rfl rfl hr
      simpa [Item.tokens, ht] using this
  · rename_i ht
    have := Reads.placeItem h (i := .every letters) trivial rfl rfl hr
    simpa [Item.tokens, ht] using this
  · exact Reads.readItem (.node letters position h) hr

/-- One token keeps the invariant. -/
theorem Reads.step {r r' : Reader} {ts : List Token} (h : Reads r ts) {l : Lexeme}
    (hr : r.step l = .ok r') : Reads r' (ts ++ [l.token]) := by
  cases h with
  | start =>
    simp only [Reader.step, Reader.start] at hr
    split at hr
    · rename_i ht
      obtain rfl := Except.ok.inj hr
      rw [ht]
      exact .star
    · exact Reads.readItem .start hr
  | star => cases hr
  | item h => exact Reads.readItem h hr
  | named letters position h =>
    simp only [Reader.step] at hr
    split at hr
    · rename_i ht
      obtain rfl := Except.ok.inj hr
      rw [ht, List.append_assoc]
      exact .dotted letters position h
    · split at hr
      · cases hr
      · rename_i r₁ hp
        have h₁ := Reads.placeItem h (i := .name letters) trivial rfl rfl hp
        exact h₁.readAfterItem (spot_placeItem hp) hr
  | dotted letters position h => exact Reads.readTail h hr
  | done i h legal distinct => exact (Reads.done i h legal distinct).readAfterItem rfl hr

theorem Reads.run {r r' : Reader} {ts : List Token} (h : Reads r ts) {ls : List Lexeme}
    (hr : r.run ls = .ok r') : Reads r' (ts ++ ls.map (·.token)) := by
  induction ls generalizing r ts with
  | nil =>
    obtain rfl := Except.ok.inj hr
    simpa using h
  | cons l ls ih =>
    rw [Reader.run] at hr
    split at hr
    · cases hr
    · rename_i r₁ hs
      have := ih (h.step hs) hr
      simpa using this

/-- Where nothing is open, the item that has been read is the whole selection. -/
theorem Reads.finishItem {r : Reader} {ts : List Token} (h : Reads r ts) (hs : r.spot = .done)
    {length : Nat} {t : Selection} (hr : Selection.finishItem r length = .ok t) :
    ∃ e : Expression, e.tokens = ts ∧ e.Legal ∧ e.tree = t := by
  obtain ⟨level, before, i, hopen, hi, hd, hlevel, rfl⟩ := h.exists_item hs
  unfold Selection.finishItem at hr
  rw [hlevel] at hr
  split at hr
  · rename_i he
    obtain rfl := Except.ok.inj hr
    rw [List.isEmpty_iff.1 he] at hopen
    cases hopen with
    | start => exact ⟨.item i, rfl, ⟨hi, hd⟩, rfl⟩
  · cases hr

theorem Reads.finish {r : Reader} {ts : List Token} (h : Reads r ts) {length : Nat} {t : Selection}
    (hr : r.finish length = .ok t) : ∃ e : Expression, e.tokens = ts ∧ e.Legal ∧ e.tree = t := by
  cases h with
  | start => exact ⟨.nothing, rfl, trivial, Except.ok.inj hr⟩
  | star => exact ⟨.everything, rfl, trivial, Except.ok.inj hr⟩
  | item _ => cases hr
  | dotted _ _ _ => cases hr
  | named letters position h =>
    simp only [Reader.finish] at hr
    split at hr
    · cases hr
    · rename_i r₁ hp
      have h₁ := Reads.placeItem h (i := .name letters) trivial rfl rfl hp
      exact h₁.finishItem (spot_placeItem hp) hr
  | done i h legal distinct => exact (Reads.done i h legal distinct).finishItem rfl hr

/-- An accepted text derives from the grammar, and the tree is the one denoted. -/
theorem derives_of_parse {s : String} {t : Selection} (h : parse s = .ok t) :
    ∃ e : Expression, Spells s.toList e.tokens ∧ e.Legal ∧ e.tree = t := by
  unfold parse parseChars at h
  split at h
  · cases h
  · rename_i r hr
    obtain ⟨e, ht, hl, hd⟩ := (Reads.start.run hr).finish h
    refine ⟨e, ?_, hl, hd⟩
    rw [ht]
    exact spells_lex s.toList

/-! ### What derives from the grammar is accepted -/

/-- The state once a pending name has been placed. -/
def Reader.close (r : Reader) : Except ReadError Reader :=
  match r.spot with
  | .named name position => placeItem r.frames r.level (named name) position
  | _ => .ok r

/-- Placing a pending name changes nothing where none is pending. -/
theorem Reader.close_eq_ok {r r' : Reader} (h : r.close = .ok r') :
    r = r' ∨ ∃ name position, r.spot = .named name position ∧
      placeItem r.frames r.level (named name) position = .ok r' := by
  unfold Reader.close at h
  split at h
  · rename_i name position hspot
    exact .inr ⟨name, position, hspot, h⟩
  · exact .inl (Except.ok.inj h)

theorem Reader.close_eq_error {r : Reader} {e : ReadError} (h : r.close = .error e) :
    ∃ name position, r.spot = .named name position ∧
      placeItem r.frames r.level (named name) position = .error e := by
  unfold Reader.close at h
  split at h
  · rename_i name position hspot
    exact ⟨name, position, hspot, h⟩
  · cases h

theorem Reader.step_of_close {r r' : Reader} (h : r.close = .ok r') (hs : r'.spot = .done)
    {l : Lexeme} (hl : l.token ≠ .mark '.') :
    r.step l = readAfterItem r'.frames r'.level l := by
  rcases Reader.close_eq_ok h with rfl | ⟨name, position, hspot, hplace⟩
  · simp only [Reader.step, hs]
  · simp only [Reader.step, hspot, if_neg hl, hplace]

/-- A name that cannot be placed is found out by the next token, unless that is a dot. -/
theorem Reader.step_of_close_error {r : Reader} {e : ReadError} (h : r.close = .error e)
    {l : Lexeme} (hl : l.token ≠ .mark '.') : r.step l = .error e := by
  obtain ⟨name, position, hspot, hplace⟩ := Reader.close_eq_error h
  simp only [Reader.step, hspot, if_neg hl, hplace]

theorem Reader.finish_of_close {r r' : Reader} (h : r.close = .ok r') (hs : r'.spot = .done)
    (length : Nat) : r.finish length = finishItem r' length := by
  rcases Reader.close_eq_ok h with rfl | ⟨name, position, hspot, hplace⟩
  · simp only [Reader.finish, hs]
  · simp only [Reader.finish, hspot, hplace]

theorem Reader.finish_of_close_error {r : Reader} {e : ReadError} (h : r.close = .error e)
    (length : Nat) : r.finish length = .error e := by
  obtain ⟨name, position, hspot, hplace⟩ := Reader.close_eq_error h
  simp only [Reader.finish, hspot, hplace]

theorem Reader.close_of_done {r : Reader} (hs : r.spot = .done) : r.close = .ok r := by
  simp [Reader.close, hs]

theorem Reader.run_append (r : Reader) (ls ms : List Lexeme) :
    r.run (ls ++ ms) = match r.run ls with
      | .error e => .error e
      | .ok r => r.run ms := by
  induction ls generalizing r with
  | nil => rfl
  | cons l ls ih =>
    simp only [List.cons_append, Reader.run]
    cases r.step l with
    | error e => rfl
    | ok r => exact ih r

theorem Reader.run_cons_of_step {r r' : Reader} {l : Lexeme} (h : r.step l = .ok r')
    (ls : List Lexeme) : r.run (l :: ls) = r'.run ls := by
  simp [Reader.run, h]

/-- An item begins with a name or with a bracket. -/
theorem Item.tokens_head (i : Item) :
    (∃ letters ts, i.tokens = .name letters :: ts) ∨ ∃ ts, i.tokens = .mark '[' :: ts := by
  cases i with
  | name letters => exact .inl ⟨letters, [], by rw [Item.tokens]⟩
  | path letters tail => exact .inl ⟨letters, _, by rw [Item.tokens]⟩
  | again letters digits => exact .inl ⟨letters, _, by rw [Item.tokens]⟩
  | every letters => exact .inl ⟨letters, _, by rw [Item.tokens]⟩
  | group first others => exact .inr ⟨_, by rw [Item.tokens]⟩

theorem Reader.run_name_dot {l dot : Lexeme} {letters : List Char} (hl : l.token = .name letters)
    (hdot : dot.token = .mark '.') (frames : List Frame) (level : List Selection)
    (ls : List Lexeme) :
    Reader.run ⟨frames, level, .item⟩ (l :: dot :: ls) =
      Reader.run ⟨frames, level, .dotted (String.ofList letters) l.position⟩ ls := by
  have hname : Reader.step ⟨frames, level, .item⟩ l =
      .ok ⟨frames, level, .named (String.ofList letters) l.position⟩ := by
    simp [Reader.step, readItem, hl]
  rw [Reader.run_cons_of_step hname]
  exact Reader.run_cons_of_step (by simp [Reader.step, hdot]) ls

/-- After a name and a dot an item is read as below an open node. -/
theorem Reader.run_dotted (i : Item) {ls : List Lexeme} (ht : ls.map (·.token) = i.tokens)
    (frames : List Frame) (level : List Selection) (name : String) (position : Nat) :
    Reader.run ⟨frames, level, .dotted name position⟩ ls =
      Reader.run ⟨.node name position level :: frames, [], .item⟩ ls := by
  cases ls with
  | nil => rcases i.tokens_head with ⟨_, _, h⟩ | ⟨_, h⟩ <;> simp [h] at ht
  | cons l ls =>
    have hstep : Reader.step ⟨frames, level, .dotted name position⟩ l =
        Reader.step ⟨.node name position level :: frames, [], .item⟩ l := by
      rcases i.tokens_head with ⟨letters, ts, h⟩ | ⟨ts, h⟩ <;>
      · rw [h, List.map_cons, List.cons.injEq] at ht
        simp [Reader.step, readTail, ht.1]
    simp only [Reader.run, hstep]

/-- The whole selection begins as any item does. -/
theorem Reader.run_start (i : Item) {ls : List Lexeme} (ht : ls.map (·.token) = i.tokens) :
    Reader.start.run ls = Reader.run ⟨[], [], .item⟩ ls := by
  cases ls with
  | nil => rcases i.tokens_head with ⟨_, _, h⟩ | ⟨_, h⟩ <;> simp [h] at ht
  | cons l ls =>
    have hstep : Reader.start.step l = Reader.step ⟨[], [], .item⟩ l := by
      rcases i.tokens_head with ⟨letters, ts, h⟩ | ⟨ts, h⟩ <;>
      · rw [h, List.map_cons, List.cons.injEq] at ht
        simp [Reader.step, Reader.start, ht.1]
    simp only [Reader.run, hstep]

/-- Some tokens, after which a pending name is placed. -/
def Reader.read (r : Reader) (ls : List Lexeme) : Except ReadError Reader :=
  match r.run ls with
  | .error e => .error e
  | .ok r => r.close

theorem Reader.read_of_run {r r' : Reader} {ls : List Lexeme} (h : r.run ls = .ok r')
    (ms : List Lexeme) : r.read (ls ++ ms) = r'.read ms := by
  simp only [Reader.read, Reader.run_append, h]

/-- A token that completes an item leaves no name to place. -/
theorem Reader.read_of_step {r : Reader} {l : Lexeme} {x : Except ReadError Reader}
    (h : r.step l = x) (hdone : ∀ r', x = .ok r' → r'.spot = .done) : r.read [l] = x := by
  rw [Reader.read, Reader.run, h]
  cases x with
  | error e => rfl
  | ok r' => exact Reader.close_of_done (hdone r' rfl)

/-- Nodes that join a level one after the other, each read at a position. -/
def placeAll (level : List Selection) :
    List (Selection × Nat) → Except ReadError (List Selection)
  | [] => .ok level
  | (node, position) :: rest =>
    match place level node position with
    | .error e => .error e
    | .ok level => placeAll level rest

theorem placeAll_append (level : List Selection) (placed more : List (Selection × Nat)) :
    placeAll level (placed ++ more) =
      (placeAll level placed).bind fun level => placeAll level more := by
  induction placed generalizing level with
  | nil => rfl
  | cons p placed ih =>
    rw [List.cons_append, placeAll, placeAll]
    cases place level p.1 p.2 with
    | error e => rfl
    | ok level => exact ih level

/-- Nodes join a level when the names stay distinct. -/
theorem placeAll_of_distinct {level : List Selection} {placed : List (Selection × Nat)}
    (hnamed : ∀ p ∈ placed, p.1.name ≠ none) (hd : Distinct (level ++ placed.map (·.1))) :
    placeAll level placed = .ok (level ++ placed.map (·.1)) := by
  induction placed generalizing level with
  | nil => rw [placeAll, List.map_nil, List.append_nil]
  | cons p placed ih =>
    obtain ⟨hp, hnamed⟩ := List.forall_mem_cons.1 hnamed
    rw [List.map_cons, List.append_cons] at hd
    have hplace : place level p.1 p.2 = .ok (level ++ [p.1]) :=
      place_eq_ok.2 ⟨((distinct_concat (name_eq_label hp)).1 (distinct_append.1 hd).1).2, rfl⟩
    simp only [placeAll, hplace, ih hnamed hd, List.map_cons, List.append_assoc,
      List.singleton_append]

theorem placeItem_eq (frames : List Frame) (level : List Selection) (node : Selection)
    (position : Nat) : placeItem frames level node position =
      (placeAll level [(node, position)]).bind (complete frames) := by
  rw [placeItem, placeAll]
  cases place level node position <;> rfl

theorem complete_node (name : String) (position : Nat) (before : List Selection)
    (frames : List Frame) (level : List Selection) :
    complete (.node name position before :: frames) level =
      (placeAll before [({ named name with children := level }, position)]).bind
        (complete frames) := by
  rw [complete, placeAll]
  cases place before { named name with children := level } position <;> rfl

mutual

/-- The nodes of an item have names. -/
theorem Item.name_ne_none (i : Item) : ∀ c ∈ i.nodes, c.name ≠ none := by
  match i with
  | .name _ => exact List.forall_mem_singleton.2 nofun
  | .path _ _ => exact List.forall_mem_singleton.2 nofun
  | .again _ _ => exact List.forall_mem_singleton.2 nofun
  | .every _ => exact List.forall_mem_singleton.2 nofun
  | .group first others =>
    exact List.forall_mem_append.2 ⟨first.name_ne_none, name_ne_none_of_mem_nodesOfAll others⟩

theorem name_ne_none_of_mem_nodesOfAll (is : List Item) : ∀ c ∈ nodesOfAll is, c.name ≠ none := by
  match is with
  | [] => exact nofun
  | i :: is =>
    exact List.forall_mem_append.2 ⟨i.name_ne_none, name_ne_none_of_mem_nodesOfAll is⟩

end

theorem name_ne_none_of_mem_placed {placed : List (Selection × Nat)} {i : Item}
    (h : placed.map (·.1) = i.nodes) : ∀ p ∈ placed, p.1.name ≠ none :=
  fun _ hp => i.name_ne_none _ (h ▸ List.mem_map_of_mem hp)

/-- The digits of a legal bound are read as the bound they denote. -/
theorem readLimit_of_range {digits : List Char} (hd : ∀ c ∈ digits, c.isDigit = true)
    (h : ∀ n, boundOf digits = some n → 1 ≤ n ∧ n ≤ Text.maxWord) (position : Nat) :
    readLimit digits position = .ok (boundOf digits) := by
  unfold readLimit
  by_cases he : digits = []
  · simp [he, boundOf]
  · have hb : boundOf digits = some (Text.valueOfDigits digits) := by simp [boundOf, he]
    obtain ⟨hpos, hmax⟩ := h _ hb
    have hw : Text.word? digits = some (Text.valueOfDigits digits) := by
      have hall : digits.all Char.isDigit = true := List.all_eq_true.2 hd
      simp [Text.word?, he, hall, hmax]
    have hne : digits.isEmpty = false := by simp [he]
    simp only [hne, Bool.false_eq_true, if_false, hw, hb]
    split
    · rename_i h0
      cases h0
    · rename_i h0
      simp only [Option.some.injEq] at h0
      omega
    · rename_i n hn
      rw [hn]

/-- An item of a group and what comes after it, up to the closing bracket. -/
theorem Reader.read_append {r : Reader} {ls ms : List Lexeme}
    {placed more : List (Selection × Nat)} {opened : Nat} {frames : List Frame}
    {level : List Selection}
    (hfirst : r.read ls = (placeAll level placed).bind (complete (.group opened :: frames)))
    (hnext : ∃ m ms', ms = m :: ms' ∧ m.token ≠ .mark '.')
    (hrest : ∀ (level : List Selection) (r : Reader),
      r.close = .ok ⟨.group opened :: frames, level, .done⟩ →
      r.read ms = (placeAll level more).bind (complete frames)) :
    r.read (ls ++ ms) = (placeAll level (placed ++ more)).bind (complete frames) := by
  rw [placeAll_append]
  rw [Reader.read] at hfirst
  cases hrun : r.run ls with
  | error e =>
    simp only [hrun] at hfirst
    cases hplaced : placeAll level placed with
    | error e' =>
      rw [hplaced] at hfirst
      simp only [Reader.read, Reader.run_append, hrun]
      exact hfirst
    | ok level' =>
      rw [hplaced] at hfirst
      cases hfirst
  | ok r₁ =>
    simp only [hrun] at hfirst
    rw [Reader.read_of_run hrun]
    cases hplaced : placeAll level placed with
    | error e =>
      rw [hplaced] at hfirst
      obtain ⟨m, ms', rfl, hm⟩ := hnext
      simp only [Reader.read, Reader.run, Reader.step_of_close_error hfirst hm]
      rfl
    | ok level' =>
      rw [hplaced] at hfirst
      exact hrest level' r₁ hfirst

/-- What comes after an item of a group begins with a comma or with the closing bracket. -/
theorem others_head {is : List Item} {ls : List Lexeme}
    (ht : ls.map (·.token) = tokensOfOthers is ++ [.mark ']']) :
    ∃ l ms, ls = l :: ms ∧ l.token ≠ .mark '.' := by
  cases is with
  | nil =>
    obtain ⟨l, ms, rfl, hl, -⟩ := List.map_eq_cons_iff.1 ht
    exact ⟨l, ms, rfl, by rw [hl]; decide⟩
  | cons i is =>
    obtain ⟨l, ms, rfl, hl, -⟩ := List.map_eq_cons_iff.1 ht
    exact ⟨l, ms, rfl, by rw [hl]; decide⟩

mutual

/-- Wherever an item may stand, the tokens of a legal item are read as its nodes, which join the
siblings before them one after the other. -/
theorem read_item (i : Item) (hi : i.Legal) {ls : List Lexeme} (hp : ∀ l ∈ ls, l.token.Proper)
    (ht : ls.map (·.token) = i.tokens) :
    ∃ placed : List (Selection × Nat), placed.map (·.1) = i.nodes ∧ ∀ frames level,
      Reader.read ⟨frames, level, .item⟩ ls = (placeAll level placed).bind (complete frames) := by
  match i with
  | .name letters =>
    simp only [Item.tokens, List.map_eq_cons_iff, List.map_eq_nil_iff] at ht
    obtain ⟨l, _, rfl, hl, rfl⟩ := ht
    refine ⟨[(named (String.ofList letters), l.position)], rfl, fun frames level => ?_⟩
    rw [← placeItem_eq]
    simp [Reader.read, Reader.run, Reader.step, readItem, hl, Reader.close]
  | .path letters tail =>
    obtain ⟨htail, hdt⟩ := hi
    simp only [Item.tokens, List.map_eq_cons_iff] at ht
    obtain ⟨l, _, rfl, hl, dot, ls, rfl, hdot, hls⟩ := ht
    obtain ⟨placed, hplaced, hread⟩ := read_item tail htail
      (fun m hm => hp m (List.mem_cons_of_mem _ (List.mem_cons_of_mem _ hm))) hls
    refine ⟨[({ named (String.ofList letters) with children := tail.nodes }, l.position)], rfl,
      fun frames level => ?_⟩
    -- the names below are distinct, so what can go wrong is the name of the node itself
    have hbelow : placeAll [] placed = .ok tail.nodes := by
      rw [placeAll_of_distinct (name_ne_none_of_mem_placed hplaced) (by simpa [hplaced] using hdt),
        hplaced, List.nil_append]
    rw [← complete_node, Reader.read, Reader.run_name_dot hl hdot, Reader.run_dotted tail hls,
      ← Reader.read, hread, hbelow]
    rfl
  | .again letters digits =>
    simp only [Item.tokens, List.map_eq_cons_iff, List.map_eq_nil_iff] at ht
    obtain ⟨l, _, rfl, hl, dot, _, rfl, hdot, caret, _, rfl, hcaret, rfl⟩ := ht
    have hdigits : ∀ c ∈ digits, c.isDigit = true := by
      have := hp caret (by simp)
      rw [hcaret] at this
      exact this
    refine ⟨[((named (String.ofList letters)).follow (boundOf digits), l.position)], rfl,
      fun frames level => ?_⟩
    rw [← placeItem_eq, Reader.read, Reader.run_name_dot hl hdot, ← Reader.read]
    refine Reader.read_of_step ?_ fun r' => spot_placeItem
    simp only [Reader.step, readTail, hcaret, readLimit_of_range hdigits hi]
  | .every letters =>
    simp only [Item.tokens, List.map_eq_cons_iff, List.map_eq_nil_iff] at ht
    obtain ⟨l, _, rfl, hl, dot, _, rfl, hdot, star, _, rfl, hstar, rfl⟩ := ht
    refine ⟨[((named (String.ofList letters)).everything, l.position)], rfl,
      fun frames level => ?_⟩
    rw [← placeItem_eq, Reader.read, Reader.run_name_dot hl hdot, ← Reader.read]
    refine Reader.read_of_step ?_ fun r' => spot_placeItem
    simp only [Reader.step, readTail, hstar]
  | .group first others =>
    obtain ⟨hfirst, hothers⟩ := hi
    rw [Item.tokens] at ht
    obtain ⟨opening, _, rfl, hopening, ht⟩ := List.map_eq_cons_iff.1 ht
    obtain ⟨ls₁, ls₂, rfl, hls₁, hls₂⟩ := List.map_eq_append_iff.1 ht
    obtain ⟨placed, hplaced, hread⟩ := read_item first hfirst (fun m hm => hp m (by simp [hm])) hls₁
    obtain ⟨more, hmore, hrest⟩ :=
      read_others others hothers (fun m hm => hp m (by simp [hm])) hls₂
    refine ⟨placed ++ more, by rw [List.map_append, hplaced, hmore, Item.nodes],
      fun frames level => ?_⟩
    have hopen : Reader.step ⟨frames, level, .item⟩ opening =
        .ok ⟨.group opening.position :: frames, level, .item⟩ := by
      simp [Reader.step, readItem, hopening]
    rw [Reader.read, Reader.run_cons_of_step hopen, ← Reader.read]
    exact Reader.read_append (hread _ level) (others_head hls₂) fun level r =>
      hrest _ frames level r

/-- The same for the items after the first of a group, with its closing bracket. -/
theorem read_others (is : List Item) (his : LegalAll is) {ls : List Lexeme}
    (hp : ∀ l ∈ ls, l.token.Proper)
    (ht : ls.map (·.token) = tokensOfOthers is ++ [.mark ']']) :
    ∃ placed : List (Selection × Nat), placed.map (·.1) = nodesOfAll is ∧
      ∀ opened frames level (r : Reader),
        r.close = .ok ⟨.group opened :: frames, level, .done⟩ →
          r.read ls = (placeAll level placed).bind (complete frames) := by
  match is with
  | [] =>
    obtain ⟨closing, _, rfl, hclosing, hnil⟩ := List.map_eq_cons_iff.1 ht
    obtain rfl := List.map_eq_nil_iff.1 hnil
    refine ⟨[], rfl, fun opened frames level r hr => ?_⟩
    refine Reader.read_of_step ?_ fun r' => spot_complete
    rw [Reader.step_of_close hr rfl (by rw [hclosing]; decide)]
    simp only [readAfterItem, hclosing]
    rfl
  | i :: is =>
    obtain ⟨hi, his⟩ := his
    rw [tokensOfOthers, List.cons_append, List.append_assoc] at ht
    obtain ⟨comma, _, rfl, hcomma, ht⟩ := List.map_eq_cons_iff.1 ht
    obtain ⟨ls₁, ls₂, rfl, hls₁, hls₂⟩ := List.map_eq_append_iff.1 ht
    obtain ⟨placed, hplaced, hread⟩ := read_item i hi (fun m hm => hp m (by simp [hm])) hls₁
    obtain ⟨more, hmore, hrest⟩ := read_others is his (fun m hm => hp m (by simp [hm])) hls₂
    refine ⟨placed ++ more, by rw [List.map_append, hplaced, hmore, nodesOfAll],
      fun opened frames level r hr => ?_⟩
    have hstep := Reader.step_of_close hr rfl (l := comma) (by rw [hcomma]; decide)
    simp only [readAfterItem, hcomma] at hstep
    rw [Reader.read, Reader.run_cons_of_step hstep, ← Reader.read]
    exact Reader.read_append (hread _ level) (others_head hls₂) fun level r =>
      hrest _ frames level r

end

theorem Spells.proper {cs : List Char} {ts : List Token} (h : Spells cs ts) :
    ∀ t ∈ ts, t.Proper := by
  induction h with
  | nil => simp
  | blank _ _ ih => exact ih
  | token ht _ ih => exact List.forall_mem_cons.2 ⟨ht, ih⟩

/-- A text that spells a legal item is read as the nodes of the item, one after the other. -/
theorem parse_of_spells {s : String} {i : Item} (hs : Spells s.toList i.tokens) (hi : i.Legal) :
    ∃ placed : List (Selection × Nat), placed.map (·.1) = i.nodes ∧
      parse s = (placeAll [] placed).map fun level => { root with children := level } := by
  have ht : (lex s.toList).map (·.token) = i.tokens :=
    lex_of_spells hs (Expression.item i).clear_tokens
  have hp : ∀ l ∈ lex s.toList, l.token.Proper := fun l hl =>
    hs.proper _ (ht ▸ List.mem_map_of_mem hl)
  obtain ⟨placed, hplaced, hread⟩ := read_item i hi hp ht
  refine ⟨placed, hplaced, ?_⟩
  have hread := hread [] []
  unfold parse parseChars
  rw [Reader.run_start i ht]
  rw [Reader.read] at hread
  cases hrun : Reader.run ⟨[], [], .item⟩ (lex s.toList) with
  | error e =>
    simp only [hrun] at hread
    cases hplace : placeAll [] placed with
    | error e' =>
      rw [hplace] at hread
      exact congrArg Except.error (Except.error.inj hread)
    | ok level =>
      rw [hplace] at hread
      cases hread
  | ok r =>
    simp only [hrun] at hread ⊢
    cases hplace : placeAll [] placed with
    | error e =>
      rw [hplace] at hread
      exact Reader.finish_of_close_error hread _
    | ok level =>
      rw [hplace] at hread
      exact Reader.finish_of_close hread rfl _

/-- What derives from the grammar is accepted, with the tree that the derivation denotes. -/
theorem parse_of_derives {s : String} {e : Expression} (hs : Spells s.toList e.tokens)
    (hl : e.Legal) : parse s = .ok e.tree := by
  cases e with
  | nothing =>
    have ht : lex s.toList = [] := List.map_eq_nil_iff.1 (lex_of_spells hs List.isChain_nil)
    rw [parse, parseChars, ht]
    rfl
  | everything =>
    have ht := lex_of_spells hs Expression.everything.clear_tokens
    obtain ⟨l, _, hls, hstar, hnil⟩ := List.map_eq_cons_iff.1 ht
    obtain rfl := List.map_eq_nil_iff.1 hnil
    rw [parse, parseChars, hls]
    simp [Reader.run, Reader.step, Reader.start, hstar, Reader.finish, Expression.tree]
  | item i =>
    obtain ⟨hi, hd⟩ := hl
    obtain ⟨placed, hplaced, hparse⟩ := parse_of_spells hs hi
    have hall : placeAll [] placed = .ok i.nodes := by
      rw [placeAll_of_distinct (name_ne_none_of_mem_placed hplaced) (by simpa [hplaced] using hd),
        hplaced, List.nil_append]
    rw [hparse, hall]
    rfl

/-- The reader accepts what derives from the grammar with distinct names on every level and bounds in
range, and nothing else; the tree is the one that the derivation denotes. -/
theorem parse_eq_ok_iff_derives (s : String) (t : Selection) :
    parse s = .ok t ↔ ∃ e : Expression, Spells s.toList e.tokens ∧ e.Legal ∧ e.tree = t := by
  constructor
  · exact derives_of_parse
  · rintro ⟨e, hs, hl, rfl⟩
    exact parse_of_derives hs hl

end Prefetch.Selection
