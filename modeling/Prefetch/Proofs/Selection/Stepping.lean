import Prefetch.Proofs.Selection.Viable

/-!
# Stepping — what one token does to the reader

A token moves the reader or is refused.  When it moves the reader, the outline goes the same way,
the brackets are counted, and the only node that comes to be read is one whose name the token is.
When it is refused, either no outline goes on from here, or a node whose path it completes has a
name that is taken, or its digits denote no bound.

* `step_eq_ok` — what a token has done.
* `step_eq_error` — what a token is blamed for.
-/

namespace Prefetch.Selection

variable {r r' : Reader} {l : Lexeme} {e : ReadError} {frames outer : List Frame}
  {level before : List Selection} {node : Selection} {name : String} {position : Nat}
  {ts : List Token}

/-! ### What is open, and what is being read -/

/-- The positions of the open groups, innermost first. -/
def opened : List Frame → List Nat
  | [] => []
  | .group position :: frames => position :: opened frames
  | .node .. :: frames => opened frames

theorem innermostGroup?_eq (frames : List Frame) :
    innermostGroup? frames = (opened frames).head? := by
  induction frames with
  | nil => rfl
  | cons f frames ih =>
    cases f with
    | group position => rfl
    | node name position before => exact ih

/-- A node is being read, with the siblings before it. -/
inductive Holds (r : Reader) (name : String) (position : Nat) : List Selection → Prop where
  | frame {before : List Selection} (h : .node name position before ∈ r.frames) :
      Holds r name position before
  | named (h : r.spot = .named name position) : Holds r name position r.level
  | dotted (h : r.spot = .dotted name position) : Holds r name position r.level

/-- The reader without what it has read. -/
def Reader.outline (r : Reader) : Outline where
  groups := (opened r.frames).length
  phase :=
    match r.spot with
    | .start => .start
    | .star => .star
    | .item => .item
    | .named .. => .named
    | .dotted .. => .dotted
    | .done => .done

/-- When an item is complete, what is innermost is a group or nothing at all. -/
def Settled (frames : List Frame) : Prop :=
  frames = [] ∨ ∃ position outer, frames = .group position :: outer

/-! ### Faults of the notation -/

/-- A fault of the notation, which stands at a token. -/
def ReadFault.IsFormal : ReadFault → Prop
  | .duplicate _ => False
  | .zeroLimit => False
  | .hugeLimit => False
  | .unterminatedGroup => False
  | .unexpectedEnd => False
  | _ => True

/-- An error of the notation at a token. -/
def FormalAt (l : Lexeme) (e : ReadError) : Prop :=
  e.position = l.position ∧ e.fault.IsFormal

/-! ### Completing items -/

theorem complete_eq_ok (h : complete frames level = .ok r) :
    r.frames <:+ frames ∧ opened r.frames = opened frames := by
  induction frames generalizing level with
  | nil =>
    obtain rfl := Except.ok.inj h
    exact ⟨List.suffix_rfl, rfl⟩
  | cons f frames ih =>
    cases f with
    | group position =>
      obtain rfl := Except.ok.inj h
      exact ⟨List.suffix_rfl, rfl⟩
    | node name position before =>
      rw [complete] at h
      split at h
      · cases h
      · obtain ⟨hsuffix, hopened⟩ := ih h
        exact ⟨hsuffix.trans (List.suffix_cons _ _), hopened⟩

theorem place_eq_error (h : place level node position = .error e) :
    (find? level node.label).isSome = true ∧ e = ⟨position, .duplicate node.label⟩ := by
  unfold place at h
  split at h
  · rename_i hsome
    exact ⟨hsome, (Except.error.inj h).symm⟩
  · cases h

theorem complete_eq_error (h : complete frames level = .error e) :
    ∃ name position before, .node name position before ∈ frames ∧
      (find? before name).isSome = true ∧ e = ⟨position, .duplicate name⟩ := by
  induction frames generalizing level with
  | nil => cases h
  | cons f frames ih =>
    cases f with
    | group position => cases h
    | node name position before =>
      rw [complete] at h
      split at h
      · rename_i e' hplace
        obtain rfl := Except.error.inj h
        obtain ⟨hsome, rfl⟩ := place_eq_error hplace
        exact ⟨name, position, before, List.mem_cons_self, hsome, rfl⟩
      · obtain ⟨name', position', before', hmem, hrest⟩ := ih h
        exact ⟨name', position', before', List.mem_cons_of_mem _ hmem, hrest⟩

theorem placeItem_eq_ok (h : placeItem frames level node position = .ok r) :
    ∃ level', complete frames level' = .ok r := by
  unfold placeItem at h
  split at h
  · cases h
  · exact ⟨_, h⟩

theorem placeItem_eq_error (hlabel : node.label = name) (hheld : Holds r name position level)
    (h : placeItem r.frames level node position = .error e) :
    ∃ name position before, Holds r name position before ∧ (find? before name).isSome = true ∧
      e = ⟨position, .duplicate name⟩ := by
  unfold placeItem at h
  split at h
  · rename_i e' hplace
    obtain rfl := Except.error.inj h
    obtain ⟨htaken, rfl⟩ := place_eq_error hplace
    rw [hlabel] at htaken ⊢
    exact ⟨name, position, level, hheld, htaken, rfl⟩
  · obtain ⟨name', position', before, hmem, htaken, rfl⟩ := complete_eq_error h
    exact ⟨name', position', before, .frame hmem, htaken, rfl⟩

/-! ### The parts of a step -/

theorem readItem_eq_ok (h : readItem frames level l = .ok r) :
    (∃ letters, l.token = .name letters ∧
        r = ⟨frames, level, .named (String.ofList letters) l.position⟩) ∨
      l.token = .mark '[' ∧ r = ⟨.group l.position :: frames, level, .item⟩ := by
  unfold readItem at h
  split at h
  · rename_i letters ht
    exact .inl ⟨letters, ht, (Except.ok.inj h).symm⟩
  · cases h
  · rename_i ht
    exact .inr ⟨ht, (Except.ok.inj h).symm⟩
  · cases h
  · split at h <;> cases h
  · cases h

theorem readItem_eq_error (h : readItem frames level l = .error e) :
    FormalAt l e ∧ ∀ groups, Outline.item groups l.token = none := by
  unfold readItem at h
  split at h
  · cases h
  · rename_i ht
    obtain rfl := Except.error.inj h
    exact ⟨⟨rfl, trivial⟩, fun _ => by rw [ht]; rfl⟩
  · cases h
  · rename_i ht
    obtain rfl := Except.error.inj h
    exact ⟨⟨rfl, trivial⟩, fun _ => by rw [ht]; rfl⟩
  · rename_i ht
    split at h <;>
    · obtain rfl := Except.error.inj h
      exact ⟨⟨rfl, trivial⟩, fun _ => by rw [ht]; rfl⟩
  · rename_i c hc _ _ ht
    obtain rfl := Except.error.inj h
    refine ⟨⟨rfl, trivial⟩, fun groups => ?_⟩
    rw [ht, Outline.item]
    · intro letters he
      cases he
    · exact fun he => hc (Token.mark.inj he)

theorem readAfterItem_eq_ok (h : readAfterItem frames level l = .ok r) :
    ∃ position outer, frames = .group position :: outer ∧
      (l.token = .mark ',' ∧ r = ⟨frames, level, .item⟩ ∨
        l.token = .mark ']' ∧ complete outer level = .ok r) := by
  unfold readAfterItem at h
  split at h
  · rename_i position outer
    refine ⟨position, outer, rfl, ?_⟩
    split at h
    · rename_i ht
      exact .inl ⟨ht, (Except.ok.inj h).symm⟩
    · rename_i ht
      exact .inr ⟨ht, h⟩
    · cases h
    · cases h
  · cases h

theorem readAfterAll_formal (marked : Bool) (l : Lexeme) : FormalAt l (readAfterAll marked l) := by
  unfold readAfterAll
  split
  · exact ⟨rfl, trivial⟩
  · refine ⟨rfl, ?_⟩
    dsimp only
    split <;> trivial
  · exact ⟨rfl, trivial⟩

theorem readAfterItem_eq_error (hsettled : Settled frames)
    (h : readAfterItem frames level l = .error e) :
    (FormalAt l e ∧ Outline.after (opened frames).length l.token = none) ∨
      ∃ position outer, frames = .group position :: outer ∧ complete outer level = .error e := by
  rcases hsettled with rfl | ⟨position, outer, rfl⟩
  · obtain rfl := Except.error.inj h
    exact .inl ⟨readAfterAll_formal _ l, rfl⟩
  · simp only [readAfterItem] at h
    split at h
    · cases h
    · exact .inr ⟨position, outer, rfl, h⟩
    · rename_i ht
      obtain rfl := Except.error.inj h
      exact .inl ⟨⟨rfl, trivial⟩, by rw [ht]; rfl⟩
    · rename_i hcomma hclose _
      obtain rfl := Except.error.inj h
      refine .inl ⟨⟨rfl, trivial⟩, ?_⟩
      rw [opened, List.length_cons, Outline.after]
      · exact fun _ _ he => hcomma he
      · exact fun _ _ he => hclose he

theorem readLimit_eq_error {digits : List Char} (h : readLimit digits position = .error e) :
    digits ≠ [] ∧ (Text.word? digits = none ∧ e = ⟨position, .hugeLimit⟩ ∨
      Text.word? digits = some 0 ∧ e = ⟨position, .zeroLimit⟩) := by
  unfold readLimit at h
  split at h
  · cases h
  · rename_i hdigits
    refine ⟨by simpa using hdigits, ?_⟩
    split at h
    · rename_i hword
      exact .inl ⟨hword, (Except.error.inj h).symm⟩
    · rename_i hword
      exact .inr ⟨hword, (Except.error.inj h).symm⟩
    · cases h

theorem readTail_eq_ok (h : readTail frames level name position l = .ok r) :
    ((∃ digits, l.token = .caret digits) ∨ l.token = .mark '*') ∧
        (∃ node, placeItem frames level node position = .ok r) ∨
      (∀ groups, Outline.next ⟨groups, .dotted⟩ l.token = Outline.item groups l.token) ∧
        readItem (.node name position level :: frames) [] l = .ok r := by
  unfold readTail at h
  split at h
  · rename_i digits ht
    split at h
    · cases h
    · exact .inl ⟨.inl ⟨digits, ht⟩, _, h⟩
  · rename_i ht
    exact .inl ⟨.inr ht, _, h⟩
  · rename_i hcaret hstar
    exact .inr ⟨Outline.next_dotted hcaret hstar, h⟩

theorem readTail_eq_error (h : readTail frames level name position l = .error e) :
    (∃ digits, l.token = .caret digits ∧ readLimit digits (l.position + 1) = .error e) ∨
      (∃ node : Selection, node.label = name ∧ placeItem frames level node position = .error e) ∨
        (∀ groups, Outline.next ⟨groups, .dotted⟩ l.token = Outline.item groups l.token) ∧
          readItem (.node name position level :: frames) [] l = .error e := by
  unfold readTail at h
  split at h
  · rename_i digits ht
    split at h
    · rename_i e' hlimit
      obtain rfl := Except.error.inj h
      exact .inl ⟨digits, ht, hlimit⟩
    · exact .inr (.inl ⟨_, rfl, h⟩)
  · exact .inr (.inl ⟨_, rfl, h⟩)
  · rename_i hcaret hstar
    exact .inr (.inr ⟨Outline.next_dotted hcaret hstar, h⟩)

/-! ### A token that is read -/

/-- What one token does: the outline goes the same way, brackets are counted, and only a name that
is read here is new among the nodes being read. -/
structure Moves (r : Reader) (l : Lexeme) (r' : Reader) : Prop where
  outline : r.outline.next l.token = some r'.outline
  brackets : opened r'.frames = bracketOf (opened r.frames) l
  held : ∀ {name position before}, Holds r' name position before →
    Holds r name position before ∨
      (r'.spot = .named name position ∧ position = l.position ∧ before = r'.level)
  settled : r'.spot = .done → Settled r'.frames

theorem Moves.of_readItem (hnext : r.outline.next l.token = Outline.item r.outline.groups l.token)
    (hopened : opened frames = opened r.frames)
    (hnodes : ∀ name position before, .node name position before ∈ frames →
      Holds r name position before)
    (h : readItem frames level l = .ok r') : Moves r l r' := by
  obtain ⟨letters, ht, rfl⟩ | ⟨ht, rfl⟩ := readItem_eq_ok h
  · refine ⟨?_, by rw [bracketOf, ht]; exact hopened, fun hheld => ?_, fun hdone => by cases hdone⟩
    · rw [hnext, ht, Reader.outline, Reader.outline, hopened]
      rfl
    cases hheld with
    | frame hmem => exact .inl (hnodes _ _ _ hmem)
    | named hspot =>
      obtain ⟨rfl, rfl⟩ := Spot.named.inj hspot
      exact .inr ⟨rfl, rfl, rfl⟩
    | dotted hspot => cases hspot
  · refine ⟨?_, by rw [bracketOf, ht, ← hopened]; rfl, fun hheld => ?_, fun hdone => by cases hdone⟩
    · rw [hnext, ht, Reader.outline, Reader.outline, opened, hopened]
      rfl
    cases hheld with
    | frame hmem =>
      rcases List.mem_cons.1 hmem with hmem | hmem
      · cases hmem
      · exact .inl (hnodes _ _ _ hmem)
    | named hspot => cases hspot
    | dotted hspot => cases hspot

theorem Moves.of_complete
    (hnext : r.outline.next l.token = some ⟨(opened frames).length, .done⟩)
    (hopened : opened frames = bracketOf (opened r.frames) l)
    (hnodes : ∀ name position before, .node name position before ∈ frames →
      Holds r name position before)
    (h : complete frames level = .ok r') : Moves r l r' := by
  obtain ⟨hsuffix, hsame⟩ := complete_eq_ok h
  have hspot := spot_complete h
  refine ⟨?_, hsame.trans hopened, fun hheld => ?_, fun _ => complete_stack h⟩
  · rw [hnext, Reader.outline, hspot, hsame]
  · cases hheld with
    | frame hmem => exact .inl (hnodes _ _ _ (hsuffix.mem hmem))
    | named hs => rw [hspot] at hs; cases hs
    | dotted hs => rw [hspot] at hs; cases hs

theorem Moves.of_readAfterItem
    (hnext : r.outline.next l.token = Outline.after (opened frames).length l.token)
    (hopened : opened frames = opened r.frames)
    (hnodes : ∀ name position before, .node name position before ∈ frames →
      Holds r name position before)
    (h : readAfterItem frames level l = .ok r') : Moves r l r' := by
  obtain ⟨position, outer, rfl, ⟨ht, rfl⟩ | ⟨ht, hcomplete⟩⟩ := readAfterItem_eq_ok h
  · refine ⟨by rw [hnext, ht]; rfl, by rw [bracketOf, ht]; exact hopened, fun hheld => ?_,
      fun hdone => by cases hdone⟩
    cases hheld with
    | frame hmem => exact .inl (hnodes _ _ _ hmem)
    | named hspot => cases hspot
    | dotted hspot => cases hspot
  · refine .of_complete (by rw [hnext, ht]; rfl) (by rw [bracketOf, ht, ← hopened]; rfl)
      (fun name position before hmem => hnodes _ _ _ (List.mem_cons_of_mem _ hmem)) hcomplete

theorem step_eq_ok (hr : Reads r ts) (h : r.step l = .ok r') : Moves r l r' := by
  cases hr with
  | start =>
    simp only [Reader.step, Reader.start] at h
    split at h
    · rename_i ht
      obtain rfl := Except.ok.inj h
      refine ⟨by rw [ht]; rfl, by rw [bracketOf, ht]; rfl, fun hheld => ?_,
        fun hdone => by cases hdone⟩
      cases hheld with
      | frame hmem => cases hmem
      | named hspot => cases hspot
      | dotted hspot => cases hspot
    · rename_i ht
      exact .of_readItem (if_neg ht) rfl (fun _ _ _ hmem => by cases hmem) h
  | star => cases h
  | item hopen => exact .of_readItem rfl rfl (fun _ _ _ hmem => .frame hmem) h
  | named letters position hopen =>
    simp only [Reader.step] at h
    split at h
    · rename_i ht
      obtain rfl := Except.ok.inj h
      refine ⟨by rw [ht]; rfl, by rw [bracketOf, ht]; rfl, fun hheld => ?_,
        fun hdone => by cases hdone⟩
      cases hheld with
      | frame hmem => exact .inl (.frame hmem)
      | named hspot => cases hspot
      | dotted hspot =>
        obtain ⟨rfl, rfl⟩ := Spot.dotted.inj hspot
        exact .inl (.named rfl)
    · rename_i ht
      split at h
      · cases h
      · rename_i r₁ hplace
        obtain ⟨level', hcomplete⟩ := placeItem_eq_ok hplace
        obtain ⟨hsuffix, hsame⟩ := complete_eq_ok hcomplete
        refine .of_readAfterItem ?_ hsame (fun _ _ _ hmem => .frame (hsuffix.mem hmem)) h
        rw [hsame]
        exact if_neg ht
  | dotted letters position hopen =>
    simp only [Reader.step] at h
    obtain ⟨ht, node, hplace⟩ | ⟨hnext, hitem⟩ := readTail_eq_ok h
    · obtain ⟨level', hcomplete⟩ := placeItem_eq_ok hplace
      refine .of_complete ?_ ?_ (fun _ _ _ hmem => .frame hmem) hcomplete
      · obtain ⟨digits, ht⟩ | ht := ht <;> rw [ht] <;> rfl
      · unfold bracketOf
        obtain ⟨digits, ht⟩ | ht := ht <;> rw [ht]
        rfl
    · refine .of_readItem (hnext _) ?_ (fun name' position' before hmem => ?_) hitem
      · rfl
      · rcases List.mem_cons.1 hmem with hmem | hmem
        · obtain ⟨rfl, rfl, rfl⟩ := Frame.node.inj hmem
          exact .dotted rfl
        · exact .frame hmem
  | done i hopen legal distinct =>
    exact .of_readAfterItem rfl rfl (fun _ _ _ hmem => .frame hmem) h

/-! ### A token that is refused -/

/-- What a token is blamed for: it cannot stand here, a node whose path it completes has a name that
is taken, or its digits denote no bound. -/
inductive Blames (r : Reader) (l : Lexeme) : ReadError → Prop where
  | form {fault : ReadFault} (formal : fault.IsFormal) (stops : r.outline.next l.token = none) :
      Blames r l ⟨l.position, fault⟩
  | repeated {name : String} {position : Nat} {before : List Selection}
      (held : Holds r name position before) (taken : (find? before name).isSome = true) :
      Blames r l ⟨position, .duplicate name⟩
  | zero {digits : List Char} (token : l.token = .caret digits) (nonempty : digits ≠ [])
      (word : Text.word? digits = some 0) : Blames r l ⟨l.position + 1, .zeroLimit⟩
  | huge {digits : List Char} (token : l.token = .caret digits) (nonempty : digits ≠ [])
      (word : Text.word? digits = none) : Blames r l ⟨l.position + 1, .hugeLimit⟩

theorem Blames.of_form (h : FormalAt l e) (hstops : r.outline.next l.token = none) :
    Blames r l e := by
  obtain ⟨position, fault⟩ := e
  obtain rfl : position = l.position := h.1
  exact .form h.2 hstops

theorem Blames.of_placeItem (hlabel : node.label = name) (hheld : Holds r name position level)
    (h : placeItem r.frames level node position = .error e) : Blames r l e := by
  obtain ⟨name', position', before, hbefore, htaken, rfl⟩ := placeItem_eq_error hlabel hheld h
  exact .repeated hbefore htaken

theorem Blames.of_readAfterItem (hsettled : Settled frames) (hsuffix : frames <:+ r.frames)
    (hnext : r.outline.next l.token = Outline.after (opened frames).length l.token)
    (h : readAfterItem frames level l = .error e) : Blames r l e := by
  obtain ⟨hformal, hstops⟩ | ⟨position, outer, rfl, hcomplete⟩ :=
    readAfterItem_eq_error hsettled h
  · exact .of_form hformal (hnext.trans hstops)
  · obtain ⟨name, position', before, hmem, htaken, rfl⟩ := complete_eq_error hcomplete
    exact .repeated (.frame (hsuffix.mem (List.mem_cons_of_mem _ hmem))) htaken

theorem Blames.of_readItem (hnext : r.outline.next l.token = Outline.item r.outline.groups l.token)
    (h : readItem frames level l = .error e) : Blames r l e := by
  obtain ⟨hformal, hstops⟩ := readItem_eq_error h
  exact .of_form hformal (hnext.trans (hstops _))

/-- What one token is blamed for. -/
theorem step_eq_error (hr : Reads r ts) (hsettled : r.spot = .done → Settled r.frames)
    (h : r.step l = .error e) : Blames r l e := by
  cases hr with
  | start =>
    simp only [Reader.step, Reader.start] at h
    split at h
    · cases h
    · rename_i ht
      exact .of_readItem (if_neg ht) h
  | star =>
    obtain rfl := Except.error.inj h
    exact .of_form (readAfterAll_formal true l) rfl
  | item hopen => exact .of_readItem rfl h
  | named letters position hopen =>
    simp only [Reader.step] at h
    split at h
    · cases h
    · rename_i ht
      split at h
      · rename_i e' hplace
        obtain rfl := Except.error.inj h
        exact .of_placeItem rfl (.named rfl) hplace
      · rename_i r₁ hplace
        obtain ⟨level', hcomplete⟩ := placeItem_eq_ok hplace
        obtain ⟨hsuffix, hsame⟩ := complete_eq_ok hcomplete
        refine .of_readAfterItem (complete_stack hcomplete) hsuffix ?_ h
        rw [hsame]
        exact if_neg ht
  | dotted letters position hopen =>
    obtain ⟨digits, ht, hlimit⟩ | ⟨node, hlabel, hplace⟩ | ⟨hnext, hitem⟩ := readTail_eq_error h
    · obtain ⟨hne, ⟨hword, rfl⟩ | ⟨hword, rfl⟩⟩ := readLimit_eq_error hlimit
      · exact .huge ht hne hword
      · exact .zero ht hne hword
    · exact .of_placeItem hlabel (.dotted rfl) hplace
    · exact .of_readItem (hnext _) hitem
  | done i hopen legal distinct =>
    exact .of_readAfterItem (hsettled rfl) List.suffix_rfl rfl h

end Prefetch.Selection
