import Prefetch.Proofs.Selection.Reading
import Prefetch.Selection.Canonical

/-!
# RoundTrip — canonical text reads back as the tree it was written from

The canonical text of a tree that the notation can write derives from the grammar, and the derivation
denotes the tree itself.  What reading gives is such a tree.

* `exists_item` — a node that can be written has an item that denotes it and that its text spells.
* `writable_of_parse` — reading gives trees that can be written.
* `parse_text` — the text of a tree that can be written reads back as that tree.
-/

namespace Prefetch.Selection

/-- Names are made of name characters, and bounds are positive and fit in 64 bits. -/
structure Spellable (s : Selection) : Prop where
  letters : ∀ c ∈ s.children, c.label.toList ≠ [] ∧ ∀ ch ∈ c.label.toList, isNameChar ch = true
  range : ∀ n, s.limit = some n → 1 ≤ n ∧ n ≤ Text.maxWord

/-- A tree that the notation can write. -/
structure Writable (t : Selection) : Prop where
  unnamed : t.name = none
  wellFormed : t.WellFormed
  spellable : Everywhere Spellable t

/-- A named node that the notation can write. -/
structure WritableNode (c : Selection) : Prop where
  named : c.name ≠ none
  letters : c.label.toList ≠ [] ∧ ∀ ch ∈ c.label.toList, isNameChar ch = true
  wellFormed : c.WellFormed
  spellable : Everywhere Spellable c

/-- What lies below a node that can be written can be written. -/
theorem writableNode_of_mem {s c : Selection} (hw : s.WellFormed) (hs : Everywhere Spellable s)
    (hc : c ∈ s.children) : WritableNode c :=
  ⟨hw.coherent.named c hc, hs.here.letters c hc, hw.of_mem hc, hs.of_mem hc⟩

/-! ### Writing -/

/-- An item denotes some nodes, and a text spells it in front of whatever comes after. -/
structure Item.Writes (i : Item) (nodes : List Selection) (cs : List Char) : Prop where
  nodes : i.nodes = nodes
  legal : i.Legal
  spells : ∀ {rest : List Char} {ts : List Token}, Spells rest ts →
    Spells (cs ++ rest) (i.tokens ++ ts)

theorem proper_mark {c : Char} (hc : c ∈ ['.', ',', '*', '[', ']']) : (Token.mark c).Proper := by
  simp only [List.mem_cons, List.not_mem_nil, or_false] at hc
  rcases hc with rfl | rfl | rfl | rfl | rfl
  all_goals refine ⟨?_, ?_, ?_⟩ <;> decide

theorem spells_mark (c : Char) (hc : c ∈ ['.', ',', '*', '[', ']']) {rest : List Char}
    {ts : List Token} (h : Spells rest ts) : Spells (c :: rest) (.mark c :: ts) :=
  .token (proper_mark hc) h

/-- The siblings after the first are written with a comma and a blank before each. -/
theorem exists_others {cs : List Selection}
    (h : ∀ c ∈ cs, ∃ i : Item, i.Writes [c] (spell c)) :
    ∃ is : List Item, nodesOfAll is = cs ∧ LegalAll is ∧
      ∀ {rest : List Char} {ts : List Token}, Spells rest ts →
        Spells (spellOthers cs ++ rest) (tokensOfOthers is ++ ts) := by
  induction cs with
  | nil =>
    refine ⟨[], rfl, trivial, fun h => ?_⟩
    simpa [spellOthers, tokensOfOthers] using h
  | cons c cs ih =>
    obtain ⟨i, hi⟩ := h c List.mem_cons_self
    obtain ⟨is, hnodes, hlegal, hspells⟩ := ih fun d hd => h d (List.mem_cons_of_mem c hd)
    refine ⟨i :: is, by simp [nodesOfAll, hi.nodes, hnodes], ⟨hi.legal, hlegal⟩, fun hrest => ?_⟩
    have hitem := hi.spells (hspells hrest)
    simp only [spellOthers, tokensOfOthers, List.cons_append, List.append_assoc]
    exact spells_mark ',' (by decide) (.blank (by decide) hitem)

/-- Siblings are written as one item. -/
theorem exists_level {cs : List Selection} (hne : cs ≠ [])
    (h : ∀ c ∈ cs, ∃ i : Item, i.Writes [c] (spell c)) :
    ∃ i : Item, i.Writes cs (spellLevel cs) := by
  cases cs with
  | nil => exact absurd rfl hne
  | cons c cs =>
    obtain ⟨first, hfirst⟩ := h c List.mem_cons_self
    cases cs with
    | nil => exact ⟨first, by rwa [spellLevel_single]⟩
    | cons d cs =>
      obtain ⟨others, hnodes, hlegal, hspells⟩ :=
        exists_others fun e he => h e (List.mem_cons_of_mem c he)
      refine ⟨.group first others, ?_, ⟨hfirst.legal, hlegal⟩, fun hrest => ?_⟩
      · simp [Item.nodes, hfirst.nodes, hnodes]
      · simp only [spellLevel_cons, Item.tokens, List.cons_append, List.append_assoc,
          List.nil_append]
        exact spells_mark '[' (by decide)
          (hfirst.spells (hspells (spells_mark ']' (by decide) hrest)))

/-- The digits of a bound as they are written. -/
def digitsOf : Option Nat → List Char
  | none => []
  | some n => Nat.toDigits 10 n

theorem spellLimit_eq (limit : Option Nat) : spellLimit limit = '^' :: digitsOf limit := by
  cases limit <;> rfl

theorem boundOf_digitsOf (limit : Option Nat) : boundOf (digitsOf limit) = limit := by
  cases limit with
  | none => rfl
  | some n => simp [boundOf, digitsOf, Text.valueOfDigits_toDigits]

theorem isDigit_of_mem_digitsOf {limit : Option Nat} {c : Char} (h : c ∈ digitsOf limit) :
    c.isDigit = true := by
  cases limit with
  | none => simp [digitsOf] at h
  | some n => exact Nat.isDigit_of_mem_toDigits (by decide) (by decide) h

/-- A node that can be written has an item that denotes it and that its text spells. -/
theorem exists_item {c : Selection} (h : WritableNode c) :
    ∃ i : Item, i.Writes [c] (spell c) := by
  induction c using Selection.induction with
  | node c ih =>
    have below : ∀ d ∈ c.children, ∃ i : Item, i.Writes [d] (spell d) := fun d hd =>
      ih d hd (writableNode_of_mem h.wellFormed h.spellable hd)
    obtain ⟨hnamed, hletters, hw, hs⟩ := h
    have hc := hw.coherent
    have hrange := hs.here.range
    obtain ⟨name, children, recursive, limit, wildcard⟩ := c
    obtain ⟨n, rfl⟩ := Option.ne_none_iff_exists'.1 hnamed
    have hname : (Token.name n.toList).Proper := hletters
    have hn : String.ofList n.toList = n := String.ofList_toList
    cases wildcard with
    | true =>
      obtain rfl : children = [] := hc.leaf (.inr rfl)
      obtain rfl : recursive = false := by simpa using hc.oneMark
      obtain rfl : limit = none := hc.limit_eq_none rfl
      refine ⟨.every n.toList, ?_, trivial, fun hrest => ?_⟩
      · simp [Item.nodes, hn, named, everything]
      · have := Spells.token hname
          (spells_mark '.' (by decide) (spells_mark '*' (by decide) hrest))
        simpa [spell, Item.tokens, Token.chars] using this
    | false =>
      cases recursive with
      | true =>
        obtain rfl : children = [] := hc.leaf (.inl rfl)
        refine ⟨.again n.toList (digitsOf limit), ?_, ?_, fun hrest => ?_⟩
        · simp [Item.nodes, hn, named, follow, boundOf_digitsOf]
        · intro m hm
          rw [boundOf_digitsOf] at hm
          exact hrange m hm
        · have hcaret : (Token.caret (digitsOf limit)).Proper := fun _ => isDigit_of_mem_digitsOf
          have := Spells.token hname (spells_mark '.' (by decide) (.token hcaret hrest))
          simpa [spell, spellLimit_eq, Item.tokens, Token.chars] using this
      | false =>
        obtain rfl : limit = none := hc.limit_eq_none rfl
        by_cases hempty : children = []
        · subst hempty
          refine ⟨.name n.toList, ?_, trivial, fun hrest => ?_⟩
          · simp [Item.nodes, hn, named]
          · have := Spells.token hname hrest
            simpa [spell, Item.tokens, Token.chars] using this
        · obtain ⟨i, hi⟩ := exists_level hempty below
          refine ⟨.path n.toList i, ?_, ⟨hi.legal, hi.nodes ▸ hc.distinct⟩, fun hrest => ?_⟩
          · simp [Item.nodes, hn, named, hi.nodes]
          · have := Spells.token hname (spells_mark '.' (by decide) (hi.spells hrest))
            simpa [spell, hempty, Item.tokens, Token.chars] using this

/-- The canonical text of a tree that can be written derives from the grammar, and the derivation
denotes the tree. -/
theorem derives_spell {t : Selection} (h : t.Writable) :
    ∃ e : Expression, Spells (spell t) e.tokens ∧ e.Legal ∧ e.tree = t := by
  have below : ∀ d ∈ t.children, ∃ i : Item, i.Writes [d] (spell d) := fun d hd =>
    exists_item (writableNode_of_mem h.wellFormed h.spellable hd)
  obtain ⟨hname, hw, -⟩ := h
  have hc := hw.coherent
  obtain ⟨name, children, recursive, limit, wildcard⟩ := t
  obtain rfl : name = none := hname
  obtain rfl : recursive = false := hc.root rfl
  obtain rfl : limit = none := hc.limit_eq_none rfl
  cases wildcard with
  | true =>
    obtain rfl : children = [] := hc.leaf (.inr rfl)
    have hstar : Spells ['*'] [.mark '*'] := spells_mark '*' (by decide) .nil
    exact ⟨.everything, by simpa [spell, Expression.tokens] using hstar, trivial, rfl⟩
  | false =>
    by_cases hempty : children = []
    · subst hempty
      refine ⟨.nothing, ?_, trivial, rfl⟩
      simpa [spell, spellLevel, Expression.tokens] using Spells.nil
    · obtain ⟨i, hi⟩ := exists_level hempty below
      refine ⟨.item i, ?_, ⟨hi.legal, hi.nodes ▸ hc.distinct⟩, ?_⟩
      · have := hi.spells .nil
        simpa [spell, Expression.tokens] using this
      · simp [Expression.tree, root, hi.nodes]

/-! ### Reading -/

theorem writableNode_leaf {c : Selection} {letters : List Char}
    (hp : (Token.name letters).Proper) (hn : c.name = some (String.ofList letters))
    (hc : Coherent c) (hr : ∀ n, c.limit = some n → 1 ≤ n ∧ n ≤ Text.maxWord)
    (hb : ∀ d ∈ c.children, WritableNode d) : WritableNode c := by
  refine ⟨by simp [hn], ?_, .intro hc fun d hd => (hb d hd).wellFormed,
    .intro ⟨fun d hd => (hb d hd).letters, hr⟩ fun d hd => (hb d hd).spellable⟩
  rw [label_of_name hn, String.toList_ofList]
  exact hp

mutual

/-- The nodes of a legal item can be written. -/
theorem Item.writableNode_of_mem (i : Item) (hl : i.Legal) (hp : ∀ t ∈ i.tokens, t.Proper) :
    ∀ c ∈ i.nodes, WritableNode c := by
  match i with
  | .name letters =>
    intro c hc
    obtain rfl := List.mem_singleton.1 hc
    refine writableNode_leaf (hp _ (by simp [Item.tokens])) rfl ?_ (by simp [named])
      (by simp [named])
    constructor <;> simp [named, distinct_nil]
  | .path letters tail =>
    obtain ⟨htail, hd⟩ := hl
    have below := tail.writableNode_of_mem htail fun t ht => hp t (by simp [Item.tokens, ht])
    intro c hc
    obtain rfl := List.mem_singleton.1 hc
    refine writableNode_leaf (hp _ (by simp [Item.tokens])) rfl ?_ (by simp [named]) below
    refine ⟨fun d hd => (below d hd).named, hd, ?_, ?_, ?_, ?_⟩ <;> simp [named]
  | .again letters digits =>
    intro c hc
    obtain rfl := List.mem_singleton.1 hc
    refine writableNode_leaf (hp _ (by simp [Item.tokens])) rfl ?_ hl (by simp [named, follow])
    constructor <;> simp [named, follow, distinct_nil]
  | .every letters =>
    intro c hc
    obtain rfl := List.mem_singleton.1 hc
    refine writableNode_leaf (hp _ (by simp [Item.tokens])) rfl ?_ (by simp [everything])
      (by simp [everything])
    constructor <;> simp [named, everything, distinct_nil]
  | .group first others =>
    obtain ⟨hfirst, hothers⟩ := hl
    intro c hc
    rcases List.mem_append.1 hc with hc | hc
    · exact first.writableNode_of_mem hfirst (fun t ht => hp t (by simp [Item.tokens, ht])) c hc
    · exact writableNode_of_mem_nodesOfAll others hothers
        (fun t ht => hp t (by simp [Item.tokens, ht])) c hc

theorem writableNode_of_mem_nodesOfAll (is : List Item) (hl : LegalAll is)
    (hp : ∀ t ∈ tokensOfOthers is, t.Proper) : ∀ c ∈ nodesOfAll is, WritableNode c := by
  match is with
  | [] => simp [nodesOfAll]
  | i :: is =>
    obtain ⟨hi, his⟩ := hl
    intro c hc
    rcases List.mem_append.1 hc with hc | hc
    · exact i.writableNode_of_mem hi (fun t ht => hp t (by simp [tokensOfOthers, ht])) c hc
    · exact writableNode_of_mem_nodesOfAll is his
        (fun t ht => hp t (by simp [tokensOfOthers, ht])) c hc

end

/-- Reading gives trees that can be written. -/
theorem writable_of_parse {s : String} {t : Selection} (h : parse s = .ok t) : t.Writable := by
  obtain ⟨e, hs, hl, rfl⟩ := derives_of_parse h
  cases e with
  | nothing =>
    refine ⟨rfl, .intro ?_ (by simp [Expression.tree, root]),
      .intro ⟨by simp [Expression.tree, root], by simp [Expression.tree, root]⟩
        (by simp [Expression.tree, root])⟩
    constructor <;> simp [Expression.tree, root, distinct_nil]
  | everything =>
    refine ⟨rfl, .intro ?_ (by simp [Expression.tree, everything]),
      .intro ⟨by simp [Expression.tree, everything], by simp [Expression.tree, everything]⟩
        (by simp [Expression.tree, everything])⟩
    constructor <;> simp [Expression.tree, root, everything, distinct_nil]
  | item i =>
    obtain ⟨hi, hd⟩ := hl
    have below := i.writableNode_of_mem hi hs.proper
    refine ⟨rfl, .intro ?_ fun d hd => (below d hd).wellFormed,
      .intro ⟨fun d hd => (below d hd).letters, by simp [Expression.tree, root]⟩
        fun d hd => (below d hd).spellable⟩
    refine ⟨fun d hd => (below d hd).named, hd, ?_, ?_, ?_, ?_⟩ <;> simp [Expression.tree, root]

theorem parse_text_of_writable {t : Selection} (h : t.Writable) : parse t.text = .ok t := by
  obtain ⟨e, hs, hl, rfl⟩ := derives_spell h
  exact parse_of_derives (by rwa [text, String.toList_ofList]) hl

/-- The canonical text of a tree that can be written reads back as that tree.  Reading gives only
such trees, so writing and reading again changes none of them, and their canonical text is a fixed
point of reading and writing. -/
theorem parse_text (t : Selection) :
    (t.Writable → parse t.text = .ok t) ∧
      ∀ s, parse s = .ok t →
        t.Writable ∧ parse t.text = .ok t ∧ (parse t.text).map text = .ok t.text := by
  refine ⟨parse_text_of_writable, fun s hs => ?_⟩
  have hw := writable_of_parse hs
  refine ⟨hw, parse_text_of_writable hw, ?_⟩
  rw [parse_text_of_writable hw]
  rfl

/-- A group within a group, with a mark of each kind, a zero in front of a bound and blanks. -/
theorem parse_text_nested :
    let t : Selection := { children := [named "a", { named "b" with
      children := [(named "c").follow (some 3), (named "d").everything] }] }
    parse "[ a,b .[c.^03 ,d. *]]" = .ok t ∧ t.Writable ∧ parse t.text = .ok t ∧
      (parse t.text).map text = .ok t.text := by
  intro t
  have h : parse "[ a,b .[c.^03 ,d. *]]" = .ok t := by rfl
  obtain ⟨hw, -, hfixed⟩ := (parse_text t).2 _ h
  exact ⟨h, hw, (parse_text t).1 hw, hfixed⟩

end Prefetch.Selection
