import Prefetch.Proofs.Selection.Shape

/-!
# Grammar — the notation of selections, and the tree that a text denotes

    selection := nothing | item | '*'
    item      := NAME ('.' tail)? | '[' item (',' item)* ']'
    tail      := item | '^' DIGITS? | '*'

A derivation of this grammar is an `Expression`.  It has one sequence of tokens; a text spells the
sequence when it is the tokens' characters in order with blanks anywhere around them.  Items denote
nodes: a group denotes those of its items side by side, so nested groups lie on one level.

* `Expression.tree` — the tree that a derivation denotes.
* `Expression.Legal` — what the grammar leaves open: names are distinct on every level, and bounds
  are positive and fit in 64 bits.
-/

namespace Prefetch.Selection

/-- A derivation of an item. -/
inductive Item where
  /-- `NAME` -/
  | name (letters : List Char)
  /-- `NAME . item` -/
  | path (letters : List Char) (tail : Item)
  /-- `NAME . ^ DIGITS` -/
  | again (letters digits : List Char)
  /-- `NAME . *` -/
  | every (letters : List Char)
  /-- `[ item , … ]` -/
  | group (first : Item) (others : List Item)

/-- A derivation of a whole selection. -/
inductive Expression where
  | nothing
  | everything
  | item (i : Item)

/-! ### Tokens -/

mutual

/-- The tokens of an item. -/
def Item.tokens : Item → List Token
  | .name letters => [.name letters]
  | .path letters tail => .name letters :: .mark '.' :: tail.tokens
  | .again letters digits => [.name letters, .mark '.', .caret digits]
  | .every letters => [.name letters, .mark '.', .mark '*']
  | .group first others => .mark '[' :: (first.tokens ++ (tokensOfOthers others ++ [.mark ']']))

/-- The tokens of the items after the first of a group. -/
def tokensOfOthers : List Item → List Token
  | [] => []
  | i :: is => .mark ',' :: (i.tokens ++ tokensOfOthers is)

end

/-- The tokens of a selection. -/
def Expression.tokens : Expression → List Token
  | .nothing => []
  | .everything => [.mark '*']
  | .item i => i.tokens

/-- The characters of a token. -/
def Token.chars : Token → List Char
  | .name letters => letters
  | .caret digits => '^' :: digits
  | .mark c => [c]

/-- Names are made of name characters, at least one, and bounds of digits; a mark is any character
that is neither blank nor part of those. -/
def Token.Proper : Token → Prop
  | .name letters => letters ≠ [] ∧ ∀ c ∈ letters, isNameChar c = true
  | .caret digits => ∀ c ∈ digits, c.isDigit = true
  | .mark c => Text.isBlank c = false ∧ isNameChar c = false ∧ c ≠ '^'

/-- A text is a sequence of tokens, with blanks before, between and after them. -/
inductive Spells : List Char → List Token → Prop where
  | nil : Spells [] []
  | blank {c : Char} {cs : List Char} {ts : List Token} (hc : Text.isBlank c = true)
      (rest : Spells cs ts) : Spells (c :: cs) ts
  | token {t : Token} {cs : List Char} {ts : List Token} (ht : t.Proper) (rest : Spells cs ts) :
      Spells (t.chars ++ cs) (t :: ts)

/-! ### Denotation -/

/-- The bound that digits denote; no digits are no bound. -/
def boundOf (digits : List Char) : Option Nat :=
  if digits = [] then none else some (Text.valueOfDigits digits)

mutual

/-- The nodes that an item denotes. -/
def Item.nodes : Item → List Selection
  | .name letters => [named (String.ofList letters)]
  | .path letters tail => [{ named (String.ofList letters) with children := tail.nodes }]
  | .again letters digits => [(named (String.ofList letters)).follow (boundOf digits)]
  | .every letters => [(named (String.ofList letters)).everything]
  | .group first others => first.nodes ++ nodesOfAll others

/-- The nodes that some items denote, all on one level. -/
def nodesOfAll : List Item → List Selection
  | [] => []
  | i :: is => i.nodes ++ nodesOfAll is

end

/-- The tree that a selection denotes. -/
def Expression.tree : Expression → Selection
  | .nothing => root
  | .everything => root.everything
  | .item i => { root with children := i.nodes }

/-! ### Conditions -/

mutual

/-- Below every name of an item the names are distinct, and every bound is a positive number that
fits in 64 bits. -/
def Item.Legal : Item → Prop
  | .name _ => True
  | .path _ tail => tail.Legal ∧ Distinct tail.nodes
  | .again _ digits => ∀ n, boundOf digits = some n → 1 ≤ n ∧ n ≤ Text.maxWord
  | .every _ => True
  | .group first others => first.Legal ∧ LegalAll others

/-- The same for some items. -/
def LegalAll : List Item → Prop
  | [] => True
  | i :: is => i.Legal ∧ LegalAll is

end

/-- The names of a selection are distinct on every level, and its bounds are in range. -/
def Expression.Legal : Expression → Prop
  | .nothing => True
  | .everything => True
  | .item i => i.Legal ∧ Distinct i.nodes

/-! ### Groups, one item at a time -/

theorem nodesOfAll_append (is js : List Item) :
    nodesOfAll (is ++ js) = nodesOfAll is ++ nodesOfAll js := by
  induction is with
  | nil => rfl
  | cons i is ih => simp [nodesOfAll, ih]

theorem legalAll_append {is js : List Item} :
    LegalAll (is ++ js) ↔ LegalAll is ∧ LegalAll js := by
  induction is with
  | nil => simp [LegalAll]
  | cons i is ih => simp [LegalAll, ih, and_assoc]

end Prefetch.Selection
