import Prefetch.Selection.Basic
import Prefetch.Selection.Token
import Prefetch.Text.Numeral

/-!
# Parse — reading the notation of selections

    selection := nothing | item | '*'
    item      := NAME ('.' tail)? | '[' item (',' item)* ']'
    tail      := item | '^' DIGITS? | '*'

Tokens are read from left to right against a stack of what is open: groups and the nodes whose tail
is being read.  `Reader.step` takes one token and `Reader.finish` ends the text, so reading is one
fold over the tokens.  A node joins its siblings as soon as its path is complete, and only then can
its name turn out to be taken; the token after it is looked at later.

* `complete_stack` — when an item is complete, what is innermost is a group or nothing at all.
-/

namespace Prefetch.Selection

/-- Why a text is no selection. -/
inductive ReadFault where
  /-- A `]` that no `[` opened. -/
  | unmatchedClose
  /-- A dot after a path that has ended. -/
  | pathEnded
  /-- A character that cannot stand there. -/
  | unexpected (c : Char)
  /-- A `*` where a relation name has to stand. -/
  | strayStar
  /-- A `^` where a relation name has to stand. -/
  | strayCaret
  /-- A `]` where an item has to stand. -/
  | missingName
  /-- Neither `,` nor `]` after an item of a group. -/
  | missingSeparator (c : Char)
  /-- A name that a sibling has already. -/
  | duplicate (name : String)
  /-- A bound of zero. -/
  | zeroLimit
  /-- A bound that does not fit in 64 bits. -/
  | hugeLimit
  /-- The text ends inside a group. -/
  | unterminatedGroup
  /-- The text ends where more has to follow. -/
  | unexpectedEnd
  /-- A fault found elsewhere, in words. -/
  | other (text : String)
  deriving DecidableEq

/-- A fault in words. -/
def ReadFault.message : ReadFault → String
  | unmatchedClose => "unmatched ']'"
  | pathEnded => "'*' and '^' must be the last token of a path"
  | unexpected c => String.join ["unexpected '", c.toString, "'"]
  | strayStar => "'*' must follow a relation name or be the whole expression"
  | strayCaret => "'^' must directly follow a relation name"
  | missingName => "expected relation name before ']'"
  | missingSeparator c => String.join ["expected ',' or ']' but found '", c.toString, "'"]
  | duplicate name => String.join ["duplicate relation '", name, "'"]
  | zeroLimit => "recursion depth must be at least 1"
  | hugeLimit => "recursion depth is too large"
  | unterminatedGroup => "unterminated '['"
  | unexpectedEnd => "unexpected end of expression"
  | other text => text

/-- A fault and the character it was found at. -/
structure ReadError where
  position : Nat
  fault : ReadFault
  deriving DecidableEq

/-- What is open around the place that is being read. -/
inductive Frame where
  /-- A group, with the position of its `[`. -/
  | group (opened : Nat)
  /-- A node whose tail is being read, with its position and the siblings before it. -/
  | node (name : String) (position : Nat) (before : List Selection)

/-- What the next token is measured against. -/
inductive Spot where
  /-- Nothing has been read. -/
  | start
  /-- The whole selection is `*`. -/
  | star
  /-- An item has to follow. -/
  | item
  /-- A name has been read, and a dot may follow. -/
  | named (name : String) (position : Nat)
  /-- A name and a dot have been read. -/
  | dotted (name : String) (position : Nat)
  /-- An item is complete. -/
  | done

/-- The state between two tokens: what is open, innermost first, the siblings read so far on the
innermost level, and where on it the text stands. -/
structure Reader where
  frames : List Frame
  level : List Selection
  spot : Spot

/-- Nothing read yet. -/
def Reader.start : Reader := ⟨[], [], .start⟩

/-- The position of the innermost open bracket. -/
def innermostGroup? : List Frame → Option Nat
  | [] => none
  | .group opened :: _ => some opened
  | .node .. :: frames => innermostGroup? frames

/-- A node after its siblings; its name must be new among them. -/
def place (level : List Selection) (node : Selection) (position : Nat) :
    Except ReadError (List Selection) :=
  if (find? level node.label).isSome then .error ⟨position, .duplicate node.label⟩
  else .ok (level ++ [node])

/-- An item is complete on the innermost level: every node whose tail it was is complete too. -/
def complete : List Frame → List Selection → Except ReadError Reader
  | [], level => .ok ⟨[], level, .done⟩
  | .group opened :: frames, level => .ok ⟨.group opened :: frames, level, .done⟩
  | .node name position before :: frames, level =>
    match place before { named name with children := level } position with
    | .error e => .error e
    | .ok outer => complete frames outer

theorem complete_stack {frames : List Frame} {level : List Selection} {r : Reader}
    (h : complete frames level = .ok r) :
    r.frames = [] ∨ ∃ opened outer, r.frames = .group opened :: outer := by
  induction frames generalizing level with
  | nil => simp only [complete, Except.ok.injEq] at h; exact .inl (by rw [← h])
  | cons f frames ih =>
    cases f with
    | group opened =>
      simp only [complete, Except.ok.injEq] at h
      exact .inr ⟨opened, frames, by rw [← h]⟩
    | node name position before =>
      rw [complete] at h
      split at h
      · cases h
      · exact ih h

/-- A node without open tail is an item by itself. -/
def placeItem (frames : List Frame) (level : List Selection) (node : Selection) (position : Nat) :
    Except ReadError Reader :=
  match place level node position with
  | .error e => .error e
  | .ok level => complete frames level

/-- The bound that the digits of a `^` denote; `position` is that of the first digit. -/
def readLimit (digits : List Char) (position : Nat) : Except ReadError (Option Nat) :=
  if digits.isEmpty then .ok none
  else match Text.word? digits with
    | none => .error ⟨position, .hugeLimit⟩
    | some 0 => .error ⟨position, .zeroLimit⟩
    | some n => .ok (some n)

mutual

/-- Whether the path written last under a node ends in a mark. -/
def endsMarked : Selection → Bool
  | ⟨_, children, _, _, _⟩ => lastMarked children

/-- Whether the path written last among siblings ends in a mark. -/
def lastMarked : List Selection → Bool
  | [] => false
  | c :: cs =>
    if cs.isEmpty then c.recursive || c.wildcard || endsMarked c else lastMarked cs

end

/-- A token where an item has to begin. -/
def readItem (frames : List Frame) (level : List Selection) (l : Lexeme) :
    Except ReadError Reader :=
  match l.token with
  | .name letters => .ok ⟨frames, level, .named (String.ofList letters) l.position⟩
  | .caret _ => .error ⟨l.position, .strayCaret⟩
  | .mark '[' => .ok ⟨.group l.position :: frames, level, .item⟩
  | .mark '*' => .error ⟨l.position, .strayStar⟩
  | .mark ']' =>
    if (innermostGroup? frames).isSome then .error ⟨l.position, .missingName⟩
    else .error ⟨l.position, .unmatchedClose⟩
  | .mark c => .error ⟨l.position, .unexpected c⟩

/-- A token after the whole selection; `marked` tells whether its last path ended in a mark. -/
def readAfterAll (marked : Bool) (l : Lexeme) : ReadError :=
  match l.token with
  | .mark ']' => ⟨l.position, .unmatchedClose⟩
  | .mark '.' => ⟨l.position, if marked then .pathEnded else .unexpected '.'⟩
  | t => ⟨l.position, .unexpected t.first⟩

/-- A token after a complete item. -/
def readAfterItem (frames : List Frame) (level : List Selection) (l : Lexeme) :
    Except ReadError Reader :=
  match frames with
  | .group _ :: outer =>
    match l.token with
    | .mark ',' => .ok ⟨frames, level, .item⟩
    | .mark ']' => complete outer level
    | .mark '.' => .error ⟨l.position, .pathEnded⟩
    | t => .error ⟨l.position, .missingSeparator t.first⟩
  | _ => .error (readAfterAll (lastMarked level) l)

/-- A token after a name and a dot. -/
def readTail (frames : List Frame) (level : List Selection) (name : String) (position : Nat)
    (l : Lexeme) : Except ReadError Reader :=
  match l.token with
  | .caret digits =>
    match readLimit digits (l.position + 1) with
    | .error e => .error e
    | .ok limit => placeItem frames level ((named name).follow limit) position
  | .mark '*' => placeItem frames level (named name).everything position
  | _ => readItem (.node name position level :: frames) [] l

/-- One token. -/
def Reader.step (r : Reader) (l : Lexeme) : Except ReadError Reader :=
  match r.spot with
  | .start => if l.token = .mark '*' then .ok { r with spot := .star } else readItem [] [] l
  | .star => .error (readAfterAll true l)
  | .item => readItem r.frames r.level l
  | .named name position =>
    if l.token = .mark '.' then .ok { r with spot := .dotted name position }
    else match placeItem r.frames r.level (named name) position with
      | .error e => .error e
      | .ok r => readAfterItem r.frames r.level l
  | .dotted name position => readTail r.frames r.level name position l
  | .done => readAfterItem r.frames r.level l

/-- The fault of a text of `length` characters that ends too early. -/
def endFault (frames : List Frame) (length : Nat) : ReadError :=
  match innermostGroup? frames with
  | some opened => ⟨opened, .unterminatedGroup⟩
  | none => ⟨length, .unexpectedEnd⟩

/-- The text ends after a complete item. -/
def finishItem (r : Reader) (length : Nat) : Except ReadError Selection :=
  if r.frames.isEmpty then .ok { root with children := r.level }
  else .error (endFault r.frames length)

/-- The text, `length` characters long, ends. -/
def Reader.finish (r : Reader) (length : Nat) : Except ReadError Selection :=
  match r.spot with
  | .start => .ok root
  | .star => .ok root.everything
  | .named name position =>
    match placeItem r.frames r.level (named name) position with
    | .error e => .error e
    | .ok r => finishItem r length
  | .done => finishItem r length
  | .item => .error (endFault r.frames length)
  | .dotted .. => .error (endFault r.frames length)

/-- All tokens, one after the other. -/
def Reader.run (r : Reader) : List Lexeme → Except ReadError Reader
  | [] => .ok r
  | l :: ls =>
    match r.step l with
    | .error e => .error e
    | .ok r => r.run ls

/-- Reads a whole text. -/
def parseChars (cs : List Char) : Except ReadError Selection :=
  match Reader.start.run (lex cs) with
  | .error e => .error e
  | .ok r => r.finish cs.length

/-- Reads a selection. -/
def parse (s : String) : Except ReadError Selection :=
  parseChars s.toList

end Prefetch.Selection
