import Prefetch.Selection.Parse

/-!
# Shape — the trees that a notation can write

A tree built by hand may put anything under anything.  The trees that reading gives are better
behaved: every node below the root has a name that no sibling has, a marked node has nothing below
it, and a bound stands on a recursive node only.

* `induction` — a property of trees holds if it passes from the children to the node.
* `distinct_append` — siblings put together stay distinct when no name is on both sides.
* `WellFormed.of_mem` — what lies below a well-formed node is well-formed.
-/

namespace Prefetch.Selection

/-- Induction over trees: what holds of all children holds of the node. -/
@[elab_as_elim]
theorem induction {motive : Selection → Prop}
    (node : ∀ s : Selection, (∀ c ∈ s.children, motive c) → motive s) (s : Selection) :
    motive s := by
  refine node s fun c hc => ?_
  have : sizeOf c < sizeOf s := by
    have hlt := List.sizeOf_lt_of_mem hc
    obtain ⟨_, children, _, _, _⟩ := s
    simp only [mk.sizeOf_spec] at hlt ⊢
    omega
  exact induction node c
termination_by sizeOf s

/-! ### Siblings -/

/-- No two of the siblings have the same name. -/
def Distinct (siblings : List Selection) : Prop :=
  (siblings.map (·.name)).Nodup

theorem distinct_nil : Distinct [] := List.nodup_nil

theorem distinct_singleton (s : Selection) : Distinct [s] := by
  simp [Distinct]

theorem distinct_append {front back : List Selection} :
    Distinct (front ++ back) ↔
      Distinct front ∧ Distinct back ∧ ∀ c ∈ front, ∀ d ∈ back, c.name ≠ d.name := by
  unfold Distinct
  rw [List.map_append, List.nodup_append]
  simp only [List.mem_map]
  constructor
  · rintro ⟨hf, hb, hne⟩
    exact ⟨hf, hb, fun c hc d hd => hne _ ⟨c, hc, rfl⟩ _ ⟨d, hd, rfl⟩⟩
  · rintro ⟨hf, hb, hne⟩
    refine ⟨hf, hb, ?_⟩
    rintro _ ⟨c, hc, rfl⟩ _ ⟨d, hd, rfl⟩
    exact hne c hc d hd

theorem find?_eq_none {siblings : List Selection} {name : String} :
    find? siblings name = none ↔ ∀ c ∈ siblings, c.name ≠ some name := by
  simp [find?]

/-! ### Well-formed trees -/

/-- A property holds of a node and of all that lies below it. -/
inductive Everywhere (p : Selection → Prop) : Selection → Prop where
  | intro {s : Selection} (here : p s) (below : ∀ c ∈ s.children, Everywhere p c) : Everywhere p s

namespace Everywhere

variable {p q : Selection → Prop} {s c : Selection}

theorem here (h : Everywhere p s) : p s := by
  cases h with
  | intro here _ => exact here

theorem of_mem (h : Everywhere p s) (hc : c ∈ s.children) : Everywhere p c := by
  cases h with
  | intro _ below => exact below c hc

end Everywhere

/-- Names, marks and bound of a node agree with each other and with what is selected below. -/
structure Coherent (s : Selection) : Prop where
  /-- Every child has a name. -/
  named : ∀ c ∈ s.children, c.name ≠ none
  /-- No two children share one. -/
  distinct : Distinct s.children
  /-- Nothing is selected below a mark. -/
  leaf : s.recursive = true ∨ s.wildcard = true → s.children = []
  /-- There is one mark at most. -/
  oneMark : ¬ (s.recursive = true ∧ s.wildcard = true)
  /-- Only a recursive node has a bound. -/
  bound : s.limit ≠ none → s.recursive = true
  /-- The root is not recursive. -/
  root : s.name = none → s.recursive = false

/-- A node that is not recursive has no bound. -/
theorem Coherent.limit_eq_none {s : Selection} (h : Coherent s) (hr : s.recursive = false) :
    s.limit = none := by
  cases hl : s.limit with
  | none => rfl
  | some n =>
    have hrecursive := h.bound (by simp [hl])
    rw [hr] at hrecursive
    cases hrecursive

/-- A tree whose nodes are all coherent. -/
def WellFormed (s : Selection) : Prop :=
  Everywhere Coherent s

namespace WellFormed

variable {s c : Selection}

theorem coherent (h : s.WellFormed) : Coherent s := h.here

theorem of_mem (h : s.WellFormed) (hc : c ∈ s.children) : c.WellFormed := Everywhere.of_mem h hc

end WellFormed

theorem wellFormed_root : root.WellFormed :=
  .intro ⟨nofun, distinct_nil, fun _ => rfl, nofun, fun h => absurd rfl h, fun _ => rfl⟩ nofun

/-- A `*` leaves nothing that could be out of shape. -/
theorem wellFormed_everything (s : Selection) : s.everything.WellFormed := by
  refine .intro ⟨nofun, distinct_nil, fun _ => rfl, fun h => ?_, fun h => ?_, fun _ => rfl⟩ nofun
  · cases h.1
  · exact absurd rfl h

end Prefetch.Selection
