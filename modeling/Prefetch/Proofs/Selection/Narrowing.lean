import Prefetch.Proofs.Selection.Preorder
import Prefetch.Proofs.Selection.Walking

/-!
# Narrowing — what a narrower selection allows, a wider one does

Let one selection allow another, and the other allow a request.  The request is walked along both at
once, and the walks stay in step: where the inner one stands at a node, the outer one has met a `*` or
stands at a node that allows this one.  A chain of the inner selection may begin partway down a chain
of the outer one; then the outer node has been used as often as it had been where the inner chain
begins, and as often as the inner node since.

* `denied_self` — a well-formed selection allows itself.
* `coversRecursion_trans` — room along the inner chain is room along the outer one.
* `Within.step` — one step keeps the walks in step.
* `denied_trans` — so nothing is denied along the outer selection that is not denied along the inner.
* `allows_preorder` — to allow is reflexive and transitive.
-/

namespace Prefetch.Selection

variable {a a' b b' s : Selection} {i k i' k' : Nat} {name : String}

/-! ### A selection allows itself -/

theorem coversRecursion_self (hr : s.recursive = true) : coversRecursion s 1 s.limit = true := by
  unfold coversRecursion
  rw [hr, Bool.true_and]
  cases s.limit with
  | none => rfl
  | some n =>
    simp only [decide_eq_true_eq, Nat.add_sub_cancel_left]
    exact Nat.mod_le n _

/-- A well-formed selection denies nothing of itself. -/
theorem denied_self : ∀ {path : Path}, s.WellFormed → denied s 1 path s = none := by
  induction s using Selection.induction with
  | node s ih =>
    intro path hs
    rw [denied_eq_none_iff]
    cases hw : s.wildcard with
    | true => exact .inl rfl
    | false =>
      refine .inr ⟨rfl, coversRecursion_self, deniedAll_eq_none_iff.2 fun c hc => ?_⟩
      have hname : c.name = some c.label := name_eq_label (hs.coherent.named c hc)
      exact ⟨c, 1, descend?_of_mem hs hc hname 1, ih c hc (hs.of_mem hc)⟩

/-! ### Two walks at once -/

/-- A chain that is allowed from the `j`-th use of a node on has used the node `j + k - 1` times with
its own `k`-th use; if a recursion has room after that along the chain, it has room along the node. -/
theorem coversRecursion_trans {j : Nat} {limit : Option Nat} (hj : 1 ≤ j) (hk : 1 ≤ k)
    (hfit : ∀ wanted, b.limit = some wanted → j + wanted ≤ Text.maxWord)
    (hb : coversRecursion a j b.limit = true) (h : coversRecursion b k limit = true) :
    coversRecursion a (j + k - 1) limit = true := by
  obtain ⟨hr, hroom⟩ := (coversRecursion_iff hfit).1 hb
  unfold coversRecursion at h ⊢
  rw [hr, Bool.true_and]
  cases hmost : a.limit with
  | none => rfl
  | some most =>
    obtain ⟨wanted, hwanted, hle⟩ := hroom most hmost
    have hword := hfit wanted hwanted
    rw [hwanted] at h
    cases limit with
    | none => simp at h
    | some n =>
      simp only [Bool.and_eq_true, decide_eq_true_eq] at h ⊢
      obtain ⟨-, h⟩ := h
      simp only [Text.maxWord] at h hword ⊢
      omega

/-- The walk along `a` has met a `*`, or its node allows that of the walk along `b` from an earlier
use on; both have been used as often since.  Only a recursive node is used more than once. -/
structure Within (a : Selection) (i : Nat) (b : Selection) (k : Nat) : Prop where
  wellFormed : b.WellFormed
  used_pos : 1 ≤ k
  once : b.recursive = false → k = 1
  allowed : a.wildcard = true ∨ ∃ j, 1 ≤ j ∧ i + 1 = j + k ∧ Fits a j b ∧
    (b.recursive = true → a.label = b.label) ∧ ∃ path, denied a j path b = none

/-- What the walk along `a` is told by its node about the node of the walk along `b`. -/
theorem Within.inv (h : Within a i b k) (hs : a.wildcard = false) :
    b.wildcard = false ∧ ∃ j, 1 ≤ j ∧ i + 1 = j + k ∧ Fits a j b ∧
      (b.recursive = true → a.label = b.label ∧ coversRecursion a j b.limit = true) ∧
      ∀ c ∈ b.children, ∃ path, Passes a j path c := by
  obtain hstar | ⟨j, hj, hi, hfit, hlabel, path, hnone⟩ := h.allowed
  · rw [hs] at hstar
    cases hstar
  · obtain hstar | ⟨hw, hroom, hbelow⟩ := denied_eq_none_iff.1 hnone
    · rw [hs] at hstar
      cases hstar
    · exact ⟨hw, j, hj, hi, hfit, fun hr => ⟨hlabel hr, hroom hr⟩,
        fun c hc => ⟨path, deniedAll_eq_none_iff.1 hbelow c hc⟩⟩

/-- Where the inner walk stays on a node, the outer one has room to stay on its own. -/
theorem Within.again (h : Within a i b k) (hs : a.wildcard = false) (hr : b.recursive = true)
    (room : ∀ most, b.limit = some most → k + 1 ≤ most) :
    descend? a i b.label = some (a, i + 1) ∧ Within a (i + 1) b (k + 1) := by
  obtain ⟨-, j, hj, hi, hfit, hrec, -⟩ := h.inv hs
  obtain ⟨hlabel, hcovers⟩ := hrec hr
  obtain ⟨har, hroom⟩ := (coversRecursion_iff fun _ => hfit.bound hr).1 hcovers
  refine ⟨hlabel ▸ descend?_again har fun most hmost => ?_, h.wellFormed, by omega, ?_, ?_⟩
  · obtain ⟨wanted, hwanted, hle⟩ := hroom most hmost
    have := room wanted hwanted
    omega
  · intro hn
    rw [hr] at hn
    cases hn
  · obtain hstar | ⟨j', hj', hi', hrest⟩ := h.allowed
    · exact .inl hstar
    · exact .inr ⟨j', hj', by omega, hrest⟩

/-- Where the inner walk goes on to a child, the outer one goes on to a node that allows it. -/
theorem Within.child (h : Within a i b k) (hs : a.wildcard = false) {c : Selection}
    (hc : c ∈ b.children) :
    ∃ a' i', descend? a i c.label = some (a', i') ∧ Within a' i' c 1 := by
  obtain ⟨-, j, hj, hi, hfit, -, hbelow⟩ := h.inv hs
  obtain rfl : k = 1 := h.once (h.wellFormed.coherent.recursive_of_mem hc)
  obtain rfl : i = j := by omega
  obtain ⟨path, next, i', hstep, hnone⟩ := hbelow c hc
  refine ⟨next, i', hstep, h.wellFormed.of_mem hc, le_rfl, fun _ => rfl, .inr ⟨i', ?_, rfl, ?_⟩⟩
  · exact used_pos_of_descend? hstep
  · exact ⟨hfit.of_mem hc next i' hstep, fun _ => label_of_descend? hstep, _, hnone⟩

/-- One step of the inner walk is a step of the outer one, and the walks stay in step. -/
theorem Within.step (h : Within a i b k) (hs : a.wildcard = false)
    (hstep : descend? b k name = some (b', k')) :
    ∃ a' i', descend? a i name = some (a', i') ∧ Within a' i' b' k' := by
  obtain ⟨hr, rfl, hroom, rfl, rfl⟩ | ⟨hc, hn, rfl⟩ := descend?_eq_some hstep
  · exact ⟨a, i + 1, h.again hs hr hroom⟩
  · exact label_of_name hn ▸ h.child hs hc

/-- What is not denied along the inner selection is not denied along the outer one. -/
theorem denied_trans {c : Selection} : ∀ {a b : Selection} {i k : Nat} {path : Path},
    Within a i b k → denied b k path c = none → denied a i path c = none := by
  induction c using Selection.induction with
  | node c ih =>
    intro a b i k path h hnone
    rw [denied_eq_none_iff] at hnone ⊢
    cases hs : a.wildcard with
    | true => exact .inl rfl
    | false =>
      obtain ⟨hw, j, hj, hi, hfit, hrec, -⟩ := h.inv hs
      obtain hstar | ⟨hcw, hroom, hbelow⟩ := hnone
      · rw [hw] at hstar
        cases hstar
      · refine .inr ⟨hcw, fun hr => ?_, deniedAll_eq_none_iff.2 fun d hd => ?_⟩
        · have hcovers := hroom hr
          have hbr : b.recursive = true := by
            simp only [coversRecursion, Bool.and_eq_true] at hcovers
            exact hcovers.1
          obtain rfl : i = j + k - 1 := by omega
          exact coversRecursion_trans hj h.used_pos (fun _ => hfit.bound hbr) (hrec hbr).2 hcovers
        · obtain ⟨next, used', hstep, hpass⟩ := deniedAll_eq_none hbelow hd
          obtain ⟨a', i', hstep', hwithin⟩ := h.step hs hstep
          exact ⟨a', i', hstep', ih d hd hwithin hpass⟩

/-! ### Allowing as a preorder -/

/-- A selection that can be read allows itself.  When a selection allows it and it allows a request,
that selection allows the request as well, as long as no bound and uses in front of it add up to more
than fits in 64 bits: what is derived from an allowed selection never allows more. -/
theorem allows_preorder {text : String} {b : Selection} (hb : parse text = .ok b) :
    b.allows b = true ∧
      ∀ a c, FitsWord a b → a.allows b = true → b.allows c = true → a.allows c = true := by
  have hw := writable_of_parse hb
  refine ⟨?_, fun a c hfit hab hbc => ?_⟩
  · simp only [allows, firstDenied, Option.isNone_iff_eq_none]
    exact denied_self hw.wellFormed
  · simp only [allows, firstDenied, Option.isNone_iff_eq_none] at hab hbc ⊢
    have hstart : Within a 1 b 1 := by
      refine ⟨hw.wellFormed, le_rfl, fun _ => rfl, .inr ⟨1, le_rfl, rfl,
        fits_of_fitsWord hfit .root .root, fun hr => ?_, [], hab⟩⟩
      rw [hw.wellFormed.coherent.root hw.unnamed] at hr
      cases hr
    exact denied_trans hstart hbc

/-- A chain of five uses, one of three that begins with the second of these, and one of two that begins
with the second of those. -/
theorem allows_preorder_chains :
    let uses (n : Nat) : Selection := (named "parent").follow (some n)
    let parent (below : Selection) : Selection := { named "parent" with children := [below] }
    let a : Selection := { children := [uses 5, (named "owner").everything] }
    let b : Selection :=
      { children := [parent (uses 3), { named "owner" with children := [named "pets"] }] }
    let c : Selection := { children := [parent (parent (uses 2)), named "owner"] }
    parse "[parent.parent.^3, owner.pets]" = .ok b ∧ FitsWord a b ∧ b.allows b = true ∧
      a.allows b = true ∧ b.allows c = true ∧ a.allows c = true := by
  intro uses parent a b c
  have hb : parse "[parent.parent.^3, owner.pets]" = .ok b := by rfl
  have hfit : FitsWord a b := fitsWord_of_preorder (by decide)
  have hab : a.allows b = true := by rfl
  have hbc : b.allows c = true := by rfl
  exact ⟨hb, hfit, (allows_preorder hb).1, hab, hbc, (allows_preorder hb).2 a c hfit hab hbc⟩

end Prefetch.Selection
