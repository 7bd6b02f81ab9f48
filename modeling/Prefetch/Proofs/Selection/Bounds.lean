import Prefetch.Proofs.Selection.Preorder
import Prefetch.Proofs.Selection.Walking

/-!
# Bounds — how often a requested recursion may go on

A requested `^n` where the walk has used an allowed `^m` for the `k`-th time asks for `n - 1` uses
more.  The checker adds them up in 64 bits.  As long as the sum fits, it allows the request exactly
when `k + n - 1` is at most `m`; a sum that does not fit wraps round to a number below `k`, and so it
is always found small enough.

* `toNat_wordSum` — the sum as 64 bits have it.
* `coversRecursion_iff_wordSum` — the checker compares that sum.
* `wordSum_le_iff` — it is small enough when the true sum is, or when that does not fit.
* `denied_bound` — what the checker makes of a requested bound.
* `allows_past_bound` — a request that is allowed though it goes past its bound.
-/

namespace Prefetch.Selection

variable {allowed requested a node : Selection} {path : Path} {used wanted most : Nat}

/-- The use at which a recursion ends that wants so many uses from one on, in 64 bits. -/
def wordSum (used wanted : Nat) : UInt64 :=
  UInt64.ofNat used + UInt64.ofNat wanted - 1

theorem toNat_wordSum (hused : 1 ≤ used) :
    (wordSum used wanted).toNat = (used + wanted - 1) % (Text.maxWord + 1) := by
  simp only [wordSum, UInt64.toNat_sub, UInt64.toNat_add, UInt64.toNat_ofNat', UInt64.toNat_one,
    Text.maxWord]
  omega

theorem wordSum_le (hused : 1 ≤ used) (hword : most ≤ Text.maxWord) :
    wordSum used wanted ≤ UInt64.ofNat most ↔
      (used + wanted - 1) % (Text.maxWord + 1) ≤ most := by
  have hmost : (UInt64.ofNat most).toNat = most := by
    simp only [UInt64.toNat_ofNat', Text.maxWord] at hword ⊢
    omega
  rw [UInt64.le_iff_toNat_le, toNat_wordSum hused, hmost]

/-- The checker adds up and compares in 64 bits. -/
theorem coversRecursion_iff_wordSum (hr : a.recursive = true) (hmost : a.limit = some most)
    (hused : 1 ≤ used) (hword : most ≤ Text.maxWord) :
    coversRecursion a used (some wanted) = true ↔ wordSum used wanted ≤ UInt64.ofNat most := by
  rw [wordSum_le hused hword]
  unfold coversRecursion
  rw [hr, Bool.true_and, hmost]
  simp only [decide_eq_true_eq]

/-- A sum that does not fit is taken for one that is small enough. -/
theorem wordSum_le_iff (hused : 1 ≤ used) (hle : used ≤ most) (hword : most ≤ Text.maxWord)
    (hwanted : wanted ≤ Text.maxWord) :
    wordSum used wanted ≤ UInt64.ofNat most ↔
      used + wanted - 1 ≤ most ∨ Text.maxWord + 1 < used + wanted := by
  rw [wordSum_le hused hword]
  simp only [Text.maxWord] at hword hwanted ⊢
  omega

/-! ### The bounds of trees that can be read -/

theorem Walk.used_pos (h : Walk allowed path a used) : 1 ≤ used := by
  cases h with
  | root => exact le_rfl
  | child _ _ _ => exact le_rfl
  | again _ _ _ _ => omega

/-- A node with a bound is recursive, and nothing is selected below it. -/
theorem Coherent.of_limit (h : Coherent a) (hl : a.limit = some most) :
    a.recursive = true ∧ a.wildcard = false ∧ a.children = [] := by
  have hr : a.recursive = true := h.bound (by simp [hl])
  refine ⟨hr, ?_, h.leaf (.inl hr)⟩
  cases hw : a.wildcard with
  | false => rfl
  | true => exact absurd ⟨hr, hw⟩ h.oneMark

/-- At a requested bound the checker denies nothing exactly when the bound has room. -/
theorem denied_iff_coversRecursion (ha : Coherent a) (hn : Coherent node)
    (hmost : a.limit = some most) (hwanted : node.limit = some wanted) :
    denied a used path node = none ↔ coversRecursion a used (some wanted) = true := by
  obtain ⟨-, hstar, -⟩ := ha.of_limit hmost
  obtain ⟨hr, hplain, hleaf⟩ := hn.of_limit hwanted
  rw [denied_eq_none_iff, hstar, hr, hplain, hleaf, hwanted]
  simp [deniedAll]

/-- Along an allowed chain of `most` uses at most, a request to use it so many times from some use on
is decided by their sum in 64 bits.  The sum is exact when it fits.  The request is allowed when it
stays within the chain, and also when the sum does not fit; so a request that is allowed as a whole
stays within every allowed chain as far as the sums fit. -/
theorem denied_bound {text text' : String} (ha : parse text = .ok allowed)
    (hr : parse text' = .ok requested) (ho : Occurs requested path node)
    (hwanted : node.limit = some wanted) (hw : Walk allowed path a used)
    (hmost : a.limit = some most) :
    (denied a used path node = none ↔ wordSum used wanted ≤ UInt64.ofNat most) ∧
      (used + wanted ≤ Text.maxWord → (wordSum used wanted).toNat = used + wanted - 1) ∧
      (denied a used path node = none ↔
        used + wanted - 1 ≤ most ∨ Text.maxWord + 1 < used + wanted) ∧
      (allowed.allows requested = true → used + wanted ≤ Text.maxWord + 1 →
        used + wanted - 1 ≤ most) := by
  have hallowed := writable_of_parse ha
  have hrequested := writable_of_parse hr
  have hcoherent : Coherent a := (hw.wellFormed hallowed.wellFormed).coherent
  have hnode : Coherent node := (ho.everywhere hrequested.wellFormed).here
  have hrange := (hw.everywhere hallowed.spellable).here.range
  have hword : most ≤ Text.maxWord := (hrange most hmost).2
  have hused : 1 ≤ used := hw.used_pos
  have hle : used ≤ most := hw.used_le_limit (fun m hm => (hrange m hm).1) hmost
  have hbound : wanted ≤ Text.maxWord :=
    ((ho.everywhere hrequested.spellable).here.range wanted hwanted).2
  have hsum : denied a used path node = none ↔ wordSum used wanted ≤ UInt64.ofNat most := by
    rw [denied_iff_coversRecursion hcoherent hnode hmost hwanted,
      coversRecursion_iff_wordSum (hcoherent.of_limit hmost).1 hmost hused hword]
  have hexact := hsum.trans (wordSum_le_iff hused hle hword hbound)
  refine ⟨hsum, fun hfit => ?_, hexact, fun hallows hfit => ?_⟩
  · rw [toNat_wordSum hused, Nat.mod_eq_of_lt (by omega)]
  · have hnone : allowed.firstDenied requested = none := by
      simpa only [allows, Option.isNone_iff_eq_none] using hallows
    rcases hexact.1 (denied_of_walk hallowed.wellFormed hnone ho hw) with h | h
    · exact h
    · omega

/-- Two more uses from the second use of a relation on that may be used three times in a row. -/
theorem denied_bound_chain :
    let a := (named "parent").follow (some 3)
    let node := (named "parent").follow (some 2)
    let allowed : Selection := { children := [a] }
    let requested : Selection := { children := [{ named "parent" with children := [node] }] }
    let path := ["parent", "parent"]
    parse "parent.^3" = .ok allowed ∧ parse "parent.parent.^2" = .ok requested ∧
      Occurs requested path node ∧ Walk allowed path a 2 ∧
      (denied a 2 path node = none ↔ 2 + 2 - 1 ≤ 3 ∨ Text.maxWord + 1 < 2 + 2) ∧
      (wordSum 2 2).toNat = 3 ∧ allowed.allows requested = true := by
  intro a node allowed requested path
  have ha : parse "parent.^3" = .ok allowed := by rfl
  have hr : parse "parent.parent.^2" = .ok requested := by rfl
  have ho : Occurs requested path node := mem_preorder_iff.1 (.tail _ (.tail _ (.head _)))
  have hw : Walk allowed path a 2 :=
    (Walk.root.child List.mem_cons_self rfl).again rfl rfl fun most hm => by
      obtain rfl : 3 = most := Option.some.inj hm
      omega
  have hwanted : node.limit = some 2 := rfl
  have hmost : a.limit = some 3 := rfl
  obtain ⟨-, hfits, hexact, -⟩ := denied_bound ha hr ho hwanted hw hmost
  exact ⟨ha, hr, ho, hw, hexact, hfits (by decide), by rfl⟩

/-- From the second use on, all uses that 64 bits can count are found to fit into a chain of three. -/
theorem allows_past_bound :
    let a := (named "parent").follow (some 3)
    let node := (named "parent").follow (some 18446744073709551615)
    let allowed : Selection := { children := [a] }
    let requested : Selection := { children := [{ named "parent" with children := [node] }] }
    let path := ["parent", "parent"]
    parse "parent.^3" = .ok allowed ∧
      parse "parent.parent.^18446744073709551615" = .ok requested ∧
      Occurs requested path node ∧ Walk allowed path a 2 ∧
      ¬ 2 + 18446744073709551615 - 1 ≤ 3 ∧ denied a 2 path node = none ∧
      allowed.allows requested = true := by
  intro a node allowed requested path
  refine ⟨by rfl, by rfl, mem_preorder_iff.1 (.tail _ (.tail _ (.head _))), ?_, by omega, by rfl,
    by rfl⟩
  refine (Walk.root.child List.mem_cons_self rfl).again rfl rfl fun most hm => ?_
  obtain rfl : 3 = most := Option.some.inj hm
  omega

end Prefetch.Selection
