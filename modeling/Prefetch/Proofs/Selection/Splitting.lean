import Prefetch.Proofs.Selection.Coverage
import Prefetch.Proofs.Selection.Merging

/-!
# Splitting — a request in parts is allowed as its parts are

Under an allowed selection the merge of two requests is the least that covers both: it is allowed
exactly when both are.  Node by node, a `*` of either is a `*` of the merge; a recursion asks for the
larger of the two bounds, and room for the larger is room for both; and what lies below is allowed
child by child.

* `denied_eq_none_iff`, `deniedAll_eq_none_iff` — when nothing is denied at a node, and below it.
* `coversRecursion_merge` — room for the bound of a merge is room for both bounds.
* `denied_merge` — nothing is denied in a merge exactly when nothing is denied in either part.
* `allows_merge` — so no way of splitting a request changes what is allowed.
-/

namespace Prefetch.Selection

/-! ### When nothing is denied -/

theorem denied_eq_none_iff {allowed s : Selection} {used : Nat} {path : Path} :
    denied allowed used path s = none ↔
      allowed.wildcard = true ∨
        s.wildcard = false ∧ (s.recursive = true → coversRecursion allowed used s.limit = true) ∧
          deniedAll allowed used path s.children = none := by
  obtain ⟨_, children, recursive, limit, wildcard⟩ := s
  rw [denied]
  split
  · rename_i hstar
    simp [hstar]
  · rename_i hstar
    split
    · rename_i hw
      simp [hstar, hw]
    · rename_i hw
      split
      · rename_i hr
        simp_all
      · rename_i hr
        simp_all

/-- A requested child passes when the walk goes on to it and nothing is denied from there on. -/
def Passes (allowed : Selection) (used : Nat) (path : Path) (c : Selection) : Prop :=
  ∃ next used', descend? allowed used c.label = some (next, used') ∧
    denied next used' (path ++ [c.label]) c = none

theorem deniedAll_eq_none_iff {allowed : Selection} {used : Nat} {path : Path}
    {siblings : List Selection} :
    deniedAll allowed used path siblings = none ↔ ∀ c ∈ siblings, Passes allowed used path c := by
  refine ⟨fun h c hc => deniedAll_eq_none h hc, fun h => ?_⟩
  induction siblings with
  | nil => rfl
  | cons c cs ih =>
    obtain ⟨next, used', hstep, hnone⟩ := h c List.mem_cons_self
    rw [deniedAll, hstep]
    simp only [hnone]
    exact ih fun d hd => h d (List.mem_cons_of_mem c hd)

/-! ### Bounds that fit in 64 bits -/

/-- Wherever the walk stands at a requested bound, the uses so far and the bound add up to a number
that fits in 64 bits. -/
inductive Fits : Selection → Nat → Selection → Prop where
  | intro {allowed s : Selection} {used : Nat}
      (here : s.recursive = true → ∀ wanted, s.limit = some wanted →
        used + wanted ≤ Text.maxWord)
      (deeper : ∀ c ∈ s.children, ∀ next used', descend? allowed used c.label = some (next, used') →
        Fits next used' c) : Fits allowed used s

theorem Fits.bound {allowed s : Selection} {used : Nat} (h : Fits allowed used s)
    (hr : s.recursive = true) {wanted : Nat} (hl : s.limit = some wanted) :
    used + wanted ≤ Text.maxWord := by
  cases h with
  | intro here _ => exact here hr wanted hl

/-- Wherever the walk goes on to a child, the bounds from there on fit. -/
def FitsBelow (allowed : Selection) (used : Nat) (c : Selection) : Prop :=
  ∀ next used', descend? allowed used c.label = some (next, used') → Fits next used' c

theorem Fits.of_mem {allowed s c : Selection} {used : Nat} (h : Fits allowed used s)
    (hc : c ∈ s.children) : FitsBelow allowed used c := by
  cases h with
  | intro _ deeper => exact deeper c hc

theorem fits_of_fitsWord {allowed requested : Selection} (h : FitsWord allowed requested)
    {node : Selection} : ∀ {a : Selection} {used : Nat} {path : Path}, Walk allowed path a used →
      Occurs requested path node → Fits a used node := by
  induction node using Selection.induction with
  | node node ih =>
    intro a used path hw ho
    exact .intro (fun hr wanted hl => h path node wanted ho hr hl a used hw)
      fun c hc next used' hstep => ih c hc (walk_of_descend? hw hstep) (ho.child hc)

/-- Within 64 bits a requested `^` fits when the allowed one has no bound, or has room for as many
uses. -/
theorem coversRecursion_iff {allowed : Selection} {used : Nat} {limit : Option Nat}
    (hfit : ∀ wanted, limit = some wanted → used + wanted ≤ Text.maxWord) :
    coversRecursion allowed used limit = true ↔ allowed.recursive = true ∧
      ∀ most, allowed.limit = some most → ∃ wanted, limit = some wanted ∧ used + wanted - 1 ≤ most := by
  refine ⟨fun h => room_of_coversRecursion h hfit, fun ⟨hr, hroom⟩ => ?_⟩
  unfold coversRecursion
  rw [hr, Bool.true_and]
  cases hmost : allowed.limit with
  | none => rfl
  | some most =>
    obtain ⟨wanted, rfl, hle⟩ := hroom most hmost
    have hsum := hfit wanted rfl
    simp only [decide_eq_true_eq]
    rw [Nat.mod_eq_of_lt (by omega)]
    exact hle

/-- Both bounds are within a number exactly when that of the merge is. -/
theorem mergeLimit_le_iff {s : Selection} (hs : s.recursive = true) (limit : Option Nat)
    (used most : Nat) :
    (∃ wanted, s.mergeLimit limit = some wanted ∧ used + wanted - 1 ≤ most) ↔
      (∃ wanted, s.limit = some wanted ∧ used + wanted - 1 ≤ most) ∧
        ∃ wanted, limit = some wanted ∧ used + wanted - 1 ≤ most := by
  unfold mergeLimit
  rw [if_pos hs]
  cases s.limit with
  | none => simp
  | some a =>
    cases limit with
    | none => simp
    | some b =>
      simp only [Option.some.injEq, exists_eq_left']
      omega

/-- A merge has no bound that does not fit when neither part has one. -/
theorem fits_limit_merge {allowed s t : Selection} {used : Nat} (hs : Fits allowed used s)
    (ht : Fits allowed used t) (hr : (s.recursive || t.recursive) = true) {wanted : Nat}
    (hl : (if t.recursive then s.mergeLimit t.limit else s.limit) = some wanted) :
    used + wanted ≤ Text.maxWord := by
  rcases limit_merge hl with ⟨hl, hrec⟩ | ⟨hl, htr⟩
  · refine hs.bound ?_ hl
    rcases Bool.or_eq_true_iff.1 hr with hsr | htr
    · exact hsr
    · exact hrec htr
  · exact ht.bound htr hl

/-- There is room for the recursion of a merge when there is room for that of both. -/
theorem coversRecursion_merge {allowed s t : Selection} {used : Nat} (hs : Fits allowed used s)
    (ht : Fits allowed used t) :
    ((s.recursive || t.recursive) = true → coversRecursion allowed used
        (if t.recursive then s.mergeLimit t.limit else s.limit) = true) ↔
      (s.recursive = true → coversRecursion allowed used s.limit = true) ∧
        (t.recursive = true → coversRecursion allowed used t.limit = true) := by
  cases hsr : s.recursive with
  | false => cases htr : t.recursive <;> simp [mergeLimit, hsr]
  | true =>
    cases htr : t.recursive with
    | false => simp
    | true =>
      have hm : ∀ wanted, s.mergeLimit t.limit = some wanted → used + wanted ≤ Text.maxWord :=
        fun wanted hl => fits_limit_merge hs ht (by rw [hsr]; rfl) (by rwa [if_pos htr])
      simp only [Bool.or_self, if_true, forall_const]
      rw [coversRecursion_iff fun _ => hs.bound hsr, coversRecursion_iff fun _ => ht.bound htr,
        coversRecursion_iff hm]
      simp only [mergeLimit_le_iff hsr, imp_and, forall_and]
      tauto

theorem fits_merge {t : Selection} : ∀ {allowed s m : Selection} {used : Nat},
    Fits allowed used s → Fits allowed used t → s.merge t = .ok m → Fits allowed used m := by
  induction t using Selection.induction with
  | node t ih =>
    intro allowed s m used hs ht h
    obtain ⟨merged, hmerged, ⟨-, rfl⟩ | ⟨-, rfl, -⟩⟩ := merge_eq_ok h
    · exact .intro nofun nofun
    · refine .intro (fun hr _ hl => fits_limit_merge hs ht hr hl) ?_
      refine forall_mergeAll ?_ (fun c hc => hs.of_mem hc) (fun c hc => ht.of_mem hc) hmerged
      intro c hc known node hknown hgood hname hnode next used' hstep
      rw [label_merge hnode] at hstep
      exact ih c hc (hknown next used' hstep) (hgood next used' (label_of_name hname ▸ hstep)) hnode

/-! ### Merges -/

/-- A merged child passes when both do: the walk goes on from all three to the same place. -/
theorem passes_merge {allowed known c node : Selection} {used : Nat} {path : Path}
    (hknown : known.label = c.label) (hnode : node.label = c.label)
    (hboth : ∀ next used', descend? allowed used c.label = some (next, used') →
      (denied next used' (path ++ [c.label]) node = none ↔
        denied next used' (path ++ [c.label]) known = none ∧
          denied next used' (path ++ [c.label]) c = none)) :
    Passes allowed used path node ↔
      Passes allowed used path known ∧ Passes allowed used path c := by
  unfold Passes
  rw [hknown, hnode]
  constructor
  · rintro ⟨next, used', hstep, hnone⟩
    obtain ⟨h₁, h₂⟩ := (hboth next used' hstep).1 hnone
    exact ⟨⟨next, used', hstep, h₁⟩, next, used', hstep, h₂⟩
  · rintro ⟨⟨next, used', hstep, h₁⟩, next', used'', hstep', h₂⟩
    obtain ⟨rfl, rfl⟩ := Prod.mk.inj (Option.some.inj (hstep.symm.trans hstep'))
    exact ⟨next, used', hstep, (hboth next used' hstep).2 ⟨h₁, h₂⟩⟩

/-- Nothing is denied in a merge exactly when nothing is denied in either part. -/
theorem denied_merge {t : Selection} : ∀ {allowed s m : Selection} {used : Nat} {path : Path},
    Fits allowed used s → Fits allowed used t → s.merge t = .ok m →
      (denied allowed used path m = none ↔
        denied allowed used path s = none ∧ denied allowed used path t = none) := by
  induction t using Selection.induction with
  | node t ih =>
    intro allowed s m used path hs ht h
    simp only [denied_eq_none_iff]
    cases hstar : allowed.wildcard with
    | true => simp
    | false =>
      obtain ⟨merged, hmerged, ⟨hw, rfl⟩ | ⟨hw, rfl, hleaf⟩⟩ := merge_eq_ok h
      · -- a `*` of either part is denied, and so is the one of the merge
        simp only [everything]
        rcases Bool.or_eq_true_iff.1 hw with hw | hw <;> simp [hw]
      · obtain ⟨hsw, htw⟩ := Bool.or_eq_false_iff.1 hw
        have hchildren : deniedAll allowed used path merged = none ↔
            deniedAll allowed used path s.children = none ∧
              deniedAll allowed used path t.children = none := by
          simp only [deniedAll_eq_none_iff]
          refine forall_mergeAll_iff ?_ (fun c hc => hs.of_mem hc) (fun c hc => ht.of_mem hc) hmerged
          intro c hc known node hknown hgood hname hnode
          have hlabel : known.label = c.label := label_of_name hname
          have hmerge : node.label = c.label := (label_merge hnode).trans hlabel
          refine ⟨fun next used' hstep => ?_, passes_merge hlabel hmerge fun next used' hstep => ?_⟩
          · rw [hmerge] at hstep
            exact fits_merge (hknown next used' (hlabel ▸ hstep)) (hgood next used' hstep) hnode
          · exact ih c hc (hknown next used' (hlabel ▸ hstep)) (hgood next used' hstep) hnode
        simp only [hsw, htw, Bool.false_eq_true, false_or, true_and, hchildren,
          coversRecursion_merge hs ht]
        tauto

/-- An allowed selection allows the merge of two requests exactly when it allows both, so what it
decides does not depend on how a request is split.  The requests may be any trees that merge, as long
as no bound and uses in front of it add up to more than fits in 64 bits. -/
theorem allows_merge {allowed a b m : Selection} (ha : FitsWord allowed a)
    (hb : FitsWord allowed b) (h : a.merge b = .ok m) :
    allowed.allows m = true ↔ allowed.allows a = true ∧ allowed.allows b = true := by
  simp only [allows, firstDenied, Option.isNone_iff_eq_none]
  exact denied_merge (fits_of_fitsWord ha .root .root) (fits_of_fitsWord hb .root .root) h

/-- A part that uses a bounded relation once and asks for two more uses, and one that spells out two
uses of it beside another relation. -/
theorem allows_merge_chain :
    let allowed : Selection := { children := [(named "parent").follow (some 3), named "owner"] }
    let a : Selection :=
      { children := [{ named "parent" with children := [(named "parent").follow (some 2)] }] }
    let b : Selection :=
      { children := [{ named "parent" with children := [named "parent"] }, named "owner"] }
    let m : Selection :=
      { children := [{ named "parent" with children := [(named "parent").follow (some 2)] },
        named "owner"] }
    FitsWord allowed a ∧ FitsWord allowed b ∧ a.merge b = .ok m ∧
      (allowed.allows m = true ↔ allowed.allows a = true ∧ allowed.allows b = true) ∧
      allowed.allows m = true := by
  intro allowed a b m
  have ha : FitsWord allowed a := by
    intro path node wanted ho hr hl x used hw
    have hu := hw.used_le
    rcases ho.eq_or_below with ⟨-, rfl⟩ | ⟨c₁, hc₁, rest₁, rfl, ho₁⟩
    · cases hl
    · obtain rfl := List.mem_singleton.1 hc₁
      rcases ho₁.eq_or_below with ⟨-, rfl⟩ | ⟨c₂, hc₂, rest₂, rfl, ho₂⟩
      · cases hl
      · obtain rfl := List.mem_singleton.1 hc₂
        rcases ho₂.eq_or_below with ⟨rfl, rfl⟩ | ⟨c₃, hc₃, -⟩
        · obtain rfl : 2 = wanted := Option.some.inj hl
          simp only [List.length_cons, List.length_nil, Text.maxWord] at hu ⊢
          omega
        · cases hc₃
  have hb : FitsWord allowed b := by
    intro path node wanted ho hr hl x used hw
    rcases ho.eq_or_below with ⟨-, rfl⟩ | ⟨c₁, hc₁, rest₁, rfl, ho₁⟩
    · cases hl
    · simp only [b, List.mem_cons, List.not_mem_nil, or_false] at hc₁
      rcases ho₁.eq_or_below with ⟨-, rfl⟩ | ⟨c₂, hc₂, rest₂, rfl, ho₂⟩
      · rcases hc₁ with rfl | rfl <;> cases hl
      · rcases hc₁ with rfl | rfl
        · obtain rfl := List.mem_singleton.1 hc₂
          rcases ho₂.eq_or_below with ⟨-, rfl⟩ | ⟨c₃, hc₃, -⟩
          · cases hl
          · cases hc₃
        · cases hc₂
  have hm : a.merge b = .ok m := by rfl
  exact ⟨ha, hb, hm, allows_merge ha hb hm, by rfl⟩

end Prefetch.Selection
