import Mathlib.Data.List.Nodup
import Prefetch.Proofs.Selection.RoundTrip
import Prefetch.Selection.Merge

/-!
# Merging — what a merge is made of

A merge goes through the siblings of the second selection one by one: one whose name is new goes to
the end, any other is merged into the one that has its name.  Then the marks are brought together.
So whatever two nodes of one name pass on to their merge, merged siblings have from theirs; merging
never leaves the trees that the notation can write.

* `merge_eq_ok`, `mergeAll_cons_eq_ok` — a merge that succeeds, one step opened.
* `mergeAll_induct` — what every such step keeps holds of the merged siblings.
* `forall_mergeAll_iff` — merged siblings all have what the siblings on both sides all have.
* `merge_root_left`, `merge_self` — the empty selection, and a selection merged into itself.
* `wellFormed_merge`, `writable_merge` — merging keeps the shape of trees.
-/

namespace Prefetch.Selection

/-! ### One step -/

/-- A merge that succeeds: a `*` on either side takes the place of everything, and otherwise the
marks come together over the merged children, of which a recursive node has none. -/
theorem merge_eq_ok {s t m : Selection} (h : s.merge t = .ok m) :
    ∃ merged, mergeAll s.children t.children = .ok merged ∧
      ((s.wildcard || t.wildcard) = true ∧ m = s.everything ∨
        (s.wildcard || t.wildcard) = false ∧
          m = ⟨s.name, merged, s.recursive || t.recursive,
            if t.recursive then s.mergeLimit t.limit else s.limit, false⟩ ∧
          ((s.recursive || t.recursive) = true → merged = [])) := by
  obtain ⟨_, children, recursive, limit, wildcard⟩ := t
  rw [merge] at h
  split at h
  · cases h
  · rename_i merged hmerged
    refine ⟨merged, hmerged, ?_⟩
    unfold settle at h
    split at h
    · rename_i hstar
      exact .inl ⟨hstar, (Except.ok.inj h).symm⟩
    · rename_i hstar
      replace hstar : (s.wildcard || wildcard) = false := Bool.eq_false_iff.2 hstar
      split at h
      · cases h
      · rename_i hleaf
        obtain rfl := Except.ok.inj h
        refine .inr ⟨hstar, ?_, fun hr => ?_⟩
        · simp only [mergeMarks, hstar]
        · simpa [mergeMarks, hr] using hleaf

theorem name_merge {s t m : Selection} (h : s.merge t = .ok m) : m.name = s.name := by
  obtain ⟨merged, -, ⟨-, rfl⟩ | ⟨-, rfl, -⟩⟩ := merge_eq_ok h <;> rfl

theorem label_merge {s t m : Selection} (h : s.merge t = .ok m) : m.label = s.label := by
  rw [label, name_merge h, label]

/-- What is replaced stands somewhere, and everything else stays. -/
theorem exists_replace {siblings : List Selection} {name : String} {known : Selection}
    (h : find? siblings name = some known) :
    known.name = some name ∧ ∃ front back, siblings = front ++ known :: back ∧
      ∀ node, replace name node siblings = front ++ node :: back := by
  induction siblings with
  | nil => cases h
  | cons c cs ih =>
    by_cases hc : c.name = some name
    · rw [find?, List.find?_cons_of_pos (by simp [hc])] at h
      obtain rfl := Option.some.inj h
      exact ⟨hc, [], cs, rfl, fun node => by simp [replace, hc]⟩
    · rw [find?, List.find?_cons_of_neg (by simp [hc])] at h
      obtain ⟨hname, front, back, rfl, hreplace⟩ := ih h
      exact ⟨hname, c :: front, back, rfl, fun node => by simp [replace, hc, hreplace]⟩

/-- The first sibling to be merged goes to the end, or into the one that has its name. -/
theorem mergeAll_cons_eq_ok {siblings cs merged : List Selection} {c : Selection}
    (h : mergeAll siblings (c :: cs) = .ok merged) :
    (∀ d ∈ siblings, d.name ≠ some c.label) ∧ mergeAll (siblings ++ [c]) cs = .ok merged ∨
      ∃ front known back node, siblings = front ++ known :: back ∧ known.name = some c.label ∧
        known.merge c = .ok node ∧ mergeAll (front ++ node :: back) cs = .ok merged := by
  rw [mergeAll] at h
  split at h
  · rename_i hnew
    exact .inl ⟨find?_eq_none.1 hnew, h⟩
  · rename_i known hknown
    split at h
    · cases h
    · rename_i node hnode
      obtain ⟨hname, front, back, hsplit, hreplace⟩ := exists_replace hknown
      rw [hreplace] at h
      exact .inr ⟨front, known, back, node, hsplit, hname, hnode, h⟩

/-- What holds of the siblings on both sides, and goes on holding whenever one more has been merged,
holds of the merged siblings. -/
theorem mergeAll_induct (holds : List Selection → List Selection → Prop)
    (new : ∀ siblings c cs, holds siblings (c :: cs) → (∀ d ∈ siblings, d.name ≠ some c.label) →
      holds (siblings ++ [c]) cs)
    (known : ∀ front known back c cs node, holds (front ++ known :: back) (c :: cs) →
      known.name = some c.label → known.merge c = .ok node → holds (front ++ node :: back) cs)
    {siblings others merged : List Selection} (hstart : holds siblings others)
    (h : mergeAll siblings others = .ok merged) : holds merged [] := by
  induction others generalizing siblings with
  | nil =>
    rw [mergeAll] at h
    obtain rfl := Except.ok.inj h
    exact hstart
  | cons c cs ih =>
    obtain ⟨hnew, h⟩ | ⟨front, d, back, node, rfl, hname, hnode, h⟩ := mergeAll_cons_eq_ok h
    · exact ih (new siblings c cs hstart hnew) h
    · exact ih (known front d back c cs node hstart hname hnode) h

/-! ### Merged siblings -/

section Siblings

variable {good p : Selection → Prop} {siblings others merged : List Selection}

/-- What merging two nodes of one name keeps, all merged siblings have. -/
theorem forall_mergeAll
    (keeps : ∀ c ∈ others, ∀ known node, good known → good c → known.name = some c.label →
      known.merge c = .ok node → good node)
    (hs : ∀ c ∈ siblings, good c) (ho : ∀ c ∈ others, good c)
    (h : mergeAll siblings others = .ok merged) : ∀ c ∈ merged, good c := by
  refine (mergeAll_induct (fun now rest => (∀ c ∈ now, good c) ∧ ∀ c ∈ rest, c ∈ others)
    ?_ ?_ ⟨hs, fun _ hc => hc⟩ h).1
  · rintro now c cs ⟨hnow, hrest⟩ -
    rw [List.forall_mem_cons] at hrest
    refine ⟨List.forall_mem_append.2 ⟨hnow, ?_⟩, hrest.2⟩
    exact List.forall_mem_singleton.2 (ho c hrest.1)
  · rintro front known back c cs node ⟨hnow, hrest⟩ hname hnode
    rw [List.forall_mem_append, List.forall_mem_cons] at hnow
    rw [List.forall_mem_cons] at hrest
    have hgood := keeps c hrest.1 known node hnow.2.1 (ho c hrest.1) hname hnode
    exact ⟨List.forall_mem_append.2 ⟨hnow.1, List.forall_mem_cons.2 ⟨hgood, hnow.2.2⟩⟩, hrest.2⟩

/-- Where a merge of two nodes has what both have, merged siblings all have what the siblings on
both sides all have. -/
theorem forall_mergeAll_iff
    (keeps : ∀ c ∈ others, ∀ known node, good known → good c → known.name = some c.label →
      known.merge c = .ok node → good node ∧ (p node ↔ p known ∧ p c))
    (hs : ∀ c ∈ siblings, good c) (ho : ∀ c ∈ others, good c)
    (h : mergeAll siblings others = .ok merged) :
    (∀ c ∈ merged, p c) ↔ (∀ c ∈ siblings, p c) ∧ ∀ c ∈ others, p c := by
  refine Iff.trans (by simp) (mergeAll_induct (fun now rest => (∀ c ∈ now, good c) ∧
    (∀ c ∈ rest, c ∈ others) ∧ ((∀ c ∈ now, p c) ∧ (∀ c ∈ rest, p c) ↔
      (∀ c ∈ siblings, p c) ∧ ∀ c ∈ others, p c)) ?_ ?_ ⟨hs, fun _ hc => hc, Iff.rfl⟩ h).2.2
  · rintro now c cs ⟨hnow, hrest, hp⟩ -
    rw [List.forall_mem_cons] at hrest
    refine ⟨List.forall_mem_append.2 ⟨hnow, ?_⟩, hrest.2, ?_⟩
    · exact List.forall_mem_singleton.2 (ho c hrest.1)
    · rw [← hp, List.forall_mem_append, List.forall_mem_singleton, List.forall_mem_cons, and_assoc]
  · rintro front known back c cs node ⟨hnow, hrest, hp⟩ hname hnode
    rw [List.forall_mem_append, List.forall_mem_cons] at hnow
    rw [List.forall_mem_cons] at hrest
    obtain ⟨hgood, hboth⟩ := keeps c hrest.1 known node hnow.2.1 (ho c hrest.1) hname hnode
    refine ⟨List.forall_mem_append.2 ⟨hnow.1, List.forall_mem_cons.2 ⟨hgood, hnow.2.2⟩⟩,
      hrest.2, ?_⟩
    rw [← hp]
    simp only [List.forall_mem_append, List.forall_mem_cons, hboth]
    tauto

/-- Merged siblings have different names. -/
theorem distinct_mergeAll (hs : Distinct siblings) (ho : ∀ c ∈ others, c.name ≠ none)
    (h : mergeAll siblings others = .ok merged) : Distinct merged := by
  refine (mergeAll_induct (fun now rest => Distinct now ∧ ∀ c ∈ rest, c.name ≠ none)
    ?_ ?_ ⟨hs, ho⟩ h).1
  · rintro now c cs ⟨hnow, hrest⟩ hnew
    rw [List.forall_mem_cons] at hrest
    refine ⟨distinct_append.2 ⟨hnow, distinct_singleton c, fun d hd e he => ?_⟩, hrest.2⟩
    obtain rfl := List.mem_singleton.1 he
    rw [name_eq_label hrest.1]
    exact hnew d hd
  · rintro front known back c cs node ⟨hnow, hrest⟩ - hnode
    refine ⟨?_, (List.forall_mem_cons.1 hrest).2⟩
    unfold Distinct at hnow ⊢
    simpa only [List.map_append, List.map_cons, name_merge hnode] using hnow

end Siblings

/-! ### Nothing to bring together -/

theorem mergeAll_of_distinct {front siblings : List Selection} (h : Distinct (front ++ siblings))
    (hnamed : ∀ c ∈ siblings, c.name ≠ none) :
    mergeAll front siblings = .ok (front ++ siblings) := by
  induction siblings generalizing front with
  | nil => rw [mergeAll, List.append_nil]
  | cons c siblings ih =>
    have hnew : find? front c.label = none := by
      refine find?_eq_none.2 fun d hd => ?_
      rw [← name_eq_label (hnamed c List.mem_cons_self)]
      exact (distinct_append.1 h).2.2 d hd c List.mem_cons_self
    have hsplit : front ++ c :: siblings = (front ++ [c]) ++ siblings := by simp
    rw [mergeAll, hnew, hsplit]
    rw [hsplit] at h
    exact ih h fun d hd => hnamed d (List.mem_cons_of_mem c hd)

/-- Among distinct siblings a name leads to the one that has it. -/
theorem find?_of_mem {siblings : List Selection} {c : Selection} {name : String}
    (hd : Distinct siblings) (hc : c ∈ siblings) (hn : c.name = some name) :
    find? siblings name = some c := by
  cases h : find? siblings name with
  | none => exact absurd hn (find?_eq_none.1 h c hc)
  | some d =>
    obtain ⟨hdn, front, back, rfl, -⟩ := exists_replace h
    have hdm : d ∈ front ++ d :: back := List.mem_append_right front List.mem_cons_self
    exact congrArg some (List.inj_on_of_nodup_map hd hdm hc (hdn.trans hn.symm))

/-- Siblings that are there already, and change nothing where they are, change nothing. -/
theorem mergeAll_of_mem {siblings others : List Selection} (hd : Distinct siblings)
    (h : ∀ c ∈ others, c ∈ siblings ∧ c.name ≠ none ∧ c.merge c = .ok c) :
    mergeAll siblings others = .ok siblings := by
  induction others with
  | nil => rw [mergeAll]
  | cons c cs ih =>
    obtain ⟨hc, hnamed, hself⟩ := h c List.mem_cons_self
    have hfind := find?_of_mem hd hc (name_eq_label hnamed)
    obtain ⟨-, front, back, hsplit, hreplace⟩ := exists_replace hfind
    have hstay : replace c.label c siblings = siblings := (hreplace c).trans hsplit.symm
    rw [mergeAll, hfind]
    simp only [hself, hstay]
    exact ih fun d hd => h d (List.mem_cons_of_mem c hd)

/-- A coherent node is in order already. -/
theorem settle_of_coherent {s : Selection} (h : Coherent s) : settle s = .ok s := by
  have hleaf := h.leaf
  have hmark := h.oneMark
  have hbound := h.limit_eq_none
  obtain ⟨name, children, recursive, limit, wildcard⟩ := s
  simp only at hleaf hmark hbound
  unfold settle
  cases wildcard with
  | true =>
    obtain rfl : children = [] := hleaf (.inr rfl)
    obtain rfl : recursive = false := by simpa using hmark
    obtain rfl : limit = none := hbound rfl
    rfl
  | false =>
    cases recursive with
    | true =>
      obtain rfl : children = [] := hleaf (.inl rfl)
      rfl
    | false => rfl

/-- A selection merged into itself stays as it is. -/
theorem merge_self {s : Selection} (h : s.WellFormed) : s.merge s = .ok s := by
  induction s using Selection.induction with
  | node s ih =>
    have hc := h.coherent
    have hchildren : mergeAll s.children s.children = .ok s.children :=
      mergeAll_of_mem hc.distinct fun c hm => ⟨hm, hc.named c hm, ih c hm (h.of_mem hm)⟩
    have hsettle := settle_of_coherent hc
    have hlimit : (if s.recursive then s.mergeLimit s.limit else s.limit) = s.limit := by
      unfold mergeLimit
      cases s.recursive with
      | false => rfl
      | true => cases s.limit <;> simp
    obtain ⟨name, children, recursive, limit, wildcard⟩ := s
    simp only at hchildren hlimit
    rw [merge, hchildren]
    simpa only [mergeMarks, Bool.or_self, hlimit] using hsettle

/-- The empty selection takes over what is merged into it. -/
theorem merge_root_left {s : Selection} (h : s.WellFormed) (hroot : s.name = none) :
    root.merge s = .ok s := by
  have hc := h.coherent
  have hchildren : mergeAll [] s.children = .ok ([] ++ s.children) :=
    mergeAll_of_distinct hc.distinct hc.named
  have hrecursive := hc.root hroot
  have hlimit := hc.limit_eq_none hrecursive
  have hleaf := hc.leaf
  obtain ⟨name, children, recursive, limit, wildcard⟩ := s
  simp only at hroot hchildren hrecursive hlimit hleaf
  subst hroot hrecursive hlimit
  have hmerged : root.children = [] := rfl
  rw [merge, hmerged, hchildren]
  cases wildcard with
  | false => rfl
  | true =>
    obtain rfl := hleaf (.inr rfl)
    rfl

/-! ### Trees that can be written -/

/-- Merging keeps trees well-formed, unless a named node goes into a root, which must not become
recursive. -/
theorem wellFormed_merge {t : Selection} : ∀ {s m : Selection}, s.WellFormed → t.WellFormed →
    (s.name = none → t.name = none) → s.merge t = .ok m → m.WellFormed := by
  induction t using Selection.induction with
  | node t ih =>
    intro s m hs ht hname h
    have hcs := hs.coherent
    have hct := ht.coherent
    obtain ⟨merged, hmerged, ⟨-, rfl⟩ | ⟨-, rfl, hleaf⟩⟩ := merge_eq_ok h
    · exact wellFormed_everything s
    · have hbelow : ∀ c ∈ merged, c.name ≠ none ∧ c.WellFormed := by
        refine forall_mergeAll ?_ (fun c hc => ⟨hcs.named c hc, hs.of_mem hc⟩)
          (fun c hc => ⟨hct.named c hc, ht.of_mem hc⟩) hmerged
        intro c hc known node hknown hgood _ hnode
        exact ⟨by rw [name_merge hnode]; exact hknown.1,
          ih c hc hknown.2 hgood.2 (fun hnone => absurd hnone hknown.1) hnode⟩
      refine .intro ⟨fun c hc => (hbelow c hc).1, distinct_mergeAll hcs.distinct hct.named hmerged,
        ?_, by simp, ?_, ?_⟩ fun c hc => (hbelow c hc).2
      · rintro (hr | hw)
        · exact hleaf hr
        · cases hw
      · intro hbound
        cases hr : t.recursive with
        | true => simp
        | false =>
          simp only [hr, Bool.false_eq_true, if_false] at hbound
          simp [hcs.bound hbound]
      · intro hroot
        simp [hcs.root hroot, hct.root (hname hroot)]

/-- The bound of a merge is the bound of one of the two. -/
theorem limit_merge {s t : Selection} {n : Nat}
    (h : (if t.recursive then s.mergeLimit t.limit else s.limit) = some n) :
    s.limit = some n ∧ (t.recursive = true → s.recursive = true) ∨
      t.limit = some n ∧ t.recursive = true := by
  unfold mergeLimit at h
  split at h
  · rename_i ht
    split at h
    · rename_i hs
      split at h
      · rename_i a b ha hb
        obtain rfl := Option.some.inj h
        rcases Nat.le_total a b with hab | hab
        · exact .inr ⟨by rw [hb, Nat.max_eq_right hab], ht⟩
        · exact .inl ⟨by rw [ha, Nat.max_eq_left hab], fun _ => hs⟩
      · cases h
    · exact .inr ⟨h, ht⟩
  · rename_i ht
    exact .inl ⟨h, fun hr => absurd hr ht⟩

/-- Merging keeps names and bounds in the notation. -/
theorem spellable_merge {t : Selection} : ∀ {s m : Selection}, Everywhere Spellable s →
    Everywhere Spellable t → s.merge t = .ok m → Everywhere Spellable m := by
  induction t using Selection.induction with
  | node t ih =>
    intro s m hs ht h
    obtain ⟨merged, hmerged, ⟨-, rfl⟩ | ⟨-, rfl, -⟩⟩ := merge_eq_ok h
    · refine .intro ?_ nofun
      constructor <;> simp [everything]
    · have hbelow : ∀ c ∈ merged, (c.label.toList ≠ [] ∧
          ∀ ch ∈ c.label.toList, isNameChar ch = true) ∧ Everywhere Spellable c := by
        refine forall_mergeAll ?_ (fun c hc => ⟨hs.here.letters c hc, hs.of_mem hc⟩)
          (fun c hc => ⟨ht.here.letters c hc, ht.of_mem hc⟩) hmerged
        intro c hc known node hknown hgood _ hnode
        rw [label_merge hnode]
        exact ⟨hknown.1, ih c hc hknown.2 hgood.2 hnode⟩
      refine .intro ⟨fun c hc => (hbelow c hc).1, fun n hn => ?_⟩ fun c hc => (hbelow c hc).2
      rcases limit_merge hn with ⟨hn, -⟩ | ⟨hn, -⟩
      · exact hs.here.range n hn
      · exact ht.here.range n hn

/-- What two selections that can be written merge to can be written. -/
theorem writable_merge {s t m : Selection} (hs : s.Writable) (ht : t.Writable)
    (h : s.merge t = .ok m) : m.Writable :=
  ⟨(name_merge h).trans hs.unnamed,
    wellFormed_merge hs.wellFormed ht.wellFormed (fun _ => ht.unnamed) h,
    spellable_merge hs.spellable ht.spellable h⟩

end Prefetch.Selection
