import Mathlib.Data.List.Perm.Subperm
import Mathlib.Logic.Relation
import Prefetch.Proofs.Selection.Demand

/-!
# Rearranging — selections that differ in the order of siblings

Two selections are compared child by child: each child of the first is looked up by its name in the
second.  Where names tell siblings apart, different children find different partners, and as there
are equally many, no child of the second is left over.  So the comparison holds exactly when the
second selection comes from the first by putting children in another order, at any depth.  The
checker looks children up in the same way, so it does not see their order, be it in what is allowed
or in what is requested.

* `Unambiguous`, `Rearranges` — names tell siblings apart; one node has its children in another
  order.
* `same_of_rearranges`, `rearranged_of_same` — the comparison and the reordering agree.
* `denied_of_same_allowed`, `denied_of_same_requested` — the checker does not see the order.
* `beq_iff_rearranged` — equality of selections.
-/

namespace Prefetch.Selection

open Relation

variable {a b s t : Selection}

/-! ### Siblings told apart by their names -/

/-- Every child has a name, and no two children share one. -/
structure Labelled (s : Selection) : Prop where
  named : ∀ c ∈ s.children, c.name ≠ none
  distinct : Distinct s.children

/-- Names tell siblings apart at every node; its own name, its marks and its bound may be anything.
-/
def Unambiguous (s : Selection) : Prop :=
  Everywhere Labelled s

/-- Trees that can be written are among these. -/
theorem WellFormed.unambiguous (h : s.WellFormed) : s.Unambiguous := by
  induction h with
  | intro here _ ih => exact .intro ⟨here.named, here.distinct⟩ ih

theorem Distinct.perm {siblings order : List Selection} (hd : Distinct siblings)
    (h : siblings.Perm order) : Distinct order := by
  unfold Distinct at hd ⊢
  exact (h.map _).nodup_iff.1 hd

/-- One node, the root or one below it, has its children in another order. -/
inductive Rearranges : Selection → Selection → Prop where
  | here {name : Option String} {recursive : Bool} {limit : Option Nat} {wildcard : Bool}
      {children order : List Selection} (h : children.Perm order) :
      Rearranges ⟨name, children, recursive, limit, wildcard⟩
        ⟨name, order, recursive, limit, wildcard⟩
  | inside {name : Option String} {recursive : Bool} {limit : Option Nat} {wildcard : Bool}
      {front back : List Selection} {c d : Selection} (h : Rearranges c d) :
      Rearranges ⟨name, front ++ c :: back, recursive, limit, wildcard⟩
        ⟨name, front ++ d :: back, recursive, limit, wildcard⟩

theorem Rearranges.name_eq (h : Rearranges s t) : t.name = s.name := by
  cases h <;> rfl

theorem Rearranges.symm (h : Rearranges s t) : Rearranges t s := by
  induction h with
  | here h => exact .here h.symm
  | inside _ ih => exact .inside ih

theorem Unambiguous.rearranges (h : Rearranges s t) (hs : s.Unambiguous) : t.Unambiguous := by
  induction h with
  | here hperm =>
    exact .intro ⟨fun c hc => hs.here.named c (hperm.mem_iff.2 hc), hs.here.distinct.perm hperm⟩
      fun c hc => hs.of_mem (hperm.mem_iff.2 hc)
  | @inside _ _ _ _ front back c d h ih =>
    obtain ⟨hnamed, hdistinct⟩ := hs.here
    have hbelow : ∀ e ∈ front ++ c :: back, e.Unambiguous := fun e he => hs.of_mem he
    simp only [List.forall_mem_append, List.forall_mem_cons] at hnamed hbelow
    refine .intro ⟨?_, ?_⟩ ?_
    · simp only [List.forall_mem_append, List.forall_mem_cons, h.name_eq]
      exact hnamed
    · unfold Distinct at hdistinct ⊢
      simpa only [List.map_append, List.map_cons, h.name_eq] using hdistinct
    · simp only [List.forall_mem_append, List.forall_mem_cons]
      exact ⟨hbelow.1, ih hbelow.2.1, hbelow.2.2⟩

/-! ### From reordering to comparison -/

/-- Siblings are matched when each has its like, of the same name, among others that names tell
apart. -/
theorem allMatched_of_forall {siblings others : List Selection} (hd : Distinct others)
    (h : ∀ c ∈ siblings, ∃ d ∈ others, d.name = some c.label ∧ same c d = true) :
    allMatched siblings others = true :=
  allMatched_iff.2 fun c hc => by
    obtain ⟨d, hdm, hname, hsame⟩ := h c hc
    exact ⟨d, find?_of_mem hd hdm hname, hsame⟩

theorem same_refl (hs : s.Unambiguous) : same s s = true := by
  induction s using Selection.induction with
  | node s ih =>
    refine same_iff.2 ⟨rfl, rfl, rfl, rfl, rfl,
      allMatched_of_forall hs.here.distinct fun c hc => ?_⟩
    exact ⟨c, hc, name_eq_label (hs.here.named c hc), ih c hc (hs.of_mem hc)⟩

theorem same_trans : ∀ {b c : Selection}, same a b = true → same b c = true → same a c = true := by
  induction a using Selection.induction with
  | node a ih =>
    intro b c hab hbc
    obtain ⟨hname, hr, hl, hw, hlength, hall⟩ := same_iff.1 hab
    obtain ⟨hname', hr', hl', hw', hlength', hall'⟩ := same_iff.1 hbc
    refine same_iff.2 ⟨hname.trans hname', hr.trans hr', hl.trans hl', hw.trans hw',
      hlength.trans hlength', allMatched_iff.2 fun x hx => ?_⟩
    obtain ⟨y, hy, hxy⟩ := allMatched_iff.1 hall x hx
    obtain ⟨hym, hyn⟩ := child?_eq_some hy
    obtain ⟨z, hz, hyz⟩ := allMatched_iff.1 hall' y hym
    rw [label_of_name hyn] at hz
    exact ⟨z, hz, ih x hx hxy hyz⟩

/-- Another order of siblings makes no difference to the comparison. -/
theorem same_of_rearranges (h : Rearranges s t) (hs : s.Unambiguous) : same s t = true := by
  have ht := hs.rearranges h
  induction h with
  | here hperm =>
    refine same_iff.2 ⟨rfl, rfl, rfl, rfl, hperm.length_eq,
      allMatched_of_forall ht.here.distinct fun c hc => ?_⟩
    exact ⟨c, hperm.mem_iff.1 hc, name_eq_label (hs.here.named c hc), same_refl (hs.of_mem hc)⟩
  | @inside _ _ _ _ front back c d h ih =>
    refine same_iff.2 ⟨rfl, rfl, rfl, rfl, by simp,
      allMatched_of_forall ht.here.distinct fun e he => ?_⟩
    have hname := name_eq_label (hs.here.named e he)
    have hself := same_refl (hs.of_mem he)
    have hc : c.Unambiguous := hs.of_mem (List.mem_append_right front List.mem_cons_self)
    rcases List.mem_append.1 he with he | he
    · exact ⟨e, List.mem_append_left _ he, hname, hself⟩
    · rcases List.mem_cons.1 he with rfl | he
      · exact ⟨d, List.mem_append_right _ List.mem_cons_self, h.name_eq.trans hname,
          ih hc (hc.rearranges h)⟩
      · exact ⟨e, List.mem_append_right _ (List.mem_cons_of_mem d he), hname, hself⟩

/-- So it is with any number of reorderings. -/
theorem same_of_rearranged (h : ReflTransGen Rearranges s t) (hs : s.Unambiguous) :
    same s t = true ∧ t.Unambiguous := by
  induction h with
  | refl => exact ⟨same_refl hs, hs⟩
  | tail _ hstep ih =>
    obtain ⟨hsame, hu⟩ := ih
    exact ⟨same_trans hsame (same_of_rearranges hstep hu), hu.rearranges hstep⟩

/-! ### From comparison to reordering -/

/-- The like of each sibling, one after the other. -/
theorem exists_partners {siblings others : List Selection}
    (h : allMatched siblings others = true) :
    ∃ partners, List.Forall₂ (fun c d => d ∈ others ∧ d.name = some c.label ∧ same c d = true)
      siblings partners := by
  induction siblings with
  | nil => exact ⟨[], .nil⟩
  | cons c cs ih =>
    rw [allMatched_iff, List.forall_mem_cons] at h
    obtain ⟨⟨d, hd, hsame⟩, hrest⟩ := h
    obtain ⟨partners, hpartners⟩ := ih (allMatched_iff.2 hrest)
    obtain ⟨hmem, hname⟩ := child?_eq_some (s := { children := others }) hd
    exact ⟨d :: partners, .cons ⟨hmem, hname, hsame⟩ hpartners⟩

/-- Siblings that names tell apart have different partners; when there are no more of the others,
the partners are the others in some order. -/
theorem perm_of_partners {siblings others partners : List Selection} (hd : Distinct siblings)
    (hnamed : ∀ c ∈ siblings, c.name ≠ none) (hlength : siblings.length = others.length)
    (h : List.Forall₂ (fun c d => d ∈ others ∧ d.name = some c.label) siblings partners) :
    partners.Perm others := by
  have hnames : partners.map (·.name) = siblings.map (·.name) := by
    clear hd hlength
    induction h with
    | nil => rfl
    | @cons c d cs ds hcd _ ih =>
      rw [List.forall_mem_cons] at hnamed
      rw [List.map_cons, List.map_cons, ih hnamed.2, hcd.2, name_eq_label hnamed.1]
  have hsubset : partners ⊆ others := by
    clear hd hnamed hlength hnames
    induction h with
    | nil => exact List.nil_subset _
    | cons hcd _ ih => exact List.cons_subset.2 ⟨hcd.1, ih⟩
  have hnodup : partners.Nodup := by
    refine List.Nodup.of_map (·.name) ?_
    rw [hnames]
    exact hd
  refine (hnodup.subperm hsubset).perm_of_length_le ?_
  rw [← hlength, h.length_eq]

/-- The children of a node may be rearranged one after the other. -/
theorem rearranged_children {siblings partners : List Selection}
    (h : List.Forall₂ (ReflTransGen Rearranges) siblings partners) (name : Option String)
    (recursive : Bool) (limit : Option Nat) (wildcard : Bool) (front : List Selection) :
    ReflTransGen Rearranges ⟨name, front ++ siblings, recursive, limit, wildcard⟩
      ⟨name, front ++ partners, recursive, limit, wildcard⟩ := by
  induction h generalizing front with
  | nil => exact .refl
  | @cons c d cs ds hcd _ ih =>
    have hfirst : ReflTransGen Rearranges ⟨name, front ++ c :: cs, recursive, limit, wildcard⟩
        ⟨name, front ++ d :: cs, recursive, limit, wildcard⟩ :=
      ReflTransGen.lift (fun x => Selection.mk name (front ++ x :: cs) recursive limit wildcard)
        (fun _ _ h => .inside h) c d hcd
    have hrest := ih (front ++ [d])
    simp only [List.append_assoc, List.singleton_append] at hrest
    exact hfirst.trans hrest

/-- What the comparison accepts comes about by reordering. -/
theorem rearranged_of_same : ∀ {t : Selection}, s.Unambiguous → same s t = true →
    ReflTransGen Rearranges s t := by
  induction s using Selection.induction with
  | node s ih =>
    intro t hs h
    obtain ⟨hname, hr, hl, hw, hlength, hall⟩ := same_iff.1 h
    obtain ⟨partners, hpartners⟩ := exists_partners hall
    have hperm : partners.Perm t.children :=
      perm_of_partners hs.here.distinct hs.here.named hlength
        (hpartners.imp fun _ _ hcd => ⟨hcd.1, hcd.2.1⟩)
    have hbelow : List.Forall₂ (ReflTransGen Rearranges) s.children partners := by
      refine ((List.forall₂_and_left _ _).2 ⟨fun c hc => hc, hpartners⟩).imp ?_
      exact fun c d ⟨hc, _, _, hsame⟩ => ih c hc (hs.of_mem hc) hsame
    obtain ⟨name, children, recursive, limit, wildcard⟩ := s
    obtain ⟨_, order, _, _, _⟩ := t
    obtain ⟨rfl, rfl, rfl, rfl⟩ : name = _ ∧ recursive = _ ∧ limit = _ ∧ wildcard = _ :=
      ⟨hname, hr, hl, hw⟩
    exact (rearranged_children hbelow name recursive limit wildcard []).tail (.here hperm)

theorem same_symm (ha : a.Unambiguous) (h : same a b = true) : same b a = true := by
  have hab := rearranged_of_same ha h
  have hb := (same_of_rearranged hab ha).2
  have : Std.Symm Rearranges := ⟨fun _ _ => Rearranges.symm⟩
  exact (same_of_rearranged (symm_of (ReflTransGen Rearranges) hab) hb).1

/-! ### The checker -/

section Checker

variable {c : Selection} {name : String} {used used' : Nat} {path : Path}

/-- Selections that are the same have the same room for a recursion. -/
theorem coversRecursion_of_same (h : same a b = true) (used : Nat) (wanted : Option Nat) :
    coversRecursion b used wanted = coversRecursion a used wanted := by
  obtain ⟨-, hr, hl, -, -, -⟩ := same_iff.1 h
  unfold coversRecursion
  rw [hr, hl]

/-- From selections that are the same the checker goes on to selections that are the same. -/
theorem descend?_of_same (h : same a b = true) (hstep : descend? a used name = some (c, used')) :
    ∃ d, descend? b used name = some (d, used') ∧ same c d = true := by
  obtain ⟨hname, hr, hl, -, -, hall⟩ := same_iff.1 h
  have hlabel : a.label = b.label := congrArg (·.getD "") hname
  unfold descend? at hstep ⊢
  rw [← hr, ← hl, ← hlabel]
  split at hstep
  · -- both stay where they are, if there is room
    rename_i hstays
    rw [if_pos hstays]
    split at hstep
    · obtain ⟨rfl, rfl⟩ := Prod.mk.inj (Option.some.inj hstep)
      exact ⟨b, rfl, h⟩
    · split at hstep
      · cases hstep
      · rename_i hroom
        obtain ⟨rfl, rfl⟩ := Prod.mk.inj (Option.some.inj hstep)
        exact ⟨b, if_neg hroom, h⟩
  · rename_i hmoves
    rw [if_neg hmoves]
    obtain ⟨x, hx, hpair⟩ := Option.map_eq_some_iff.1 hstep
    obtain ⟨rfl, rfl⟩ := Prod.mk.inj hpair
    obtain ⟨hxm, hxn⟩ := child?_eq_some hx
    obtain ⟨d, hd, hsame⟩ := allMatched_iff.1 hall x hxm
    rw [label_of_name hxn] at hd
    exact ⟨d, by rw [child?, hd, Option.map_some], hsame⟩

/-- What one selection does not deny, one that is the same does not deny. -/
theorem denied_of_same_allowed : ∀ {a b : Selection} {used : Nat} {path : Path},
    same a b = true → denied a used path s = none → denied b used path s = none := by
  induction s using Selection.induction with
  | node s ih =>
    intro a b used path h hnone
    obtain ⟨-, -, -, hw, -, -⟩ := same_iff.1 h
    rw [denied_eq_none_iff] at hnone ⊢
    rw [← hw]
    refine hnone.imp_right fun ⟨hplain, hroom, hbelow⟩ => ⟨hplain, fun hr => ?_, ?_⟩
    · rw [coversRecursion_of_same h]
      exact hroom hr
    · refine deniedAll_eq_none_iff.2 fun c hc => ?_
      obtain ⟨next, used', hstep, hpass⟩ := deniedAll_eq_none_iff.1 hbelow c hc
      obtain ⟨next', hstep', hsame⟩ := descend?_of_same h hstep
      exact ⟨next', used', hstep', ih c hc hsame hpass⟩

/-- Of requests that are the same, neither is denied alone. -/
theorem denied_of_same_requested : ∀ {t a : Selection} {used : Nat} {path : Path},
    same s t = true → denied a used path t = none → denied a used path s = none := by
  induction s using Selection.induction with
  | node s ih =>
    intro t a used path h hnone
    obtain ⟨-, hr, hl, hw, -, hall⟩ := same_iff.1 h
    rw [denied_eq_none_iff] at hnone ⊢
    rw [hr, hl, hw]
    refine hnone.imp_right fun ⟨hplain, hroom, hbelow⟩ => ⟨hplain, hroom, ?_⟩
    refine deniedAll_eq_none_iff.2 fun c hc => ?_
    obtain ⟨d, hd, hsame⟩ := allMatched_iff.1 hall c hc
    obtain ⟨hdm, hdn⟩ := child?_eq_some (s := t) hd
    obtain ⟨next, used', hstep, hpass⟩ := deniedAll_eq_none_iff.1 hbelow d hdm
    rw [label_of_name hdn] at hstep hpass
    exact ⟨next, used', hstep, ih c hc hsame hpass⟩

theorem allows_eq_true_iff : a.allows s = true ↔ denied a 1 [] s = none := by
  rw [allows, firstDenied, Option.isNone_iff_eq_none]

end Checker

/-! ### Equality -/

/-- Equality of selections whose siblings are told apart by their names.  Equal to such a selection
is what comes from it by putting children in another order, at any depth.  So equality is reflexive,
symmetric and transitive, and whether a request is allowed does not change when either side is
replaced by one equal to it. -/
theorem beq_iff_rearranged (ha : a.Unambiguous) :
    ((a == b) = true ↔ ReflTransGen Rearranges a b) ∧
      (a == a) = true ∧ ((a == b) = true → (b == a) = true) ∧
      (∀ c : Selection, (a == b) = true → (b == c) = true → (a == c) = true) ∧
      ((a == b) = true → ∀ c : Selection, a.allows c = b.allows c ∧ c.allows a = c.allows b) := by
  refine ⟨⟨rearranged_of_same ha, fun h => (same_of_rearranged h ha).1⟩, same_refl ha, same_symm ha,
    fun _ => same_trans, fun h c => ?_⟩
  have hback : same b a = true := same_symm ha h
  constructor
  · rw [Bool.eq_iff_iff, allows_eq_true_iff, allows_eq_true_iff]
    exact ⟨denied_of_same_allowed h, denied_of_same_allowed hback⟩
  · rw [Bool.eq_iff_iff, allows_eq_true_iff, allows_eq_true_iff]
    exact ⟨denied_of_same_requested hback, denied_of_same_requested h⟩

/-- Two orders of siblings at two depths: one comes from the other, and both allow one more turn of
the recursion. -/
theorem beq_iff_rearranged_groups :
    let group (p q : String) : Selection :=
      { named "owner" with children := [named p, named q] }
    let parent : Selection := (named "parent").follow (some 2)
    let a : Selection := { children := [group "pets" "toys", parent] }
    let b : Selection := { children := [parent, group "toys" "pets"] }
    let c : Selection := { children := [{ named "parent" with children := [named "parent"] }] }
    parse "[owner.[pets, toys], parent.^2]" = .ok a ∧ (a == b) = true ∧
      ReflTransGen Rearranges a b ∧ (b == a) = true ∧ a.allows c = true ∧ b.allows c = true := by
  intro group parent a b c
  have ha : parse "[owner.[pets, toys], parent.^2]" = .ok a := by rfl
  have heq : (a == b) = true := by rfl
  have hc : a.allows c = true := by rfl
  obtain ⟨hiff, -, hsymm, -, hallows⟩ :=
    beq_iff_rearranged (b := b) (writable_of_parse ha).wellFormed.unambiguous
  exact ⟨ha, heq, hiff.1 heq, hsymm heq, hc, (hallows heq c).1 ▸ hc⟩

end Prefetch.Selection
