import Prefetch.Proofs.Selection.Merging
import Prefetch.Proofs.Selection.Viable

/-!
# Grouping — two selections in one group, and their merge

A group puts its items on one level.  Read inside a group, a selection gives the nodes that it gives
when it is all of the text, and they join the nodes before them one after the other; a merge puts
nodes whose names are new at the end, one after the other as well.  So the group of two selections
that share no name is their merge, and where they share one, the first repetition is what the reader
finds fault with.

* `placeAll_of_repeated` — nodes that join a level: the first name that is taken is the fault.
* `parse_group_eq_placeAll` — the group of two selections, read.
* `merge_of_disjoint` — two selections that share no name, merged.
* `parse_group` — the group of two selections against their merge.
-/

namespace Prefetch.Selection

/-! ### Nodes that join a level -/

/-- Where a name is taken, the first node that finds its name taken is refused. -/
theorem placeAll_of_repeated {level : List Selection} {placed : List (Selection × Nat)}
    (hnamed : ∀ p ∈ placed, p.1.name ≠ none) (hlevel : Distinct level)
    (hd : ¬ Distinct (level ++ placed.map (·.1))) :
    ∃ front node position back, placed = front ++ (node, position) :: back ∧
      Distinct (level ++ front.map (·.1)) ∧
      (∃ c ∈ level ++ front.map (·.1), c.name = node.name) ∧
      placeAll level placed = .error ⟨position, .duplicate node.label⟩ := by
  induction placed generalizing level with
  | nil =>
    rw [List.map_nil, List.append_nil] at hd
    exact absurd hlevel hd
  | cons p placed ih =>
    obtain ⟨node, position⟩ := p
    obtain ⟨hnode, hnamed⟩ := List.forall_mem_cons.1 hnamed
    by_cases htaken : (find? level node.label).isSome
    · obtain ⟨c, hc⟩ := Option.isSome_iff_exists.1 htaken
      have hname : c.name = node.name := (exists_replace hc).1.trans (name_eq_label hnode).symm
      refine ⟨[], node, position, placed, rfl, ?_, ⟨c, ?_, hname⟩, ?_⟩
      · rwa [List.map_nil, List.append_nil]
      · rw [List.map_nil, List.append_nil]
        exact List.mem_of_find?_eq_some hc
      · simp only [placeAll, place, if_pos htaken]
    · have hplace : place level node position = .ok (level ++ [node]) := if_neg htaken
      have hnew : find? level node.label = none := Option.not_isSome_iff_eq_none.1 htaken
      rw [List.map_cons, List.append_cons] at hd
      obtain ⟨front, other, at_, back, rfl, hfront, hrepeats, herror⟩ :=
        ih hnamed ((distinct_concat (name_eq_label hnode)).2 ⟨hlevel, hnew⟩) hd
      refine ⟨(node, position) :: front, other, at_, back, rfl, ?_, ?_, ?_⟩
      · rwa [List.map_cons, List.append_cons]
      · rwa [List.map_cons, List.append_cons]
      · simp only [placeAll, hplace, herror]

/-! ### Two selections in one group -/

/-- A text that reads as a tree with nodes below its root is the spelling of an item. -/
theorem exists_item_of_parse {s : String} {t : Selection} (h : parse s = .ok t)
    (hempty : t.isEmpty = false) (hwildcard : t.wildcard = false) :
    ∃ i : Item, Spells s.toList i.tokens ∧ i.Legal ∧ Distinct i.nodes ∧
      t = { root with children := i.nodes } := by
  obtain ⟨e, hs, hl, rfl⟩ := derives_of_parse h
  cases e with
  | nothing => cases hempty
  | everything => cases hwildcard
  | item i => exact ⟨i, hs, hl.1, hl.2, rfl⟩

theorem spells_group {s₁ s₂ : String} {i₁ i₂ : Item} (h₁ : Spells s₁.toList i₁.tokens)
    (h₂ : Spells s₂.toList i₂.tokens) :
    Spells ("[" ++ s₁ ++ "," ++ s₂ ++ "]").toList (Item.group i₁ [i₂]).tokens := by
  have hback : Spells (s₂.toList ++ [']']) (i₂.tokens ++ [.mark ']']) :=
    h₂.append (spells_mark ']' (by decide) .nil)
  have htail : Spells (s₁.toList ++ ',' :: (s₂.toList ++ [']']))
      (i₁.tokens ++ .mark ',' :: (i₂.tokens ++ [.mark ']'])) :=
    h₁.append (spells_mark ',' (by decide) hback)
  have hall := spells_mark '[' (by decide) htail
  simpa [Item.tokens, tokensOfOthers] using hall

/-- The group of two items: the nodes of the second join those of the first. -/
theorem parse_group_eq_placeAll {s₁ s₂ : String} {i₁ i₂ : Item}
    (h₁ : Spells s₁.toList i₁.tokens) (hl₁ : i₁.Legal) (hd₁ : Distinct i₁.nodes)
    (h₂ : Spells s₂.toList i₂.tokens) (hl₂ : i₂.Legal) :
    ∃ placed : List (Selection × Nat), placed.map (·.1) = i₂.nodes ∧
      parse ("[" ++ s₁ ++ "," ++ s₂ ++ "]") =
        (placeAll i₁.nodes placed).map fun level => { root with children := level } := by
  obtain ⟨placed, hplaced, hparse⟩ :=
    parse_of_spells (spells_group h₁ h₂) (i := .group i₁ [i₂]) ⟨hl₁, hl₂, trivial⟩
  have hnodes : placed.map (·.1) = i₁.nodes ++ i₂.nodes := by
    rw [hplaced, Item.nodes, nodesOfAll, nodesOfAll, List.append_nil]
  obtain ⟨front, back, rfl, hfront, hback⟩ := List.map_eq_append_iff.1 hnodes
  have hplace : placeAll [] front = .ok i₁.nodes := by
    rw [placeAll_of_distinct (name_ne_none_of_mem_placed hfront) (by rwa [hfront]), hfront,
      List.nil_append]
  refine ⟨back, hback, ?_⟩
  rw [hparse, placeAll_append, hplace]
  rfl

/-- Two selections that share no name are merged by putting the nodes of one after the other's. -/
theorem merge_of_disjoint {front back : List Selection} (h : Distinct (front ++ back))
    (hnamed : ∀ c ∈ back, c.name ≠ none) :
    merge { root with children := front } { root with children := back } =
      .ok { root with children := front ++ back } := by
  simp only [merge, root, mergeAll_of_distinct h hnamed]
  rfl

/-- Two selections that are neither empty nor `*` can be read as one group exactly when no name stands
on the first level of both, and the group is then the second merged into the first, siblings in the
same order.  Where a name does, the fault is the first node of the second whose name the first has
already. -/
theorem parse_group {e₁ e₂ : String} {t₁ t₂ : Selection} (h₁ : parse e₁ = .ok t₁)
    (h₂ : parse e₂ = .ok t₂) (hempty₁ : t₁.isEmpty = false) (hempty₂ : t₂.isEmpty = false)
    (hwildcard₁ : t₁.wildcard = false) (hwildcard₂ : t₂.wildcard = false) :
    ((∃ t, parse ("[" ++ e₁ ++ "," ++ e₂ ++ "]") = .ok t) ↔
      ∀ c ∈ t₁.children, ∀ d ∈ t₂.children, c.name ≠ d.name) ∧
    (∀ t, parse ("[" ++ e₁ ++ "," ++ e₂ ++ "]") = .ok t → t₁.merge t₂ = .ok t) ∧
    ((∃ c ∈ t₁.children, ∃ d ∈ t₂.children, c.name = d.name) →
      ∃ front d back position, t₂.children = front ++ d :: back ∧
        (∀ c ∈ t₁.children, ∀ b ∈ front, c.name ≠ b.name) ∧
        (∃ c ∈ t₁.children, c.name = d.name) ∧
        parse ("[" ++ e₁ ++ "," ++ e₂ ++ "]") = .error ⟨position, .duplicate d.label⟩) := by
  obtain ⟨i₁, hs₁, hl₁, hd₁, rfl⟩ := exists_item_of_parse h₁ hempty₁ hwildcard₁
  obtain ⟨i₂, hs₂, hl₂, hd₂, rfl⟩ := exists_item_of_parse h₂ hempty₂ hwildcard₂
  obtain ⟨placed, hplaced, hparse⟩ := parse_group_eq_placeAll hs₁ hl₁ hd₁ hs₂ hl₂
  have hnamed := name_ne_none_of_mem_placed hplaced
  by_cases hdisjoint : ∀ c ∈ i₁.nodes, ∀ d ∈ i₂.nodes, c.name ≠ d.name
  · have hd : Distinct (i₁.nodes ++ i₂.nodes) := distinct_append.2 ⟨hd₁, hd₂, hdisjoint⟩
    have hok : parse ("[" ++ e₁ ++ "," ++ e₂ ++ "]") =
        .ok { root with children := i₁.nodes ++ i₂.nodes } := by
      rw [hparse, placeAll_of_distinct hnamed (by rwa [hplaced]), hplaced]
      rfl
    refine ⟨iff_of_true ⟨_, hok⟩ hdisjoint, fun t ht => ?_, ?_⟩
    · obtain rfl := Except.ok.inj (hok.symm.trans ht)
      exact merge_of_disjoint hd i₂.name_ne_none
    · rintro ⟨c, hc, d, hd, hname⟩
      exact absurd hname (hdisjoint c hc d hd)
  · have hd : ¬ Distinct (i₁.nodes ++ placed.map (·.1)) := by
      rw [hplaced]
      exact fun hd => hdisjoint (distinct_append.1 hd).2.2
    obtain ⟨front, node, position, back, rfl, hfront, ⟨c, hc, hname⟩, herror⟩ :=
      placeAll_of_repeated hnamed hd₁ hd
    have hsplit : i₂.nodes = front.map (·.1) ++ node :: back.map (·.1) := by
      rw [← hplaced, List.map_append, List.map_cons]
    have hfail : parse ("[" ++ e₁ ++ "," ++ e₂ ++ "]") = .error ⟨position, .duplicate node.label⟩ := by
      rw [hparse, herror]
      rfl
    -- the second has its names once, so the name that is taken stands in the first
    have hc : c ∈ i₁.nodes := by
      refine (List.mem_append.1 hc).resolve_right fun hc => ?_
      exact (distinct_append.1 (hsplit ▸ hd₂)).2.2 c hc node List.mem_cons_self hname
    refine ⟨iff_of_false ?_ hdisjoint, fun t ht => ?_, fun _ => ?_⟩
    · rintro ⟨t, ht⟩
      cases hfail.symm.trans ht
    · cases hfail.symm.trans ht
    · exact ⟨_, node, _, position, hsplit, (distinct_append.1 hfront).2.2, ⟨c, hc, hname⟩, hfail⟩

/-- A path beside a group whose names are new, and beside one that repeats its name further in. -/
theorem parse_group_nested :
    let t₁ : Selection := { children := [{ named "a" with
      children := [named "b", (named "c").follow (some 2)] }] }
    let t₂ : Selection := { children := [(named "d").everything, named "e"] }
    (∃ t, parse ("[" ++ " a .[b,c.^2]" ++ "," ++ "[d.*,[e]]" ++ "]") = .ok t ∧
      t₁.merge t₂ = .ok t) ∧
    ∃ position, parse ("[" ++ " a .[b,c.^2]" ++ "," ++ "[f,[a],e] " ++ "]") =
      .error ⟨position, .duplicate "a"⟩ := by
  intro t₁ t₂
  have h₁ : parse " a .[b,c.^2]" = .ok t₁ := by rfl
  have h₂ : parse "[d.*,[e]]" = .ok t₂ := by rfl
  have h₃ : parse "[f,[a],e] " =
      .ok { children := [named "f", named "a", named "e"] } := by rfl
  obtain ⟨hiff, hmerge, -⟩ := parse_group h₁ h₂ rfl rfl rfl rfl
  obtain ⟨-, -, hfail⟩ := parse_group h₁ h₃ rfl rfl rfl rfl
  obtain ⟨t, ht⟩ := hiff.2 (by decide)
  refine ⟨⟨t, ht, hmerge t ht⟩, ?_⟩
  obtain ⟨front, d, back, position, hsplit, -, ⟨c, hc, hname⟩, h⟩ := hfail (by decide)
  obtain rfl := List.mem_singleton.1 hc
  have hlabel : d.label = "a" := congrArg (Option.getD · "") hname.symm
  exact ⟨position, hlabel ▸ h⟩

end Prefetch.Selection
