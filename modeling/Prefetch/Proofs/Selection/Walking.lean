import Mathlib.Data.List.Nodup
import Prefetch.Proofs.Selection.Splitting

/-!
# Walking — the walk along a well-formed selection

Along any tree a path may be walked in several ways.  In a well-formed tree no two siblings share a
name, and a recursive node has no children that its own name could lead to: there the walk goes on
just as the checker does, so there is one walk along a path at most, and it ends at a `*`.

* `walk_concat_iff` — a walk goes on by the steps of the checker.
* `Walk.unique` — a path leads to one node, used so many times.
* `meetsStar_iff` — a walk has met a `*` exactly when it stands on one.
* `covers_concat_iff` — what is covered one name further.
* `denied_of_walk` — where nothing is denied from the root on, nothing is denied on the way.
-/

namespace Prefetch.Selection

variable {allowed requested a b c : Selection} {path : Path} {name : String} {used used' : Nat}

/-! ### Steps -/

/-- Among distinct siblings a name leads to the child that has it. -/
theorem child?_of_mem (hd : Distinct a.children) (hc : c ∈ a.children) (hn : c.name = some name) :
    a.child? name = some c :=
  find?_of_mem hd hc hn

/-- A node with children is not recursive. -/
theorem Coherent.recursive_of_mem (h : Coherent a) (hc : c ∈ a.children) : a.recursive = false := by
  cases hr : a.recursive with
  | false => rfl
  | true =>
    rw [h.leaf (.inl hr)] at hc
    cases hc

/-- The checker goes from a well-formed node to each of its children. -/
theorem descend?_of_mem (ha : a.WellFormed) (hc : c ∈ a.children) (hn : c.name = some name)
    (used : Nat) : descend? a used name = some (c, 1) := by
  rw [descend?_child (ha.coherent.recursive_of_mem hc), child?_of_mem ha.coherent.distinct hc hn]
  rfl

/-- The checker stays on a recursive node that has room for one more use. -/
theorem descend?_again (hr : a.recursive = true)
    (room : ∀ most, a.limit = some most → used + 1 ≤ most) :
    descend? a used a.label = some (a, used + 1) := by
  unfold descend?
  rw [hr, beq_self_eq_true, Bool.and_self, if_pos rfl]
  cases hl : a.limit with
  | none => rfl
  | some most =>
    have := room most hl
    simp only [if_neg (show ¬ used + 1 > most by omega)]

/-- From a well-formed `*` the checker goes nowhere. -/
theorem descend?_of_wildcard (ha : a.WellFormed) (hs : a.wildcard = true) :
    descend? a used name = none := by
  have hchildren : a.children = [] := ha.coherent.leaf (.inr hs)
  have hr : a.recursive = false := by
    cases hr : a.recursive with
    | false => rfl
    | true => exact absurd ⟨hr, hs⟩ ha.coherent.oneMark
  rw [descend?_child hr, child?, hchildren]
  rfl

/-- The checker goes on to a node of the name. -/
theorem label_of_descend? (h : descend? a used name = some (b, used')) : b.label = name := by
  obtain ⟨-, hn, -, rfl, -⟩ | ⟨-, hn, -⟩ := descend?_eq_some h
  · exact hn.symm
  · exact label_of_name hn

theorem used_pos_of_descend? (h : descend? a used name = some (b, used')) : 1 ≤ used' := by
  obtain ⟨-, -, -, -, rfl⟩ | ⟨-, -, rfl⟩ := descend?_eq_some h
  · omega
  · exact le_rfl

/-! ### Walks -/

theorem walk_nil_iff : Walk allowed [] a used ↔ a = allowed ∧ used = 1 := by
  constructor
  · intro h
    generalize hp : ([] : Path) = path at h
    cases h with
    | root => exact ⟨rfl, rfl⟩
    | child _ _ _ => simp at hp
    | again _ _ _ _ => simp at hp
  · rintro ⟨rfl, rfl⟩
    exact .root

/-- What holds everywhere in a selection holds everywhere below the nodes that a walk leads to. -/
theorem Walk.everywhere {p : Selection → Prop} (h : Walk allowed path a used)
    (hp : Everywhere p allowed) : Everywhere p a := by
  induction h with
  | root => exact hp
  | child _ hc _ ih => exact ih.of_mem hc
  | again _ _ _ _ ih => exact ih

theorem Walk.wellFormed (h : Walk allowed path a used) (ha : allowed.WellFormed) : a.WellFormed :=
  h.everywhere ha

/-- What holds everywhere in a selection holds everywhere below the nodes that occur in it. -/
theorem Occurs.everywhere {p : Selection → Prop} {s node : Selection} (h : Occurs s path node)
    (hp : Everywhere p s) : Everywhere p node := by
  induction h with
  | root => exact hp
  | child _ hc ih => exact ih.of_mem hc

/-- A walk goes on by the steps of the checker. -/
theorem walk_concat_iff (ha : allowed.WellFormed) :
    Walk allowed (path ++ [name]) b used' ↔
      ∃ a used, Walk allowed path a used ∧ descend? a used name = some (b, used') := by
  refine ⟨fun h => ?_, fun ⟨a, used, hw, h⟩ => walk_of_descend? hw h⟩
  obtain ⟨a, used, above, hc, hn, rfl⟩ | ⟨used, above, hr, rfl, room, rfl⟩ := h.concat_inv
  · exact ⟨a, used, above, descend?_of_mem (above.wellFormed ha) hc hn used⟩
  · exact ⟨b, used, above, descend?_again hr room⟩

/-- A path leads to one node of a well-formed selection, used so many times in a row. -/
theorem Walk.unique (ha : allowed.WellFormed) (h : Walk allowed path a used)
    (h' : Walk allowed path b used') : a = b ∧ used = used' := by
  induction path using List.reverseRecOn generalizing a b used used' with
  | nil =>
    obtain ⟨rfl, rfl⟩ := walk_nil_iff.1 h
    obtain ⟨rfl, rfl⟩ := walk_nil_iff.1 h'
    exact ⟨rfl, rfl⟩
  | append_singleton path name ih =>
    obtain ⟨x, i, hx, hstep⟩ := (walk_concat_iff ha).1 h
    obtain ⟨y, j, hy, hstep'⟩ := (walk_concat_iff ha).1 h'
    obtain ⟨rfl, rfl⟩ := ih hx hy
    exact Prod.mk.inj (Option.some.inj (hstep.symm.trans hstep'))

/-- A bounded node is not used more often than its bound says. -/
theorem Walk.used_le_limit (h : Walk allowed path a used)
    (hpos : ∀ most, a.limit = some most → 1 ≤ most) {most : Nat} (hl : a.limit = some most) :
    used ≤ most := by
  cases h with
  | root => exact hpos most hl
  | child _ _ _ => exact hpos most hl
  | again _ _ _ room => exact room most hl

/-! ### Covered paths -/

theorem meetsStar_nil_iff : MeetsStar allowed [] ↔ allowed.wildcard = true := by
  constructor
  · rintro ⟨front, back, node, used, hp, hw, hs⟩
    obtain ⟨rfl, rfl⟩ := List.append_eq_nil_iff.1 hp.symm
    obtain ⟨rfl, -⟩ := walk_nil_iff.1 hw
    exact hs
  · exact fun hs => Walk.root.meetsStar hs

/-- A `*` is met on the way, or the path ends on one. -/
theorem meetsStar_concat_iff : MeetsStar allowed (path ++ [name]) ↔
    MeetsStar allowed path ∨
      ∃ a used, Walk allowed (path ++ [name]) a used ∧ a.wildcard = true := by
  constructor
  · rintro ⟨front, back, node, used, hp, hw, hs⟩
    rcases List.eq_nil_or_concat back with rfl | ⟨back, last, rfl⟩
    · rw [List.append_nil] at hp
      exact .inr ⟨node, used, hp ▸ hw, hs⟩
    · rw [List.concat_eq_append, ← List.append_assoc] at hp
      obtain ⟨rfl, -⟩ := List.append_inj' hp rfl
      exact .inl ⟨front, back, node, used, rfl, hw, hs⟩
  · rintro (h | ⟨a, used, hw, hs⟩)
    · exact h.append [name]
    · exact hw.meetsStar hs

/-- A walk along a well-formed selection has met a `*` exactly when it stands on one. -/
theorem meetsStar_iff (ha : allowed.WellFormed) (hw : Walk allowed path a used) :
    MeetsStar allowed path ↔ a.wildcard = true := by
  refine ⟨fun h => ?_, hw.meetsStar⟩
  induction path using List.reverseRecOn generalizing a used with
  | nil =>
    obtain ⟨rfl, -⟩ := walk_nil_iff.1 hw
    exact meetsStar_nil_iff.1 h
  | append_singleton path name ih =>
    obtain ⟨b, i, hb, hstep⟩ := (walk_concat_iff ha).1 hw
    rcases meetsStar_concat_iff.1 h with h | ⟨d, j, hd, hs⟩
    · -- the walk could not have gone on from there
      rw [descend?_of_wildcard (hb.wellFormed ha) (ih hb h)] at hstep
      cases hstep
    · obtain ⟨rfl, -⟩ := hw.unique ha hd
      exact hs

/-- Where no `*` has been met, a path is covered one name further exactly when the checker goes on
by that name. -/
theorem covers_concat_iff (ha : allowed.WellFormed) (hw : Walk allowed path a used)
    (hs : a.wildcard = false) :
    Covers allowed (path ++ [name]) ↔ ∃ b used', descend? a used name = some (b, used') := by
  have onward : (∃ b used', Walk allowed (path ++ [name]) b used') ↔
      ∃ b used', descend? a used name = some (b, used') := by
    refine ⟨fun ⟨b, used', hb⟩ => ?_, fun ⟨b, used', hstep⟩ => ⟨b, used', walk_of_descend? hw hstep⟩⟩
    obtain ⟨x, i, hx, hstep⟩ := (walk_concat_iff ha).1 hb
    obtain ⟨rfl, rfl⟩ := hw.unique ha hx
    exact ⟨b, used', hstep⟩
  rw [← onward, Covers, meetsStar_concat_iff, meetsStar_iff ha hw, hs]
  constructor
  · rintro ((h | ⟨b, used', hb, -⟩) | h)
    · cases h
    · exact ⟨b, used', hb⟩
    · exact h
  · exact .inr

/-! ### The checker on its way -/

/-- Where nothing of a request is denied, nothing is denied anywhere on the way of the checker. -/
theorem denied_of_walk (ha : allowed.WellFormed) (h : allowed.firstDenied requested = none)
    {node : Selection} (ho : Occurs requested path node) (hw : Walk allowed path a used) :
    denied a used path node = none := by
  induction ho generalizing a used with
  | root =>
    obtain ⟨rfl, rfl⟩ := walk_nil_iff.1 hw
    exact h
  | child above hc ih =>
    obtain ⟨b, i, hb, hstep⟩ := (walk_concat_iff ha).1 hw
    rcases denied_eq_none_iff.1 (ih hb) with hs | ⟨-, -, hbelow⟩
    · rw [descend?_of_wildcard (hb.wellFormed ha) hs] at hstep
      cases hstep
    · obtain ⟨next, used', hnext, hnone⟩ := deniedAll_eq_none hbelow hc
      obtain ⟨rfl, rfl⟩ := Prod.mk.inj (Option.some.inj (hstep.symm.trans hnext))
      exact hnone

end Prefetch.Selection
