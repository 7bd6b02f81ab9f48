import Prefetch.Proofs.Selection.Coverage

/-!
# Preorder — the nodes of a tree, one after the other

The nodes of a tree are listed with their paths, each before those under it and siblings in the order
written.  The root is first, with the empty path; the paths after it are those that a selection
lists itself.

* `mem_preorder_iff` — the list holds what occurs in the tree.
* `map_preorder` — the paths listed are the root's and the selection's own.
* `fitsWord_of_preorder` — a bound that has room for one use at each name in front of it fits.
-/

namespace Prefetch.Selection

mutual

/-- A node that is reached by `above`, and the nodes below it. -/
def preorderFrom (above : Path) : Selection → List (Path × Selection)
  | ⟨name, children, recursive, limit, wildcard⟩ =>
    (above, ⟨name, children, recursive, limit, wildcard⟩) :: preorderOfAll above children

/-- Siblings below `above`, each with the nodes below it. -/
def preorderOfAll (above : Path) : List Selection → List (Path × Selection)
  | [] => []
  | c :: cs => preorderFrom (above ++ [c.label]) c ++ preorderOfAll above cs

end

/-- All nodes with their paths. -/
def preorder (s : Selection) : List (Path × Selection) :=
  preorderFrom [] s

theorem preorderFrom_eq (above : Path) (s : Selection) :
    preorderFrom above s = (above, s) :: preorderOfAll above s.children := by
  obtain ⟨_, _, _, _, _⟩ := s
  rw [preorderFrom]

theorem mem_preorderOfAll_iff {above : Path} {siblings : List Selection} {v : Path × Selection} :
    v ∈ preorderOfAll above siblings ↔ ∃ c ∈ siblings, v ∈ preorderFrom (above ++ [c.label]) c := by
  induction siblings with
  | nil => simp [preorderOfAll]
  | cons c cs ih => simp [preorderOfAll, ih]

/-- What occurs in a child occurs in the tree. -/
theorem Occurs.of_child {s c node : Selection} {rest : Path} (hc : c ∈ s.children)
    (h : Occurs c rest node) : Occurs s (c.label :: rest) node := by
  induction h with
  | root => exact Occurs.root.child hc
  | child _ hd ih => exact ih.child hd

theorem occurs_nil_iff {s node : Selection} : Occurs s [] node ↔ node = s := by
  constructor
  · intro h
    obtain ⟨-, rfl⟩ | ⟨c, -, rest, hrest, -⟩ := h.eq_or_below
    · rfl
    · cases hrest
  · rintro rfl
    exact .root

theorem occurs_cons_iff {s node : Selection} {name : String} {path : Path} :
    Occurs s (name :: path) node ↔ ∃ c ∈ s.children, c.label = name ∧ Occurs c path node := by
  constructor
  · intro h
    obtain ⟨hnil, -⟩ | ⟨c, hc, rest, hrest, ho⟩ := h.eq_or_below
    · cases hnil
    · obtain ⟨rfl, rfl⟩ := List.cons_eq_cons.1 hrest
      exact ⟨c, hc, rfl, ho⟩
  · rintro ⟨c, hc, rfl, ho⟩
    exact ho.of_child hc

theorem Coherent.nodup_labels {s : Selection} (h : Coherent s) :
    (s.children.map (·.label)).Nodup := by
  have hdistinct := h.distinct
  rw [Distinct, List.Nodup, List.pairwise_map] at hdistinct
  rw [List.Nodup, List.pairwise_map]
  refine hdistinct.imp_of_mem fun {c d} hc hd hne hlabel => hne ?_
  obtain ⟨name, hname⟩ := Option.ne_none_iff_exists'.1 (h.named c hc)
  obtain ⟨name', hname'⟩ := Option.ne_none_iff_exists'.1 (h.named d hd)
  rw [label, label, hname, hname'] at hlabel
  rw [hname, hname']
  exact congrArg some hlabel

theorem mem_preorderFrom_iff {s node : Selection} : ∀ {above path : Path},
    (path, node) ∈ preorderFrom above s ↔ ∃ rest, path = above ++ rest ∧ Occurs s rest node := by
  induction s using Selection.induction with
  | node s ih =>
    intro above path
    rw [preorderFrom_eq, List.mem_cons, mem_preorderOfAll_iff]
    constructor
    · rintro (heq | ⟨c, hc, hmem⟩)
      · obtain ⟨rfl, rfl⟩ := Prod.mk.inj heq
        exact ⟨[], (List.append_nil _).symm, .root⟩
      · obtain ⟨rest, rfl, ho⟩ := (ih c hc).1 hmem
        exact ⟨c.label :: rest, by rw [List.append_assoc, List.singleton_append], ho.of_child hc⟩
    · rintro ⟨rest, rfl, ho⟩
      obtain ⟨rfl, rfl⟩ | ⟨c, hc, below, rfl, hbelow⟩ := ho.eq_or_below
      · rw [List.append_nil]
        exact .inl rfl
      · refine .inr ⟨c, hc, (ih c hc).2 ⟨below, ?_, hbelow⟩⟩
        rw [List.append_assoc, List.singleton_append]

theorem mem_preorder_iff {s node : Selection} {path : Path} :
    (path, node) ∈ s.preorder ↔ Occurs s path node := by
  rw [preorder, mem_preorderFrom_iff]
  constructor
  · rintro ⟨rest, rfl, ho⟩
    exact ho
  · exact fun ho => ⟨path, rfl, ho⟩

mutual

theorem map_preorderFrom (above : Path) (s : Selection) :
    (preorderFrom above s).map Prod.fst = above :: pathsBelow above s := by
  match s with
  | ⟨_, children, _, _, _⟩ =>
    rw [preorderFrom, List.map_cons, map_preorderOfAll, pathsBelow]

theorem map_preorderOfAll (above : Path) (siblings : List Selection) :
    (preorderOfAll above siblings).map Prod.fst = pathsOfAll above siblings := by
  match siblings with
  | [] => rfl
  | c :: cs =>
    rw [preorderOfAll, List.map_append, map_preorderFrom, map_preorderOfAll, pathsOfAll,
      List.cons_append]

end

/-- The paths of the nodes are the root's and those that the selection lists. -/
theorem map_preorder (s : Selection) : s.preorder.map Prod.fst = [] :: s.paths :=
  map_preorderFrom [] s

/-- A walk uses a node once at each name of its path at most, so a bound with room for that many uses
more fits in 64 bits. -/
theorem fitsWord_of_preorder {allowed requested : Selection}
    (h : ∀ v ∈ requested.preorder, ∀ wanted ∈ v.2.limit,
      v.1.length + 1 + wanted ≤ Text.maxWord) : FitsWord allowed requested := by
  intro path node wanted ho _ hl a used hw
  have hroom : path.length + 1 + wanted ≤ Text.maxWord :=
    h (path, node) (mem_preorder_iff.2 ho) wanted hl
  have hused := hw.used_le
  omega

end Prefetch.Selection
