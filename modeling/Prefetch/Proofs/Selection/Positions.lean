import Mathlib.Data.List.Lex
import Prefetch.Plan.Resolve
import Prefetch.Proofs.Selection.Generations

/-!
# Positions — where the nodes of a tree stand, and how deep

A node stands where the places among siblings on the way down to it say, and in lexicographic order
of these positions each node comes before those below it and siblings come as written.  So the paths
that a selection lists can be told node by node, without a word on how the list comes about.  The
depth is the length of the longest of them.  Where a path is too long, one that is too long by one
level stands no later, for on the way down no level is left out; so the guard names a path with one
level too many.

* `nodeAt?`, `pathTo`, `positions` — the node at a position, its path, all positions.
* `mem_positions_iff`, `pairwise_positions` — the positions are those of all nodes, in order.
* `paths_eq_map` — the paths are those of the positions.
* `depth_eq_max?` — the depth is the length of a longest path.
* `checkDepth_first_longer` — the guard names the first path that is too long.
-/

namespace Prefetch

/-- The greatest of some numbers, zero if there are none. -/
theorem eq_max?_getD {xs : List Nat} {n : Nat} (hmost : ∀ x ∈ xs, x ≤ n) (hmem : n = 0 ∨ n ∈ xs) :
    n = xs.max?.getD 0 := by
  cases hmax : xs.max? with
  | none =>
    rw [List.max?_eq_none_iff] at hmax
    exact hmem.resolve_right (by rw [hmax]; exact List.not_mem_nil)
  | some m =>
    obtain ⟨hm, hall⟩ := List.max?_eq_some_iff.1 hmax
    have hle := hmost m hm
    rcases hmem with rfl | hn
    · exact (Nat.le_zero.1 hle).symm
    · exact Nat.le_antisymm (hall n hn) hle

namespace Selection

/-! ### Positions -/

/-- The node at a position: the places among siblings, from the node's children on. -/
def nodeAt? : Selection → List Nat → Option Selection
  | s, [] => some s
  | s, i :: rest => s.children[i]?.bind fun c => nodeAt? c rest

/-- The names on the way to a position. -/
def pathTo : Selection → List Nat → Path
  | _, [] => []
  | s, i :: rest => (s.children[i]?.map fun c => c.label :: pathTo c rest).getD []

mutual

/-- The positions of the nodes below a node, each before those under it. -/
def positions : Selection → List (List Nat)
  | ⟨_, children, _, _, _⟩ => positionsFrom 0 children

/-- The positions of siblings, counted from a place on, and of all under them. -/
def positionsFrom (i : Nat) : List Selection → List (List Nat)
  | [] => []
  | c :: cs => [i] :: ((positions c).map (i :: ·) ++ positionsFrom (i + 1) cs)

end

/-- Every node below this one has a name. -/
def NamedBelow (s : Selection) : Prop :=
  Everywhere (fun node => ∀ c ∈ node.children, c.name ≠ none) s

variable {s c : Selection} {above path : Path} {most : Nat}

theorem positions_eq (s : Selection) : s.positions = positionsFrom 0 s.children := by
  obtain ⟨_, _, _, _, _⟩ := s
  rw [positions]

theorem pathsBelow_eq (above : Path) (s : Selection) :
    pathsBelow above s = pathsOfAll above s.children := by
  obtain ⟨_, _, _, _, _⟩ := s
  rw [pathsBelow]

theorem mem_positionsFrom_iff {siblings : List Selection} {i : Nat} {pos : List Nat} :
    pos ∈ positionsFrom i siblings ↔ ∃ j c rest, siblings[j]? = some c ∧ pos = (i + j) :: rest ∧
      (rest = [] ∨ rest ∈ c.positions) := by
  induction siblings generalizing i with
  | nil => simp [positionsFrom]
  | cons c cs ih =>
    rw [positionsFrom, List.mem_cons, List.mem_append, List.mem_map, ih]
    constructor
    · rintro (rfl | ⟨rest, hrest, rfl⟩ | ⟨j, d, rest, hd, rfl, hrest⟩)
      · exact ⟨0, c, [], rfl, rfl, .inl rfl⟩
      · exact ⟨0, c, rest, rfl, rfl, .inr hrest⟩
      · exact ⟨j + 1, d, rest, hd, by rw [Nat.add_assoc, Nat.add_comm 1], hrest⟩
    · rintro ⟨j, d, rest, hd, rfl, hrest⟩
      cases j with
      | zero =>
        obtain rfl : c = d := by simpa using hd
        rcases hrest with rfl | hrest
        · exact .inl rfl
        · exact .inr (.inl ⟨rest, hrest, rfl⟩)
      | succ j =>
        exact .inr (.inr ⟨j, d, rest, hd, by rw [Nat.add_assoc, Nat.add_comm 1], hrest⟩)

/-- A position is listed when a node below this one stands there. -/
theorem mem_positions_iff {pos : List Nat} :
    pos ∈ s.positions ↔ pos ≠ [] ∧ ∃ node, s.nodeAt? pos = some node := by
  induction pos generalizing s with
  | nil =>
    rw [positions_eq, mem_positionsFrom_iff]
    simp
  | cons i rest ih =>
    rw [positions_eq, mem_positionsFrom_iff, nodeAt?]
    constructor
    · rintro ⟨j, c, rest', hc, heq, hrest⟩
      obtain ⟨rfl, rfl⟩ := List.cons_eq_cons.1 heq
      rw [Nat.zero_add, hc, Option.bind_some]
      rcases hrest with rfl | hrest
      · exact ⟨nofun, c, rfl⟩
      · exact ⟨nofun, (ih.1 hrest).2⟩
    · rintro ⟨-, node, hnode⟩
      obtain ⟨c, hc, hnode⟩ := Option.bind_eq_some_iff.1 hnode
      refine ⟨i, c, rest, hc, by rw [Nat.zero_add], ?_⟩
      by_cases hnil : rest = []
      · exact .inl hnil
      · exact .inr (ih.2 ⟨hnil, node, hnode⟩)

theorem pairwise_positionsFrom {siblings : List Selection}
    (h : ∀ c ∈ siblings, c.positions.Pairwise (· < ·)) (i : Nat) :
    (positionsFrom i siblings).Pairwise (· < ·) := by
  induction siblings generalizing i with
  | nil => exact .nil
  | cons c cs ih =>
    obtain ⟨hc, hcs⟩ := List.forall_mem_cons.1 h
    -- what stands at a later sibling or below it comes after all that begins with `i`
    have hlater : ∀ rest, ∀ pos ∈ positionsFrom (i + 1) cs, i :: rest < pos := by
      intro rest pos hpos
      obtain ⟨j, d, rest', -, rfl, -⟩ := mem_positionsFrom_iff.1 hpos
      exact List.cons_lt_cons_iff.2 (.inl (by omega))
    rw [positionsFrom, List.pairwise_cons, List.pairwise_append, List.pairwise_map]
    refine ⟨fun pos hpos => ?_, hc.imp fun hlt => List.cons_lt_cons_iff.2 (.inr ⟨rfl, hlt⟩),
      ih hcs (i + 1), fun pos hpos => ?_⟩
    · rcases List.mem_append.1 hpos with hpos | hpos
      · obtain ⟨rest, hrest, rfl⟩ := List.mem_map.1 hpos
        obtain ⟨j, rest', rfl⟩ := List.exists_cons_of_ne_nil (mem_positions_iff.1 hrest).1
        exact List.cons_lt_cons_iff.2 (.inr ⟨rfl, List.nil_lt_cons j rest'⟩)
      · exact hlater [] pos hpos
    · obtain ⟨rest, -, rfl⟩ := List.mem_map.1 hpos
      exact hlater rest

/-- Each position is listed once, a node before those below it and siblings as written. -/
theorem pairwise_positions (s : Selection) : s.positions.Pairwise (· < ·) := by
  induction s using Selection.induction with
  | node s ih =>
    rw [positions_eq]
    exact pairwise_positionsFrom ih 0

theorem NamedBelow.name_ne_none {pos : List Nat} {node : Selection} (h : s.NamedBelow)
    (hpos : pos ≠ []) (hnode : s.nodeAt? pos = some node) : node.name ≠ none := by
  induction pos generalizing s with
  | nil => exact absurd rfl hpos
  | cons i rest ih =>
    obtain ⟨c, hc, hnode⟩ := Option.bind_eq_some_iff.1 hnode
    have hmem := List.mem_of_getElem? hc
    by_cases hnil : rest = []
    · subst hnil
      obtain rfl := Option.some.inj hnode
      exact h.here c hmem
    · exact ih (h.of_mem hmem) hnil hnode

/-! ### Paths -/

theorem pathsOfAll_eq_map {siblings : List Selection} {i : Nat}
    (ih : ∀ c ∈ siblings, ∀ above, pathsBelow above c = c.positions.map fun pos =>
      above ++ c.pathTo pos) (above : Path) (hdrop : s.children.drop i = siblings) :
    pathsOfAll above siblings =
      (positionsFrom i siblings).map fun pos => above ++ s.pathTo pos := by
  induction siblings generalizing i with
  | nil => rfl
  | cons c cs ihcs =>
    obtain ⟨hc, hcs⟩ := List.forall_mem_cons.1 ih
    have hget : s.children[i]? = some c := by
      rw [← List.head?_drop, hdrop, List.head?_cons]
    have hrest : s.children.drop (i + 1) = cs := by
      rw [← List.tail_drop, hdrop, List.tail_cons]
    have hat : ∀ rest, s.pathTo (i :: rest) = c.label :: c.pathTo rest := fun rest => by
      rw [pathTo, hget, Option.map_some, Option.getD_some]
    rw [pathsOfAll, positionsFrom, List.map_cons, List.map_append, List.map_map, hc,
      ihcs hcs hrest, hat, pathTo]
    congr 2
    refine List.map_congr_left fun rest _ => ?_
    rw [Function.comp_apply, hat, List.append_assoc, List.singleton_append]

theorem pathsBelow_eq_map (s : Selection) : ∀ above, pathsBelow above s =
    s.positions.map fun pos => above ++ s.pathTo pos := by
  induction s using Selection.induction with
  | node s ih =>
    intro above
    rw [pathsBelow_eq, positions_eq]
    exact pathsOfAll_eq_map ih above List.drop_zero

/-- The paths that a selection lists are those to its positions. -/
theorem paths_eq_map (s : Selection) : s.paths = s.positions.map s.pathTo :=
  pathsBelow_eq_map s []

theorem mem_pathsOfAll_iff {siblings : List Selection} :
    path ∈ pathsOfAll above siblings ↔
      ∃ c ∈ siblings, path = above ++ [c.label] ∨ path ∈ pathsBelow (above ++ [c.label]) c := by
  induction siblings with
  | nil => simp [pathsOfAll]
  | cons c cs ih =>
    rw [pathsOfAll, List.mem_cons, List.mem_append, ih, List.exists_mem_cons_iff, or_assoc]

/-! ### Depth -/

/-- So many levels are enough when no path is longer. -/
theorem depthOfAll_le_iff (hs : s.NamedBelow) : ∀ (above : Path) {n : Nat},
    depthOfAll s.children ≤ n ↔
      ∀ path ∈ pathsBelow above s, path.length ≤ above.length + n := by
  induction s using Selection.induction with
  | node s ih =>
    intro above n
    -- below a child there is one level less
    have hchild : ∀ c ∈ s.children, c.depth ≤ n ↔ (above ++ [c.label]).length ≤ above.length + n ∧
        ∀ path ∈ pathsBelow (above ++ [c.label]) c, path.length ≤ above.length + n := by
      intro c hc
      rw [depth_eq_of_named (hs.here c hc), List.length_append, List.length_singleton]
      cases n with
      | zero => simp
      | succ n =>
        rw [Nat.succ_le_succ_iff, ih c hc (hs.of_mem hc) (above ++ [c.label]),
          List.length_append, List.length_singleton, Nat.add_assoc, Nat.add_comm 1 n]
        exact (and_iff_right (by omega)).symm
    have hall : depthOfAll s.children ≤ n ↔ ∀ c ∈ s.children, c.depth ≤ n :=
      ⟨fun hle c hc => (depth_le_depthOfAll hc).trans hle, depthOfAll_le⟩
    simp only [hall, pathsBelow_eq above s, mem_pathsOfAll_iff]
    constructor
    · rintro hle path ⟨c, hc, rfl | hpath⟩
      · exact ((hchild c hc).1 (hle c hc)).1
      · exact ((hchild c hc).1 (hle c hc)).2 path hpath
    · exact fun hle c hc =>
        (hchild c hc).2 ⟨hle _ ⟨c, hc, .inl rfl⟩, fun path hpath => hle path ⟨c, hc, .inr hpath⟩⟩

/-- A selection is no deeper than so many levels when no path is longer. -/
theorem depth_le_iff (hname : s.name = none) (hs : s.NamedBelow) :
    s.depth ≤ most ↔ ∀ path ∈ s.paths, path.length ≤ most := by
  rw [depth_eq_of_name hname, depthOfAll_le_iff hs [], List.length_nil, Nat.zero_add]
  rfl

theorem lt_depth_iff (hname : s.name = none) (hs : s.NamedBelow) :
    most < s.depth ↔ ∃ path ∈ s.paths, most < path.length := by
  rw [← Nat.not_le, depth_le_iff hname hs]
  push Not
  rfl

/-- The depth is the length of a longest path, and zero where there is none. -/
theorem depth_eq_max? (hname : s.name = none) (hs : s.NamedBelow) :
    s.depth = (s.paths.map List.length).max?.getD 0 := by
  have hmost := (depth_le_iff hname hs).1 (Nat.le_refl s.depth)
  refine eq_max?_getD (List.forall_mem_map.2 hmost) ?_
  cases hd : s.depth with
  | zero => exact .inl rfl
  | succ d =>
    refine .inr ?_
    by_contra hnone
    have hle : s.depth ≤ d := by
      refine (depth_le_iff hname hs).2 fun path hpath => ?_
      have hpathle := hmost path hpath
      have hne : path.length ≠ d + 1 := fun heq => hnone (heq ▸ List.mem_map_of_mem hpath)
      omega
    omega

/-! ### The guard -/

mutual

/-- The first path that is longer than allowed has one level too many. -/
theorem length_of_find?_pathsBelow {s : Selection} {above path : Path} {most : Nat}
    (habove : above.length ≤ most)
    (h : (pathsBelow above s).find? (fun p => p.length > most) = some path) :
    path.length = most + 1 := by
  match s with
  | ⟨_, children, _, _, _⟩ =>
    rw [pathsBelow] at h
    exact length_of_find?_pathsOfAll habove h

theorem length_of_find?_pathsOfAll {siblings : List Selection} {above path : Path} {most : Nat}
    (habove : above.length ≤ most)
    (h : (pathsOfAll above siblings).find? (fun p => p.length > most) = some path) :
    path.length = most + 1 := by
  match siblings with
  | [] => cases h
  | c :: cs =>
    have hlength : (above ++ [c.label]).length = above.length + 1 := by
      rw [List.length_append, List.length_singleton]
    rw [pathsOfAll] at h
    by_cases hlong : (above ++ [c.label]).length > most
    · rw [List.find?_cons_of_pos (by simpa using hlong)] at h
      obtain rfl := Option.some.inj h
      omega
    · rw [List.find?_cons_of_neg (by simpa using hlong), List.find?_append,
        Option.or_eq_some_iff] at h
      rcases h with h | ⟨-, h⟩
      · exact length_of_find?_pathsBelow (by omega) h
      · exact length_of_find?_pathsOfAll habove h

end

theorem lt_depth_of_checkDepth {e : Error} (h : s.checkDepth most = .error e) : most < s.depth := by
  by_contra hle
  rw [checkDepth_eq_ok_iff.2 (Nat.not_lt.1 hle)] at h
  cases h

/-- Where the guard refuses, it names the first path that is too long. -/
theorem exists_first_longer (hname : s.name = none) (hs : s.NamedBelow) (h : most < s.depth) :
    ∃ front path back, s.paths = front ++ path :: back ∧ (∀ q ∈ front, q.length ≤ most) ∧
      path.length = most + 1 ∧ s.checkDepth most = .error (.tooDeep path most) := by
  obtain ⟨longer, hmem, hlong⟩ := (lt_depth_iff hname hs).1 h
  have hsome : (s.paths.find? fun p => p.length > most).isSome := by
    rw [List.find?_isSome]
    exact ⟨longer, hmem, by simpa using hlong⟩
  obtain ⟨path, hfind⟩ := Option.isSome_iff_exists.1 hsome
  obtain ⟨-, front, back, hsplit, hfront⟩ := List.find?_eq_some_iff_append.1 hfind
  have hroot : ([] : Path).length ≤ most := Nat.zero_le most
  refine ⟨front, path, back, hsplit, fun q hq => by simpa using hfront q hq,
    length_of_find?_pathsBelow hroot hfind, ?_⟩
  rw [checkDepth, if_neg (Nat.not_le.2 h), hfind, Option.getD_some]

/-- Paths, depth and guard of a tree whose nodes below the root are named.  The paths are those of
all named nodes, each once and in preorder, the depth is the length of a longest one, and the guard
refuses exactly when a path is too long; it then names the first such path, which is too long by
one. -/
theorem checkDepth_first_longer (hname : s.name = none) (hs : s.NamedBelow) :
    s.positions.Pairwise (· < ·) ∧
      (∀ pos, pos ∈ s.positions ↔ ∃ node, s.nodeAt? pos = some node ∧ node.name ≠ none) ∧
      s.paths = s.positions.map s.pathTo ∧
      s.depth = (s.paths.map List.length).max?.getD 0 ∧
      ∀ most, ((∃ e, s.checkDepth most = .error e) ↔ ∃ path ∈ s.paths, most < path.length) ∧
        ∀ e, s.checkDepth most = .error e →
          ∃ front path back, s.paths = front ++ path :: back ∧ (∀ q ∈ front, q.length ≤ most) ∧
            path.length = most + 1 ∧ e = .tooDeep path most := by
  refine ⟨pairwise_positions s, fun pos => ⟨fun hpos => ?_, ?_⟩, paths_eq_map s,
    depth_eq_max? hname hs, fun most => ⟨⟨?_, fun hlonger => ?_⟩, fun e he => ?_⟩⟩
  · obtain ⟨hne, node, hnode⟩ := mem_positions_iff.1 hpos
    exact ⟨node, hnode, hs.name_ne_none hne hnode⟩
  · rintro ⟨node, hnode, hnamed⟩
    refine mem_positions_iff.2 ⟨?_, node, hnode⟩
    rintro rfl
    obtain rfl := Option.some.inj hnode
    exact hnamed hname
  · rintro ⟨e, he⟩
    exact (lt_depth_iff hname hs).1 (lt_depth_of_checkDepth he)
  · obtain ⟨-, path, -, -, -, -, herror⟩ :=
      exists_first_longer hname hs ((lt_depth_iff hname hs).2 hlonger)
    exact ⟨_, herror⟩
  · obtain ⟨front, path, back, hsplit, hfront, hlength, herror⟩ :=
      exists_first_longer hname hs (lt_depth_of_checkDepth he)
    exact ⟨front, path, back, hsplit, hfront, hlength, Except.error.inj (he.symm.trans herror)⟩

/-- Two siblings of one name, the first with two levels below it: the guard for one level names the
first path of two. -/
theorem checkDepth_first_longer_twice :
    let pets : Selection :=
      { named "pets" with children := [{ named "toys" with children := [named "maker"] }] }
    let s : Selection := { children := [named "owner", pets, named "pets"] }
    s.paths = [["owner"], ["pets"], ["pets", "toys"], ["pets", "toys", "maker"], ["pets"]] ∧
      s.positions = [[0], [1], [1, 0], [1, 0, 0], [2]] ∧ s.depth = 3 ∧
      ∃ path, s.checkDepth 1 = .error (.tooDeep path 1) ∧ path.length = 2 := by
  intro pets s
  have hnamed : s.NamedBelow := by
    refine .intro (by decide) (List.forall_mem_cons.2 ⟨.intro nofun nofun, List.forall_mem_cons.2
      ⟨.intro (by decide) (List.forall_mem_singleton.2 ?_), List.forall_mem_singleton.2
        (.intro nofun nofun)⟩⟩)
    exact .intro (by decide) (List.forall_mem_singleton.2 (.intro nofun nofun))
  obtain ⟨-, -, -, hdepth, hguard⟩ := checkDepth_first_longer rfl hnamed
  obtain ⟨hrefuses, hfirst⟩ := hguard 1
  obtain ⟨e, he⟩ := hrefuses.2 ⟨["pets", "toys"], by decide, by decide⟩
  obtain ⟨-, path, -, -, -, hlength, rfl⟩ := hfirst e he
  exact ⟨by decide, by decide, hdepth.trans (by decide), path, he, hlength⟩

end Selection

end Prefetch
