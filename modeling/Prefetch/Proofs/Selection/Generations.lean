import Mathlib.Data.List.Perm.Basic
import Prefetch.Proofs.Selection.Preorder

/-!
# Generations — the nodes of a tree, level by level

The nodes whose paths have the same length are a generation.  A generation holds the children of the
generation before it, parent by parent, and this is the order in which they are written.  Generation
after generation, the nodes of a tree are listed breadth first.

* `generation_succ` — a generation holds the children of the one before.
* `breadthFirst_eq` — generations beyond the depth of a tree are empty.
* `perm_breadthFirst` — breadth first, each node below the root is listed once.
-/

namespace Prefetch.Selection

/-- The nodes whose paths are so long, in the order written. -/
def generation (s : Selection) (n : Nat) : List (Path × Selection) :=
  s.preorder.filter fun v => v.1.length == n

/-- The nodes below the root, level by level and on each level in the order written. -/
def breadthFirst (s : Selection) : List (Path × Selection) :=
  (List.range s.depth).flatMap fun n => s.generation (n + 1)

/-- The children of some nodes, parent by parent. -/
def childrenOf (nodes : List (Path × Selection)) : List (Path × Selection) :=
  nodes.flatMap fun v => v.2.children.map fun c => (v.1 ++ [c.label], c)

/-- Some nodes, their children, and so on for so many generations. -/
def descend : Nat → List (Path × Selection) → List (Path × Selection)
  | 0, _ => []
  | n + 1, nodes => nodes ++ descend n (childrenOf nodes)

variable {s : Selection} {above : Path} {v : Path × Selection}

theorem preorderOfAll_eq (above : Path) (siblings : List Selection) :
    preorderOfAll above siblings =
      siblings.flatMap fun c => preorderFrom (above ++ [c.label]) c := by
  induction siblings with
  | nil => rfl
  | cons c cs ih => rw [preorderOfAll, ih, List.flatMap_cons]

theorem length_of_mem_preorderFrom (h : v ∈ preorderFrom above s) :
    above.length ≤ v.1.length := by
  obtain ⟨path, node⟩ := v
  obtain ⟨rest, rfl, -⟩ := mem_preorderFrom_iff.1 h
  rw [List.length_append]
  omega

/-! ### From one generation to the next -/

/-- So far below a node there is only the node itself. -/
theorem filter_preorderFrom_self (above : Path) (s : Selection) :
    (preorderFrom above s).filter (fun v => v.1.length == above.length) = [(above, s)] := by
  rw [preorderFrom_eq, List.filter_cons_of_pos (by simp), preorderOfAll_eq]
  congr 1
  refine List.filter_eq_nil_iff.2 fun v hv => ?_
  obtain ⟨c, -, hv⟩ := List.mem_flatMap.1 hv
  have hle := length_of_mem_preorderFrom hv
  rw [List.length_append, List.length_singleton] at hle
  simp only [beq_iff_eq]
  omega

/-- What is one level further below a node is so far below its children. -/
theorem filter_preorderFrom_succ (above : Path) (s : Selection) (n : Nat) :
    (preorderFrom above s).filter (fun v => v.1.length == above.length + (n + 1)) =
      s.children.flatMap fun c => (preorderFrom (above ++ [c.label]) c).filter
        fun v => v.1.length == (above ++ [c.label]).length + n := by
  have hlength : ∀ c : Selection,
      (above ++ [c.label]).length + n = above.length + (n + 1) := fun c => by
    rw [List.length_append, List.length_singleton]
    omega
  rw [preorderFrom_eq, List.filter_cons_of_neg (by simp), preorderOfAll_eq, List.filter_flatMap]
  simp only [hlength]

theorem childrenOf_flatMap {α : Type} (f : α → List (Path × Selection)) (xs : List α) :
    childrenOf (xs.flatMap f) = xs.flatMap fun x => childrenOf (f x) :=
  List.flatMap_assoc

theorem childrenOf_filter_preorderFrom (above : Path) (s : Selection) (n : Nat) :
    childrenOf ((preorderFrom above s).filter fun v => v.1.length == above.length + n) =
      (preorderFrom above s).filter fun v => v.1.length == above.length + (n + 1) := by
  induction n generalizing above s with
  | zero =>
    rw [filter_preorderFrom_succ, Nat.add_zero, filter_preorderFrom_self]
    simp only [Nat.add_zero, filter_preorderFrom_self]
    rw [childrenOf, List.flatMap_singleton, List.map_eq_flatMap]
  | succ n ih =>
    rw [filter_preorderFrom_succ, filter_preorderFrom_succ, childrenOf_flatMap]
    simp only [ih]

theorem generation_zero (s : Selection) : s.generation 0 = [([], s)] :=
  filter_preorderFrom_self [] s

/-- A generation holds the children of the one before. -/
theorem generation_succ (s : Selection) (n : Nat) :
    s.generation (n + 1) = childrenOf (s.generation n) := by
  have h := childrenOf_filter_preorderFrom [] s n
  simp only [List.length_nil, Nat.zero_add] at h
  exact h.symm

theorem generation_one (s : Selection) :
    s.generation 1 = s.children.map fun c => ([c.label], c) := by
  rw [generation_succ, generation_zero, childrenOf, List.flatMap_singleton]
  rfl

theorem descend_generation (s : Selection) (levels n : Nat) :
    descend levels (s.generation n) =
      (List.range levels).flatMap fun i => s.generation (n + i) := by
  induction levels generalizing n with
  | zero => rfl
  | succ levels ih =>
    rw [descend, ← generation_succ, ih, List.range_succ_eq_map, List.flatMap_cons,
      List.flatMap_map]
    have hstart : ∀ i, n + 1 + i = n + (i + 1) := fun i => by omega
    simp only [hstart, Nat.add_zero]

/-! ### Depth -/

theorem depth_eq_of_name (h : s.name = none) : s.depth = depthOfAll s.children := by
  obtain ⟨_, _, _, _, _⟩ := s
  obtain rfl := h
  rfl

theorem depth_eq_of_named (h : s.name ≠ none) : s.depth = depthOfAll s.children + 1 := by
  obtain ⟨name, _, _, _, _⟩ := s
  cases name with
  | none => exact absurd rfl h
  | some name => rfl

theorem depth_le_depthOfAll {siblings : List Selection} (h : s ∈ siblings) :
    s.depth ≤ depthOfAll siblings := by
  induction siblings with
  | nil => cases h
  | cons c cs ih =>
    rw [depthOfAll]
    rcases List.mem_cons.1 h with rfl | h
    · exact Nat.le_max_left _ _
    · exact Nat.le_trans (ih h) (Nat.le_max_right _ _)

theorem depthOfAll_le {siblings : List Selection} {n : Nat} (h : ∀ c ∈ siblings, c.depth ≤ n) :
    depthOfAll siblings ≤ n := by
  induction siblings with
  | nil => exact Nat.zero_le n
  | cons c cs ih =>
    rw [depthOfAll]
    exact Nat.max_le.2 ⟨h c List.mem_cons_self, ih fun d hd => h d (List.mem_cons_of_mem c hd)⟩

/-- No path below a node is longer than the levels that the node spells out. -/
theorem length_le_of_mem_preorderFrom (hs : s.WellFormed) (hv : v ∈ preorderFrom above s) :
    v.1.length ≤ above.length + depthOfAll s.children := by
  induction s using Selection.induction generalizing above with
  | node s ih =>
    rw [preorderFrom_eq, preorderOfAll_eq] at hv
    rcases List.mem_cons.1 hv with rfl | hv
    · exact Nat.le_add_right _ _
    · obtain ⟨c, hc, hv⟩ := List.mem_flatMap.1 hv
      have hlength := ih c hc (hs.of_mem hc) hv
      have hdepth := depth_le_depthOfAll hc
      rw [depth_eq_of_named (hs.coherent.named c hc)] at hdepth
      rw [List.length_append, List.length_singleton] at hlength
      omega

theorem generation_eq_nil (hs : s.WellFormed) (hname : s.name = none) {n : Nat}
    (hn : s.depth < n) : s.generation n = [] := by
  refine List.filter_eq_nil_iff.2 fun v hv => ?_
  have hlength := length_le_of_mem_preorderFrom hs hv
  rw [← depth_eq_of_name hname, List.length_nil] at hlength
  simp only [beq_iff_eq]
  omega

/-- Generations beyond the depth of a tree are empty. -/
theorem breadthFirst_eq (hs : s.WellFormed) (hname : s.name = none) {levels : Nat}
    (hlevels : s.depth ≤ levels) : s.breadthFirst = descend levels (s.generation 1) := by
  obtain ⟨more, rfl⟩ := Nat.exists_eq_add_of_le hlevels
  rw [descend_generation, List.range_add, List.flatMap_append, List.flatMap_map, breadthFirst]
  simp only [Nat.add_comm 1]
  have hbeyond : (List.range more).flatMap (fun i => s.generation (s.depth + i + 1)) = [] :=
    List.flatMap_eq_nil_iff.2 fun i _ => generation_eq_nil hs hname (by omega)
  rw [hbeyond, List.append_nil]

mutual

theorem depth_le_size_succ (s : Selection) : s.depth ≤ s.size + 1 := by
  match s with
  | ⟨name, children, _, _, _⟩ =>
    have hle := depthOfAll_le_sizeOfAll children
    rw [depth, size]
    split <;> omega

theorem depthOfAll_le_sizeOfAll (siblings : List Selection) :
    depthOfAll siblings ≤ sizeOfAll siblings := by
  match siblings with
  | [] => exact Nat.le_refl _
  | c :: cs =>
    have hc := depth_le_size_succ c
    have hcs := depthOfAll_le_sizeOfAll cs
    rw [depthOfAll, sizeOfAll]
    omega

end

/-- A tree has no more levels than nodes below its root. -/
theorem depth_le_size (hname : s.name = none) : s.depth ≤ s.size := by
  rw [depth_eq_of_name hname]
  obtain ⟨_, children, _, _, _⟩ := s
  exact depthOfAll_le_sizeOfAll children

/-! ### Each node once -/

/-- What is listed key by key is listed once. -/
theorem perm_flatMap_filter {α : Type} (key : α → Nat) {n : Nat} {xs : List α}
    (h : ∀ x ∈ xs, 0 < key x ∧ key x ≤ n) :
    ((List.range n).flatMap fun i => xs.filter fun x => key x == i + 1).Perm xs := by
  induction n generalizing xs with
  | zero =>
    have hnil : xs = [] := List.eq_nil_iff_forall_not_mem.2 fun x hx => by
      have := h x hx
      omega
    rw [hnil]
    rfl
  | succ n ih =>
    have hlow := @ih (xs.filter fun x => !(key x == n + 1)) fun x hx => by
      obtain ⟨hx, hne⟩ := List.mem_filter.1 hx
      have := h x hx
      simp only [Bool.not_eq_true', beq_eq_false_iff_ne] at hne
      omega
    rw [List.range_succ, List.flatMap_append, List.flatMap_singleton]
    refine ((List.perm_append_comm.trans (List.Perm.append_left _ ?_)).trans
      (List.filter_append_perm (fun x => key x == n + 1) xs))
    refine List.Perm.trans (List.Perm.of_eq ?_) hlow
    refine List.flatMap_congr fun i hi => ?_
    rw [List.filter_filter]
    refine List.filter_congr fun x _ => ?_
    have := List.mem_range.1 hi
    by_cases hx : key x = i + 1
    · simp [hx]
      omega
    · simp [hx]

/-- Breadth first, each node below the root is listed once. -/
theorem perm_breadthFirst (hs : s.WellFormed) (hname : s.name = none) :
    s.breadthFirst.Perm s.preorder.tail := by
  have hpreorder : s.preorder = ([], s) :: s.preorder.tail := by
    rw [preorder, preorderFrom_eq, List.tail_cons]
  have hgeneration : ∀ n, s.generation (n + 1) =
      s.preorder.tail.filter fun v => v.1.length == n + 1 := fun n => by
    rw [generation, hpreorder, List.filter_cons_of_neg (by simp), List.tail_cons]
  rw [breadthFirst]
  simp only [hgeneration]
  refine perm_flatMap_filter (fun v : Path × Selection => v.1.length) fun v hv => ⟨?_, ?_⟩
  · rw [preorder, preorderFrom_eq, List.tail_cons, preorderOfAll_eq] at hv
    obtain ⟨c, -, hv⟩ := List.mem_flatMap.1 hv
    have hle := length_of_mem_preorderFrom hv
    rw [List.length_append, List.length_singleton] at hle
    omega
  · have hle := length_le_of_mem_preorderFrom hs (List.mem_of_mem_tail hv)
    rwa [← depth_eq_of_name hname, List.length_nil, Nat.zero_add] at hle

/-- Breadth first, paths never get shorter. -/
theorem pairwise_breadthFirst (s : Selection) :
    s.breadthFirst.Pairwise fun u v => u.1.length ≤ v.1.length := by
  have hlength : ∀ n, ∀ v ∈ s.generation n, v.1.length = n := fun n v hv =>
    beq_iff_eq.1 (List.mem_filter.1 hv).2
  refine List.pairwise_flatMap.2 ⟨fun n _ => ?_, ?_⟩
  · exact List.pairwise_of_forall_mem_list fun u hu v hv =>
      Nat.le_of_eq ((hlength _ u hu).trans (hlength _ v hv).symm)
  · refine List.pairwise_lt_range.imp fun {i j} hij u hu v hv => ?_
    rw [hlength _ u hu, hlength _ v hv]
    omega

end Prefetch.Selection
