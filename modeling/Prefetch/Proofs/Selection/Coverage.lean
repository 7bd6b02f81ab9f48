import Prefetch.Proofs.Selection.Shape
import Prefetch.Selection.Allowance

/-!
# Coverage — the paths that an allowed selection covers

A path is walked along the allowed selection, name by name.  A name leads to the child that has it,
or back to a recursive node that has it itself, as long as the bound has room for one more use in a
row.  What the walk can follow is covered, and so is everything below a `*` that it meets.

* `Walk`, `Covers` — the walk, and what it covers.
* `descend?_eq_some` — where the checker goes on to.
* `walk_of_descend?` — its steps are steps of the walk.
* `Permits.of_denied` — a request that is not denied at a node is permitted there.
-/

namespace Prefetch.Selection

/-- A node of a tree lies at a path. -/
inductive Occurs (s : Selection) : Path → Selection → Prop where
  | root : Occurs s [] s
  | child {path : Path} {node c : Selection} (above : Occurs s path node)
      (hc : c ∈ node.children) : Occurs s (path ++ [c.label]) c

/-- What occurs in a tree is its root or occurs in a child. -/
theorem Occurs.eq_or_below {s node : Selection} {path : Path} (h : Occurs s path node) :
    (path = [] ∧ node = s) ∨
      ∃ c ∈ s.children, ∃ rest, path = c.label :: rest ∧ Occurs c rest node := by
  induction h with
  | root => exact .inl ⟨rfl, rfl⟩
  | @child path node c above hc ih =>
    rcases ih with ⟨rfl, rfl⟩ | ⟨d, hd, rest, rfl, ho⟩
    · exact .inr ⟨c, hc, [], rfl, .root⟩
    · exact .inr ⟨d, hd, rest ++ [c.label], rfl, ho.child hc⟩

/-- Walking along a path leads to a node of the allowed selection, which has then been used so many
times in a row. -/
inductive Walk (allowed : Selection) : Path → Selection → Nat → Prop where
  | root : Walk allowed [] allowed 1
  | child {path : Path} {node c : Selection} {used : Nat} {name : String}
      (above : Walk allowed path node used) (hc : c ∈ node.children) (hn : c.name = some name) :
      Walk allowed (path ++ [name]) c 1
  | again {path : Path} {node : Selection} {used : Nat} {name : String}
      (above : Walk allowed path node used) (hr : node.recursive = true) (hn : name = node.label)
      (room : ∀ most, node.limit = some most → used + 1 ≤ most) :
      Walk allowed (path ++ [name]) node (used + 1)

/-- The walk along a path meets a `*`, at its end or before. -/
def MeetsStar (allowed : Selection) (path : Path) : Prop :=
  ∃ front back node used, path = front ++ back ∧ Walk allowed front node used ∧
    node.wildcard = true

/-- A path is covered when the walk can follow it or meets a `*`. -/
def Covers (allowed : Selection) (path : Path) : Prop :=
  MeetsStar allowed path ∨ ∃ node used, Walk allowed path node used

/-- Where a bounded recursion is requested, its bound and the uses of the allowed node so far add up
to a number that fits in 64 bits. -/
def FitsWord (allowed requested : Selection) : Prop :=
  ∀ path node wanted, Occurs requested path node → node.recursive = true →
    node.limit = some wanted → ∀ a used, Walk allowed path a used → used + wanted ≤ Text.maxWord

theorem MeetsStar.append {allowed : Selection} {path : Path} (h : MeetsStar allowed path)
    (more : Path) : MeetsStar allowed (path ++ more) := by
  obtain ⟨front, back, node, used, rfl, hw, hs⟩ := h
  exact ⟨front, back ++ more, node, used, by rw [List.append_assoc], hw, hs⟩

theorem Walk.meetsStar {allowed node : Selection} {path : Path} {used : Nat}
    (h : Walk allowed path node used) (hs : node.wildcard = true) : MeetsStar allowed path :=
  ⟨path, [], node, used, by rw [List.append_nil], h, hs⟩

/-- The last step of a walk leads to a child of the name, or stays where it was. -/
theorem Walk.concat_inv {allowed b : Selection} {path : Path} {name : String} {used' : Nat}
    (h : Walk allowed (path ++ [name]) b used') :
    (∃ a used, Walk allowed path a used ∧ b ∈ a.children ∧ b.name = some name ∧ used' = 1) ∨
      ∃ used, Walk allowed path b used ∧ b.recursive = true ∧ name = b.label ∧
        (∀ most, b.limit = some most → used + 1 ≤ most) ∧ used' = used + 1 := by
  generalize hp : path ++ [name] = full at h
  cases h with
  | root => simp at hp
  | child above hc hn =>
    obtain ⟨rfl, hlast⟩ := List.append_inj' hp rfl
    obtain rfl := List.singleton_inj.1 hlast
    exact .inl ⟨_, _, above, hc, hn, rfl⟩
  | again above hr hn room =>
    obtain ⟨rfl, hlast⟩ := List.append_inj' hp rfl
    obtain rfl := List.singleton_inj.1 hlast
    exact .inr ⟨_, above, hr, hn, room, rfl⟩

/-- The walk ends at a node that has the last name of the path. -/
theorem Walk.label_eq {allowed node : Selection} {path : Path} {name : String} {used : Nat}
    (h : Walk allowed (path ++ [name]) node used) : node.label = name := by
  obtain ⟨_, _, _, _, hn, _⟩ | ⟨_, _, _, hn, _⟩ := h.concat_inv
  · simp [label, hn]
  · exact hn.symm

theorem Walk.used_le {allowed node : Selection} {path : Path} {used : Nat}
    (h : Walk allowed path node used) : used ≤ path.length + 1 := by
  induction h with
  | root => simp
  | child _ _ _ _ => simp
  | again _ _ _ _ ih =>
    simp only [List.length_append, List.length_singleton]
    omega

/-- The checker stays on a recursive node that has room for one more use, or goes on to a child. -/
theorem descend?_eq_some {a b : Selection} {used used' : Nat} {name : String}
    (h : descend? a used name = some (b, used')) :
    (a.recursive = true ∧ name = a.label ∧ (∀ most, a.limit = some most → used + 1 ≤ most) ∧
        b = a ∧ used' = used + 1) ∨
      (b ∈ a.children ∧ b.name = some name ∧ used' = 1) := by
  unfold descend? at h
  split at h
  · rename_i hr
    simp only [Bool.and_eq_true, beq_iff_eq] at hr
    split at h
    · rename_i hl
      obtain ⟨rfl, rfl⟩ := Prod.mk.inj (Option.some.inj h)
      refine .inl ⟨hr.1, hr.2, fun most hm => ?_, rfl, rfl⟩
      rw [hl] at hm
      cases hm
    · rename_i most hl
      split at h
      · cases h
      · rename_i hroom
        obtain ⟨rfl, rfl⟩ := Prod.mk.inj (Option.some.inj h)
        refine .inl ⟨hr.1, hr.2, fun most' hm => ?_, rfl, rfl⟩
        obtain rfl : most = most' := Option.some.inj (hl.symm.trans hm)
        omega
  · obtain ⟨c, hc, heq⟩ := Option.map_eq_some_iff.1 h
    obtain ⟨rfl, rfl⟩ := Prod.mk.inj heq
    obtain ⟨hm, hn⟩ := child?_eq_some hc
    exact .inr ⟨hm, hn, rfl⟩

/-- The checker's steps are steps of the walk. -/
theorem walk_of_descend? {allowed node next : Selection} {path : Path} {used used' : Nat}
    {name : String} (hw : Walk allowed path node used)
    (h : descend? node used name = some (next, used')) :
    Walk allowed (path ++ [name]) next used' := by
  obtain ⟨hr, hn, hroom, rfl, rfl⟩ | ⟨hc, hn, rfl⟩ := descend?_eq_some h
  · exact hw.again hr hn hroom
  · exact hw.child hc hn

/-! ### What a request may do where the walk stands -/

/-- A requested node is permitted where the walk along its path stands: a `*` has been met, or the
node is not marked `*`, the walk's node has room for the recursion it asks for, and its children are
permitted where the walk goes on to. -/
inductive Permits (allowed : Selection) : Path → Selection → Prop where
  | star {path : Path} {node : Selection} (h : MeetsStar allowed path) : Permits allowed path node
  | walk {path : Path} {node a : Selection} {used : Nat} (at_ : Walk allowed path a used)
      (plain : node.wildcard = false)
      (room : node.recursive = true → a.recursive = true ∧ ∀ most, a.limit = some most →
        ∃ wanted, node.limit = some wanted ∧ used + wanted - 1 ≤ most)
      (below : ∀ c ∈ node.children, Permits allowed (path ++ [c.label]) c) :
      Permits allowed path node

theorem deniedAll_eq_none {a : Selection} {used : Nat} {path : Path} {siblings : List Selection}
    (h : deniedAll a used path siblings = none) {c : Selection} (hc : c ∈ siblings) :
    ∃ next used', descend? a used c.label = some (next, used') ∧
      denied next used' (path ++ [c.label]) c = none := by
  induction siblings with
  | nil => cases hc
  | cons d ds ih =>
    rw [deniedAll] at h
    split at h
    · cases h
    · rename_i next used' hd
      split at h
      · cases h
      · rename_i hn
        rcases List.mem_cons.1 hc with rfl | hc
        · exact ⟨next, used', hd, hn⟩
        · exact ih h hc

/-- Within 64 bits the checker's sum is the sum of the numbers. -/
theorem room_of_coversRecursion {a : Selection} {used : Nat} {limit : Option Nat}
    (h : coversRecursion a used limit = true)
    (hfit : ∀ wanted, limit = some wanted → used + wanted ≤ Text.maxWord) :
    a.recursive = true ∧ ∀ most, a.limit = some most →
      ∃ wanted, limit = some wanted ∧ used + wanted - 1 ≤ most := by
  unfold coversRecursion at h
  obtain ⟨hr, hl⟩ := Bool.and_eq_true_iff.1 h
  refine ⟨hr, fun most hm => ?_⟩
  rw [hm] at hl
  cases limit with
  | none => cases hl
  | some wanted =>
    have hw := hfit wanted rfl
    have hmod : (used + wanted - 1) % (Text.maxWord + 1) = used + wanted - 1 :=
      Nat.mod_eq_of_lt (by omega)
    simp only [hmod, decide_eq_true_eq] at hl
    exact ⟨wanted, rfl, hl⟩

/-- What is not denied is permitted. -/
theorem Permits.of_denied {allowed requested : Selection} (hfit : FitsWord allowed requested)
    {node : Selection} : ∀ {a : Selection} {used : Nat} {path : Path}, Walk allowed path a used →
      Occurs requested path node → denied a used path node = none → Permits allowed path node := by
  induction node using Selection.induction with
  | node node ih =>
    intro a used path hw ho hd
    obtain ⟨name, children, recursive, limit, wildcard⟩ := node
    rw [denied] at hd
    split at hd
    · rename_i hs
      exact .star (hw.meetsStar hs)
    · split at hd
      · cases hd
      · rename_i hplain
        split at hd
        · cases hd
        · rename_i hcover
          refine .walk hw (by simpa using hplain) (fun hr => ?_) fun c hc => ?_
          · obtain rfl : recursive = true := hr
            have hcover' : coversRecursion a used limit = true := by simpa using hcover
            exact room_of_coversRecursion hcover' fun wanted hl =>
              hfit path _ wanted ho rfl hl a used hw
          · obtain ⟨next, used', hstep, hnone⟩ := deniedAll_eq_none hd hc
            exact ih c hc (walk_of_descend? hw hstep) (ho.child hc) hnone

/-- A request that the allowed selection does not deny is permitted from its root on. -/
theorem permits_of_firstDenied {allowed requested : Selection}
    (hfit : FitsWord allowed requested) (h : allowed.firstDenied requested = none) :
    Permits allowed [] requested :=
  .of_denied hfit .root .root h

theorem Permits.of_mem {allowed node c : Selection} {path : Path} (h : Permits allowed path node)
    (hc : c ∈ node.children) : Permits allowed (path ++ [c.label]) c := by
  cases h with
  | star h => exact .star (h.append _)
  | walk _ _ _ below => exact below c hc

end Prefetch.Selection
