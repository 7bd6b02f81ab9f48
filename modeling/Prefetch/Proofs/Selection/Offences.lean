import Mathlib.Data.List.Infix
import Prefetch.Plan.Resolve
import Prefetch.Proofs.Selection.Preorder
import Prefetch.Proofs.Selection.Walking

/-!
# Offences — all that a request needs and is not allowed

A request is gone through node by node.  A node offends by its path if that is not covered; a `*`
offends unless the walk along its path meets an allowed one; a `^` offends unless the walk meets a
`*` or ends at a recursion that has room.  Each rule looks at the path and the mark of one node alone,
with no regard to the nodes around it.

The checker goes through both trees at once and stops early; what it reports is the first offence.

* `mem_ends_iff` — where the walk along a path may end, as a list.
* `offencesAt_of_meetsStar` — nothing offends below a `*`.
* `denied_eq_head?` — from any place of the walk on, the checker reports the first offence.
* `checkAllowed_eq_first_offence` — a request is refused for its first offence, or it has none.
-/

namespace Prefetch.Selection

/-! ### The rules -/

/-- A recursion with a bound or without one may be requested at a path. -/
def HasRoom (allowed : Selection) (path : Path) (limit : Option Nat) : Prop :=
  MeetsStar allowed path ∨ ∃ a used, Walk allowed path a used ∧ a.recursive = true ∧
    ∀ most, a.limit = some most → ∃ wanted, limit = some wanted ∧ used + wanted - 1 ≤ most

/-- Where the walk may go on to by a name. -/
def onward (name : String) (spot : Selection × Nat) : List (Selection × Nat) :=
  (if spot.1.recursive = true ∧ name = spot.1.label ∧ ∀ most ∈ spot.1.limit, spot.2 + 1 ≤ most
    then [(spot.1, spot.2 + 1)] else []) ++
  (spot.1.children.filter fun c => c.name = some name).map (·, 1)

/-- Where the walk along a path may end, and how often the node there has been used in a row. -/
def ends (allowed : Selection) (path : Path) : List (Selection × Nat) :=
  path.foldl (fun spots name => spots.flatMap (onward name)) [(allowed, 1)]

theorem ends_concat (allowed : Selection) (path : Path) (name : String) :
    ends allowed (path ++ [name]) = (ends allowed path).flatMap (onward name) := by
  simp [ends]

theorem mem_ends_iff {allowed a : Selection} {path : Path} {used : Nat} :
    (a, used) ∈ ends allowed path ↔ Walk allowed path a used := by
  induction path using List.reverseRecOn generalizing a used with
  | nil =>
    rw [walk_nil_iff]
    simp [ends]
  | append_singleton path name ih =>
    rw [ends_concat, List.mem_flatMap]
    constructor
    · rintro ⟨⟨b, i⟩, hb, hmem⟩
      have hw : Walk allowed path b i := ih.1 hb
      rcases List.mem_append.1 hmem with hmem | hmem
      · split at hmem
        · rename_i h
          obtain ⟨rfl, rfl⟩ := Prod.mk.inj (List.mem_singleton.1 hmem)
          exact hw.again h.1 h.2.1 h.2.2
        · cases hmem
      · obtain ⟨c, hc, heq⟩ := List.mem_map.1 hmem
        obtain ⟨rfl, rfl⟩ := Prod.mk.inj heq
        obtain ⟨hc, hn⟩ := List.mem_filter.1 hc
        exact hw.child hc (by simpa using hn)
    · intro h
      obtain ⟨b, i, above, hc, hn, rfl⟩ | ⟨i, above, hr, hn, room, rfl⟩ := h.concat_inv
      · refine ⟨(b, i), ih.2 above, List.mem_append_right _ (List.mem_map.2 ⟨a, ?_, rfl⟩)⟩
        exact List.mem_filter.2 ⟨hc, by simpa using hn⟩
      · refine ⟨(a, i), ih.2 above, List.mem_append_left _ ?_⟩
        rw [if_pos ⟨hr, hn, room⟩]
        exact List.mem_singleton.2 rfl

instance (allowed : Selection) (path : Path) : Decidable (MeetsStar allowed path) :=
  decidable_of_iff (∃ front ∈ path.inits, ∃ spot ∈ ends allowed front, spot.1.wildcard = true) <| by
    constructor
    · rintro ⟨front, hfront, ⟨a, used⟩, hend, hs⟩
      obtain ⟨back, rfl⟩ := (List.mem_inits _ _).1 hfront
      exact ⟨front, back, a, used, rfl, mem_ends_iff.1 hend, hs⟩
    · rintro ⟨front, back, a, used, rfl, hw, hs⟩
      exact ⟨front, (List.mem_inits _ _).2 ⟨back, rfl⟩, (a, used), mem_ends_iff.2 hw, hs⟩

instance (allowed : Selection) (path : Path) : Decidable (Covers allowed path) :=
  decidable_of_iff (MeetsStar allowed path ∨ ∃ spot ∈ ends allowed path, True) <| by
    simp only [Covers, Prod.exists, mem_ends_iff, and_true]

instance (allowed : Selection) (path : Path) (limit : Option Nat) :
    Decidable (HasRoom allowed path limit) :=
  decidable_of_iff (MeetsStar allowed path ∨ ∃ spot ∈ ends allowed path,
      spot.1.recursive = true ∧ ∀ most ∈ spot.1.limit, ∃ wanted ∈ limit,
        spot.2 + wanted - 1 ≤ most) <| by
    simp only [HasRoom, Prod.exists, mem_ends_iff, Option.mem_def]

/-- What a node offends by: its path, its `*`, its `^`. -/
def offencesAt (allowed : Selection) (path : Path) (node : Selection) : List Path :=
  (if Covers allowed path then [] else [path]) ++
    (if node.wildcard = true ∧ ¬ MeetsStar allowed path then [path ++ ["*"]] else []) ++
      (if node.recursive = true ∧ ¬ HasRoom allowed path node.limit then [path ++ ["^"]] else [])

/-- What some nodes offend by, one after the other. -/
def offencesOf (allowed : Selection) (nodes : List (Path × Selection)) : List Path :=
  nodes.flatMap fun v => offencesAt allowed v.1 v.2

/-- All offences of a request, node by node. -/
def offences (allowed requested : Selection) : List Path :=
  offencesOf allowed requested.preorder

/-! ### The first offence -/

variable {allowed requested a node : Selection} {path : Path} {used : Nat}

theorem offencesOf_cons (v : Path × Selection) (nodes : List (Path × Selection)) :
    offencesOf allowed (v :: nodes) = offencesAt allowed v.1 v.2 ++ offencesOf allowed nodes :=
  List.flatMap_cons

theorem offencesOf_append (nodes more : List (Path × Selection)) :
    offencesOf allowed (nodes ++ more) = offencesOf allowed nodes ++ offencesOf allowed more :=
  List.flatMap_append

/-- Below a `*` no node offends. -/
theorem offencesAt_of_meetsStar (h : MeetsStar allowed path) (more : Path) (node : Selection) :
    offencesAt allowed (path ++ more) node = [] := by
  have hstar : MeetsStar allowed (path ++ more) := h.append more
  have hcovers : Covers allowed (path ++ more) := .inl hstar
  have hroom : HasRoom allowed (path ++ more) node.limit := .inl hstar
  simp [offencesAt, hstar, hcovers, hroom]

/-- Where the walk has not met a `*`, the marks of a node are all it may offend by. -/
theorem offencesAt_of_walk (ha : allowed.WellFormed) (hw : Walk allowed path a used)
    (hs : a.wildcard = false)
    (hfit : ∀ wanted, node.recursive = true → node.limit = some wanted →
      used + wanted ≤ Text.maxWord) :
    offencesAt allowed path node =
      (if node.wildcard = true then [path ++ ["*"]] else []) ++
        (if node.recursive = true ∧ coversRecursion a used node.limit = false
          then [path ++ ["^"]] else []) := by
  have hcovers : Covers allowed path := .inr ⟨a, used, hw⟩
  have hstar : ¬ MeetsStar allowed path := by
    rw [meetsStar_iff ha hw, hs]
    exact Bool.false_ne_true
  have hroom : node.recursive = true →
      (HasRoom allowed path node.limit ↔ coversRecursion a used node.limit = true) := by
    intro hr
    rw [coversRecursion_iff fun wanted => hfit wanted hr, HasRoom]
    constructor
    · rintro (h | ⟨b, i, hb, h⟩)
      · exact absurd h hstar
      · obtain ⟨rfl, rfl⟩ := hw.unique ha hb
        exact h
    · exact fun h => .inr ⟨a, used, hw, h⟩
  cases hr : node.recursive with
  | false => simp [offencesAt, hcovers, hstar, hr]
  | true => simp [offencesAt, hcovers, hstar, hr, hroom hr]

theorem offencesOf_of_meetsStar (h : MeetsStar allowed path) :
    offencesOf allowed (preorderFrom path node) = [] := by
  refine List.flatMap_eq_nil_iff.2 fun v hv => ?_
  obtain ⟨more, hpath, -⟩ := mem_preorderFrom_iff.1 hv
  rw [hpath]
  exact offencesAt_of_meetsStar h more v.2

/-- Where the walk cannot go on to a node, the node offends by its path before anything below it. -/
theorem head?_of_not_covers (h : ¬ Covers allowed path) :
    (offencesOf allowed (preorderFrom path node)).head? = some path := by
  simp [preorderFrom_eq, offencesOf_cons, offencesAt, h]

/-- Siblings are checked one after the other. -/
theorem deniedAll_eq_head? (ha : allowed.WellFormed) (hw : Walk allowed path a used)
    (hs : a.wildcard = false) {siblings : List Selection}
    (h : ∀ c ∈ siblings, ∀ next used', descend? a used c.label = some (next, used') →
      denied next used' (path ++ [c.label]) c =
        (offencesOf allowed (preorderFrom (path ++ [c.label]) c)).head?) :
    deniedAll a used path siblings = (offencesOf allowed (preorderOfAll path siblings)).head? := by
  induction siblings with
  | nil => rfl
  | cons c cs ih =>
    have hrest := ih fun d hd => h d (List.mem_cons_of_mem c hd)
    rw [deniedAll, preorderOfAll, offencesOf_append, List.head?_append]
    cases hstep : descend? a used c.label with
    | none =>
      have hcovers : ¬ Covers allowed (path ++ [c.label]) := by
        rw [covers_concat_iff ha hw hs, hstep]
        simp
      rw [head?_of_not_covers hcovers, Option.some_or]
    | some spot =>
      obtain ⟨next, used'⟩ := spot
      simp only [h c List.mem_cons_self next used' hstep, hrest]
      cases (offencesOf allowed (preorderFrom (path ++ [c.label]) c)).head? with
      | none => rfl
      | some found => rfl

/-- A node that is marked `*` is denied before it is looked at as a recursion, and that before what
lies below it. -/
theorem denied_eq_of_plain (hs : a.wildcard = false) :
    denied a used path node =
      ((if node.wildcard = true then [path ++ ["*"]] else []) ++
        (if node.recursive = true ∧ coversRecursion a used node.limit = false
          then [path ++ ["^"]] else [])).head?.or (deniedAll a used path node.children) := by
  obtain ⟨_, children, recursive, limit, wildcard⟩ := node
  rw [denied, hs]
  cases wildcard <;> cases recursive <;> cases coversRecursion a used limit <;> rfl

/-- From any place of the walk on, the checker reports the first offence. -/
theorem denied_eq_head? (ha : allowed.WellFormed) : ∀ {a : Selection} {used : Nat} {path : Path},
    Walk allowed path a used → Fits a used node →
      denied a used path node = (offencesOf allowed (preorderFrom path node)).head? := by
  induction node using Selection.induction with
  | node node ih =>
    intro a used path hw hfit
    cases hs : a.wildcard with
    | true => rw [denied_of_wildcard hs, offencesOf_of_meetsStar (hw.meetsStar hs), List.head?_nil]
    | false =>
      have hbelow := deniedAll_eq_head? ha hw hs fun c hc next used' hstep =>
        ih c hc (walk_of_descend? hw hstep) (hfit.of_mem hc next used' hstep)
      rw [denied_eq_of_plain hs, hbelow, preorderFrom_eq, offencesOf_cons,
        offencesAt_of_walk ha hw hs fun wanted hr hl => hfit.bound hr hl]
      exact List.head?_append.symm

theorem firstDenied_eq_head? (ha : allowed.WellFormed) (hfit : FitsWord allowed requested) :
    allowed.firstDenied requested = (offences allowed requested).head? :=
  denied_eq_head? ha .root (fits_of_fitsWord hfit .root .root)

/-! ### Requests -/

/-- A request without marks offends by the paths that are not covered, and by nothing else. -/
theorem offences_eq_nil_iff_of_plain
    (hplain : ∀ v ∈ requested.preorder, v.2.wildcard = false ∧ v.2.recursive = false) :
    offences allowed requested = [] ↔ ∀ path ∈ requested.paths, Covers allowed path := by
  have hroot : Covers allowed [] := .inr ⟨allowed, 1, .root⟩
  have hat : ∀ v ∈ requested.preorder,
      (offencesAt allowed v.1 v.2 = [] ↔ Covers allowed v.1) := by
    intro v hv
    obtain ⟨hw, hr⟩ := hplain v hv
    simp [offencesAt, hw, hr]
  have hall : offences allowed requested = [] ↔ ∀ v ∈ requested.preorder, Covers allowed v.1 := by
    rw [offences, offencesOf, List.flatMap_eq_nil_iff]
    exact forall₂_congr hat
  rw [hall, ← List.forall_mem_map (f := Prod.fst) (P := Covers allowed), map_preorder,
    List.forall_mem_cons]
  exact and_iff_right hroot

/-- A request is refused for the first of its offences, and allowed when it has none, as long as no
bound and uses in front of it add up to more than fits in 64 bits.  A request without marks has none
exactly when all its paths are covered. -/
theorem checkAllowed_eq_first_offence {text : String} (ha : parse text = .ok allowed)
    (hfit : FitsWord allowed requested) :
    requested.checkAllowed (some allowed) =
        (match (offences allowed requested).head? with
          | none => .ok ()
          | some path => .error (.disallowed path)) ∧
      (allowed.allows requested = true ↔ offences allowed requested = []) ∧
      ((∀ v ∈ requested.preorder, v.2.wildcard = false ∧ v.2.recursive = false) →
        (allowed.allows requested = true ↔ ∀ path ∈ requested.paths, Covers allowed path)) := by
  have hfirst := firstDenied_eq_head? (writable_of_parse ha).wellFormed hfit
  have hallows : allowed.allows requested = true ↔ offences allowed requested = [] := by
    rw [allows, hfirst, Option.isNone_iff_eq_none, List.head?_eq_none_iff]
  refine ⟨?_, hallows, fun hplain => hallows.trans (offences_eq_nil_iff_of_plain hplain)⟩
  cases hhead : (offences allowed requested).head? with
  | none => simp only [checkAllowed, hfirst, hhead]
  | some path => simp only [checkAllowed, hfirst, hhead]

/-- A chain that goes on too long, a `*` that is not allowed, and a relation that is allowed nowhere:
the first of them is reported. -/
theorem checkAllowed_eq_first_offence_three :
    let allowed : Selection := { children := [(named "parent").follow (some 3), named "owner"] }
    let requested : Selection :=
      { children := [{ named "parent" with children := [(named "parent").follow (some 3)] },
        (named "owner").everything, named "pets"] }
    parse "[parent.^3, owner]" = .ok allowed ∧ FitsWord allowed requested ∧
      offences allowed requested = [["parent", "parent", "^"], ["owner", "*"], ["pets"]] ∧
      requested.checkAllowed (some allowed) = .error (.disallowed ["parent", "parent", "^"]) := by
  intro allowed requested
  have ha : parse "[parent.^3, owner]" = .ok allowed := by rfl
  have hfit : FitsWord allowed requested := fitsWord_of_preorder (by decide)
  have hoffences : offences allowed requested =
      [["parent", "parent", "^"], ["owner", "*"], ["pets"]] := by decide +kernel
  refine ⟨ha, hfit, hoffences, ?_⟩
  rw [(checkAllowed_eq_first_offence ha hfit).1, hoffences]
  rfl

end Prefetch.Selection
