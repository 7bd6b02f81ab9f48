import Mathlib.Data.ENat.Lattice
import Mathlib.Data.Prod.Lex
import Mathlib.Order.Bounds.Basic
import Prefetch.Proofs.Selection.Preorder
import Prefetch.Proofs.Selection.Walking
import Prefetch.Selection.Same

/-!
# Demand — what a selection asks for, path by path

At the end of a path a selection asks for nothing, for the rows, for the relation again up to a
bound or without one, for everything, or the path has left it behind at a `*` further up.  Each of
these asks for more than those before it, so demands are in a linear order.  A well-formed selection
is known, up to the order of siblings, by its demands; and a merge asks for the larger of two
demands.

* `demand_of_occurs`, `starAbove_iff`, `exists_occurs_iff` — demands are read off the nodes.
* `same_of_demand` — equal demands make selections the same up to the order of siblings.
* `demand_merge` — a merge asks for the larger of two demands, at every path.
-/

namespace Prefetch.Selection

/-! ### The order of demands -/

/-- What may be asked for at the end of a path. -/
inductive Demand where
  /-- No node is there. -/
  | nothing
  /-- A node without marks. -/
  | rows
  /-- A recursive node with its bound. -/
  | again (limit : Option Nat)
  /-- A `*`. -/
  | everything
  /-- The path goes on below a `*`. -/
  | beyond
  deriving DecidableEq

namespace Demand

/-- A bound as a number; no bound is larger than every bound. -/
def size : Option Nat → ℕ∞
  | none => ⊤
  | some most => most

theorem size_injective : Function.Injective size := by
  intro a b h
  cases a <;> cases b <;> simp_all [size]

/-- The place of a demand among all: its kind, and among recursions the bound. -/
def rank : Demand → ℕ ×ₗ ℕ∞
  | nothing => toLex (0, 0)
  | rows => toLex (1, 0)
  | again limit => toLex (2, size limit)
  | everything => toLex (3, 0)
  | beyond => toLex (4, 0)

theorem rank_injective : Function.Injective rank := by
  intro d e h
  cases d <;> cases e <;> simp [rank, size_injective.eq_iff] at h ⊢
  exact h

noncomputable instance : LinearOrder Demand := LinearOrder.lift' rank rank_injective

theorem le_iff {d e : Demand} : d ≤ e ↔ rank d ≤ rank e := Iff.rfl

theorem nothing_le (d : Demand) : nothing ≤ d := by
  cases d <;> simp [le_iff, rank, Prod.Lex.le_iff]

theorem le_beyond (d : Demand) : d ≤ beyond := by
  cases d <;> simp [le_iff, rank, Prod.Lex.le_iff]

theorem lt_iff {d e : Demand} : d < e ↔ rank d < rank e := Iff.rfl

theorem rows_lt_again (limit : Option Nat) : rows < again limit := by
  simp [lt_iff, rank, Prod.Lex.lt_iff]

theorem again_lt_everything (limit : Option Nat) : again limit < everything := by
  simp [lt_iff, rank, Prod.Lex.lt_iff]

theorem everything_lt_beyond : everything < beyond := by
  simp [lt_iff, rank, Prod.Lex.lt_iff]

theorem rows_lt_everything : rows < everything :=
  (rows_lt_again none).trans (again_lt_everything none)

theorem nothing_lt_again (limit : Option Nat) : nothing < again limit :=
  (nothing_le rows).trans_lt (rows_lt_again limit)

theorem nothing_lt_everything : nothing < everything :=
  (nothing_le rows).trans_lt rows_lt_everything

/-- Between a recursion and everything there are only recursions. -/
theorem exists_eq_again {d : Demand} {limit : Option Nat} (h : again limit ≤ d)
    (hd : d < everything) : ∃ limit', d = again limit' := by
  have hle : again limit ≤ d → d ≤ everything → d ≠ everything → ∃ limit', d = again limit' := by
    cases d <;> simp [le_iff, rank, Prod.Lex.le_iff]
  exact hle h hd.le hd.ne

theorem le_nothing_iff {d : Demand} : d ≤ nothing ↔ d = nothing :=
  ⟨fun h => le_antisymm h (nothing_le d), fun h => le_of_eq h⟩

theorem again_le_again {limit other : Option Nat} :
    again limit ≤ again other ↔ size limit ≤ size other := by
  simp [le_iff, rank, Prod.Lex.le_iff]

end Demand

/-! ### The demands of a selection -/

/-- What a node asks for itself. -/
def ownDemand (s : Selection) : Demand :=
  if s.wildcard then .everything else if s.recursive then .again s.limit else .rows

/-- What a selection asks for at the end of a path. -/
def demand : Selection → Path → Demand
  | s, [] => s.ownDemand
  | s, name :: path =>
    if s.wildcard then .beyond
    else match s.child? name with
      | none => .nothing
      | some c => c.demand path

/-- A `*` stands further up a path. -/
def StarAbove (s : Selection) (path : Path) : Prop :=
  ∃ front back node, path = front ++ back ∧ back ≠ [] ∧ Occurs s front node ∧
    node.wildcard = true

variable {s t c node : Selection} {path : Path} {name : String} {limit : Option Nat}

theorem nothing_lt_ownDemand (s : Selection) : .nothing < s.ownDemand := by
  refine lt_of_le_of_ne (Demand.nothing_le _) ?_
  unfold ownDemand
  split
  · nofun
  · split <;> nofun

theorem ownDemand_le_everything (s : Selection) : s.ownDemand ≤ .everything := by
  unfold ownDemand
  split
  · exact le_rfl
  · split <;> simp [Demand.le_iff, Demand.rank, Prod.Lex.le_iff]

theorem ownDemand_lt_beyond (s : Selection) : s.ownDemand < .beyond :=
  lt_of_le_of_lt (ownDemand_le_everything s) Demand.everything_lt_beyond

theorem ownDemand_eq_everything_iff : s.ownDemand = .everything ↔ s.wildcard = true := by
  unfold ownDemand
  split
  · simp_all
  · split <;> simp_all

theorem ownDemand_eq_again_iff :
    s.ownDemand = .again limit ↔ s.wildcard = false ∧ s.recursive = true ∧ s.limit = limit := by
  unfold ownDemand
  split
  · simp_all
  · split <;> simp_all

theorem demand_cons_of_wildcard (h : s.wildcard = true) : s.demand (name :: path) = .beyond := by
  rw [demand, if_pos h]

theorem demand_cons (h : s.wildcard = false) :
    s.demand (name :: path) =
      match s.child? name with
      | none => .nothing
      | some c => c.demand path := by
  rw [demand, h]
  rfl

theorem demand_cons_of_mem (hs : Coherent s) (hw : s.wildcard = false) (hc : c ∈ s.children) :
    s.demand (c.label :: path) = c.demand path := by
  rw [demand_cons hw, child?_of_mem hs.distinct hc (name_eq_label (hs.named c hc))]

theorem demand_cons_of_ne (hw : s.wildcard = false) (h : ∀ c ∈ s.children, c.name ≠ some name) :
    s.demand (name :: path) = .nothing := by
  rw [demand_cons hw, child?, find?_eq_none.2 h]

/-- A path goes on at a child, or nothing is asked for at its end. -/
theorem demand_cons_cases (hs : Coherent s) (hw : s.wildcard = false) (name : String) :
    (∃ c ∈ s.children, c.label = name ∧ ∀ path, s.demand (name :: path) = c.demand path) ∨
      (∀ c ∈ s.children, c.label ≠ name) ∧ ∀ path, s.demand (name :: path) = .nothing := by
  by_cases h : ∃ c ∈ s.children, c.label = name
  · obtain ⟨c, hc, rfl⟩ := h
    exact .inl ⟨c, hc, rfl, fun path => demand_cons_of_mem hs hw hc⟩
  · have hne : ∀ c ∈ s.children, c.label ≠ name := fun c hc hname => h ⟨c, hc, hname⟩
    exact .inr ⟨hne, fun path => demand_cons_of_ne hw fun c hc hname =>
      hne c hc (label_of_name hname)⟩

/-! ### Demands and nodes -/

theorem Occurs.not_wildcard_of_cons (hs : s.WellFormed) (h : Occurs s (name :: path) node) :
    s.wildcard = false := by
  obtain ⟨c, hc, -⟩ := occurs_cons_iff.1 h
  cases hw : s.wildcard with
  | false => rfl
  | true =>
    rw [hs.coherent.leaf (.inr hw)] at hc
    cases hc

/-- Where a node is, a selection asks for what the node asks for. -/
theorem demand_of_occurs (hs : s.WellFormed) (h : Occurs s path node) :
    s.demand path = node.ownDemand := by
  induction path generalizing s with
  | nil => rw [occurs_nil_iff.1 h, demand]
  | cons name path ih =>
    have hw := h.not_wildcard_of_cons hs
    obtain ⟨c, hc, rfl, hnode⟩ := occurs_cons_iff.1 h
    rw [demand_cons_of_mem hs.coherent hw hc, ih (hs.of_mem hc) hnode]

/-- A selection that asks for something at a place of its own has a node there. -/
theorem exists_occurs_of_demand (hs : s.WellFormed) (hpos : .nothing < s.demand path)
    (hbelow : s.demand path < .beyond) : ∃ node, Occurs s path node := by
  induction path generalizing s with
  | nil => exact ⟨s, .root⟩
  | cons name path ih =>
    cases hw : s.wildcard with
    | true =>
      rw [demand_cons_of_wildcard hw] at hbelow
      exact absurd hbelow (lt_irrefl _)
    | false =>
      obtain ⟨c, hc, hname, hdemand⟩ | ⟨-, hdemand⟩ := demand_cons_cases hs.coherent hw name
      · rw [hdemand] at hpos hbelow
        obtain ⟨node, hnode⟩ := ih (hs.of_mem hc) hpos hbelow
        exact ⟨node, occurs_cons_iff.2 ⟨c, hc, hname, hnode⟩⟩
      · rw [hdemand] at hpos
        exact absurd hpos (lt_irrefl _)

theorem exists_occurs_iff (hs : s.WellFormed) :
    (∃ node, Occurs s path node) ↔ .nothing < s.demand path ∧ s.demand path < .beyond := by
  refine ⟨fun ⟨node, h⟩ => ?_, fun ⟨hpos, hbelow⟩ => exists_occurs_of_demand hs hpos hbelow⟩
  rw [demand_of_occurs hs h]
  exact ⟨nothing_lt_ownDemand node, ownDemand_lt_beyond node⟩

theorem starAbove_cons_iff (hw : s.wildcard = false) :
    StarAbove s (name :: path) ↔ ∃ c ∈ s.children, c.label = name ∧ StarAbove c path := by
  constructor
  · rintro ⟨front, back, node, hpath, hback, hnode, hstar⟩
    cases front with
    | nil =>
      rw [occurs_nil_iff.1 hnode, hw] at hstar
      cases hstar
    | cons first front =>
      obtain ⟨rfl, rfl⟩ := List.cons_eq_cons.1 hpath
      obtain ⟨c, hc, hname, hnode⟩ := occurs_cons_iff.1 hnode
      exact ⟨c, hc, hname, front, back, node, rfl, hback, hnode, hstar⟩
  · rintro ⟨c, hc, rfl, front, back, node, rfl, hback, hnode, hstar⟩
    exact ⟨c.label :: front, back, node, rfl, hback, hnode.of_child hc, hstar⟩

/-- A path has left a selection behind exactly when a `*` stands further up. -/
theorem starAbove_iff (hs : s.WellFormed) : StarAbove s path ↔ s.demand path = .beyond := by
  induction path generalizing s with
  | nil =>
    constructor
    · rintro ⟨front, back, node, hpath, hback, -⟩
      exact absurd (List.append_eq_nil_iff.1 hpath.symm).2 hback
    · exact fun h => absurd h (ownDemand_lt_beyond s).ne
  | cons name path ih =>
    cases hw : s.wildcard with
    | true =>
      rw [demand_cons_of_wildcard hw]
      exact iff_of_true ⟨[], name :: path, s, rfl, nofun, .root, hw⟩ rfl
    | false =>
      rw [starAbove_cons_iff hw]
      obtain ⟨c, hc, hname, hdemand⟩ | ⟨hne, hdemand⟩ := demand_cons_cases hs.coherent hw name
      · rw [hdemand, ← ih (hs.of_mem hc)]
        constructor
        · rintro ⟨d, hd, hlabel, hstar⟩
          rwa [List.inj_on_of_nodup_map hs.coherent.nodup_labels hc hd
            (hname.trans hlabel.symm)]
        · exact fun hstar => ⟨c, hc, hname, hstar⟩
      · rw [hdemand]
        exact iff_of_false (fun ⟨d, hd, hlabel, _⟩ => hne d hd hlabel) nofun

/-- Below a recursive node nothing is asked for. -/
theorem demand_below_again (hs : s.WellFormed) (h : s.demand path = .again limit)
    (name : String) : s.demand (path ++ [name]) = .nothing := by
  induction path generalizing s with
  | nil =>
    obtain ⟨hw, hr, -⟩ := ownDemand_eq_again_iff.1 h
    refine demand_cons_of_ne hw fun c hc => ?_
    rw [hs.coherent.leaf (.inl hr)] at hc
    cases hc
  | cons first path ih =>
    cases hw : s.wildcard with
    | true =>
      rw [demand_cons_of_wildcard hw] at h
      cases h
    | false =>
      rw [List.cons_append]
      obtain ⟨c, hc, -, hdemand⟩ | ⟨-, hdemand⟩ := demand_cons_cases hs.coherent hw first
      · rw [hdemand] at h ⊢
        exact ih (hs.of_mem hc) h
      · exact hdemand _

/-! ### Equal demands -/

theorem allMatched_iff {siblings others : List Selection} :
    allMatched siblings others = true ↔
      ∀ c ∈ siblings, ∃ d, find? others c.label = some d ∧ same c d = true := by
  induction siblings with
  | nil => simp [allMatched]
  | cons c cs ih =>
    rw [allMatched, Bool.and_eq_true, ih, List.forall_mem_cons]
    cases find? others c.label <;> simp

theorem same_iff : same s t = true ↔
    s.name = t.name ∧ s.recursive = t.recursive ∧ s.limit = t.limit ∧ s.wildcard = t.wildcard ∧
      s.children.length = t.children.length ∧ allMatched s.children t.children = true := by
  obtain ⟨_, _, _, _, _⟩ := s
  simp only [same, Bool.and_eq_true, beq_iff_eq, and_assoc]

/-- The marks of a node that asks for so much: whether it is recursive, its bound, and whether it is
a `*`. -/
def Demand.marks : Demand → Bool × Option Nat × Bool
  | everything => (false, none, true)
  | again limit => (true, limit, false)
  | _ => (false, none, false)

/-- The marks of a coherent node are known from what it asks for. -/
theorem marks_ownDemand (hs : Coherent s) :
    s.ownDemand.marks = (s.recursive, s.limit, s.wildcard) := by
  cases hw : s.wildcard with
  | true =>
    have hr : s.recursive = false := by
      cases hr : s.recursive with
      | false => rfl
      | true => exact absurd ⟨hr, hw⟩ hs.oneMark
    rw [ownDemand_eq_everything_iff.2 hw, hr, hs.limit_eq_none hr, Demand.marks]
  | false =>
    cases hr : s.recursive with
    | true => rw [ownDemand_eq_again_iff.2 ⟨hw, hr, rfl⟩, Demand.marks]
    | false => simp [ownDemand, hw, hr, hs.limit_eq_none hr, Demand.marks]

/-- Well-formed selections of one name with equal demands have children of the same labels, and
children of one label have equal demands. -/
theorem child_of_demand (hs : s.WellFormed) (ht : t.WellFormed)
    (h : ∀ path, s.demand path = t.demand path) (hc : c ∈ s.children) :
    ∃ d ∈ t.children, d.label = c.label ∧ ∀ path, c.demand path = d.demand path := by
  have hoccurs : Occurs s [c.label] c := Occurs.root.child hc
  have hw := hoccurs.not_wildcard_of_cons hs
  have hmarks := congrArg Demand.marks (h [])
  rw [demand, demand, marks_ownDemand hs.coherent, marks_ownDemand ht.coherent] at hmarks
  have hwild : s.wildcard = t.wildcard := congrArg (·.2.2) hmarks
  have hdemand : ∀ path, t.demand (c.label :: path) = c.demand path := fun path => by
    rw [← h, demand_cons_of_mem hs.coherent hw hc]
  obtain ⟨d, hd, hlabel, hbelow⟩ | ⟨-, hnone⟩ :=
    demand_cons_cases ht.coherent (hwild.symm.trans hw) c.label
  · exact ⟨d, hd, hlabel, fun path => by rw [← hdemand, hbelow]⟩
  · have := nothing_lt_ownDemand c
    rw [← demand, ← hdemand, hnone] at this
    exact absurd this (lt_irrefl _)

/-- Equal demands make selections the same up to the order of siblings. -/
theorem same_of_demand (hs : s.WellFormed) (ht : t.WellFormed) (hname : s.name = t.name)
    (h : ∀ path, s.demand path = t.demand path) : same s t = true := by
  induction s using Selection.induction generalizing t with
  | node s ih =>
    have hmarks := congrArg Demand.marks (h [])
    rw [demand, demand, marks_ownDemand hs.coherent, marks_ownDemand ht.coherent] at hmarks
    simp only [Prod.mk.injEq] at hmarks
    obtain ⟨hr, hl, hw⟩ := hmarks
    have hlabels : (s.children.map (·.label)).Perm (t.children.map (·.label)) := by
      rw [List.perm_ext_iff_of_nodup hs.coherent.nodup_labels ht.coherent.nodup_labels]
      intro name
      simp only [List.mem_map]
      constructor
      · rintro ⟨c, hc, rfl⟩
        obtain ⟨d, hd, hlabel, -⟩ := child_of_demand hs ht h hc
        exact ⟨d, hd, hlabel⟩
      · rintro ⟨c, hc, rfl⟩
        obtain ⟨d, hd, hlabel, -⟩ := child_of_demand ht hs (fun path => (h path).symm) hc
        exact ⟨d, hd, hlabel⟩
    refine same_iff.2 ⟨hname, hr, hl, hw, by simpa using hlabels.length_eq,
      allMatched_iff.2 fun c hc => ?_⟩
    obtain ⟨d, hd, hlabel, hdemand⟩ := child_of_demand hs ht h hc
    have hcn := name_eq_label (hs.coherent.named c hc)
    have hdn := name_eq_label (ht.coherent.named d hd)
    rw [hlabel] at hdn
    exact ⟨d, child?_of_mem ht.coherent.distinct hd hdn,
      ih c hc (hs.of_mem hc) (ht.of_mem hd) (hcn.trans hdn.symm) hdemand⟩

/-! ### Demands of a merge -/

/-- What a name leads to among merged siblings, by what it led to on either side. -/
inductive Joins : Option Selection → Option Selection → Option Selection → Prop where
  | neither : Joins none none none
  | left (a : Selection) : Joins (some a) none (some a)
  | right (b : Selection) : Joins none (some b) (some b)
  | both {a b node : Selection} (h : a.merge b = .ok node) : Joins (some a) (some b) (some node)

theorem find?_nil : find? [] name = none := rfl

theorem find?_cons_of_name {siblings : List Selection} (h : c.name = some name) :
    find? (c :: siblings) name = some c :=
  List.find?_cons_of_pos (by simp [h])

theorem find?_cons_of_ne {siblings : List Selection} (h : c.name ≠ some name) :
    find? (c :: siblings) name = find? siblings name :=
  List.find?_cons_of_neg (by simp [h])

theorem find?_append {front back : List Selection} :
    find? (front ++ back) name = (find? front name).or (find? back name) :=
  List.find?_append

/-- What a name leads to in two lists of siblings, and in those merged. -/
theorem joins_mergeAll {siblings others merged : List Selection} (hs : Distinct siblings)
    (ho : Distinct others) (hnamed : ∀ c ∈ others, c.name ≠ none)
    (h : mergeAll siblings others = .ok merged) (name : String) :
    Joins (find? siblings name) (find? others name) (find? merged name) := by
  induction others generalizing siblings with
  | nil =>
    rw [mergeAll] at h
    obtain rfl := Except.ok.inj h
    cases hfind : find? siblings name with
    | none => exact .neither
    | some a => exact .left a
  | cons c cs ih =>
    have hcn := name_eq_label (hnamed c List.mem_cons_self)
    have hcs := distinct_append.1 (show Distinct ([c] ++ cs) from ho)
    have hlast : find? cs c.label = none := find?_eq_none.2 fun d hd hdn =>
      hcs.2.2 c List.mem_cons_self d hd (hcn.trans hdn.symm)
    have hnamed' : ∀ d ∈ cs, d.name ≠ none := fun d hd => hnamed d (List.mem_cons_of_mem c hd)
    obtain ⟨hfree, h⟩ | ⟨front, known, back, node, rfl, hname, hnode, h⟩ :=
      mergeAll_cons_eq_ok h
    · -- the sibling is new and goes to the end
      have hone : Distinct (siblings ++ [c]) := by
        refine distinct_append.2 ⟨hs, distinct_singleton c, fun d hd e he => ?_⟩
        rw [List.mem_singleton.1 he, hcn]
        exact hfree d hd
      have hrest := ih hone hcs.2.1 hnamed' h
      rw [find?_append] at hrest
      by_cases hlabel : c.label = name
      · subst hlabel
        rw [find?_eq_none.2 hfree, Option.none_or, find?_cons_of_name hcn, hlast] at hrest
        rw [find?_eq_none.2 hfree, find?_cons_of_name hcn]
        generalize find? merged c.label = out at hrest ⊢
        cases hrest
        exact .right c
      · have hne : c.name ≠ some name := fun hn => hlabel (label_of_name hn)
        rw [find?_cons_of_ne hne]
        rwa [find?_cons_of_ne hne, find?_nil, Option.or_none] at hrest
    · -- the sibling is merged into the one of its name
      have hnodeName : node.name = some c.label := (name_merge hnode).trans hname
      have hone : Distinct (front ++ node :: back) := by
        unfold Distinct at hs ⊢
        simpa only [List.map_append, List.map_cons, name_merge hnode] using hs
      have hfront : find? front c.label = none := find?_eq_none.2 fun d hd hdn =>
        (distinct_append.1 hs).2.2 d hd known List.mem_cons_self (hdn.trans hname.symm)
      have hrest := ih hone hcs.2.1 hnamed' h
      rw [find?_append] at hrest ⊢
      by_cases hlabel : c.label = name
      · subst hlabel
        rw [hfront, Option.none_or, find?_cons_of_name hnodeName, hlast] at hrest
        rw [hfront, Option.none_or, find?_cons_of_name hname, find?_cons_of_name hcn]
        generalize find? merged c.label = out at hrest ⊢
        cases hrest
        exact .both hnode
      · have hne : ∀ {d : Selection}, d.name = some c.label → d.name ≠ some name :=
          fun hd hn => hlabel (Option.some.inj (hd.symm.trans hn))
        rw [find?_cons_of_ne (hne hname), find?_cons_of_ne (hne hcn)]
        rwa [find?_cons_of_ne (hne hnodeName)] at hrest

/-- The bound of two recursions is the larger one, and no bound is larger than every bound. -/
theorem again_mergeLimit (h : s.recursive = true) (other : Option Nat) :
    Demand.again (s.mergeLimit other) = max (Demand.again s.limit) (Demand.again other) := by
  unfold mergeLimit
  rw [if_pos h]
  cases s.limit with
  | none =>
    refine (max_eq_left (Demand.again_le_again.2 ?_)).symm
    exact le_top
  | some a =>
    cases other with
    | none =>
      refine (max_eq_right (Demand.again_le_again.2 ?_)).symm
      exact le_top
    | some b =>
      rcases Nat.le_total a b with hab | hab
      · rw [max_eq_right (Demand.again_le_again.2 (by simpa [Demand.size] using hab))]
        simp only [Nat.max_eq_right hab]
      · rw [max_eq_left (Demand.again_le_again.2 (by simpa [Demand.size] using hab))]
        simp only [Nat.max_eq_left hab]

/-- The marks of a merge ask for the larger of two demands. -/
theorem ownDemand_merge {m : Selection} (h : s.merge t = .ok m) :
    m.ownDemand = max s.ownDemand t.ownDemand := by
  obtain ⟨merged, -, ⟨hw, rfl⟩ | ⟨hw, rfl, -⟩⟩ := merge_eq_ok h
  · rw [ownDemand_eq_everything_iff.2 (show s.everything.wildcard = true from rfl)]
    rcases Bool.or_eq_true_iff.1 hw with hw | hw
    · rw [ownDemand_eq_everything_iff.2 hw, max_eq_left (ownDemand_le_everything t)]
    · rw [ownDemand_eq_everything_iff.2 hw, max_eq_right (ownDemand_le_everything s)]
  · obtain ⟨hsw, htw⟩ := Bool.or_eq_false_iff.1 hw
    cases hsr : s.recursive <;> cases htr : t.recursive <;>
      simp only [ownDemand, hsw, htw, hsr, htr, Bool.or_true, Bool.or_false, Bool.false_eq_true,
        if_true, if_false]
    · exact (max_self _).symm
    · unfold mergeLimit
      rw [hsr]
      exact (max_eq_right (Demand.rows_lt_again _).le).symm
    · exact (max_eq_left (Demand.rows_lt_again _).le).symm
    · exact again_mergeLimit hsr t.limit

/-- A merge asks for the larger of two demands, at every path. -/
theorem demand_merge {m : Selection} (hs : s.WellFormed) (ht : t.WellFormed)
    (hname : s.name = t.name) (h : s.merge t = .ok m) (path : Path) :
    m.demand path = max (s.demand path) (t.demand path) := by
  induction path generalizing s t m with
  | nil => exact ownDemand_merge h
  | cons name path ih =>
    obtain ⟨merged, hmerged, ⟨hw, rfl⟩ | ⟨hw, rfl, -⟩⟩ := merge_eq_ok h
    · -- below a `*` of either there is a `*` of the merge
      rw [demand_cons_of_wildcard (show s.everything.wildcard = true from rfl)]
      rcases Bool.or_eq_true_iff.1 hw with hw | hw
      · rw [demand_cons_of_wildcard hw]
        exact (max_eq_left (Demand.le_beyond _)).symm
      · rw [demand_cons_of_wildcard hw]
        exact (max_eq_right (Demand.le_beyond _)).symm
    · obtain ⟨hsw, htw⟩ := Bool.or_eq_false_iff.1 hw
      rw [demand_cons rfl, demand_cons hsw, demand_cons htw]
      have hjoins : Joins (s.child? name) (t.child? name) (find? merged name) :=
        joins_mergeAll hs.coherent.distinct ht.coherent.distinct ht.coherent.named hmerged name
      simp only [child?] at hjoins ⊢
      generalize hsc : find? s.children name = a at hjoins ⊢
      generalize htc : find? t.children name = b at hjoins ⊢
      generalize find? merged name = out at hjoins ⊢
      cases hjoins with
      | neither => exact (max_self _).symm
      | left a => exact (max_eq_left (Demand.nothing_le _)).symm
      | right b => exact (max_eq_right (Demand.nothing_le _)).symm
      | both hnode =>
        obtain ⟨hac, han⟩ := child?_eq_some hsc
        obtain ⟨hbc, hbn⟩ := child?_eq_some htc
        exact ih (hs.of_mem hac) (ht.of_mem hbc) (han.trans hbn.symm) hnode

end Prefetch.Selection
