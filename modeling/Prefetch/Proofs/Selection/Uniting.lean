import Prefetch.Proofs.Selection.Demand

/-!
# Uniting — several selections merged into one

Merging several selections, one after the other, asks at every path for the most that any of them
asks for.  Which of them comes first makes no difference to that; it only decides about the order of
siblings.  Without a `*` it does not even decide about success: a merge is refused where one
selection is recursive and another goes on, and nothing that comes later can absorb this.

* `asksMost_foldlM` — what selections ask for when they have been merged.
* `exists_foldlM_iff` — without a `*`, selections can be merged exactly when they agree in pairs.
* `unites_of_asksMost` — the same said of nodes, their marks and bounds.
* `foldlM_merge_perm` — the order in which selections are merged.
-/

namespace Prefetch.Selection

variable {s t m : Selection} {ss ts : List Selection} {path : Path}

/-! ### What is asked for -/

/-- At every path a selection asks for the most that some selections ask for. -/
def AsksMost (m : Selection) (ss : List Selection) : Prop :=
  ∀ path, IsGreatest {d | ∃ s ∈ ss, s.demand path = d} (m.demand path)

theorem AsksMost.perm (h : AsksMost m ss) (hp : ss.Perm ts) : AsksMost m ts := by
  intro path
  have hset : {d | ∃ s ∈ ts, s.demand path = d} = {d | ∃ s ∈ ss, s.demand path = d} := by
    ext d
    exact exists_congr fun s => and_congr_left fun _ => hp.mem_iff.symm
  rw [hset]
  exact h path

/-- Whoever asks for the most asks for no less than anyone. -/
theorem AsksMost.le (h : AsksMost m ss) (hs : s ∈ ss) (path : Path) :
    s.demand path ≤ m.demand path :=
  (h path).2 ⟨s, hs, rfl⟩

/-- What is asked for most someone asks for. -/
theorem AsksMost.exists_eq (h : AsksMost m ss) (path : Path) :
    ∃ s ∈ ss, s.demand path = m.demand path :=
  (h path).1

theorem foldlM_merge_cons_eq_ok {a : Selection} :
    (s :: ss).foldlM merge a = .ok m ↔ ∃ b, a.merge s = .ok b ∧ ss.foldlM merge b = .ok m := by
  rw [List.foldlM_cons]
  cases h : a.merge s with
  | error fault => simp [bind, Except.bind]
  | ok b => simp [bind, Except.bind]

/-- What selections ask for when they have been merged into a first one. -/
theorem asksMost_foldlM {a : Selection} (ha : a.WellFormed)
    (hss : ∀ s ∈ ss, s.WellFormed ∧ s.name = a.name) (h : ss.foldlM merge a = .ok m) :
    m.WellFormed ∧ m.name = a.name ∧ AsksMost m (a :: ss) := by
  induction ss generalizing a with
  | nil =>
    obtain rfl := Except.ok.inj h
    refine ⟨ha, rfl, fun path => ⟨⟨a, List.mem_cons_self, rfl⟩, ?_⟩⟩
    rintro d ⟨s, hs, rfl⟩
    rw [List.mem_singleton.1 hs]
  | cons s ss ih =>
    obtain ⟨⟨hs, hname⟩, hss⟩ := List.forall_mem_cons.1 hss
    obtain ⟨b, hb, h⟩ := foldlM_merge_cons_eq_ok.1 h
    have hbname := name_merge hb
    obtain ⟨hm, hmname, hmost⟩ := ih (wellFormed_merge ha hs hname.trans hb)
      (fun t ht => ⟨(hss t ht).1, (hss t ht).2.trans hbname.symm⟩) h
    refine ⟨hm, hmname.trans hbname, fun path => ⟨?_, ?_⟩⟩
    · obtain ⟨t, ht, heq⟩ := hmost.exists_eq path
      rcases List.mem_cons.1 ht with rfl | ht
      · rw [demand_merge ha hs hname.symm hb] at heq
        rcases max_choice (a.demand path) (s.demand path) with hmax | hmax
        · exact ⟨a, List.mem_cons_self, hmax.symm.trans heq⟩
        · exact ⟨s, List.mem_cons_of_mem a List.mem_cons_self, hmax.symm.trans heq⟩
      · exact ⟨t, List.mem_cons_of_mem a (List.mem_cons_of_mem s ht), heq⟩
    · rintro d ⟨t, ht, rfl⟩
      have hle := hmost.le List.mem_cons_self path
      rw [demand_merge ha hs hname.symm hb] at hle
      rcases List.mem_cons.1 ht with rfl | ht
      · exact le_trans (le_max_left _ _) hle
      · rcases List.mem_cons.1 ht with rfl | ht
        · exact le_trans (le_max_right _ _) hle
        · exact hmost.le (List.mem_cons_of_mem b ht) path

/-! ### When selections can be merged -/

/-- No node of a selection is a `*`. -/
def Starless (s : Selection) : Prop :=
  Everywhere (fun node => node.wildcard = false) s

/-- Where the first selection is recursive, the second does not go on. -/
def Agrees (s t : Selection) : Prop :=
  ∀ path limit name, s.demand path = .again limit → t.demand (path ++ [name]) = .nothing

theorem Starless.demand_lt (h : s.Starless) (hs : s.WellFormed) (path : Path) :
    s.demand path < .everything := by
  have hw : s.wildcard = false := h.here
  induction path generalizing s with
  | nil =>
    refine lt_of_le_of_ne (ownDemand_le_everything s) fun he => ?_
    rw [ownDemand_eq_everything_iff.1 he] at hw
    cases hw
  | cons name path ih =>
    obtain ⟨c, hc, -, hdemand⟩ | ⟨-, hdemand⟩ := demand_cons_cases hs.coherent hw name
    · rw [hdemand]
      exact ih (h.of_mem hc) (hs.of_mem hc) (h.of_mem hc).here
    · rw [hdemand]
      exact lt_of_lt_of_le (nothing_lt_ownDemand s) (ownDemand_le_everything s)

theorem wildcard_eq_false_of_demand_lt (h : s.demand [] < .everything) : s.wildcard = false := by
  cases hw : s.wildcard with
  | false => rfl
  | true =>
    rw [demand, ownDemand_eq_everything_iff.2 hw] at h
    exact absurd h (lt_irrefl _)

/-- Siblings can be merged when those of one name can. -/
theorem exists_mergeAll {siblings others : List Selection} (ho : Distinct others)
    (hnamed : ∀ c ∈ others, c.name ≠ none)
    (h : ∀ c ∈ others, ∀ known ∈ siblings, known.name = some c.label →
      ∃ node, known.merge c = .ok node) : ∃ merged, mergeAll siblings others = .ok merged := by
  induction others generalizing siblings with
  | nil => exact ⟨siblings, by rw [mergeAll]⟩
  | cons c cs ih =>
    obtain ⟨hcn, hnamed⟩ := List.forall_mem_cons.1 hnamed
    obtain ⟨hc, h⟩ := List.forall_mem_cons.1 h
    have hcs := distinct_append.1 (show Distinct ([c] ++ cs) from ho)
    -- what has the name of the first does not meet the others
    have hapart : ∀ d ∈ cs, ∀ {e : Selection}, e.name = some c.label → e.name ≠ some d.label := by
      intro d hd e he hed
      refine hcs.2.2 c List.mem_cons_self d hd ?_
      rw [name_eq_label hcn, name_eq_label (hnamed d hd), ← he, hed]
    rw [mergeAll]
    split
    · refine ih hcs.2.1 hnamed fun d hd known hknown hname => ?_
      rcases List.mem_append.1 hknown with hknown | hknown
      · exact h d hd known hknown hname
      · rw [List.mem_singleton.1 hknown] at hname
        exact absurd hname (hapart d hd (name_eq_label hcn))
    · rename_i known hfind
      obtain ⟨hname, front, back, rfl, hreplace⟩ := exists_replace hfind
      obtain ⟨node, hnode⟩ :=
        hc known (List.mem_append_right front List.mem_cons_self) hname
      simp only [hnode, hreplace]
      refine ih hcs.2.1 hnamed fun d hd e he hed => ?_
      rcases List.mem_append.1 he with he | he
      · exact h d hd e (List.mem_append_left _ he) hed
      · rcases List.mem_cons.1 he with rfl | he
        · exact absurd hed (hapart d hd ((name_merge hnode).trans hname))
        · exact h d hd e (List.mem_append_right front (List.mem_cons_of_mem known he)) hed

theorem exists_merge_of_mergeAll {merged : List Selection}
    (h : mergeAll s.children t.children = .ok merged) (hsw : s.wildcard = false)
    (htw : t.wildcard = false) (hleaf : (s.recursive || t.recursive) = true → merged = []) :
    ∃ m, s.merge t = .ok m := by
  obtain ⟨_, children, recursive, limit, wildcard⟩ := t
  simp only at h htw hleaf
  subst htw
  rw [merge, h]
  simp only [settle, mergeMarks, hsw, Bool.or_false, Bool.false_eq_true, if_false]
  split
  · rename_i hr
    simp only [Bool.and_eq_true, Bool.not_eq_true'] at hr
    rw [hleaf hr.1] at hr
    cases hr.2
  · exact ⟨_, rfl⟩

theorem children_of_agrees (ht : t.WellFormed) (htw : t.wildcard = false) (hsw : s.wildcard = false)
    (hr : s.recursive = true) (h : Agrees s t) : t.children = [] := by
  refine List.eq_nil_iff_forall_not_mem.2 fun c hc => ?_
  have hnone := h [] s.limit c.label (ownDemand_eq_again_iff.2 ⟨hsw, hr, rfl⟩)
  rw [List.nil_append, demand_cons_of_mem ht.coherent htw hc] at hnone
  exact absurd hnone (nothing_lt_ownDemand c).ne'

/-- Two selections without a `*` that agree with each other can be merged. -/
theorem exists_merge (hs : s.WellFormed) (ht : t.WellFormed)
    (hstar : ∀ path, s.demand path < .everything) (hstar' : ∀ path, t.demand path < .everything)
    (h : Agrees s t) (h' : Agrees t s) : ∃ m, s.merge t = .ok m := by
  induction t using Selection.induction generalizing s with
  | node t ih =>
    have hsw := wildcard_eq_false_of_demand_lt (hstar [])
    have htw := wildcard_eq_false_of_demand_lt (hstar' [])
    obtain ⟨merged, hmerged⟩ : ∃ merged, mergeAll s.children t.children = .ok merged := by
      refine exists_mergeAll ht.coherent.distinct ht.coherent.named fun c hc known hk hname => ?_
      have hlabel : known.label = c.label := label_of_name hname
      have hkd : ∀ path, known.demand path = s.demand (c.label :: path) := fun path => by
        rw [← hlabel, demand_cons_of_mem hs.coherent hsw hk]
      have hcd : ∀ path, c.demand path = t.demand (c.label :: path) := fun path => by
        rw [demand_cons_of_mem ht.coherent htw hc]
      refine ih c hc (hs.of_mem hk) (ht.of_mem hc) (fun path => hkd path ▸ hstar _)
        (fun path => hcd path ▸ hstar' _) (fun path limit name hagain => ?_)
        fun path limit name hagain => ?_
      · rw [hkd] at hagain
        rw [hcd]
        exact h _ limit name hagain
      · rw [hcd] at hagain
        rw [hkd]
        exact h' _ limit name hagain
    refine exists_merge_of_mergeAll hmerged hsw htw fun hr => ?_
    have hnil : s.children = [] ∧ t.children = [] := by
      rcases Bool.or_eq_true_iff.1 hr with hr | hr
      · exact ⟨hs.coherent.leaf (.inl hr), children_of_agrees ht htw hsw hr h⟩
      · exact ⟨children_of_agrees hs hsw htw hr h', ht.coherent.leaf (.inl hr)⟩
    rw [hnil.1, hnil.2, mergeAll] at hmerged
    exact (Except.ok.inj hmerged).symm

/-- Without a `*`, selections can be merged exactly when they agree in pairs. -/
theorem exists_foldlM_iff {a : Selection} (hw : ∀ s ∈ a :: ss, s.WellFormed ∧ s.name = a.name)
    (hstar : ∀ s ∈ a :: ss, ∀ path, s.demand path < .everything) :
    (∃ m, ss.foldlM merge a = .ok m) ↔ ∀ s ∈ a :: ss, ∀ t ∈ a :: ss, Agrees s t := by
  constructor
  · rintro ⟨m, h⟩ s hs t ht path limit name hagain
    obtain ⟨ha, hss⟩ := List.forall_mem_cons.1 hw
    obtain ⟨hm, -, hmost⟩ := asksMost_foldlM ha.1 hss h
    -- the merge is recursive there too, and so nothing is below
    obtain ⟨u, hu, htop⟩ := hmost.exists_eq path
    have hlt : m.demand path < .everything := htop ▸ hstar u hu path
    have hle : .again limit ≤ m.demand path := hagain ▸ hmost.le hs path
    obtain ⟨limit', hlimit⟩ := Demand.exists_eq_again hle hlt
    have hnone := demand_below_again hm hlimit name
    exact Demand.le_nothing_iff.1 (hnone ▸ hmost.le ht (path ++ [name]))
  · intro h
    induction ss generalizing a with
    | nil => exact ⟨a, rfl⟩
    | cons s ss ih =>
      have hsmem : s ∈ a :: s :: ss := List.mem_cons_of_mem a List.mem_cons_self
      obtain ⟨ha, -⟩ := hw a List.mem_cons_self
      obtain ⟨hs, hname⟩ := hw s hsmem
      obtain ⟨b, hb⟩ := exists_merge ha hs (hstar a List.mem_cons_self) (hstar s hsmem)
        (h a List.mem_cons_self s hsmem) (h s hsmem a List.mem_cons_self)
      have hbname : b.name = a.name := name_merge hb
      have hbdemand := demand_merge ha hs hname.symm hb
      -- at each path the merge asks for what one of the two asks for
      have hof : ∀ t ∈ b :: ss, ∀ path, ∃ u ∈ a :: s :: ss, u.demand path = t.demand path := by
        intro t ht path
        rcases List.mem_cons.1 ht with rfl | ht
        · rw [hbdemand]
          rcases max_choice (a.demand path) (s.demand path) with hmax | hmax
          · exact ⟨a, List.mem_cons_self, hmax.symm⟩
          · exact ⟨s, hsmem, hmax.symm⟩
        · exact ⟨t, List.mem_cons_of_mem a (List.mem_cons_of_mem s ht), rfl⟩
      obtain ⟨m, hm⟩ := ih (a := b)
        (fun t ht => by
          rcases List.mem_cons.1 ht with rfl | ht
          · exact ⟨wellFormed_merge ha hs hname.trans hb, rfl⟩
          · obtain ⟨htw, htn⟩ := hw t (List.mem_cons_of_mem a (List.mem_cons_of_mem s ht))
            exact ⟨htw, htn.trans hbname.symm⟩)
        (fun t ht path => by
          obtain ⟨u, hu, heq⟩ := hof t ht path
          exact heq ▸ hstar u hu path)
        (fun t ht u hu path limit name hagain => by
          obtain ⟨t', ht', heq⟩ := hof t ht path
          obtain ⟨u', hu', hbelow⟩ := hof u hu (path ++ [name])
          rw [← hbelow]
          exact h t' ht' u' hu' path limit name (heq.trans hagain))
      exact ⟨m, foldlM_merge_cons_eq_ok.2 ⟨b, hb, hm⟩⟩

/-! ### The union of selections, node by node -/

/-- A `*` stands at the end of a path or further up. -/
def Covered (s : Selection) (path : Path) : Prop :=
  StarAbove s path ∨ ∃ node, Occurs s path node ∧ node.wildcard = true

/-- The bounds of the recursive nodes that some selections have at a path. -/
def bounds (ss : List Selection) (path : Path) : Set (Option Nat) :=
  {limit | ∃ s ∈ ss, ∃ node, Occurs s path node ∧ node.recursive = true ∧ node.limit = limit}

/-- A selection is the union of others: path by path it has the nodes they have, with the marks they
have, and a `*` stands for all that is below it. -/
structure Unites (ss : List Selection) (m : Selection) : Prop where
  /-- A node stands where one of them has a node and none of them has a `*` further up.  The root
  stands also when there is nothing to unite. -/
  occurs_iff : ∀ path, (∃ node, Occurs m path node) ↔
    (path = [] ∨ ∃ s ∈ ss, ∃ node, Occurs s path node) ∧ ∀ s ∈ ss, ¬ StarAbove s path
  /-- It is a `*` when one of theirs is. -/
  wildcard_iff : ∀ path node, Occurs m path node →
    (node.wildcard = true ↔ ∃ s ∈ ss, ∃ a, Occurs s path a ∧ a.wildcard = true)
  /-- Away from every `*` it is recursive when one of theirs is. -/
  recursive_iff : ∀ path node, (∀ s ∈ ss, ¬ Covered s path) → Occurs m path node →
    (node.recursive = true ↔ (bounds ss path).Nonempty)
  /-- One recursion without a bound leaves the union without one. -/
  limit_none : ∀ path node, (∀ s ∈ ss, ¬ Covered s path) → Occurs m path node →
    none ∈ bounds ss path → node.limit = none
  /-- Otherwise the largest bound is that of the union. -/
  limit_some : ∀ path node, (∀ s ∈ ss, ¬ Covered s path) → Occurs m path node →
    node.recursive = true → none ∉ bounds ss path →
      ∃ most, node.limit = some most ∧ IsGreatest {n | some n ∈ bounds ss path} most

/-- A path is covered by a `*` exactly when everything is asked for at its end, or more. -/
theorem covered_iff (hs : s.WellFormed) : Covered s path ↔ .everything ≤ s.demand path := by
  constructor
  · rintro (habove | ⟨node, hnode, hw⟩)
    · rw [(starAbove_iff hs).1 habove]
      exact Demand.everything_lt_beyond.le
    · rw [demand_of_occurs hs hnode, ownDemand_eq_everything_iff.2 hw]
  · intro hle
    by_cases hb : s.demand path = .beyond
    · exact .inl ((starAbove_iff hs).2 hb)
    · have hpos : Demand.nothing < .everything :=
        (Demand.nothing_lt_again none).trans (Demand.again_lt_everything none)
      obtain ⟨node, hnode⟩ := exists_occurs_of_demand hs (hpos.trans_le hle)
        (lt_of_le_of_ne (Demand.le_beyond _) hb)
      rw [demand_of_occurs hs hnode] at hle
      exact .inr ⟨node, hnode,
        ownDemand_eq_everything_iff.1 (le_antisymm (ownDemand_le_everything node) hle)⟩

theorem mem_bounds_iff (hss : ∀ s ∈ ss, s.WellFormed) {limit : Option Nat} :
    limit ∈ bounds ss path ↔ ∃ s ∈ ss, s.demand path = .again limit := by
  constructor
  · rintro ⟨s, hs, node, hnode, hr, rfl⟩
    have hw : node.wildcard = false := by
      cases hw : node.wildcard with
      | false => rfl
      | true => exact absurd ⟨hr, hw⟩ (hnode.everywhere (hss s hs)).here.oneMark
    exact ⟨s, hs, by rw [demand_of_occurs (hss s hs) hnode, ownDemand_eq_again_iff.2 ⟨hw, hr, rfl⟩]⟩
  · rintro ⟨s, hs, hagain⟩
    have hbelow : s.demand path < .beyond :=
      hagain ▸ (Demand.again_lt_everything limit).trans Demand.everything_lt_beyond
    obtain ⟨node, hnode⟩ := exists_occurs_of_demand (hss s hs)
      (hagain ▸ Demand.nothing_lt_again limit) hbelow
    rw [demand_of_occurs (hss s hs) hnode] at hagain
    obtain ⟨-, hr, hl⟩ := ownDemand_eq_again_iff.1 hagain
    exact ⟨s, hs, node, hnode, hr, hl⟩

/-- The empty selection asks for the rows at hand. -/
theorem nothing_lt_demand_root_iff : .nothing < root.demand path ↔ path = [] := by
  cases path with
  | nil => exact iff_of_true (nothing_lt_ownDemand root) rfl
  | cons name path => exact iff_of_false (lt_irrefl _) nofun

theorem demand_root_le (path : Path) : root.demand path ≤ .rows := by
  cases path with
  | nil => exact le_rfl
  | cons name path => exact Demand.nothing_le _

section Union

variable (hss : ∀ s ∈ ss, s.WellFormed) (h : AsksMost m (root :: ss))
include h

theorem AsksMost.exists_of_rows_lt (hlt : .rows < m.demand path) :
    ∃ s ∈ ss, s.demand path = m.demand path := by
  obtain ⟨s, hs, heq⟩ := h.exists_eq path
  rcases List.mem_cons.1 hs with rfl | hs
  · exact absurd (heq ▸ demand_root_le path) (not_le.2 hlt)
  · exact ⟨s, hs, heq⟩

include hss

theorem AsksMost.demand_lt_beyond_iff :
    m.demand path < .beyond ↔ ∀ s ∈ ss, ¬ StarAbove s path := by
  constructor
  · intro hlt s hs habove
    have hle := h.le (List.mem_cons_of_mem root hs) path
    rw [(starAbove_iff (hss s hs)).1 habove] at hle
    exact absurd hlt (not_lt.2 hle)
  · intro hfree
    refine lt_of_le_of_ne (Demand.le_beyond _) fun hb => ?_
    obtain ⟨s, hs, heq⟩ := h.exists_of_rows_lt
      (hb ▸ Demand.rows_lt_everything.trans Demand.everything_lt_beyond)
    exact hfree s hs ((starAbove_iff (hss s hs)).2 (heq.trans hb))

theorem AsksMost.demand_lt_everything (hfree : ∀ s ∈ ss, ¬ Covered s path) :
    m.demand path < .everything := by
  by_contra hge
  rw [not_lt] at hge
  obtain ⟨s, hs, heq⟩ := h.exists_of_rows_lt (Demand.rows_lt_everything.trans_le hge)
  exact hfree s hs ((covered_iff (hss s hs)).2 (heq ▸ hge))

theorem AsksMost.nothing_lt_demand_iff (hbelow : m.demand path < .beyond) :
    .nothing < m.demand path ↔ path = [] ∨ ∃ s ∈ ss, ∃ node, Occurs s path node := by
  constructor
  · intro hpos
    obtain ⟨s, hs, heq⟩ := h.exists_eq path
    rw [← heq] at hpos hbelow
    rcases List.mem_cons.1 hs with rfl | hs
    · exact .inl (nothing_lt_demand_root_iff.1 hpos)
    · exact .inr ⟨s, hs, exists_occurs_of_demand (hss s hs) hpos hbelow⟩
  · rintro (rfl | ⟨s, hs, hnode⟩)
    · exact nothing_lt_ownDemand m
    · exact ((exists_occurs_iff (hss s hs)).1 hnode).1.trans_le
        (h.le (List.mem_cons_of_mem root hs) path)

variable {node : Selection} (hm : m.WellFormed) (hnode : Occurs m path node)
include hm hnode

theorem AsksMost.wildcard_iff :
    node.wildcard = true ↔ ∃ s ∈ ss, ∃ a, Occurs s path a ∧ a.wildcard = true := by
  have hd := demand_of_occurs hm hnode
  constructor
  · intro hw
    rw [ownDemand_eq_everything_iff.2 hw] at hd
    obtain ⟨s, hs, heq⟩ := h.exists_of_rows_lt (hd ▸ Demand.rows_lt_everything)
    have hbelow : s.demand path < .beyond := heq ▸ hd ▸ Demand.everything_lt_beyond
    have hpos : .nothing < s.demand path := heq ▸ hd ▸ Demand.nothing_lt_everything
    obtain ⟨a, ha⟩ := exists_occurs_of_demand (hss s hs) hpos hbelow
    rw [hd, demand_of_occurs (hss s hs) ha] at heq
    exact ⟨s, hs, a, ha, ownDemand_eq_everything_iff.1 heq⟩
  · rintro ⟨s, hs, a, ha, hw⟩
    have hle := h.le (List.mem_cons_of_mem root hs) path
    rw [hd, demand_of_occurs (hss s hs) ha, ownDemand_eq_everything_iff.2 hw] at hle
    exact ownDemand_eq_everything_iff.1 (le_antisymm (ownDemand_le_everything node) hle)

/-- Away from every `*`, one of the recursions of the others has the bound of the union. -/
theorem AsksMost.limit_mem_bounds (hfree : ∀ s ∈ ss, ¬ Covered s path)
    (hr : node.recursive = true) : node.limit ∈ bounds ss path := by
  have hd := demand_of_occurs hm hnode
  have hlt := hd ▸ h.demand_lt_everything hss hfree
  rw [ownDemand_eq_again_iff.2 ⟨wildcard_eq_false_of_demand_lt hlt, hr, rfl⟩] at hd
  obtain ⟨s, hs, heq⟩ := h.exists_of_rows_lt (hd ▸ Demand.rows_lt_again node.limit)
  exact (mem_bounds_iff hss).2 ⟨s, hs, heq.trans hd⟩

/-- Away from every `*`, the union is recursive where one of the others is, and its bound is no less
than theirs. -/
theorem AsksMost.recursive_of_mem_bounds (hfree : ∀ s ∈ ss, ¬ Covered s path) {limit : Option Nat}
    (hl : limit ∈ bounds ss path) :
    node.recursive = true ∧ Demand.size limit ≤ Demand.size node.limit := by
  obtain ⟨s, hs, hagain⟩ := (mem_bounds_iff hss).1 hl
  have hle := hagain ▸ h.le (List.mem_cons_of_mem root hs) path
  obtain ⟨limit', hlimit⟩ := Demand.exists_eq_again hle (h.demand_lt_everything hss hfree)
  rw [hlimit] at hle
  rw [demand_of_occurs hm hnode] at hlimit
  obtain ⟨-, hr, rfl⟩ := ownDemand_eq_again_iff.1 hlimit
  exact ⟨hr, Demand.again_le_again.1 hle⟩

end Union

/-- What asks for the most that the empty selection and others ask for is the union of these
others. -/
theorem unites_of_asksMost (hm : m.WellFormed) (hss : ∀ s ∈ ss, s.WellFormed)
    (h : AsksMost m (root :: ss)) : Unites ss m where
  occurs_iff path := by
    rw [exists_occurs_iff hm, h.demand_lt_beyond_iff hss]
    exact and_congr_left fun hfree =>
      h.nothing_lt_demand_iff hss ((h.demand_lt_beyond_iff hss).2 hfree)
  wildcard_iff path node hnode := h.wildcard_iff hss hm hnode
  recursive_iff path node hfree hnode :=
    ⟨fun hr => ⟨node.limit, h.limit_mem_bounds hss hm hnode hfree hr⟩,
      fun ⟨_, hl⟩ => (h.recursive_of_mem_bounds hss hm hnode hfree hl).1⟩
  limit_none path node hfree hnode hnone := by
    have hle := (h.recursive_of_mem_bounds hss hm hnode hfree hnone).2
    exact Demand.size_injective (top_le_iff.1 hle)
  limit_some path node hfree hnode hr hnone := by
    have hmem := h.limit_mem_bounds hss hm hnode hfree hr
    obtain ⟨most, hmost⟩ := Option.ne_none_iff_exists'.1 fun hl => hnone (hl ▸ hmem)
    rw [hmost] at hmem
    refine ⟨most, hmost, hmem, fun n hn => ?_⟩
    have hle := (h.recursive_of_mem_bounds hss hm hnode hfree hn).2
    rw [hmost] at hle
    exact Nat.cast_le.1 hle

/-! ### The order of merging -/

/-- The order in which selections are merged into the empty one makes no difference: the results are
the same up to the order of siblings, and without a `*` either order succeeds when the other does.
The empty selection, and a selection itself, add nothing to it.  Whatever comes out is the union. -/
theorem foldlM_merge_perm (hss : ∀ s ∈ ss, s.WellFormed ∧ s.name = none) (hp : ss.Perm ts) :
    (∀ m m', ss.foldlM merge root = .ok m → ts.foldlM merge root = .ok m' → (m == m') = true) ∧
      ((∀ s ∈ ss, s.Starless) →
        ((∃ m, ss.foldlM merge root = .ok m) ↔ ∃ m, ts.foldlM merge root = .ok m)) ∧
      (∀ s ∈ ss, s.merge root = .ok s ∧ root.merge s = .ok s ∧ s.merge s = .ok s) ∧
      ∀ m, ss.foldlM merge root = .ok m → Unites ss m := by
  have hts : ∀ s ∈ ts, s.WellFormed ∧ s.name = none := fun s hs => hss s (hp.mem_iff.2 hs)
  refine ⟨fun m m' hm hm' => ?_, fun hstar => ?_, fun s hs => ?_, fun m hm => ?_⟩
  · obtain ⟨hmw, hmname, hmost⟩ := asksMost_foldlM wellFormed_root hss hm
    obtain ⟨hmw', hmname', hmost'⟩ := asksMost_foldlM wellFormed_root hts hm'
    refine same_of_demand hmw hmw' (hmname.trans hmname'.symm) fun path => ?_
    exact ((hmost.perm (hp.cons root)) path).unique (hmost' path)
  · have hw : ∀ s ∈ root :: ss, s.WellFormed ∧ s.name = root.name :=
      List.forall_mem_cons.2 ⟨⟨wellFormed_root, rfl⟩, hss⟩
    have hlt : ∀ s ∈ root :: ss, ∀ path, s.demand path < .everything := by
      refine List.forall_mem_cons.2
        ⟨fun path => ?_, fun s hs => (hstar s hs).demand_lt (hss s hs).1⟩
      exact (demand_root_le path).trans_lt Demand.rows_lt_everything
    have hmem : ∀ s, s ∈ root :: ss ↔ s ∈ root :: ts := fun s => (hp.cons root).mem_iff
    rw [exists_foldlM_iff hw hlt, exists_foldlM_iff (fun s hs => hw s ((hmem s).2 hs))
      (fun s hs => hlt s ((hmem s).2 hs))]
    simp only [hmem]
  · obtain ⟨hw, hname⟩ := hss s hs
    exact ⟨merge_root_right (settle_of_coherent hw.coherent), merge_root_left hw hname,
      merge_self hw⟩
  · obtain ⟨hmw, -, hmost⟩ := asksMost_foldlM wellFormed_root hss hm
    exact unites_of_asksMost hmw (fun s hs => (hss s hs).1) hmost

/-- Two selections that bound one relation differently and go on below another. -/
theorem foldlM_merge_perm_two :
    let a : Selection :=
      { children := [(named "a").follow (some 2), { named "b" with children := [named "c"] }] }
    let b : Selection :=
      { children := [{ named "b" with children := [named "d"] }, (named "a").follow (some 3)] }
    let m : Selection :=
      { children := [(named "a").follow (some 3),
        { named "b" with children := [named "c", named "d"] }] }
    [a, b].foldlM merge root = .ok m ∧ Unites [a, b] m ∧ a.merge a = .ok a ∧
      ∃ m', [b, a].foldlM merge root = .ok m' ∧ (m == m') = true := by
  intro a b m
  have ha : parse "[a.^2, b.c]" = .ok a := by rfl
  have hb : parse "[b.d, a.^3]" = .ok b := by rfl
  have hss : ∀ s ∈ [a, b], s.WellFormed ∧ s.name = none :=
    List.forall_mem_cons.2 ⟨⟨(writable_of_parse ha).wellFormed, rfl⟩,
      List.forall_mem_singleton.2 ⟨(writable_of_parse hb).wellFormed, rfl⟩⟩
  have hrec : ∀ limit, Starless ((named "a").follow limit) := fun _ => .intro rfl nofun
  have hnested : ∀ name, Starless { named "b" with children := [named name] } := fun name =>
    .intro rfl (List.forall_mem_singleton.2 (.intro rfl nofun))
  have hstar : ∀ s ∈ [a, b], s.Starless :=
    List.forall_mem_cons.2 ⟨.intro rfl (List.forall_mem_cons.2 ⟨hrec _,
      List.forall_mem_singleton.2 (hnested "c")⟩), List.forall_mem_singleton.2
        (.intro rfl (List.forall_mem_cons.2 ⟨hnested "d", List.forall_mem_singleton.2 (hrec _)⟩))⟩
  have hm : [a, b].foldlM merge root = .ok m := by rfl
  obtain ⟨hsame, hboth, hself, hunion⟩ := foldlM_merge_perm hss (List.Perm.swap b a [])
  obtain ⟨m', hm'⟩ := (hboth hstar).1 ⟨m, hm⟩
  exact ⟨hm, hunion m hm, (hself a List.mem_cons_self).2.2, m', hm', hsame m m' hm hm'⟩

end Prefetch.Selection
