import Prefetch.Proofs.Load.Shifting
import Prefetch.Proofs.Plan.Tasks

/-!
# Chains — the plan for what is selected at the end of a path

A path of relations takes one level, and one step, for each of its relations.  These steps do not
depend on what is selected at the end of the path.  So a marked node at the end, and the same node
without marks above what its marks ask for next, have plans that begin alike; and the steps that the
second plan has at the end are those that the marked step grows.

* `along` — some nodes at the end of a path.
* `resolveLevels_along` — two selections at the end of one path.
* `shifted_of_wanted` — what a step grows, and the steps of what its node asks for next.
* `exists_unrolls` — the plans for a node at the end of a path and for the node spelled out.
-/

namespace Prefetch

namespace Selection

/-- Some nodes at the end of a path of relations. -/
def along : Path → List Selection → List Selection
  | [], nodes => nodes
  | name :: path, nodes => [{ name := some name, children := along path nodes }]

theorem along_append (path path' : Path) (nodes : List Selection) :
    along (path ++ path') nodes = along path (along path' nodes) := by
  induction path with
  | nil => rfl
  | cons name path ih => rw [List.cons_append, along, along, ih]

theorem sizeOfAll_along (path : Path) (nodes : List Selection) :
    sizeOfAll (along path nodes) = path.length + sizeOfAll nodes := by
  induction path with
  | nil => exact (Nat.zero_add _).symm
  | cons name path ih =>
    rw [along, sizeOfAll, size, ih, sizeOfAll, List.length_cons]
    omega

theorem sizeOfAll_leaves {nodes : List Selection} (h : ∀ node ∈ nodes, node.children = []) :
    sizeOfAll nodes = nodes.length := by
  induction nodes with
  | nil => rfl
  | cons node nodes ih =>
    have hsize : node.size = 0 := by
      rw [← Plan.sizeOfAll_children, h node List.mem_cons_self, sizeOfAll]
    rw [sizeOfAll, hsize, ih fun n hn => h n (List.mem_cons_of_mem node hn), List.length_cons]
    omega

/-- What a node without children asks for next has no children either. -/
theorem children_of_mem_wanted {schema : Schema} {model : String} {s node : Selection}
    (h : s.children = []) (hnode : node ∈ s.wanted schema model) : node.children = [] := by
  unfold wanted at hnode
  split at hnode
  · obtain ⟨name, -, rfl⟩ := List.mem_map.1 hnode
    rfl
  · split at hnode
    · split at hnode
      · obtain rfl := List.mem_singleton.1 hnode
        exact h
      · split at hnode
        · cases hnode
        · obtain rfl := List.mem_singleton.1 hnode
          exact h
    · rw [h] at hnode
      cases hnode

end Selection

/-- The model that a path of relations leads to. -/
def Schema.modelAlong (schema : Schema) : String → Path → Option String
  | model, [] => some model
  | model, name :: path =>
    match schema.lookup model name with
    | none => none
    | some a => modelAlong schema a.target path

theorem Schema.modelAlong_append {schema : Schema} {model owner name : String} {path : Path}
    {a : Association} (h : schema.modelAlong model path = some owner)
    (ha : schema.lookup owner name = some a) :
    schema.modelAlong model (path ++ [name]) = some a.target := by
  induction path generalizing model with
  | nil =>
    obtain rfl := Option.some.inj h
    rw [List.nil_append, modelAlong, ha]
    rfl
  | cons first path ih =>
    rw [modelAlong] at h
    rw [List.cons_append, modelAlong]
    split at h
    · cases h
    · exact ih h

namespace Plan

/-- Some nodes that are to be resolved below one step, or onto the base rows. -/
def pendingAll (parent : Option Nat) (owner : String) (above : Path) (nodes : List Selection) :
    List Pending :=
  nodes.map fun node => ⟨node, parent, owner, above⟩

variable {schema : Schema} {levels levels' index : Nat} {parent : Option Nat} {owner : String}
  {above path : Path} {nodes nodes' : List Selection} {steps steps' : List Step}

/-! ### Levels -/

theorem resolveLevels_nil (schema : Schema) (levels index : Nat) :
    resolveLevels schema levels index [] = .ok [] := by
  induction levels generalizing index with
  | zero => rfl
  | succ levels ih =>
    rw [resolveLevels, resolveLevel]
    simp only [ih]
    rfl

theorem resolveLevel_leaves {pending below : List Pending}
    (h : ∀ p ∈ pending, p.node.children = [])
    (hok : resolveLevel schema index pending = .ok (steps, below)) : below = [] := by
  induction pending generalizing index steps below with
  | nil => exact (Prod.mk.inj (Except.ok.inj hok)).2.symm
  | cons p pending ih =>
    obtain ⟨s, rest, belowRest, -, hrest, -, rfl⟩ := resolveLevel_cons_eq_ok hok
    rw [ih (fun q hq => h q (List.mem_cons_of_mem p hq)) hrest, pendingBelow,
      h p List.mem_cons_self]
    rfl

/-- Nodes that have nothing below them take one level. -/
theorem resolveLevels_leaves {pending : List Pending} (h : ∀ p ∈ pending, p.node.children = [])
    (hlevels : pending.length ≤ levels)
    (hok : resolveLevels schema levels index pending = .ok steps) :
    resolveLevel schema index pending = .ok (steps, []) := by
  cases levels with
  | zero =>
    obtain rfl := List.length_eq_zero_iff.1 (Nat.le_zero.1 hlevels)
    obtain rfl := Except.ok.inj hok
    rfl
  | succ levels =>
    obtain ⟨level, below, rest, hlevel, hrest, rfl⟩ := resolveLevels_succ_eq_ok hok
    obtain rfl := resolveLevel_leaves h hlevel
    rw [resolveLevels_nil] at hrest
    obtain rfl := Except.ok.inj hrest
    rw [List.append_nil]
    exact hlevel

theorem parent_of_resolveLevel {below : List Pending}
    (h : resolveLevel schema index (pendingAll parent owner above nodes) = .ok (steps, below)) :
    ∀ s ∈ steps, s.parent = parent := by
  induction nodes generalizing index steps below with
  | nil =>
    obtain ⟨rfl, -⟩ := Prod.mk.inj (Except.ok.inj h)
    exact nofun
  | cons node nodes ih =>
    obtain ⟨s, rest, belowRest, hs, hrest, rfl, -⟩ := resolveLevel_cons_eq_ok h
    exact List.forall_mem_cons.2 ⟨(resolveNode_eq_ok hs).2.parent, ih hrest⟩

/-- One node takes a level of its own. -/
theorem resolveLevels_single {p : Pending}
    (h : resolveLevels schema (levels + 1) index [p] = .ok steps) :
    ∃ s rest, resolveNode schema index p = .ok s ∧
      resolveLevels schema levels (index + 1) (pendingBelow s p.node) = .ok rest ∧
      steps = s :: rest := by
  obtain ⟨level, below, rest, hlevel, hrest, rfl⟩ := resolveLevels_succ_eq_ok h
  obtain ⟨s, others, belowOthers, hs, hothers, rfl, rfl⟩ := resolveLevel_cons_eq_ok hlevel
  obtain ⟨rfl, rfl⟩ := Prod.mk.inj (Except.ok.inj hothers)
  rw [List.append_nil] at hrest
  exact ⟨s, rest, hs, hrest, rfl⟩

/-- What the step of a node fetches. -/
theorem Resolves.bare_eq {p : Pending} {s : Step} (h : Resolves schema p s) {a : Association}
    (ha : schema.lookup p.owner p.node.label = some a) :
    s.bare = ⟨s.index, p.parent, p.path ++ [p.node.label], p.owner, a, p.path.length + 1, .none⟩ := by
  have hassociation : s.association = a := Option.some.inj (h.declared.symm.trans ha)
  rw [Step.bare, h.parent, h.path, h.owner, h.depth, hassociation]

/-- The steps of two nodes of one name in the same place fetch the same. -/
theorem bare_of_resolveNode {node node' : Selection} {s s' : Step}
    (h : resolveNode schema index ⟨node, parent, owner, above⟩ = .ok s)
    (h' : resolveNode schema index ⟨node', parent, owner, above⟩ = .ok s')
    (hlabel : node.label = node'.label) : s.bare = s'.bare := by
  obtain ⟨hindex, hs⟩ := resolveNode_eq_ok h
  obtain ⟨hindex', hs'⟩ := resolveNode_eq_ok h'
  have hlookup : schema.lookup owner node'.label = some s.association := hlabel ▸ hs.declared
  rw [hs.bare_eq hs.declared, hs'.bare_eq hlookup, hindex, hindex', hlabel]

/-- The step of a node without marks does not grow. -/
theorem Resolves.growth_eq_none {p : Pending} {s : Step} (h : Resolves schema p s)
    (hw : p.node.wildcard = false) (hr : p.node.recursive = false) : s.growth = .none := by
  rcases h.growth with ⟨hmark, -⟩ | ⟨-, hmark, -⟩ | ⟨-, -, hg⟩
  · cases hw.symm.trans hmark
  · cases hr.symm.trans hmark
  · exact hg

/-! ### Paths -/

/-- Two selections at the end of one path: their plans begin alike, with one step for each relation
of the path, and go on from its last step. -/
theorem resolveLevels_along (path : Path)
    (h : resolveLevels schema (path.length + levels) index
      (pendingAll parent owner above (Selection.along path nodes)) = .ok steps)
    (h' : resolveLevels schema (path.length + levels') index
      (pendingAll parent owner above (Selection.along path nodes')) = .ok steps') :
    ∃ front parent' owner' rest rest', steps = front ++ rest ∧ steps' = front ++ rest' ∧
      front.length = path.length ∧
      (∀ s ∈ front, s.growth = .none ∧ s.depth ≤ above.length + path.length) ∧
      schema.modelAlong owner path = some owner' ∧
      resolveLevels schema levels (index + path.length)
        (pendingAll parent' owner' (above ++ path) nodes) = .ok rest ∧
      resolveLevels schema levels' (index + path.length)
        (pendingAll parent' owner' (above ++ path) nodes') = .ok rest' := by
  induction path generalizing index parent owner above steps steps' with
  | nil =>
    rw [List.length_nil, Nat.zero_add] at h h'
    refine ⟨[], parent, owner, steps, steps', rfl, rfl, rfl, nofun, rfl, ?_, ?_⟩
    · rw [List.append_nil]
      exact h
    · rw [List.append_nil]
      exact h'
  | cons name path ih =>
    rw [List.length_cons, Nat.add_right_comm] at h h'
    obtain ⟨s, rest, hs, hrest, rfl⟩ := resolveLevels_single h
    obtain ⟨s', rest', hs', hrest', rfl⟩ := resolveLevels_single h'
    -- the two nodes have the same name and no marks
    have hbare := bare_of_resolveNode hs' hs rfl
    obtain ⟨-, hs⟩ := resolveNode_eq_ok hs
    obtain ⟨-, hs'⟩ := resolveNode_eq_ok hs'
    have hnone := hs.growth_eq_none rfl rfl
    obtain rfl := Step.eq_of_bare hbare ((hs'.growth_eq_none rfl rfl).trans hnone.symm)
    obtain ⟨front, parent', owner', tail, tail', rfl, rfl, hlength, hfront, hmodel, htail, htail'⟩ :=
      ih hrest hrest'
    have hpath : s'.path ++ path = above ++ name :: path := by
      rw [hs.path, List.append_assoc]
      rfl
    rw [hpath, Nat.add_assoc, Nat.add_comm 1] at htail htail'
    refine ⟨s' :: front, parent', owner', tail, tail', rfl, rfl, ?_, ?_, ?_, htail, htail'⟩
    · rw [List.length_cons, List.length_cons, hlength]
    · intro f hf
      rw [List.length_cons]
      rcases List.mem_cons.1 hf with rfl | hf
      · have hdepth := hs.depth
        exact ⟨hnone, by simp only at hdepth; omega⟩
      · obtain ⟨hgrowth, hdepth⟩ := hfront f hf
        rw [hs.path, List.length_append, List.length_singleton] at hdepth
        exact ⟨hgrowth, by simp only at hdepth; omega⟩
    · rw [Schema.modelAlong, show schema.lookup owner name = some s'.association from hs.declared]
      exact hmodel

/-! ### Nodes spelled out -/

/-- The steps for all relations of a model. -/
theorem resolveLevel_everything (index : Nat) (parent : Option Nat) (above : Path)
    (relations : List (String × Association))
    (h : ∀ r ∈ relations, schema.lookup owner r.1 = some r.2) :
    resolveLevel schema index (pendingAll parent owner above
      (relations.map fun r => (Selection.named r.1).everything)) =
      .ok (relations.mapIdx fun i r =>
        ⟨index + i, parent, above ++ [r.1], owner, r.2, above.length + 1, .everything⟩, []) := by
  induction relations generalizing index with
  | nil => rfl
  | cons r relations ih =>
    have hrest := ih (index + 1) fun r' hr' => h r' (List.mem_cons_of_mem r hr')
    have hindex : ∀ i, index + 1 + i = index + (i + 1) := by omega
    have hnode : resolveNode schema index ⟨(Selection.named r.1).everything, parent, owner, above⟩ =
        .ok ⟨index, parent, above ++ [r.1], owner, r.2, above.length + 1, .everything⟩ := by
      have hrequire : schema.require owner ((Selection.named r.1).everything).label = .ok r.2 :=
        Schema.require_eq_ok.2 (h r List.mem_cons_self)
      unfold resolveNode
      simp only [hrequire]
      rfl
    rw [pendingAll, List.map_cons, List.map_cons, resolveLevel]
    rw [pendingAll] at hrest
    simp only [hnode, hrest, List.mapIdx_cons, Nat.add_zero, hindex]
    rfl

/-- What a recursion grows, and the step of the recursive node one level further down. -/
theorem shifted_of_again {c : Context} {p : Pending} {s : Step} {node : Selection}
    {limit : Option Nat} {more below : List Step} (hs : Resolves c.schema p s)
    (hlabel : node.label = p.node.label) (hwildcard : node.wildcard = false)
    (hrecursive : node.recursive = true)
    (hshift : Growth.Shifts (.again limit 2) (.again node.limit 1))
    (hgrow : c.again s index limit 1 = .ok more)
    (hlevel : resolveLevel c.schema index
      (pendingAll (some s.index) s.association.target s.path [node]) = .ok (below, [])) :
    List.Forall₂ Step.Shifted more below := by
  obtain ⟨a, ha, rfl⟩ := Context.again_eq_ok hgrow
  obtain ⟨kid, rest, belowRest, hkid, hrest, rfl, -⟩ := resolveLevel_cons_eq_ok hlevel
  obtain ⟨rfl, -⟩ := Prod.mk.inj (Except.ok.inj hrest)
  obtain ⟨hindex, hkid⟩ := resolveNode_eq_ok hkid
  rw [hs.relation, ← hlabel] at ha
  refine .cons ⟨?_, ?_⟩ .nil
  · rw [hkid.bare_eq ha, hindex, hlabel, hs.path, List.length_append, List.length_singleton]
    simp only [Step.bare, Step.below, hs.relation, hs.path, hs.depth]
  · rcases hkid.growth with ⟨hw, -⟩ | ⟨-, -, hg, -⟩ | ⟨-, hr, -⟩
    · cases hwildcard.symm.trans hw
    · rw [hg]
      exact hshift
    · cases hrecursive.symm.trans hr

/-- What a step grows, and the steps for what its node asks for next. -/
theorem shifted_of_wanted {c : Context} (hschema : c.schema.Registered) {p : Pending} {s : Step}
    {more below : List Step} (hs : Resolves c.schema p s) (hleaf : p.node.children = [])
    (hgrow : c.grow s index = .ok more)
    (hlevel : resolveLevel c.schema index (pendingAll (some s.index) s.association.target s.path
      (p.node.wanted c.schema s.association.target)) = .ok (below, [])) :
    List.Forall₂ Step.Shifted more below := by
  have hlength : s.path.length = s.depth := by
    rw [hs.path, hs.depth, List.length_append, List.length_singleton]
  unfold Context.grow at hgrow
  unfold Selection.wanted at hlevel
  rcases hs.growth with ⟨hw, hg⟩ | ⟨hw, hr, hg, -⟩ | ⟨hw, hr, hg⟩
  · -- every relation of the model
    rw [hw, if_pos rfl, Schema.namesOf, List.map_map] at hlevel
    have hall := resolveLevel_everything index (some s.index) s.path
      (c.schema.relationsOf s.association.target) fun r => hschema.lookup_of_mem_relationsOf
    obtain ⟨rfl, -⟩ := Prod.mk.inj (Except.ok.inj (hlevel.symm.trans hall))
    simp only [hg] at hgrow
    split at hgrow
    · rename_i hnone
      obtain rfl := Except.ok.inj hgrow
      rw [hnone]
      exact .nil
    · split at hgrow
      · cases hgrow
      · obtain rfl := Except.ok.inj hgrow
        rw [hlength]
        exact List.forall₂_same.2 fun step _ => .refl step
  · -- the relation once more
    rw [hw, hr] at hlevel
    simp only [Bool.false_eq_true, if_false, if_true] at hlevel
    simp only [hg] at hgrow
    cases hlimit : p.node.limit with
    | none =>
      simp only [hlimit] at hgrow hlevel
      split at hgrow
      · cases hgrow
      · refine shifted_of_again hs rfl hw hr ?_ hgrow hlevel
        rw [hlimit]
        exact .endless 1
    | some most =>
      simp only [hlimit] at hgrow hlevel
      by_cases hmost : most ≤ 1
      · rw [if_pos hmost] at hgrow hlevel
        obtain rfl := Except.ok.inj hgrow
        obtain ⟨rfl, -⟩ := Prod.mk.inj (Except.ok.inj hlevel)
        exact .nil
      · rw [if_neg hmost] at hgrow hlevel
        obtain ⟨fewer, rfl⟩ : ∃ fewer, most = fewer + 1 := ⟨most - 1, by omega⟩
        refine shifted_of_again hs ?_ ?_ ?_ ?_ hgrow hlevel
        · rfl
        · exact hw
        · rfl
        · exact .bounded fewer 1
  · -- nothing
    rw [hw, hr, hleaf] at hlevel
    simp only [hg] at hgrow
    obtain rfl := Except.ok.inj hgrow
    obtain ⟨rfl, -⟩ := Prod.mk.inj (Except.ok.inj hlevel)
    exact .nil

/-- All that the marks of a node ask for is one level. -/
theorem resolveLevel_wanted {node : Selection} (hleaf : node.children = [])
    (h : resolveLevels schema (Selection.sizeOfAll (node.wanted schema owner)) index
      (pendingAll parent owner above (node.wanted schema owner)) = .ok steps) :
    resolveLevel schema index (pendingAll parent owner above (node.wanted schema owner)) =
      .ok (steps, []) := by
  have hkids : ∀ kid ∈ node.wanted schema owner, kid.children = [] :=
    fun kid => Selection.children_of_mem_wanted hleaf
  refine resolveLevels_leaves (fun q hq => ?_) (Nat.le_of_eq ?_) h
  · obtain ⟨kid, hkid, rfl⟩ := List.mem_map.1 hq
    exact hkids kid hkid
  · rw [pendingAll, List.length_map, Selection.sizeOfAll_leaves hkids]

/-- The steps at the end of two plans that begin with the same steps: a step that may grow, and the
same step without growth in front of what it would grow. -/
structure Unrolls (c : Context) (front : List Step) (s : Step) (below : List Step) : Prop where
  plain : ∀ f ∈ front, f.growth = .none
  above : ∀ f ∈ front, f.depth < s.depth
  parent : ∀ e ∈ below, e.parent = some s.index
  grown : ∀ more, c.grow s (front.length + 1) = .ok more → List.Forall₂ Step.Shifted more below

/-- The plans for a node at the end of a path, and for the node without marks above what its marks
ask for next. -/
theorem exists_unrolls {c : Context} (hschema : c.schema.Registered) {settings : Settings}
    {model name : String} {leaf : Selection} {kids : List Selection}
    {allowed allowed' : Option Selection} {p p' : Plan} (hname : leaf.name = some name)
    (hleaf : leaf.children = [])
    (hkids : ∀ target, c.schema.modelAlong model (path ++ [name]) = some target →
      kids = leaf.wanted c.schema target)
    (h : ofSelection c.schema settings model { children := Selection.along path [leaf] } allowed =
      .ok p)
    (h' : ofSelection c.schema settings model
      { children := Selection.along (path ++ [name]) kids } allowed' = .ok p') :
    ∃ front s below, p.steps = front ++ [s] ∧ p'.steps = front ++ s.bare :: below ∧
      Unrolls c front s below := by
  obtain ⟨-, -, -, -, ⟨hw, -⟩ | ⟨-, hsteps⟩⟩ := ofSelection_eq_ok h
  · cases hw
  obtain ⟨-, -, -, -, ⟨hw, -⟩ | ⟨-, hsteps'⟩⟩ := ofSelection_eq_ok h'
  · cases hw
  have hsize : Selection.size { children := Selection.along path [leaf] } = path.length + 1 := by
    rw [Selection.size, Selection.sizeOfAll_along, Selection.sizeOfAll_leaves]
    · rfl
    · intro node hnode
      rw [List.mem_singleton.1 hnode, hleaf]
  have hsize' : Selection.size { children := Selection.along (path ++ [name]) kids } =
      path.length + (Selection.sizeOfAll kids + 1) := by
    rw [Selection.size, Selection.sizeOfAll_along, List.length_append, List.length_singleton]
    omega
  rw [hsize] at hsteps
  rw [hsize', Selection.along_append] at hsteps'
  obtain ⟨front, parent, owner, rest, rest', hp, hp', hlength, hfront, hmodel, hrest, hrest'⟩ :=
    resolveLevels_along path hsteps hsteps'
  obtain ⟨s, none, hs, hnone, rfl⟩ := resolveLevels_single hrest
  obtain rfl := Except.ok.inj hnone
  obtain ⟨s', below, hs', hbelow, rfl⟩ := resolveLevels_single hrest'
  have hlabel : leaf.label = name := by rw [Selection.label, hname]; rfl
  have hbare := bare_of_resolveNode hs' hs hlabel.symm
  obtain ⟨-, hs⟩ := resolveNode_eq_ok hs
  obtain ⟨-, hs'⟩ := resolveNode_eq_ok hs'
  have hlookup : c.schema.lookup owner name = some s.association := hlabel ▸ hs.declared
  obtain rfl : s' = s.bare := Step.eq_of_bare hbare (hs'.growth_eq_none rfl rfl)
  have hwanted := hkids s.association.target (Schema.modelAlong_append hmodel hlookup)
  subst hwanted
  have hlevel := resolveLevel_wanted hleaf hbelow
  refine ⟨front, s, below, hp, hp', fun f hf => (hfront f hf).1, fun f hf => ?_,
    parent_of_resolveLevel hlevel, ?_⟩
  · have hdepth := (hfront f hf).2
    have := hs.depth
    simp only [List.length_nil, List.nil_append, Nat.zero_add] at hdepth this
    omega
  · intro more hmore
    rw [Nat.zero_add] at hlevel
    rw [hlength] at hmore
    exact shifted_of_wanted hschema hs hleaf hmore hlevel

end Plan

end Prefetch
