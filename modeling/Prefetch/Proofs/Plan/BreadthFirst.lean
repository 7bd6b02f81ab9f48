import Mathlib.Data.Option.Basic
import Prefetch.Proofs.Plan.Branching
import Prefetch.Proofs.Plan.Chains
import Prefetch.Proofs.Selection.Generations
import Prefetch.Proofs.Selection.RoundTrip

/-!
# Breadth first — the plan that a selection has

The nodes of a selection are resolved generation by generation, and each becomes one step.  A node
that waits knows its place in the list of all nodes by that of its parent; so the steps can be read
off the list, and the first node of the list whose relation is not declared is the one reported.  A
`*` at the root is a special case of this: it stands for a `*` below each relation of the model.

* `Stands` — a pending node and its place in the list.
* `resolveLevel_eq_ok`, `resolveLevel_eq_error` — a generation becomes steps, or stops at a node.
* `ofSelection_spellRoot` — a `*` at the root and what it stands for have one plan.
* `ofSelection_breadthFirst` — plans and refusals, read off the selection.
-/

namespace Prefetch

/-- What a selection asks for at the base rows: a `*` there stands for a `*` below each relation. -/
def Selection.spellRoot (schema : Schema) (model : String) (s : Selection) : Selection :=
  if s.wildcard then { children := (schema.namesOf model).map fun n => (named n).everything } else s

namespace Plan

open Selection

variable {schema : Schema} {settings : Settings} {model : String} {s : Selection} {step : Step}
  {steps : List Step} {v : Path × Selection} {front nodes level : List (Path × Selection)}
  {p : Pending} {pending below : List Pending} {e : Error} {index levels : Nat}

/-! ### What is read off a node -/

/-- The relation of a node is declared on the model that the path above it leads to, and a recursive
one again on the model that it leads to itself. -/
def Declared (schema : Schema) (model : String) (v : Path × Selection) : Prop :=
  ∃ owner a, schema.modelAlong model v.1.dropLast = some owner ∧
    schema.lookup owner v.2.label = some a ∧
      (v.2.recursive = true → ∃ b, schema.lookup a.target v.2.label = some b)

/-- A model on which the relation of a node would have to be declared, and the relation. -/
inductive Missing (schema : Schema) (model : String) (v : Path × Selection) : String → String → Prop
  where
  | here {owner : String} (leads : schema.modelAlong model v.1.dropLast = some owner)
      (missing : schema.lookup owner v.2.label = none) :
      Missing schema model v owner v.2.label
  | again {owner : String} {a : Association}
      (leads : schema.modelAlong model v.1.dropLast = some owner)
      (declared : schema.lookup owner v.2.label = some a) (recursive : v.2.recursive = true)
      (missing : schema.lookup a.target v.2.label = none) :
      Missing schema model v a.target v.2.label

/-- The first of some nodes whose relation is not declared is reported. -/
def FirstMissing (schema : Schema) (model : String) (nodes : List (Path × Selection)) (e : Error) :
    Prop :=
  ∃ front v back owner relation, nodes = front ++ v :: back ∧
    (∀ u ∈ front, Declared schema model u) ∧ Missing schema model v owner relation ∧
      e = .unknownRelation owner relation

/-- The place of a node's parent among some nodes; the children of the root have none. -/
inductive Upper (nodes : List (Path × Selection)) (v : Path × Selection) : Option Nat → Prop where
  | base (path : v.1 = [v.2.label]) : Upper nodes v none
  | below {i : Nat} {u : Path × Selection} (parent : nodes[i]? = some u)
      (child : v.2 ∈ u.2.children) (path : v.1 = u.1 ++ [v.2.label]) : Upper nodes v (some i)

/-- The growth that the marks of a node call for. -/
def growthFor (node : Selection) : Growth :=
  if node.wildcard then .everything else if node.recursive then .again node.limit 1 else .none

/-- The step of a node, one of some nodes. -/
structure StepOf (schema : Schema) (model : String) (nodes : List (Path × Selection))
    (v : Path × Selection) (step : Step) : Prop where
  path : step.path = v.1
  parent : Upper nodes v step.parent
  owner : schema.modelAlong model v.1.dropLast = some step.owner
  declared : schema.lookup step.owner v.2.label = some step.association
  depth : step.depth = v.1.length
  growth : step.growth = growthFor v.2

/-- A node that waits, behind the nodes in front of it. -/
structure Stands (schema : Schema) (model : String) (front : List (Path × Selection))
    (v : Path × Selection) (p : Pending) : Prop where
  node : p.node = v.2
  path : v.1 = p.path ++ [v.2.label]
  owner : schema.modelAlong model p.path = some p.owner
  parent : Upper front v p.parent
  wellFormed : v.2.WellFormed

theorem Missing.not_declared {owner relation : String} (h : Missing schema model v owner relation) :
    ¬ Declared schema model v := by
  rintro ⟨owner', a, hleads, hdeclared, hagain⟩
  cases h with
  | here leads missing =>
    obtain rfl := Option.some.inj (hleads.symm.trans leads)
    cases hdeclared.symm.trans missing
  | again leads declared recursive missing =>
    obtain rfl := Option.some.inj (hleads.symm.trans leads)
    obtain rfl := Option.some.inj (hdeclared.symm.trans declared)
    obtain ⟨b, hb⟩ := hagain recursive
    cases hb.symm.trans missing

theorem FirstMissing.not_declared (h : FirstMissing schema model nodes e) :
    ¬ ∀ v ∈ nodes, Declared schema model v := by
  obtain ⟨front, v, back, owner, relation, rfl, -, hmissing, -⟩ := h
  exact fun hall => hmissing.not_declared (hall v (List.mem_append_right front List.mem_cons_self))

theorem FirstMissing.append (h : FirstMissing schema model nodes e)
    (back : List (Path × Selection)) : FirstMissing schema model (nodes ++ back) e := by
  obtain ⟨front, v, rest, owner, relation, rfl, hfront, hmissing, rfl⟩ := h
  exact ⟨front, v, rest ++ back, owner, relation, List.append_assoc _ _ _, hfront, hmissing, rfl⟩

theorem FirstMissing.behind (h : FirstMissing schema model nodes e)
    (hfront : ∀ v ∈ front, Declared schema model v) :
    FirstMissing schema model (front ++ nodes) e := by
  obtain ⟨some, v, back, owner, relation, rfl, hsome, hmissing, rfl⟩ := h
  refine ⟨front ++ some, v, back, owner, relation, (List.append_assoc _ _ _).symm, fun u hu => ?_,
    hmissing, rfl⟩
  exact (List.mem_append.1 hu).elim (hfront u) (hsome u)

theorem Upper.append {parent : Option Nat} (h : Upper front v parent)
    (back : List (Path × Selection)) : Upper (front ++ back) v parent := by
  cases h with
  | base path => exact .base path
  | below parent child path =>
    refine .below ?_ child path
    rw [List.getElem?_append_left (List.getElem?_eq_some_iff.1 parent).1]
    exact parent

theorem Stands.append (h : Stands schema model front v p) (back : List (Path × Selection)) :
    Stands schema model (front ++ back) v p :=
  ⟨h.node, h.path, h.owner, h.parent.append back, h.wellFormed⟩

theorem StepOf.append (h : StepOf schema model front v step) (back : List (Path × Selection)) :
    StepOf schema model (front ++ back) v step :=
  ⟨h.path, h.parent.append back, h.owner, h.declared, h.depth, h.growth⟩

/-! ### One node -/

theorem Resolves.growth_eq (h : Resolves schema p step) : step.growth = growthFor p.node := by
  unfold growthFor
  rcases h.growth with ⟨hw, hg⟩ | ⟨hw, hr, hg, -⟩ | ⟨hw, hr, hg⟩
  · rw [hw, if_pos rfl, hg]
  · rw [hw, hr, hg]
    rfl
  · rw [hw, hr, hg]
    rfl

/-- Why a node does not become a step: something stands below its mark, or its relation is not
declared. -/
theorem resolveNode_eq_error (h : resolveNode schema index p = .error e) :
    ((p.node.wildcard = true ∨ p.node.recursive = true) ∧ p.node.children ≠ []) ∨
      (schema.lookup p.owner p.node.label = none ∧ e = .unknownRelation p.owner p.node.label) ∨
        ∃ a, schema.lookup p.owner p.node.label = some a ∧ p.node.recursive = true ∧
          schema.lookup a.target p.node.label = none ∧
            e = .unknownRelation a.target p.node.label := by
  unfold resolveNode at h
  split at h
  · rename_i hmark
    simp only [Bool.and_eq_true, Bool.or_eq_true, Bool.not_eq_true', List.isEmpty_eq_false_iff]
      at hmark
    exact .inl hmark
  · split at h
    · rename_i e' hrequire
      obtain rfl := Except.error.inj h
      exact .inr (.inl (Schema.require_eq_error.1 hrequire))
    · rename_i a hrequire
      split at h
      · rename_i e' hgrowth
        obtain rfl := Except.error.inj h
        unfold growthOf at hgrowth
        split at hgrowth
        · cases hgrowth
        · split at hgrowth
          · rename_i hr
            split at hgrowth
            · rename_i e'' hagain
              obtain rfl := Except.error.inj hgrowth
              obtain ⟨hnone, rfl⟩ := Schema.require_eq_error.1 hagain
              exact .inr (.inr ⟨a, Schema.require_eq_ok.1 hrequire, hr, hnone, rfl⟩)
            · cases hgrowth
          · cases hgrowth
      · cases h

variable (hp : Stands schema model front v p)
include hp

theorem Stands.dropLast : v.1.dropLast = p.path := by
  rw [hp.path, List.dropLast_concat]

/-- A node that became a step was declared, and its children wait behind it. -/
theorem Stands.resolve (h : resolveNode schema front.length p = .ok step) :
    Declared schema model v ∧ StepOf schema model front v step ∧
      List.Forall₂ (Stands schema model (front ++ [v])) (childrenOf [v])
        (pendingBelow step p.node) := by
  obtain ⟨hindex, hr⟩ := resolveNode_eq_ok h
  obtain ⟨path, node⟩ := v
  obtain ⟨hnode, hpath, howner, hparent, hwell⟩ := hp
  obtain rfl : p.node = node := hnode
  have hup : schema.modelAlong model path.dropLast = some p.owner := by
    rw [show path = p.path ++ [p.node.label] from hpath, List.dropLast_concat, howner]
  refine ⟨⟨p.owner, step.association, hup, hr.declared, fun hrec => ?_⟩, ?_, ?_⟩
  · rcases hr.growth with ⟨hw, -⟩ | ⟨-, -, -, hagain⟩ | ⟨-, hno, -⟩
    · exact absurd ⟨hrec, hw⟩ hwell.coherent.oneMark
    · exact hagain
    · cases hrec.symm.trans hno
  · refine ⟨hr.path.trans hpath.symm, hr.parent ▸ hparent, hr.owner ▸ hup, hr.owner ▸ hr.declared,
      ?_, hr.growth_eq⟩
    rw [hr.depth, hpath, List.length_append, List.length_singleton]
  · have hstep : step.path = path := hr.path.trans hpath.symm
    have htarget : schema.modelAlong model step.path = some step.association.target := by
      rw [hr.path]
      exact Schema.modelAlong_append howner hr.declared
    rw [childrenOf, List.flatMap_singleton, pendingBelow, List.forall₂_map_left_iff,
      List.forall₂_map_right_iff, List.forall₂_same]
    refine fun c hc => ⟨rfl, by rw [hstep], htarget, ?_, hwell.of_mem hc⟩
    refine .below (u := (path, p.node)) ?_ hc rfl
    rw [hindex, List.getElem?_concat_length]

/-- A node that did not become a step was not declared. -/
theorem Stands.missing (h : resolveNode schema index p = .error e) :
    ∃ owner relation, Missing schema model v owner relation ∧
      e = .unknownRelation owner relation := by
  have hup : schema.modelAlong model v.1.dropLast = some p.owner := by
    rw [hp.dropLast, hp.owner]
  have hmarks := resolveNode_eq_error h
  rw [hp.node] at hmarks
  obtain ⟨hmark, hchildren⟩ | ⟨hnone, rfl⟩ | ⟨a, hdeclared, hrec, hnone, rfl⟩ := hmarks
  · exact absurd (hp.wellFormed.coherent.leaf hmark.symm) hchildren
  · exact ⟨_, _, .here hup hnone, rfl⟩
  · exact ⟨_, _, .again hup hdeclared hrec hnone, rfl⟩

omit hp

/-! ### One generation -/

theorem resolveLevel_cons_eq_error {ps : List Pending}
    (h : resolveLevel schema index (p :: ps) = .error e) :
    resolveNode schema index p = .error e ∨
      ∃ step, resolveNode schema index p = .ok step ∧
        resolveLevel schema (index + 1) ps = .error e := by
  rw [resolveLevel] at h
  split at h
  · rename_i e' hnode
    obtain rfl := Except.error.inj h
    exact .inl hnode
  · rename_i step hnode
    split at h
    · rename_i e' hrest
      obtain rfl := Except.error.inj h
      exact .inr ⟨step, hnode, hrest⟩
    · cases h

/-- A generation becomes steps, and its children wait behind it. -/
theorem resolveLevel_eq_ok (hp : List.Forall₂ (Stands schema model front) level pending)
    (h : resolveLevel schema front.length pending = .ok (steps, below)) :
    (∀ v ∈ level, Declared schema model v) ∧
      List.Forall₂ (StepOf schema model (front ++ level)) level steps ∧
        List.Forall₂ (Stands schema model (front ++ level)) (childrenOf level) below := by
  induction level generalizing front pending steps below with
  | nil =>
    cases hp
    obtain ⟨rfl, rfl⟩ := Prod.mk.inj (Except.ok.inj h)
    exact ⟨nofun, .nil, .nil⟩
  | cons v level ih =>
    cases hp with
    | @cons _ p _ pending hv hrest =>
      obtain ⟨step, rest, belowRest, hstep, hsteps, rfl, rfl⟩ := resolveLevel_cons_eq_ok h
      obtain ⟨hdeclared, hof, hchildren⟩ := hv.resolve hstep
      have hlength : (front ++ [v]).length = front.length + 1 := List.length_append
      rw [← hlength] at hsteps
      obtain ⟨hdeclareds, hofs, hbelow⟩ := ih (hrest.imp fun _ _ hq => hq.append [v]) hsteps
      rw [List.append_assoc, List.singleton_append] at hofs hbelow
      refine ⟨List.forall_mem_cons.2 ⟨hdeclared, hdeclareds⟩, .cons (hof.append _) hofs, ?_⟩
      have hsplit : childrenOf ([v] ++ level) = childrenOf [v] ++ childrenOf level :=
        List.flatMap_append
      rw [List.singleton_append] at hsplit
      rw [hsplit]
      refine List.rel_append (hchildren.imp fun _ _ hq => ?_) hbelow
      have happend := hq.append level
      rwa [List.append_assoc, List.singleton_append] at happend

/-- A generation stops at its first node that is not declared. -/
theorem resolveLevel_eq_error (hp : List.Forall₂ (Stands schema model front) level pending)
    (h : resolveLevel schema front.length pending = .error e) :
    FirstMissing schema model level e := by
  induction level generalizing front pending with
  | nil =>
    cases hp
    cases h
  | cons v level ih =>
    cases hp with
    | @cons _ p _ pending hv hrest =>
      rcases resolveLevel_cons_eq_error h with hnode | ⟨step, hstep, hrestError⟩
      · obtain ⟨owner, relation, hmissing, rfl⟩ := hv.missing hnode
        exact ⟨[], v, level, owner, relation, rfl, nofun, hmissing, rfl⟩
      · obtain ⟨hdeclared, -, -⟩ := hv.resolve hstep
        have hlength : (front ++ [v]).length = front.length + 1 := List.length_append
        rw [← hlength] at hrestError
        have hfirst := ih (hrest.imp fun _ _ hq => hq.append [v]) hrestError
        have hfront : ∀ w ∈ [v], Declared schema model w := List.forall_mem_singleton.2 hdeclared
        exact hfirst.behind hfront

/-! ### All generations -/

theorem resolveLevels_succ_eq_error
    (h : resolveLevels schema (levels + 1) index pending = .error e) :
    resolveLevel schema index pending = .error e ∨
      ∃ level below, resolveLevel schema index pending = .ok (level, below) ∧
        resolveLevels schema levels (index + level.length) below = .error e := by
  rw [resolveLevels] at h
  split at h
  · rename_i e' hlevel
    obtain rfl := Except.error.inj h
    exact .inl hlevel
  · rename_i level below hlevel
    split at h
    · rename_i e' hrest
      obtain rfl := Except.error.inj h
      exact .inr ⟨level, below, hlevel, hrest⟩
    · cases h

theorem resolveLevels_eq_ok (hp : List.Forall₂ (Stands schema model front) level pending)
    (h : resolveLevels schema levels front.length pending = .ok steps) :
    (∀ v ∈ descend levels level, Declared schema model v) ∧
      List.Forall₂ (StepOf schema model (front ++ descend levels level)) (descend levels level)
        steps := by
  induction levels generalizing front level pending steps with
  | zero =>
    obtain rfl := Except.ok.inj h
    exact ⟨nofun, .nil⟩
  | succ levels ih =>
    obtain ⟨first, below, rest, hfirst, hrest, rfl⟩ := resolveLevels_succ_eq_ok h
    obtain ⟨hdeclared, hsteps, hbelow⟩ := resolveLevel_eq_ok hp hfirst
    rw [← hsteps.length_eq, ← List.length_append] at hrest
    obtain ⟨hdeclareds, hmore⟩ := ih hbelow hrest
    rw [List.append_assoc] at hmore
    refine ⟨fun v hv => (List.mem_append.1 hv).elim (hdeclared v) (hdeclareds v), ?_⟩
    refine List.rel_append (hsteps.imp fun _ _ hv => ?_) hmore
    rw [descend, ← List.append_assoc]
    exact hv.append _

theorem resolveLevels_eq_error (hp : List.Forall₂ (Stands schema model front) level pending)
    (h : resolveLevels schema levels front.length pending = .error e) :
    FirstMissing schema model (descend levels level) e := by
  induction levels generalizing front level pending with
  | zero => cases h
  | succ levels ih =>
    rcases resolveLevels_succ_eq_error h with hlevel | ⟨first, below, hfirst, hrest⟩
    · exact (resolveLevel_eq_error hp hlevel).append _
    · obtain ⟨hdeclared, hsteps, hbelow⟩ := resolveLevel_eq_ok hp hfirst
      rw [← hsteps.length_eq, ← List.length_append] at hrest
      exact (ih hbelow hrest).behind hdeclared

/-! ### Plans -/

/-- The plan of a selection without marks at its root, or why there is none. -/
theorem ofSelection_of_unmarked (schema : Schema) (settings : Settings) (model : String)
    (hs : s.WellFormed) (hname : s.name = none) (hw : s.wildcard = false) :
    match ofSelection schema settings model s none with
    | .ok p => s.depth ≤ settings.maxDepth ∧ (∀ v ∈ s.breadthFirst, Declared schema model v) ∧
        p.model = model ∧
          List.Forall₂ (StepOf schema model s.breadthFirst) s.breadthFirst p.steps
    | .error e => (settings.maxDepth < s.depth ∧ ∃ path, e = .tooDeep path settings.maxDepth) ∨
        s.depth ≤ settings.maxDepth ∧ FirstMissing schema model s.breadthFirst e := by
  have hroot : List.Forall₂ (Stands schema model []) (s.generation 1) (pendingRoot model s) := by
    rw [generation_one, pendingRoot, List.forall₂_map_left_iff, List.forall₂_map_right_iff,
      List.forall₂_same]
    exact fun c hc => ⟨rfl, rfl, rfl, .base rfl, hs.of_mem hc⟩
  have hall := breadthFirst_eq hs hname (depth_le_size hname)
  unfold ofSelection checkAllowed checkDepth resolve
  simp only [hs.coherent.root hname, hw, Bool.false_eq_true, if_false]
  by_cases hdepth : s.depth ≤ settings.maxDepth
  · simp only [if_pos hdepth]
    cases hrun : resolveLevels schema s.size 0 (pendingRoot model s) with
    | ok steps =>
      obtain ⟨hdeclared, hsteps⟩ := resolveLevels_eq_ok hroot hrun
      rw [List.nil_append, ← hall] at hsteps
      rw [← hall] at hdeclared
      exact ⟨hdepth, hdeclared, rfl, hsteps⟩
    | error e =>
      have hfirst := resolveLevels_eq_error hroot hrun
      rw [← hall] at hfirst
      exact .inr ⟨hdepth, hfirst⟩
  · simp only [if_neg hdepth]
    exact .inl ⟨Nat.lt_of_not_le hdepth, _, rfl⟩

theorem resolveLevels_of_last (hsteps : resolveLevel schema index pending = .ok (steps, []))
    (hlevels : pending.length ≤ levels) :
    resolveLevels schema levels index pending = .ok steps := by
  cases levels with
  | zero =>
    obtain rfl := List.length_eq_zero_iff.1 (Nat.le_zero.1 hlevels)
    exact congrArg (Except.map Prod.fst) hsteps
  | succ levels =>
    rw [resolveLevels, hsteps]
    simp only [resolveLevels_nil, List.append_nil]

theorem name_spellRoot (hname : s.name = none) : (s.spellRoot schema model).name = none := by
  unfold spellRoot
  split
  · rfl
  · exact hname

theorem wildcard_spellRoot : (s.spellRoot schema model).wildcard = false := by
  unfold spellRoot
  split
  · rfl
  · rename_i hw
    simpa using hw

theorem wellFormed_spellRoot (hschema : schema.Registered) (hs : s.WellFormed) :
    (s.spellRoot schema model).WellFormed := by
  unfold spellRoot
  split
  · have hnames : ∀ c ∈ (schema.namesOf model).map fun n => (named n).everything,
        ∃ n, c = (named n).everything := fun c hc => by
      obtain ⟨n, -, rfl⟩ := List.mem_map.1 hc
      exact ⟨n, rfl⟩
    refine .intro ⟨fun c hc => ?_, ?_, nofun, nofun, fun h => absurd rfl h, fun _ => rfl⟩
      fun c hc => ?_
    · obtain ⟨n, rfl⟩ := hnames c hc
      nofun
    · rw [Distinct, List.map_map]
      exact (hschema.nodup_namesOf model).map (Option.some_injective String)
    · obtain ⟨n, rfl⟩ := hnames c hc
      exact wellFormed_everything (named n)
  · exact hs

theorem depth_spellRoot_le (hw : s.wildcard = true) : (s.spellRoot schema model).depth ≤ 1 := by
  rw [spellRoot, if_pos hw]
  refine depthOfAll_le fun c hc => ?_
  obtain ⟨n, -, rfl⟩ := List.mem_map.1 hc
  exact Nat.le_refl 1

/-- A `*` at the root and what it stands for become the same steps. -/
theorem resolve_spellRoot (hschema : schema.Registered) (hs : s.WellFormed) (hname : s.name = none)
    (hw : s.wildcard = true) :
    resolve schema model (s.spellRoot schema model) = resolve schema model s := by
  have hlevel := resolveLevel_everything 0 none [] (schema.relationsOf model)
    fun r hr => hschema.lookup_of_mem_relationsOf hr
  simp only [Nat.zero_add, List.nil_append] at hlevel
  have hpending : pendingRoot model (s.spellRoot schema model) =
      pendingAll none model []
        ((schema.relationsOf model).map fun r => (named r.1).everything) := by
    rw [spellRoot, if_pos hw]
    simp only [pendingRoot, pendingAll, Schema.namesOf, List.map_map, Function.comp_def]
  have hspelled : (s.spellRoot schema model).recursive = false :=
    (wellFormed_spellRoot hschema hs).coherent.root (name_spellRoot hname)
  unfold resolve
  rw [hs.coherent.root hname, hw, hspelled, wildcard_spellRoot, hpending]
  simp only [Bool.false_eq_true, if_false, if_true]
  refine resolveLevels_of_last hlevel (Nat.le_of_eq ?_)
  rw [spellRoot, if_pos hw, size, sizeOfAll_leaves fun c hc => ?_, pendingAll, List.length_map,
    List.length_map, List.length_map, Schema.namesOf, List.length_map]
  obtain ⟨n, -, rfl⟩ := List.mem_map.1 hc
  rfl

/-- A `*` at the root and what it stands for have one plan. -/
theorem ofSelection_spellRoot (hschema : schema.Registered) (hmost : 1 ≤ settings.maxDepth)
    (hs : s.WellFormed) (hname : s.name = none) :
    ofSelection schema settings model (s.spellRoot schema model) none =
      ofSelection schema settings model s none := by
  cases hw : s.wildcard with
  | true =>
    have hdepth : s.checkDepth settings.maxDepth = .ok () := by
      rw [checkDepth_eq_ok_iff, depth_eq_of_name hname, hs.coherent.leaf (.inr hw)]
      exact Nat.zero_le _
    have hdepth' : (s.spellRoot schema model).checkDepth settings.maxDepth = .ok () :=
      checkDepth_eq_ok_iff.2 (Nat.le_trans (depth_spellRoot_le hw) hmost)
    unfold ofSelection
    rw [hdepth, hdepth', resolve_spellRoot hschema hs hname hw]
    rfl
  | false => rw [spellRoot, if_neg (by simp [hw])]

/-- The plan for a text is read off its nodes, breadth first, with a `*` at the root spelled out.
There is a plan exactly when the selection is not too deep and all its relations are declared; then
it has one step for each node.  Otherwise the depth is reported, or the first node whose relation is
not declared. -/
theorem ofSelection_breadthFirst {text : String} (hschema : schema.Registered)
    (hmost : 1 ≤ settings.maxDepth) (hparse : Selection.parse text = .ok s) :
    let t := s.spellRoot schema model
    t.breadthFirst.Perm t.preorder.tail ∧
      ((∃ p, ofSelection schema settings model s none = .ok p) ↔
        t.depth ≤ settings.maxDepth ∧ ∀ v ∈ t.breadthFirst, Declared schema model v) ∧
      (∀ p, ofSelection schema settings model s none = .ok p → p.model = model ∧
        List.Forall₂ (StepOf schema model t.breadthFirst) t.breadthFirst p.steps ∧
          (∀ i (step : Step), p.steps[i]? = some step → step.index = i) ∧
            p.steps.Pairwise fun a b => a.depth ≤ b.depth) ∧
      ∀ e, ofSelection schema settings model s none = .error e →
        (settings.maxDepth < t.depth ∧ ∃ path, e = .tooDeep path settings.maxDepth) ∨
          t.depth ≤ settings.maxDepth ∧ FirstMissing schema model t.breadthFirst e := by
  intro t
  have hwritable := writable_of_parse hparse
  have hwell : t.WellFormed := wellFormed_spellRoot hschema hwritable.wellFormed
  have hname : t.name = none := name_spellRoot hwritable.unnamed
  have hunmarked : t.wildcard = false := wildcard_spellRoot
  rw [← ofSelection_spellRoot hschema hmost hwritable.wellFormed hwritable.unnamed]
  have hplan := ofSelection_of_unmarked schema settings model hwell hname hunmarked
  refine ⟨perm_breadthFirst hwell hname, ?_⟩
  cases hrun : ofSelection schema settings model t none with
  | ok p =>
    rw [hrun] at hplan
    obtain ⟨hdepth, hdeclared, hmodel, hsteps⟩ := hplan
    refine ⟨iff_of_true ⟨p, rfl⟩ ⟨hdepth, hdeclared⟩, fun q hq => ?_, nofun⟩
    obtain rfl := Except.ok.inj hq
    have hdepths : t.breadthFirst.map (fun v => v.1.length) = p.steps.map (·.depth) := by
      rw [← List.forall₂_eq_eq_eq, List.forall₂_map_left_iff, List.forall₂_map_right_iff]
      exact hsteps.imp fun v step hstep => hstep.depth.symm
    have hpairs := List.pairwise_map.2 (pairwise_breadthFirst t)
    rw [hdepths] at hpairs
    exact ⟨hmodel, hsteps, (exists_tasks_of_ofSelection hschema hrun).1.index,
      List.pairwise_map.1 hpairs⟩
  | error e =>
    rw [hrun] at hplan
    refine ⟨iff_of_false (fun ⟨_, h⟩ => nomatch h) fun ⟨hdepth, hdeclared⟩ => ?_, nofun,
      fun e' he => Except.error.inj he ▸ hplan⟩
    obtain ⟨hdeep, -⟩ | ⟨-, hfirst⟩ := hplan
    · omega
    · exact hfirst.not_declared hdeclared

/-- A selection of two levels with a plan, and one whose first relation without a declaration stands
on the second level. -/
theorem ofSelection_breadthFirst_two :
    let up : Association := ⟨.oneToOne, "node", "nodes", "up_id", "id", none⟩
    let tags : Association := ⟨.oneToMany, "tag", "tags", "id", "node_id", none⟩
    let schema : Schema := ⟨[⟨"node", "up", up⟩, ⟨"node", "tags", tags⟩]⟩
    let s : Selection := { children := [{ named "up" with
      children := [named "tags", (named "up").follow (some 2)] }, named "tags"] }
    let p : Plan := ⟨"node", [⟨0, none, ["up"], "node", up, 1, .none⟩,
      ⟨1, none, ["tags"], "node", tags, 1, .none⟩,
      ⟨2, some 0, ["up", "tags"], "node", tags, 2, .none⟩,
      ⟨3, some 0, ["up", "up"], "node", up, 2, .again (some 2) 1⟩]⟩
    let t : Selection := { children := [{ named "tags" with children := [named "up"] },
      { named "up" with children := [named "name"] }] }
    schema.Registered ∧ parse "[up.[tags, up.^2], tags]" = .ok s ∧
      ofSelection schema {} "node" s none = .ok p ∧
      List.Forall₂ (StepOf schema "node" s.breadthFirst) s.breadthFirst p.steps ∧
      parse "[tags.up, up.name]" = .ok t ∧
      ofSelection schema {} "node" t none = .error (.unknownRelation "tag" "up") ∧
      FirstMissing schema "node" t.breadthFirst (.unknownRelation "tag" "up") := by
  intro up tags schema s p t
  have hup : Schema.empty.register "node" "up" up = .ok ⟨[⟨"node", "up", up⟩]⟩ := by decide +kernel
  have htags : Schema.register ⟨[⟨"node", "up", up⟩]⟩ "node" "tags" tags = .ok schema := by
    decide +kernel
  have hschema : schema.Registered := .register (.register .empty hup) htags
  have hs : parse "[up.[tags, up.^2], tags]" = .ok s := by rfl
  have ht : parse "[tags.up, up.name]" = .ok t := by rfl
  have hplan : ofSelection schema {} "node" s none = .ok p := by decide +kernel
  have herror : ofSelection schema {} "node" t none = .error (.unknownRelation "tag" "up") := by
    decide +kernel
  have hmost : 1 ≤ ({} : Settings).maxDepth := by decide
  obtain ⟨-, -, hsteps, -⟩ := ofSelection_breadthFirst hschema hmost hs
  obtain ⟨-, -, -, hrefused⟩ := ofSelection_breadthFirst hschema hmost ht
  refine ⟨hschema, hs, hplan, (hsteps p hplan).2.1, ht, herror, ?_⟩
  obtain ⟨-, path, hpath⟩ | ⟨-, hfirst⟩ := hrefused _ herror
  · cases hpath
  · exact hfirst

end Plan

end Prefetch
