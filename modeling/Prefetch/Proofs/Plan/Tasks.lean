import Prefetch.Proofs.Load.RowByRow
import Prefetch.Proofs.Plan.Order
import Prefetch.Proofs.Plan.Resolution
import Prefetch.Proofs.Schema.Registered

/-!
# Tasks — which node each step of a plan loads

A step forgets the node it was made for, except for its marks.  A task remembers it.  Resolving takes
nodes off the front of a queue and puts those below them at its end; at any time the nodes of a
parent are those that have become steps, followed by those still in the queue.

* `Laid.resolve` — one node becomes a step.
* `exists_tasks_of_ofSelection` — the steps of a plan, and the nodes below each of them, in order.
-/

namespace Prefetch

/-- A step with the node that it loads. -/
structure Task where
  step : Step
  node : Selection

/-- The marks of a step's node, as far as the step still has to follow them. -/
structure Task.Fits (t : Task) : Prop where
  relation : t.step.relation = t.node.label
  growth :
    (t.node.wildcard = true ∧ t.step.growth = .everything) ∨
    (t.node.wildcard = false ∧ t.node.recursive = true ∧ ∃ limit level, 0 < level ∧
      t.step.growth = .again limit level ∧ t.node.limit = limit.map fun most => most + 1 - level) ∨
    (t.node.wildcard = false ∧ t.node.recursive = false ∧ t.step.growth = .none)

/-- The nodes of the tasks whose steps hang on a step, or on the base rows. -/
def nodesUnder (tasks : List Task) (parent : Option Nat) : List Selection :=
  (tasks.filter fun t => t.step.parent == parent).map (·.node)

theorem nodesUnder_append (front back : List Task) (parent : Option Nat) :
    nodesUnder (front ++ back) parent = nodesUnder front parent ++ nodesUnder back parent := by
  simp [nodesUnder]

theorem nodesUnder_eq_nil {tasks : List Task} {parent : Option Nat}
    (h : ∀ t ∈ tasks, t.step.parent ≠ parent) : nodesUnder tasks parent = [] := by
  simpa [nodesUnder] using h

theorem nodesUnder_eq_all {tasks : List Task} {parent : Option Nat}
    (h : ∀ t ∈ tasks, t.step.parent = parent) : nodesUnder tasks parent = tasks.map (·.node) := by
  rw [nodesUnder, List.filter_eq_self.2 fun t ht => by simpa using h t ht]

theorem nodesUnder_singleton (t : Task) (parent : Option Nat) :
    nodesUnder [t] parent = if t.step.parent = parent then [t.node] else [] := by
  by_cases h : t.step.parent = parent <;> simp [nodesUnder, h]

namespace Plan

/-- The nodes of a parent that are still in the queue. -/
def queuedUnder (queue : List Pending) (parent : Option Nat) : List Selection :=
  (queue.filter fun q => q.parent == parent).map (·.node)

theorem queuedUnder_append (front back : List Pending) (parent : Option Nat) :
    queuedUnder (front ++ back) parent = queuedUnder front parent ++ queuedUnder back parent := by
  simp [queuedUnder]

theorem queuedUnder_cons (q : Pending) (queue : List Pending) (parent : Option Nat) :
    queuedUnder (q :: queue) parent =
      (if q.parent = parent then [q.node] else []) ++ queuedUnder queue parent := by
  by_cases h : q.parent = parent <;> simp [queuedUnder, h]

theorem queuedUnder_nil (parent : Option Nat) : queuedUnder [] parent = [] := rfl

theorem queuedUnder_eq_nil {queue : List Pending} {parent : Option Nat}
    (h : ∀ q ∈ queue, q.parent ≠ parent) : queuedUnder queue parent = [] := by
  simpa [queuedUnder] using h

theorem queuedUnder_pendingBelow (step : Step) (node : Selection) :
    queuedUnder (pendingBelow step node) (some step.index) = node.children := by
  simp [queuedUnder, pendingBelow, List.filter_map, Function.comp_def]

theorem queuedUnder_pendingRoot (model : String) (s : Selection) :
    queuedUnder (pendingRoot model s) none = s.children := by
  simp [queuedUnder, pendingRoot, List.filter_map, Function.comp_def]

/-- A node in the queue knows the step that its parent became. -/
inductive Waits (model : String) (steps : List Step) (q : Pending) : Prop where
  | base (parent : q.parent = none) (path : q.path = []) (owner : q.owner = model)
  | below (up : Step) (mem : up ∈ steps) (parent : q.parent = some up.index)
      (path : q.path = up.path) (owner : q.owner = up.association.target)

/-- Part of a selection is laid out as tasks, the rest waits in the queue. -/
structure Laid (schema : Schema) (model : String) (s : Selection) (tasks : List Task)
    (queue : List Pending) : Prop where
  orderly : Orderly schema model (tasks.map (·.step))
  fits : ∀ t ∈ tasks, t.Fits
  leaf : ∀ t ∈ tasks, t.step.growth ≠ .none → t.node.children = []
  waits : ∀ q ∈ queue, Waits model (tasks.map (·.step)) q
  base : nodesUnder tasks none ++ queuedUnder queue none = s.children
  below : ∀ t ∈ tasks,
    nodesUnder tasks (some t.step.index) ++ queuedUnder queue (some t.step.index) = t.node.children

variable {schema : Schema} {model : String} {s : Selection} {tasks : List Task}
  {queue : List Pending} {p : Pending} {step : Step}

theorem Resolves.hangs {steps : List Step} (h : Resolves schema p step)
    (hp : Waits model steps p) : Hangs model steps step := by
  cases hp with
  | base parent path owner =>
    refine .base (h.parent.trans parent) ?_ (h.owner.trans owner)
    rw [h.path, path, h.relation, List.nil_append]
  | below up mem parent path owner =>
    refine .below up mem (h.parent.trans parent) ?_ (h.owner.trans owner)
    rw [h.path, path, h.relation]

theorem Resolves.fits (h : Resolves schema p step) : Task.Fits ⟨step, p.node⟩ := by
  refine ⟨h.relation, ?_⟩
  rcases h.growth with hstar | ⟨hw, hr, hg, -⟩ | hnone
  · exact .inl hstar
  · exact .inr (.inl ⟨hw, hr, p.node.limit, 1, Nat.one_pos, hg, by simp⟩)
  · exact .inr (.inr hnone)

theorem Resolves.leaf_of_growth (h : Resolves schema p step) (hg : step.growth ≠ .none) :
    p.node.children = [] := by
  rcases h.growth with ⟨hw, -⟩ | ⟨-, hr, -⟩ | ⟨-, -, hnone⟩
  · exact h.leaf (.inl hw)
  · exact h.leaf (.inr hr)
  · exact absurd hnone hg

namespace Laid

theorem parent_ne (h : Laid schema model s tasks queue) {t : Task} (ht : t ∈ tasks) {i : Nat}
    (hi : tasks.length ≤ i) : t.step.parent ≠ some i := by
  intro hp
  have hlt := h.orderly.parent_lt (List.mem_map_of_mem ht) hp
  rw [List.length_map] at hlt
  omega

theorem queued_parent_ne (h : Laid schema model s tasks queue) {q : Pending} (hq : q ∈ queue)
    {i : Nat} (hi : tasks.length ≤ i) : q.parent ≠ some i := by
  intro hp
  cases h.waits q hq with
  | base parent => rw [parent] at hp; cases hp
  | below up mem parent =>
    have hlt := h.orderly.index_lt mem
    rw [List.length_map] at hlt
    obtain rfl : up.index = i := Option.some.inj (parent.symm.trans hp)
    omega

/-- What was in front of the queue is now at the end of the tasks. -/
theorem nodesUnder_move (node : Selection) {parent : Option Nat} (hstep : step.parent = p.parent)
    (hne : parent ≠ some step.index) :
    nodesUnder (tasks ++ [⟨step, p.node⟩]) parent ++
      queuedUnder (queue ++ pendingBelow step node) parent =
    nodesUnder tasks parent ++ queuedUnder (p :: queue) parent := by
  have hbelow : queuedUnder (pendingBelow step node) parent = [] := by
    refine queuedUnder_eq_nil fun q hq => ?_
    obtain ⟨c, -, rfl⟩ := List.mem_map.1 hq
    exact fun he => hne he.symm
  rw [nodesUnder_append, nodesUnder_singleton, queuedUnder_append, hbelow, queuedUnder_cons,
    hstep, List.append_nil, List.append_assoc]

/-- One node becomes a step; its children go to the end of the queue. -/
theorem resolve (h : Laid schema model s tasks (p :: queue))
    (hs : resolveNode schema tasks.length p = .ok step) :
    Laid schema model s (tasks ++ [⟨step, p.node⟩]) (queue ++ pendingBelow step p.node) := by
  obtain ⟨hindex, hr⟩ := resolveNode_eq_ok hs
  refine ⟨?_, ?_, ?_, ?_, ?_, ?_⟩
  · rw [List.map_append]
    refine h.orderly.append (fun i t ht => ?_) ?_ ?_ ?_
    · obtain ⟨hi, rfl⟩ := List.getElem?_eq_some_iff.1 ht
      obtain rfl : i = 0 := by simpa using hi
      rw [List.length_map]
      exact hindex
    all_goals
      intro t ht
      obtain rfl := List.mem_singleton.1 ht
    · exact hr.hangs (h.waits p List.mem_cons_self)
    · rw [hr.depth, hr.path, List.length_append, List.length_singleton]
    · rw [hr.owner, hr.relation]
      exact hr.declared
  · intro t ht
    rcases List.mem_append.1 ht with ht | ht
    · exact h.fits t ht
    · obtain rfl := List.mem_singleton.1 ht
      exact hr.fits
  · intro t ht
    rcases List.mem_append.1 ht with ht | ht
    · exact h.leaf t ht
    · obtain rfl := List.mem_singleton.1 ht
      exact hr.leaf_of_growth
  · intro q hq
    rw [List.map_append]
    rcases List.mem_append.1 hq with hq | hq
    · cases h.waits q (List.mem_cons_of_mem p hq) with
      | base parent path owner => exact .base parent path owner
      | below up mem parent path owner =>
        exact .below up (List.mem_append_left _ mem) parent path owner
    · obtain ⟨c, -, rfl⟩ := List.mem_map.1 hq
      exact .below step (List.mem_append_right _ List.mem_cons_self) rfl rfl rfl
  · have hne : none ≠ some step.index := nofun
    rw [nodesUnder_move p.node hr.parent hne, h.base]
  · intro t ht
    rcases List.mem_append.1 ht with ht | ht
    · have hlt := h.orderly.index_lt (List.mem_map_of_mem ht)
      rw [List.length_map] at hlt
      have hne : some t.step.index ≠ some step.index := by
        intro he
        have := Option.some.inj he
        omega
      rw [nodesUnder_move p.node hr.parent hne, h.below t ht]
    · obtain rfl := List.mem_singleton.1 ht
      have hself : step.parent ≠ some step.index := by
        rw [hr.parent, hindex]
        exact h.queued_parent_ne List.mem_cons_self (Nat.le_refl _)
      have hle : tasks.length ≤ step.index := Nat.le_of_eq hindex.symm
      have hold : nodesUnder tasks (some step.index) = [] :=
        nodesUnder_eq_nil fun t ht => h.parent_ne ht hle
      have hqueue : queuedUnder queue (some step.index) = [] :=
        queuedUnder_eq_nil fun q hq => h.queued_parent_ne (List.mem_cons_of_mem p hq) hle
      rw [nodesUnder_append, nodesUnder_singleton, queuedUnder_append, hold, hqueue,
        if_neg hself, queuedUnder_pendingBelow]
      rfl

/-- A level becomes steps; what waits behind it stays in front of the next level. -/
theorem resolveLevel {level behind below : List Pending} {steps : List Step}
    (h : Laid schema model s tasks (level ++ behind))
    (hl : Plan.resolveLevel schema tasks.length level = .ok (steps, below)) :
    ∃ more, Laid schema model s (tasks ++ more) (behind ++ below) ∧
      more.map (·.step) = steps := by
  induction level generalizing tasks behind steps below with
  | nil =>
    obtain ⟨rfl, rfl⟩ := Prod.mk.inj (Except.ok.inj hl)
    exact ⟨[], by simpa using h, rfl⟩
  | cons p level ih =>
    obtain ⟨step, rest, belowRest, hs, hrest, rfl, rfl⟩ := resolveLevel_cons_eq_ok hl
    have hnext : Laid schema model s (tasks ++ [⟨step, p.node⟩])
        (level ++ (behind ++ pendingBelow step p.node)) := by
      rw [← List.append_assoc]
      exact Laid.resolve h hs
    have hlen : (tasks ++ [(⟨step, p.node⟩ : Task)]).length = tasks.length + 1 := by simp
    rw [← hlen] at hrest
    obtain ⟨more, hmore, hsteps⟩ := ih hnext hrest
    refine ⟨⟨step, p.node⟩ :: more, ?_, ?_⟩
    · rwa [List.append_assoc, List.append_assoc] at hmore
    · rw [List.map_cons, hsteps]

end Laid

/-! ### Enough levels -/

theorem sizeOfAll_append (front back : List Selection) :
    Selection.sizeOfAll (front ++ back) =
      Selection.sizeOfAll front + Selection.sizeOfAll back := by
  induction front with
  | nil => simp [Selection.sizeOfAll]
  | cons c cs ih =>
    simp only [List.cons_append, Selection.sizeOfAll, ih]
    omega

theorem sizeOfAll_children (s : Selection) : Selection.sizeOfAll s.children = s.size := by
  cases s
  rfl

/-- Every node of a level counts once less in the next. -/
theorem sizeOfAll_resolveLevel {index : Nat} {level below : List Pending} {steps : List Step}
    (h : resolveLevel schema index level = .ok (steps, below)) :
    Selection.sizeOfAll (below.map (·.node)) + level.length =
      Selection.sizeOfAll (level.map (·.node)) := by
  induction level generalizing index steps below with
  | nil =>
    obtain ⟨rfl, rfl⟩ := Prod.mk.inj (Except.ok.inj h)
    rfl
  | cons p level ih =>
    obtain ⟨step, rest, belowRest, -, hrest, rfl, rfl⟩ := resolveLevel_cons_eq_ok h
    have hnodes : (pendingBelow step p.node).map (·.node) = p.node.children := by
      simp [pendingBelow, Function.comp_def]
    have hrec := ih hrest
    rw [List.map_append, sizeOfAll_append, hnodes, sizeOfAll_children, List.map_cons,
      Selection.sizeOfAll, List.length_cons]
    omega

/-- As many levels as there are nodes leave no node in the queue. -/
theorem Laid.resolveLevels {levels : Nat} {steps : List Step}
    (h : Laid schema model s tasks queue)
    (hsize : Selection.sizeOfAll (queue.map (·.node)) ≤ levels)
    (hl : Plan.resolveLevels schema levels tasks.length queue = .ok steps) :
    ∃ more, Laid schema model s (tasks ++ more) [] ∧ more.map (·.step) = steps := by
  induction levels generalizing tasks queue steps with
  | zero =>
    obtain rfl := Except.ok.inj hl
    cases queue with
    | nil => exact ⟨[], by simpa using h, rfl⟩
    | cons q queue =>
      rw [List.map_cons, Selection.sizeOfAll] at hsize
      omega
  | succ levels ih =>
    obtain ⟨level, below, rest, hlevel, hrest, rfl⟩ := resolveLevels_succ_eq_ok hl
    have hq : Laid schema model s tasks (queue ++ []) := by rwa [List.append_nil]
    obtain ⟨more, hmore, hsteps⟩ := hq.resolveLevel hlevel
    have hlen : (tasks ++ more).length = tasks.length + level.length := by
      rw [List.length_append, ← hsteps, List.length_map]
    have hshrink := sizeOfAll_resolveLevel hlevel
    rw [List.nil_append] at hmore
    rw [← hlen] at hrest
    have hsmaller : Selection.sizeOfAll (below.map (·.node)) ≤ levels := by
      cases queue with
      | nil =>
        rw [List.map_nil, Selection.sizeOfAll, List.length_nil] at hshrink
        omega
      | cons q queue =>
        rw [List.length_cons] at hshrink
        omega
    obtain ⟨last, hlast, hlastSteps⟩ := ih hmore hsmaller hrest
    refine ⟨more ++ last, ?_, ?_⟩
    · rwa [← List.append_assoc]
    · rw [List.map_append, hsteps, hlastSteps]

/-! ### Plans -/

theorem laid_pendingRoot (schema : Schema) (model : String) (s : Selection) :
    Laid schema model s [] (pendingRoot model s) := by
  refine ⟨.nil, nofun, nofun, fun q hq => ?_, queuedUnder_pendingRoot model s, nofun⟩
  obtain ⟨c, -, rfl⟩ := List.mem_map.1 hq
  exact .base rfl rfl rfl

theorem orderly_everyRelation (hschema : schema.Registered) (model : String) :
    Orderly schema model (everyRelation schema model) := by
  have hstep : ∀ step ∈ everyRelation schema model, ∃ r ∈ schema.relationsOf model,
      step.path = [r.1] ∧ step.relation = r.1 ∧ step.parent = none ∧ step.owner = model ∧
        step.association = r.2 ∧ step.depth = 1 := by
    intro step hs
    obtain ⟨i, hi, rfl⟩ := List.mem_mapIdx.1 hs
    exact ⟨_, List.getElem_mem hi, rfl, rfl, rfl, rfl, rfl, rfl⟩
  rw [← List.nil_append (everyRelation schema model)]
  refine Orderly.append .nil (fun i step hs => ?_) ?_ ?_ ?_
  · rw [everyRelation, List.getElem?_mapIdx] at hs
    obtain ⟨r, -, rfl⟩ := Option.map_eq_some_iff.1 hs
    rw [List.length_nil, Nat.zero_add]
  all_goals
    intro step hs
    obtain ⟨r, hr, hpath, hrel, hparent, howner, hassoc, hdepth⟩ := hstep step hs
  · exact .base hparent (hpath.trans (by rw [hrel])) howner
  · rw [hdepth, hpath, List.length_singleton]
  · rw [howner, hrel, hassoc]
    exact hschema.lookup_of_mem_relationsOf hr

/-- A task for a step that follows every relation. -/
def taskOfEverything (step : Step) : Task :=
  ⟨step, (Selection.named step.relation).everything⟩

theorem map_mapIdx_of_forall {α β γ : Type} {f : Nat → α → β} {g : β → γ} {h : α → γ}
    (hfg : ∀ i x, g (f i x) = h x) (xs : List α) : (xs.mapIdx f).map g = xs.map h := by
  apply List.ext_getElem?
  intro i
  rw [List.getElem?_map, List.getElem?_mapIdx, List.getElem?_map, Option.map_map]
  congr 1
  funext x
  exact hfg i x

theorem fits_taskOfEverything {step : Step} (h : step.growth = .everything) :
    (taskOfEverything step).Fits :=
  ⟨rfl, .inl ⟨rfl, h⟩⟩

/-- Steps for all relations of a model stand for the nodes wanted below a `*`. -/
theorem nodes_taskOfEverything {f : Nat → String × Association → Step}
    (hf : ∀ i r, (f i r).relation = r.1) (hw : s.wildcard = true) :
    (((schema.relationsOf model).mapIdx f).map taskOfEverything).map (·.node) =
      s.wanted schema model := by
  have hnode : ∀ i r, ((fun t : Task => t.node) ∘ taskOfEverything) (f i r) =
      (Selection.named r.1).everything := by
    intro i r
    simp only [Function.comp_apply, taskOfEverything, hf]
  rw [List.map_map, map_mapIdx_of_forall hnode, Selection.wanted, if_pos hw, Schema.namesOf,
    List.map_map]
  rfl

/-- The steps of a plan are tasks whose nodes stand, below each parent, in the order in which a row
is loaded with them; below a marked node there are none yet. -/
theorem exists_tasks_of_ofSelection {settings : Settings} {allowed : Option Selection} {plan : Plan}
    (hschema : schema.Registered)
    (h : ofSelection schema settings model s allowed = .ok plan) :
    Orderly schema model plan.steps ∧ ∃ tasks : List Task,
      tasks.map (·.step) = plan.steps ∧ (∀ t ∈ tasks, t.Fits) ∧
      nodesUnder tasks none = s.wanted schema model ∧
      ∀ t ∈ tasks, nodesUnder tasks (some t.step.index) =
        if t.step.growth = .none then t.node.children else [] := by
  obtain ⟨-, -, -, hrec, ⟨hw, hsteps⟩ | ⟨hw, hsteps⟩⟩ := ofSelection_eq_ok h
  · rw [hsteps]
    refine ⟨orderly_everyRelation hschema model,
      (everyRelation schema model).map taskOfEverything, ?_, ?_, ?_, ?_⟩
    · simp [taskOfEverything, Function.comp_def]
    · intro t ht
      obtain ⟨step, hs, rfl⟩ := List.mem_map.1 ht
      obtain ⟨i, hi, rfl⟩ := List.mem_mapIdx.1 hs
      exact fits_taskOfEverything rfl
    · rw [nodesUnder_eq_all fun t ht => ?_]
      · exact nodes_taskOfEverything (fun i r => rfl) hw
      · obtain ⟨step, hs, rfl⟩ := List.mem_map.1 ht
        obtain ⟨i, hi, rfl⟩ := List.mem_mapIdx.1 hs
        rfl
    · intro t ht
      obtain ⟨step, hs, rfl⟩ := List.mem_map.1 ht
      obtain ⟨i, hi, rfl⟩ := List.mem_mapIdx.1 hs
      rw [if_neg (by nofun)]
      refine nodesUnder_eq_nil fun t ht => ?_
      obtain ⟨step, hs, rfl⟩ := List.mem_map.1 ht
      obtain ⟨i, hi, rfl⟩ := List.mem_mapIdx.1 hs
      nofun
  · have hsize : Selection.sizeOfAll ((pendingRoot model s).map (·.node)) ≤ s.size := by
      simp [pendingRoot, Function.comp_def, sizeOfAll_children]
    obtain ⟨tasks, hlaid, hmap⟩ := (laid_pendingRoot schema model s).resolveLevels hsize hsteps
    rw [List.nil_append] at hlaid
    refine ⟨hmap ▸ hlaid.orderly, tasks, hmap, hlaid.fits, ?_, fun t ht => ?_⟩
    · have hbase := hlaid.base
      rw [queuedUnder_nil, List.append_nil] at hbase
      simp [hbase, Selection.wanted, hw, hrec]
    · have hbelow := hlaid.below t ht
      rw [queuedUnder_nil, List.append_nil] at hbelow
      rw [hbelow]
      split
      · rfl
      · rename_i hg
        exact hlaid.leaf t ht hg

/-- The steps of a plan are in order. -/
theorem orderly_of_ofSelection {settings : Settings} {allowed : Option Selection} {plan : Plan}
    (hschema : schema.Registered)
    (h : ofSelection schema settings model s allowed = .ok plan) :
    Orderly schema plan.model plan.steps := by
  obtain ⟨-, -, hmodel, -⟩ := ofSelection_eq_ok h
  rw [hmodel]
  exact (exists_tasks_of_ofSelection hschema h).1

end Plan

end Prefetch
