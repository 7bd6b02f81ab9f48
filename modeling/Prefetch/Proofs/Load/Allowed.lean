import Prefetch.Proofs.Load.Waves
import Prefetch.Proofs.Plan.Resolution
import Prefetch.Proofs.Selection.Coverage
import Prefetch.Source.Scripted

/-!
# Allowed — a run stays on paths that the allowed selection covers

The allowed selection is checked once, against the request, before anything is planned; steps are
put below others long after.  Each step carries on what its node was permitted: where the walk along
its path stands, and how much room is left there for the recursion that the step still wants.

* `Granted` — the permission that a step carries.
* `Granted.of_resolves` — the steps of a plan have it.
* `Granted.of_grows` — growth keeps it.
* `execute_covered` — all steps of a run, and all its queries, are on covered paths.
-/

namespace Prefetch

open Selection

/-- A step has permission for its path and for all it may still grow to: a `*` has been met on its
path, or the walk along it stands at a node of the step's relation and, if the step uses it again,
has room for as many uses as the step has left. -/
def Granted (allowed : Selection) (s : Step) : Prop :=
  MeetsStar allowed s.path ∨
    ∃ a used, Walk allowed s.path a used ∧ a.label = s.relation ∧ s.growth ≠ .everything ∧
      ∀ limit level, s.growth = .again limit level → a.recursive = true ∧
        ∀ most, a.limit = some most → ∃ wanted, limit = some wanted ∧
          (level < wanted → used + (wanted - level) ≤ most)

namespace Granted

variable {allowed : Selection} {step s : Step}

theorem covers (h : Granted allowed s) : Covers allowed s.path := by
  rcases h with h | ⟨a, used, hw, -⟩
  · exact .inl h
  · exact .inr ⟨a, used, hw⟩

/-- The step of a permitted node has the permission of the node. -/
theorem of_resolves {schema : Schema} {p : Plan.Pending}
    (hp : Permits allowed (p.path ++ [p.node.label]) p.node) (h : Plan.Resolves schema p s) :
    Granted allowed s := by
  cases hp with
  | star hs => exact .inl (h.path ▸ hs)
  | @walk _ _ a used hw hplain hroom _ =>
    refine .inr ⟨a, used, h.path ▸ hw, hw.label_eq.trans h.relation.symm, ?_, ?_⟩
    · rcases h.growth with ⟨hstar, -⟩ | ⟨-, -, hg, -⟩ | ⟨-, -, hg⟩
      · rw [hplain] at hstar
        cases hstar
      · rw [hg]
        nofun
      · rw [hg]
        nofun
    · intro limit level hg
      rcases h.growth with ⟨hstar, -⟩ | ⟨-, hr, hg', -⟩ | ⟨-, -, hg'⟩
      · rw [hplain] at hstar
        cases hstar
      · obtain ⟨rfl, rfl⟩ : p.node.limit = limit ∧ 1 = level := by simpa using hg'.symm.trans hg
        obtain ⟨har, hmost⟩ := hroom hr
        refine ⟨har, fun most hm => ?_⟩
        obtain ⟨wanted, hl, hle⟩ := hmost most hm
        exact ⟨wanted, hl, fun hlt => by omega⟩
      · cases hg'.symm.trans hg

/-- A step that is put below a step goes on with its permission. -/
theorem of_grows {c : Context} (h : Granted allowed step) (hg : c.Grows step s) :
    Granted allowed s := by
  rcases h with hs | ⟨a, used, hw, hlabel, hplain, hagain⟩
  · exact .inl (hg.path ▸ hs.append _)
  · rcases hg.growth with ⟨limit, level, hstep, hs, hrel, hbound, -⟩ | ⟨hstep, -⟩
    · obtain ⟨har, hmost⟩ := hagain limit level hstep
      have hroom : ∀ most, a.limit = some most → used + 1 ≤ most := by
        intro most hm
        obtain ⟨wanted, rfl, hle⟩ := hmost most hm
        have := hbound wanted rfl
        have := hle this
        omega
      have hname : s.relation = a.label := hrel.trans hlabel.symm
      refine .inr ⟨a, used + 1, ?_, hname.symm, by rw [hs]; nofun, ?_⟩
      · rw [hg.path]
        exact hw.again har hname hroom
      · intro limit' level' hs'
        obtain ⟨rfl, rfl⟩ : limit = limit' ∧ level + 1 = level' := by simpa using hs.symm.trans hs'
        refine ⟨har, fun most hm => ?_⟩
        obtain ⟨wanted, rfl, hle⟩ := hmost most hm
        refine ⟨wanted, rfl, fun hlt => ?_⟩
        have := hle (by omega)
        omega
    · exact absurd hstep hplain

end Granted

/-- Every step of a plan has permission when the request has it. -/
theorem granted_of_ofSelection {schema : Schema} {settings : Settings} {model : String}
    {allowed requested : Selection} {p : Plan} (hfit : FitsWord allowed requested)
    (h : Plan.ofSelection schema settings model requested (some allowed) = .ok p) :
    ∀ s ∈ p.steps, Granted allowed s := by
  obtain ⟨ha, -, -, -, hsteps⟩ := Plan.ofSelection_eq_ok h
  have hnone : allowed.firstDenied requested = none := by
    unfold checkAllowed at ha
    split at ha
    · rename_i he
      cases he
    · rename_i a he
      obtain rfl := Option.some.inj he
      split at ha
      · assumption
      · cases ha
  have hp := permits_of_firstDenied hfit hnone
  rcases hsteps with ⟨hw, hs⟩ | ⟨-, hs⟩
  · -- a requested `*` is permitted only by a `*` met already, here the root's own
    rw [hs]
    intro s hmem
    obtain ⟨i, hi, rfl⟩ := List.mem_mapIdx.1 hmem
    cases hp with
    | star hstar => exact .inl (hstar.append _)
    | walk _ hplain _ _ =>
      rw [hw] at hplain
      cases hplain
  · have step : ∀ p s, Permits allowed (p.path ++ [p.node.label]) p.node →
        Plan.Resolves schema p s → Granted allowed s ∧
          ∀ q ∈ Plan.pendingBelow s p.node, Permits allowed (q.path ++ [q.node.label]) q.node := by
      intro p s hwait hr
      refine ⟨.of_resolves hwait hr, fun q hq => ?_⟩
      obtain ⟨c, hc, rfl⟩ := List.mem_map.1 hq
      simp only [hr.path]
      exact hwait.of_mem hc
    refine Plan.forall_of_resolveLevels step hs fun q hq => ?_
    obtain ⟨c, hc, rfl⟩ := List.mem_map.1 hq
    exact hp.of_mem hc

/-- A plan that an allowed selection has let pass runs on covered paths only: every step that comes
up in any wave has one, planned or put below others later, and every query is sent for such a
step.  The request may be any tree, and schema, settings and source are arbitrary. -/
theorem execute_covered {schema : Schema} {settings : Settings} {model : String}
    {allowed requested : Selection} {p : Plan} (hfit : FitsWord allowed requested)
    (h : Plan.ofSelection schema settings model requested (some allowed) = .ok p) (c : Context)
    (base : List Value) :
    (∀ t b, c.Reaches base p t b → ∀ step ∈ b.steps, Covers allowed step.path) ∧
      ∀ q ∈ (c.execute base p).issued, ∃ t b, c.Reaches base p t b ∧ ∃ step ∈ b.ready,
        Covers allowed step.path ∧
          ∃ r ∈ b.requestsOf base c.settings.batchSize step, q.query = r.query := by
  have covered : ∀ t b, c.Reaches base p t b → ∀ step ∈ b.steps, Covers allowed step.path := by
    intro t b hb step hs
    have hgranted := hb.forall_steps (granted_of_ofSelection hfit h) fun _ _ => Granted.of_grows
    exact (hgranted step hs).covers
  refine ⟨covered, fun q hq => ?_⟩
  obtain ⟨t, b, hb, step, hs, hr⟩ := Context.exists_reaches_of_mem_issued hq
  exact ⟨t, b, hb, step, hs, covered t b hb step (Board.mem_steps_of_mem_ready hs), hr⟩

/-- A request that spells out one use of a bounded recursive relation and asks for two more. -/
theorem execute_covered_chain :
    let parent : Association := ⟨.oneToOne, "node", "nodes", "parent_id", "id", none⟩
    let schema : Schema := ⟨[⟨"node", "parent", parent⟩]⟩
    let allowed : Selection := { children := [(named "parent").follow (some 3)] }
    let requested : Selection :=
      { children := [{ named "parent" with children := [(named "parent").follow (some 2)] }] }
    let p : Plan := ⟨"node",
      [⟨0, none, ["parent"], "node", parent, 1, .none⟩,
        ⟨1, some 0, ["parent", "parent"], "node", parent, 2, .again (some 2) 1⟩]⟩
    let c : Context := ⟨schema, {}, Source.scripted [], [], none⟩
    FitsWord allowed requested ∧
      Plan.ofSelection schema {} "node" requested (some allowed) = .ok p ∧
      ∀ q ∈ (c.execute [.object [("parent_id", .string "1")]] p).issued, ∃ t b,
        c.Reaches [.object [("parent_id", .string "1")]] p t b ∧ ∃ step ∈ b.ready,
          Covers allowed step.path ∧
            ∃ r ∈ b.requestsOf [.object [("parent_id", .string "1")]] c.settings.batchSize step,
              q.query = r.query := by
  intro parent schema allowed requested p c
  have hfit : FitsWord allowed requested := by
    intro path node wanted ho hr hl a used hw
    rcases ho.eq_or_below with ⟨-, rfl⟩ | ⟨c₁, hc₁, rest₁, rfl, ho₁⟩
    · cases hl
    · obtain rfl := List.mem_singleton.1 hc₁
      rcases ho₁.eq_or_below with ⟨-, rfl⟩ | ⟨c₂, hc₂, rest₂, rfl, ho₂⟩
      · cases hl
      · obtain rfl := List.mem_singleton.1 hc₂
        rcases ho₂.eq_or_below with ⟨rfl, rfl⟩ | ⟨c₃, hc₃, -⟩
        · have hu : used ≤ 3 := hw.used_le
          obtain rfl : 2 = wanted := Option.some.inj hl
          simp only [Text.maxWord]
          omega
        · cases hc₃
  have hplan : Plan.ofSelection schema {} "node" requested (some allowed) = .ok p := by rfl
  exact ⟨hfit, hplan, (execute_covered hfit hplan c _).2⟩

end Prefetch
