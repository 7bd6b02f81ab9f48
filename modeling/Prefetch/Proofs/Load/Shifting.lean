import Mathlib.Data.List.Forall2
import Prefetch.Proofs.Load.Growth

/-!
# Shifting — steps that grow alike

A recursive relation that is spelled out once begins its recursion one level later and, with a bound,
has one use less to go.  Two steps that differ in this way only fetch the same, and what is put below
them differs in the same way again.

* `shifted_of_grow` — growth keeps the difference.
* `shifted_of_growAll` — and so does all that a wave adds.
-/

namespace Prefetch

/-- The step without its growth: what it fetches, and for which rows. -/
def Step.bare (s : Step) : Step :=
  { s with growth := .none }

/-- Growth that puts the same below a step, from the same level on or from one level further down; a
recursion at its bound puts nothing there. -/
inductive Growth.Shifts : Growth → Growth → Prop where
  | same (g : Growth) : Shifts g g
  | endless (level : Nat) : Shifts (.again .none (level + 1)) (.again .none level)
  | bounded (most level : Nat) :
    Shifts (.again (some (most + 1)) (level + 1)) (.again (some most) level)
  | spent {most level : Nat} (bound : most ≤ level) : Shifts (.again (some most) level) .none

/-- Two steps that fetch the same and grow alike. -/
structure Step.Shifted (s s' : Step) : Prop where
  bare : s.bare = s'.bare
  growth : Growth.Shifts s.growth s'.growth

theorem Step.Shifted.refl (s : Step) : Shifted s s :=
  ⟨rfl, .same s.growth⟩

/-- A step is what it fetches together with its growth. -/
theorem Step.eq_of_bare {s s' : Step} (h : s.bare = s'.bare) (hg : s.growth = s'.growth) :
    s = s' := by
  obtain ⟨index, parent, path, owner, a, depth, growth⟩ := s
  obtain ⟨index', parent', path', owner', a', depth', growth'⟩ := s'
  simp only [bare, mk.injEq, and_true] at h
  obtain ⟨rfl, rfl, rfl, rfl, rfl, rfl⟩ := h
  obtain rfl : growth = growth' := hg
  rfl

theorem Step.index_of_bare {s s' : Step} (h : s.bare = s'.bare) : s.index = s'.index := by
  have hindex : s.bare.index = s'.bare.index := by rw [h]
  exact hindex

theorem Step.depth_of_bare {s s' : Step} (h : s.bare = s'.bare) : s.depth = s'.depth := by
  have hdepth : s.bare.depth = s'.bare.depth := by rw [h]
  exact hdepth

namespace Context

variable {c : Context}

theorem again_eq_ok {step : Step} {index level : Nat} {limit : Option Nat} {below : List Step}
    (h : c.again step index limit level = .ok below) :
    ∃ a, c.schema.lookup step.association.target step.relation = some a ∧
      below = [⟨index, some step.index, step.below step.relation, step.association.target, a,
        step.depth + 1, .again limit (level + 1)⟩] := by
  unfold again at h
  split at h
  · cases h
  · rename_i a ha
    exact ⟨a, Schema.require_eq_ok.1 ha, (Except.ok.inj h).symm⟩

theorem again_congr {s s' : Step} (h : s.bare = s'.bare) (index : Nat) (limit : Option Nat)
    (level : Nat) : c.again s index limit level = c.again s' index limit level := by
  have hbare : ∀ step : Step, c.again step.bare index limit level = c.again step index limit level :=
    fun _ => rfl
  rw [← hbare s, h, hbare]

/-- Growth keeps the difference. -/
theorem shifted_of_grow {s s' : Step} {index : Nat} {below below' : List Step} (hs : s.Shifted s')
    (h : c.grow s index = .ok below) (h' : c.grow s' index = .ok below') :
    List.Forall₂ Step.Shifted below below' := by
  obtain ⟨hbare, hgrowth⟩ := hs
  -- a recursion that goes on, on both sides
  have hagain : ∀ {limit limit' : Option Nat} {level level' : Nat},
      Growth.Shifts (.again limit (level + 1)) (.again limit' (level' + 1)) →
      c.again s index limit level = .ok below → c.again s' index limit' level' = .ok below' →
      List.Forall₂ Step.Shifted below below' := by
    intro limit limit' level level' hshift h h'
    rw [again_congr hbare] at h
    obtain ⟨a, ha, rfl⟩ := again_eq_ok h
    obtain ⟨a', ha', rfl⟩ := again_eq_ok h'
    obtain rfl : a = a' := Option.some.inj (ha.symm.trans ha')
    exact .cons ⟨rfl, hshift⟩ .nil
  generalize hg : s.growth = g at hgrowth
  generalize hg' : s'.growth = g' at hgrowth
  cases hgrowth with
  | same =>
    obtain rfl := Step.eq_of_bare hbare (hg.trans hg'.symm)
    obtain rfl := Except.ok.inj (h.symm.trans h')
    exact List.forall₂_same.2 fun step _ => .refl step
  | endless level =>
    simp only [grow, hg] at h
    simp only [grow, hg'] at h'
    split at h
    · cases h
    · split at h'
      · cases h'
      · exact hagain (.endless (level + 1)) h h'
  | bounded most level =>
    simp only [grow, hg] at h
    simp only [grow, hg'] at h'
    split at h
    · rw [if_pos (by omega)] at h'
      obtain rfl := Except.ok.inj h
      obtain rfl := Except.ok.inj h'
      exact .nil
    · rw [if_neg (by omega)] at h'
      exact hagain (.bounded most (level + 1)) h h'
  | spent hbound =>
    simp only [grow, hg, if_pos hbound] at h
    simp only [grow, hg'] at h'
    obtain rfl := Except.ok.inj h
    obtain rfl := Except.ok.inj h'
    exact .nil

/-- All that a wave adds differs in the same way. -/
theorem shifted_of_growAll {steps steps' : List Step} {index : Nat} {more more' : List Step}
    (hs : List.Forall₂ Step.Shifted steps steps') (h : c.growAll index steps = .ok more)
    (h' : c.growAll index steps' = .ok more') : List.Forall₂ Step.Shifted more more' := by
  induction hs generalizing index more more' with
  | nil =>
    obtain rfl := Except.ok.inj h
    obtain rfl := Except.ok.inj h'
    exact .nil
  | @cons s s' steps steps' hss _ ih =>
    obtain ⟨below, rest, hbelow, hrest, rfl⟩ := growAll_cons_eq_ok h
    obtain ⟨below', rest', hbelow', hrest', rfl⟩ := growAll_cons_eq_ok h'
    have hfirst := shifted_of_grow hss hbelow hbelow'
    rw [← hfirst.length_eq] at hrest'
    exact List.rel_append hfirst (ih hrest hrest')

end Context

end Prefetch
