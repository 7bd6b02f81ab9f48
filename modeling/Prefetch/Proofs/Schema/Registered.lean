import Mathlib.Data.List.Basic
import Prefetch.Error

/-!
# Registered — schemas that were built one declaration at a time

* `Registered.lookup_of_mem` — every declaration is the one that a look-up finds.
* `Registered.nodup_namesOf` — no model has two relations of one name.
-/

namespace Prefetch.Schema

/-! ### Reading a schema -/

theorem require_eq_ok {s : Schema} {model relation : String} {a : Association} :
    s.require model relation = .ok a ↔ s.lookup model relation = some a := by
  unfold require
  cases s.lookup model relation <;> simp

theorem require_eq_error {s : Schema} {model relation : String} {e : Error} :
    s.require model relation = .error e ↔
      s.lookup model relation = none ∧ e = .unknownRelation model relation := by
  unfold require
  cases s.lookup model relation <;> simp [eq_comm]

theorem mem_relationsOf_of_lookup {s : Schema} {model relation : String} {a : Association}
    (h : s.lookup model relation = some a) : (relation, a) ∈ s.relationsOf model := by
  obtain ⟨e, he, rfl⟩ := Option.map_eq_some_iff.1 h
  have hm := List.mem_of_find?_eq_some he
  have hp := List.find?_some he
  simp only [Bool.and_eq_true, beq_iff_eq] at hp
  refine List.mem_filterMap.2 ⟨e, hm, ?_⟩
  simp [hp.1, hp.2]

theorem namesOf_eq (s : Schema) (model : String) :
    s.namesOf model = (s.entries.filter fun e => e.model == model).map (·.relation) := by
  rw [namesOf, relationsOf, List.map_filterMap, ← List.filterMap_eq_filter, List.map_filterMap]
  refine List.filterMap_congr fun e _ => ?_
  by_cases h : e.model = model <;> simp [h, Option.guard]

/-- A model's names are those that a look-up knows. -/
theorem mem_namesOf {s : Schema} {model relation : String} :
    relation ∈ s.namesOf model ↔ (s.lookup model relation).isSome := by
  simp [namesOf, relationsOf, lookup, List.find?_isSome, and_comm]

theorem mem_models {s : Schema} {model : String} : model ∈ s.models ↔ s.namesOf model ≠ [] := by
  simp [models, namesOf, relationsOf, List.mem_eraseDups]

/-! ### One more declaration -/

theorem namesOf_append (s : Schema) (e : Entry) (model : String) :
    namesOf ⟨s.entries ++ [e]⟩ model =
      s.namesOf model ++ if e.model = model then [e.relation] else [] := by
  by_cases h : e.model = model <;> simp [namesOf, relationsOf, h]

theorem countOf_append (s : Schema) (e : Entry) (kind : Association.Kind) :
    countOf ⟨s.entries ++ [e]⟩ kind =
      s.countOf kind + if e.association.kind = kind then 1 else 0 := by
  simp [countOf, List.countP_append, List.countP_cons]

/-- Of a list with one more element at the end, only that one can be new. -/
theorem eraseDups_concat {α : Type} [DecidableEq α] (l : List α) (a : α) :
    (l ++ [a]).eraseDups = l.eraseDups ++ if a ∈ l then [] else [a] := by
  rw [List.eraseDups_append]
  by_cases h : a ∈ l <;> simp [List.removeAll, List.eraseDups_cons, h]

theorem models_append (s : Schema) (e : Entry) :
    models ⟨s.entries ++ [e]⟩ = s.models ++ if e.model ∈ s.models then [] else [e.model] := by
  simp only [models, List.map_append, List.map_cons, List.map_nil, eraseDups_concat,
    List.mem_eraseDups]

/-- When a declaration is accepted. -/
theorem register_ok_iff {s : Schema} {model relation : String} {a : Association} :
    (∃ t, s.register model relation a = .ok t) ↔
      Text.allBlank model = false ∧ Text.allBlank relation = false ∧ a.check = .ok () ∧
        ∀ known, s.lookup model relation = some known → known = a := by
  unfold register
  by_cases hblank : (Text.allBlank model || Text.allBlank relation) = true
  · rw [if_pos hblank]
    refine ⟨fun ⟨t, ht⟩ => (nomatch ht), fun h => ?_⟩
    rw [h.1, h.2.1] at hblank
    cases hblank
  · rw [if_neg hblank]
    obtain ⟨hmodel, hrelation⟩ : Text.allBlank model = false ∧ Text.allBlank relation = false := by
      simpa using hblank
    cases a.check with
    | error fault => simp
    | ok _ =>
      cases s.lookup model relation with
      | none => simp [hmodel, hrelation]
      | some known => by_cases hk : known = a <;> simp [hmodel, hrelation, hk]

/-! ### Schemas that were built -/

/-- The schemas that come of declaring relations, starting with none. -/
inductive Registered : Schema → Prop where
  | empty : Registered .empty
  | register {s t : Schema} {model relation : String} {a : Association} (before : Registered s)
      (accepted : s.register model relation a = .ok t) : Registered t

theorem mem_relationsOf {s : Schema} {model : String} {r : String × Association} :
    r ∈ s.relationsOf model ↔ ⟨model, r.1, r.2⟩ ∈ s.entries := by
  unfold relationsOf
  rw [List.mem_filterMap]
  constructor
  · rintro ⟨e, he, hr⟩
    split at hr
    · rename_i hm
      obtain rfl := Option.some.inj hr
      obtain rfl : e.model = model := by simpa using hm
      exact he
    · cases hr
  · intro he
    exact ⟨_, he, by simp⟩

/-- No two declarations have the model and the name in common. -/
theorem Registered.lookup_of_mem {s : Schema} (h : s.Registered) {e : Entry} (he : e ∈ s.entries) :
    s.lookup e.model e.relation = some e.association := by
  induction h with
  | empty => cases he
  | register _ accepted ih =>
    rcases register_eq_ok accepted with ⟨hnew, rfl⟩ | ⟨-, rfl⟩
    · rw [lookup_append]
      rcases List.mem_append.1 he with he | he
      · rw [ih he, Option.some_or]
      · obtain rfl := List.mem_singleton.1 he
        rw [hnew, Option.none_or, if_pos ⟨rfl, rfl⟩]
    · exact ih he

theorem Registered.lookup_of_mem_relationsOf {s : Schema} (h : s.Registered) {model : String}
    {r : String × Association} (hr : r ∈ s.relationsOf model) :
    s.lookup model r.1 = some r.2 :=
  h.lookup_of_mem (mem_relationsOf.1 hr)

/-- Every association in a schema has passed its check. -/
theorem Registered.check_of_mem {s : Schema} (h : s.Registered) {e : Entry} (he : e ∈ s.entries) :
    e.association.check = .ok () := by
  induction h with
  | empty => cases he
  | register _ accepted ih =>
    rcases register_eq_ok accepted with ⟨-, rfl⟩ | ⟨-, rfl⟩
    · rcases List.mem_append.1 he with he | he
      · exact ih he
      · obtain rfl := List.mem_singleton.1 he
        exact (register_ok_iff.1 ⟨_, accepted⟩).2.2.1
    · exact ih he

/-- The relations of a model are its names, each with what a look-up finds. -/
theorem Registered.relationsOf_eq {s : Schema} (h : s.Registered) (model : String) :
    s.relationsOf model =
      (s.namesOf model).filterMap fun n => (s.lookup model n).map fun a => (n, a) := by
  rw [namesOf, List.filterMap_map]
  calc s.relationsOf model = (s.relationsOf model).filterMap some := List.filterMap_some.symm
    _ = _ := List.filterMap_congr fun r hr => by
      rw [Function.comp_apply, h.lookup_of_mem_relationsOf hr, Option.map_some]

/-- No model has two relations of one name. -/
theorem Registered.nodup_namesOf {s : Schema} (h : s.Registered) (model : String) :
    (s.namesOf model).Nodup := by
  induction h with
  | empty => exact List.nodup_nil
  | @register s t owner relation a before accepted ih =>
    rcases register_eq_ok accepted with ⟨hnew, rfl⟩ | ⟨-, rfl⟩
    · rw [namesOf_append]
      split
      · rename_i hmodel
        obtain rfl : owner = model := hmodel
        refine List.nodup_append.2 ⟨ih, by simp, ?_⟩
        rintro name hname _ hlast rfl
        obtain rfl := List.mem_singleton.1 hlast
        obtain ⟨r, hr, rfl⟩ := List.mem_map.1 hname
        cases hnew.symm.trans (before.lookup_of_mem_relationsOf hr)
      · rwa [List.append_nil]
    · exact ih

end Prefetch.Schema
