import Mathlib.Data.Set.Card
import Prefetch.Proofs.Schema.Ledger

/-!
# History — what a sequence of declarations leaves behind

Declarations are asked for one after the other, starting with nothing, and each of them is accepted
or refused.  What can be read off the schema at the end is said in terms of the accepted ones: the
names of a model are in the order of their first time, each stands for what it was first declared
with, and the numbers count what a look-up finds.

* `History.recorded_after` — a schema records the accepted declarations, each name once.
* `Registered.consistent`, `Registered.counted` — all readings of a schema agree, the numbers too.
* `History.keeps_after` — a ledger that goes through the same history keeps the schema.
* `History.faithful_after` — all of this, after any declarations.
-/

namespace Prefetch.Schema

/-- The schema left by some declarations, and which of them were accepted. -/
structure History where
  schema : Schema := .empty
  accepted : List Entry := []

namespace History

/-- Asks for one more declaration; a refused one leaves everything as it was. -/
def ask (h : History) (e : Entry) : History :=
  match h.schema.register e.model e.relation e.association with
  | .error _ => h
  | .ok t => ⟨t, h.accepted ++ [e]⟩

/-- Asks for all of some declarations, starting with nothing. -/
def after (calls : List Entry) : History :=
  calls.foldl ask {}

theorem after_concat (calls : List Entry) (e : Entry) :
    after (calls ++ [e]) = (after calls).ask e :=
  List.foldl_concat ..

/-- What a schema has of the declarations that were accepted. -/
structure Recorded (h : History) : Prop where
  /-- A model's names are those declared on it, in the order of their first time. -/
  order : ∀ model, h.schema.namesOf model =
    ((h.accepted.filter fun e => e.model == model).map (·.relation)).eraseDups
  nodup : ∀ model, (h.schema.namesOf model).Nodup
  /-- The names of a model are those that stand for something. -/
  listed : ∀ model relation,
    relation ∈ h.schema.namesOf model ↔ (h.schema.lookup model relation).isSome
  /-- A name stands for what it was first declared with. -/
  first : ∀ model relation, h.schema.lookup model relation =
    (h.accepted.find? fun e => e.model == model && e.relation == relation).map (·.association)
  checked : ∀ model relation a, h.schema.lookup model relation = some a → a.check = .ok ()

end History

/-- All readings of a schema agree. -/
structure Consistent (s : Schema) : Prop where
  require_ok : ∀ model relation a,
    s.require model relation = .ok a ↔ s.lookup model relation = some a
  require_error : ∀ model relation e, s.require model relation = .error e ↔
    s.lookup model relation = none ∧ e = .unknownRelation model relation
  has : ∀ model relation, s.has model relation = (s.lookup model relation).isSome
  relationsOf : ∀ model, s.relationsOf model =
    (s.namesOf model).filterMap fun n => (s.lookup model n).map fun a => (n, a)
  mem_relationsOf : ∀ model relation a,
    (relation, a) ∈ s.relationsOf model ↔ s.lookup model relation = some a
  names : ∀ model, s.namesOf model = (s.relationsOf model).map (·.1)

/-- The numbers of a schema count what can be read off it. -/
structure Counted (s : Schema) : Prop where
  models : s.models.length = {model | s.namesOf model ≠ []}.ncard
  relations : s.entries.length = {k : String × String | (s.lookup k.1 k.2).isSome}.ncard
  kinds : ∀ kind, s.countOf kind =
    {k : String × String | ∃ a, s.lookup k.1 k.2 = some a ∧ a.kind = kind}.ncard
  total : s.entries.length =
    s.countOf .oneToOne + s.countOf .oneToMany + s.countOf .manyToMany

namespace History

/-- What becomes of one more declaration. -/
structure Decided (calls : List Entry) (e : Entry) : Prop where
  accepted_iff :
    (∃ t, (after calls).schema.register e.model e.relation e.association = .ok t) ↔
      Text.allBlank e.model = false ∧ Text.allBlank e.relation = false ∧
        e.association.check = .ok () ∧
        ∀ known, (after calls).schema.lookup e.model e.relation = some known →
          known = e.association
  /-- A refused one leaves no trace, neither in the schema nor in the ledger. -/
  refused : ∀ fault,
    (after calls).schema.register e.model e.relation e.association = .error fault →
      after (calls ++ [e]) = after calls ∧ Ledger.after (calls ++ [e]) = Ledger.after calls
  /-- Schema and ledger give the same answer. -/
  outcome : ((Ledger.after calls).register e.model e.relation e.association).1 =
    ((after calls).schema.register e.model e.relation e.association).map fun _ => ()

end History

/-! ### Readings -/

theorem Registered.lookup_eq_some {s : Schema} (h : s.Registered) {model relation : String}
    {a : Association} :
    s.lookup model relation = some a ↔ ⟨model, relation, a⟩ ∈ s.entries :=
  ⟨fun hl => mem_relationsOf.1 (mem_relationsOf_of_lookup hl), fun he => h.lookup_of_mem he⟩

theorem Registered.consistent {s : Schema} (h : s.Registered) : s.Consistent where
  require_ok _ _ _ := require_eq_ok
  require_error _ _ _ := require_eq_error
  has _ _ := rfl
  relationsOf := h.relationsOf_eq
  mem_relationsOf _ _ _ := mem_relationsOf.trans h.lookup_eq_some.symm
  names _ := rfl

/-! ### Numbers -/

/-- No two declarations are about one relation. -/
theorem Registered.nodup_keys {s : Schema} (h : s.Registered) :
    (s.entries.map fun e => (e.model, e.relation)).Nodup := by
  induction h with
  | empty => exact List.nodup_nil
  | register before accepted ih =>
    rcases register_eq_ok accepted with ⟨hnew, rfl⟩ | ⟨-, rfl⟩
    · rw [List.map_append, List.nodup_append]
      refine ⟨ih, List.nodup_singleton _, ?_⟩
      rintro _ hold _ hlast rfl
      obtain ⟨e, he, hkey⟩ := List.mem_map.1 hold
      obtain ⟨hmodel, hrelation⟩ := Prod.mk.inj (hkey.trans (List.mem_singleton.1 hlast))
      have hfound := before.lookup_of_mem he
      rw [hmodel, hrelation, hnew] at hfound
      cases hfound
    · exact ih

/-- Counting declarations is counting the relations that a look-up finds. -/
theorem Registered.countP_eq_ncard {s : Schema} (h : s.Registered) (p : Association → Bool) :
    s.entries.countP (fun e => p e.association) =
      {k : String × String | ∃ a, s.lookup k.1 k.2 = some a ∧ p a}.ncard := by
  have hkeys : (s.entries.filter fun e => p e.association).map (fun e => (e.model, e.relation))
      |>.Nodup := h.nodup_keys.sublist (List.filter_sublist.map _)
  have hset : {k : String × String | ∃ a, s.lookup k.1 k.2 = some a ∧ p a} =
      ((s.entries.filter fun e => p e.association).map
        fun e => (e.model, e.relation)).toFinset := by
    ext ⟨model, relation⟩
    simp only [Set.mem_ofPred_eq, List.coe_toFinset, List.mem_map, List.mem_filter]
    constructor
    · rintro ⟨a, ha, hp⟩
      exact ⟨_, ⟨h.lookup_eq_some.1 ha, hp⟩, rfl⟩
    · rintro ⟨e, ⟨he, hp⟩, hkey⟩
      obtain ⟨rfl, rfl⟩ := Prod.mk.inj hkey
      exact ⟨_, h.lookup_of_mem he, hp⟩
  rw [hset, Set.ncard_coe_finset, List.toFinset_card_of_nodup hkeys, List.length_map,
    List.countP_eq_length_filter]

theorem nodup_models (s : Schema) : s.models.Nodup := by
  unfold models
  induction s.entries.map (·.model) using List.reverseRecOn with
  | nil => exact List.nodup_nil
  | append_singleton l a ih =>
    rw [eraseDups_concat]
    by_cases ha : a ∈ l
    · rwa [if_pos ha, List.append_nil]
    · rw [if_neg ha, List.nodup_append]
      refine ⟨ih, List.nodup_singleton _, ?_⟩
      rintro b hb _ hlast rfl
      exact ha (List.mem_singleton.1 hlast ▸ List.mem_eraseDups.1 hb)

theorem Registered.counted {s : Schema} (h : s.Registered) : s.Counted where
  models := by
    have hset : {model | s.namesOf model ≠ []} = (s.models.toFinset : Set String) := by
      ext model
      simp only [Set.mem_ofPred_eq, List.coe_toFinset, mem_models]
    rw [hset, Set.ncard_coe_finset, List.toFinset_card_of_nodup s.nodup_models]
  relations := by
    have hall := h.countP_eq_ncard fun _ => true
    simp only [List.countP_true, and_true] at hall
    simpa only [Option.isSome_iff_exists] using hall
  total := by
    unfold countOf
    induction s.entries with
    | nil => rfl
    | cons e rest ih =>
      simp only [List.length_cons, List.countP_cons, ih]
      cases e.association.kind <;> simp <;> omega
  kinds kind := by
    rw [countOf, h.countP_eq_ncard fun a => a.kind == kind]
    simp only [beq_iff_eq]

/-! ### Histories -/

namespace History

variable {h : History} {e : Entry}

theorem ask_eq (h : History) (e : Entry) :
    h.ask e = h ∨
      (h.schema.lookup e.model e.relation = none ∧
        h.ask e = ⟨⟨h.schema.entries ++ [e]⟩, h.accepted ++ [e]⟩) ∨
      (h.schema.lookup e.model e.relation = some e.association ∧
        h.ask e = ⟨h.schema, h.accepted ++ [e]⟩) := by
  unfold ask
  split
  · exact .inl rfl
  · rename_i t hask
    rcases register_eq_ok hask with ⟨hl, rfl⟩ | ⟨hl, rfl⟩
    · exact .inr (.inl ⟨hl, rfl⟩)
    · exact .inr (.inr ⟨hl, rfl⟩)

theorem registered_ask (h : History) (e : Entry) (hr : h.schema.Registered) :
    (h.ask e).schema.Registered := by
  unfold ask
  split
  · exact hr
  · rename_i hask
    exact .register hr hask

theorem registered_after (calls : List Entry) : (after calls).schema.Registered := by
  induction calls using List.reverseRecOn with
  | nil => exact .empty
  | append_singleton calls e ih =>
    rw [after_concat]
    exact registered_ask _ e ih

/-- The names accepted for a model are known to the schema, and those are all. -/
theorem order_ask (hall : ∀ model, h.schema.namesOf model = (namesOf ⟨h.accepted⟩ model).eraseDups)
    (model : String) :
    (h.ask e).schema.namesOf model = (namesOf ⟨(h.ask e).accepted⟩ model).eraseDups := by
  have hmem : e.relation ∈ namesOf ⟨h.accepted⟩ e.model ↔
      (h.schema.lookup e.model e.relation).isSome := by
    rw [← List.mem_eraseDups, ← hall, mem_namesOf]
  have hlast : (namesOf ⟨h.accepted ++ [e]⟩ model).eraseDups = h.schema.namesOf model ++
      if e.model = model ∧ h.schema.lookup e.model e.relation = none then [e.relation] else [] := by
    rw [namesOf_append ⟨h.accepted⟩]
    by_cases hm : e.model = model
    · subst hm
      rw [if_pos rfl, eraseDups_concat, ← hall]
      cases hl : h.schema.lookup e.model e.relation <;> simp [hmem, hl]
    · simp [hm, hall]
  rcases ask_eq h e with he | ⟨hl, he⟩ | ⟨hl, he⟩
  · rw [he]
    exact hall model
  · rw [he, hlast, namesOf_append]
    simp only [hl, and_true]
  · rw [he, hlast, hl]
    simp

theorem lookup_ask (hall : ∀ model relation,
      h.schema.lookup model relation = lookup ⟨h.accepted⟩ model relation) (model relation : String) :
    (h.ask e).schema.lookup model relation = lookup ⟨(h.ask e).accepted⟩ model relation := by
  rcases ask_eq h e with he | ⟨-, he⟩ | ⟨hl, he⟩
  · rw [he]
    exact hall model relation
  · rw [he]
    dsimp only
    rw [lookup_append, lookup_append ⟨h.accepted⟩, hall]
  · rw [he]
    dsimp only
    rw [lookup_append ⟨h.accepted⟩, ← hall]
    split
    · rename_i hkey
      rw [← hkey.1, ← hkey.2, hl, Option.some_or]
    · rw [Option.or_none]

theorem recorded_after (calls : List Entry) : (after calls).Recorded where
  order := by
    simp only [← namesOf_eq ⟨(after calls).accepted⟩]
    induction calls using List.reverseRecOn with
    | nil => exact fun _ => rfl
    | append_singleton calls e ih =>
      rw [after_concat]
      exact order_ask ih
  nodup := (registered_after calls).nodup_namesOf
  listed _ _ := mem_namesOf
  first := by
    induction calls using List.reverseRecOn with
    | nil => exact fun _ _ => rfl
    | append_singleton calls e ih =>
      rw [after_concat]
      exact lookup_ask ih
  checked _ _ _ hl := (registered_after calls).check_of_mem
    ((registered_after calls).lookup_eq_some.1 hl)

theorem keeps_ask {l : Ledger} (hl : l.Keeps h.schema) :
    (l.register e.model e.relation e.association).2.Keeps (h.ask e).schema := by
  unfold ask
  rcases hl.register e.model e.relation e.association with
    ⟨fault, hs, he⟩ | ⟨t, l', hs, he, hkeeps⟩
  · rw [hs, he]
    exact hl
  · rw [hs, he]
    exact hkeeps

theorem keeps_after (calls : List Entry) : (Ledger.after calls).Keeps (after calls).schema := by
  induction calls using List.reverseRecOn with
  | nil => exact Ledger.keeps_empty
  | append_singleton calls e ih =>
    rw [Ledger.after_concat, after_concat]
    exact keeps_ask ih

theorem decided (calls : List Entry) (e : Entry) : Decided calls e where
  accepted_iff := register_ok_iff
  refused fault hs := by
    rcases (keeps_after calls).register e.model e.relation e.association with
      ⟨_, -, he⟩ | ⟨t, _, hs', -⟩
    · rw [after_concat, Ledger.after_concat, he, ask, hs]
      exact ⟨rfl, rfl⟩
    · cases hs.symm.trans hs'
  outcome := by
    rcases (keeps_after calls).register e.model e.relation e.association with
      ⟨_, hs, he⟩ | ⟨t, _, hs, he, -⟩ <;> rw [hs, he] <;> rfl

/-- Whatever has been asked for: the schema records what was accepted, its readings and its numbers
agree, it is decided as it should be about the next declaration, and a ledger with the same history
keeps it, with its pages in step. -/
theorem faithful_after (calls : List Entry) :
    (after calls).Recorded ∧ (after calls).schema.Consistent ∧ (after calls).schema.Counted ∧
      (∀ e, Decided calls e) ∧
      (Ledger.after calls).Keeps (after calls).schema ∧ (Ledger.after calls).InStep ∧
      ∀ model, (Ledger.after calls).relationsOf model = (after calls).schema.relationsOf model :=
  have hr := registered_after calls
  have hkeeps := keeps_after calls
  ⟨recorded_after calls, hr.consistent, hr.counted, decided calls, hkeeps, hkeeps.inStep hr,
    hkeeps.relationsOf hr⟩

end History

end Prefetch.Schema
