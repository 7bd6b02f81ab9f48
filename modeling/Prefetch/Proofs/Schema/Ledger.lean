import Mathlib.Data.Finmap
import Prefetch.Proofs.Schema.Registered

/-!
# Ledger — a schema kept model by model

The other way to keep declarations: a page for each model, with the names of its relations in order
and, apart from them, what each name stands for.  Nothing but `register` keeps the two in step.  A
ledger is changed in place, and the page of a model is opened before anyone looks whether the name is
taken, so that a refusal has to be shown to leave no trace.

* `Ledger.Keeps` — a ledger and a schema answer every question alike.
* `Keeps.register` — a declaration has one outcome on both; they go on answering alike after it, and
  a refused one leaves the ledger as it was.
-/

namespace Prefetch

/-- What is kept of one model. -/
structure Ledger.Page where
  /-- The names, in the order they were declared. -/
  order : List String := []
  /-- What the names stand for. -/
  stored : Finmap fun _ : String => Association := ∅

/-- A page for each model. -/
structure Ledger where
  pages : Finmap fun _ : String => Ledger.Page := ∅

namespace Ledger

/-- Writes one more relation down, at the end. -/
def Page.declare (p : Page) (relation : String) (a : Association) : Page :=
  ⟨p.order ++ [relation], p.stored.insert relation a⟩

/-- How many relations of a page are of a kind. -/
def Page.countOf (p : Page) (kind : Association.Kind) : Nat :=
  p.stored.entries.countP fun r => r.2.kind = kind

/-- The page of a model; a blank one for a model without a page. -/
def page (l : Ledger) (model : String) : Page :=
  (l.pages.lookup model).getD {}

/-- The ledger with a page for a model, in place of the one it had. -/
def put (l : Ledger) (model : String) (p : Page) : Ledger :=
  ⟨l.pages.insert model p⟩

/-- The association of a relation, if it is declared. -/
def lookup (l : Ledger) (model relation : String) : Option Association :=
  (l.page model).stored.lookup relation

/-- The names of a model's relations. -/
def namesOf (l : Ledger) (model : String) : List String :=
  (l.page model).order

/-- The relations of a model with their associations, name by name. -/
def relationsOf (l : Ledger) (model : String) : List (String × Association) :=
  (l.namesOf model).filterMap fun n => (l.lookup model n).map fun a => (n, a)

/-- How many models have a page. -/
def pageCount (l : Ledger) : Nat :=
  l.pages.keys.card

/-- How many relations are of a kind, summed over the pages. -/
def countOf (l : Ledger) (kind : Association.Kind) : Nat :=
  (l.pages.entries.map fun r => r.2.countOf kind).sum

/-- Declares a relation on a model: the outcome, and the ledger that is left. -/
def register (l : Ledger) (model relation : String) (a : Association) :
    Except Schema.Fault Unit × Ledger :=
  if Text.allBlank model || Text.allBlank relation then (.error .blankName, l)
  else match a.check with
    | .error fault => (.error (.invalid relation model fault), l)
    | .ok () =>
      let opened := l.put model (l.page model)
      match opened.lookup model relation with
      | some known =>
        (if known = a then .ok () else .error (.conflict relation model), opened)
      | none => (.ok (), opened.put model ((opened.page model).declare relation a))

/-- The ledger left by some declarations, starting with no pages. -/
def after (calls : List Schema.Entry) : Ledger :=
  calls.foldl (fun l e => (l.register e.model e.relation e.association).2) {}

theorem after_concat (calls : List Schema.Entry) (e : Schema.Entry) :
    after (calls ++ [e]) = ((after calls).register e.model e.relation e.association).2 :=
  List.foldl_concat ..

/-! ### Finite maps -/

section Finmap

variable {β : Type} {m : Finmap fun _ : String => β} {key : String} {b : β}

theorem insert_of_lookup (h : m.lookup key = some b) : m.insert key b = m := by
  refine Finmap.ext_lookup fun other => ?_
  by_cases ho : other = key
  · rw [ho, Finmap.lookup_insert, h]
  · rw [Finmap.lookup_insert_of_ne _ ho]

/-- The entry that was set stands beside those of the other keys. -/
theorem entries_insert (m : Finmap fun _ : String => β) (key : String) (b : β) :
    (m.insert key b).entries = ⟨key, b⟩ ::ₘ (m.erase key).entries := by
  have hm : m.insert key b = (m.erase key).insert key b := by
    refine Finmap.ext_lookup fun other => ?_
    by_cases ho : other = key
    · rw [ho, Finmap.lookup_insert, Finmap.lookup_insert]
    · rw [Finmap.lookup_insert_of_ne _ ho, Finmap.lookup_insert_of_ne _ ho,
        Finmap.lookup_erase_ne ho]
  rw [hm, Finmap.entries_insert_of_notMem Finmap.notMem_erase_self]

/-- In a sum over the values, the new value takes the place of the one before it. -/
theorem sum_insert (f : β → Nat) (m : Finmap fun _ : String => β) (key : String) (b : β) :
    ((m.insert key b).entries.map fun r => f r.2).sum + (m.lookup key).elim 0 f =
      (m.entries.map fun r => f r.2).sum + f b := by
  cases hm : m.lookup key with
  | none =>
    rw [Finmap.entries_insert_of_notMem (Finmap.lookup_eq_none.1 hm), Multiset.map_cons,
      Multiset.sum_cons, Option.elim_none, Nat.add_zero, Nat.add_comm]
  | some old =>
    have hold := entries_insert m key old
    rw [insert_of_lookup hm] at hold
    rw [entries_insert, hold, Multiset.map_cons, Multiset.map_cons, Multiset.sum_cons,
      Multiset.sum_cons, Option.elim_some]
    dsimp only
    omega

end Finmap

/-! ### Pages -/

@[simp] theorem page_put (l : Ledger) (model : String) (p : Page) (other : String) :
    (l.put model p).page other = if other = model then p else l.page other := by
  unfold page put
  split
  · rename_i h
    rw [h, Finmap.lookup_insert, Option.getD_some]
  · rename_i h
    rw [Finmap.lookup_insert_of_ne _ h]

/-- A model with a relation has a page. -/
theorem lookup_pages {l : Ledger} {model relation : String} {a : Association}
    (h : l.lookup model relation = some a) : l.pages.lookup model = some (l.page model) := by
  unfold page
  cases hp : l.pages.lookup model with
  | some p => rfl
  | none => simp [lookup, page, hp] at h

/-- Opening the page of a model with a relation changes nothing. -/
theorem put_page {l : Ledger} {model relation : String} {a : Association}
    (h : l.lookup model relation = some a) : l.put model (l.page model) = l := by
  rw [put, insert_of_lookup (lookup_pages h)]

theorem put_put (l : Ledger) (model : String) (p q : Page) :
    (l.put model p).put model q = l.put model q := by
  rw [put, put, put, Finmap.insert_insert]

theorem mem_pages_put {l : Ledger} {model other : String} {p : Page} :
    other ∈ (l.put model p).pages ↔ other = model ∨ other ∈ l.pages :=
  Finmap.mem_insert

theorem pageCount_put (l : Ledger) (model : String) (p : Page) :
    (l.put model p).pageCount = l.pageCount + if model ∈ l.pages then 0 else 1 := by
  have hkeys : (l.put model p).pages.keys = insert model l.pages.keys := by
    ext other
    rw [Finmap.mem_keys, mem_pages_put, Finset.mem_insert, Finmap.mem_keys]
  by_cases hm : model ∈ l.pages
  · rw [pageCount, hkeys, Finset.insert_eq_of_mem (Finmap.mem_keys.2 hm), if_pos hm]
    rfl
  · rw [pageCount, hkeys, Finset.card_insert_of_notMem (mt Finmap.mem_keys.1 hm), if_neg hm]
    rfl

theorem countOf_put (l : Ledger) (model : String) (p : Page) (kind : Association.Kind) :
    (l.put model p).countOf kind + (l.page model).countOf kind = l.countOf kind + p.countOf kind := by
  have hpage : (l.page model).countOf kind = (l.pages.lookup model).elim 0 (·.countOf kind) := by
    unfold page
    cases l.pages.lookup model <;> rfl
  rw [hpage]
  exact sum_insert (·.countOf kind) l.pages model p

theorem Page.countOf_declare {p : Page} {relation : String} (a : Association)
    (h : p.stored.lookup relation = none) (kind : Association.Kind) :
    (p.declare relation a).countOf kind = p.countOf kind + if a.kind = kind then 1 else 0 := by
  rw [countOf, declare, Finmap.entries_insert_of_notMem (Finmap.lookup_eq_none.1 h),
    Multiset.countP_cons]
  rfl

/-! ### A ledger beside a schema -/

/-- A ledger and a schema answer every question alike. -/
structure Keeps (l : Ledger) (s : Schema) : Prop where
  names : ∀ model, l.namesOf model = s.namesOf model
  lookup : ∀ model relation, l.lookup model relation = s.lookup model relation
  /-- Only models with a relation have a page. -/
  pages : ∀ model, model ∈ l.pages ↔ model ∈ s.models
  pageCount : l.pageCount = s.models.length
  countOf : ∀ kind, l.countOf kind = s.countOf kind

theorem keeps_empty : Keeps {} .empty where
  names _ := rfl
  lookup _ _ := rfl
  pages _ := ⟨fun h => absurd h Finmap.notMem_empty, fun h => nomatch h⟩
  pageCount := rfl
  countOf _ := rfl

variable {l : Ledger} {s : Schema}

/-- A new relation, written down on both sides. -/
theorem Keeps.declare (h : l.Keeps s) {model relation : String} (a : Association)
    (hnew : s.lookup model relation = none) :
    (l.put model ((l.page model).declare relation a)).Keeps
      ⟨s.entries ++ [⟨model, relation, a⟩]⟩ where
  names other := by
    rw [Schema.namesOf_append, ← h.names other, namesOf, page_put]
    by_cases ho : other = model
    · simp [ho, Page.declare, namesOf]
    · simp [ho, Ne.symm ho, namesOf]
  lookup other name := by
    rw [Schema.lookup_append, ← h.lookup other name, Ledger.lookup, page_put]
    by_cases ho : other = model
    · rw [if_pos ho, Page.declare, ho]
      by_cases hn : name = relation
      · have hnone : l.lookup model relation = none := (h.lookup model relation).trans hnew
        rw [hn, Finmap.lookup_insert, hnone, Option.none_or, if_pos ⟨rfl, rfl⟩]
      · rw [Finmap.lookup_insert_of_ne _ hn, if_neg fun he => hn he.2.symm, Option.or_none]
        rfl
    · rw [if_neg ho, if_neg fun he => ho he.1.symm, Option.or_none]
      rfl
  pages other := by
    rw [mem_pages_put, h.pages, Schema.models_append, List.mem_append]
    by_cases hm : model ∈ s.models
    · have hmem : other = model → other ∈ s.models := fun ho => ho ▸ hm
      simp [hm, or_iff_right_of_imp hmem]
    · simp [hm, or_comm]
  pageCount := by
    rw [pageCount_put, h.pageCount, Schema.models_append, List.length_append]
    by_cases hm : model ∈ s.models
    · rw [if_pos ((h.pages model).2 hm), if_pos hm]
      rfl
    · rw [if_neg (mt (h.pages model).1 hm), if_neg hm]
      rfl
  countOf kind := by
    have hput := countOf_put l model ((l.page model).declare relation a) kind
    rw [Page.countOf_declare a ((h.lookup model relation).trans hnew)] at hput
    rw [Schema.countOf_append, ← h.countOf kind]
    dsimp only
    omega

/-- A declaration has the same outcome on a ledger and on the schema that it keeps.  One that is
refused leaves the ledger as it was; after one that is accepted the ledger keeps the schema still. -/
theorem Keeps.register (h : l.Keeps s) (model relation : String) (a : Association) :
    (∃ fault, s.register model relation a = .error fault ∧
      l.register model relation a = (.error fault, l)) ∨
    ∃ t l', s.register model relation a = .ok t ∧ l.register model relation a = (.ok (), l') ∧
      l'.Keeps t := by
  unfold Schema.register Ledger.register
  by_cases hblank : (Text.allBlank model || Text.allBlank relation) = true
  · rw [if_pos hblank, if_pos hblank]
    exact .inl ⟨_, rfl, rfl⟩
  · rw [if_neg hblank, if_neg hblank]
    cases a.check with
    | error fault => exact .inl ⟨_, rfl, rfl⟩
    | ok _ =>
      have hopened : (l.put model (l.page model)).lookup model relation =
          s.lookup model relation := by
        rw [Ledger.lookup, page_put, if_pos rfl]
        exact h.lookup model relation
      simp only [hopened]
      cases hs : s.lookup model relation with
      | none =>
        refine .inr ⟨_, _, rfl, rfl, ?_⟩
        rw [put_put, page_put, if_pos rfl]
        exact h.declare a hs
      | some known =>
        -- the name is taken, so the page was there before it was opened
        have hsame : l.put model (l.page model) = l :=
          put_page ((h.lookup model relation).trans hs)
        by_cases hk : known = a
        · exact .inr ⟨s, l, if_pos hk, by simp only [if_pos hk, hsame], h⟩
        · exact .inl ⟨_, if_neg hk, by simp only [if_neg hk, hsame]⟩

/-- The two halves of every page agree, and there is no blank page. -/
structure InStep (l : Ledger) : Prop where
  nodup : ∀ model p, l.pages.lookup model = some p → p.order.Nodup
  listed : ∀ model p, l.pages.lookup model = some p →
    ∀ relation, relation ∈ p.order ↔ relation ∈ p.stored
  written : ∀ model p, l.pages.lookup model = some p → p.order ≠ []

theorem page_of_lookup {model : String} {p : Page} (h : l.pages.lookup model = some p) :
    l.page model = p := by
  rw [page, h, Option.getD_some]

theorem Keeps.inStep (h : l.Keeps s) (hs : s.Registered) : l.InStep where
  nodup model p hp := by
    rw [← page_of_lookup hp, ← namesOf, h.names]
    exact hs.nodup_namesOf model
  listed model p hp relation := by
    rw [← page_of_lookup hp, ← namesOf, h.names, Schema.mem_namesOf, ← h.lookup]
    exact Finmap.lookup_isSome
  written model p hp := by
    rw [← page_of_lookup hp, ← namesOf, h.names, ← Schema.mem_models, ← h.pages]
    exact Finmap.mem_of_lookup_eq_some hp

/-- Both list the same relations with the same associations. -/
theorem Keeps.relationsOf (h : l.Keeps s) (hs : s.Registered) (model : String) :
    l.relationsOf model = s.relationsOf model := by
  rw [Ledger.relationsOf, h.names, hs.relationsOf_eq]
  simp only [h.lookup]

end Ledger

end Prefetch
