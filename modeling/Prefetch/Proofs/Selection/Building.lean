import Prefetch.Error
import Prefetch.Proofs.Selection.Merging

/-!
# Building — the operations on trees keep them well-formed

A selection may be put together by hand: from a name, by adding a child, by a mark, by merging.
Each of these operations looks only at what it needs to refuse, and a merge puts marks and children
in order after it has brought both together.  Yet nothing that they return is out of shape, in
whatever order they are applied.

* `withChild_eq_ok` — when a child is taken in, and what comes of it.
* `wellFormed_withChild`, `wellFormed_follow` — one step each; for a merge see `wellFormed_merge`,
  for a `*` see `wellFormed_everything`.
* `Built`, `Built.wellFormed` — trees that come from the operations.
* `wellFormed_operations` — all operations together.
-/

namespace Prefetch.Selection

variable {s t m : Selection}

/-! ### One operation -/

theorem wellFormed_named (name : String) : (named name).WellFormed :=
  .intro ⟨nofun, distinct_nil, fun _ => rfl, nofun, fun h => absurd rfl h, nofun⟩ nofun

/-- A child is taken in by a node that has no mark and no child of its name, behind all others. -/
theorem withChild_eq_ok : s.withChild t = .ok m ↔
    s.wildcard = false ∧ s.recursive = false ∧ find? s.children t.label = none ∧
      m = { s with children := s.children ++ [t] } := by
  unfold withChild
  split
  · rename_i hmarked
    simp only [Bool.or_eq_true] at hmarked
    simp only [reduceCtorEq, false_iff]
    rintro ⟨hw, hr, -⟩
    rcases hmarked with h | h <;> simp [h] at hw hr
  · rename_i hplain
    simp only [Bool.or_eq_true, not_or, Bool.not_eq_true] at hplain
    cases hplace : place s.children t 0 with
    | error e =>
      have hknown : find? s.children t.label ≠ none := by
        intro hnew
        have hplaced : place s.children t 0 = .ok _ := place_eq_ok.2 ⟨hnew, rfl⟩
        rw [hplace] at hplaced
        cases hplaced
      simp [hknown]
    | ok children =>
      obtain ⟨hnew, rfl⟩ := place_eq_ok.1 hplace
      simp [hplain, hnew, eq_comm]

/-- One more child, of a new name, under a node without marks. -/
theorem wellFormed_withChild (hs : s.WellFormed) (ht : t.WellFormed) (hname : t.name ≠ none)
    (h : s.withChild t = .ok m) : m.WellFormed := by
  obtain ⟨hw, hr, hnew, rfl⟩ := withChild_eq_ok.1 h
  have hc := hs.coherent
  have hdistinct : Distinct (s.children ++ [t]) :=
    (distinct_concat (name_eq_label hname)).2 ⟨hc.distinct, hnew⟩
  refine .intro ⟨?_, hdistinct, ?_, hc.oneMark, hc.bound, hc.root⟩ ?_
  · exact List.forall_mem_append.2 ⟨hc.named, List.forall_mem_singleton.2 hname⟩
  · simp [hw, hr]
  · exact List.forall_mem_append.2 ⟨fun c hm => hs.of_mem hm, List.forall_mem_singleton.2 ht⟩

/-- A recursion, with or without a bound, at a named node that has nothing below it and no `*`. -/
theorem wellFormed_follow (hname : s.name ≠ none) (hchildren : s.children = [])
    (hw : s.wildcard = false) (limit : Option Nat) : (s.follow limit).WellFormed := by
  refine .intro ⟨?_, ?_, fun _ => hchildren, ?_, fun _ => rfl, fun h => absurd h hname⟩ ?_
  · simp [follow, hchildren]
  · simp [follow, hchildren, distinct_nil]
  · simp [follow, hw]
  · simp [follow, hchildren]

/-! ### Any number of operations -/

/-- What comes from names and texts by the operations, where a child has a name, a recursion is put
at a named node with neither children nor `*`, and two roots or two named nodes are merged. -/
inductive Built : Selection → Prop where
  | root : Built root
  | named (name : String) : Built (named name)
  | parse {text : String} {s : Selection} (h : parse text = .ok s) : Built s
  | withChild {s t m : Selection} (hs : Built s) (ht : Built t) (hname : t.name ≠ none)
      (h : s.withChild t = .ok m) : Built m
  | everything {s : Selection} (hs : Built s) : Built s.everything
  | follow {s : Selection} (hs : Built s) (hname : s.name ≠ none) (hchildren : s.children = [])
      (hw : s.wildcard = false) (limit : Option Nat) : Built (s.follow limit)
  | merge {s t m : Selection} (hs : Built s) (ht : Built t)
      (hname : s.name = none ↔ t.name = none) (h : s.merge t = .ok m) : Built m

/-- No sequence of operations leads out of the well-formed trees. -/
theorem Built.wellFormed (h : Built s) : s.WellFormed := by
  induction h with
  | root => exact wellFormed_root
  | named name => exact wellFormed_named name
  | parse h => exact (writable_of_parse h).wellFormed
  | withChild _ _ hname h ihs iht => exact wellFormed_withChild ihs iht hname h
  | everything _ _ => exact wellFormed_everything _
  | follow _ hname hchildren hw limit _ => exact wellFormed_follow hname hchildren hw limit
  | merge _ _ hname h ihs iht => exact wellFormed_merge ihs iht hname.1 h

/-- Every operation takes well-formed trees to a well-formed tree, if it does not fail: reading
gives well-formed roots, and so it is with one more named child, a `*`, a `^` on a named node that
has neither children nor a `*`, and a merge of two roots or of two named nodes. -/
theorem wellFormed_operations (hs : s.WellFormed) (ht : t.WellFormed) :
    (∀ text r, parse text = .ok r → r.name = none ∧ r.WellFormed) ∧
      (t.name ≠ none → ∀ m, s.withChild t = .ok m → m.WellFormed) ∧
      s.everything.WellFormed ∧
      (s.name ≠ none → s.children = [] → s.wildcard = false →
        ∀ limit, (s.follow limit).WellFormed) ∧
      ((s.name = none ↔ t.name = none) → ∀ m, s.merge t = .ok m → m.WellFormed) := by
  refine ⟨fun text r h => ?_, fun hname m h => wellFormed_withChild hs ht hname h,
    wellFormed_everything s, wellFormed_follow, fun hname m h => wellFormed_merge hs ht hname.1 h⟩
  have hr := writable_of_parse h
  exact ⟨hr.unnamed, hr.wellFormed⟩

/-- A merge in which one child is absorbed by a `*`, one stays and one is new; and the same two
nodes put one below the other. -/
theorem wellFormed_operations_pets :
    let s : Selection :=
      { named "pets" with children := [{ named "toys" with children := [named "owner"] },
        named "food"] }
    let t : Selection :=
      { named "pets" with children := [(named "toys").everything, named "vet"] }
    let both : Selection :=
      { named "pets" with children := [(named "toys").everything, named "food", named "vet"] }
    let nested : Selection := { s with children := s.children ++ [t] }
    s.merge t = .ok both ∧ both.WellFormed ∧ s.withChild t = .ok nested ∧ nested.WellFormed ∧
      s.everything.WellFormed := by
  intro s t both nested
  have hs : s.WellFormed :=
    (writable_of_parse (show parse "pets.[toys.owner, food]" = .ok { children := [s] } by rfl)
      ).wellFormed.of_mem List.mem_cons_self
  have ht : t.WellFormed :=
    (writable_of_parse (show parse "pets.[toys.*, vet]" = .ok { children := [t] } by rfl)
      ).wellFormed.of_mem List.mem_cons_self
  have hboth : s.merge t = .ok both := by rfl
  have hnested : s.withChild t = .ok nested := by rfl
  obtain ⟨-, hchild, hstar, -, hmerge⟩ := wellFormed_operations hs ht
  exact ⟨hboth, hmerge ⟨nofun, nofun⟩ both hboth, hnested, hchild nofun nested hnested, hstar⟩

end Prefetch.Selection
