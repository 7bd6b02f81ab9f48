import Prefetch.Value

/-!
# JoinKey — when two values join

Texts join by content; numbers and truth values join by their text, so `1` and `"1"` join, and `1`
and `1.0` do not.  Null, lists and records never join.

* `mem_distinct` — distinct keys are values that were there and that join.
-/

namespace Prefetch

/-- What a value joins by. -/
structure JoinKey where
  text : String
  deriving DecidableEq

/-- The key of a value, if it joins at all. -/
def Value.joinKey? : Value → Option JoinKey
  | string s => some ⟨s⟩
  | number n => some ⟨n.text⟩
  | bool b => some ⟨if b then "true" else "false"⟩
  | null => none
  | array _ => none
  | object _ => none

namespace JoinKey

/-- The values that join, without those whose key is in `seen` or was met before. -/
def distinct : List JoinKey → List Value → List Value
  | _, [] => []
  | seen, v :: vs =>
    match v.joinKey? with
    | none => distinct seen vs
    | some k => if k ∈ seen then distinct seen vs else v :: distinct (k :: seen) vs

/-- The distinct keys that rows hold in a column, as they are in the rows, in the order met. -/
def collect (rows : List Value) (column : String) : List Value :=
  distinct [] (rows.filterMap (·.field? column))

theorem mem_distinct {seen : List JoinKey} {vs : List Value} {v : Value}
    (h : v ∈ distinct seen vs) : v ∈ vs ∧ ∃ k, v.joinKey? = some k ∧ k ∉ seen := by
  induction vs generalizing seen with
  | nil => simp [distinct] at h
  | cons w vs ih =>
    cases hw : w.joinKey? with
    | none =>
      simp only [distinct, hw] at h
      obtain ⟨hm, hk⟩ := ih h
      exact ⟨List.mem_cons_of_mem w hm, hk⟩
    | some k =>
      by_cases hs : k ∈ seen
      · simp only [distinct, hw, if_pos hs] at h
        obtain ⟨hm, hk⟩ := ih h
        exact ⟨List.mem_cons_of_mem w hm, hk⟩
      · simp only [distinct, hw, if_neg hs, List.mem_cons] at h
        rcases h with rfl | h
        · exact ⟨List.mem_cons_self, k, hw, hs⟩
        · obtain ⟨hm, k', hk', hn⟩ := ih h
          exact ⟨List.mem_cons_of_mem w hm, k', hk', fun hin => hn (List.mem_cons_of_mem k hin)⟩

end JoinKey

end Prefetch
