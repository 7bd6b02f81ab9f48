/-!
# Batch — cutting a list into pieces of bounded length

* `flatten_chunks` — the pieces put together are the list.
* `nil_not_mem_chunks` — no piece is empty.
* `length_le_of_mem_chunks` — no piece is longer than the bound.
* `length_chunks` — there are as few pieces as the bound allows.
-/

namespace Prefetch

/-- Pieces of `n` elements, the last one possibly shorter; a bound of zero does not cut. -/
def chunks (n : Nat) (xs : List α) : List (List α) :=
  if n = 0 ∨ xs.length ≤ n then
    if xs.isEmpty then [] else [xs]
  else xs.take n :: chunks n (xs.drop n)
termination_by xs.length
decreasing_by
  simp only [List.length_drop]
  omega

theorem flatten_chunks (n : Nat) (xs : List α) : (chunks n xs).flatten = xs := by
  fun_induction chunks n xs with
  | case1 xs _ he => simpa using he.symm
  | case2 xs _ _ => simp
  | case3 xs _ ih => simp [ih]

theorem nil_not_mem_chunks (n : Nat) (xs : List α) : [] ∉ chunks n xs := by
  fun_induction chunks n xs with
  | case1 => simp
  | case2 xs _ he =>
    rw [List.mem_singleton]
    rintro rfl
    simp at he
  | case3 xs hb ih =>
    rw [List.mem_cons, not_or]
    refine ⟨fun h => ?_, ih⟩
    have hl := congrArg List.length h
    rw [List.length_nil, List.length_take] at hl
    omega

theorem length_le_of_mem_chunks {n : Nat} (hn : n ≠ 0) {xs : List α} {c : List α}
    (h : c ∈ chunks n xs) : c.length ≤ n := by
  fun_induction chunks n xs with
  | case1 => simp at h
  | case2 xs hb _ =>
    simp only [List.mem_singleton] at h
    subst h
    omega
  | case3 xs _ ih =>
    simp only [List.mem_cons] at h
    rcases h with rfl | h
    · simp only [List.length_take]
      omega
    · exact ih h

theorem length_chunks {n : Nat} (hn : 0 < n) (xs : List α) :
    (chunks n xs).length = (xs.length + n - 1) / n := by
  fun_induction chunks n xs with
  | case1 xs _ he =>
    rw [List.isEmpty_iff.1 he, List.length_nil, List.length_nil, Nat.zero_add]
    exact (Nat.div_eq_of_lt (by omega)).symm
  | case2 xs hb he =>
    have hpos := List.length_pos_iff.2 fun h => he (List.isEmpty_iff.2 h)
    rw [List.length_singleton, show xs.length + n - 1 = xs.length - 1 + n by omega,
      Nat.add_div_right _ hn, Nat.div_eq_of_lt (by omega)]
  | case3 xs hb ih =>
    rw [List.length_cons, ih, List.length_drop, ← Nat.add_div_right _ hn]
    congr 1
    omega

end Prefetch
