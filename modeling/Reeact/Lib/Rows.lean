import Mathlib.Data.List.Basic
import Mathlib.Tactic.Common

/-!
# Rows

A two-dimensional array laid out row after row in one list, `c` entries a row,
and lists whose elements are sorted into `n` classes of `c` each: both have
`n * c` entries.
-/

namespace Rows

variable {α : Type}

/-- The first `n` rows, one after the other. -/
def rows (row : ℕ → List α) (n : ℕ) : List α := (List.range n).flatMap row

section Layout

variable {row : ℕ → List α} {c n : ℕ}

@[simp] theorem rows_zero : rows row 0 = [] := rfl

theorem rows_succ (row : ℕ → List α) (n : ℕ) : rows row (n + 1) = rows row n ++ row n := by
  unfold rows
  rw [List.range_succ, List.flatMap_append, List.flatMap_singleton]

theorem length_rows (h : ∀ i < n, (row i).length = c) : (rows row n).length = n * c := by
  induction n with
  | zero => rw [rows_zero, List.length_nil, Nat.zero_mul]
  | succ n ih =>
      rw [rows_succ, List.length_append, ih (fun i hi => h i (by omega)), h n (by omega),
        Nat.succ_mul]

/-- Entry `k` of row `i` is at `i * c + k`. -/
theorem getElem?_rows (h : ∀ i < n, (row i).length = c) {i k : ℕ} (hi : i < n) (hk : k < c) :
    (rows row n)[i * c + k]? = (row i)[k]? := by
  induction n with
  | zero => exact absurd hi (Nat.not_lt_zero i)
  | succ n ih =>
      have hlen : (rows row n).length = n * c := length_rows (fun i hi => h i (by omega))
      rw [rows_succ]
      by_cases he : i = n
      · subst he
        rw [List.getElem?_append_right (by omega), hlen, Nat.add_sub_cancel_left]
      · have hrow : (i + 1) * c ≤ n * c := Nat.mul_le_mul_right c (by omega)
        rw [Nat.succ_mul] at hrow
        rw [List.getElem?_append_left (by omega)]
        exact ih (fun i hi => h i (by omega)) (by omega)

/-- An index of a row is one of the array. -/
theorem index_lt {i k : ℕ} (hi : i < n) (hk : k < c) : i * c + k < n * c := by
  have hrow : (i + 1) * c ≤ n * c := Nat.mul_le_mul_right c hi
  rw [Nat.succ_mul] at hrow
  omega

end Layout

/-- A list of `n` classes of `c` elements. -/
theorem length_of_classes {l : List α} {cls : α → ℕ} {n c : ℕ} (hlt : ∀ x ∈ l, cls x < n)
    (hlen : ∀ i < n, (l.filter (fun x => cls x = i)).length = c) : l.length = n * c := by
  induction n generalizing l with
  | zero =>
      cases l with
      | nil => rw [List.length_nil, Nat.zero_mul]
      | cons x l => exact absurd (hlt x List.mem_cons_self) (Nat.not_lt_zero _)
  | succ n ih =>
      -- the last class, and the others
      have hsplit := List.length_eq_length_filter_add (l := l) (fun x => decide (cls x = n))
      have hrest : (l.filter (fun x => !decide (cls x = n))).length = n * c := by
        apply ih
        · intro x hx
          rw [List.mem_filter] at hx
          have hne : cls x ≠ n := by simpa using hx.2
          have := hlt x hx.1
          omega
        · intro i hi
          rw [← hlen i (by omega), List.filter_filter]
          congr 1
          apply List.filter_congr
          intro x _
          by_cases he : cls x = i
          · have hne : ¬ cls x = n := by omega
            simp [he, Nat.ne_of_lt hi]
          · simp [he]
      rw [hsplit, hrest, hlen n (by omega), Nat.succ_mul, Nat.add_comm]

end Rows
