import Mathlib.Algebra.Field.Basic
import Mathlib.Data.Nat.Cast.Field
import Mathlib.Tactic.FieldSimp
import Mathlib.Tactic.Ring

/-! # Running means

A mean that is kept up to date by adding `(x - mean) / n` for the `n`-th value is the mean
of all values, in any field in which no count is zero.
-/
namespace RunningMean
variable {K : Type*} [Field K]

/-- The arithmetic mean; that of no values is 0. -/
def mean (xs : List K) : K := xs.sum / xs.length

@[simp] theorem mean_nil : mean ([] : List K) = 0 := by
  simp [mean]

theorem mean_singleton (x : K) : mean [x] = x := by
  simp [mean]

/-- **The running mean is the mean.** -/
theorem mean_concat [CharZero K] (xs : List K) (x : K) :
    mean (xs ++ [x]) = mean xs + (x - mean xs) / ((xs.length + 1 : ℕ) : K) := by
  by_cases hnil : xs = []
  · subst hnil
    simp [mean_singleton]
  · have hlen : (xs.length : K) ≠ 0 :=
      Nat.cast_ne_zero.mpr fun h => hnil (List.length_eq_zero_iff.mp h)
    have hsucc : (xs.length : K) + 1 ≠ 0 := Nat.cast_add_one_ne_zero _
    have hsum : (xs ++ [x]).sum = xs.sum + x := by simp
    have hcount : (xs ++ [x]).length = xs.length + 1 := by simp
    rw [mean, mean, hsum, hcount]
    push_cast
    field_simp
    ring

end RunningMean
