import Mathlib.Data.Fintype.Card
import Mathlib.Data.Finset.Card
import Mathlib.Algebra.Order.BigOperators.Group.Finset

/-! # Tallies

How many of finitely many actors are at a position of some kind, and how the number
changes when one of them moves.
-/
namespace Tally

variable {ι κ : Type*} [Fintype ι] {P : κ → Bool} {pos : ι → κ} {i j : ι}

/-- The number of actors whose position satisfies `P`. -/
def tally (P : κ → Bool) (pos : ι → κ) : Nat := (Finset.univ.filter fun i => P (pos i)).card

theorem tally_eq_zero (h : ∀ i, P (pos i) = false) : tally P pos = 0 := by
  refine Finset.card_eq_zero.mpr (Finset.filter_eq_empty_iff.mpr ?_)
  intro i _
  rw [h i]
  nofun

theorem tally_pos (h : P (pos i) = true) : 0 < tally P pos :=
  Finset.card_pos.mpr ⟨i, Finset.mem_filter.mpr ⟨Finset.mem_univ i, h⟩⟩

theorem exists_of_tally_pos (h : 0 < tally P pos) : ∃ i, P (pos i) = true := by
  obtain ⟨i, hi⟩ := Finset.card_pos.mp h
  exact ⟨i, (Finset.mem_filter.mp hi).2⟩

/-- Of a tally of at most one, any two members are the same. -/
theorem eq_of_tally_le_one (h : tally P pos ≤ 1) (hi : P (pos i) = true)
    (hj : P (pos j) = true) : i = j :=
  Finset.card_le_one.mp h i (Finset.mem_filter.mpr ⟨Finset.mem_univ i, hi⟩)
    j (Finset.mem_filter.mpr ⟨Finset.mem_univ j, hj⟩)

/-- Positions of the same kind give the same tally. -/
theorem tally_congr {pos' : ι → κ} (h : ∀ i, P (pos' i) = P (pos i)) :
    tally P pos' = tally P pos := by
  unfold tally
  simp only [h]

section Move
variable [DecidableEq ι] {k : κ}

/-- A move within a kind does not change the tally. -/
theorem tally_update (h : P k = P (pos i)) : tally P (Function.update pos i k) = tally P pos := by
  refine tally_congr fun j => ?_
  by_cases hj : j = i
  · rw [hj, Function.update_self, h]
  · rw [Function.update_of_ne hj]

/-- A move into the kind adds one. -/
theorem tally_update_enter (hout : P (pos i) = false) (hin : P k = true) :
    tally P (Function.update pos i k) = tally P pos + 1 := by
  have hmem : i ∉ Finset.univ.filter fun j => P (pos j) := by simp [hout]
  rw [tally, tally, ← Finset.card_insert_of_notMem hmem]
  refine congrArg Finset.card (Finset.ext fun j => ?_)
  by_cases hj : j = i
  · subst hj
    simp [hin]
  · simp [hj]

/-- A move out of the kind takes one away. -/
theorem tally_update_leave (hin : P (pos i) = true) (hout : P k = false) :
    tally P (Function.update pos i k) + 1 = tally P pos := by
  have hback : tally P (Function.update (Function.update pos i k) i (pos i)) =
      tally P (Function.update pos i k) + 1 :=
    tally_update_enter (by rw [Function.update_self, hout]) hin
  rw [Function.update_idem, Function.update_eq_self] at hback
  exact hback.symm

/-- **One actor pays for all**: what it loses is more than the others gain together, so the
sum over the actors goes down. -/
theorem sum_lt_sum_of_move {f g : ι → Nat} {c : Nat} (hi : g i + Fintype.card ι * c < f i)
    (hother : ∀ j, j ≠ i → g j ≤ f j + c) : ∑ j, g j < ∑ j, f j := by
  have hrest : ∑ j ∈ Finset.univ.erase i, g j ≤ ∑ j ∈ Finset.univ.erase i, f j + Fintype.card ι * c := by
    calc ∑ j ∈ Finset.univ.erase i, g j
        ≤ ∑ j ∈ Finset.univ.erase i, (f j + c) :=
          Finset.sum_le_sum fun j hj => hother j (Finset.ne_of_mem_erase hj)
      _ = ∑ j ∈ Finset.univ.erase i, f j + (Finset.univ.erase i).card * c := by
          rw [Finset.sum_add_distrib, Finset.sum_const_nat fun _ _ => rfl]
      _ ≤ ∑ j ∈ Finset.univ.erase i, f j + Fintype.card ι * c :=
          Nat.add_le_add_left (Nat.mul_le_mul_right c (Finset.card_le_univ _)) _
  rw [← Finset.add_sum_erase _ f (Finset.mem_univ i), ← Finset.add_sum_erase _ g (Finset.mem_univ i)]
  omega

/-- One actor gains, and the others do not. -/
theorem sum_le_sum_of_move {f g : ι → Nat} {c : Nat} (hi : g i ≤ f i + c)
    (hother : ∀ j, j ≠ i → g j ≤ f j) : ∑ j, g j ≤ ∑ j, f j + c := by
  have hrest : ∑ j ∈ Finset.univ.erase i, g j ≤ ∑ j ∈ Finset.univ.erase i, f j :=
    Finset.sum_le_sum fun j hj => hother j (Finset.ne_of_mem_erase hj)
  rw [← Finset.add_sum_erase _ f (Finset.mem_univ i), ← Finset.add_sum_erase _ g (Finset.mem_univ i)]
  omega

end Move
end Tally
