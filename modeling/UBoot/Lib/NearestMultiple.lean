import Mathlib

/-!
# The nearest of the first multiples of a step

Among the multiples `step, 2 * step, …, count * step` the ones nearest to a target are
the quotient of the target and its successor, whichever the remainder is closer to.
-/

namespace NearestMultiple

/-- No other of the first `count` multiples of `step` is closer to `target`. -/
def IsNearest (step target count k : Nat) : Prop :=
  (1 ≤ k ∧ k ≤ count) ∧
    ∀ j, 1 ≤ j → j ≤ count → Nat.dist (k * step) target ≤ Nat.dist (j * step) target

variable {step target count k : Nat}

theorem isNearest_iff_neighbours (hstep : 0 < step) :
    IsNearest step target count k ↔
      (1 ≤ k ∧ k ≤ count) ∧ (k < count → 2 * target ≤ 2 * (k * step) + step) ∧
        (1 < k → 2 * (k * step) ≤ 2 * target + step) := by
  constructor
  · rintro ⟨hk, h⟩
    refine ⟨hk, ?_, ?_⟩
    · intro hlt
      have hnext := h (k + 1) (by omega) hlt
      rw [Nat.succ_mul k] at hnext
      unfold Nat.dist at hnext
      omega
    · intro hlt
      obtain ⟨j, rfl⟩ : ∃ j, k = j + 1 := ⟨k - 1, by omega⟩
      have hprev := h j (by omega) (by omega)
      rw [Nat.succ_mul j] at hprev ⊢
      unfold Nat.dist at hprev
      omega
  · rintro ⟨hk, hnext, hprev⟩
    refine ⟨hk, ?_⟩
    intro j hj hjle
    unfold Nat.dist
    rcases Nat.lt_trichotomy j k with hlt | rfl | hlt
    · have hgap : (j + 1) * step ≤ k * step := Nat.mul_le_mul_right _ hlt
      rw [Nat.succ_mul] at hgap
      have := hprev (by omega)
      omega
    · exact Nat.le_refl _
    · have hgap : (k + 1) * step ≤ j * step := Nat.mul_le_mul_right _ hlt
      rw [Nat.succ_mul] at hgap
      have := hnext (by omega)
      omega

theorem isNearest_iff (hstep : 0 < step) (hfits : target ≤ count * step) (hcount : 0 < count) :
    IsNearest step target count k ↔
      1 ≤ k ∧ (k = target / step ∧ 2 * (target % step) ≤ step ∨
        k = target / step + 1 ∧ (step ≤ 2 * (target % step) ∨ target / step = 0)) := by
  have hdiv : target / step * step + target % step = target := Nat.div_add_mod' target step
  have hmod : target % step < step := Nat.mod_lt _ hstep
  generalize target / step = a at *
  generalize target % step = r at *
  have hle : a ≤ count := by
    by_contra h
    have := Nat.mul_le_mul_right step (by omega : count + 1 ≤ a)
    rw [Nat.succ_mul] at this
    omega
  -- a rest is left only below the last multiple
  have hlast : a = count → r = 0 := by
    rintro rfl
    omega
  rw [isNearest_iff_neighbours hstep]
  constructor
  · rintro ⟨hk, hnext, hprev⟩
    refine ⟨hk.1, ?_⟩
    rcases Nat.lt_trichotomy k a with hlt | rfl | hlt
    · have hgap : (k + 1) * step ≤ a * step := Nat.mul_le_mul_right _ hlt
      rw [Nat.succ_mul] at hgap
      have := hnext (by omega)
      omega
    · by_cases hk' : k = count
      · have := hlast hk'
        omega
      · have := hnext (by omega)
        omega
    · rcases Nat.eq_or_lt_of_le hlt with rfl | hlt
      · by_cases ha : a = 0
        · omega
        · have := hprev (by omega)
          rw [Nat.succ_mul a] at this
          omega
      · have hgap : (a + 2) * step ≤ k * step := Nat.mul_le_mul_right _ hlt
        rw [Nat.add_mul] at hgap
        have := hprev (by omega)
        omega
  · rintro ⟨hk, ⟨rfl, hr⟩ | ⟨rfl, hr⟩⟩
    · exact ⟨⟨hk, hle⟩, by omega, by omega⟩
    · have hlt : a + 1 ≤ count := by omega
      rw [Nat.succ_mul a]
      exact ⟨⟨hk, hlt⟩, by omega, by omega⟩

end NearestMultiple
