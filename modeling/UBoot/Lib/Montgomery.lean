import Mathlib

/-!
# Montgomery products

The Montgomery product of `a` and `b` is a number below `R` that gives `a * b` when
it is multiplied by `R`, modulo `N`. It is found digit by digit: each step adds a
multiple of `b` and divides by the base. Products of numbers in Montgomery form,
which is multiplied by `R`, are products in that form.
-/

namespace Montgomery

variable {β N R a b c d r r' x y : Nat}

/-- One step for the digit `a`: what it gives, modulo `N` and compared with 0. -/
structure Step (β N R b r a r' : Nat) : Prop where
  lt : r' < R
  modEq : β * r' ≡ r + a * b [MOD N]
  eq_zero_iff : r' = 0 ↔ r = 0 ∧ a * b = 0

structure Product (N R a b c : Nat) : Prop where
  lt : c < R
  modEq : R * c ≡ a * b [MOD N]
  eq_zero_iff : c = 0 ↔ a = 0 ∨ b = 0

section
variable (hN : N < R) (hr : r < R) (hb : b < R) (ha : a < β) (hd : d < β)
  (ht : r + a * b + d * N = β * t)
include hr hb ha hd ht

theorem quotient_lt : t < R + N := by
  obtain ⟨β, rfl⟩ := Nat.exists_eq_succ_of_ne_zero (Nat.ne_zero_of_lt ha)
  have h1 : a * b ≤ β * b := Nat.mul_le_mul_right b (Nat.lt_succ_iff.mp ha)
  have h2 : d * N ≤ β * N := Nat.mul_le_mul_right N (Nat.lt_succ_iff.mp hd)
  have h3 : β * b ≤ β * R := Nat.mul_le_mul_left β hb.le
  refine Nat.lt_of_mul_lt_mul_left (a := β.succ) ?_
  rw [← ht, Nat.succ_mul, Nat.mul_add]
  omega

include hN in
theorem step_of_quotient (hzero : r + a * b = 0 → d = 0)
    (hr' : r' = if R ≤ t then t - N else t) : Step β N R b r a r' := by
  have hbound := quotient_lt hr hb ha hd ht
  have hmod : β * t ≡ r + a * b [MOD N] := by
    rw [← ht]
    exact Nat.add_mul_modulus_modEq_iff.mpr rfl
  have hzero' : t = 0 ↔ r = 0 ∧ a * b = 0 := by
    constructor
    · rintro rfl
      omega
    · rintro ⟨hr0, hab⟩
      rw [hr0, hab, hzero (by omega)] at ht
      have hβ : β ≠ 0 := Nat.ne_zero_of_lt ha
      simpa [hβ] using ht.symm
  by_cases hge : R ≤ t
  · rw [if_pos hge] at hr'
    subst hr'
    refine ⟨by omega, ?_, ?_⟩
    · have hle : β * N ≤ β * t := Nat.mul_le_mul_left β (by omega)
      rw [Nat.mul_sub]
      refine Nat.ModEq.trans ?_ hmod
      conv_rhs => rw [← Nat.sub_add_cancel hle]
      exact (Nat.add_mul_modulus_modEq_iff.mpr rfl).symm
    · rw [← hzero']
      omega
  · rw [if_neg hge] at hr'
    subst hr'
    exact ⟨by omega, hmod, hzero'⟩

end

theorem ofDigits_eq_zero_iff (hβ : 0 < β) (as : List Nat) :
    Nat.ofDigits β as = 0 ↔ ∀ a ∈ as, a = 0 := by
  induction as with
  | nil => simp
  | cons a as ih => simp [Nat.ofDigits_cons, ih, hβ.ne']

section
variable {α δ : Type} {val : α → Nat} {dig : δ → Nat} {f : α → δ → α} {P : α → Prop}
  (hstep : ∀ r a, P r → P (f r a) ∧ Step β N R b (val r) (dig a) (val (f r a)))
  (s : α) (hs : val s = 0) (hP : P s)
include hstep hs hP

theorem foldl_step (hR : 0 < R) (hβ : 0 < β) (as : List δ) :
    P (as.foldl f s) ∧ val (as.foldl f s) < R ∧
      β ^ as.length * val (as.foldl f s) ≡ Nat.ofDigits β (as.map dig) * b [MOD N] ∧
      (val (as.foldl f s) = 0 ↔ Nat.ofDigits β (as.map dig) = 0 ∨ b = 0) := by
  -- the digits are taken from the end, as the last step is that of the highest
  induction as using List.reverseRecOn with
  | nil => exact ⟨hP, by simpa [hs] using hR, by simp [hs, Nat.ModEq.refl], by simp [hs]⟩
  | append_singleton as a ih =>
    obtain ⟨hP', -, hmod, hzero⟩ := ih
    obtain ⟨hP'', h⟩ := hstep _ a hP'
    rw [List.foldl_append, List.foldl_cons, List.foldl_nil, List.map_append]
    refine ⟨hP'', h.lt, ?_, ?_⟩
    · rw [List.length_append, List.length_singleton, pow_succ, Nat.ofDigits_append,
        List.map_singleton, Nat.ofDigits_singleton, List.length_map, Nat.mul_assoc, Nat.add_mul]
      calc β ^ as.length * (β * val (f (as.foldl f s) a))
          ≡ β ^ as.length * (val (as.foldl f s) + dig a * b) [MOD N] := h.modEq.mul_left _
        _ = β ^ as.length * val (as.foldl f s) + β ^ as.length * dig a * b := by ring
        _ ≡ Nat.ofDigits β (as.map dig) * b + β ^ as.length * dig a * b [MOD N] :=
          hmod.add_right _
    · rw [h.eq_zero_iff, hzero, ofDigits_eq_zero_iff hβ, ofDigits_eq_zero_iff hβ]
      simp only [List.map_singleton, List.mem_append, List.mem_singleton, Nat.mul_eq_zero]
      constructor
      · rintro ⟨has | hb, ha | hb'⟩
        · exact .inl fun a' ha' => ha'.elim (has a') fun heq => heq.trans ha
        · exact .inr hb'
        · exact .inr hb
        · exact .inr hb
      · rintro (has | hb)
        · exact ⟨.inl fun a' ha' => has a' (.inl ha'), .inl (has _ (.inr rfl))⟩
        · exact ⟨.inr hb, .inr hb⟩

theorem product_of_steps (as : List δ) (hβ : 0 < β) (hR : R = β ^ as.length) :
    P (as.foldl f s) ∧ Product N R (Nat.ofDigits β (as.map dig)) b (val (as.foldl f s)) := by
  have hpos : 0 < R := hR ▸ Nat.pow_pos hβ
  obtain ⟨hP', hlt, hmod, hzero⟩ := foldl_step hstep s hs hP hpos hβ as
  exact ⟨hP', hlt, hR ▸ hmod, hzero⟩

end

/-! ## Numbers in Montgomery form -/

section
variable (hR : Nat.Coprime N R)
include hR

theorem Product.toForm (h : Product N R a b c) (hb : b ≡ R ^ 2 [MOD N]) : c ≡ a * R [MOD N] := by
  refine Nat.ModEq.cancel_left_of_coprime hR (h.modEq.trans ?_)
  calc a * b ≡ a * R ^ 2 [MOD N] := hb.mul_left a
    _ = R * (a * R) := by ring

theorem Product.mulForm (h : Product N R a b c) (ha : a ≡ x * R [MOD N]) (hb : b ≡ y * R [MOD N]) :
    c ≡ x * y * R [MOD N] := by
  refine Nat.ModEq.cancel_left_of_coprime hR (h.modEq.trans ?_)
  calc a * b ≡ x * R * (y * R) [MOD N] := ha.mul hb
    _ = R * (x * y * R) := by ring

theorem Product.ofForm (h : Product N R a b c) (ha : a ≡ x * R [MOD N]) :
    c ≡ x * b [MOD N] := by
  refine Nat.ModEq.cancel_left_of_coprime hR (h.modEq.trans ?_)
  calc a * b ≡ x * R * b [MOD N] := ha.mul_right b
    _ = R * (x * b) := by ring

end

end Montgomery
