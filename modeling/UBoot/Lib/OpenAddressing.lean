import Mathlib

/-!
# Open addressing with double hashing

Slots are numbered `1 .. size`. A key starts at its home slot and walks downwards by its
stride, from slot `1` back up to slot `size`. When the size is prime the walk visits every
slot once before it comes home. `Inv` says that keys are unique and that every live key can
be reached without crossing a free slot.
-/

namespace OpenAddressing

open Function

def back (size stride idx : Nat) : Nat :=
  if idx ≤ stride then size + idx - stride else idx - stride

structure Probing (κ : Type) where
  size : Nat
  prime : size.Prime
  home : κ → Nat
  stride : κ → Nat
  home_pos : ∀ k, 0 < home k
  home_le : ∀ k, home k ≤ size
  stride_pos : ∀ k, 0 < stride k
  stride_lt : ∀ k, stride k < size

inductive Cell (κ : Type)
  | free
  | deleted
  | live (key : κ)
  deriving DecidableEq

variable {κ : Type} {i j : Nat} {k : κ}

def Probing.slot (P : Probing κ) (k : κ) : Nat → Nat
  | 0 => P.home k
  | j + 1 => back P.size (P.stride k) (P.slot k j)

variable (P : Probing κ)

/-! ## The walk visits every slot -/

theorem Probing.slot_mem (k : κ) (j : Nat) : P.slot k j ∈ Finset.Icc 1 P.size := by
  induction j with
  | zero => simpa using ⟨P.home_pos k, P.home_le k⟩
  | succ j ih =>
    have hp := P.stride_pos k
    have hl := P.stride_lt k
    simp only [Finset.mem_Icc] at ih
    simp only [Probing.slot, back, Finset.mem_Icc]
    split <;> omega

theorem Probing.slot_modEq (k : κ) (j : Nat) :
    P.slot k j + j * P.stride k ≡ P.home k [MOD P.size] := by
  induction j with
  | zero => simp [Probing.slot, Nat.ModEq]
  | succ j ih =>
    have hl := P.stride_lt k
    refine Nat.ModEq.trans ?_ ih
    simp only [Probing.slot, back, Nat.succ_mul]
    split
    · have he : P.size + P.slot k j - P.stride k + (j * P.stride k + P.stride k) =
          P.size + (P.slot k j + j * P.stride k) := by omega
      rw [he]
      simp [Nat.ModEq]
    · have he : P.slot k j - P.stride k + (j * P.stride k + P.stride k) =
          P.slot k j + j * P.stride k := by omega
      rw [he]

theorem Probing.slot_injOn (hi : i < P.size) (hj : j < P.size)
    (h : P.slot k i = P.slot k j) : i = j := by
  have hc : Nat.gcd P.size (P.stride k) = 1 :=
    Nat.coprime_of_lt_prime (P.stride_pos k).ne' (P.stride_lt k) P.prime
  have hm := (P.slot_modEq k i).trans (P.slot_modEq k j).symm
  rw [h] at hm
  exact Nat.ModEq.eq_of_lt_of_lt
    (Nat.ModEq.cancel_right_of_coprime hc (Nat.ModEq.add_left_cancel' _ hm)) hi hj

theorem Probing.exists_slot (k : κ) (hi : i ∈ Finset.Icc 1 P.size) :
    ∃ j < P.size, P.slot k j = i := by
  have hs := Finset.surjOn_of_injOn_of_card_le (s := Finset.range P.size)
    (t := Finset.Icc 1 P.size) (P.slot k) (fun j _ => P.slot_mem k j)
    (fun a ha b hb h => P.slot_injOn (by simpa using ha) (by simpa using hb) h) (by simp)
  obtain ⟨j, hj, h⟩ := hs hi
  exact ⟨j, by simpa using hj, h⟩

theorem Probing.slot_ne_home (h0 : 0 < j) (hj : j < P.size) : P.slot k j ≠ P.home k := by
  intro h
  have := P.slot_injOn hj P.prime.pos h
  omega

theorem Probing.slot_size (k : κ) : P.slot k P.size = P.home k := by
  obtain ⟨hl, hu⟩ := Finset.mem_Icc.mp (P.slot_mem k P.size)
  have hm := P.slot_modEq k P.size
  have hh := P.home_pos k
  have hh' := P.home_le k
  rw [Nat.ModEq, Nat.add_mul_mod_self_left] at hm
  -- both are in `1 .. size`, where a residue names one slot
  rcases Nat.lt_or_ge (P.slot k P.size) P.size with h | h <;>
    rcases Nat.lt_or_ge (P.home k) P.size with h' | h'
  · rwa [Nat.mod_eq_of_lt h, Nat.mod_eq_of_lt h'] at hm
  · rw [Nat.mod_eq_of_lt h, le_antisymm hh' h', Nat.mod_self] at hm
    omega
  · rw [Nat.mod_eq_of_lt h', le_antisymm hu h, Nat.mod_self] at hm
    omega
  · omega

/-! ## The invariant of a table -/

/-- Slot `i` is on the walk of `k`, behind no free slot. -/
def Probing.Reaches (t : Nat → Cell κ) (k : κ) (i : Nat) : Prop :=
  ∃ j < P.size, P.slot k j = i ∧ ∀ l < j, t (P.slot k l) ≠ .free

structure Probing.Inv (t : Nat → Cell κ) : Prop where
  reach : ∀ {i k}, i ∈ Finset.Icc 1 P.size → t i = .live k → P.Reaches t k i
  unique : ∀ {i i' k}, i ∈ Finset.Icc 1 P.size → i' ∈ Finset.Icc 1 P.size →
    t i = .live k → t i' = .live k → i = i'

def Probing.Has (t : Nat → Cell κ) (k : κ) : Prop := ∃ i ∈ Finset.Icc 1 P.size, t i = .live k

/-- Where a search for `k` ends: at a free slot or at `k` itself. -/
def Probing.Stops (t : Nat → Cell κ) (k : κ) (j : Nat) : Prop :=
  t (P.slot k j) = .free ∨ t (P.slot k j) = .live k

variable {P} {t : Nat → Cell κ}

theorem Probing.Inv.empty : P.Inv fun _ => .free :=
  ⟨fun _ h => (nomatch h), fun _ _ h => (nomatch h)⟩

theorem Probing.Inv.stops_first (hv : P.Inv t) (hi : i ∈ Finset.Icc 1 P.size)
    (hk : t i = .live k) :
    ∃ j < P.size, P.slot k j = i ∧ ∀ l < j, ¬ P.Stops t k l := by
  obtain ⟨j, hj, rfl, hl⟩ := hv.reach hi hk
  refine ⟨j, hj, rfl, fun l hlj hs => ?_⟩
  rcases hs with hs | hs
  · exact hl l hlj hs
  · have := P.slot_injOn (hlj.trans hj) hj (hv.unique (P.slot_mem k l) hi hs hk)
    omega

theorem Probing.Inv.absent_of_free (hv : P.Inv t) (hf : t (P.slot k j) = .free)
    (hn : ∀ l < j, ¬ P.Stops t k l) : ¬ P.Has t k := by
  rintro ⟨i, hi, hk⟩
  obtain ⟨j', -, rfl, hl⟩ := hv.stops_first hi hk
  rcases Nat.lt_trichotomy j j' with h | rfl | h
  · exact hl j h (.inl hf)
  · simp [hf] at hk
  · exact hn j' h (.inr hk)

theorem Probing.absent_of_round (hn : ∀ l < P.size, ¬ P.Stops t k l) : ¬ P.Has t k := by
  rintro ⟨i, hi, hk⟩
  obtain ⟨j, hj, rfl⟩ := P.exists_slot k hi
  exact hn j hj (.inr hk)

/-! ## Deleting and storing -/

theorem Probing.Reaches.update (h : P.Reaches t k i) (hc : c ≠ .free) :
    P.Reaches (Function.update t i' c) k i := by
  obtain ⟨j, hj, hs, hl⟩ := h
  refine ⟨j, hj, hs, fun l hlj => ?_⟩
  by_cases he : P.slot k l = i'
  · simpa [he] using hc
  · simpa [update_of_ne he] using hl l hlj

theorem Probing.Inv.delete (hv : P.Inv t) : P.Inv (Function.update t i .deleted) := by
  have hback : ∀ {i' k}, update t i .deleted i' = Cell.live k → t i' = .live k := by
    intro i' k h
    by_cases he : i' = i
    · simp [he] at h
    · simpa [update_of_ne he] using h
  refine ⟨fun hi h => ?_, fun hi hi' h h' => hv.unique hi hi' (hback h) (hback h')⟩
  exact (hv.reach hi (hback h)).update nofun

theorem Probing.Inv.store (hv : P.Inv t) (hr : P.Reaches t k i) (ha : ¬ P.Has t k) :
    P.Inv (Function.update t i (.live k)) := by
  constructor
  · intro i' k' hi' h
    by_cases he : i' = i
    · subst he
      simp only [update_self, Cell.live.injEq] at h
      exact h ▸ hr.update nofun
    · rw [update_of_ne he] at h
      exact (hv.reach hi' h).update nofun
  · intro i₁ i₂ k' h₁ h₂ e₁ e₂
    by_cases he₁ : i₁ = i <;> by_cases he₂ : i₂ = i
    · rw [he₁, he₂]
    · subst he₁
      simp only [update_self, Cell.live.injEq] at e₁
      rw [update_of_ne he₂] at e₂
      exact absurd ⟨i₂, h₂, e₁ ▸ e₂⟩ ha
    · subst he₂
      simp only [update_self, Cell.live.injEq] at e₂
      rw [update_of_ne he₁] at e₁
      exact absurd ⟨i₁, h₁, e₂ ▸ e₁⟩ ha
    · rw [update_of_ne he₁] at e₁
      rw [update_of_ne he₂] at e₂
      exact hv.unique h₁ h₂ e₁ e₂

end OpenAddressing
