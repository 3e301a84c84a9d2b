import Mathlib

/-!
# Parameters of the X1000 PLLs

`gen_pll_regester_nfro` of `arch/mips/cpu/xburst/x1000/pll_params_creator.c` looks for
a reference divider by counting up, until the feedback divider is too large. Only the
first of its ranges for the reference divider gives a result: where another one is
used, the output is too slow for the oscillator.
-/

namespace UBoot.Clock

/-- The fields of `struct pll_control` that are set, in 1, 7, 5 and 2 bits. -/
structure PllControl where
  bs : Nat
  pllm : Nat
  plln : Nat
  pllod : Nat

structure PllParams where
  bs : Nat
  nf : Nat
  nr : Nat
  no : Nat

/-- The output divider, as a power of two, and the reference divider. The checks of `nf` inside
the branches repeat their conditions. -/
def outputDivider (nrok nf : Nat) : Option (Nat × Nat) :=
  if nrok ≤ 64 then some (0, nrok)
  else if nrok ≤ 128 ∧ nf % 2 = 0 then some (1, nrok / 2)
  else if nrok ≤ 256 ∧ nf % 4 = 0 then some (2, nrok / 4)
  else if nrok ≤ 512 ∧ nf % 8 = 0 then some (3, nrok / 8)
  else none

def band (fout fvco : Nat) : Option Nat :=
  if 63 ≤ fout ∧ 500 ≤ fvco then some 1
  else if 36 ≤ fout ∧ 300 ≤ fvco ∧ fvco ≤ 600 then some 0
  else none

/-- One round: what the loop ends with, the parameters or none for `goto err`. -/
def tryNrok (fin fout nrok : Nat) : Option (Option PllParams) :=
  let nf := fout * nrok / fin
  if 128 < nf then some none
  else if fin * nf ≠ fout * nrok then none
  else
    match outputDivider nrok nf with
    | none => some none
    | some (no, nr) => (band fout (fout * 2 ^ no)).map fun bs => some ⟨bs, nf, nr, no⟩

def paramsLoop (fin fout : Nat) : Nat → Nat → Option (Option PllParams)
  | 0, _ => none
  | fuel + 1, nrok =>
    match tryNrok fin fout (nrok + 1) with
    | some r => some r
    | none => paramsLoop fin fout fuel (nrok + 1)

def PllParams.mnod (q : PllParams) : UInt32 :=
  UInt32.ofNat q.bs <<< 31 ||| UInt32.ofNat (q.nf - 1) <<< 24 ||| UInt32.ofNat (q.nr - 1) <<< 18 |||
    UInt32.ofNat q.no <<< 16

def PllParams.control (q : PllParams) : PllControl :=
  ⟨q.bs % 2 ^ 1, (q.nf - 1) % 2 ^ 7, (q.nr - 1) % 2 ^ 5, q.no % 2 ^ 2⟩

/-- The value returned, and what is stored at `p`. `fuel` bounds the rounds of the loop. -/
def genPllRegesterNfro (fuel : Nat) (externClk pllOutClk : UInt32) :
    Option (UInt32 × Option PllControl) :=
  let fin := externClk.toNat / 1000000
  let fout := pllOutClk.toNat / 1000000
  if fin < 10 ∨ 50 < fin ∨ fout < 36 then some (0, none)
  else
    match paramsLoop fin fout fuel 0 with
    | none => none
    | some none => some (0, none)
    | some (some q) => some (q.mnod, some q.control)

/-! ## What the search finds -/

def InBand (bs fvco : Nat) : Prop := bs = 1 ∧ 500 ≤ fvco ∨ bs = 0 ∧ 300 ≤ fvco ∧ fvco ≤ 600

structure PllParams.Sound (fin fout : Nat) (q : PllParams) : Prop where
  exact : fin * q.nf = fout * q.nr * 2 ^ q.no
  nf_pos : 0 < q.nf
  nr_pos : 0 < q.nr
  nf_le : q.nf - 1 < 2 ^ 7
  nr_le : q.nr - 1 < 2 ^ 5
  no_lt : q.no < 2 ^ 2
  inBand : InBand q.bs (fout * 2 ^ q.no)

variable {fin fout : Nat}

theorem band_eq_some (h : band fout fvco = some bs) : 300 ≤ fvco ∧ InBand bs fvco := by
  rw [band] at h
  split at h
  next hband =>
    cases h
    exact ⟨by omega, .inl ⟨rfl, hband.2⟩⟩
  next =>
    split at h
    next hband =>
      cases h
      exact ⟨hband.2.1, .inr ⟨rfl, hband.2⟩⟩
    next => cases h

section
variable (hfin : fin ≤ 50) (hfout : 36 ≤ fout)
include hfin hfout

theorem outputDivider_eq_some (hnf : nf ≤ 128) (hexact : fin * nf = fout * nrok)
    (h : outputDivider nrok nf = some (no, nr)) (hfvco : 300 ≤ fout * 2 ^ no) :
    no = 0 ∧ nr = nrok ∧ nrok ≤ 21 := by
  have hsmall : fout * nrok ≤ 6400 := hexact ▸ Nat.mul_le_mul hfin hnf
  have hbound (a b : Nat) (ha : a ≤ fout) (hb : b ≤ nrok) : a * b ≤ 6400 :=
    (Nat.mul_le_mul ha hb).trans hsmall
  rw [outputDivider] at h
  split at h
  next =>
    cases h
    refine ⟨rfl, rfl, ?_⟩
    by_contra hlt
    have := hbound 300 22 (by omega) (by omega)
    omega
  next h64 =>
    split at h
    next =>
      cases h
      have := hbound 150 65 (by omega) (by omega)
      omega
    next h128 =>
      split at h
      next h256 =>
        cases h
        have := hbound 75 129 (by omega) (by omega)
        omega
      next h256 =>
        split at h
        next h512 =>
          have := hbound 36 257 hfout (by omega)
          omega
        next => cases h

theorem tryNrok_sound (hnrok : 0 < nrok) (h : tryNrok fin fout nrok = some (some q)) :
    q.Sound fin fout := by
  rw [tryNrok] at h
  split at h
  next => cases h
  next hnf =>
    split at h
    next => cases h
    next hexact =>
      have hexact := not_not.mp hexact
      split at h
      next => cases h
      next no nr hdivider =>
        obtain ⟨bs, hband, hq⟩ := Option.map_eq_some_iff.mp h
        cases hq
        obtain ⟨hfvco, hinBand⟩ := band_eq_some hband
        obtain ⟨rfl, rfl, hle⟩ := outputDivider_eq_some hfin hfout (Nat.not_lt.mp hnf) hexact
          hdivider hfvco
        have hpos : 0 < fin * (fout * nr / fin) := by
          rw [hexact]
          exact Nat.mul_pos (by omega) hnrok
        refine ⟨by rw [hexact, pow_zero, Nat.mul_one], Nat.pos_of_mul_pos_left hpos, hnrok, ?_, ?_,
          Nat.two_pow_pos 2, hinBand⟩
        · dsimp only
          omega
        · dsimp only
          omega

theorem paramsLoop_sound (h : paramsLoop fin fout fuel nrok = some (some q)) :
    q.Sound fin fout := by
  induction fuel generalizing nrok with
  | zero => cases h
  | succ fuel ih =>
    rw [paramsLoop] at h
    split at h
    next r hround =>
      cases h
      exact tryNrok_sound hfin hfout (Nat.succ_pos nrok) hround
    next => exact ih h

end

theorem paramsLoop_ends (hfin : fin ≤ 50) (hfin' : 0 < fin) (hfout : 36 ≤ fout)
    (hrounds : rounds + nrok = 179) :
    ∃ r, ∀ fuel > rounds, paramsLoop fin fout fuel nrok = some r := by
  have hsucc {n fuel : Nat} (h : n < fuel) : ∃ k, fuel = k + 1 := ⟨fuel - 1, by omega⟩
  induction rounds generalizing nrok with
  | zero =>
    refine ⟨none, fun fuel hfuel => ?_⟩
    obtain ⟨fuel, rfl⟩ := hsucc hfuel
    have hlarge : 128 < fout * (nrok + 1) / fin := by
      rw [Nat.lt_iff_add_one_le, Nat.le_div_iff_mul_le hfin']
      have := Nat.mul_le_mul hfout (by omega : 180 ≤ nrok + 1)
      omega
    rw [paramsLoop, tryNrok, if_pos hlarge]
  | succ rounds ih =>
    cases hround : tryNrok fin fout (nrok + 1) with
    | some r =>
      refine ⟨r, fun fuel hfuel => ?_⟩
      obtain ⟨fuel, rfl⟩ := hsucc hfuel
      rw [paramsLoop, hround]
    | none =>
      obtain ⟨r, hrest⟩ := @ih (nrok + 1) (by omega)
      refine ⟨r, fun fuel hfuel => ?_⟩
      obtain ⟨fuel, rfl⟩ := hsucc hfuel
      rw [paramsLoop, hround]
      exact hrest fuel (Nat.lt_of_succ_lt_succ hfuel)

/-- The search ends for all clocks, and what it returns if it finds something is exact, fits in
its fields and keeps the oscillator in its band. -/
theorem genPllRegesterNfro_sound (externClk pllOutClk : UInt32) :
    ∃ mnod control, (∀ fuel ≥ 180, genPllRegesterNfro fuel externClk pllOutClk =
        some (mnod, control)) ∧
      (mnod ≠ 0 → ∃ q : PllParams, mnod = q.mnod ∧
        control = some ⟨q.bs, q.nf - 1, q.nr - 1, q.no⟩ ∧
        q.Sound (externClk.toNat / 1000000) (pllOutClk.toNat / 1000000)) := by
  unfold genPllRegesterNfro
  generalize externClk.toNat / 1000000 = fin
  generalize pllOutClk.toNat / 1000000 = fout
  by_cases hrange : fin < 10 ∨ 50 < fin ∨ fout < 36
  · exact ⟨0, none, fun _ _ => if_pos hrange, fun h => absurd rfl h⟩
  · have hfin : 0 < fin := by omega
    have hfin' : fin ≤ 50 := by omega
    have hfout : 36 ≤ fout := by omega
    obtain ⟨r, hends⟩ := @paramsLoop_ends fin fout 179 0 hfin' hfin hfout rfl
    cases r with
    | none =>
      refine ⟨0, none, fun fuel hfuel => ?_, fun h => absurd rfl h⟩
      dsimp only
      rw [if_neg hrange, hends fuel hfuel]
    | some q =>
      have hsound := paramsLoop_sound hfin' hfout (hends 180 (by omega))
      refine ⟨q.mnod, some q.control, fun fuel hfuel => ?_, fun _ => ⟨q, rfl, ?_, hsound⟩⟩
      · dsimp only
        rw [if_neg hrange, hends fuel hfuel]
      · have hbs : q.bs < 2 ^ 1 := by
          obtain ⟨h, -⟩ | ⟨h, -⟩ := hsound.inBand <;> omega
        rw [PllParams.control, Nat.mod_eq_of_lt hbs, Nat.mod_eq_of_lt hsound.nf_le,
          Nat.mod_eq_of_lt hsound.nr_le, Nat.mod_eq_of_lt hsound.no_lt]

example : (genPllRegesterNfro 180 24000000 1104000000).map Prod.fst = some 0xad000000 := by
  decide +kernel

end UBoot.Clock
