import UBoot.Clock.PllParams

/-!
# Which frequencies the search of the X1000 PLLs finds

The output divider is chosen by the product of the other two. A product of at most 64 leaves
the output undivided, and larger ones ask for a feedback divider beyond 128, so that the
frequencies found are those from 300 MHz on.
-/

namespace UBoot.Clock

structure Divides (fin fout nf nr no : Nat) : Prop where
  nf_range : 1 ≤ nf ∧ nf ≤ 128
  nr_range : 1 ≤ nr ∧ nr ≤ 32
  no_le : no ≤ 3
  exact : fin * nf = fout * nr * 2 ^ no
  fvco : 63 ≤ fout ∧ 500 ≤ fout * 2 ^ no ∨ 300 ≤ fout * 2 ^ no ∧ fout * 2 ^ no ≤ 600

variable {fin fout nrok : Nat} {q : PllParams}

theorem tryNrok_undivided (hfin : fin ≤ 50) (hfout : 36 ≤ fout)
    (h : tryNrok fin fout nrok = some (some q)) : q.no = 0 := by
  rw [tryNrok] at h
  split at h
  next => cases h
  next hnf =>
    split at h
    next => cases h
    next hexact =>
      split at h
      next => cases h
      next no nr hdivider =>
        obtain ⟨bs, hband, hq⟩ := Option.map_eq_some_iff.mp h
        cases hq
        exact (outputDivider_eq_some hfin hfout (Nat.not_lt.mp hnf) (not_not.mp hexact) hdivider
          (band_eq_some hband).1).1

theorem paramsLoop_undivided (hfin : fin ≤ 50) (hfout : 36 ≤ fout)
    (h : paramsLoop fin fout fuel nrok = some (some q)) : q.no = 0 := by
  induction fuel generalizing nrok with
  | zero => cases h
  | succ fuel ih =>
    rw [paramsLoop] at h
    split at h
    next r hround =>
      cases h
      exact tryNrok_undivided hfin hfout hround
    next => exact ih h

theorem band_self (h : 300 ≤ fout) : ∃ bs, band fout fout = some bs := by
  rw [band]
  by_cases hfast : 63 ≤ fout ∧ 500 ≤ fout
  · exact ⟨1, if_pos hfast⟩
  · rw [if_neg hfast]
    exact ⟨0, if_pos (by omega)⟩

theorem paramsLoop_finds (hfin : 0 < fin) (hfin' : fin ≤ 50) (hfout : 300 ≤ fout) (fuel : Nat)
    (hnf : nf ≤ 128) (hexact : fin * nf = fout * product) (hlt : nrok < product)
    (hfuel : product ≤ fuel + nrok) : ∃ q, paramsLoop fin fout fuel nrok = some (some q) := by
  have hsmall : fout * product ≤ 6400 := hexact ▸ Nat.mul_le_mul hfin' hnf
  induction fuel generalizing nrok with
  | zero => omega
  | succ fuel ih =>
    have hmono : fout * (nrok + 1) ≤ fout * product := Nat.mul_le_mul_left _ hlt
    have hnf' : ¬ 128 < fout * (nrok + 1) / fin := by
      rw [Nat.not_lt]
      refine (Nat.div_le_div_right (hmono.trans hexact.ge)).trans ?_
      rwa [Nat.mul_div_cancel_left _ hfin]
    rw [paramsLoop, tryNrok, if_neg hnf']
    by_cases hround : fin * (fout * (nrok + 1) / fin) = fout * (nrok + 1)
    · have hsmall' : nrok + 1 ≤ 64 := by
        by_contra hlarge
        have := Nat.mul_le_mul hfout (by omega : 65 ≤ nrok + 1)
        omega
      obtain ⟨bs, hband⟩ := band_self hfout
      rw [if_neg (not_not.mpr hround), outputDivider, if_pos hsmall']
      simp [hband]
    · rw [if_pos hround]
      refine ih ?_ (by omega)
      rcases Nat.lt_or_eq_of_le hlt with hlt | heq
      · exact hlt
      · -- the last round is exact
        refine absurd ?_ hround
        rw [show nrok + 1 = product from heq, ← hexact, Nat.mul_div_cancel_left _ hfin]

theorem or_ne_zero {a b : UInt32} (h : a ≠ 0 ∨ b ≠ 0) : a ||| b ≠ 0 := by
  intro hor
  rw [← UInt32.toBitVec_inj, UInt32.toBitVec_or, UInt32.toBitVec_zero] at hor
  obtain ⟨ha, hb⟩ := BitVec.or_eq_zero_iff.mp hor
  rcases h with h | h
  · exact h (UInt32.toBitVec_inj.mp ha)
  · exact h (UInt32.toBitVec_inj.mp hb)

theorem PllParams.mnod_ne_zero (hnf : 1 < q.nf) (hle : q.nf - 1 < 2 ^ 7) : q.mnod ≠ 0 := by
  have hfield : ∀ n < 2 ^ 7, 0 < n → UInt32.ofNat n <<< 24 ≠ 0 := by decide
  have hm := hfield (q.nf - 1) hle (by omega)
  exact or_ne_zero (.inl (or_ne_zero (.inl (or_ne_zero (.inr hm)))))

/-- Of the frequencies that some dividers give, the search finds just those from 300 MHz on. -/
theorem genPllRegesterNfro_complete_iff (externClk pllOutClk : UInt32)
    (hfin : 10 ≤ externClk.toNat / 1000000 ∧ externClk.toNat / 1000000 ≤ 50)
    (hfout : 36 ≤ pllOutClk.toNat / 1000000)
    (h : ∃ nf nr no, Divides (externClk.toNat / 1000000) (pllOutClk.toNat / 1000000) nf nr no) :
    (∃ mnod control, mnod ≠ 0 ∧ ∀ fuel ≥ 180, genPllRegesterNfro fuel externClk pllOutClk =
        some (mnod, control)) ↔ 300 ≤ pllOutClk.toNat / 1000000 := by
  unfold genPllRegesterNfro
  generalize externClk.toNat / 1000000 = fin at *
  generalize pllOutClk.toNat / 1000000 = fout at *
  have hrange : ¬ (fin < 10 ∨ 50 < fin ∨ fout < 36) := by omega
  dsimp only
  simp only [if_neg hrange]
  constructor
  · rintro ⟨mnod, control, hne, hrun⟩
    have hrun := hrun 180 (by omega)
    split at hrun
    next => cases hrun
    next =>
      cases hrun
      exact absurd rfl hne
    next q hloop =>
      have hno := paramsLoop_undivided hfin.2 hfout hloop
      have hband := (paramsLoop_sound hfin.2 hfout hloop).inBand
      rw [hno, pow_zero, Nat.mul_one] at hband
      obtain ⟨-, h500⟩ | ⟨-, h300, -⟩ := hband
      · omega
      · exact h300
  · intro h300
    obtain ⟨nf, nr, no, hdiv⟩ := h
    have hexact : fin * nf = fout * (nr * 2 ^ no) := by rw [hdiv.exact, Nat.mul_assoc]
    have hpos : 0 < nr * 2 ^ no := Nat.mul_pos hdiv.nr_range.1 (Nat.two_pow_pos no)
    have hproduct : nr * 2 ^ no ≤ 21 := by
      have hsmall : fout * (nr * 2 ^ no) ≤ 6400 :=
        hexact ▸ Nat.mul_le_mul hfin.2 hdiv.nf_range.2
      by_contra hlarge
      have := Nat.mul_le_mul h300 (by omega : 22 ≤ nr * 2 ^ no)
      omega
    obtain ⟨r, hends⟩ := @paramsLoop_ends fin fout 179 0 hfin.2 (by omega) hfout rfl
    obtain ⟨q, hloop⟩ := paramsLoop_finds (by omega) hfin.2 h300 180
      hdiv.nf_range.2 hexact hpos (by omega)
    obtain rfl : some q = r := Option.some.inj (hloop.symm.trans (hends 180 (by omega)))
    have hsound := paramsLoop_sound hfin.2 hfout hloop
    refine ⟨q.mnod, some q.control, PllParams.mnod_ne_zero ?_ hsound.nf_le, fun fuel hfuel => ?_⟩
    · -- the input is slower than the output
      by_contra hone
      have hnf : q.nf = 1 := by
        have := hsound.nf_pos
        omega
      have hout := hsound.exact
      have hge : fout * 1 ≤ fout * (q.nr * 2 ^ q.no) :=
        Nat.mul_le_mul_left _ (Nat.mul_pos hsound.nr_pos (Nat.two_pow_pos _))
      rw [hnf, Nat.mul_assoc] at hout
      omega
    · rw [hends fuel hfuel]

theorem genPllRegesterNfro_complete_600 :
    ∃ mnod control, mnod ≠ 0 ∧
      ∀ fuel ≥ 180, genPllRegesterNfro fuel 24000000 600000000 = some (mnod, control) :=
  (genPllRegesterNfro_complete_iff 24000000 600000000 (by decide) (by decide)
    ⟨25, 1, 0, by decide, by decide, by decide, by decide, by decide⟩).mpr (by decide)

/-- A feedback divider of 16 and an output divider of 8 give 48 MHz, with the oscillator at 384
MHz. The search does not find them. -/
theorem genPllRegesterNfro_misses_48 :
    Divides 24 48 16 1 3 ∧ (genPllRegesterNfro 180 24000000 48000000).map Prod.fst = some 0 :=
  ⟨⟨by decide, by decide, by decide, by decide, by decide⟩, by decide +kernel⟩

end UBoot.Clock
