import UBoot.Clock.X1830Clk
import UBoot.Lib.NearestMultiple

/-!
# Which rates of the X1830 clocks can be read back

The quotient is rounded with half of the wanted rate, rounded down, in 32 bits, and for the
MMC controllers halved once more. The bits that are cleared are not just those that are set.
-/

namespace UBoot.Clock.X1830

open Word32 NearestMultiple

/-! ## The register -/

/-- Only the divider and the bits `stop` and `ce` differ. -/
def KeepsBits (clk : Clk) (old new : BitVec 32) : Prop :=
  ∀ i < 32, fieldWidth clk ≤ i → i ≠ (cguClkSel clk).stop → i ≠ (cguClkSel clk).ce →
    new.getLsbD i = old.getLsbD i

variable {s : Cpm} {clk : Clk} {pll : Pll} {value : Nat} {regval : BitVec 32}

theorem getLsbD_setDivider (hi : i < 32) : (setDivider clk value regval).getLsbD i =
      (regval.getLsbD i && !(clearMask clk).getLsbD i ||
        ((1 <<< (cguClkSel clk).ce : BitVec 32).getLsbD i || value.testBit i)) := by
  simp only [setDivider, BitVec.getLsbD_or, BitVec.getLsbD_and, BitVec.getLsbD_not,
    BitVec.getLsbD_ofNat, hi, decide_true, Bool.true_and]

theorem testBit_of_lt (hvalue : value < 2 ^ n) (hi : n ≤ i) : value.testBit i = false :=
  Nat.testBit_lt_two_pow (hvalue.trans_le (Nat.pow_le_pow_right (by decide) hi))

theorem field_setDivider (hclk : clk.Readable) :
    field clk (setDivider clk value regval) = value % 2 ^ fieldWidth clk := by
  refine Nat.eq_of_testBit_eq fun i => ?_
  rw [field, BitVec.toNat_and, Nat.testBit_and, BitVec.testBit_toNat, BitVec.testBit_toNat,
    Nat.testBit_mod_two_pow]
  by_cases hi : i < fieldWidth clk
  · have hi' : i < 32 := by
      cases hclk <;> simp [fieldWidth] at hi <;> omega
    rw [getLsbD_setDivider hi']
    cases hclk <;> simp only [fieldWidth] at hi <;> interval_cases i <;>
      simp [clearMask, cguClkSel, fieldWidth]
  · rw [BitVec.getLsbD_ofNat, Nat.testBit_two_pow_sub_one]
    simp [hi]

theorem setDivider_select (hclk : clk.Readable) (hvalue : value < 2 ^ 8) :
    setDivider clk value regval >>> 30 = regval >>> 30 := by
  refine BitVec.eq_of_getLsbD_eq fun i hi => ?_
  rw [BitVec.getLsbD_ushiftRight, BitVec.getLsbD_ushiftRight]
  by_cases hi' : i < 2
  · rw [getLsbD_setDivider (by omega), testBit_of_lt hvalue (by omega)]
    cases hclk <;> interval_cases i <;> simp [clearMask, cguClkSel]
  · rw [BitVec.getLsbD_of_ge _ _ (by omega), BitVec.getLsbD_of_ge _ _ (by omega)]

theorem keepsBits_setDivider (hclk : clk.Readable) (hddr : clk ≠ .ddr) (hvalue : value < 2 ^ 8) :
    KeepsBits clk regval (setDivider clk value regval) ↔ regval.getLsbD 28 = false := by
  constructor
  · intro h
    have hbusy := h 28 (by decide)
    rw [getLsbD_setDivider (by decide), testBit_of_lt hvalue (by decide)] at hbusy
    cases hclk <;> simp_all [clearMask, cguClkSel, fieldWidth]
  · intro hbusy i hi hfield hstop hce
    rw [getLsbD_setDivider hi]
    have hvalue' : value.testBit i = false := by
      refine testBit_of_lt hvalue ?_
      cases hclk <;> simp_all [fieldWidth]
    rw [hvalue']
    cases hclk <;> simp only [fieldWidth, cguClkSel] at hfield hstop hce hddr ⊢ <;>
      interval_cases i <;> simp_all [clearMask, cguClkSel]

theorem keepsBits_setDivider_ddr (hvalue : value < 2 ^ 8) :
    KeepsBits .ddr regval (setDivider .ddr value regval) ↔
      (∀ i ∈ [24, 25, 26, 28], regval.getLsbD i = false) ∧
        ∀ i ∈ [4, 5, 6, 7], value.testBit i → regval.getLsbD i := by
  constructor
  · intro h
    refine ⟨fun i hi => ?_, fun i hi hbit => ?_⟩
    · have hi' : i < 32 := by fin_cases hi <;> decide
      have hkept := h i hi'
      rw [getLsbD_setDivider hi', testBit_of_lt hvalue (by fin_cases hi <;> decide)] at hkept
      fin_cases hi <;> simp_all [clearMask, cguClkSel, fieldWidth]
    · have hi' : i < 32 := by fin_cases hi <;> decide
      have hkept := h i hi'
      rw [getLsbD_setDivider hi', hbit] at hkept
      fin_cases hi <;> simp_all [fieldWidth, cguClkSel]
  · rintro ⟨hclear, hbeside⟩ i hi hfield hstop hce
    rw [getLsbD_setDivider hi]
    by_cases hlow : i < 8
    · have hbeside' := hbeside i
      simp only [fieldWidth] at hfield
      interval_cases i <;> simp_all [clearMask, cguClkSel]
    · rw [testBit_of_lt hvalue (Nat.not_lt.mp hlow)]
      simp only [cguClkSel] at hstop hce
      interval_cases i <;> simp_all [clearMask, cguClkSel]

/-! ## The divider -/

variable {pllRate rate : Nat}

theorem roundPllRate_div (hrate : 0 < rate) (hpll : pllRate < 2 ^ 32) :
    roundPllRate pllRate rate / rate =
      if 2 * (pllRate % rate) + 1 < rate then pllRate / rate
      else if (pllRate / rate + 1) * rate < 2 ^ 32 then pllRate / rate + 1 else 0 := by
  have hdiv : pllRate / rate * rate + pllRate % rate = pllRate := Nat.div_add_mod' pllRate rate
  have hmod : pllRate % rate < rate := Nat.mod_lt _ hrate
  have hnext : (pllRate / rate + 1) * rate = pllRate / rate * rate + rate := Nat.succ_mul _ _
  rw [roundPllRate]
  by_cases hdown : 2 * (pllRate % rate) + 1 < rate
  · rw [if_neg (by omega), if_pos hdown, Nat.sub_eq_of_eq_add hdiv.symm,
      Nat.mul_div_cancel _ hrate]
  · have hsum : pllRate + (rate - pllRate % rate) = (pllRate / rate + 1) * rate := by omega
    rw [if_pos (by omega), if_neg hdown, hsum]
    by_cases hwrap : (pllRate / rate + 1) * rate < 2 ^ 32
    · rw [if_pos hwrap, u32_of_lt hwrap, Nat.mul_div_cancel _ hrate]
    · -- the sum exceeds 32 bits by less than the rate
      rw [if_neg hwrap, u32_eq, Nat.div_eq_of_lt]
      omega

theorem u32_pred (hq : q < 2 ^ 32) :
    u32 (q + (2 ^ 32 - 1)) % 2 ^ 8 = if q = 0 then 255 else (q - 1) % 2 ^ 8 := by
  rw [u32_eq]
  split
  · omega
  · omega

variable {count : Nat}

theorem div_le_of_fits (hfits : pllRate ≤ count * rate) :
    pllRate / rate ≤ count :=
  Nat.div_le_of_le_mul (hfits.trans_eq (Nat.mul_comm _ _))

theorem mod_eq_zero_of_fits (hfits : pllRate ≤ count * rate) (h : pllRate / rate = count) :
    pllRate % rate = 0 := by
  have hdiv : pllRate / rate * rate + pllRate % rate = pllRate := Nat.div_add_mod' pllRate rate
  rw [h] at hdiv
  omega

section
variable (hrate : 0 < rate) (hle : rate ≤ pllRate) (hpll : pllRate < 2 ^ 32)
include hrate hle hpll

theorem isNearest_cdr (hcount : count = 2 ^ 4 ∨ count = 2 ^ 8) (hfits : pllRate ≤ count * rate)
    (hmsc : ¬ (clk = .msc0 ∨ clk = .msc1)) :
    IsNearest rate pllRate count (cdr clk pllRate rate % count + 1) ↔
      2 * (pllRate % rate) + 1 ≠ rate ∧ (rate ≤ 2 * (pllRate % rate) →
        (pllRate / rate + 1) * rate < 2 ^ 32 ∨ pllRate / rate + 1 = count) := by
  have hlast := mod_eq_zero_of_fits hfits
  have hquotient := div_le_of_fits hfits
  have hpos : 1 ≤ pllRate / rate := (Nat.one_le_div_iff hrate).mpr hle
  rw [isNearest_iff hrate hfits (by omega), cdr, if_neg hmsc, roundPllRate_div hrate hpll]
  generalize pllRate / rate = a at *
  generalize pllRate % rate = r at *
  have hone : rate = 1 → (a + 1) * rate = a + 1 := by
    rintro rfl
    exact Nat.mul_one _
  generalize (a + 1) * rate = next at *
  rw [u32_pred (by split <;> [skip; split] <;> omega)]
  rcases hcount with rfl | rfl
  · split <;> [skip; split] <;> split <;> omega
  · split <;> [skip; split] <;> split <;> omega

theorem cdr_ddr (hfits : pllRate ≤ 2 ^ 4 * rate) (hround : 2 * (pllRate % rate) + 1 ≠ rate) :
    (rate ≤ 2 * (pllRate % rate) ∧ ¬ (pllRate / rate + 1) * rate < 2 ^ 32 →
      cdr .ddr pllRate rate = 255) ∧
    ((rate ≤ 2 * (pllRate % rate) → (pllRate / rate + 1) * rate < 2 ^ 32) →
      cdr .ddr pllRate rate < 2 ^ 4) := by
  have hlast := mod_eq_zero_of_fits hfits
  have hquotient := div_le_of_fits hfits
  have hpos : 1 ≤ pllRate / rate := (Nat.one_le_div_iff hrate).mpr hle
  rw [cdr, if_neg (by decide), roundPllRate_div hrate hpll]
  generalize pllRate / rate = a at *
  generalize pllRate % rate = r at *
  generalize (a + 1) * rate = next at *
  rw [u32_pred (by split <;> [skip; split] <;> omega)]
  split <;> [skip; split] <;> split <;> omega

theorem isNearest_cdr_msc (hfits : pllRate ≤ 2 ^ 8 * (2 * rate)) (hmsc : clk = .msc0 ∨ clk = .msc1)
    :
    IsNearest (2 * rate) pllRate (2 ^ 8) (cdr clk pllRate rate % 2 ^ 8 + 1) ↔
      (2 * (pllRate % rate) + 1 < rate →
        pllRate / rate % 2 = 0 ∨ pllRate % rate = 0 ∧ pllRate / rate ≠ 1) ∧
      (rate ≤ 2 * (pllRate % rate) + 1 →
        (pllRate / rate + 1) * rate < 2 ^ 32 ∨ pllRate / rate = 511) := by
  have hfits' : pllRate ≤ 512 * rate := by omega
  have hlast := mod_eq_zero_of_fits hfits'
  have hquotient := div_le_of_fits hfits'
  have hpos : 1 ≤ pllRate / rate := (Nat.one_le_div_iff hrate).mpr hle
  have hmod : pllRate % rate < rate := Nat.mod_lt _ hrate
  have hhalf : pllRate / (2 * rate) = pllRate / rate / 2 := by
    rw [Nat.mul_comm, Nat.div_div_eq_div_mul]
  have hrest : pllRate % (2 * rate) = pllRate / rate % 2 * rate + pllRate % rate := by
    rw [Nat.mul_comm, Nat.mod_mul, Nat.mul_comm rate, Nat.add_comm]
  rw [isNearest_iff (by omega) hfits (by decide), hhalf, hrest, cdr, if_pos hmsc,
    roundPllRate_div hrate hpll]
  generalize pllRate / rate = a at *
  generalize pllRate % rate = r at *
  have hone : rate = 1 → (a + 1) * rate = a + 1 := by
    rintro rfl
    exact Nat.mul_one _
  generalize (a + 1) * rate = next at *
  rw [u32_pred (by split <;> [skip; split] <;> omega)]
  rcases Nat.mod_two_eq_zero_or_one a with ha | ha
  · rw [ha, Nat.zero_mul]
    split <;> [skip; split] <;> split <;> omega
  · rw [ha, Nat.one_mul]
    split <;> [skip; split] <;> split <;> omega

end

/-! ## Setting a rate and reading it back -/

def NearestDivider (clk : Clk) (pllRate rate : Nat) (regval : BitVec 32) : Prop :=
  IsNearest (unit clk * rate) pllRate (2 ^ fieldWidth clk) (field clk regval + 1)

structure RoundTrips (s : Cpm) (clk : Clk) (pllRate rate : Nat) (s' : Cpm) : Prop where
  keeps_regs : ∀ r ≠ (cguClkSel clk).off, s'.regs r = s.regs r
  keeps_bits : KeepsBits clk (s.regs (cguClkSel clk).off) (s'.regs (cguClkSel clk).off)
  nearest : NearestDivider clk pllRate rate (s'.regs (cguClkSel clk).off)
  rate_eq : clkGetRate s' clk =
    pllRate / ((field clk (s'.regs (cguClkSel clk).off) + 1) * unit clk)
  rate_le : clkGetRate s' clk ≤ 2 * rate

/-- When setting a rate does what it is for: with the quotient and the rest of the two rates,
and the bits of the register before. A clock without a source in the table keeps its divider. -/
def Settable (s : Cpm) (clk : Clk) (pllRate rate : Nat) : Prop :=
  let quotient := pllRate / rate
  let rest := pllRate % rate
  let regval := s.regs (cguClkSel clk).off
  match s.selSrc clk, clk with
  | none, _ => NearestDivider clk pllRate rate regval
  | some _, .ddr =>
    (2 * rest + 1 ≠ rate ∧ (rate ≤ 2 * rest → (quotient + 1) * rate < 2 ^ 32 ∨
      quotient = 15 ∧ ∀ i ∈ [4, 5, 6, 7], regval.getLsbD i)) ∧
    ∀ i ∈ [24, 25, 26, 28], regval.getLsbD i = false
  | some _, .macphy =>
    (2 * rest + 1 ≠ rate ∧
      (rate ≤ 2 * rest → (quotient + 1) * rate < 2 ^ 32 ∨ quotient = 255)) ∧
    regval.getLsbD 28 = false
  | some _, _ =>
    ((2 * rest + 1 < rate → quotient % 2 = 0 ∨ rest = 0 ∧ quotient ≠ 1) ∧
      (rate ≤ 2 * rest + 1 → (quotient + 1) * rate < 2 ^ 32 ∨ quotient = 511)) ∧
    regval.getLsbD 28 = false

theorem NearestDivider.rate_le (h : NearestDivider clk pllRate rate regval) (hrate : 0 < rate)
    (hfits : pllRate ≤ 2 ^ fieldWidth clk * (unit clk * rate)) :
    pllRate / ((field clk regval + 1) * unit clk) ≤ 2 * rate := by
  have hunit : 0 < unit clk := by cases clk <;> decide
  obtain ⟨⟨-, hcount⟩, hnext, -⟩ := (isNearest_iff_neighbours (Nat.mul_pos hunit hrate)).mp h
  refine Nat.div_le_of_le_mul ?_
  generalize field clk regval = k at *
  have hfirst : unit clk * rate ≤ (k + 1) * (unit clk * rate) :=
    Nat.le_mul_of_pos_left _ (Nat.succ_pos k)
  have hmul : (k + 1) * unit clk * (2 * rate) = 2 * ((k + 1) * (unit clk * rate)) := by ring
  rw [hmul]
  rcases Nat.lt_or_eq_of_le hcount with hlt | heq
  · have := hnext hlt
    omega
  · rw [heq]
    omega

theorem cdr_lt (clk : Clk) (pllRate rate : Nat) : cdr clk pllRate rate < 2 ^ 8 := by
  rw [cdr]
  split
  · exact Nat.mod_lt _ (by decide)
  · exact Nat.mod_lt _ (by decide)

theorem clkSetRate_cases (s : Cpm) (clk : Clk) (rate : Nat) :
    clkSetRate s clk rate = s ∨ ∃ value < 2 ^ 8, clkSetRate s clk rate =
      s.write (cguClkSel clk).off (setDivider clk value (s.regs (cguClkSel clk).off)) := by
  unfold clkSetRate
  dsimp only
  split
  · exact .inl rfl
  · exact .inr ⟨_, cdr_lt _ _ _, rfl⟩

theorem pllGetRate_write (s : Cpm) (clk : Clk) (regval : BitVec 32) (src : Option Pll) :
    pllGetRate (s.write (cguClkSel clk).off regval) src = pllGetRate s src := by
  cases src with
  | none => rfl
  | some pll =>
    have hne : pll.reg ≠ (cguClkSel clk).off := by
      cases pll <;> cases clk <;> decide
    simp [pllGetRate, Cpm.write, Function.update_of_ne hne]

theorem feeds_write (hclk : clk.Readable) (hvalue : value < 2 ^ 8) :
    feeds (s.write (cguClkSel clk).off (setDivider clk value (s.regs (cguClkSel clk).off))) clk =
      feeds s clk := by
  have hselect := @setDivider_select clk value (s.regs (cguClkSel clk).off) hclk hvalue
  cases hclk with
  | ddr | macphy | msc0 =>
    simp only [cguClkSel] at hselect
    simp [feeds, Cpm.write, cguClkSel, hselect]
  | msc1 => rfl

theorem clkGetRate_clkSetRate (hclk : clk.Readable) (hfeeds : feeds s clk = some pll) :
    clkGetRate (clkSetRate s clk rate) clk = pllGetRate s (some pll) /
      ((field clk ((clkSetRate s clk rate).regs (cguClkSel clk).off) + 1) * unit clk) := by
  obtain heq | ⟨value, hvalue, heq⟩ := clkSetRate_cases s clk rate
  · rw [heq, clkGetRate_eq hfeeds]
  · rw [heq, clkGetRate_eq ((feeds_write hclk hvalue).trans hfeeds), pllGetRate_write]

theorem roundTrips_iff (hclk : clk.Readable) (hfeeds : feeds s clk = some pll) (hrate : 0 < rate)
    (hfits : pllGetRate s (some pll) ≤ 2 ^ fieldWidth clk * (unit clk * rate)) :
    RoundTrips s clk (pllGetRate s (some pll)) rate (clkSetRate s clk rate) ↔
      KeepsBits clk (s.regs (cguClkSel clk).off)
          ((clkSetRate s clk rate).regs (cguClkSel clk).off) ∧
        NearestDivider clk (pllGetRate s (some pll)) rate
          ((clkSetRate s clk rate).regs (cguClkSel clk).off) := by
  constructor
  · intro h
    exact ⟨h.keeps_bits, h.nearest⟩
  · rintro ⟨hbits, hnearest⟩
    have hget := @clkGetRate_clkSetRate s clk pll rate hclk hfeeds
    refine ⟨?_, hbits, hnearest, hget, ?_⟩
    · intro r hr
      obtain heq | ⟨value, -, heq⟩ := clkSetRate_cases s clk rate
      · rw [heq]
      · rw [heq]
        exact Function.update_of_ne hr _ _
    · rw [hget]
      exact hnearest.rate_le hrate hfits

theorem clkSetRate_regs (hsrc : s.selSrc clk = some pll) (hpos : 0 < pllGetRate s (some pll)) :
    (clkSetRate s clk rate).regs (cguClkSel clk).off =
      setDivider clk (cdr clk (pllGetRate s (some pll)) rate) (s.regs (cguClkSel clk).off) := by
  simp [clkSetRate, hsrc, if_neg hpos.ne', Cpm.write]

theorem settable_ddr (hrate : 0 < rate) (hle : rate ≤ pllRate) (hpll : pllRate < 2 ^ 32)
    (hfits : pllRate ≤ 2 ^ 4 * rate) :
    (((∀ i ∈ [24, 25, 26, 28], regval.getLsbD i = false) ∧
        ∀ i ∈ [4, 5, 6, 7], (cdr .ddr pllRate rate).testBit i → regval.getLsbD i) ∧
      2 * (pllRate % rate) + 1 ≠ rate ∧ (rate ≤ 2 * (pllRate % rate) →
        (pllRate / rate + 1) * rate < 2 ^ 32 ∨ pllRate / rate + 1 = 2 ^ 4)) ↔
    (2 * (pllRate % rate) + 1 ≠ rate ∧ (rate ≤ 2 * (pllRate % rate) →
      (pllRate / rate + 1) * rate < 2 ^ 32 ∨
        pllRate / rate = 15 ∧ ∀ i ∈ [4, 5, 6, 7], regval.getLsbD i)) ∧
    ∀ i ∈ [24, 25, 26, 28], regval.getLsbD i = false := by
  constructor
  · rintro ⟨⟨hclear, hbeside⟩, hround, hup⟩
    refine ⟨⟨hround, fun hhalf => ?_⟩, hclear⟩
    by_cases hwrap : (pllRate / rate + 1) * rate < 2 ^ 32
    · exact .inl hwrap
    · have hcdr := (cdr_ddr hrate hle hpll hfits hround).1 ⟨hhalf, hwrap⟩
      rw [hcdr] at hbeside
      refine .inr ⟨?_, fun i hi => hbeside i hi ?_⟩
      · have := (hup hhalf).resolve_left hwrap
        omega
      · fin_cases hi <;> rfl
  · rintro ⟨⟨hround, hup⟩, hclear⟩
    refine ⟨⟨hclear, fun i hi hbit => ?_⟩, hround, fun hhalf => ?_⟩
    · by_cases hwrap : rate ≤ 2 * (pllRate % rate) → (pllRate / rate + 1) * rate < 2 ^ 32
      · have hcdr := (cdr_ddr hrate hle hpll hfits hround).2 hwrap
        rw [testBit_of_lt hcdr (by fin_cases hi <;> decide)] at hbit
        cases hbit
      · obtain ⟨hhalf, hwrap⟩ := Classical.not_imp.mp hwrap
        exact ((hup hhalf).resolve_left hwrap).2 i hi
    · exact (hup hhalf).imp_right fun h => by omega

/-- A rate is read back as the rate of the nearest divider, and no other bit is touched, just
where the quotient, the rest and the register allow it. -/
theorem clkSetRate_roundTrips_iff (s : Cpm) (clk : Clk) (pll : Pll) (rate : Nat)
    (hclk : clk.Readable) (hfeeds : feeds s clk = some pll)
    (hsrc : ∀ src, s.selSrc clk = some src → src = pll) (hrate : 0 < rate)
    (hle : rate ≤ pllGetRate s (some pll))
    (hfits : pllGetRate s (some pll) ≤ 2 ^ fieldWidth clk * (unit clk * rate)) :
    RoundTrips s clk (pllGetRate s (some pll)) rate (clkSetRate s clk rate) ↔
      Settable s clk (pllGetRate s (some pll)) rate := by
  have hpll := pllGetRate_lt s (some pll)
  have hpos := hrate.trans_le hle
  rw [roundTrips_iff hclk hfeeds hrate hfits]
  cases htable : s.selSrc clk with
  | none =>
    have hsame : clkSetRate s clk rate = s := by
      simp [clkSetRate, htable, pllGetRate]
    rw [hsame]
    simp only [Settable, htable]
    exact and_iff_right fun i _ _ _ _ => rfl
  | some src =>
    obtain rfl := hsrc src htable
    have hvalue := cdr_lt clk (pllGetRate s (some src)) rate
    rw [clkSetRate_regs htable hpos, NearestDivider, field_setDivider hclk]
    unfold Settable
    dsimp only
    rw [htable]
    generalize pllGetRate s (some src) = pllRate at *
    cases hclk with
    | ddr =>
      simp only [fieldWidth, unit, Nat.one_mul] at hfits ⊢
      rw [keepsBits_setDivider_ddr hvalue,
        isNearest_cdr hrate hle hpll (.inl rfl) hfits (by decide)]
      exact settable_ddr hrate hle hpll hfits
    | macphy =>
      simp only [fieldWidth, unit, Nat.one_mul] at hfits ⊢
      have hlargest : pllRate / rate + 1 = 2 ^ 8 ↔ pllRate / rate = 255 := by omega
      rw [keepsBits_setDivider .macphy (by decide) hvalue,
        isNearest_cdr hrate hle hpll (.inr rfl) hfits (by decide), and_comm, hlargest]
    | msc0 =>
      rw [keepsBits_setDivider .msc0 (by decide) hvalue, and_comm]
      exact and_congr_left' (isNearest_cdr_msc hrate hle hpll hfits (.inl rfl))
    | msc1 =>
      rw [keepsBits_setDivider .msc1 (by decide) hvalue, and_comm]
      exact and_congr_left' (isNearest_cdr_msc hrate hle hpll hfits (.inr rfl))

def board : Cpm where
  regs
    | .cpapcr => 49 <<< 20 ||| 1 <<< 11
    | .cpmpcr => 24 <<< 20 ||| 2 <<< 14
    | .ddrcdr => 2 <<< 30 ||| 1 <<< 26
    | .maccdr => 1 <<< 30
    | .msc1cdr => 0xff
    | _ => 0
  selSrc := initialSource .mpll .apll
  extal := 24000000

/-- A quarter of the rate of the PLL. -/
theorem clkSetRate_roundTrips_msc0 :
    RoundTrips board .msc0 (pllGetRate board (some .apll)) 300000000
      (clkSetRate board .msc0 300000000) := by
  refine (clkSetRate_roundTrips_iff board .msc0 .apll 300000000 .msc0 rfl ?_ (by decide)
    (by decide +kernel) (by decide +kernel)).mpr ?_
  · intro src hsrc
    exact (Option.some.inj hsrc).symm
  · have hrate : pllGetRate board (some .apll) = 1200000000 := by decide +kernel
    rw [hrate]
    exact ⟨⟨fun _ => .inl rfl, fun h => absurd h (by decide)⟩, rfl⟩

/-- The second MMC controller keeps its divider 512, the first gets it for the rate of the PLL
itself. A rate of which the PLL has a little less than one and a half is divided by two, and
setting the memory clock clears a bit that is neither `stop` nor `ce`. -/
theorem clkSetRate_not_roundTrips :
    ¬ RoundTrips board .msc1 (pllGetRate board (some .apll)) 24000000
        (clkSetRate board .msc1 24000000) ∧
    ¬ RoundTrips board .msc0 (pllGetRate board (some .apll)) 1200000000
        (clkSetRate board .msc0 1200000000) ∧
    ¬ RoundTrips board .macphy (pllGetRate board (some .mpll)) 266666667
        (clkSetRate board .macphy 266666667) ∧
    ¬ RoundTrips board .ddr (pllGetRate board (some .mpll)) 200000000
        (clkSetRate board .ddr 200000000) := by
  refine ⟨fun h => ?_, fun h => ?_, fun h => ?_, fun h => ?_⟩
  · exact absurd (h.nearest.2 25 (by decide) (by decide)) (by decide +kernel)
  · exact absurd (h.nearest.2 1 (by decide) (by decide)) (by decide +kernel)
  · exact absurd (h.nearest.2 1 (by decide) (by decide)) (by decide +kernel)
  · exact absurd (h.keeps_bits 26 (by decide) (by decide) (by decide) (by decide))
      (by decide +kernel)

end UBoot.Clock.X1830
