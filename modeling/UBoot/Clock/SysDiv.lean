import UBoot.Lib.Word32

/-!
# Dividers of the X1000 clocks

`gen_sys_div` of `arch/mips/cpu/xburst/x1000/pll_params_creator.c`. Its checks of the ranges ask
for a divider that is below 0 and above 16.
-/

namespace UBoot.Clock

open Word32

def maxH0Clk : Nat := 200 * 1000 * 1000

def maxH2Clk : Nat := 200 * 1000 * 1000

def maxPClk : Nat := 150 * 1000 * 1000

def maxL2Clk : Nat := 600 * 1000 * 1000

structure PllSetting where
  apllFreq : UInt32
  mpllFreq : UInt32
  cpuFreq : UInt32
  cpuSelPll : UInt32
  ddrSelPll : UInt32

structure DivSetting where
  cdiv : Int
  l2div : Int
  h0div : Int
  h2div : Int
  pdiv : Int
  selH2pll : Nat
  selH0pll : Nat
  selCpll : Nat
  selSrc : Nat

inductive DivError
  | pllBelowCpu | pllNotDivided | cdivRange | l2divRange | h0divRange | h2divRange | pdivRange
  deriving DecidableEq

def minDivFrom (srcClk maxClk div : Nat) : Nat :=
  if srcClk / div > maxClk then minDivFrom srcClk maxClk (div + 1) else div
termination_by srcClk + 1 - div
decreasing_by
  have := (Nat.div_pos_iff.mp (Nat.zero_lt_of_lt ‹_›)).2
  omega

def findMinDiv (srcClk maxClk : Nat) : Nat := minDivFrom srcClk maxClk 1

def PllSetting.pllFreq (s : PllSetting) (pll : Nat) : Nat :=
  if pll = 0 then s.apllFreq.toNat else s.mpllFreq.toNat

def PllSetting.cpll (s : PllSetting) : Nat := if s.cpuSelPll = 1 then 0 else 1

def PllSetting.periphPll (s : PllSetting) : Nat := if s.ddrSelPll = 1 then 0 else 1

def PllSetting.cpuSource (s : PllSetting) : Nat := s.pllFreq s.cpll

def PllSetting.periphSource (s : PllSetting) : Nat := s.pllFreq s.periphPll

def outOfRange (div : Int) (e : DivError) : List DivError := if div < 0 ∧ div > 16 then [e] else []

/-- The errors that are printed, and the dividers. A `pdiv` that is not set keeps its value. -/
def genSysDiv (s : PllSetting) (div : DivSetting) : List DivError × DivSetting :=
  let pll := s.cpuSource
  let periph := s.periphSource
  let cpu := s.cpuFreq.toNat
  let cdiv := toInt (u32 (pll / cpu + 2 ^ 32 - 1))
  let l2div : Int := findMinDiv pll maxL2Clk - 1
  let h0div : Int := findMinDiv periph maxH0Clk - 1
  let h2div : Int := findMinDiv periph maxH2Clk - 1
  let h2Freq := periph / (h2div + 1).toNat
  let pFreq := h2Freq / findMinDiv h2Freq maxPClk
  let pdiv := toInt (u32 (periph / pFreq + 2 ^ 32 - 1))
  ((if pll < cpu then [.pllBelowCpu] else []) ++ (if pll % cpu ≠ 0 then [.pllNotDivided] else []) ++
    outOfRange cdiv .cdivRange ++ outOfRange l2div .l2divRange ++ outOfRange h0div .h0divRange ++
    if h2div < 0 ∧ h2div > 16 then [.h2divRange] else outOfRange pdiv .pdivRange,
    { cdiv := cdiv
      l2div := l2div
      h0div := h0div
      h2div := h2div
      pdiv := if h2div < 0 ∧ h2div > 16 then div.pdiv else pdiv
      selH2pll := s.periphPll + 1
      selH0pll := s.periphPll + 1
      selCpll := s.cpll + 1
      selSrc := 2 })

/-! ## The search -/

theorem minDivFrom_eq (h : 0 < div) :
    minDivFrom srcClk maxClk div = max div (srcClk / (maxClk + 1) + 1) := by
  have hiff : srcClk / div > maxClk ↔ div < srcClk / (maxClk + 1) + 1 := by
    rw [gt_iff_lt, Nat.lt_iff_add_one_le, Nat.le_div_iff_mul_le h, Nat.lt_succ_iff,
      Nat.le_div_iff_mul_le (by omega), Nat.mul_comm]
  rw [minDivFrom]
  split
  · next hgt =>
    rw [minDivFrom_eq (by omega)]
    have := hiff.mp hgt
    omega
  · next hle =>
    have := mt hiff.mpr hle
    omega
termination_by srcClk + 1 - div
decreasing_by
  have := (Nat.div_pos_iff.mp (Nat.zero_lt_of_lt ‹_›)).2
  omega

theorem findMinDiv_eq (srcClk maxClk : Nat) :
    findMinDiv srcClk maxClk = srcClk / (maxClk + 1) + 1 := by
  rw [findMinDiv, minDivFrom_eq Nat.one_pos]
  exact Nat.max_eq_right (Nat.le_add_left 1 _)

/-! ## Sound dividers -/

structure SoundDiv (s : PllSetting) (div : DivSetting) : Prop where
  fields : ∀ x ∈ [div.cdiv, div.l2div, div.h0div, div.h2div, div.pdiv], 0 ≤ x ∧ x ≤ 15
  cpu : (s.cpuSource : Int) = s.cpuFreq.toNat * (div.cdiv + 1)
  l2 : (s.cpuSource : Int) ≤ maxL2Clk * (div.l2div + 1)
  h0 : (s.periphSource : Int) ≤ maxH0Clk * (div.h0div + 1)
  h2 : (s.periphSource : Int) ≤ maxH2Clk * (div.h2div + 1)
  p : (s.periphSource : Int) ≤ maxPClk * (div.pdiv + 1)
  multiple : div.h2div + 1 ∣ div.pdiv + 1

/-- The quotient is not a whole number of Hz, and exceeds the limit by less than one. -/
def ExceedsAt (maxClk freq d : Nat) : Prop := maxClk * d < freq ∧ freq < (maxClk + 1) * d
  deriving Decidable

theorem le_mul_iff_not_exceedsAt (maxClk freq : Nat) :
    freq ≤ maxClk * (freq / (maxClk + 1) + 1) ↔ ∀ d, ¬ ExceedsAt maxClk freq d := by
  constructor
  · rintro h d ⟨hlt, hd⟩
    have hle : freq / (maxClk + 1) + 1 ≤ d := Nat.div_lt_of_lt_mul hd
    have := Nat.mul_le_mul_left maxClk hle
    omega
  · intro h
    by_contra hlt
    exact h _ ⟨Nat.lt_of_not_le hlt, Nat.lt_mul_div_succ freq (Nat.succ_pos maxClk)⟩

theorem div_div_eq_self (hk : 0 < k) (h : k * k ≤ n) : n / (n / k) = k := by
  have hle : k ≤ n / k := (Nat.le_div_iff_mul_le hk).mpr h
  refine Nat.div_eq_of_lt_le (Nat.mul_div_le n k) ?_
  rw [Nat.add_mul, Nat.one_mul]
  have := Nat.div_add_mod n k
  have := Nat.mod_lt n hk
  omega

def ahbDiv (freq : Nat) : Nat := freq / (maxH2Clk + 1) + 1

/-- What the AHB2 clock is divided by for the APB clock. -/
def apbDiv (freq : Nat) : Nat := freq / ahbDiv freq / (maxPClk + 1) + 1

theorem ahbDiv_eq (freq : Nat) : ahbDiv freq = freq / 200000001 + 1 := rfl

theorem apbDiv_cases (freq : Nat) :
    apbDiv freq = 1 ∧ freq < 150000001 * ahbDiv freq ∨
      apbDiv freq = 2 ∧ 150000001 * ahbDiv freq ≤ freq := by
  have heq := ahbDiv_eq freq
  have hlt : freq / ahbDiv freq < 200000001 := Nat.div_lt_of_lt_mul (by omega)
  have hiff := @Nat.div_lt_iff_lt_mul (ahbDiv freq) freq 150000001 (by omega)
  rw [apbDiv, show maxPClk + 1 = 150000001 from rfl]
  generalize freq / ahbDiv freq = h2Freq at hlt hiff ⊢
  omega

theorem apb_iff (freq : Nat) (hle : freq ≤ maxH2Clk * ahbDiv freq) :
    ahbDiv freq * apbDiv freq ≤ 16 ∧ freq ≤ maxPClk * (ahbDiv freq * apbDiv freq) ↔
      freq ≤ 8 * maxH2Clk ∧ ∀ d ≤ 4, ¬ ExceedsAt maxPClk freq d := by
  have heq := ahbDiv_eq freq
  simp only [ExceedsAt, maxH2Clk, maxPClk] at hle ⊢
  obtain ⟨hdiv, hcmp⟩ | ⟨hdiv, hcmp⟩ := apbDiv_cases freq
  all_goals
    rw [hdiv]
    refine ⟨fun h => ⟨by omega, fun d _ => by omega⟩, fun h => ⟨by omega, ?_⟩⟩
    -- The divider of the AHB2 clock is the one that could exceed the limit.
    have := h.2 (ahbDiv freq)
    omega

theorem apbDiv_bounds (hlt : freq < 2 ^ 32) :
    ahbDiv freq * apbDiv freq ≤ 44 ∧ (ahbDiv freq * apbDiv freq = 1 ∨ 2 ^ 11 ≤ freq) := by
  have heq := ahbDiv_eq freq
  obtain ⟨hdiv, hcmp⟩ | ⟨hdiv, hcmp⟩ := apbDiv_cases freq
  all_goals
    rw [hdiv]
    omega

theorem apbDiv_pos (freq : Nat) : 0 < ahbDiv freq * apbDiv freq :=
  Nat.mul_pos (Nat.succ_pos _) (Nat.succ_pos _)

theorem pdiv_eq (hpos : 0 < freq) (hlt : freq < 2 ^ 32) :
    freq / (freq / ahbDiv freq / apbDiv freq) = ahbDiv freq * apbDiv freq := by
  rw [Nat.div_div_eq_div_mul]
  refine div_div_eq_self (apbDiv_pos freq) ?_
  obtain ⟨hle, hone | hbig⟩ := apbDiv_bounds hlt
  · rw [hone]
    exact hpos
  · exact (Nat.mul_le_mul hle hle).trans (by omega)

theorem toInt_pred (hpos : 0 < n) (hlt : n < 2 ^ 32) :
    toInt (u32 (n + 2 ^ 32 - 1)) = if n ≤ 2 ^ 31 then (n : Int) - 1 else n - 1 - 2 ^ 32 := by
  rw [u32_eq, show (n + 2 ^ 32 - 1) % 2 ^ 32 = n - 1 by omega, toInt]
  split <;> split <;> omega

section
variable (s : PllSetting) (div : DivSetting)

theorem PllSetting.pllFreq_mem (pll : Nat) :
    s.pllFreq pll = s.apllFreq.toNat ∨ s.pllFreq pll = s.mpllFreq.toNat := by
  rw [pllFreq]
  split
  · exact .inl rfl
  · exact .inr rfl

theorem outOfRange_eq_nil (div : Int) (e : DivError) : outOfRange div e = [] :=
  if_neg (by omega)

theorem genSysDiv_errors : (genSysDiv s div).1 = [] ↔
    s.cpuFreq.toNat ≤ s.cpuSource ∧ s.cpuFreq.toNat ∣ s.cpuSource := by
  have hrange (x : Int) : ¬ (x < 0 ∧ x > 16) := by omega
  simp only [genSysDiv, outOfRange_eq_nil, if_neg (hrange _), List.append_nil,
    List.append_eq_nil_iff, Nat.dvd_iff_mod_eq_zero]
  split <;> split <;> simp_all

theorem genSysDiv_dividers (hpos : 0 < s.periphSource) (hlt : s.periphSource < 2 ^ 32) :
    (genSysDiv s div).2.l2div + 1 = (s.cpuSource / (maxL2Clk + 1) + 1 : Nat) ∧
    (genSysDiv s div).2.h0div + 1 = ahbDiv s.periphSource ∧
    (genSysDiv s div).2.h2div + 1 = ahbDiv s.periphSource ∧
    (genSysDiv s div).2.pdiv + 1 = (ahbDiv s.periphSource * apbDiv s.periphSource : Nat) := by
  have hrange (x : Int) : ¬ (x < 0 ∧ x > 16) := by omega
  have hbound := (apbDiv_bounds hlt).1
  have hpdiv := pdiv_eq hpos hlt
  simp only [apbDiv, ahbDiv] at hpdiv
  simp only [genSysDiv, if_neg (hrange _), findMinDiv_eq, Int.sub_add_cancel, Int.toNat_natCast]
  refine ⟨trivial, rfl, rfl, ?_⟩
  rw [hpdiv, ← ahbDiv, ← apbDiv, toInt_pred (apbDiv_pos _) (by omega), if_pos (by omega), Int.sub_add_cancel]

end

theorem soundDiv_iff {s : PllSetting} {div : DivSetting} {n l d k : Nat}
    (hcdiv : div.cdiv = if n ≤ 2 ^ 31 then (n : Int) - 1 else n - 1 - 2 ^ 32)
    (hl2 : div.l2div + 1 = l) (hh0 : div.h0div + 1 = d) (hh2 : div.h2div + 1 = d)
    (hp : div.pdiv + 1 = k) (hn : s.cpuSource = s.cpuFreq.toNat * n) (hn' : 0 < n ∧ n < 2 ^ 32)
    (hl : 0 < l ∧ l ≤ 8) (hk : 0 < k) (hdvd : d ∣ k) :
    SoundDiv s div ↔ n ≤ 16 ∧ k ≤ 16 ∧ s.cpuSource ≤ maxL2Clk * l ∧
      s.periphSource ≤ maxH2Clk * d ∧ s.periphSource ≤ maxPClk * k := by
  have hd := Nat.le_of_dvd hk hdvd
  have hdpos := Nat.pos_of_dvd_of_pos hdvd hk
  constructor
  · rintro ⟨hfields, -, hl2', -, hh2', hp', -⟩
    have hc := hfields div.cdiv (by simp)
    have hpdiv := hfields div.pdiv (by simp)
    rw [hl2] at hl2'
    rw [hh2] at hh2'
    rw [hp] at hp'
    refine ⟨?_, by omega, by exact_mod_cast hl2', by exact_mod_cast hh2', by exact_mod_cast hp'⟩
    split at hcdiv <;> omega
  · rintro ⟨hc, hk', hl2', hh2', hp'⟩
    rw [if_pos (by omega)] at hcdiv
    refine ⟨?_, ?_, ?_, ?_, ?_, ?_, ?_⟩
    · simp only [List.forall_mem_cons, List.not_mem_nil, false_imp_iff, implies_true, and_true]
      omega
    · rw [hcdiv, Int.sub_add_cancel, hn, Nat.cast_mul]
    · rw [hl2]
      exact_mod_cast hl2'
    · rw [hh0, show maxH0Clk = maxH2Clk from rfl]
      exact_mod_cast hh2'
    · rw [hh2]
      exact_mod_cast hh2'
    · rw [hp]
      exact_mod_cast hp'
    · rw [hh2, hp]
      exact_mod_cast hdvd

/-- The dividers are sound exactly if the CPU divider is at most 16, the PLL of the peripherals is
not above 1600 MHz, and no clock exceeds its limit by a part of a Hz. -/
theorem genSysDiv_sound_iff (s : PllSetting) (div : DivSetting) (hapll : 0 < s.apllFreq)
    (hmpll : 0 < s.mpllFreq) (hcpu : 0 < s.cpuFreq) (hok : (genSysDiv s div).1 = []) :
    SoundDiv s (genSysDiv s div).2 ↔
      s.cpuSource ≤ 16 * s.cpuFreq.toNat ∧ s.periphSource ≤ 8 * maxH2Clk ∧
      (∀ d, ¬ ExceedsAt maxL2Clk s.cpuSource d) ∧
      (∀ d, ¬ ExceedsAt maxH2Clk s.periphSource d) ∧
      ∀ d ≤ 4, ¬ ExceedsAt maxPClk s.periphSource d := by
  have hpos (pll : Nat) : 0 < s.pllFreq pll ∧ s.pllFreq pll < 2 ^ 32 := by
    obtain h | h := s.pllFreq_mem pll
    · exact h ▸ ⟨hapll, s.apllFreq.toNat_lt⟩
    · exact h ▸ ⟨hmpll, s.mpllFreq.toNat_lt⟩
  obtain ⟨-, hlt⟩ : _ ∧ s.cpuSource < 2 ^ 32 := hpos _
  obtain ⟨hge, n, hn⟩ := (genSysDiv_errors s div).mp hok
  obtain ⟨hl2, hh0, hh2, hp⟩ := genSysDiv_dividers s div (hpos _).1 (hpos _).2
  have hcpu' : 0 < s.cpuFreq.toNat := hcpu
  have hnpos : 0 < n := by
    rcases Nat.eq_zero_or_pos n with rfl | hnpos
    · omega
    · exact hnpos
  have hnlt : n < 2 ^ 32 := (Nat.le_mul_of_pos_left n hcpu').trans_lt (hn ▸ hlt)
  have hcdiv : (genSysDiv s div).2.cdiv = if n ≤ 2 ^ 31 then (n : Int) - 1 else n - 1 - 2 ^ 32 := by
    rw [← toInt_pred hnpos hnlt, ← Nat.mul_div_cancel_left n hcpu', ← hn]
    rfl
  have hsixteen : s.cpuSource ≤ 16 * s.cpuFreq.toNat ↔ n ≤ 16 := by
    rw [hn, Nat.mul_comm 16, Nat.mul_le_mul_left_iff hcpu']
  have hl : s.cpuSource / (maxL2Clk + 1) + 1 ≤ 8 := by
    rw [show maxL2Clk + 1 = 600000001 from rfl]
    omega
  rw [soundDiv_iff hcdiv hl2 hh0 hh2 hp hn ⟨hnpos, hnlt⟩ ⟨Nat.succ_pos _, hl⟩ (apbDiv_pos _)
    (Dvd.intro _ rfl), ← le_mul_iff_not_exceedsAt, ← le_mul_iff_not_exceedsAt, hsixteen]
  have hapb := apb_iff s.periphSource
  tauto

theorem genSysDiv_sound_1008 :
    let s : PllSetting := ⟨1008000000, 600000000, 1008000000, 1, 2⟩
    SoundDiv s (genSysDiv s ⟨0, 0, 0, 0, 0, 0, 0, 0, 0⟩).2 := by
  refine (genSysDiv_sound_iff _ _ (by decide) (by decide) (by decide)
    ((genSysDiv_errors _ _).mpr (by decide))).mpr ⟨by decide, by decide, ?_, ?_, by decide⟩
  · exact (le_mul_iff_not_exceedsAt _ _).mp (by decide)
  · exact (le_mul_iff_not_exceedsAt _ _).mp (by decide)

/-- The divider 24 of the CPU clock does not fit in its field. -/
theorem genSysDiv_unsound_24 :
    let s : PllSetting := ⟨1200000000, 600000000, 50000000, 1, 2⟩
    (genSysDiv s ⟨0, 0, 0, 0, 0, 0, 0, 0, 0⟩).1 = [] ∧
      (genSysDiv s ⟨0, 0, 0, 0, 0, 0, 0, 0, 0⟩).2.cdiv = 23 := by
  refine ⟨(genSysDiv_errors _ _).mpr (by decide), ?_⟩
  simp only [genSysDiv]
  decide +kernel

end UBoot.Clock
