import UBoot.Lib.Word32

/-!
# Peripheral clocks of the X1830

`clk_set_rate` and `clk_get_rate` of `arch/mips/cpu/xburst/x1830/clk.c`. The table
`cgu_clk_sel` says where the divider of a clock is and which PLL the clock is taken
from; the two upper bits of the register say so once more, and `clk_get_rate` goes by
these. A register keeps what is written to it, the busy bit included.
-/

namespace UBoot.Clock.X1830

open Word32

inductive Pll where
  | apll | mpll | vpll | epll
  deriving DecidableEq

/-- The clocks of the table, `enum clk_id` below `CGU_CNT`. -/
inductive Clk where
  | ddr | helix | macphy | lcd | i2s | msc0 | msc1 | ssi | sfc | cim | isp
  deriving DecidableEq

inductive CpmReg where
  | cpapcr | cpmpcr | cpvpcr | cpepcr
  | ddrcdr | helixcdr | maccdr | lpcdr | i2scdr | msc0cdr | msc1cdr | ssicdr | cimcdr | ispcdr
  deriving DecidableEq

/-- The members of `struct cgu` that setting a rate reads, but for the source. -/
structure Cgu where
  off : CpmReg
  ce : Nat
  busy : Nat
  stop : Nat

def cguClkSel : Clk → Cgu
  | .ddr => ⟨.ddrcdr, 29, 28, 27⟩
  | .msc0 => ⟨.msc0cdr, 29, 28, 27⟩
  | .msc1 => ⟨.msc1cdr, 29, 28, 27⟩
  | .sfc => ⟨.ssicdr, 28, 27, 26⟩
  | .helix => ⟨.helixcdr, 29, 28, 27⟩
  | .macphy => ⟨.maccdr, 29, 28, 27⟩
  | .lcd => ⟨.lpcdr, 28, 27, 26⟩
  | .ssi => ⟨.ssicdr, 28, 27, 26⟩
  | .i2s => ⟨.i2scdr, 29, 28, 27⟩
  | .cim => ⟨.cimcdr, 29, 28, 27⟩
  | .isp => ⟨.ispcdr, 29, 28, 27⟩

/-- The column `sel_src` as the table is initialised. A board can replace an entry; the one of
the second MMC controller is 0, which is no PLL. -/
def initialSource (ddrSelPll cpuSelPll : Pll) : Clk → Option Pll
  | .ddr => some ddrSelPll
  | .msc0 => some cpuSelPll
  | .msc1 => none
  | .sfc => some ddrSelPll
  | .helix => some .mpll
  | .macphy => some .mpll
  | .lcd => some .vpll
  | .ssi => some cpuSelPll
  | .i2s => some .vpll
  | .cim => some .vpll
  | .isp => some .mpll

/-- The clock unit: its registers, the column `sel_src` and the external clock. -/
structure Cpm where
  regs : CpmReg → BitVec 32
  selSrc : Clk → Option Pll
  extal : Nat

def Pll.reg : Pll → CpmReg
  | .apll => .cpapcr
  | .mpll => .cpmpcr
  | .vpll => .cpvpcr
  | .epll => .cpepcr

def pllGetRate (s : Cpm) : Option Pll → Nat
  | none => 0
  | some pll =>
    let cpxpcr := s.regs pll.reg
    let m := (cpxpcr >>> 20 &&& 0x1ff).toNat
    let n := (cpxpcr >>> 14 &&& 0x3f).toNat
    let od := (cpxpcr >>> 11 &&& 0x07).toNat
    u32 (s.extal * 2 * (m + 1) / (n + 1) / 2 ^ od)

def getDdrRate (s : Cpm) : Nat :=
  let ddrcdr := s.regs .ddrcdr
  match (ddrcdr >>> 30).toNat with
  | 1 => pllGetRate s (some .apll) / ((ddrcdr &&& 0xf).toNat + 1)
  | 2 => pllGetRate s (some .mpll) / ((ddrcdr &&& 0xf).toNat + 1)
  | _ => 0

def getMacRate (s : Cpm) : Nat :=
  let maccdr := s.regs .maccdr
  match (maccdr >>> 30).toNat with
  | 0 => pllGetRate s (some .apll) / ((maccdr &&& 0xff).toNat + 1)
  | 1 => pllGetRate s (some .mpll) / ((maccdr &&& 0xff).toNat + 1)
  | 2 => pllGetRate s (some .vpll) / ((maccdr &&& 0xff).toNat + 1)
  | _ => 0

def getMscRate (s : Cpm) (xcdr : CpmReg) : Nat :=
  let msc0cdr := s.regs .msc0cdr
  let mscxcdr := s.regs xcdr
  match (msc0cdr >>> 30).toNat with
  | 0 => pllGetRate s (some .apll) / (((mscxcdr &&& 0xff).toNat + 1) * 2)
  | 1 => pllGetRate s (some .mpll) / (((mscxcdr &&& 0xff).toNat + 1) * 2)
  | _ => 1

/-- The cases of `clk_get_rate` for a clock of the table. -/
def clkGetRate (s : Cpm) : Clk → Nat
  | .ddr => getDdrRate s
  | .macphy => getMacRate s
  | .msc0 => getMscRate s .msc0cdr
  | .msc1 => getMscRate s .msc1cdr
  | _ => 0

def roundPllRate (pllRate rate : Nat) : Nat :=
  if rate / 2 ≤ pllRate % rate then u32 (pllRate + (rate - pllRate % rate))
  else pllRate - pllRate % rate

def cdr (clk : Clk) (pllRate rate : Nat) : Nat :=
  if clk = .msc0 ∨ clk = .msc1 then
    u32 (roundPllRate pllRate rate / rate / 2 + (2 ^ 32 - 1)) % 2 ^ 8
  else u32 (roundPllRate pllRate rate / rate + (2 ^ 32 - 1)) % 2 ^ 8

def clearMask (clk : Clk) : BitVec 32 :=
  if clk = .ddr then 0xf ||| 0x3f <<< 24 else 3 <<< (cguClkSel clk).stop ||| 0xff

def setDivider (clk : Clk) (value : Nat) (regval : BitVec 32) : BitVec 32 :=
  regval &&& ~~~ clearMask clk ||| (1 <<< (cguClkSel clk).ce ||| BitVec.ofNat 32 value)

def Cpm.write (s : Cpm) (off : CpmReg) (value : BitVec 32) : Cpm :=
  { s with regs := Function.update s.regs off value }

def clkSetRate (s : Cpm) (clk : Clk) (rate : Nat) : Cpm :=
  let pllRate := pllGetRate s (s.selSrc clk)
  if pllRate = 0 then s
  else s.write (cguClkSel clk).off (setDivider clk (cdr clk pllRate rate)
    (s.regs (cguClkSel clk).off))

/-! ## What is read back -/

inductive Clk.Readable : Clk → Prop
  | ddr : Readable .ddr
  | macphy : Readable .macphy
  | msc0 : Readable .msc0
  | msc1 : Readable .msc1

def fieldWidth : Clk → Nat
  | .ddr => 4
  | _ => 8

def field (clk : Clk) (regval : BitVec 32) : Nat :=
  (regval &&& BitVec.ofNat 32 (2 ^ fieldWidth clk - 1)).toNat

def unit : Clk → Nat
  | .msc0 | .msc1 => 2
  | _ => 1

def feeds (s : Cpm) : Clk → Option Pll
  | .ddr =>
    match (s.regs .ddrcdr >>> 30).toNat with
    | 1 => some .apll
    | 2 => some .mpll
    | _ => none
  | .macphy =>
    match (s.regs .maccdr >>> 30).toNat with
    | 0 => some .apll
    | 1 => some .mpll
    | 2 => some .vpll
    | _ => none
  | .msc0 | .msc1 =>
    match (s.regs .msc0cdr >>> 30).toNat with
    | 0 => some .apll
    | 1 => some .mpll
    | _ => none
  | _ => none

variable {s : Cpm} {clk : Clk} {pll : Pll}

theorem pllGetRate_lt (s : Cpm) (src : Option Pll) : pllGetRate s src < 2 ^ 32 := by
  cases src with
  | none => exact Nat.two_pow_pos 32
  | some pll => exact u32_lt _

theorem clkGetRate_eq (h : feeds s clk = some pll) :
    clkGetRate s clk =
      pllGetRate s (some pll) / ((field clk (s.regs (cguClkSel clk).off) + 1) * unit clk) := by
  cases clk
  case ddr =>
    simp only [feeds] at h
    simp only [clkGetRate, getDdrRate, unit, Nat.mul_one]
    split at h <;> simp_all [field, fieldWidth, cguClkSel]
  case macphy =>
    simp only [feeds] at h
    simp only [clkGetRate, getMacRate, unit, Nat.mul_one]
    split at h <;> simp_all [field, fieldWidth, cguClkSel]
  case msc0 =>
    simp only [feeds] at h
    simp only [clkGetRate, getMscRate, unit]
    split at h <;> simp_all [field, fieldWidth, cguClkSel]
  case msc1 =>
    simp only [feeds] at h
    simp only [clkGetRate, getMscRate, unit]
    split at h <;> simp_all [field, fieldWidth, cguClkSel]
  all_goals cases h

end UBoot.Clock.X1830
