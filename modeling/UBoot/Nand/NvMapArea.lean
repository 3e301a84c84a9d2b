import UBoot.Lib.LittleEndian
import UBoot.Nand.SplLoadAgrees

/-!
# The newest record of the NV area

`nv_map_area` of `common/spl/spl_sfc_nand.c` loads the head of each block's record, and then its
counter and tail from the block's last page. Only the load of a first page looks at the mark of
the block: the head of a bad block is taken from the next good one, its counter and tail are its
own.
-/

namespace UBoot.Nand

open ByteMemory Word32 LittleEndian

def wordAt (mem : Nat → UInt8) (a : Nat) : Nat :=
  leValue [mem a, mem (a + 1), mem (a + 2), mem (a + 3)]

def nvBlocksize : Nat := 128 * 1024

def headMark : Nat := 0x5a5a5a5a

def tailMark : Nat := 0xa5a5a5a5

/-- The variables of `nv_map_area` that its rounds change; `buf` lies in the memory. -/
structure NvScan where
  memory : Memory
  nvOff : Nat
  nvCount : Nat

section
variable (nand : NandInfo) (chip : Chip) (dev : PageReads) (mem : Nat → UInt8)
  (fuel buf nvAddr : Nat)

def NvScan.round (i : Nat) (s : NvScan) : Option NvScan := do
  let addr := u32 (nvAddr + i * nvBlocksize)
  let (_, memory) ← sfcNandLoad nand chip dev mem fuel addr 4 (buf + 8 * i) s.memory
  if wordAt memory (buf + 8 * i) = headMark then
    let (_, memory) ← sfcNandLoad nand chip dev mem fuel (u32 (addr + (nvBlocksize - 8))) 8
      (buf + 8 * i) memory
    if wordAt memory (buf + 8 * i + 4) = tailMark ∧ s.nvCount < wordAt memory (buf + 8 * i) then
      some ⟨memory, i, wordAt memory (buf + 8 * i)⟩
    else some { s with memory := memory }
  else some { s with memory := memory }

def nvRounds (memory : Memory) : Nat → Option NvScan
  | 0 => some ⟨memory, 0, 0⟩
  | i + 1 => (nvRounds memory i).bind (NvScan.round nand chip dev mem fuel buf nvAddr i)

/-- What is stored in `*base_addr`. For more than six blocks the function does not return. -/
def nvMapArea (nvSize : Nat) (memory : Memory) : Option Nat :=
  if nvSize / nvBlocksize > 6 then none
  else (nvRounds nand chip dev mem fuel buf nvAddr memory (nvSize / nvBlocksize)).map fun s =>
    u32 (nvAddr + s.nvOff * nvBlocksize)

end

/-! ## Records -/

/-- The block from which a load at the start of `b` takes its data; the addresses wrap. -/
inductive NextGood (chip : Chip) : Nat → Nat → Prop
  | here {b : Nat} : chip.bad b = false → NextGood chip b b
  | next {b h : Nat} : chip.bad b = true → NextGood chip ((b + 1) % 2 ^ 15) h → NextGood chip b h

def nvCounter (mem : Nat → UInt8) (b : Nat) : Nat :=
  wordAt mem (b * nvBlocksize + (nvBlocksize - 8))

def HasTail (mem : Nat → UInt8) (b : Nat) : Prop :=
  wordAt mem (b * nvBlocksize + (nvBlocksize - 4)) = tailMark

def ValidRecord (chip : Chip) (mem : Nat → UInt8) (b : Nat) : Prop :=
  chip.bad b = false ∧ wordAt mem (b * nvBlocksize) = headMark ∧ HasTail mem b

/-- What passes for a record: the head of a bad block may be that of the next good one. -/
def SeenRecord (chip : Chip) (mem : Nat → UInt8) (b : Nat) : Prop :=
  ∃ h, NextGood chip b h ∧ wordAt mem (h * nvBlocksize) = headMark ∧ HasTail mem b

theorem NextGood.unique (hb : NextGood chip b h) (hb' : NextGood chip b h') : h = h' := by
  induction hb with
  | here hgood =>
    cases hb' with
    | here => rfl
    | next hbad => simp [hgood] at hbad
  | next hbad _ ih =>
    cases hb' with
    | here hgood => simp [hgood] at hbad
    | next _ hnext => exact ih hnext

theorem exists_nextGood (k : Nat) (hb : b < 2 ^ 15) (hgood : chip.bad ((b + k) % 2 ^ 15) = false) :
    ∃ h, NextGood chip b h := by
  induction k generalizing b with
  | zero =>
    rw [Nat.add_zero, Nat.mod_eq_of_lt hb] at hgood
    exact ⟨b, .here hgood⟩
  | succ k ih =>
    cases hbad : chip.bad b with
    | false => exact ⟨b, .here hbad⟩
    | true =>
      obtain ⟨h, hnext⟩ := ih (b := (b + 1) % 2 ^ 15) (Nat.mod_lt _ (by norm_num))
        (by rwa [Nat.mod_add_mod, Nat.add_assoc, Nat.add_comm 1])
      exact ⟨h, .next hbad hnext⟩

theorem ValidRecord.seen (h : ValidRecord chip mem b) : SeenRecord chip mem b :=
  ⟨b, .here h.1, h.2⟩

/-- The first of the blocks that pass for a record with the greatest counter, which is not 0
unless it is the first of all. -/
def FirstNewest (chip : Chip) (mem : Nat → UInt8) (first n i : Nat) : Prop :=
  (0 < nvCounter mem (first + i) ∨ i = 0) ∧ ∀ j < n, SeenRecord chip mem (first + j) →
    nvCounter mem (first + j) ≤ nvCounter mem (first + i) ∧
      (j < i → nvCounter mem (first + j) < nvCounter mem (first + i))

/-- After `n` rounds: the first of the records seen with the greatest counter, or none but
such with the counter 0. -/
structure NvScan.Newest (chip : Chip) (mem : Nat → UInt8) (first n : Nat) (s : NvScan) : Prop where
  le : ∀ j < n, SeenRecord chip mem (first + j) → nvCounter mem (first + j) ≤ s.nvCount
  found : s.nvCount = 0 ∧ s.nvOff = 0 ∨ 0 < s.nvCount ∧ s.nvOff < n ∧
    SeenRecord chip mem (first + s.nvOff) ∧ nvCounter mem (first + s.nvOff) = s.nvCount
  lt : ∀ j < s.nvOff, SeenRecord chip mem (first + j) → nvCounter mem (first + j) < s.nvCount

section
variable {chip : Chip} {mem : Nat → UInt8} {first n : Nat} {s : NvScan}

theorem NvScan.Newest.start (memory : Memory) :
    NvScan.Newest chip mem first 0 ⟨memory, 0, 0⟩ :=
  ⟨by omega, .inl ⟨rfl, rfl⟩, nofun⟩

section
variable (h : s.Newest chip mem first n)
include h

theorem NvScan.Newest.keep
    (hle : SeenRecord chip mem (first + n) → nvCounter mem (first + n) ≤ s.nvCount)
    (memory : Memory) : NvScan.Newest chip mem first (n + 1) { s with memory := memory } where
  le j hj hseen := by
    rcases Nat.lt_succ_iff_lt_or_eq.mp hj with hj | rfl
    · exact h.le j hj hseen
    · exact hle hseen
  found := h.found.imp_right fun ⟨hpos, hlt, hrest⟩ => ⟨hpos, Nat.lt_succ_of_lt hlt, hrest⟩
  lt := h.lt

theorem NvScan.Newest.take (hseen : SeenRecord chip mem (first + n))
    (hlt : s.nvCount < nvCounter mem (first + n)) (memory : Memory) :
    NvScan.Newest chip mem first (n + 1) ⟨memory, n, nvCounter mem (first + n)⟩ where
  le j hj hj' := by
    rcases Nat.lt_succ_iff_lt_or_eq.mp hj with hj | rfl
    · exact (h.le j hj hj').trans hlt.le
    · exact le_rfl
  found := .inr ⟨by simp only; omega, by simp, hseen, rfl⟩
  lt j hj hj' := (h.le j hj hj').trans_lt hlt

theorem NvScan.Newest.nvOff_eq_iff (hi : i < n) (hseen : SeenRecord chip mem (first + i)) :
    s.nvOff = i ↔ FirstNewest chip mem first n i := by
  have hle := h.le i hi hseen
  constructor
  · rintro rfl
    have hcount : nvCounter mem (first + s.nvOff) = s.nvCount := by
      rcases h.found with ⟨hzero, _⟩ | ⟨_, _, _, hcount⟩
      · omega
      · exact hcount
    rw [FirstNewest, hcount]
    exact ⟨h.found.symm.imp (·.1) (·.2), fun j hj hj' => ⟨h.le j hj hj', fun hlt => h.lt j hlt hj'⟩⟩
  · rintro ⟨hpos, hmax⟩
    rcases h.found with ⟨hzero, hoff⟩ | ⟨_, hlt, hseen', hcount⟩
    · omega
    · -- Neither of the two first records with the greatest counter is behind the other.
      have hoff := hmax s.nvOff hlt hseen'
      have hnot : ¬ i < s.nvOff := fun hlt => by
        have := h.lt i hlt hseen
        omega
      omega

end

end

/-! ## The two loads -/

/-- Blocks of 128 KiB with more than one page, and pages that hold the end of a record. -/
structure NandInfo.HoldsNv (nand : NandInfo) : Prop where
  eraseShift : nand.eraseShift = 17
  three_le : 3 ≤ nand.writeShift
  lt : nand.writeShift < 17

variable {nand : NandInfo} {chip : Chip} {dev : PageReads} {mem : Nat → UInt8}

section
variable (h : nand.HoldsNv)
include h

theorem NandInfo.HoldsNv.erasesize_eq : nand.erasesize = nvBlocksize := by
  rw [NandInfo.erasesize, h.eraseShift]
  rfl

theorem NandInfo.HoldsNv.eight_le : 8 ≤ nand.writesize :=
  Nat.pow_le_pow_right Nat.two_pos h.three_le

theorem NandInfo.HoldsNv.two_le : 2 ≤ nand.pagesPerBlock :=
  Nat.pow_le_pow_right Nat.two_pos (show 1 ≤ nand.eraseShift - nand.writeShift by
    have := h.lt
    rw [h.eraseShift]
    omega)

theorem NandInfo.HoldsNv.aligned (b : Nat) : b * nvBlocksize % nand.writesize = 0 := by
  rw [← h.erasesize_eq, nand.erasesize_eq, Nat.mul_left_comm, Nat.mul_mod_right]

theorem NandInfo.HoldsNv.block_div (b : Nat) : b * nvBlocksize / nand.erasesize = b := by
  rw [h.erasesize_eq, Nat.mul_div_cancel _ (show 0 < nvBlocksize by decide)]

end

theorem wordAt_storeBytes {dst len j page column : Nat} (hlen : len % 4 = 0) (hj : j + 4 ≤ len)
    (memory : Memory) :
    wordAt (storeBytes dst (transfer nand dev mem page column len 0) memory) (dst + j) =
      wordAt mem (page * nand.writesize + column + j) := by
  have hbyte : ∀ k < len, storeBytes dst (transfer nand dev mem page column len 0) memory (dst + k) =
      mem (page * nand.writesize + column + k) := by
    intro k hk
    rw [storeBytes_apply, if_pos (by rw [length_transfer]; omega)]
    simp [transfer, hk, show k < 4 * ((len + 3) / 4) by omega]
  simp only [wordAt, Nat.add_assoc dst, Nat.add_assoc (page * _ + column)]
  rw [hbyte j (by omega), hbyte (j + 1) (by omega), hbyte (j + 2) (by omega),
    hbyte (j + 3) (by omega)]

section
variable (hnand : nand.HoldsNv) (hecc : ∀ page n, ¬ Fails nand dev page n)
include hnand hecc

theorem load_head {b h : Nat} (hnext : NextGood chip b h) (hb : b < 2 ^ 15) (dst : Nat)
    (memory : Memory) : ∃ fuel₀ memory', wordAt memory' dst = wordAt mem (h * nvBlocksize) ∧
      ∀ fuel ≥ fuel₀,
        sfcNandLoad nand chip dev mem fuel (b * nvBlocksize) 4 dst memory = some (0, memory') := by
  have hsettles : ∀ page, Settles nand dev page 0 := fun page => ⟨by omega, hecc page 0⟩
  have hlen : min nand.writesize 4 = 4 := by
    have := hnand.eight_le
    omega
  induction hnext generalizing memory with
  | @here b hgood =>
    have halign := hnand.aligned b
    refine ⟨2, storeBytes dst (transfer nand dev mem (b * nvBlocksize / nand.writesize) 0 4 0) memory,
      ?_, fun fuel hfuel => ?_⟩
    · have hword := @wordAt_storeBytes nand dev mem dst 4 0 (b * nvBlocksize / nand.writesize) 0
        rfl (by decide) memory
      rwa [Nat.add_zero, Nat.add_zero,
        Nat.div_mul_cancel (Nat.dvd_of_mod_eq_zero halign)] at hword
    · obtain ⟨fuel, rfl⟩ := Nat.exists_eq_add_of_le' hfuel
      refine (loadLoop_good (by decide) halign (hsettles _) (by decide)
        (by rwa [hnand.block_div]) mem dst memory (fuel + 1)).trans ?_
      rw [hlen]
      rfl
  | @next b h hbad hnext ih =>
    obtain ⟨memory₁, -, hload⟩ := loadLoop_bad (by decide : 4 ≠ 0) (hnand.aligned b) (hsettles _)
      (by decide : (0 : Int) ≤ 5) (by rw [hnand.erasesize_eq, Nat.mul_mod_left])
      (by rwa [hnand.block_div]) mem dst memory
    obtain ⟨fuel₀, memory', hword, hrest⟩ := ih (Nat.mod_lt _ (by norm_num)) memory₁
    refine ⟨fuel₀ + 1, memory', hword, fun fuel hfuel => ?_⟩
    obtain ⟨fuel, rfl⟩ := Nat.exists_eq_add_of_le' hfuel
    have hwrap : u32 (b * nvBlocksize + nand.erasesize) = (b + 1) % 2 ^ 15 * nvBlocksize := by
      rw [u32_eq, hnand.erasesize_eq, nvBlocksize]
      omega
    refine (hload (fuel + fuel₀)).trans ?_
    rw [hwrap]
    exact hrest (fuel + fuel₀) (by omega)

theorem load_tail (b dst : Nat) (memory : Memory) :
    ∃ memory', wordAt memory' dst = nvCounter mem b ∧
      (wordAt memory' (dst + 4) = tailMark ↔ HasTail mem b) ∧
      ∀ fuel ≥ 2, sfcNandLoad nand chip dev mem fuel (b * nvBlocksize + (nvBlocksize - 8)) 8 dst
        memory = some (0, memory') := by
  have height := hnand.eight_le
  obtain ⟨page, hsrc, hpage⟩ : ∃ page, b * nvBlocksize + (nvBlocksize - 8) =
      nand.writesize * page + (nand.writesize - 8) ∧ page % nand.pagesPerBlock ≠ 0 := by
    -- The last page of the block, which is not its first one.
    refine ⟨b * nand.pagesPerBlock + (nand.pagesPerBlock - 1), ?_, ?_⟩
    · rw [← hnand.erasesize_eq, nand.erasesize_eq, Nat.mul_add, Nat.mul_left_comm,
        Nat.mul_sub_one]
      have := Nat.le_mul_of_pos_right nand.writesize nand.pagesPerBlock_pos
      omega
    · have := hnand.two_le
      rw [Nat.mul_comm b, Nat.mul_add_mod, Nat.mod_eq_of_lt (by omega)]
      omega
  have hdiv : (b * nvBlocksize + (nvBlocksize - 8)) / nand.writesize = page := by
    rw [hsrc, Nat.mul_add_div nand.writesize_pos, Nat.div_eq_of_lt (by omega), Nat.add_zero]
  have hmod : (b * nvBlocksize + (nvBlocksize - 8)) % nand.writesize = nand.writesize - 8 := by
    rw [hsrc, Nat.mul_add_mod, Nat.mod_eq_of_lt (by omega)]
  have hword : ∀ j, j + 4 ≤ 8 → wordAt (storeBytes dst (transfer nand dev mem page
      (nand.writesize - 8) 8 0) memory) (dst + j) =
        wordAt mem (b * nvBlocksize + (nvBlocksize - 8) + j) := by
    intro j hj
    rw [wordAt_storeBytes rfl hj, hsrc, Nat.mul_comm]
  have hcount := hword 0 (by decide)
  rw [Nat.add_zero, Nat.add_zero] at hcount
  refine ⟨_, hcount, ?_, fun fuel hfuel => ?_⟩
  · rw [hword 4 (by decide), HasTail, Nat.add_assoc]
    rfl
  · obtain ⟨fuel, rfl⟩ := Nat.exists_eq_add_of_le' hfuel
    rw [sfcNandLoad, loadLoop, if_neg (by simp), Load.round, Load.rlen]
    simp only [hdiv, hmod, Nat.sub_sub_self height, Nat.lt_irrefl, if_false,
      spinandReadPage_passes (hecc page 0), hpage, false_and]
    rfl

theorem round_newest (hn : first + n < 2 ^ 15) (hnext : NextGood chip (first + n) h) (buf : Nat)
    {s : NvScan} (hs : s.Newest chip mem first n) :
    ∃ fuel₀ s', NvScan.Newest chip mem first (n + 1) s' ∧
      ∀ fuel ≥ fuel₀, s.round nand chip dev mem fuel buf (first * nvBlocksize) n = some s' := by
  have haddr : u32 (first * nvBlocksize + n * nvBlocksize) = (first + n) * nvBlocksize := by
    rw [← Nat.add_mul, u32_of_lt (by rw [nvBlocksize]; omega)]
  have haddr' : u32 ((first + n) * nvBlocksize + (nvBlocksize - 8)) =
      (first + n) * nvBlocksize + (nvBlocksize - 8) :=
    u32_of_lt (by rw [nvBlocksize]; omega)
  obtain ⟨fuel₀, memory₁, hhead, hload⟩ :=
    @load_head nand chip dev mem hnand hecc _ _ hnext hn (buf + 8 * n) s.memory
  by_cases hmark : wordAt mem (h * nvBlocksize) = headMark
  · obtain ⟨memory', hcount, htail, hload'⟩ :=
      @load_tail nand chip dev mem hnand hecc (first + n) (buf + 8 * n) memory₁
    by_cases hnew : HasTail mem (first + n) ∧ s.nvCount < nvCounter mem (first + n)
    · refine ⟨fuel₀ + 2, _, hs.take ⟨h, hnext, hmark, hnew.1⟩ hnew.2 memory', fun fuel hfuel => ?_⟩
      simp [NvScan.round, haddr, haddr', hload fuel (by omega), hload' fuel (by omega), hhead, hmark,
        hcount, htail, hnew]
    · refine ⟨fuel₀ + 2, _, hs.keep (fun ⟨_, _, _, hseen⟩ => ?_) memory', fun fuel hfuel => ?_⟩
      · exact Nat.not_lt.mp fun hlt => hnew ⟨hseen, hlt⟩
      · simp [NvScan.round, haddr, haddr', hload fuel (by omega), hload' fuel (by omega), hhead,
          hmark, hcount, htail, hnew]
  · refine ⟨fuel₀, _, hs.keep (fun ⟨_, hnext', hmark', _⟩ => ?_) memory₁, fun fuel hfuel => ?_⟩
    · exact absurd (hnext.unique hnext' ▸ hmark') hmark
    · simp [NvScan.round, haddr, hload fuel hfuel, hhead, hmark]

theorem nvRounds_newest {first n : Nat} (hn : first + n ≤ 2 ^ 15)
    {g : Nat} (hg : g < 2 ^ 15) (hgood : chip.bad g = false) (buf : Nat) (memory : Memory) :
    ∃ fuel₀ s, NvScan.Newest chip mem first n s ∧ ∀ fuel ≥ fuel₀,
      nvRounds nand chip dev mem fuel buf (first * nvBlocksize) memory n = some s := by
  induction n with
  | zero => exact ⟨0, _, .start memory, fun fuel _ => rfl⟩
  | succ n ih =>
    obtain ⟨fuel₁, s, hs, hrounds⟩ := ih (by omega)
    obtain ⟨h, hnext⟩ := exists_nextGood (g + 2 ^ 15 - (first + n)) (show first + n < 2 ^ 15 by omega)
      (by rwa [Nat.add_sub_cancel' (by omega), Nat.add_mod_right, Nat.mod_eq_of_lt hg])
    obtain ⟨fuel₂, s', hs', hround⟩ := round_newest hnand hecc (by omega) hnext buf hs
    refine ⟨max fuel₁ fuel₂, s', hs', fun fuel hfuel => ?_⟩
    rw [nvRounds, hrounds fuel (by omega), Option.bind_some, hround fuel (by omega)]

/-- `nv_map_area` stores the address of the newest valid record of the area exactly if there are
at most six blocks, and the first block with the greatest counter, among those that pass for a
record, is good and has a counter other than 0 or is the first of the area. -/
theorem nvMapArea_newest_iff {first nvSize : Nat} (harea : first + nvSize / nvBlocksize ≤ 2 ^ 15)
    (hvalid : ∃ i < nvSize / nvBlocksize, ValidRecord chip mem (first + i)) (buf : Nat)
    (memory : Memory) :
    (∃ i < nvSize / nvBlocksize, ValidRecord chip mem (first + i) ∧
      (∀ j < nvSize / nvBlocksize, ValidRecord chip mem (first + j) →
        nvCounter mem (first + j) ≤ nvCounter mem (first + i)) ∧
      ∃ fuel₀, ∀ fuel ≥ fuel₀, nvMapArea nand chip dev mem fuel buf (first * nvBlocksize) nvSize
        memory = some ((first + i) * nvBlocksize)) ↔
    nvSize / nvBlocksize ≤ 6 ∧ ∃ i < nvSize / nvBlocksize, ValidRecord chip mem (first + i) ∧
      FirstNewest chip mem first (nvSize / nvBlocksize) i := by
  obtain ⟨g, hg, hgood⟩ := hvalid
  obtain ⟨fuel₁, s, hs, hrounds⟩ :=
    @nvRounds_newest nand chip dev mem hnand hecc _ _ harea (first + g) (by omega) hgood.1 buf memory
  have hrun : ∀ i, (∃ fuel₀, ∀ fuel ≥ fuel₀, nvMapArea nand chip dev mem fuel buf
      (first * nvBlocksize) nvSize memory = some ((first + i) * nvBlocksize)) ↔
      nvSize / nvBlocksize ≤ 6 ∧ s.nvOff = i := by
    intro i
    have haddr : u32 (first * nvBlocksize + s.nvOff * nvBlocksize) =
        (first + s.nvOff) * nvBlocksize := by
      rw [← Nat.add_mul, u32_of_lt]
      have := hs.found
      rw [nvBlocksize] at *
      omega
    by_cases hsix : nvSize / nvBlocksize > 6
    · simp only [nvMapArea, if_pos hsix, reduceCtorEq, Nat.not_le.mpr hsix, false_and, iff_false]
      exact fun ⟨fuel₀, hrun⟩ => hrun fuel₀ le_rfl
    · constructor
      · rintro ⟨fuel₀, hrun⟩
        have hrun := hrun (max fuel₀ fuel₁) (by omega)
        rw [nvMapArea, if_neg hsix, hrounds _ (by omega), Option.map_some, haddr,
          Option.some.injEq] at hrun
        have := Nat.eq_of_mul_eq_mul_right (by decide) hrun
        omega
      · rintro ⟨-, rfl⟩
        refine ⟨fuel₁, fun fuel hfuel => ?_⟩
        rw [nvMapArea, if_neg hsix, hrounds fuel hfuel, Option.map_some, haddr]
  simp only [hrun]
  constructor
  · rintro ⟨i, hi, hrec, -, hsix, hoff⟩
    exact ⟨hsix, i, hi, hrec, (hs.nvOff_eq_iff hi hrec.seen).mp hoff⟩
  · rintro ⟨hsix, i, hi, hrec, hnewest⟩
    exact ⟨i, hi, hrec, fun j hj hj' => (hnewest.2 j hj hj'.seen).1, hsix,
      (hs.nvOff_eq_iff hi hrec.seen).mpr hnewest⟩

end

/-- Two records, with the counters 2 and 1. Only the second has a head. -/
def nvFlash (a : Nat) : UInt8 :=
  if a / 4 = 0x8000 then 0x5a
  else if a / 4 % 0x8000 = 0x7fff then 0xa5
  else if a = 0x1fff8 then 2
  else if a = 0x3fff8 then 1
  else 0

def nvNand : NandInfo := ⟨11, 17, 2, by decide, by decide, by decide⟩

theorem nvFlash_one (hgood : chip.bad 1 = false) : ValidRecord chip nvFlash 1 := by
  refine ⟨hgood, by decide +kernel, ?_⟩
  rw [HasTail]
  decide +kernel

theorem nvMapArea_newest_second :
    ∃ fuel₀, ∀ fuel ≥ fuel₀, nvMapArea nvNand (chipWithBad fun _ => false) (failing fun _ => 0) nvFlash
      fuel 0 (0 * nvBlocksize) 0x40000 (fun _ => 0) = some (1 * nvBlocksize) := by
  have hone := @nvFlash_one (chipWithBad fun _ => false) rfl
  have hseen : ∀ j < 2, SeenRecord (chipWithBad fun _ => false) nvFlash (0 + j) → j = 1 := by
    rintro j hj ⟨h, hnext, hhead, -⟩
    cases hnext with
    | here => interval_cases j <;> revert hhead <;> decide +kernel
    | next hbad => cases hbad
  obtain ⟨i, hi, hrec, -, hrun⟩ := (@nvMapArea_newest_iff nvNand _ (failing fun _ => 0) nvFlash
    ⟨rfl, by decide, by decide⟩ (by simp [Fails, failing]) 0 0x40000 (by decide)
    ⟨1, by decide, hone⟩ 0 fun _ => 0).mpr
    ⟨by decide, 1, by decide, hone, .inl (by decide +kernel), fun j hj h => by simp [hseen j hj h]⟩
  obtain rfl := hseen i hi hrec.seen
  exact hrun

theorem nvMapArea_picks_bad_block :
    let chip := chipWithBad (· = 0)
    ValidRecord chip nvFlash 1 ∧ chip.bad 0 = true ∧
      nvMapArea nvNand chip (failing fun _ => 0) nvFlash 4 0 0 0x40000 (fun _ => 0) = some 0 := by
  exact ⟨nvFlash_one rfl, rfl, by decide +kernel⟩

end UBoot.Nand
