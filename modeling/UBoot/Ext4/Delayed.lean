import UBoot.Lib.Checked
import UBoot.Ext4.Device

/-!
# Reads that are put off

`ext4fs_read_file` collects blocks that follow each other on the device into one
read. Whatever it collects, in the end every block is where its number says, and a
read fails only if some block is not in the partition.
-/

namespace UBoot.Ext4

open ByteMemory Checked

/-- A read of the first `n` bytes of a file whose blocks have their first sectors at `sector`. -/
structure Plan (V : Volume) where
  sector : Nat → Nat
  n : Nat
  aligned : ∀ i, 2 ^ V.log2FsBlocksize ∣ sector i
  sector_lt : ∀ i, sector i < 2 ^ 32
  n_lt : n < 2 ^ 31

namespace Plan

variable {V : Volume} (P : Plan V)

def part (i : Nat) : Nat := min V.blockSize (P.n - i * V.blockSize)

def Inside (i : Nat) : Prop := P.sector i + (P.part i - 1) / V.blksz < V.size

instance (i : Nat) : Decidable (P.Inside i) :=
  inferInstanceAs (Decidable (P.sector i + (P.part i - 1) / V.blksz < V.size))

/-- The memory after the first `j` blocks. A block with the number that stands for none is
left out, and a hole is filled up to its end. -/
def memory (buf : Nat) (mem : Memory) (j : Nat) : Memory := fun a =>
  if buf ≤ a ∧ (a - buf) / V.blockSize < j then
    if P.sector ((a - buf) / V.blockSize) = 0 then 0
    else if P.sector ((a - buf) / V.blockSize) ≠ noBlock ∧ a - buf < P.n then
      V.data (P.sector ((a - buf) / V.blockSize) * V.blksz + (a - buf) % V.blockSize)
    else mem a
  else mem a

/-- The blocks from `j` up to `i` are put off, and those before them are read. -/
structure Pending (buf : Nat) (mem : Memory) (j i : Nat) (s : ReadState) : Prop where
  le : j ≤ i
  mem_eq : s.mem = P.memory buf mem j
  done : ∀ m < j, P.sector m = 0 ∨ P.sector m = noBlock ∨ P.Inside m
  idle : s.previous = noBlock → j = i
  start : s.previous ≠ noBlock → j < i ∧ s.delayedStart = P.sector j ∧
    s.delayedBuf = buf + j * V.blockSize ∧ s.delayedSkipfirst = 0 ∧
    s.delayedExtent = min (i * V.blockSize) P.n - j * V.blockSize
  next : s.previous ≠ noBlock → i * V.blockSize < P.n →
    s.delayedNext = (P.sector j + (i - j) * 2 ^ V.log2FsBlocksize) % 2 ^ 32
  run : ∀ m, j ≤ m → m < i →
    P.sector m = P.sector j + (m - j) * 2 ^ V.log2FsBlocksize ∧ P.sector m ≠ 0

variable {P} {buf : Nat} {mem : Memory} {i j : Nat} {s : ReadState}

theorem part_pos (h : i * V.blockSize < P.n) : 0 < P.part i := by
  have := V.blockSize_pos
  unfold part
  omega

theorem part_of_next (h : (i + 1) * V.blockSize < P.n) : P.part i = V.blockSize := by
  rw [Nat.add_mul, Nat.one_mul] at h
  unfold part
  omega

theorem sector_add_le (i : Nat) : P.sector i + 2 ^ V.log2FsBlocksize ≤ 2 ^ 32 := by
  have hlog : V.log2FsBlocksize ≤ 32 := by
    have := V.block_le_max
    unfold Volume.log2FsBlocksize
    omega
  obtain ⟨q, hq⟩ := P.aligned i
  have hlt := P.sector_lt i
  have hpow : 2 ^ 32 = 2 ^ V.log2FsBlocksize * 2 ^ (32 - V.log2FsBlocksize) := by
    rw [← Nat.pow_add, Nat.add_sub_cancel' hlog]
  rw [hq, hpow] at hlt
  have hq' : q < 2 ^ (32 - V.log2FsBlocksize) := Nat.lt_of_mul_lt_mul_left hlt
  rw [hq, hpow, ← Nat.mul_succ]
  exact Nat.mul_le_mul_left _ hq'

theorem part_sectors_lt (i : Nat) (h : 0 < P.part i) :
    (P.part i - 1) / V.blksz < 2 ^ V.log2FsBlocksize := by
  have hle : P.part i ≤ V.blockSize := Nat.min_le_left _ _
  rw [Nat.div_lt_iff_lt_mul V.blksz_pos, ← V.blockSize_eq]
  omega

theorem Pending.last_sector (h : P.Pending buf mem j i s) (hji : j < i)
    (hin : (i - 1) * V.blockSize < P.n) :
    P.sector j + (min (i * V.blockSize) P.n - j * V.blockSize - 1) / V.blksz =
      P.sector (i - 1) + (P.part (i - 1) - 1) / V.blksz := by
  obtain ⟨m, rfl⟩ : ∃ m, i = m + 1 := ⟨i - 1, by omega⟩
  obtain ⟨hsector, -⟩ := h.run m (by omega) (by omega)
  simp only [Nat.add_sub_cancel] at hin ⊢
  have hpos := part_pos hin
  obtain ⟨d, rfl⟩ := Nat.exists_eq_add_of_le (show j ≤ m by omega)
  have hlen : min ((j + d + 1) * V.blockSize) P.n - j * V.blockSize - 1 =
      d * V.blockSize + (P.part (j + d) - 1) := by
    have h1 : (j + d + 1) * V.blockSize = j * V.blockSize + d * V.blockSize + V.blockSize := by ring
    have h2 : (j + d) * V.blockSize = j * V.blockSize + d * V.blockSize := by ring
    unfold part at hpos ⊢
    omega
  have hdiv : (d * V.blockSize + (P.part (j + d) - 1)) / V.blksz =
      d * 2 ^ V.log2FsBlocksize + (P.part (j + d) - 1) / V.blksz := by
    rw [V.blockSize_eq, ← Nat.mul_assoc, Nat.add_comm, Nat.add_mul_div_right _ _ V.blksz_pos,
      Nat.add_comm]
  rw [hlen, hdiv, hsector, Nat.add_sub_cancel_left, Nat.add_assoc]

theorem Pending.inside (h : P.Pending buf mem j i s) (hpos : 0 < P.part (i - 1))
    (hlast : P.Inside (i - 1)) (m : Nat) (hm : j ≤ m) (hmi : m < i) : P.Inside m := by
  obtain rfl | hlt : m = i - 1 ∨ m < i - 1 := by omega
  · exact hlast
  have hpart : 0 < P.part m := by
    have : m * V.blockSize ≤ (i - 1) * V.blockSize := Nat.mul_le_mul_right _ (by omega)
    unfold part at hpos ⊢
    omega
  have hsectors := part_sectors_lt m hpart
  have hnext : P.sector m + 2 ^ V.log2FsBlocksize ≤ P.sector (i - 1) := by
    rw [(h.run m hm hmi).1, (h.run (i - 1) (by omega) (by omega)).1, Nat.add_assoc, ← Nat.succ_mul]
    exact Nat.add_le_add_left (Nat.mul_le_mul_right _ (by omega)) _
  have hle : P.sector (i - 1) ≤ P.sector (i - 1) + (P.part (i - 1) - 1) / V.blksz :=
    Nat.le_add_right _ _
  unfold Inside at hlast ⊢
  omega

theorem Inside.ne_noBlock (h : P.Inside i) : P.sector i ≠ noBlock := by
  have hlt : P.sector i < V.size := lt_of_le_of_lt (Nat.le_add_right _ _) h
  have := V.size_lt
  unfold noBlock
  omega

theorem memory_of_lt (h : a < buf) : P.memory buf mem j a = mem a := by
  rw [memory, if_neg (by omega)]

theorem memory_add (buf : Nat) (mem : Memory) (j k : Nat) :
    P.memory buf mem j (buf + k) =
      if k / V.blockSize < j then
        if P.sector (k / V.blockSize) = 0 then 0
        else if P.sector (k / V.blockSize) ≠ noBlock ∧ k < P.n then
          V.data (P.sector (k / V.blockSize) * V.blksz + k % V.blockSize)
        else mem (buf + k)
      else mem (buf + k) := by
  simp [memory]

theorem Pending.memory_eq (h : P.Pending buf mem j i s)
    (hinside : ∀ m, j ≤ m → m < i → P.sector m ≠ noBlock) :
    storeBytes (buf + j * V.blockSize)
        (V.bytes (P.sector j * V.blksz) (min (i * V.blockSize) P.n - j * V.blockSize))
        (P.memory buf mem j) = P.memory buf mem i := by
  funext a
  rw [storeBytes_apply, V.length_bytes]
  obtain hlt | hle := Nat.lt_or_ge a buf
  · rw [if_neg (by omega), memory_of_lt hlt, memory_of_lt hlt]
  obtain ⟨k, rfl⟩ := Nat.exists_eq_add_of_le hle
  have hj := Nat.le_div_iff_mul_le V.blockSize_pos (x := j) (y := k)
  have hi := Nat.div_lt_iff_lt_mul V.blockSize_pos (x := k) (y := i)
  rw [memory_add, memory_add]
  by_cases hin : j * V.blockSize ≤ k ∧ k < min (i * V.blockSize) P.n
  · -- The byte is one of the run, and its block follows the first one.
    obtain ⟨hle, hlt⟩ := hin
    have hm := hj.mpr hle
    have hm' := hi.mpr (by omega)
    obtain ⟨hsector, hne⟩ := h.run _ hm hm'
    rw [if_pos (by omega), if_pos hm', if_neg hne,
      if_pos ⟨hinside _ hm hm', by omega⟩, V.bytes_getD _ (by omega), hsector]
    obtain ⟨d, hd⟩ := Nat.exists_eq_add_of_le hm
    have hk := Nat.div_add_mod k V.blockSize
    have hmul : V.blockSize * (k / V.blockSize) = j * V.blockSize + d * V.blockSize := by
      rw [hd]
      ring
    have hrun : (P.sector j + (k / V.blockSize - j) * 2 ^ V.log2FsBlocksize) * V.blksz =
        P.sector j * V.blksz + d * V.blockSize := by
      rw [hd, Nat.add_sub_cancel_left, V.blockSize_eq]
      ring
    rw [hrun]
    congr 1
    omega
  · rw [if_neg (by omega)]
    by_cases hlt : k / V.blockSize < j
    · rw [if_pos hlt, if_pos (lt_of_lt_of_le hlt h.le)]
    · rw [if_neg hlt]
      split
      next hm' =>
        have hge : ¬ k < P.n := by
          omega
        rw [if_neg (h.run _ (by omega) hm').2, if_neg (fun hb => hge hb.2)]
      next => rfl

/-! ## Steps -/

theorem Pending.flush (h : P.Pending buf mem j i s) (hin : j < i → (i - 1) * V.blockSize < P.n) :
    (Ext4.flush V s = .ok (P.memory buf mem i) ∧
        ∀ m < i, P.sector m = 0 ∨ P.sector m = noBlock ∨ P.Inside m) ∨
      (∃ mem', Ext4.flush V s = .error (.failed mem')) ∧
        ∃ m < i, P.sector m ≠ 0 ∧ ¬ P.Inside m := by
  by_cases hprev : s.previous = noBlock
  · obtain rfl := h.idle hprev
    exact .inl ⟨by simp [Ext4.flush, hprev, h.mem_eq], h.done⟩
  obtain ⟨hji, hstart, hbuf, hskip, hextent⟩ := h.start hprev
  have hin := hin hji
  have hpos := part_pos hin
  have hlast := h.last_sector hji hin
  have hlt : P.sector (i - 1) + (P.part (i - 1) - 1) / V.blksz < 2 ^ 32 := by
    have := sector_add_le (P := P) (i - 1)
    have := part_sectors_lt (P := P) (i - 1) hpos
    omega
  have hlen : 0 < min (i * V.blockSize) P.n - j * V.blockSize := by
    have : j * V.blockSize ≤ (i - 1) * V.blockSize := Nat.mul_le_mul_right _ (by omega)
    have : i * V.blockSize = (i - 1) * V.blockSize + V.blockSize := by
      rw [← Nat.succ_mul]
      congr 1
      omega
    have := V.blockSize_pos
    omega
  have hread : Ext4.flush V s =
      if V.size ≤ P.sector (i - 1) + (P.part (i - 1) - 1) / V.blksz then .error (.failed s.mem)
      else .ok (storeBytes (buf + j * V.blockSize)
        (V.bytes (P.sector j * V.blksz) (min (i * V.blockSize) P.n - j * V.blockSize)) s.mem) := by
    rw [Ext4.flush, if_pos hprev, spill, hstart, hbuf, hskip, hextent, V.devread_eq _ _ hlen, hlast,
      Nat.mod_eq_of_lt hlt]
    split_ifs <;> rfl
  rw [hread]
  by_cases hsize : V.size ≤ P.sector (i - 1) + (P.part (i - 1) - 1) / V.blksz
  · rw [if_pos hsize]
    exact .inr ⟨⟨_, rfl⟩, i - 1, by omega, (h.run (i - 1) (by omega) (by omega)).2,
      Nat.not_lt.mpr hsize⟩
  · rw [if_neg hsize, h.mem_eq]
    have hinside := h.inside hpos (Nat.not_le.mp hsize)
    refine .inl ⟨congrArg _ (h.memory_eq fun m hm hm' => (hinside m hm hm').ne_noBlock),
      fun m hm => ?_⟩
    · obtain hlt | hle := Nat.lt_or_ge m j
      · exact h.done m hlt
      · exact .inr (.inr (hinside m hle hm))

theorem Pending.start_state (P : Plan V) (buf : Nat) (mem : Memory) :
    P.Pending buf mem 0 0 (.start buf mem) where
  le := le_rfl
  mem_eq := by
    funext a
    simp [memory, ReadState.start]
  done m hm := absurd hm (Nat.not_lt_zero m)
  idle _ := rfl
  start h := absurd rfl h
  next h := absurd rfl h
  run m _ hm := absurd hm (Nat.not_lt_zero m)

theorem Pending.joined (h : P.Pending buf mem j i s) (hi : i * V.blockSize < P.n)
    (hprev : s.previous ≠ noBlock) (hne : P.sector i ≠ 0) (hnext : s.delayedNext = P.sector i)
    (b : Nat) :
    P.Pending buf mem j (i + 1) { s with
      delayedExtent := (s.delayedExtent + P.part i) % 2 ^ 32
      delayedNext := (s.delayedNext + P.part i / V.blksz) % 2 ^ 32
      buf := b } := by
  obtain ⟨hji, hstart, hbuf, hskip, hextent⟩ := h.start hprev
  have hsector : P.sector i = P.sector j + (i - j) * 2 ^ V.log2FsBlocksize := by
    -- The sector behind the last block is not the one that comes after the numbers wrap.
    have hlast := (h.run (i - 1) (by omega) (by omega)).1
    have hle := sector_add_le (P := P) (i - 1)
    rw [hlast, Nat.add_assoc, ← Nat.succ_mul, show (i - 1 - j).succ = i - j by omega] at hle
    have hmod := (h.next hprev hi).symm.trans hnext
    obtain heq | hlt := Nat.eq_or_lt_of_le hle
    · rw [heq, Nat.mod_self] at hmod
      exact absurd hmod.symm hne
    · rw [Nat.mod_eq_of_lt hlt] at hmod
      exact hmod.symm
  refine ⟨h.le.trans (Nat.le_succ i), h.mem_eq, h.done, fun hnone => absurd hnone hprev,
    fun _ => ⟨Nat.lt_succ_of_lt hji, hstart, hbuf, hskip, ?_⟩, fun _ hi' => ?_, ?_⟩
  · have hjle : j * V.blockSize ≤ i * V.blockSize := Nat.mul_le_mul_right _ hji.le
    have hn := P.n_lt
    dsimp only
    rw [hextent, Nat.add_mul, Nat.one_mul]
    unfold part
    omega
  · dsimp only
    rw [hnext, hsector, part_of_next hi', V.blockSize_eq, Nat.mul_div_cancel _ V.blksz_pos,
      Nat.add_assoc, ← Nat.succ_mul, Nat.succ_sub hji.le]
  · intro m hm hm'
    obtain hlt | rfl := Nat.lt_succ_iff_lt_or_eq.mp hm'
    · exact h.run m hm hlt
    · exact ⟨hsector, hne⟩

theorem memory_hole (hzero : P.sector i = 0) :
    storeBytes (buf + i * V.blockSize) (List.replicate V.blockSize 0) (P.memory buf mem i) =
      P.memory buf mem (i + 1) := by
  funext a
  rw [storeBytes_apply, List.length_replicate]
  obtain hlt | hle := Nat.lt_or_ge a buf
  · rw [if_neg (by omega), memory_of_lt hlt, memory_of_lt hlt]
  obtain ⟨k, rfl⟩ := Nat.exists_eq_add_of_le hle
  rw [memory_add, memory_add]
  have hblock : k / V.blockSize = i ↔ i * V.blockSize ≤ k ∧ k < i * V.blockSize + V.blockSize := by
    rw [Nat.div_eq_iff V.blockSize_pos]
    have := V.blockSize_pos
    omega
  by_cases hi : k / V.blockSize = i
  · have := hblock.mp hi
    rw [if_pos (by omega), hi, if_pos (Nat.lt_succ_self i), if_pos hzero]
    exact List.getD_replicate _ (by omega)
  · have := mt hblock.mpr hi
    rw [if_neg (by omega)]
    simp [show k / V.blockSize < i + 1 ↔ k / V.blockSize < i by omega]

theorem memory_lost (hno : P.sector i = noBlock) :
    P.memory buf mem (i + 1) = P.memory buf mem i := by
  funext a
  have hne : noBlock ≠ 0 := by decide
  simp only [memory]
  by_cases hi : (a - buf) / V.blockSize = i
  · simp [hi, hno, hne]
  · simp [show (a - buf) / V.blockSize < i + 1 ↔ (a - buf) / V.blockSize < i by omega]

theorem pending_idle (hmem : s.mem = P.memory buf mem i)
    (hdone : ∀ m < i, P.sector m = 0 ∨ P.sector m = noBlock ∨ P.Inside m)
    (hprev : s.previous = noBlock) : P.Pending buf mem i i s where
  le := le_rfl
  mem_eq := hmem
  done := hdone
  idle _ := rfl
  start h := absurd hprev h
  next h := absurd hprev h
  run _ hm hm' := absurd hm' (Nat.not_lt.mpr hm)

theorem pending_delay (hmem : s.mem = P.memory buf mem i) (hi : i * V.blockSize < P.n)
    (hbuf : s.buf = buf + i * V.blockSize)
    (hdone : ∀ m < i, P.sector m = 0 ∨ P.sector m = noBlock ∨ P.Inside m)
    (hne : P.sector i ≠ 0) (hno : P.sector i ≠ noBlock) (b : Nat) :
    P.Pending buf mem i (i + 1) { delay V s (P.sector i) (P.part i) 0 with buf := b } where
  le := Nat.le_succ i
  mem_eq := hmem
  done := hdone
  idle h := absurd h hno
  start _ := by
    refine ⟨Nat.lt_succ_self i, rfl, hbuf, rfl, ?_⟩
    dsimp only [delay]
    rw [Nat.add_mul, Nat.one_mul]
    unfold part
    omega
  next _ hi' := by
    dsimp only [delay]
    rw [part_of_next hi', V.blockSize_eq, Nat.mul_div_cancel _ V.blksz_pos, Nat.add_sub_cancel_left,
      Nat.one_mul]
  run _ hm hm' := by
    obtain rfl := Nat.le_antisymm hm (Nat.lt_succ_iff.mp hm')
    exact ⟨by simp, hne⟩

theorem done_succ (hdone : ∀ m < i, P.sector m = 0 ∨ P.sector m = noBlock ∨ P.Inside m)
    (hi : P.sector i = 0 ∨ P.sector i = noBlock) :
    ∀ m < i + 1, P.sector m = 0 ∨ P.sector m = noBlock ∨ P.Inside m := by
  intro m hm
  obtain hlt | rfl := Nat.lt_succ_iff_lt_or_eq.mp hm
  · exact hdone m hlt
  · exact hi.imp_right .inl

def Reads (P : Plan V) (buf : Nat) (mem : Memory) (i : Nat) (r : Except Halt ReadState) : Prop :=
  (∃ j s, r = .ok s ∧ s.buf = buf + i * V.blockSize ∧ P.Pending buf mem j i s) ∨
    (∃ mem', r = .error (.failed mem')) ∧ ∃ m < i, P.sector m ≠ 0 ∧ ¬ P.Inside m

theorem Pending.readBlock (h : P.Pending buf mem j i s) (hi : i * V.blockSize < P.n)
    (hbuf : s.buf = buf + i * V.blockSize) :
    P.Reads buf mem (i + 1) ((Ext4.readBlock V s (P.sector i) (P.part i) 0).map fun s =>
      { s with buf := s.buf + V.blockSize }) := by
  have hbuf' : s.buf + V.blockSize = buf + (i + 1) * V.blockSize := by
    rw [hbuf, Nat.add_mul, Nat.one_mul, Nat.add_assoc]
  have hlast : j < i → (i - 1) * V.blockSize < P.n := fun _ =>
    lt_of_le_of_lt (Nat.mul_le_mul_right _ (Nat.sub_le i 1)) hi
  by_cases hjoin : P.sector i ≠ 0 ∧ s.previous ≠ noBlock ∧ s.delayedNext = P.sector i
  · obtain ⟨hne, hprev, hnext⟩ := hjoin
    refine .inl ⟨j, _, ?_, hbuf', h.joined hi hprev hne hnext (s.buf + V.blockSize)⟩
    rw [Ext4.readBlock, if_pos hne, if_pos ⟨hprev, hnext⟩]
    rfl
  obtain ⟨hflush, hdone⟩ | ⟨⟨mem', hflush⟩, m, hm, hbad⟩ := h.flush hlast
  · by_cases hzero : P.sector i = 0
    · refine .inl ⟨i + 1, { s with
        previous := noBlock, mem := P.memory buf mem (i + 1), buf := s.buf + V.blockSize }, ?_, hbuf',
        pending_idle rfl (done_succ hdone (.inl hzero)) rfl⟩
      rw [Ext4.readBlock, if_neg (not_not.mpr hzero), hflush, ← memory_hole hzero, ← hbuf]
      rfl
    · have hread : Ext4.readBlock V s (P.sector i) (P.part i) 0 =
          .ok (delay V { s with mem := P.memory buf mem i } (P.sector i) (P.part i) 0) := by
        rw [Ext4.readBlock, if_pos hzero, if_neg (fun hb => hjoin ⟨hzero, hb⟩), hflush]
        rfl
      rw [hread]
      by_cases hno : P.sector i = noBlock
      · refine .inl ⟨i + 1, _, rfl, hbuf',
          pending_idle (memory_lost hno).symm (done_succ hdone (.inr hno)) hno⟩
      · exact .inl ⟨i, _, rfl, hbuf',
          pending_delay (s := { s with mem := P.memory buf mem i }) rfl hi hbuf hdone hzero hno _⟩
  · refine .inr ⟨⟨mem', ?_⟩, m, Nat.lt_succ_of_lt hm, hbad⟩
    by_cases hzero : P.sector i = 0
    · rw [Ext4.readBlock, if_neg (not_not.mpr hzero), hflush]
      rfl
    · rw [Ext4.readBlock, if_pos hzero, if_neg (fun hb => hjoin ⟨hzero, hb⟩), hflush]
      rfl

/-! ## The whole read -/

def count (P : Plan V) : Nat := (P.n + V.blockSize - 1) / V.blockSize

theorem lt_count_iff (P : Plan V) (i : Nat) : i < P.count ↔ i * V.blockSize < P.n := by
  have := V.blockSize_pos
  rw [count, Nat.lt_iff_add_one_le, Nat.le_div_iff_mul_le this, Nat.add_mul, Nat.one_mul]
  omega

theorem blockEnd_eq (hi : i < P.count) : blockEnd V 0 P.n P.count i = P.part i := by
  have hlt := (P.lt_count_iff i).mp hi
  have hn : P.n % 2 ^ 32 = P.n := Nat.mod_eq_of_lt (lt_trans P.n_lt (by norm_num))
  have hmod := Nat.mod_lt P.n V.blockSize_pos
  have hnext := P.lt_count_iff (i + 1)
  rw [Nat.add_mul, Nat.one_mul] at hnext
  rw [blockEnd, Nat.add_zero, hn]
  unfold part
  split
  next hlast =>
    -- The last block has the rest of the bytes.
    obtain ⟨r, hr⟩ := Nat.exists_eq_add_of_le hlt.le
    rw [hr, Nat.add_comm, Nat.add_mul_mod_self_right] at hmod ⊢
    have hr' : r ≤ V.blockSize := by omega
    obtain heq | hlt' := Nat.eq_or_lt_of_le hr'
    · rw [heq, Nat.mod_self, if_pos rfl]
      omega
    · rw [Nat.mod_eq_of_lt hlt', if_neg (by omega)]
      omega
  next hmid => omega

variable {inode : Inode} {rounds : Nat}

theorem Pending.readStep (h : P.Pending buf mem j i s) (hi : i < P.count)
    (hbuf : s.buf = buf + i * V.blockSize) (hb : V.sectorOf b = P.sector i)
    (hfound : readAllocatedBlock V inode rounds i = some b) :
    P.Reads buf mem (i + 1) (Ext4.readStep V inode rounds 0 P.n P.count i s) := by
  have hskip : (if i = 0 / V.blockSize then 0 % V.blockSize else 0) = 0 := by simp
  have hstep : Ext4.readStep V inode rounds 0 P.n P.count i s =
      (Ext4.readBlock V s (P.sector i) (P.part i) 0).map fun s =>
        { s with buf := s.buf + V.blockSize } := by
    simp only [Ext4.readStep, hfound, hskip, hb, blockEnd_eq hi, Nat.sub_zero]
    cases Ext4.readBlock V s (P.sector i) (P.part i) 0 <;> rfl
  rw [hstep]
  exact h.readBlock ((P.lt_count_iff i).mp hi) hbuf

theorem Pending.readLoop {block : Nat → Nat} (hsector : ∀ i, V.sectorOf (block i) = P.sector i)
    (hfound : ∀ i, readAllocatedBlock V inode rounds i = some (block i)) {count : Nat}
    (h : P.Pending buf mem j i s) (hbuf : s.buf = buf + i * V.blockSize)
    (hcount : i + count = P.count) :
    P.Reads buf mem P.count (Ext4.readLoop V inode rounds 0 P.n P.count count i s) := by
  induction count generalizing i j s with
  | zero =>
    obtain rfl : i = P.count := hcount
    exact .inl ⟨j, s, rfl, hbuf, h⟩
  | succ count ih =>
    rw [Ext4.readLoop]
    obtain ⟨j', s', hstep, hbuf', h'⟩ | ⟨⟨mem', hstep⟩, m, hm, hbad⟩ :=
      h.readStep (by omega) hbuf (hsector i) (hfound i)
    · rw [hstep]
      exact ih h' hbuf' (by omega)
    · rw [hstep]
      exact .inr ⟨⟨mem', rfl⟩, m, by omega, hbad⟩

theorem readBlocks (P : Plan V) {block : Nat → Nat}
    (hsector : ∀ i, V.sectorOf (block i) = P.sector i)
    (hfound : ∀ i, readAllocatedBlock V inode rounds i = some (block i)) (buf : Nat) (mem : Memory) :
    (Ext4.readBlocks V inode rounds 0 P.n buf mem = .ok (P.memory buf mem P.count) ∧
        ∀ m < P.count, P.sector m = 0 ∨ P.sector m = noBlock ∨ P.Inside m) ∨
      (∃ mem', Ext4.readBlocks V inode rounds 0 P.n buf mem = .error (.failed mem')) ∧
        ∃ m < P.count, P.sector m ≠ 0 ∧ ¬ P.Inside m := by
  have hcount : (P.n + 0 + V.blockSize - 1) % 2 ^ 32 / V.blockSize = P.count := by
    have hle : V.blockSize ≤ 2 ^ 16 := Nat.pow_le_pow_right (by norm_num) V.block_le_max
    have := P.n_lt
    rw [Nat.mod_eq_of_lt (by omega), count, Nat.add_zero]
  simp only [Ext4.readBlocks, hcount, Nat.zero_div, Nat.sub_zero]
  obtain ⟨j, s, hloop, -, h⟩ | ⟨⟨mem', hloop⟩, hbad⟩ :=
    (Pending.start_state P buf mem).readLoop hsector hfound (by simp [ReadState.start])
      (Nat.zero_add P.count)
  · rw [hloop]
    refine h.flush fun _ => (P.lt_count_iff _).mp ?_
    omega
  · rw [hloop]
    exact .inr ⟨⟨mem', rfl⟩, hbad⟩

end Plan

end UBoot.Ext4
