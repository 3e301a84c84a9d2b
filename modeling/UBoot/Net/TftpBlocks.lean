import UBoot.Net.Tftp

/-!
# Files in blocks, and packets on the wire

A file is sent in blocks of one size, numbered from 1, of which the last one is
shorter than the others. On the wire a number has 16 bits.
-/

namespace UBoot.Net.Tftp

/-- A file, and how the server sends it: with the options in an OACK first, or
at once in blocks of the default size. -/
structure Transfer where
  file : List UInt8
  blkSize : Nat
  blkSize_pos : 0 < blkSize
  blkSize_lt : blkSize < 2 ^ 16
  oack : Option (List UInt8)
  agreed : match oack with
    | none => blkSize = tftpBlockSize
    | some options => oackBlkSize tftpBlockSize options = blkSize ∧
        oackBlkSize blkSize options = blkSize
  port : Nat

namespace Transfer

variable (F : Transfer)

def last : Nat := F.file.length / F.blkSize + 1

def start (k : Nat) : Nat := (k - 1) * F.blkSize

def block (k : Nat) : List UInt8 := (F.file.drop (F.start k)).take F.blkSize

def dataPacket (k : Nat) : List UInt8 := be16 opData ++ be16 k ++ F.block k

variable {F} {k : Nat}

theorem length_block (F : Transfer) (k : Nat) :
    (F.block k).length = min F.blkSize (F.file.length - F.start k) := by
  simp [block]

theorem start_le (h0 : 0 < k) (hk : k ≤ F.last) : F.start k ≤ F.file.length := by
  have h1 : k - 1 ≤ F.file.length / F.blkSize := by
    unfold last at hk
    omega
  calc F.start k ≤ F.file.length / F.blkSize * F.blkSize := Nat.mul_le_mul_right _ h1
    _ ≤ F.file.length := Nat.div_mul_le_self _ _

theorem start_succ (h0 : 0 < k) : F.start (k + 1) = F.start k + F.blkSize := by
  obtain ⟨k, rfl⟩ := Nat.exists_eq_succ_of_ne_zero h0.ne'
  simp [start, Nat.succ_mul]

theorem length_lt_start_last : F.file.length < F.start F.last + F.blkSize := by
  have := Nat.lt_div_mul_add F.blkSize_pos (a := F.file.length)
  simpa [start, last] using this

theorem length_block_lt_iff (h0 : 0 < k) (hk : k ≤ F.last) :
    (F.block k).length < F.blkSize ↔ k = F.last := by
  rw [length_block]
  constructor
  · intro h
    by_contra hne
    have hle : F.start (k + 1) ≤ F.file.length :=
      start_le (Nat.succ_pos k) (Nat.lt_of_le_of_ne hk hne)
    rw [start_succ h0] at hle
    omega
  · rintro rfl
    have := length_lt_start_last (F := F)
    have := F.blkSize_pos
    omega

theorem start_add_length_le (h0 : 0 < k) (hk : k ≤ F.last) :
    F.start k + (F.block k).length ≤ F.file.length := by
  have := start_le h0 hk
  rw [length_block]
  omega

theorem start_last_add_length : F.start F.last + (F.block F.last).length = F.file.length := by
  have h1 := length_lt_start_last (F := F)
  have h2 : F.start F.last ≤ F.file.length := start_le (Nat.succ_pos _) le_rfl
  rw [length_block]
  omega

theorem getD_block (hj : j < (F.block k).length) :
    (F.block k).getD j 0 = F.file.getD (F.start k + j) 0 := by
  rw [length_block] at hj
  have hj' : j < F.blkSize := by omega
  simp [block, List.getD_eq_getElem?_getD, hj', List.getElem?_drop]

theorem exists_block (hj : j < F.file.length) :
    ∃ k i, 0 < k ∧ k ≤ F.last ∧ i < (F.block k).length ∧ j = F.start k + i := by
  refine ⟨j / F.blkSize + 1, j % F.blkSize, Nat.succ_pos _, ?_, ?_, ?_⟩
  · exact Nat.succ_le_succ (Nat.div_le_div_right hj.le)
  · have h1 := Nat.mod_lt j F.blkSize_pos
    have h2 := Nat.div_add_mod' j F.blkSize
    rw [length_block, start, Nat.add_sub_cancel]
    omega
  · rw [start, Nat.add_sub_cancel]
    exact (Nat.div_add_mod' j F.blkSize).symm

end Transfer

/-! ## Packets on the wire -/

theorem ntohs_be16 (k : Nat) (rest : List UInt8) : ntohs (be16 k ++ rest) = k % 2 ^ 16 := by
  simp only [ntohs, be16, List.cons_append, List.getD_cons_zero, List.getD_cons_succ,
    UInt8.toNat_ofNat']
  omega

theorem drop_be16 (k : Nat) (rest : List UInt8) : (be16 k ++ rest).drop 2 = rest := rfl

theorem length_be16 (k : Nat) : (be16 k).length = 2 := rfl

theorem not_short_be16 (k : Nat) (rest : List UInt8) : ¬ (be16 k ++ rest).length < 2 := by
  rw [List.length_append, length_be16]
  omega

theorem tftpHandler_be16 (cfg : Config) (t : State) (op : Nat) (rest : List UInt8) (dest src : Nat) :
    tftpHandler cfg t (be16 op ++ rest) dest src = (t, none) ∨
    tftpHandler cfg t (be16 op ++ rest) dest src =
      if op % 2 ^ 16 = opAck then handleAck cfg t rest
      else if op % 2 ^ 16 = opOack then handleOack cfg t rest src
      else if op % 2 ^ 16 = opData then handleData cfg t rest src
      else if op % 2 ^ 16 = opError then handleError t rest
      else (t, none) := by
  unfold tftpHandler
  simp only [ntohs_be16, drop_be16]
  split
  · exact .inl rfl
  · split
    · exact .inl rfl
    · have hlen : ¬ (be16 op ++ rest).length < 2 := by
        rw [List.length_append, length_be16]
        omega
      rw [if_neg hlen]
      exact .inr rfl

/-! ## Where a block is -/

section
variable {t : State} {F : Transfer}

@[simp] theorem updateBlockNumber_kept (t : State) :
    (updateBlockNumber t).state = t.state ∧ (updateBlockNumber t).netState = t.netState ∧
    (updateBlockNumber t).block = t.block ∧ (updateBlockNumber t).lastBlock = t.lastBlock ∧
    (updateBlockNumber t).blkSize = t.blkSize ∧ (updateBlockNumber t).writing = t.writing ∧
    (updateBlockNumber t).finalBlock = t.finalBlock ∧ (updateBlockNumber t).memory = t.memory ∧
    (updateBlockNumber t).xferSize = t.xferSize ∧
    (updateBlockNumber t).remotePort = t.remotePort ∧ (updateBlockNumber t).ourPort = t.ourPort := by
  unfold updateBlockNumber
  split <;> simp

def WrapsAgree (F : Transfer) (t : State) : Prop :=
  t.blockWrapOffset = t.blockWrap * (F.blkSize * sequenceSize) % 2 ^ 32

theorem wrapsAgree_update (hblk : t.blkSize = F.blkSize) (h : WrapsAgree F t) :
    WrapsAgree F (updateBlockNumber t) := by
  unfold updateBlockNumber
  split
  · simp only [WrapsAgree, hblk] at h ⊢
    rw [h, Nat.mod_add_mod, Nat.mod_mul_mod, Nat.add_mul, Nat.one_mul]
  · exact h

theorem blockWrap_update (t : State) (hwrap : t.blockWrap + 1 < 2 ^ 32) :
    (updateBlockNumber t).blockWrap = t.blockWrap + if t.block = 0 then 1 else 0 := by
  unfold updateBlockNumber
  split
  · exact Nat.mod_eq_of_lt hwrap
  · rfl

theorem blockOffset_zero (t : State) : blockOffset t 0 = t.blockWrapOffset % 2 ^ 32 := by
  rw [blockOffset, Int.zero_mul, Int.zero_add]
  norm_cast

theorem blockOffset_eq (hblk : t.blkSize = F.blkSize) (h : WrapsAgree F t)
    (hwrap : t.blockWrap * 2 ^ 16 + b = k) (h0 : 0 < k) (hstart : F.start k < 2 ^ 32) :
    blockOffset t ((b : Int) - 1) = F.start k := by
  unfold blockOffset
  rw [h, hblk]
  have hsum : ((b : Int) - 1) * F.blkSize + (t.blockWrap * (F.blkSize * sequenceSize) : Nat) =
      (F.start k : Nat) := by
    obtain ⟨k, rfl⟩ := Nat.exists_eq_succ_of_ne_zero h0.ne'
    have hb : (b : Int) = k + 1 - t.blockWrap * 2 ^ 16 := by omega
    rw [Transfer.start, sequenceSize, hb]
    push_cast [Nat.succ_sub_one]
    ring
  have hmod : ((t.blockWrap * (F.blkSize * sequenceSize) % 2 ^ 32 : Nat) : Int) =
      (t.blockWrap * (F.blkSize * sequenceSize) : Nat) % 2 ^ 32 := by norm_cast
  rw [hmod, Int.add_emod_emod, hsum]
  norm_cast
  exact Nat.mod_eq_of_lt hstart

end

end UBoot.Net.Tftp
