import UBoot.Ext4.ReadFile

/-!
# Reads of the device

`ext4fs_devread` from the start of a sector stores the bytes that follow it, if the
last of them is in the partition.
-/

namespace UBoot.Ext4

open ByteMemory

variable (V : Volume)

theorem Volume.blksz_pos : 0 < V.blksz := Nat.two_pow_pos _

theorem Volume.blockSize_pos : 0 < V.blockSize := Nat.two_pow_pos _

theorem Volume.blockSize_eq : V.blockSize = 2 ^ V.log2FsBlocksize * V.blksz := by
  rw [Volume.blockSize, Volume.blksz, Volume.log2FsBlocksize, ← Nat.pow_add,
    Nat.sub_add_cancel V.sector_le_block]

theorem Volume.div_block (i : Nat) (h : k < V.blockSize) :
    (i * V.blockSize + k) / V.blockSize = i := by
  rw [Nat.add_comm, Nat.add_mul_div_right _ _ V.blockSize_pos, Nat.div_eq_of_lt h, Nat.zero_add]

theorem Volume.mod_block (i : Nat) (h : k < V.blockSize) :
    (i * V.blockSize + k) % V.blockSize = k := by
  rw [Nat.add_comm, Nat.add_mul_mod_self_right, Nat.mod_eq_of_lt h]

@[simp] theorem Volume.length_bytes (start count : Nat) : (V.bytes start count).length = count := by
  simp [Volume.bytes]

theorem Volume.bytes_getD (start : Nat) (h : k < count) :
    (V.bytes start count).getD k 0 = V.data (start + k) := by
  simp [Volume.bytes, List.getD_eq_getElem?_getD, h]

theorem Volume.bytes_add (start m n : Nat) :
    V.bytes start (m + n) = V.bytes start m ++ V.bytes (start + m) n := by
  rw [Volume.bytes, List.range_add, List.map_append, List.map_map, Volume.bytes, Volume.bytes]
  simp [Function.comp_def, Nat.add_assoc]

theorem Volume.take_bytes (h : m ≤ n) :
    (V.bytes start n).take m = V.bytes start m := by
  obtain ⟨k, rfl⟩ := Nat.exists_eq_add_of_le h
  rw [V.bytes_add, List.take_left' (V.length_bytes start m)]

theorem Volume.readAligned_eq (sector buf : Nat) (mem : Memory) :
    V.readAligned sector byteLen buf mem =
      storeBytes buf (V.bytes (sector * V.blksz) byteLen) mem := by
  have hmod : byteLen % V.blksz < V.blksz := Nat.mod_lt _ V.blksz_pos
  have hsplit : byteLen / V.blksz * V.blksz + byteLen % V.blksz = byteLen :=
    Nat.div_add_mod' byteLen V.blksz
  have hcount : byteLen / V.blksz * V.blksz / V.blksz = byteLen / V.blksz :=
    Nat.mul_div_cancel _ V.blksz_pos
  have hrest : byteLen - byteLen / V.blksz * V.blksz = byteLen % V.blksz := by omega
  simp only [Volume.readAligned, Volume.blockRead, Nat.one_mul, hcount, hrest]
  split
  next hnone => rw [V.take_bytes (by omega)]
  next hsome =>
    have hbytes : V.bytes (sector * V.blksz) byteLen =
        V.bytes (sector * V.blksz) (byteLen / V.blksz * V.blksz) ++
          V.bytes ((sector + byteLen / V.blksz) * V.blksz) (byteLen % V.blksz) := by
      rw [Nat.add_mul, ← V.bytes_add, hsplit]
    rw [hbytes, storeBytes_append, V.length_bytes, V.take_bytes (by omega)]
    split
    next => rfl
    next hzero =>
      rw [not_not.mp hzero]
      rfl

theorem Volume.lastSector_eq (sector byteOffset : Nat) (h : 0 < byteLen) :
    V.lastSector sector byteOffset byteLen =
      (sector + (byteOffset + byteLen - 1) / V.blksz) % 2 ^ 32 := by
  have hcast : ((byteOffset + byteLen : Nat) - 1 : Int) =
      ((byteOffset + byteLen - 1 : Nat) : Int) := by omega
  rw [Volume.lastSector, hcast]
  norm_cast

theorem Volume.devread_eq (sector buf : Nat) (h : 0 < byteLen) (mem : Memory) :
    V.devread sector 0 byteLen buf mem =
      if V.size ≤ (sector + (byteLen - 1) / V.blksz) % 2 ^ 32 then none
      else some (storeBytes buf (V.bytes (sector * V.blksz) byteLen) mem) := by
  have hne : byteLen ≠ 0 := by omega
  simp [Volume.devread, V.lastSector_eq sector 0 h, hne, V.readAligned_eq]

theorem Volume.devread_nothing (sector buf : Nat) (mem : Memory) :
    V.devread sector 0 0 buf mem = none ∨ V.devread sector 0 0 buf mem = some mem := by
  rw [Volume.devread]
  split
  · exact .inl rfl
  · exact .inr (by simp)

end UBoot.Ext4
