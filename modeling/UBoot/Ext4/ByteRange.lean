import UBoot.Ext4.Device
import UBoot.Lib.Machine

/-!
# The partition as an array of bytes

`put_ext4` of `fs/ext4/ext4_common.c` beside `ext4fs_devread`. A write goes through one
sector or takes whole sectors: what is longer than the rest of its first sector, or than
the whole sectors from its start on, is not written as it should be.
-/

namespace UBoot.Ext4

open ByteMemory

section
variable (V : Volume)

def Volume.withData (data : Memory) : Volume := { V with data := data }

/-- `memcpy` into the sector buffer; `none` if it goes past its end. -/
def Volume.fillSector (sec : List UInt8) (start : Nat) (buf : List UInt8) : Option (List UInt8) :=
  if start + buf.length ≤ V.blksz then
    some (sec.take start ++ buf ++ sec.drop (start + buf.length))
  else none

/-- `totalSect` is the size of the file system, not that of the partition. -/
def Volume.putExt4 (totalSect off : Nat) (buf : List UInt8) : Option Memory :=
  let startblock := off / V.blksz
  let remainder := off % V.blksz
  let count := buf.length / V.blksz
  if totalSect < startblock + count then some V.data
  else if remainder = 0 ∧ count ≠ 0 then
    some (storeBytes (startblock * V.blksz) (buf.take (count * V.blksz)) V.data)
  else
    (V.fillSector (V.blockRead startblock 1) remainder buf).map fun sec =>
      storeBytes (startblock * V.blksz) sec V.data

end

inductive Call
  | put (off : Nat) (buf : List UInt8)
  | devread (sector byteOffset byteLen buf : Nat) (mem : Memory)

inductive Answer
  | written
  | read (mem : Memory)
  | refused
  | overrun

def deviceMachine (V : Volume) (totalSect : Nat) : Machine Memory Call Answer where
  step data
    | .put off buf =>
      match (V.withData data).putExt4 totalSect off buf with
      | some data => (data, .written)
      | none => (data, .overrun)
    | .devread sector byteOffset byteLen buf mem =>
      match (V.withData data).devread sector byteOffset byteLen buf mem with
      | some mem => (data, .read mem)
      | none => (data, .refused)

def arrayMachine (V : Volume) : Machine Memory Call Answer where
  step data
    | .put off buf => (storeBytes off buf data, .written)
    | .devread sector byteOffset byteLen buf mem =>
      (data, .read (storeBytes buf
        ((V.withData data).bytes (sector * V.blksz + byteOffset) byteLen) mem))

/-- A range in the partition, which for a read is not empty and whose length in the sectors
from the first an `int` holds. -/
def Call.Inside (V : Volume) : Call → Prop
  | .put off buf => off + buf.length ≤ V.size * V.blksz
  | .devread sector byteOffset byteLen _ _ =>
    sector * V.blksz + byteOffset + byteLen ≤ V.size * V.blksz ∧ 0 < byteLen ∧
      byteOffset + byteLen < 2 ^ 31

/-- A write inside one sector, or of whole sectors, that the file system has. -/
def Call.Sectorwise (V : Volume) (totalSect : Nat) : Call → Prop
  | .put off buf => off / V.blksz + buf.length / V.blksz ≤ totalSect ∧
    (off % V.blksz + buf.length ≤ V.blksz ∨ off % V.blksz = 0 ∧ V.blksz ∣ buf.length)
  | .devread .. => True

/-! ## Reading -/

variable {V : Volume}

theorem Volume.drop_bytes (V : Volume) (start m n : Nat) :
    (V.bytes start (m + n)).drop m = V.bytes (start + m) n := by
  rw [V.bytes_add, List.drop_left' (V.length_bytes start m)]

theorem Volume.devread_inside (h : sector * V.blksz + byteOffset + byteLen ≤ V.size * V.blksz)
    (hpos : 0 < byteLen) (buf : Nat) (mem : Memory) :
    V.devread sector byteOffset byteLen buf mem =
      some (storeBytes buf (V.bytes (sector * V.blksz + byteOffset) byteLen) mem) := by
  have hdiv := Nat.div_add_mod' byteOffset V.blksz
  have hmod := Nat.mod_lt byteOffset V.blksz_pos
  have hstart : (sector + byteOffset / V.blksz) * V.blksz + byteOffset % V.blksz =
      sector * V.blksz + byteOffset := by
    rw [Nat.add_mul, Nat.add_assoc, hdiv]
  have hlast : V.lastSector sector byteOffset byteLen < V.size := by
    rw [V.lastSector_eq sector byteOffset hpos, ← Nat.mul_add_div V.blksz_pos]
    refine (Nat.mod_le _ _).trans_lt (Nat.div_lt_of_lt_mul ?_)
    rw [Nat.mul_comm V.blksz, Nat.mul_comm V.blksz]
    omega
  rw [Volume.devread, if_neg (Nat.not_le.mpr hlast), ← hstart]
  dsimp only
  generalize sector + byteOffset / V.blksz = s
  generalize byteOffset % V.blksz = r at *
  by_cases hr : r = 0
  · rw [if_neg (not_not.mpr hr), if_neg hpos.ne', V.readAligned_eq, hr, Nat.add_zero]
  · -- the rest of the first sector, and then whole sectors from the next on
    obtain ⟨first, hfirst⟩ : ∃ first, first = min (V.blksz - r) byteLen := ⟨_, rfl⟩
    have hsec : ((V.blockRead s 1).drop r).take first = V.bytes (s * V.blksz + r) first := by
      rw [Volume.blockRead, Nat.one_mul, ← Nat.add_sub_of_le hmod.le, V.drop_bytes,
        Nat.add_sub_of_le hmod.le, V.take_bytes (by omega)]
    rw [if_pos hr, ← hfirst, hsec]
    split
    · rw [show byteLen = first by omega]
    · have hnext : (s + 1) * V.blksz = s * V.blksz + r + first := by
        rw [Nat.add_mul]
        omega
      rw [V.readAligned_eq, hnext, show byteLen = first + (byteLen - first) by omega, V.bytes_add,
        storeBytes_append, V.length_bytes, Nat.add_sub_cancel_left]

/-! ## Writing -/

theorem storeBytes_bytes (V : Volume) (h : ∀ k < n, m (start + k) = V.data (start + k)) :
    storeBytes start (V.bytes start n) m = m := by
  funext x
  rw [storeBytes_apply, V.length_bytes]
  split
  · rename_i hx
    rw [V.bytes_getD start (by omega), ← h _ (by omega), Nat.add_sub_of_le hx.1]
  · rfl

theorem Volume.putExt4_inside (h : off / V.blksz + buf.length / V.blksz ≤ totalSect)
    (hfits : off % V.blksz + buf.length ≤ V.blksz ∨ off % V.blksz = 0 ∧ V.blksz ∣ buf.length) :
    V.putExt4 totalSect off buf = some (storeBytes off buf V.data) := by
  have hdiv := Nat.div_add_mod' off V.blksz
  rw [Volume.putExt4, if_neg (Nat.not_lt.mpr h)]
  by_cases hwhole : off % V.blksz = 0 ∧ buf.length / V.blksz ≠ 0
  · have hlen : buf.length / V.blksz * V.blksz = buf.length := by
      obtain hle | ⟨-, hdvd⟩ := hfits
      · have hone : V.blksz ≤ buf.length := (Nat.div_ne_zero_iff.mp hwhole.2).2
        rw [show buf.length = V.blksz by omega, Nat.div_self V.blksz_pos, Nat.one_mul]
      · exact Nat.div_mul_cancel hdvd
    rw [if_pos hwhole, hlen, List.take_length, show off / V.blksz * V.blksz = off by omega]
  · have hle : off % V.blksz + buf.length ≤ V.blksz := by
      obtain hle | ⟨hzero, k, hk⟩ := hfits
      · exact hle
      · have hk0 : k = 0 := by
          by_contra hne
          exact hwhole ⟨hzero, by rw [hk, Nat.mul_div_cancel_left k V.blksz_pos]; exact hne⟩
        rw [hk, hk0, hzero]
        omega
    -- the sector holds the old bytes in front of the new ones and behind them
    have hsec (n : Nat) (hn : n ≤ V.blksz) : (V.blockRead (off / V.blksz) 1).take n =
          V.bytes (off / V.blksz * V.blksz) n ∧ (V.blockRead (off / V.blksz) 1).drop n =
          V.bytes (off / V.blksz * V.blksz + n) (V.blksz - n) := by
      rw [Volume.blockRead, Nat.one_mul, V.take_bytes hn, ← V.drop_bytes, Nat.add_sub_of_le hn]
      exact ⟨rfl, rfl⟩
    rw [if_neg hwhole, Volume.fillSector, if_pos hle, Option.map_some, (hsec _ (by omega)).1,
      (hsec _ hle).2, List.append_assoc, storeBytes_append, storeBytes_append, V.length_bytes,
      storeBytes_bytes V fun _ _ => rfl, hdiv, ← Nat.add_assoc, hdiv, storeBytes_bytes]
    intro k _
    rw [storeBytes_apply, if_neg (by omega)]

/-! ## Runs -/

theorem deviceMachine_step (h : call.Inside V) (hfits : call.Sectorwise V totalSect)
    (data : Memory) :
    (deviceMachine V totalSect).step data call = (arrayMachine V).step data call := by
  cases call with
  | put off buf =>
    have hput : (V.withData data).putExt4 totalSect off buf = _ :=
      Volume.putExt4_inside hfits.1 hfits.2
    simp only [deviceMachine, arrayMachine, hput]
    rfl
  | devread sector byteOffset byteLen buf mem =>
    have hread := @Volume.devread_inside (V.withData data) _ _ _ h.1 h.2.1 buf mem
    simp only [deviceMachine, arrayMachine, hread]
    rfl

/-- Along every sequence of calls with ranges inside the partition, of which the writes go
through one sector or take whole sectors of the file system, the device is an array of bytes. -/
theorem device_run_eq_array (V : Volume) (totalSect : Nat) (data : Memory) (calls : List Call)
    (h : ∀ call ∈ calls, call.Inside V ∧ call.Sectorwise V totalSect) :
    (deviceMachine V totalSect).run data calls = (arrayMachine V).run data calls := by
  induction calls generalizing data with
  | nil => rfl
  | cons call calls ih =>
    obtain ⟨hin, hfits⟩ := h call List.mem_cons_self
    rw [Machine.run, Machine.run, deviceMachine_step hin hfits,
      ih _ fun c hc => h c (List.mem_cons_of_mem _ hc)]

theorem fsBlksz_small : 1024 = 0 ∨ 1024 = 2 ^ 10 := .inr rfl

def smallVolume : Volume where
  log2blksz := 9
  log2BlockSize := 10
  size := 8
  data := fun _ => 0
  fsBlksz := 1024
  sector_le_block := by decide
  block_le_max := by decide
  size_lt := by decide
  fsBlksz_eq := fsBlksz_small

theorem device_reads_back :
    (deviceMachine smallVolume 8).run (fun _ => 0)
        [.put 1000 [1, 2, 3], .devread 1 490 3 0 fun _ => 0] =
      (arrayMachine smallVolume).run (fun _ => 0)
        [.put 1000 [1, 2, 3], .devread 1 490 3 0 fun _ => 0] :=
  device_run_eq_array smallVolume 8 _ _ (by
    simp [Call.Inside, Call.Sectorwise, Volume.blksz, smallVolume])

/-- 30 bytes at 1000 go past the sector buffer, and of 513 bytes at 0 the last is lost. -/
theorem device_not_an_array :
    (Call.put 1000 (List.replicate 30 1)).Inside smallVolume ∧
      (Call.put 0 (List.replicate 513 1)).Inside smallVolume ∧
      ((deviceMachine smallVolume 8).step (fun _ => 0) (.put 1000 (List.replicate 30 1))).2 =
        .overrun ∧
      ((deviceMachine smallVolume 8).step (fun _ => 0) (.put 0 (List.replicate 513 1))).1 512 =
        0 := by
  have hin (off n : Nat) (b : UInt8) (h : off + n ≤ 4096) :
      (Call.put off (List.replicate n b)).Inside smallVolume := by
    rwa [Call.Inside, List.length_replicate]
  exact ⟨hin 1000 30 1 (by decide), hin 0 513 1 (by decide), rfl, by decide +kernel⟩

end UBoot.Ext4
