import UBoot.Disk.Gpt

/-!
# The second partition table

`write_gpt_table` makes the second header from the first. It exchanges the two
addresses of headers and leaves the address of the entries, so that the second
header is checked against the first copy of the entries and never against the
copy written in front of it.
-/

namespace UBoot.Gpt

open BlockDisk LittleEndian List

/-! ## Headers and entries as bytes -/

theorem blockOf_toList_append (b : Block size) (rest : List UInt8) :
    blockOf size (b.toList ++ rest) = b := by
  rw [← Vector.toList_inj, toList_blockOf _ (by simp), take_left' Vector.length_toList]

section
variable (h : GptHeader)
include h

theorem GptHeader.ofBytes_append (rest : List UInt8) : GptHeader.ofBytes (h.bytes ++ rest) = h := by
  cases h
  simp [GptHeader.ofBytes, GptHeader.bytes, append_assoc, drop_append,
    drop_eq_nil_of_le, blockOf_toList_append]

@[simp] theorem GptHeader.length_bytes : h.bytes.length = 92 := by
  simp [GptHeader.bytes]

@[simp] theorem GptHeader.length_block : h.block.length = 512 := by
  rw [GptHeader.block, length_append, h.length_bytes, length_replicate]

@[simp] theorem GptHeader.ofBytes_block : GptHeader.ofBytes h.block = h :=
  h.ofBytes_append _

theorem GptHeader.block_clear : h.block.take 16 ++ (le 4 0 ++ h.block.drop 20) =
      GptHeader.block { h with headerCrc32 := 0 } := by
  unfold GptHeader.block
  generalize replicate 420 (0 : UInt8) = rest
  simp [GptHeader.bytes, take_append, drop_append, take_of_length_le,
    drop_eq_nil_of_le]

end

@[simp] theorem GptEntry.length_bytes (e : GptEntry) : e.bytes.length = 128 := by
  simp [GptEntry.bytes, length_flatMap]

@[simp] theorem Entries.length_bytes (gptE : Entries) : gptE.bytes.length = 32 * 512 := by
  simp [Entries.bytes, length_flatMap]

/-! ## What the functions leave -/

variable {disk disk' : Disk 512}

theorem BlockDev.blockWrite_eq_some {dev : BlockDev} {start blkcnt : Nat}
    (h : dev.blockWrite disk start blkcnt buffer = some disk') :
    start + blkcnt ≤ dev.lba ∧ disk' = write disk start blkcnt buffer := by
  unfold BlockDev.blockWrite at h
  split at h
  · rename_i hok
    exact ⟨hok.1, (Option.some.inj h).symm⟩
  · cases h

structure GptHeader.Standard (dev : BlockDev) (h : GptHeader) : Prop where
  signature : h.signature = 0x5452415020494645
  headerSize : h.headerSize = 92
  myLba : h.myLba = 1
  alternateLba : h.alternateLba = UInt64.ofNat dev.lba - 1
  firstUsableLba : h.firstUsableLba = 34
  lastUsableLba : h.lastUsableLba = UInt64.ofNat dev.lba - 34
  partitionEntryLba : h.partitionEntryLba = 2
  numPartitionEntries : h.numPartitionEntries = 128
  sizeofPartitionEntry : h.sizeofPartitionEntry = 128

theorem gptFillHeader_standard (h : gptFillHeader dev strGuid = some gptH) : gptH.Standard dev := by
  unfold gptFillHeader at h
  split at h
  · cases h
  · cases h
    constructor <;> rfl

variable {crc : List UInt8 → UInt32}

def firstHeader (crc : List UInt8 → UInt32) (gptH : GptHeader) (gptE : Entries) : GptHeader :=
  GptHeader.seal crc { gptH with partitionEntryArrayCrc32 := crc gptE.bytes }

def secondHeader (crc : List UInt8 → UInt32) (gptH : GptHeader) (gptE : Entries) : GptHeader :=
  GptHeader.seal crc (firstHeader crc gptH gptE).second

theorem GptHeader.seal_checksum {h : GptHeader} (hsize : h.headerSize = 92) :
    crc (GptHeader.bytes { h.seal crc with headerCrc32 := 0 }) = (h.seal crc).headerCrc32 := by
  have h92 : h.headerSize.toNat = 92 := by rw [hsize]; rfl
  simp only [GptHeader.seal, h92]
  rw [take_of_length_le (by simp)]

theorem toNat_ofNat_sub (hk : k ≤ lba) (hlba : lba < 2 ^ 32) :
    (UInt64.ofNat lba - UInt64.ofNat k).toNat = lba - k := by
  have hmod (n : Nat) (hn : n < 2 ^ 32) : (UInt64.ofNat n).toNat = n :=
    UInt64.toNat_ofNat_of_lt' (hn.trans (by decide))
  rw [UInt64.toNat_sub_of_le, hmod lba hlba, hmod k (by omega)]
  rw [UInt64.le_iff_toNat_le, hmod lba hlba, hmod k (by omega)]
  exact hk

theorem isGptValid_of_header
    (hblock : dev.blockRead disk lba.toNat 1 = some h.block)
    (hsig : h.signature = 0x5452415020494645) (hsize : h.headerSize = 92)
    (hseal : crc (GptHeader.bytes { h with headerCrc32 := 0 }) = h.headerCrc32)
    (hmine : h.myLba = lba) (hfirst : ¬ UInt64.ofNat dev.lba < h.firstUsableLba)
    (hlast : ¬ UInt64.ofNat dev.lba < h.lastUsableLba)
    (hentries : allocReadGptEntries dev disk h = some gptPte) : isGptValid crc dev disk lba =
      if crc (gptPte.take (h.numPartitionEntries * h.sizeofPartitionEntry).toNat) =
          h.partitionEntryArrayCrc32 then .valid h gptPte
      else .invalid := by
  have hcrc : crc ((GptHeader.block { h with headerCrc32 := 0 }).take h.headerSize.toNat) =
      h.headerCrc32 := by
    have h92 : h.headerSize.toNat = 92 := by rw [hsize]; rfl
    rw [h92, GptHeader.block, take_left' (GptHeader.length_bytes _), hseal]
  have h512 : ¬ 512 < h.headerSize.toNat := by rw [hsize]; decide
  unfold isGptValid
  rw [hblock]
  simp only [GptHeader.ofBytes_block, GptHeader.block_clear, hentries]
  rw [if_neg (not_not.mpr hsig), if_neg h512, if_neg (not_not.mpr hcrc),
    if_neg (not_not.mpr hmine), if_neg hfirst, if_neg hlast, ite_not]

section Written

variable {dev : BlockDev} {gptH : GptHeader} {gptE : Entries}

section
variable (hstd : gptH.Standard dev) (h128 : 128 ≤ dev.lba) (h32 : dev.lba < 2 ^ 32)
include hstd h128 h32

theorem alternateLba_toNat : gptH.alternateLba.toNat = dev.lba - 1 := by
  rw [hstd.alternateLba]
  exact toNat_ofNat_sub (Nat.le_trans (by decide : 1 ≤ 128) h128) h32

theorem lastUsableLba_toNat : gptH.lastUsableLba.toNat = dev.lba - 34 := by
  rw [hstd.lastUsableLba]
  exact toNat_ofNat_sub (Nat.le_trans (by decide : 34 ≤ 128) h128) h32

theorem writeGptTable_eq_some {heap : List UInt8}
    (h : writeGptTable crc dev heap disk gptH gptE = some disk') :
    ∃ start : Disk 512, disk' = write (write (write start 2 32 gptE.bytes)
      (dev.lba - 33) 32 gptE.bytes) (dev.lba - 1) 1 (secondHeader crc gptH gptE).block := by
  have hcnt : blockCnt 512 (gptH.numPartitionEntries * 128) = 32 := by
    rw [hstd.numPartitionEntries]; rfl
  have hlen : (gptH.numPartitionEntries * gptH.sizeofPartitionEntry).toNat = 32 * 512 := by
    rw [hstd.numPartitionEntries, hstd.sizeofPartitionEntry]; rfl
  have htake : gptE.bytes.take (32 * 512) = gptE.bytes := take_of_length_le (by simp)
  have hlast : (gptH.lastUsableLba + 1).toUInt32.toNat = dev.lba - 33 := by
    have := lastUsableLba_toNat hstd h128 h32
    rw [UInt64.toNat_toUInt32, UInt64.toNat_add, this, UInt64.toNat_one]
    omega
  have hmine : gptH.alternateLba.toUInt32.toNat = dev.lba - 1 := by
    rw [UInt64.toNat_toUInt32, alternateLba_toNat hstd h128 h32]
    omega
  simp only [writeGptTable, hcnt, hlen, htake, Option.bind_eq_bind, Option.bind_eq_some_iff] at h
  obtain ⟨_, _, _, _, disk₂, h₂, disk₃, h₃, h₄⟩ := h
  change dev.blockWrite _ (gptH.lastUsableLba + 1).toUInt32.toNat _ _ = _ at h₃
  change dev.blockWrite _ gptH.alternateLba.toUInt32.toNat _
    (secondHeader crc gptH gptE).block = _ at h₄
  rw [hlast] at h₃
  rw [hmine] at h₄
  obtain ⟨_, rfl⟩ := BlockDev.blockWrite_eq_some h₂
  obtain ⟨_, rfl⟩ := BlockDev.blockWrite_eq_some h₃
  obtain ⟨_, rfl⟩ := BlockDev.blockWrite_eq_some h₄
  exact ⟨_, rfl⟩

theorem writeGptTable_reads
    (h : writeGptTable crc dev heap disk gptH gptE = some disk') :
    read disk' 2 32 = gptE.bytes ∧ read disk' (dev.lba - 33) 32 = gptE.bytes ∧
      read disk' (dev.lba - 1) 1 = (secondHeader crc gptH gptE).block := by
  obtain ⟨start, rfl⟩ := writeGptTable_eq_some hstd h128 h32 h
  refine ⟨?_, ?_, read_write _ _ _ _ (by simp)⟩
  · rw [read_write_of_disjoint _ _ (by omega), read_write_of_disjoint _ _ (by omega)]
    exact read_write _ _ _ _ gptE.length_bytes
  · rw [read_write_of_disjoint _ _ (by omega)]
    exact read_write _ _ _ _ gptE.length_bytes

theorem isGptValid_second
    (hread : read disk (dev.lba - 1) 1 = (secondHeader crc gptH gptE).block) :
    isGptValid crc dev disk gptH.alternateLba =
      if crc (read disk 2 32) = crc gptE.bytes then
        .valid (secondHeader crc gptH gptE) (read disk 2 32)
      else .invalid := by
  have hlba : (UInt64.ofNat dev.lba).toNat = dev.lba :=
    UInt64.toNat_ofNat_of_lt' (h32.trans (by decide))
  have hblock : dev.blockRead disk gptH.alternateLba.toNat 1 =
      some (secondHeader crc gptH gptE).block := by
    rw [BlockDev.blockRead, alternateLba_toNat hstd h128 h32, if_pos (by omega), hread]
  have hseal : crc (GptHeader.bytes { secondHeader crc gptH gptE with headerCrc32 := 0 }) =
      (secondHeader crc gptH gptE).headerCrc32 :=
    GptHeader.seal_checksum hstd.headerSize
  have hfirst : ¬ UInt64.ofNat dev.lba < gptH.firstUsableLba := by
    rw [UInt64.lt_iff_toNat_lt, hlba, hstd.firstUsableLba]
    exact Nat.not_lt.mpr (Nat.le_trans (by decide) h128)
  have hlast : ¬ UInt64.ofNat dev.lba < gptH.lastUsableLba := by
    rw [UInt64.lt_iff_toNat_lt, hlba, lastUsableLba_toNat hstd h128 h32]
    omega
  have hcount : gptH.numPartitionEntries * gptH.sizeofPartitionEntry = 16384 := by
    rw [hstd.numPartitionEntries, hstd.sizeofPartitionEntry]; rfl
  -- the second header has the address of the entries from the first
  have hentries : allocReadGptEntries dev disk (secondHeader crc gptH gptE) =
      some (read disk 2 32) := by
    have hlba2 : gptH.partitionEntryLba.toNat = 2 := by rw [hstd.partitionEntryLba]; rfl
    have hin : 2 + 32 ≤ dev.lba := by omega
    simp only [allocReadGptEntries, secondHeader, firstHeader, GptHeader.seal, GptHeader.second,
      hcount, hlba2, BlockDev.blockRead]
    exact if_pos hin
  have hall : (read disk 2 32).take (gptH.numPartitionEntries * gptH.sizeofPartitionEntry).toNat =
      read disk 2 32 := by
    rw [hcount]
    exact take_of_length_le (length_read disk 2 32).le
  have hvalid := isGptValid_of_header hblock hstd.signature hstd.headerSize hseal rfl hfirst hlast
    hentries
  change _ = if crc ((read disk 2 32).take
    (gptH.numPartitionEntries * gptH.sizeofPartitionEntry).toNat) = crc gptE.bytes then _
    else _ at hvalid
  rwa [hall] at hvalid

end

end Written

/-! ## The second table after a loss of the first -/

theorem gptRestore_eq_ok
    (h : gptRestore crc uuids dev heap disk strDiskGuid partitions = .ok disk') :
    ∃ gptH gptE, gptFillHeader dev strDiskGuid = some gptH ∧
      gptFillPte uuids gptH (Vector.replicate 128 {}) gptH.firstUsableLba.toUInt32 0 partitions =
        .done gptE ∧
      writeGptTable crc dev heap disk gptH gptE = some disk' := by
  unfold gptRestore at h
  split at h
  · cases h
  · rename_i gptH hheader
    split at h
    · cases h
    · cases h
    · rename_i gptE hpte
      split at h
      · cases h
      · rename_i disk₁ hwrite
        cases h
        exact ⟨gptH, gptE, hheader, hpte, hwrite⟩

theorem isGptValid_overwritten_iff (hstd : gptH.Standard dev)
    (h128 : 128 ≤ dev.lba) (h32 : dev.lba < 2 ^ 32)
    (hwrite : writeGptTable crc dev heap disk gptH gptE = some disk')
    (hoverwritten : ∀ b, b < 1 ∨ 33 < b → overwritten b = disk' b) :
    (∃ gptHead, isGptValid crc dev overwritten (UInt64.ofNat (dev.lba - 1)) =
        .valid gptHead gptE.bytes) ↔
      ∀ b, 2 ≤ b → b ≤ 33 → overwritten b = disk' b := by
  obtain ⟨hprimary, -, hsecond⟩ := writeGptTable_reads hstd h128 h32 hwrite
  have hlba : UInt64.ofNat (dev.lba - 1) = gptH.alternateLba := by
    rw [← UInt64.toNat_inj, alternateLba_toNat hstd h128 h32]
    exact UInt64.toNat_ofNat_of_lt' ((Nat.sub_le _ _).trans_lt (h32.trans (by decide)))
  have hread : read overwritten (dev.lba - 1) 1 = (secondHeader crc gptH gptE).block := by
    rw [← hsecond, read_eq_read_iff]
    intro b hb _
    exact hoverwritten b (.inr (by omega))
  have hsame : read overwritten 2 32 = gptE.bytes ↔
      ∀ b, 2 ≤ b → b ≤ 33 → overwritten b = disk' b := by
    rw [← hprimary, read_eq_read_iff]
    exact forall₂_congr fun b _ => ⟨fun h hb => h (by omega), fun h hb => h (by omega)⟩
  rw [hlba, isGptValid_second hstd h128 h32 hread, ← hsame]
  constructor
  · rintro ⟨gptHead, hvalid⟩
    split at hvalid
    · exact (Checked.valid.inj hvalid).2
    · cases hvalid
  · intro heq
    rw [heq, if_pos rfl]
    exact ⟨_, rfl⟩

/-- After a restore and an overwriting of blocks 1 to 33, the header in the last block
gives the entries that were written exactly when the blocks 2 to 33 still have them. -/
theorem backup_gpt_usable_iff (crc : List UInt8 → UInt32) (uuids : Bool) (dev : BlockDev)
    (h128 : 128 ≤ dev.lba) (h32 : dev.lba < 2 ^ 32) (heap : List UInt8)
    (disk disk' overwritten : Disk 512) (strDiskGuid : List UInt8)
    (partitions : List DiskPartition)
    (hrestore : gptRestore crc uuids dev heap disk strDiskGuid partitions = .ok disk')
    (hoverwritten : ∀ b, b < 1 ∨ 33 < b → overwritten b = disk' b) :
    ∃ gptH gptE, gptFillHeader dev strDiskGuid = some gptH ∧
      gptFillPte uuids gptH (Vector.replicate 128 {}) gptH.firstUsableLba.toUInt32 0 partitions =
        .done gptE ∧
      read disk' 2 32 = gptE.bytes ∧ read disk' (dev.lba - 33) 32 = gptE.bytes ∧
      ((∃ gptHead, isGptValid crc dev overwritten (UInt64.ofNat (dev.lba - 1)) =
          .valid gptHead gptE.bytes) ↔
        ∀ b, 2 ≤ b → b ≤ 33 → overwritten b = disk' b) := by
  obtain ⟨gptH, gptE, hheader, hpte, hwrite⟩ := gptRestore_eq_ok hrestore
  have hstd := gptFillHeader_standard hheader
  obtain ⟨hprimary, hcopy, -⟩ := writeGptTable_reads hstd h128 h32 hwrite
  exact ⟨gptH, gptE, hheader, hpte, hprimary, hcopy,
    isGptValid_overwritten_iff hstd h128 h32 hwrite hoverwritten⟩

def smallDev : BlockDev := ⟨128, fun _ _ => true⟩

def zeroBlock : Block 512 := Vector.replicate 512 0

def smallGuid : List UInt8 :=
  [0x31, 0x32, 0x33, 0x34, 0x35, 0x36, 0x37, 0x38, 0x2d, 0x31, 0x32, 0x33, 0x34, 0x2d, 0x31, 0x32,
   0x33, 0x34, 0x2d, 0x31, 0x32, 0x33, 0x34, 0x2d, 0x31, 0x32, 0x33, 0x34, 0x35, 0x36, 0x37, 0x38,
   0x39, 0x61, 0x62, 0x63]

def smallPartition : DiskPartition := ⟨0, 8, Vector.replicate 32 0, smallGuid⟩

def smallRestore : Restored :=
  gptRestore efiCrc32 true smallDev [] (fun _ => zeroBlock) smallGuid [smallPartition]

theorem smallRestore_ok : ∃ disk', smallRestore = .ok disk' := by
  have hret : smallRestore.ret = some 0 := by decide +kernel
  match h : smallRestore with
  | .ok disk' => exact ⟨disk', rfl⟩
  | .error => rw [h] at hret; cases hret
  | .overrun => rw [h] at hret; cases hret

/-- With the entries in place, a new first header does no harm. -/
theorem backup_gpt_usable_header : ∃ disk', smallRestore = .ok disk' ∧ ∃ gptHead gptE,
    isGptValid efiCrc32 smallDev (Function.update disk' 1 zeroBlock) 127 =
      .valid gptHead (Entries.bytes gptE) := by
  obtain ⟨disk', hrestore⟩ := smallRestore_ok
  obtain ⟨_, gptE, -, -, -, -, hiff⟩ := backup_gpt_usable_iff efiCrc32 true smallDev (by decide)
    (by decide) [] (fun _ => zeroBlock) disk' (Function.update disk' 1 zeroBlock) smallGuid
    [smallPartition] hrestore fun b hb => Function.update_of_ne (by omega) _ _
  obtain ⟨gptHead, hvalid⟩ := hiff.mpr fun b hb _ => Function.update_of_ne (by omega) _ _
  exact ⟨disk', hrestore, gptHead, gptE, hvalid⟩

/-- With blocks 1 to 33 zeroed, the header in block 127 does not give the entries. -/
theorem backup_gpt_unusable_zeroed : ∃ disk', smallRestore = .ok disk' ∧ ∀ gptHead,
    isGptValid efiCrc32 smallDev (fun b => if 1 ≤ b ∧ b ≤ 33 then zeroBlock else disk' b) 127 ≠
      .valid gptHead (read disk' 2 32) := by
  obtain ⟨disk', hrestore⟩ := smallRestore_ok
  obtain ⟨gptH, gptE, hheader, hpte, hwrite⟩ := gptRestore_eq_ok hrestore
  have hstd := gptFillHeader_standard hheader
  obtain ⟨hprimary, -, -⟩ := writeGptTable_reads hstd (by decide) (by decide) hwrite
  refine ⟨disk', hrestore, fun gptHead hvalid => ?_⟩
  rw [hprimary] at hvalid
  have hkept := (isGptValid_overwritten_iff hstd (by decide) (by decide) hwrite
    fun b hb => if_neg (by omega)).mp ⟨gptHead, hvalid⟩ 2 (by decide) (by decide)
  -- the first byte of the entries is one of the type GUID
  have hfirst : ((gptFillHeader smallDev smallGuid).map fun gptH =>
      match gptFillPte true gptH (Vector.replicate 128 {}) gptH.firstUsableLba.toUInt32 0
        [smallPartition] with
      | .done gptE => gptE.bytes.head?
      | _ => none) = some (some 0xa2) := by decide +kernel
  rw [hheader, Option.map_some, hpte] at hfirst
  have hhead : gptE.bytes.head? = some 0xa2 := Option.some.inj hfirst
  have hzero : read disk' 2 32 = zeroBlock.toList ++ read disk' 3 31 := by
    rw [BlockDisk.read, ← hkept]; rfl
  have hbyte : zeroBlock.toList.head? = some 0 := by decide +kernel
  rw [← hprimary, hzero, head?_append, hbyte] at hhead
  cases hhead

end UBoot.Gpt
