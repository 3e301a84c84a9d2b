import UBoot.Lib.BlockDisk
import UBoot.Lib.LittleEndian
import UBoot.Text.Strto

/-!
# GUID partition tables

`disk/part_efi.c` on a little-endian machine: writing a table with `gpt_restore` to
a device of 512-byte blocks, and checking one with `is_gpt_valid` on a device whose
blocks have room for a header. Memory is always available. The checksum is a
parameter; the code has `efi_crc32` for it.
-/

namespace UBoot.Gpt

open BlockDisk LittleEndian UBoot.Text

abbrev Guid := Vector UInt8 16

/-! ## Block devices -/

/-- A device of `lba` blocks. Reads of its blocks succeed, and the driver says which
writes do. -/
structure BlockDev where
  lba : Nat
  writes : Nat → Nat → Bool

/-- The disk after a write of `blkcnt` blocks, if the driver returns `blkcnt`. -/
def BlockDev.blockWrite (dev : BlockDev) (disk : Disk 512) (start blkcnt : Nat)
    (buffer : List UInt8) : Option (Disk 512) :=
  if start + blkcnt ≤ dev.lba ∧ dev.writes start blkcnt = true then
    some (write disk start blkcnt buffer)
  else none

def BlockDev.blockRead (dev : BlockDev) (disk : Disk blksz) (start blkcnt : Nat) :
    Option (List UInt8) :=
  if start + blkcnt ≤ dev.lba then some (read disk start blkcnt) else none

/-- The number of blocks that `size` bytes take, `BLOCK_CNT`. -/
def blockCnt (blksz : Nat) (size : UInt32) : Nat := (size - 1).toNat / blksz + 1

/-! ## The checksum of `lib/crc32.c` -/

def crcPoly : UInt32 := 0xedb88320

/-- An entry of `crc_table`, as `make_crc_table` computes it. -/
def crcTable (n : UInt32) : UInt32 :=
  Nat.repeat (fun c : UInt32 => if c &&& 1 ≠ 0 then crcPoly ^^^ (c >>> 1) else c >>> 1) 8 n

def crc32NoComp (crc : UInt32) (buf : List UInt8) : UInt32 :=
  buf.foldl (fun crc x => crcTable ((crc ^^^ x.toUInt32) &&& 255) ^^^ (crc >>> 8)) crc

def crc32 (crc : UInt32) (p : List UInt8) : UInt32 :=
  crc32NoComp (crc ^^^ 0xffffffff) p ^^^ 0xffffffff

def efiCrc32 (buf : List UInt8) : UInt32 := crc32 0 buf

/-! ## Headers and entries -/

structure GptHeader where
  signature : UInt64 := 0
  revision : UInt32 := 0
  headerSize : UInt32 := 0
  headerCrc32 : UInt32 := 0
  reserved1 : UInt32 := 0
  myLba : UInt64 := 0
  alternateLba : UInt64 := 0
  firstUsableLba : UInt64 := 0
  lastUsableLba : UInt64 := 0
  diskGuid : Guid := Vector.replicate 16 0
  partitionEntryLba : UInt64 := 0
  numPartitionEntries : UInt32 := 0
  sizeofPartitionEntry : UInt32 := 0
  partitionEntryArrayCrc32 : UInt32 := 0

def GptHeader.bytes (h : GptHeader) : List UInt8 :=
  le 8 h.signature.toNat ++ (le 4 h.revision.toNat ++ (le 4 h.headerSize.toNat ++
  (le 4 h.headerCrc32.toNat ++ (le 4 h.reserved1.toNat ++ (le 8 h.myLba.toNat ++
  (le 8 h.alternateLba.toNat ++ (le 8 h.firstUsableLba.toNat ++ (le 8 h.lastUsableLba.toNat ++
  (h.diskGuid.toList ++ (le 8 h.partitionEntryLba.toNat ++ (le 4 h.numPartitionEntries.toNat ++
  (le 4 h.sizeofPartitionEntry.toNat ++ le 4 h.partitionEntryArrayCrc32.toNat))))))))))))

def GptHeader.ofBytes (b : List UInt8) : GptHeader where
  signature := u64At b 0
  revision := u32At b 8
  headerSize := u32At b 12
  headerCrc32 := u32At b 16
  reserved1 := u32At b 20
  myLba := u64At b 24
  alternateLba := u64At b 32
  firstUsableLba := u64At b 40
  lastUsableLba := u64At b 48
  diskGuid := blockOf 16 (b.drop 56)
  partitionEntryLba := u64At b 72
  numPartitionEntries := u32At b 80
  sizeofPartitionEntry := u32At b 84
  partitionEntryArrayCrc32 := u32At b 88

structure GptEntry where
  partitionTypeGuid : Guid := Vector.replicate 16 0
  uniquePartitionGuid : Guid := Vector.replicate 16 0
  startingLba : UInt64 := 0
  endingLba : UInt64 := 0
  attributes : UInt64 := 0
  partitionName : Vector UInt16 36 := Vector.replicate 36 0

def GptEntry.bytes (e : GptEntry) : List UInt8 :=
  e.partitionTypeGuid.toList ++ (e.uniquePartitionGuid.toList ++ (le 8 e.startingLba.toNat ++
  (le 8 e.endingLba.toNat ++ (le 8 e.attributes.toNat ++
  e.partitionName.toList.flatMap fun c => le 2 c.toNat))))

abbrev Entries := Vector GptEntry 128

def Entries.bytes (es : Entries) : List UInt8 := es.toList.flatMap GptEntry.bytes

/-! ## Filling the table -/

def efiGuid (a : UInt32) (b c : UInt16) (d : List UInt8) : Guid :=
  blockOf 16 (le 4 a.toNat ++ (le 2 b.toNat ++ (le 2 c.toNat ++ d)))

def partitionBasicDataGuid : Guid :=
  efiGuid 0xEBD0A0A2 0xB9E5 0x4433 [0x87, 0xC0, 0x68, 0xB6, 0xB7, 0x26, 0x99, 0xC7]

def uuidCharOk (i : Nat) (c : UInt8) : Bool :=
  if i = 8 ∨ i = 13 ∨ i = 18 ∨ i = 23 then c == 0x2d else (xdigit c).isSome

def stringUuid (uuid : List UInt8) : Option Guid :=
  if uuid.length ≠ 36 then none
  else if (List.range 36).all fun i => uuidCharOk i (uuid.getD i 0) then
    let a := UInt32.ofNat (simpleStrtoul 16 uuid).1
    let b := UInt16.ofNat (simpleStrtoul 16 (uuid.drop 9)).1
    let c := UInt16.ofNat (simpleStrtoul 16 (uuid.drop 14)).1
    let d := UInt16.ofNat (simpleStrtoul 16 (uuid.drop 19)).1
    let e := (simpleStrtoull 16 (uuid.drop 24)).1
    -- the six low bytes of `e`, the highest of them first
    some (efiGuid a b c ((le 2 d.toNat).reverse ++ (le 6 e).reverse))
  else none

def gptFillHeader (dev : BlockDev) (strGuid : List UInt8) : Option GptHeader :=
  match stringUuid strGuid with
  | none => none
  | some diskGuid => some {
      signature := 0x5452415020494645
      revision := 0x00010000
      headerSize := 92
      myLba := 1
      alternateLba := UInt64.ofNat dev.lba - 1
      firstUsableLba := 34
      lastUsableLba := UInt64.ofNat dev.lba - 34
      partitionEntryLba := 2
      numPartitionEntries := 128
      sizeofPartitionEntry := 128
      diskGuid }

/-- The fields of `disk_partition_t` that the table is made from; `lbaint_t` has 64
bits, and the text of `uuid` stands without its final zero. -/
structure DiskPartition where
  start : UInt64
  size : UInt64
  name : Vector UInt8 32
  uuid : List UInt8

inductive Filled where
  | overrun
  | error
  | done (gptE : Entries)

/-- One partition with `CONFIG_PARTITION_UUIDS` set or not: its entry and the offset
behind it. -/
def fillEntry (uuids : Bool) (gptH : GptHeader) (offset : UInt32) (last : Bool)
    (p : DiskPartition) (e : GptEntry) : Option (GptEntry × UInt32) :=
  -- `start` is an `ulong` of 32 bits
  let start := p.start.toUInt32
  if start ≠ 0 ∧ start < offset then none
  else
    let startingLba := if start ≠ 0 then start.toUInt64 else offset.toUInt64
    let offset := (if start ≠ 0 then start else offset) + p.size.toUInt32
    if gptH.lastUsableLba ≤ offset.toUInt64 then none
    else
      let endingLba :=
        if last = true ∧ p.size = 0 then gptH.lastUsableLba else (offset - 1).toUInt64
      let guid := if uuids then stringUuid p.uuid else some e.uniquePartitionGuid
      match guid with
      | none => none
      | some uniquePartitionGuid => some ({
          partitionTypeGuid := partitionBasicDataGuid
          uniquePartitionGuid, startingLba, endingLba
          attributes := 0
          partitionName := Vector.ofFn fun k => (p.name.toList.getD k 0).toUInt16 }, offset)

def gptFillPte (uuids : Bool) (gptH : GptHeader) (gptE : Entries) (offset : UInt32) (i : Nat) :
    List DiskPartition → Filled
  | [] => .done gptE
  | p :: rest =>
    if h : i < 128 then
      match fillEntry uuids gptH offset rest.isEmpty p (gptE.get ⟨i, h⟩) with
      | none => .error
      | some (e, offset) => gptFillPte uuids gptH (gptE.set i e) offset (i + 1) rest
    else .overrun

/-! ## Writing the table -/

section Checksum

variable (crc : List UInt8 → UInt32)

/-- The sector that `set_protective_mbr` writes. It allocates as many bytes as a
pointer has, so the bytes behind the first four that it does not set are those of
the heap. -/
def protectiveMbr (dev : BlockDev) (heap : List UInt8) : List UInt8 :=
  le 4 0 ++ (heap.drop 4).take 446 ++ [0xee] ++ (heap.drop 451).take 3 ++ le 4 1 ++ le 4 dev.lba ++
    (heap.drop 462).take 48 ++ [0x55, 0xaa]

def setProtectiveMbr (dev : BlockDev) (heap : List UInt8) (disk : Disk 512) : Option (Disk 512) :=
  dev.blockWrite disk 0 1 (protectiveMbr dev heap)

def GptHeader.seal (h : GptHeader) : GptHeader :=
  { h with
    headerCrc32 := crc (GptHeader.bytes { h with headerCrc32 := 0 } |>.take h.headerSize.toNat) }

def GptHeader.second (h : GptHeader) : GptHeader :=
  { h with myLba := h.alternateLba, alternateLba := h.myLba }

def GptHeader.block (h : GptHeader) : List UInt8 := h.bytes ++ List.replicate 420 0

def writeGptTable (dev : BlockDev) (heap : List UInt8) (disk : Disk 512) (gptH : GptHeader)
    (gptE : Entries) : Option (Disk 512) := do
  let pteBlkCnt := blockCnt 512 (gptH.numPartitionEntries * 128)
  let disk ← setProtectiveMbr dev heap disk
  let len := (gptH.numPartitionEntries * gptH.sizeofPartitionEntry).toNat
  let gptH := GptHeader.seal crc
    { gptH with partitionEntryArrayCrc32 := crc (gptE.bytes.take len) }
  let disk ← dev.blockWrite disk 1 1 gptH.block
  let disk ← dev.blockWrite disk 2 pteBlkCnt gptE.bytes
  let gptH := GptHeader.seal crc gptH.second
  let disk ← dev.blockWrite disk (gptH.lastUsableLba + 1).toUInt32.toNat pteBlkCnt gptE.bytes
  dev.blockWrite disk gptH.myLba.toUInt32.toNat 1 gptH.block

inductive Restored where
  | overrun
  | error
  | ok (disk : Disk 512)

def Restored.ret : Restored → Option Int
  | .overrun => none
  | .error => some (-1)
  | .ok _ => some 0

def gptRestore (uuids : Bool) (dev : BlockDev) (heap : List UInt8) (disk : Disk 512)
    (strDiskGuid : List UInt8) (partitions : List DiskPartition) : Restored :=
  match gptFillHeader dev strDiskGuid with
  | none => .error
  | some gptH =>
    match gptFillPte uuids gptH (Vector.replicate 128 {}) gptH.firstUsableLba.toUInt32 0
        partitions with
    | .overrun => .overrun
    | .error => .error
    | .done gptE =>
      match writeGptTable crc dev heap disk gptH gptE with
      | none => .error
      | some disk => .ok disk

/-! ## Checking a table -/

def allocReadGptEntries (dev : BlockDev) (disk : Disk blksz) (gptHead : GptHeader) :
    Option (List UInt8) :=
  let count := gptHead.numPartitionEntries * gptHead.sizeofPartitionEntry
  if count = 0 then none
  else dev.blockRead disk gptHead.partitionEntryLba.toNat (blockCnt blksz count)

/-- What `is_gpt_valid` does: reads behind the buffer of the header, returns 0, or
returns 1 with a header and the entries. -/
inductive Checked where
  | overread
  | invalid
  | valid (gptHead : GptHeader) (gptPte : List UInt8)

def isGptValid (dev : BlockDev) (disk : Disk blksz) (lba : UInt64) : Checked :=
  match dev.blockRead disk lba.toNat 1 with
  | none => .invalid
  | some b =>
    let gptHead := GptHeader.ofBytes b
    if gptHead.signature ≠ 0x5452415020494645 then .invalid
    else if blksz < gptHead.headerSize.toNat then .overread
    else if crc ((b.take 16 ++ (le 4 0 ++ b.drop 20)).take gptHead.headerSize.toNat) ≠
        gptHead.headerCrc32 then .invalid
    else if gptHead.myLba ≠ lba then .invalid
    else if UInt64.ofNat dev.lba < gptHead.firstUsableLba then .invalid
    else if UInt64.ofNat dev.lba < gptHead.lastUsableLba then .invalid
    else
      match allocReadGptEntries dev disk gptHead with
      | none => .invalid
      | some gptPte =>
        let len := (gptHead.numPartitionEntries * gptHead.sizeofPartitionEntry).toNat
        if crc (gptPte.take len) ≠ gptHead.partitionEntryArrayCrc32 then .invalid
        else .valid gptHead gptPte

end Checksum

end UBoot.Gpt
