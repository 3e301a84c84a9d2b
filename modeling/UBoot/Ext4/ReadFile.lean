import UBoot.Lib.ByteMemory

/-!
# Reading a file with extents

`ext4fs_read_file`, `read_allocated_block` for an inode with `EXT4_EXTENTS_FL`,
`ext4fs_get_extent_block` and `ext4fs_devread` of `fs/ext4`. A `long` and an `lbaint_t` have
32 bits. A buffer for a node of the extent tree is a memory of its own.
-/

namespace UBoot.Ext4

open ByteMemory

/-- A mounted volume in a partition of `size` sectors. -/
structure Volume where
  log2blksz : Nat
  log2BlockSize : Nat
  size : Nat
  data : Nat → UInt8
  /-- The variable `fs->blksz`, which is zero as long as nothing was written. -/
  fsBlksz : Nat
  sector_le_block : log2blksz ≤ log2BlockSize
  block_le_max : log2BlockSize ≤ 16
  size_lt : size < 2 ^ 32
  fsBlksz_eq : fsBlksz = 0 ∨ fsBlksz = 2 ^ log2BlockSize

section
variable (V : Volume)

def Volume.blksz : Nat := 2 ^ V.log2blksz

def Volume.blockSize : Nat := 2 ^ V.log2BlockSize

def Volume.log2FsBlocksize : Nat := V.log2BlockSize - V.log2blksz

def Volume.sectorOf (block : Nat) : Nat := block * 2 ^ V.log2FsBlocksize % 2 ^ 32

/-! ## The device -/

def Volume.bytes (start count : Nat) : List UInt8 :=
  (List.range count).map fun k => V.data (start + k)

def Volume.blockRead (sector count : Nat) : List UInt8 :=
  V.bytes (sector * V.blksz) (count * V.blksz)

def Volume.lastSector (sector byteOffset byteLen : Nat) : Nat :=
  ((sector + ((byteOffset + byteLen : Nat) - 1 : Int) / V.blksz) % 2 ^ 32).toNat

def Volume.readAligned (sector byteLen buf : Nat) (mem : Memory) : Memory :=
  let blockLen := byteLen / V.blksz * V.blksz
  if blockLen = 0 then storeBytes buf ((V.blockRead sector 1).take byteLen) mem
  else
    let count := blockLen / V.blksz
    let mem := storeBytes buf (V.blockRead sector count) mem
    let rest := byteLen - blockLen
    if rest ≠ 0 then
      storeBytes (buf + blockLen) ((V.blockRead (sector + count) 1).take rest) mem
    else mem

def Volume.devread (sector byteOffset byteLen buf : Nat) (mem : Memory) : Option Memory :=
  if V.size ≤ V.lastSector sector byteOffset byteLen then none
  else
    let sector := sector + byteOffset / V.blksz
    let byteOffset := byteOffset % V.blksz
    if byteOffset ≠ 0 then
      let first := min (V.blksz - byteOffset) byteLen
      let mem := storeBytes buf (((V.blockRead sector 1).drop byteOffset).take first) mem
      if byteLen - first = 0 then some mem
      else some (V.readAligned (sector + 1) (byteLen - first) (buf + first) mem)
    else if byteLen = 0 then some mem
    else some (V.readAligned sector byteLen buf mem)

/-! ## Extents -/

def le16 (m : Memory) (a : Nat) : Nat := (m a).toNat + 256 * (m (a + 1)).toNat

def le32 (m : Memory) (a : Nat) : Nat := le16 m a + 2 ^ 16 * le16 m (a + 2)

def extMagic : Nat := 0xf30a

def ehMagic (m : Memory) : Nat := le16 m 0
def ehEntries (m : Memory) : Nat := le16 m 2
def ehDepth (m : Memory) : Nat := le16 m 6

def eiBlock (m : Memory) (k : Nat) : Nat := le32 m (12 + 12 * k)
def eiLeaf (m : Memory) (k : Nat) : Nat :=
  le16 m (20 + 12 * k) * 2 ^ 32 + le32 m (16 + 12 * k)

structure Extent where
  block : Nat
  len : Nat
  start : Nat
deriving DecidableEq

def extentAt (m : Memory) (k : Nat) : Extent where
  block := le32 m (12 + 12 * k)
  len := le16 m (16 + 12 * k)
  start := le16 m (18 + 12 * k) * 2 ^ 32 + le32 m (20 + 12 * k)

/-- The first entry from `i` on that the loop does not go past, or the end of the entries. -/
def searchEntries (past : Nat → Bool) : Nat → Nat → Nat
  | 0, i => i
  | entries + 1, i => if past i then searchEntries past entries (i + 1) else i

/-- The leaf for a block of the file; the inner `none` is for a null pointer. -/
def getExtentBlock (fileblock : Nat) : Nat → Memory → Memory → Option (Option Memory)
  | 0, _, _ => none
  | rounds + 1, buf, extBlock =>
    if ehMagic extBlock ≠ extMagic then some none
    else if ehDepth extBlock = 0 then some (some extBlock)
    else
      let i := searchEntries (fun k => eiBlock extBlock k < fileblock) (ehEntries extBlock) 0
      if i = 0 then some none
      else
        match V.devread (V.sectorOf (eiLeaf extBlock (i - 1) % 2 ^ 32)) 0 V.fsBlksz 0 buf with
        | none => some none
        | some buf => getExtentBlock fileblock rounds buf buf

def noLeaf : Nat := 2 ^ 32 - 22

def noExtent : Nat := 2 ^ 32 - 1

structure Inode where
  size : UInt32
  /-- Of a regular file this is the high part of its size. -/
  dirAcl : UInt32
  blocks : Memory

def Extent.blockFor (extent : Extent) (fileblock : Nat) : Nat :=
  if extent.len ≤ fileblock - extent.block then 0
  else (fileblock - extent.block + extent.start) % 2 ^ 32

def readAllocatedBlock (inode : Inode) (rounds fileblock : Nat) : Option Nat :=
  match getExtentBlock V fileblock rounds (fun _ => 0) inode.blocks with
  | none => none
  | some none => some noLeaf
  | some (some extBlock) =>
    let i := searchEntries (fun k => (extentAt extBlock k).block ≤ fileblock) (ehEntries extBlock) 0
    some (if i = 0 then noExtent else (extentAt extBlock (i - 1)).blockFor fileblock)

/-! ## ext4fs_read_file -/

/-- The read that is put off, none if `previous` is `-1`. -/
structure ReadState where
  buf : Nat
  mem : Memory
  previous : Nat
  delayedStart : Nat
  delayedExtent : Nat
  delayedSkipfirst : Nat
  delayedNext : Nat
  delayedBuf : Nat

def noBlock : Nat := 2 ^ 32 - 1

inductive Halt
  | endless
  | failed (mem : Memory)

def spill (s : ReadState) : Except Halt Memory :=
  match V.devread s.delayedStart s.delayedSkipfirst s.delayedExtent s.delayedBuf s.mem with
  | none => .error (.failed s.mem)
  | some mem => .ok mem

def flush (s : ReadState) : Except Halt Memory :=
  if s.previous ≠ noBlock then spill V s else .ok s.mem

def delay (s : ReadState) (blknr blockend skipfirst : Nat) : ReadState :=
  { s with
    previous := blknr
    delayedStart := blknr
    delayedExtent := blockend
    delayedSkipfirst := skipfirst
    delayedBuf := s.buf
    delayedNext := (blknr + blockend / V.blksz) % 2 ^ 32 }

def readBlock (s : ReadState) (blknr blockend skipfirst : Nat) : Except Halt ReadState :=
  if blknr ≠ 0 then
    if s.previous ≠ noBlock ∧ s.delayedNext = blknr then
      .ok { s with
        delayedExtent := (s.delayedExtent + blockend) % 2 ^ 32
        delayedNext := (s.delayedNext + blockend / V.blksz) % 2 ^ 32 }
    else do
      let mem ← flush V s
      .ok (delay V { s with mem } blknr blockend skipfirst)
  else do
    let mem ← flush V s
    .ok { s with
      previous := noBlock
      mem := storeBytes s.buf (List.replicate (V.blockSize - skipfirst) 0) mem }

def blockEnd (pos len blockcnt i : Nat) : Nat :=
  if i = blockcnt - 1 then
    if (len + pos) % 2 ^ 32 % V.blockSize = 0 then V.blockSize
    else (len + pos) % 2 ^ 32 % V.blockSize
  else V.blockSize

def readStep (inode : Inode) (rounds pos len blockcnt i : Nat) (s : ReadState) :
    Except Halt ReadState :=
  match readAllocatedBlock V inode rounds i with
  | none => .error .endless
  | some block => do
    let skipfirst := if i = pos / V.blockSize then pos % V.blockSize else 0
    let s ← readBlock V s (V.sectorOf block) (blockEnd V pos len blockcnt i - skipfirst) skipfirst
    .ok { s with buf := s.buf + (V.blockSize - skipfirst) }

def readLoop (inode : Inode) (rounds pos len blockcnt : Nat) :
    Nat → Nat → ReadState → Except Halt ReadState
  | 0, _, s => .ok s
  | count + 1, i, s => do
    let s ← readStep V inode rounds pos len blockcnt i s
    readLoop inode rounds pos len blockcnt count (i + 1) s

def ReadState.start (buf : Nat) (mem : Memory) : ReadState := ⟨buf, mem, noBlock, 0, 0, 0, 0, 0⟩

def readBlocks (inode : Inode) (rounds pos len buf : Nat) (mem : Memory) : Except Halt Memory := do
  let blockcnt := (len + pos + V.blockSize - 1) % 2 ^ 32 / V.blockSize
  let first := pos / V.blockSize
  let s ← readLoop V inode rounds pos len blockcnt (blockcnt - first) first (.start buf mem)
  flush V s

def ext4fsReadFile (inode : Inode) (rounds pos : Nat) (len : UInt32) (buf : Nat) (mem : Memory) :
    Option (Int × Memory) :=
  let len := min len.toNat inode.size.toNat
  match readBlocks V inode rounds pos len buf mem with
  | .error .endless => none
  | .error (.failed mem) => some (-1, mem)
  | .ok mem => some (Int.bmod len (2 ^ 32), mem)

end

end UBoot.Ext4
