import UBoot.Lib.Updates
import UBoot.Sparse.ImageSparse

/-!
# What a sparse image is for

An image is a list of chunks with their payloads. It is held in memory behind a
header, and it says which blocks of a partition are to get which bytes.
-/

namespace UBoot.Sparse

open Updates Word32

inductive Chunk
  | raw (blocks : Nat) (data : List UInt8)
  | fill (blocks : Nat) (value : List UInt8)
  | dontCare (blocks : Nat)
  | crc32 (sum : List UInt8)

namespace Chunk

def type : Chunk → ChunkType
  | .raw .. => .raw
  | .fill .. => .fill
  | .dontCare _ => .dontCare
  | .crc32 _ => .crc32

def blocks : Chunk → Nat
  | .raw blocks _ => blocks
  | .fill blocks _ => blocks
  | .dontCare blocks => blocks
  | .crc32 _ => 0

def payload : Chunk → List UInt8
  | .raw _ data => data
  | .fill _ value => value
  | .dontCare _ => []
  | .crc32 sum => sum

def WellFormed (blkSz : Nat) : Chunk → Prop
  | .raw blocks data => data.length = blocks * blkSz
  | .fill _ value => value.length = 4
  | .dontCare _ => True
  | .crc32 sum => sum.length = 4

def stores : Chunk → Bool
  | .raw .. => true
  | .fill .. => true
  | .dontCare _ => false
  | .crc32 _ => false

def byte : Chunk → Nat → UInt8
  | .raw _ data, i => data.getD i 0
  | .fill _ value, i => value.getD (i % 4) 0
  | _, _ => 0

end Chunk

structure Image where
  fileHdrSz : Nat
  chunkHdrSz : Nat
  blkSz : Nat
  chunks : List Chunk
  blkSz_pos : 0 < blkSz
  four_dvd : 4 ∣ blkSz
  wellFormed : ∀ c ∈ chunks, c.WellFormed blkSz

namespace Image

variable (img : Image) (mem : Memory)

def totalBlks : Nat := (img.chunks.map Chunk.blocks).sum

/-! ## In memory -/

structure ChunkHeld (p : Nat) (c : Chunk) : Prop where
  chunkType : (chunkHeader mem p).chunkType = some c.type
  chunkSz : (chunkHeader mem p).chunkSz = c.blocks
  totalSz : (chunkHeader mem p).totalSz = img.chunkHdrSz + c.payload.length
  payload : ∀ i < c.payload.length,
    mem.byte (u32 (p + img.chunkHdrSz) + i) = c.payload.getD i 0

def ChunksHeld : Nat → List Chunk → Prop
  | _, [] => True
  | p, c :: cs => img.ChunkHeld mem p c ∧
      ChunksHeld (u32 (u32 (p + img.chunkHdrSz) + c.payload.length)) cs

structure Held (data : Nat) : Prop where
  fileHdrSz : (sparseHeader mem data).fileHdrSz = img.fileHdrSz
  chunkHdrSz : (sparseHeader mem data).chunkHdrSz = img.chunkHdrSz
  blkSz : (sparseHeader mem data).blkSz = img.blkSz
  totalBlks : (sparseHeader mem data).totalBlks = img.totalBlks
  totalChunks : (sparseHeader mem data).totalChunks = img.chunks.length
  chunks : img.ChunksHeld mem (u32 (data + img.fileHdrSz)) img.chunks

/-! ## On a partition -/

variable (storage : SparseStorage)

def storageBlocks (c : Chunk) : Nat := c.blocks * (img.blkSz / storage.blockSz)

structure Fits : Prop where
  dvd : storage.blockSz ∣ img.blkSz
  size : (img.chunks.map (img.storageBlocks storage)).sum ≤ storage.size

def block (blockSz : Nat) (bytes : Nat → UInt8) (j : Nat) : List UInt8 :=
  (List.range blockSz).map fun i => bytes (j * blockSz + i)

/-- The blocks from `p` on that chunks store, with what they store. -/
def expected : Nat → List Chunk → List (Nat × List UInt8)
  | _, [] => []
  | p, c :: cs =>
    (if c.stores then (List.range (img.storageBlocks storage c)).map fun j =>
      (storage.start + p + j, block storage.blockSz c.byte j) else []) ++
      expected (p + img.storageBlocks storage c) cs

end Image

def Write.contents (blockSz : Nat) (w : Write) : List (Nat × List UInt8) :=
  (List.range w.blocks).map fun j => (w.offset + j, Image.block blockSz w.data j)

def Outcome.disk (storage : SparseStorage) (o : Outcome) (disk : Nat → List UInt8) :
    Nat → List UInt8 :=
  updates (o.writes.flatMap (Write.contents storage.blockSz)) disk

def Outcome.Expands (storage : SparseStorage) (img : Image) (o : Outcome) : Prop :=
  o.stop = .ret 0 ∧ ∀ disk,
    (∀ e ∈ img.expected storage 0 img.chunks, o.disk storage disk e.1 = e.2) ∧
    ∀ b, (∀ e ∈ img.expected storage 0 img.chunks, e.1 ≠ b) → o.disk storage disk b = disk b

end UBoot.Sparse
