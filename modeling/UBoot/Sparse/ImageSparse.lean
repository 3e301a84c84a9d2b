import UBoot.Lib.LittleEndian
import UBoot.Lib.Machine
import UBoot.Lib.Word32

/-!
# Sparse images

`store_sparse_image` of `drivers/usb/gadget/image-sparse.c`: a download is read
where it lies in memory and written to a partition chunk by chunk. Allocations
succeed; what an allocation holds before it is filled is a parameter, and so is
what `write_over` holds before it is set.
-/

namespace UBoot.Sparse

open LittleEndian Word32

abbrev Memory := Nat → UInt8

namespace Memory

def byte (mem : Memory) (p : Nat) : UInt8 := mem (u32 p)

def number (mem : Memory) (p k : Nat) : Nat := leValue ((List.range k).map fun i => mem.byte (p + i))

end Memory

structure SparseStorage where
  blockSz : Nat
  start : Nat
  size : Nat
  write : Nat → Nat → Int
  blockSz_lt : blockSz < 2 ^ 32
  start_lt : start < 2 ^ 32
  end_le : start + size ≤ 2 ^ 32
  write_le : ∀ offset blocks, write offset blocks ≤ blocks

structure SparseHeader where
  fileHdrSz : Nat
  chunkHdrSz : Nat
  blkSz : Nat
  totalBlks : Nat
  totalChunks : Nat

def sparseHeader (mem : Memory) (data : Nat) : SparseHeader where
  fileHdrSz := mem.number (data + 8) 2
  chunkHdrSz := mem.number (data + 10) 2
  blkSz := mem.number (data + 12) 4
  totalBlks := mem.number (data + 16) 4
  totalChunks := mem.number (data + 20) 4

inductive ChunkType
  | raw
  | fill
  | dontCare
  | crc32
  deriving DecidableEq

def ChunkType.ofCode : Nat → Option ChunkType
  | 0xcac1 => some .raw
  | 0xcac2 => some .fill
  | 0xcac3 => some .dontCare
  | 0xcac4 => some .crc32
  | _ => none

structure ChunkHeader where
  chunkType : Option ChunkType
  chunkSz : Nat
  totalSz : Nat

def chunkHeader (mem : Memory) (data : Nat) : ChunkHeader where
  chunkType := ChunkType.ofCode (mem.number data 2)
  chunkSz := mem.number (data + 4) 4
  totalSz := mem.number (data + 8) 4

inductive Stop
  | ret (value : Int)
  | divByZero
  deriving DecidableEq

def eio : Int := 5
def einval : Int := 22

/-! ## Chunks -/

def sparseGetChunkDataSize (sparse : SparseHeader) (chunk : ChunkHeader) : Nat :=
  u32 (chunk.totalSz + 2 ^ 32 - sparse.chunkHdrSz)

def sparseBlockSizeToStorage (size : Nat) (storage : SparseStorage) (sparse : SparseHeader) : Nat :=
  u32 (size * sparse.blkSz / storage.blockSz)

def sparseParseChunk (sparse : SparseHeader) (chunk : ChunkHeader) : Option Stop :=
  let dataSz := sparseGetChunkDataSize sparse chunk
  match chunk.chunkType with
  | some .raw =>
    if sparse.blkSz = 0 then some .divByZero
    else if dataSz % sparse.blkSz ≠ 0 then some (.ret (-einval))
    else if dataSz / sparse.blkSz ≠ chunk.chunkSz then some (.ret (-einval))
    else none
  | some .fill => if dataSz ≠ 4 then some (.ret (-einval)) else none
  | some .dontCare => none
  | some .crc32 => none
  | none => some (.ret (-einval))

structure SparseBuffer where
  data : Nat → UInt8
  length : Nat
  repeats : Nat

section
variable (mem : Memory) (heap : Nat → UInt8) (storage : SparseStorage)

def sparseGetFillBuffer (sparse : SparseHeader) (chunk : ChunkHeader) (data : Nat) : SparseBuffer where
  data i := if i < storage.blockSz / 4 * 4 then mem.byte (data + i % 4) else heap i
  length := storage.blockSz
  repeats := u32 (chunk.chunkSz * sparse.blkSz) / storage.blockSz

def sparseGetRawBuffer (sparse : SparseHeader) (chunk : ChunkHeader) (data : Nat) : SparseBuffer where
  data i := mem.byte (data + i)
  length := sparseGetChunkDataSize sparse chunk
  repeats := 1

def sparseGetDataBuffer (sparse : SparseHeader) (chunk : ChunkHeader) (data : Nat) :
    Option SparseBuffer :=
  match chunk.chunkType with
  | some .raw => some (sparseGetRawBuffer mem sparse chunk data)
  | some .fill => some (sparseGetFillBuffer mem heap storage sparse chunk data)
  | _ => none

structure Write where
  offset : Nat
  blocks : Nat
  data : Nat → UInt8

def writeBuffer (buffer : SparseBuffer) (start : Nat) : Nat → Nat → List Write × (Nat ⊕ Int)
  | 0, total => ([], .inl total)
  | n + 1, total =>
    let call : Write := ⟨u32 (start + total), buffer.length / storage.blockSz, buffer.data⟩
    let ret := storage.write call.offset call.blocks
    if ret < 0 then ([call], .inr ret)
    else
      let rest := writeBuffer buffer start n (u32 (total + ret.toNat))
      (call :: rest.1, rest.2)

structure Locals where
  data : Nat
  start : Nat
  writeStart : Nat
  writeOver : Nat
  totalBlocks : Nat

inductive Loop
  | on (l : Locals)
  | stopped (stop : Stop)

def skipChunk (sparse : SparseHeader) (header : ChunkHeader) (chunk : Nat) (l : Locals) : Locals :=
  let blkcnt := sparseBlockSizeToStorage header.chunkSz storage sparse
  if chunk = 0 then
    if u32 (l.start + 2 ^ 32 - storage.start) ≠ blkcnt then
      { l with writeStart := blkcnt, start := u32 (blkcnt + storage.start) }
    else { l with writeStart := blkcnt }
  else if chunk = u32 (sparse.totalChunks + 2 ^ 32 - 1) then { l with writeOver := blkcnt }
  else { l with totalBlocks := u32 (l.totalBlocks + blkcnt) }

def storeBuffer (buffer : SparseBuffer) (l : Locals) : Loop × List Write :=
  let blkcnt := u32 (buffer.length / storage.blockSz * buffer.repeats)
  if u32 (storage.start + storage.size) < u32 (l.start + l.totalBlocks + blkcnt) then
    (.stopped (.ret (-einval)), [])
  else
    match writeBuffer storage buffer l.start buffer.repeats l.totalBlocks with
    | (calls, .inl total) => (.on { l with totalBlocks := total }, calls)
    | (calls, .inr ret) => (.stopped (.ret ret), calls)

def Locals.advance (l : Locals) (n : Nat) : Locals := { l with data := u32 (l.data + n) }

def storeChunk (sparse : SparseHeader) : Loop → Nat → Loop × List Write
  | .stopped stop, _ => (.stopped stop, [])
  | .on l, chunk =>
    let header := chunkHeader mem l.data
    match sparseParseChunk sparse header with
    | some stop => (.stopped stop, [])
    | none =>
      let l := l.advance sparse.chunkHdrSz
      if header.chunkType = some .dontCare then (.on (skipChunk storage sparse header chunk l), [])
      else
        let next := l.advance (sparseGetChunkDataSize sparse header)
        match sparseGetDataBuffer mem heap storage sparse header l.data with
        | none => (.on next, [])
        | some buffer => storeBuffer storage buffer next

def chunkLoop (sparse : SparseHeader) : Machine Loop Nat (List Write) :=
  ⟨storeChunk mem heap storage sparse⟩

end

@[simp] theorem Locals.data_advance (l : Locals) (n : Nat) : (l.advance n).data = u32 (l.data + n) := rfl
@[simp] theorem Locals.start_advance (l : Locals) (n : Nat) : (l.advance n).start = l.start := rfl
@[simp] theorem Locals.totalBlocks_advance (l : Locals) (n : Nat) :
    (l.advance n).totalBlocks = l.totalBlocks := rfl

section
variable {mem : Memory} {heap : Nat → UInt8} {storage : SparseStorage} {sparse : SparseHeader}
  {l : Locals}

theorem storeChunk_stop (chunk : Nat)
    (h : sparseParseChunk sparse (chunkHeader mem l.data) = some stop) :
    storeChunk mem heap storage sparse (.on l) chunk = (.stopped stop, []) := by
  simp [storeChunk, h]

section
variable (chunk : Nat) (h : sparseParseChunk sparse (chunkHeader mem l.data) = none)
include h

theorem storeChunk_raw (htype : (chunkHeader mem l.data).chunkType = some .raw) :
    storeChunk mem heap storage sparse (.on l) chunk =
      storeBuffer storage
        (sparseGetRawBuffer mem sparse (chunkHeader mem l.data) (u32 (l.data + sparse.chunkHdrSz)))
        ((l.advance sparse.chunkHdrSz).advance
          (sparseGetChunkDataSize sparse (chunkHeader mem l.data))) := by
  simp [storeChunk, h, htype, sparseGetDataBuffer, Locals.data_advance]

theorem storeChunk_fill (htype : (chunkHeader mem l.data).chunkType = some .fill) :
    storeChunk mem heap storage sparse (.on l) chunk =
      storeBuffer storage
        (sparseGetFillBuffer mem heap storage sparse (chunkHeader mem l.data)
          (u32 (l.data + sparse.chunkHdrSz)))
        ((l.advance sparse.chunkHdrSz).advance
          (sparseGetChunkDataSize sparse (chunkHeader mem l.data))) := by
  simp [storeChunk, h, htype, sparseGetDataBuffer, Locals.data_advance]

end

theorem storeChunk_dontCare (chunk : Nat)
    (htype : (chunkHeader mem l.data).chunkType = some .dontCare) :
    storeChunk mem heap storage sparse (.on l) chunk =
      (.on (skipChunk storage sparse (chunkHeader mem l.data) chunk (l.advance sparse.chunkHdrSz)),
        []) := by
  simp [storeChunk, sparseParseChunk, htype]

theorem storeChunk_crc32 (chunk : Nat)
    (htype : (chunkHeader mem l.data).chunkType = some .crc32) :
    storeChunk mem heap storage sparse (.on l) chunk =
      (.on ((l.advance sparse.chunkHdrSz).advance
        (sparseGetChunkDataSize sparse (chunkHeader mem l.data))), []) := by
  simp [storeChunk, sparseParseChunk, htype, sparseGetDataBuffer]

end

/-! ## Images -/

structure Outcome where
  stop : Stop
  writes : List Write
  lastOffset : Nat

def sizesDiffer (storage : SparseStorage) (sparse : SparseHeader) (l : Locals) : Bool :=
  let rest := u32 (sparseBlockSizeToStorage sparse.totalBlks storage sparse + 2 ^ 33
    - l.writeStart - l.writeOver)
  l.totalBlocks ≠ rest ∧ rest ≠ 0

def finishImage (storage : SparseStorage) (sparse : SparseHeader) (lastOffset : Nat)
    (writes : List Write) : Loop → Outcome
  | .stopped stop => ⟨stop, writes, lastOffset⟩
  | .on l =>
    if sizesDiffer storage sparse l then ⟨.ret (-eio), writes, lastOffset⟩
    else ⟨.ret 0, writes, u32 (l.start + l.totalBlocks)⟩

/-- The variables before the first chunk. A session goes on where the last one has ended if
the image starts with a chunk to skip. -/
def firstLocals (mem : Memory) (storage : SparseStorage) (sessionId data lastOffset writeOver : UInt32) :
    Locals :=
  let first := u32 (data.toNat + (sparseHeader mem data.toNat).fileHdrSz)
  let start :=
    if 0 < sessionId ∧ (chunkHeader mem first).chunkType = some .dontCare then lastOffset.toNat
    else storage.start
  ⟨first, start, 0, writeOver.toNat, 0⟩

def storeSparseImage (mem : Memory) (heap : Nat → UInt8) (storage : SparseStorage)
    (sessionId data lastOffset writeOver : UInt32) : Outcome :=
  let sparse := sparseHeader mem data.toNat
  if storage.blockSz = 0 then ⟨.divByZero, [], lastOffset.toNat⟩
  else if sparse.blkSz % storage.blockSz ≠ 0 then ⟨.ret (-einval), [], lastOffset.toNat⟩
  else
    let run := (chunkLoop mem heap storage sparse).run
      (.on (firstLocals mem storage sessionId data lastOffset writeOver))
      (List.range sparse.totalChunks)
    finishImage storage sparse lastOffset.toNat run.2.flatten run.1

end UBoot.Sparse
