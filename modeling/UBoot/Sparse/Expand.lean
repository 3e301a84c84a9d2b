import UBoot.Sparse.Image
import UBoot.Sparse.StaysInside

/-!
# Expanding a sparse image

The run of `store_sparse_image` over the chunks of an image, and when what it has
stored is what the image says.
-/

namespace UBoot.Sparse

open LittleEndian Updates Word32 List

variable {img : Image} {mem : Memory} {heap : Nat → UInt8} {storage : SparseStorage}
  {sparse : SparseHeader} {l : Locals}

/-! ## When an image is expanded -/

def HasRoom (storage : SparseStorage) (p blocks : Nat) : Prop :=
  u32 (storage.start + p + blocks) ≤ u32 (storage.start + storage.size)

instance (storage : SparseStorage) (p blocks : Nat) : Decidable (HasRoom storage p blocks) :=
  inferInstanceAs (Decidable (_ ≤ _))

/-- A callback reports the blocks of a raw chunk as a signed number. The bytes of a fill chunk
are counted in 32 bits, and its word fills whole words of a block. -/
def ChunkStored (img : Image) (storage : SparseStorage) (p : Nat) : Chunk → Prop
  | .raw blocks data =>
    img.storageBlocks storage (.raw blocks data) < 2 ^ 31 ∧
      HasRoom storage p (img.storageBlocks storage (.raw blocks data))
  | .fill blocks value =>
    blocks * img.blkSz < 2 ^ 32 ∧ (blocks = 0 ∨ 4 ∣ storage.blockSz) ∧
      HasRoom storage p (img.storageBlocks storage (.fill blocks value))
  | .dontCare _ => True
  | .crc32 _ => True

def ChunksStored (img : Image) (storage : SparseStorage) : Nat → List Chunk → Prop
  | _, [] => True
  | p, c :: cs =>
    ChunkStored img storage p c ∧ ChunksStored img storage (p + img.storageBlocks storage c) cs

def skipped (img : Image) (storage : SparseStorage) : Option Chunk → Option Nat
  | some (.dontCare blocks) => some (img.storageBlocks storage (.dontCare blocks))
  | _ => none

/-- The comparison at the end finds the sizes to agree: the last chunk of several is skipped,
which sets `write_over`, or the value that `write_over` happens to have does it. -/
def SizesAgree (img : Image) (storage : SparseStorage) (writeOver : Nat) : Prop :=
  (skipped img storage img.chunks.tail.getLast?).isSome ∨ writeOver = 0 ∨
    writeOver = u32 ((img.chunks.map (img.storageBlocks storage)).sum -
      (skipped img storage img.chunks.head?).getD 0)

/-! ## The blocks that are taken of a chunk -/

def taken (img : Image) (storage : SparseStorage) : Chunk → Nat
  | .raw blocks data => img.storageBlocks storage (.raw blocks data)
  | .fill blocks _ => u32 (blocks * img.blkSz) / storage.blockSz
  | .dontCare blocks => img.storageBlocks storage (.dontCare blocks)
  | .crc32 sum => img.storageBlocks storage (.crc32 sum)

def fillByte (heap : Nat → UInt8) (blockSz : Nat) (value : List UInt8) (i : Nat) : UInt8 :=
  if i < blockSz / 4 * 4 then value.getD (i % 4) 0 else heap i

def takenBlock (heap : Nat → UInt8) (blockSz : Nat) : Chunk → Nat → List UInt8
  | .raw blocks data, j => Image.block blockSz (Chunk.byte (.raw blocks data)) j
  | .fill _ value, _ => Image.block blockSz (fillByte heap blockSz value) 0
  | .dontCare blocks, j => Image.block blockSz (Chunk.byte (.dontCare blocks)) j
  | .crc32 sum, j => Image.block blockSz (Chunk.byte (.crc32 sum)) j

def chunkWritten (img : Image) (storage : SparseStorage) (heap : Nat → UInt8) (a : Nat) (c : Chunk) :
    List (Nat × List UInt8) :=
  if c.stores then (List.range (taken img storage c)).map fun j =>
    (storage.start + a + j, takenBlock heap storage.blockSz c j) else []

def written (img : Image) (storage : SparseStorage) (heap : Nat → UInt8) :
    Nat → List Chunk → List (Nat × List UInt8)
  | _, [] => []
  | a, c :: cs => chunkWritten img storage heap a c ++ written img storage heap (a + taken img storage c) cs

def ChunkAccepted (img : Image) (storage : SparseStorage) (a : Nat) (c : Chunk) : Prop :=
  c.stores → HasRoom storage a (taken img storage c) ∧
    (c.type = .raw → taken img storage c < 2 ^ 31)

def Accepted (img : Image) (storage : SparseStorage) : Nat → List Chunk → Prop
  | _, [] => True
  | a, c :: cs => ChunkAccepted img storage a c ∧ Accepted img storage (a + taken img storage c) cs

theorem number_lt (p k : Nat) : mem.number p k < 256 ^ k := by
  have h := leValue_lt ((range k).map fun i => mem.byte (p + i))
  rwa [length_map, length_range] at h

theorem taken_le (hdvd : storage.blockSz ∣ img.blkSz) (c : Chunk) :
    taken img storage c ≤ img.storageBlocks storage c := by
  cases c with
  | fill blocks value =>
    rw [taken, Image.storageBlocks, ← Nat.mul_div_assoc _ hdvd]
    refine Nat.div_le_div_right ?_
    rw [u32_eq]
    exact Nat.mod_le _ _
  | raw blocks data => exact le_rfl
  | dontCare blocks => exact le_rfl
  | crc32 sum => exact le_rfl

/-! ## Headers -/

structure HeaderOf (img : Image) (sparse : SparseHeader) : Prop where
  blkSz : sparse.blkSz = img.blkSz
  chunkHdrSz : sparse.chunkHdrSz = img.chunkHdrSz

variable {c : Chunk} {p : Nat}

theorem dataSize_of_held (hhdr : HeaderOf img sparse) (hc : img.ChunkHeld mem p c) :
    sparseGetChunkDataSize sparse (chunkHeader mem p) = c.payload.length := by
  have hlt : (chunkHeader mem p).totalSz < 256 ^ 4 := number_lt _ _
  rw [hc.totalSz] at hlt
  rw [sparseGetChunkDataSize, hc.totalSz, hhdr.chunkHdrSz, u32_eq]
  omega

theorem parse_of_held (hhdr : HeaderOf img sparse) (hc : img.ChunkHeld mem p c)
    (hwf : c.WellFormed img.blkSz) : sparseParseChunk sparse (chunkHeader mem p) = none := by
  have hpos := img.blkSz_pos
  have hsize := dataSize_of_held hhdr hc
  have htype := hc.chunkType
  have hsz := hc.chunkSz
  cases c with
  | raw blocks data =>
    have hlen : data.length = blocks * img.blkSz := hwf
    rw [sparseParseChunk_raw htype, hsize, hsz, hhdr.blkSz, if_neg hpos.ne', if_neg]
    rw [not_or, not_not, not_not]
    simp [Chunk.payload, Chunk.blocks, hlen, Nat.mul_div_cancel _ hpos]
  | fill blocks value =>
    have hlen : value.length = 4 := hwf
    simp [sparseParseChunk, htype, hsize, Chunk.type, Chunk.payload, hlen]
  | dontCare blocks => simp only [sparseParseChunk, htype, Chunk.type]
  | crc32 sum => simp only [sparseParseChunk, htype, Chunk.type]

theorem blockSizeToStorage_of_held (hhdr : HeaderOf img sparse) (hdvd : storage.blockSz ∣ img.blkSz)
    (hc : img.ChunkHeld mem p c) :
    sparseBlockSizeToStorage (chunkHeader mem p).chunkSz storage sparse =
      u32 (img.storageBlocks storage c) := by
  rw [sparseBlockSizeToStorage, hc.chunkSz, hhdr.blkSz, Nat.mul_div_assoc _ hdvd, Image.storageBlocks]

/-! ## Buffers -/

def WritesAll (storage : SparseStorage) : Prop :=
  ∀ offset blocks, storage.write offset blocks = toInt blocks

theorem toInt_of_lt (h : n < 2 ^ 31) : toInt n = n := if_pos h

theorem toInt_neg (h : ¬ n < 2 ^ 31) (hlt : n < 2 ^ 32) : toInt n < 0 := by
  rw [toInt, if_neg h]
  omega

theorem writeBuffer_repeat (hwrite : WritesAll storage) (hbuf : buffer.length / storage.blockSz = 1)
    (start n : Nat) (htotal : total < 2 ^ 32) : writeBuffer storage buffer start n total =
      ((List.range n).map fun j => ⟨u32 (start + total + j), 1, buffer.data⟩,
        .inl (u32 (total + n))) := by
  induction n generalizing total with
  | zero => rw [writeBuffer, Nat.add_zero, u32_of_lt htotal, range_zero, map_nil]
  | succ n ih =>
    have hret : storage.write (u32 (start + total)) 1 = 1 := hwrite _ _
    have hcall (j : Nat) : u32 (start + u32 (total + 1) + j) = u32 (start + total + (j + 1)) := by
      unfold u32
      omega
    have hend : u32 (u32 (total + 1) + n) = u32 (total + (n + 1)) := by
      unfold u32
      omega
    rw [writeBuffer, hbuf, hret]
    simp only [Int.reduceLT, if_false, Int.toNat_one, ih (u32_lt _), hcall, hend]
    rw [range_succ_eq_map, map_cons, map_map, Nat.add_zero]
    rfl

/-! ## Chunks -/

/-- The chunks so far are `a` blocks, of which the first has skipped `ws`. -/
structure Counts (l : Locals) (ws a : Nat) : Prop where
  le : ws ≤ a
  writeStart : l.writeStart = u32 ws
  totalBlocks : l.totalBlocks = u32 (a - ws)

/-- The next chunk goes to the block `a` of the partition. -/
structure At (storage : SparseStorage) (l : Locals) (ws a : Nat) : Prop extends Counts l ws a where
  start : l.start = u32 (storage.start + ws)

variable {ws a : Nat}

section
variable (h : At storage l ws a)
include h

theorem At.place (j : Nat) : u32 (l.start + l.totalBlocks + j) = u32 (storage.start + a + j) := by
  have hle := h.le
  rw [h.start, h.totalBlocks]
  unfold u32
  omega

theorem At.advance (n : Nat) : At storage (l.advance n) ws a :=
  ⟨⟨h.le, h.writeStart, h.totalBlocks⟩, h.start⟩

theorem At.add (data n : Nat) : At storage
    { l with data := data, totalBlocks := u32 (l.totalBlocks + n) } ws (a + n) := by
  have hle := h.le
  refine ⟨⟨by omega, h.writeStart, ?_⟩, h.start⟩
  show u32 (l.totalBlocks + n) = u32 (a + n - ws)
  rw [h.totalBlocks]
  unfold u32
  omega

theorem At.totalBlocks_lt : l.totalBlocks < 2 ^ 32 := by
  rw [h.totalBlocks]
  exact u32_lt _

theorem storeBuffer_spec (hbuf : buffer.length / storage.blockSz * buffer.repeats = n)
    (hlt : n < 2 ^ 32)
    (hcalls : writeBuffer storage buffer l.start buffer.repeats l.totalBlocks = (calls, total)) :
    storeBuffer storage buffer l =
      if HasRoom storage a n then
        (total.elim (fun total => .on { l with totalBlocks := total })
          fun ret => .stopped (.ret ret), calls)
      else (.stopped (.ret (-einval)), []) := by
  have hroom : u32 (storage.start + storage.size) < u32 (l.start + l.totalBlocks + n) ↔
      ¬ HasRoom storage a n := by
    rw [h.place]
    exact Nat.not_le.symm
  rw [storeBuffer, hbuf, u32_of_lt hlt, hcalls]
  simp only [hroom, ite_not]
  cases total with
  | inl total => rfl
  | inr ret => rfl

end

structure Setting (img : Image) (storage : SparseStorage) (sparse : SparseHeader) : Prop where
  header : HeaderOf img sparse
  dvd : storage.blockSz ∣ img.blkSz
  writesAll : WritesAll storage

variable {blocks : Nat} {data : List UInt8}

namespace Setting

theorem blockSz_pos (hs : Setting img storage sparse) : 0 < storage.blockSz :=
  Nat.pos_of_dvd_of_pos hs.dvd img.blkSz_pos

theorem raw_blocks (hs : Setting img storage sparse)
    (hwf : data.length = blocks * img.blkSz) :
    data.length / storage.blockSz = img.storageBlocks storage (.raw blocks data) := by
  rw [hwf, Nat.mul_div_assoc _ hs.dvd]
  rfl

theorem taken_raw_lt (hs : Setting img storage sparse)
    (hc : img.ChunkHeld mem p (.raw blocks data)) (hwf : data.length = blocks * img.blkSz) :
    taken img storage (.raw blocks data) < 2 ^ 32 := by
  have hdata : sparseGetChunkDataSize sparse (chunkHeader mem p) = data.length :=
    dataSize_of_held hs.header hc
  rw [taken, ← hs.raw_blocks hwf, ← hdata]
  exact (Nat.div_le_self _ _).trans_lt (sparseGetChunkDataSize_lt _)

end Setting

theorem u32_place (hfit : a + n ≤ storage.size) (hj : j < n) :
    u32 (storage.start + a + j) = storage.start + a + j := by
  have := storage.end_le
  exact u32_of_lt (by omega)

theorem raw_contents (hs : Setting img storage sparse)
    (hc : img.ChunkHeld mem p (.raw blocks data)) (hwf : data.length = blocks * img.blkSz)
    (hfit : a + img.storageBlocks storage (.raw blocks data) ≤ storage.size) :
    Write.contents storage.blockSz ⟨u32 (storage.start + a),
      img.storageBlocks storage (.raw blocks data), fun i => mem.byte (u32 (p + img.chunkHdrSz) + i)⟩ =
        chunkWritten img storage heap a (.raw blocks data) := by
  have hblocks := hs.raw_blocks hwf
  refine map_congr_left fun j hj => ?_
  have hj : j < img.storageBlocks storage (.raw blocks data) := mem_range.mp hj
  have hplace := u32_place hfit (Nat.zero_lt_of_lt hj)
  rw [Nat.add_zero] at hplace
  refine Prod.ext (congrArg (· + j) hplace) (map_congr_left fun i hi => ?_)
  have hi : i < storage.blockSz := mem_range.mp hi
  refine hc.payload _ ?_
  show j * storage.blockSz + i < data.length
  have hle : (j + 1) * storage.blockSz ≤ data.length / storage.blockSz * storage.blockSz :=
    Nat.mul_le_mul_right _ (by omega)
  have hdiv := Nat.div_mul_le_self data.length storage.blockSz
  rw [Nat.succ_mul] at hle
  omega

theorem fill_contents
    (hc : img.ChunkHeld mem p (.fill blocks value)) (hwf : value.length = 4)
    (hfit : a + taken img storage (.fill blocks value) ≤ storage.size) :
    ((List.range (taken img storage (.fill blocks value))).map fun j =>
      (⟨u32 (storage.start + a + j), 1, fun i => if i < storage.blockSz / 4 * 4 then
        mem.byte (u32 (p + img.chunkHdrSz) + i % 4) else heap i⟩ : Write)).flatMap
        (Write.contents storage.blockSz) = chunkWritten img storage heap a (.fill blocks value) := by
  have hdata : (fun i => if i < storage.blockSz / 4 * 4 then
      mem.byte (u32 (p + img.chunkHdrSz) + i % 4) else heap i) =
        fillByte heap storage.blockSz value := by
    funext i
    have hi : i % 4 < value.length := by
      rw [hwf]
      exact Nat.mod_lt i (by decide)
    rw [fillByte, hc.payload _ hi]
    rfl
  rw [hdata, flatMap_map, chunkWritten, if_pos (show Chunk.stores _ = true from rfl),
    map_eq_flatMap]
  refine flatMap_congr fun j hj => ?_
  have hplace := u32_place hfit (mem_range.mp hj)
  rw [Write.contents, hplace]
  rfl

theorem writeBuffer_raw (hwrite : WritesAll storage) (hbuf : buffer.length / storage.blockSz = n)
    (hlt : n < 2 ^ 32) (start total : Nat) : writeBuffer storage buffer start 1 total =
      ([⟨u32 (start + total), n, buffer.data⟩],
        if n < 2 ^ 31 then .inl (u32 (total + n)) else .inr (toInt n)) := by
  have hret : storage.write (u32 (start + total)) n = toInt n := hwrite _ _
  rw [writeBuffer, hbuf, hret]
  by_cases hsmall : n < 2 ^ 31
  · have hnonneg : ¬ (n : Int) < 0 := by omega
    rw [toInt_of_lt hsmall, if_neg hnonneg, if_pos hsmall, Int.toNat_natCast]
    rfl
  · rw [if_pos (toInt_neg hsmall hlt), if_neg hsmall]

def nextData (img : Image) (l : Locals) (c : Chunk) : Nat :=
  u32 (u32 (l.data + img.chunkHdrSz) + c.payload.length)

theorem nextData_dontCare (img : Image) (l : Locals) (blocks : Nat) :
    nextData img l (.dontCare blocks) = u32 (l.data + img.chunkHdrSz) := u32_of_lt (u32_lt _)

theorem eq_dontCare (h : c.type = .dontCare) : ∃ blocks, c = .dontCare blocks := by
  cases c with
  | dontCare blocks => exact ⟨blocks, rfl⟩
  | raw blocks data => cases h
  | fill blocks value => cases h
  | crc32 sum => cases h

section
variable (hs : Setting img storage sparse) (h : At storage l ws a)
include hs h

theorem storeChunk_raw_held
    (hc : img.ChunkHeld mem l.data (.raw blocks data)) (hwf : data.length = blocks * img.blkSz)
    (chunk : Nat) :
    storeChunk mem heap storage sparse (.on l) chunk =
      if HasRoom storage a (taken img storage (.raw blocks data)) then
        (if taken img storage (.raw blocks data) < 2 ^ 31 then
          .on { l with
            data := nextData img l (.raw blocks data)
            totalBlocks := u32 (l.totalBlocks + taken img storage (.raw blocks data)) }
          else .stopped (.ret (toInt (taken img storage (.raw blocks data)))),
        [⟨u32 (storage.start + a), taken img storage (.raw blocks data),
          fun i => mem.byte (u32 (l.data + img.chunkHdrSz) + i)⟩])
      else (.stopped (.ret (-einval)), []) := by
  have hdata := dataSize_of_held hs.header hc
  have hnext := (h.advance img.chunkHdrSz).advance (Chunk.raw blocks data).payload.length
  have hplace : u32 (l.start + l.totalBlocks) = u32 (storage.start + a) := h.place 0
  have hbuf : (sparseGetRawBuffer mem sparse (chunkHeader mem l.data)
      (u32 (l.data + img.chunkHdrSz))).length / storage.blockSz =
        taken img storage (.raw blocks data) := by
    rw [sparseGetRawBuffer, hdata]
    exact hs.raw_blocks hwf
  have hlt := hs.taken_raw_lt hc hwf
  rw [storeChunk_raw chunk (parse_of_held hs.header hc hwf) hc.chunkType, hdata,
    hs.header.chunkHdrSz, storeBuffer_spec hnext (show _ * 1 = _ from (Nat.mul_one _).trans hbuf) hlt
      (writeBuffer_raw hs.writesAll hbuf hlt _ _)]
  simp only [Locals.start_advance, Locals.totalBlocks_advance, hplace, nextData]
  refine if_congr Iff.rfl ?_ rfl
  split
  · rfl
  · rfl

theorem storeChunk_fill_held
    (hc : img.ChunkHeld mem l.data (.fill blocks value)) (hwf : value.length = 4) (chunk : Nat) :
    storeChunk mem heap storage sparse (.on l) chunk =
      if HasRoom storage a (taken img storage (.fill blocks value)) then
        (.on { l with
          data := nextData img l (.fill blocks value)
          totalBlocks := u32 (l.totalBlocks + taken img storage (.fill blocks value)) },
        (List.range (taken img storage (.fill blocks value))).map fun j =>
          ⟨u32 (storage.start + a + j), 1, fun i => if i < storage.blockSz / 4 * 4 then
            mem.byte (u32 (l.data + img.chunkHdrSz) + i % 4) else heap i⟩)
      else (.stopped (.ret (-einval)), []) := by
  have hdata := dataSize_of_held hs.header hc
  have hnext := (h.advance img.chunkHdrSz).advance (Chunk.fill blocks value).payload.length
  have hlength : (sparseGetFillBuffer mem heap storage sparse (chunkHeader mem l.data)
      (u32 (l.data + img.chunkHdrSz))).length / storage.blockSz = 1 := Nat.div_self hs.blockSz_pos
  have hrepeats : (sparseGetFillBuffer mem heap storage sparse (chunkHeader mem l.data)
      (u32 (l.data + img.chunkHdrSz))).repeats = taken img storage (.fill blocks value) := by
    rw [sparseGetFillBuffer, hc.chunkSz, hs.header.blkSz]
    rfl
  have hbuf := congrArg₂ (· * ·) hlength hrepeats
  rw [Nat.one_mul] at hbuf
  have hlt : taken img storage (.fill blocks value) < 2 ^ 32 :=
    (Nat.div_le_self _ _).trans_lt (u32_lt _)
  rw [storeChunk_fill chunk (parse_of_held hs.header hc hwf) hc.chunkType, hdata,
    hs.header.chunkHdrSz, storeBuffer_spec hnext hbuf hlt
      (writeBuffer_repeat hs.writesAll hlength _ _ hnext.totalBlocks_lt)]
  simp only [Locals.start_advance, Locals.totalBlocks_advance, h.place, hrepeats, nextData]
  rfl

theorem storeChunk_accepted (hc : img.ChunkHeld mem l.data c) (hwf : c.WellFormed img.blkSz)
    (hkind : c.type ≠ .dontCare) (hacc : ChunkAccepted img storage a c)
    (hfit : a + taken img storage c ≤ storage.size) (chunk : Nat) :
    ∃ l' calls, storeChunk mem heap storage sparse (.on l) chunk = (.on l', calls) ∧
      At storage l' ws (a + taken img storage c) ∧ l'.data = nextData img l c ∧
      l'.writeOver = l.writeOver ∧
      calls.flatMap (Write.contents storage.blockSz) = chunkWritten img storage heap a c := by
  cases c with
  | raw blocks data =>
    obtain ⟨hroom, hsmall⟩ := hacc rfl
    rw [storeChunk_raw_held hs h hc hwf, if_pos hroom, if_pos (hsmall rfl)]
    refine ⟨_, _, rfl, h.add _ _, rfl, rfl, ?_⟩
    rw [flatMap_singleton]
    exact raw_contents hs hc hwf hfit
  | fill blocks value =>
    obtain ⟨hroom, -⟩ := hacc rfl
    rw [storeChunk_fill_held hs h hc hwf, if_pos hroom]
    exact ⟨_, _, rfl, h.add _ _, rfl, rfl, fill_contents hc hwf hfit⟩
  | dontCare blocks => exact absurd rfl hkind
  | crc32 sum =>
    have hdata := dataSize_of_held hs.header hc
    have hzero : taken img storage (.crc32 sum) = 0 := Nat.zero_mul _
    rw [storeChunk_crc32 chunk hc.chunkType, hdata, hzero, hs.header.chunkHdrSz]
    exact ⟨_, [], rfl, (h.advance _).advance _, rfl, rfl, rfl⟩

theorem storeChunk_refused (hc : img.ChunkHeld mem l.data c) (hwf : c.WellFormed img.blkSz)
    (hacc : ¬ ChunkAccepted img storage a c) (chunk : Nat) :
    ∃ ret calls, storeChunk mem heap storage sparse (.on l) chunk = (.stopped (.ret ret), calls) ∧
      ret ≠ 0 := by
  cases c with
  | raw blocks data =>
    rw [storeChunk_raw_held hs h hc hwf]
    by_cases hroom : HasRoom storage a (taken img storage (.raw blocks data))
    · have hlarge : ¬ taken img storage (.raw blocks data) < 2 ^ 31 := fun hsmall =>
        hacc fun _ => ⟨hroom, fun _ => hsmall⟩
      rw [if_pos hroom, if_neg hlarge]
      exact ⟨_, _, rfl, (toInt_neg hlarge (hs.taken_raw_lt hc hwf)).ne⟩
    · rw [if_neg hroom]
      exact ⟨_, _, rfl, by decide⟩
  | fill blocks value =>
    have hroom : ¬ HasRoom storage a (taken img storage (.fill blocks value)) := fun hroom =>
      hacc fun _ => ⟨hroom, nofun⟩
    rw [storeChunk_fill_held hs h hc hwf, if_neg hroom]
    exact ⟨_, _, rfl, by decide⟩
  | dontCare blocks => exact absurd nofun hacc
  | crc32 sum => exact absurd nofun hacc

theorem storeChunk_skipped (hc : img.ChunkHeld mem l.data (.dontCare blocks))
    (hfirst : chunk ≠ 0) (hlast : chunk ≠ u32 (sparse.totalChunks + 2 ^ 32 - 1)) :
    ∃ l', storeChunk mem heap storage sparse (.on l) chunk = (.on l', []) ∧
      At storage l' ws (a + img.storageBlocks storage (.dontCare blocks)) ∧
      l'.data = nextData img l (.dontCare blocks) ∧ l'.writeOver = l.writeOver := by
  have hblkcnt := blockSizeToStorage_of_held hs.header hs.dvd hc
  have htotal (n : Nat) : u32 (l.totalBlocks + u32 n) = u32 (l.totalBlocks + n) := by
    unfold u32
    omega
  rw [storeChunk_dontCare chunk hc.chunkType, skipChunk, if_neg hfirst, if_neg hlast, hblkcnt,
    Locals.totalBlocks_advance, htotal, hs.header.chunkHdrSz]
  exact ⟨_, rfl, h.add _ _, (nextData_dontCare img l blocks).symm, rfl⟩

theorem storeChunk_skipped_last (hc : img.ChunkHeld mem l.data (.dontCare blocks))
    (hfirst : chunk ≠ 0) (hlast : chunk = u32 (sparse.totalChunks + 2 ^ 32 - 1)) :
    ∃ l', storeChunk mem heap storage sparse (.on l) chunk = (.on l', []) ∧ At storage l' ws a ∧
      l'.writeOver = u32 (img.storageBlocks storage (.dontCare blocks)) := by
  rw [storeChunk_dontCare chunk hc.chunkType, skipChunk, if_neg hfirst, if_pos hlast,
    blockSizeToStorage_of_held hs.header hs.dvd hc]
  exact ⟨_, rfl, ⟨⟨h.le, h.writeStart, h.totalBlocks⟩, h.start⟩, rfl⟩

end

theorem storeChunk_skipped_first (hs : Setting img storage sparse)
    (hc : img.ChunkHeld mem l.data (.dontCare blocks)) (hstart : l.start < 2 ^ 32)
    (htotal : l.totalBlocks = 0) :
    ∃ l', storeChunk mem heap storage sparse (.on l) 0 = (.on l', []) ∧
      At storage l' (img.storageBlocks storage (.dontCare blocks))
        (img.storageBlocks storage (.dontCare blocks)) ∧
      l'.data = nextData img l (.dontCare blocks) ∧ l'.writeOver = l.writeOver := by
  have hend := storage.end_le
  have hblkcnt := blockSizeToStorage_of_held hs.header hs.dvd hc
  have hdata := (nextData_dontCare img l blocks).symm
  have hzero : (0 : Nat) = u32 (img.storageBlocks storage (.dontCare blocks) -
      img.storageBlocks storage (.dontCare blocks)) := by
    rw [Nat.sub_self, u32_of_lt (by decide)]
  rw [storeChunk_dontCare 0 hc.chunkType, skipChunk, if_pos rfl, hblkcnt, hs.header.chunkHdrSz]
  split
  · refine ⟨_, rfl, ⟨⟨le_rfl, rfl, htotal.trans hzero⟩, ?_⟩, hdata, rfl⟩
    show u32 (u32 (img.storageBlocks storage (.dontCare blocks)) + storage.start) = _
    unfold u32
    omega
  · rename_i hsame
    refine ⟨_, rfl, ⟨⟨le_rfl, rfl, htotal.trans hzero⟩, ?_⟩, hdata, rfl⟩
    rw [not_not, Locals.start_advance] at hsame
    show l.start = _
    unfold u32 at *
    omega

/-! ## Runs -/

theorem run_stopped (stop : Stop) (is : List Nat) :
    ((chunkLoop mem heap storage sparse).run (.stopped stop) is).1 = .stopped stop := by
  induction is with
  | nil => rfl
  | cons i is ih => exact ih

theorem run_step
    (hstep : storeChunk mem heap storage sparse (.on l) i = (loop, calls))
    (hrest : (chunkLoop mem heap storage sparse).run loop is = (loop', rest)) :
    (chunkLoop mem heap storage sparse).run (.on l) (i :: is) = (loop', calls :: rest) := by
  have hnext : (chunkLoop mem heap storage sparse).step (.on l) i = (loop, calls) := hstep
  rw [Machine.run, hnext, hrest]

theorem skipped_getLast_cons (hmore : cs ≠ [] ∨ c.type ≠ .dontCare) :
    skipped img storage (c :: cs).getLast? = skipped img storage cs.getLast? := by
  cases cs with
  | nil =>
    have hkind := hmore.resolve_left fun h => h rfl
    cases c with
    | dontCare blocks => exact absurd rfl hkind
    | raw blocks data => rfl
    | fill blocks value => rfl
    | crc32 sum => rfl
  | cons d ds => rw [getLast?_cons_cons]

/-- The counts after the last chunk `c` and `e` blocks: a chunk that is skipped is counted apart. -/
def EndsAt (img : Image) (storage : SparseStorage) (c : Option Chunk) (writeOver : Nat) (l : Locals)
    (ws e : Nat) : Prop :=
  match skipped img storage c with
  | some n => ∃ a, Counts l ws a ∧ a + n = e ∧ l.writeOver = u32 n
  | none => Counts l ws e ∧ l.writeOver = writeOver

theorem endsAt_cons (hmore : cs ≠ [] ∨ c.type ≠ .dontCare) (writeOver : Nat) (l : Locals)
    (ws e : Nat) : EndsAt img storage (c :: cs).getLast? writeOver l ws e ↔
      EndsAt img storage cs.getLast? writeOver l ws e := by
  rw [EndsAt, skipped_getLast_cons hmore, EndsAt]

def takenSum (img : Image) (storage : SparseStorage) (cs : List Chunk) : Nat :=
  (cs.map (taken img storage)).sum

theorem takenSum_le (hdvd : storage.blockSz ∣ img.blkSz) (cs : List Chunk) :
    takenSum img storage cs ≤ (cs.map (img.storageBlocks storage)).sum :=
  sum_le_sum fun c _ => taken_le hdvd c

section
variable (hs : Setting img storage sparse) (hcount : sparse.totalChunks < 2 ^ 32)
include hs hcount

theorem storeChunk_moves (h : At storage l ws a) (hc : img.ChunkHeld mem l.data c)
    (hwf : c.WellFormed img.blkSz) (hfirst : k ≠ 0 ∨ c.type ≠ .dontCare)
    (hk : k + (cs.length + 1) = sparse.totalChunks) (hmore : cs ≠ [] ∨ c.type ≠ .dontCare)
    (hacc : ChunkAccepted img storage a c) (hfit : a + taken img storage c ≤ storage.size) :
    ∃ l' calls, storeChunk mem heap storage sparse (.on l) k = (.on l', calls) ∧
      At storage l' ws (a + taken img storage c) ∧ l'.data = nextData img l c ∧
      l'.writeOver = l.writeOver ∧
      calls.flatMap (Write.contents storage.blockSz) = chunkWritten img storage heap a c := by
  by_cases hkind : c.type = .dontCare
  · have hk0 : k ≠ 0 := hfirst.resolve_right fun h => h hkind
    have hlen : 0 < cs.length := length_pos_iff.mpr (hmore.resolve_right fun h => h hkind)
    have hlast : k ≠ u32 (sparse.totalChunks + 2 ^ 32 - 1) := by
      unfold u32
      omega
    obtain ⟨blocks, rfl⟩ := eq_dontCare hkind
    obtain ⟨l', hstep, hat, hdata, hover⟩ := storeChunk_skipped hs h hc hk0 hlast
    exact ⟨l', [], hstep, hat, hdata, hover, rfl⟩
  · exact storeChunk_accepted hs h hc hwf hkind hacc hfit k

/-- A run over chunks that are all accepted stores them; any other run stops with an error. -/
theorem run_spec (h : At storage l ws a) (hheld : img.ChunksHeld mem l.data cs)
    (hwf : ∀ c ∈ cs, c.WellFormed img.blkSz) (hfirst : k ≠ 0 ∨ ∀ c ∈ cs.head?, c.type ≠ .dontCare)
    (hk : k + cs.length = sparse.totalChunks)
    (hfit : a + takenSum img storage cs ≤ storage.size) :
    (Accepted img storage a cs ∧ ∃ l' calls,
      (chunkLoop mem heap storage sparse).run (.on l) (List.range' k cs.length) = (.on l', calls) ∧
      calls.flatten.flatMap (Write.contents storage.blockSz) = written img storage heap a cs ∧
      EndsAt img storage cs.getLast? l.writeOver l' ws (a + takenSum img storage cs)) ∨
    (¬ Accepted img storage a cs ∧ ∃ ret, ret ≠ 0 ∧
      ((chunkLoop mem heap storage sparse).run (.on l) (List.range' k cs.length)).1 =
        .stopped (.ret ret)) := by
  induction cs generalizing k l a with
  | nil => exact .inl ⟨trivial, l, [], rfl, rfl, h.toCounts, rfl⟩
  | cons c cs ih =>
    rw [length_cons] at hk
    rw [takenSum, map_cons, sum_cons, ← takenSum, ← Nat.add_assoc] at hfit ⊢
    obtain ⟨hcwf, hwfs⟩ := forall_mem_cons.mp hwf
    obtain ⟨hc, hcs⟩ := hheld
    have hskip : k ≠ 0 ∨ c.type ≠ .dontCare := hfirst.imp_right fun h => h c rfl
    rw [length_cons, range'_succ]
    by_cases hcacc : ChunkAccepted img storage a c
    · by_cases hmore : cs ≠ [] ∨ c.type ≠ .dontCare
      · obtain ⟨l₁, calls, hstep, hat, hdata, hover, hcall⟩ :=
          storeChunk_moves hs hcount h hc hcwf hskip hk hmore hcacc (by omega)
        obtain ⟨hacc, l', rest, hrun, hcontents, hends⟩ | ⟨hacc, ret, hret, hrun⟩ :=
          ih hat (hdata ▸ hcs) hwfs (.inl (Nat.succ_ne_zero k)) (by omega) hfit
        · refine .inl ⟨⟨hcacc, hacc⟩, l', _, run_step hstep hrun, ?_,
            (endsAt_cons hmore _ _ _ _).mpr (hover ▸ hends)⟩
          rw [flatten_cons, flatMap_append, hcall, hcontents, written]
        · refine .inr ⟨fun h => hacc h.2, ret, hret, ?_⟩
          rw [run_step hstep rfl]
          exact hrun
      · obtain ⟨hnil, hkind⟩ := not_or.mp hmore
        rw [not_not] at hnil hkind
        subst hnil
        have hk0 : k ≠ 0 := hskip.resolve_right fun h => h hkind
        have hlast : k = u32 (sparse.totalChunks + 2 ^ 32 - 1) := by
          rw [length_nil] at hk
          unfold u32
          omega
        obtain ⟨blocks, rfl⟩ := eq_dontCare hkind
        obtain ⟨l', hstep, hat, hover⟩ := storeChunk_skipped_last hs h hc hk0 hlast
        exact .inl ⟨⟨hcacc, trivial⟩, l', _, run_step hstep rfl, rfl, a, hat.toCounts, rfl, hover⟩
    · obtain ⟨ret, calls, hstep, hret⟩ := storeChunk_refused hs h hc hcwf hcacc k
      refine .inr ⟨fun h => hcacc h.1, ret, hret, ?_⟩
      rw [run_step hstep rfl]
      exact run_stopped _ _

end

end UBoot.Sparse
