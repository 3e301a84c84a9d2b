import UBoot.Sparse.ImageSparse

/-!
# Sparse images that stay inside their partition

The end of a chunk is compared with the end of the partition after it has been
reduced to 32 bits, and the start of a chunk is not compared at all. A chunk that
leaves the partition is refused unless its end wraps around.
-/

namespace UBoot.Sparse

open LittleEndian Word32

variable {mem : Memory} {heap : Nat → UInt8} {storage : SparseStorage} {sparse : SparseHeader}

/-! ## What is asked of a call, and of a chunk -/

def Write.Inside (storage : SparseStorage) (w : Write) : Prop :=
  ∀ b, w.offset ≤ b → b < w.offset + w.blocks →
    storage.start ≤ b ∧ b < storage.start + storage.size

def Outcome.StaysInside (storage : SparseStorage) (o : Outcome) : Prop :=
  o.stop ≠ .divByZero ∧ ∀ w ∈ o.writes, w.Inside storage

def Locals.position (l : Locals) : Nat := u32 (l.start + l.totalBlocks)

def Exceeds (storage : SparseStorage) (l : Locals) (blocks : Nat) : Prop :=
  storage.start + storage.size < u32 (l.position + blocks)

instance (storage : SparseStorage) (l : Locals) (blocks : Nat) :
    Decidable (Exceeds storage l blocks) :=
  inferInstanceAs (Decidable (_ < _))

def rawBlocks (storage : SparseStorage) (sparse : SparseHeader) (header : ChunkHeader) : Nat :=
  sparseGetChunkDataSize sparse header / storage.blockSz

def fillBlocks (storage : SparseStorage) (sparse : SparseHeader) (header : ChunkHeader) : Nat :=
  u32 (header.chunkSz * sparse.blkSz) / storage.blockSz

def RawSafe (storage : SparseStorage) (sparse : SparseHeader) (l : Locals) (header : ChunkHeader) :
    Prop :=
  let dataSz := sparseGetChunkDataSize sparse header
  let blocks := rawBlocks storage sparse header
  sparse.blkSz ≠ 0 ∧
    (dataSz % sparse.blkSz ≠ 0 ∨ dataSz / sparse.blkSz ≠ header.chunkSz ∨ blocks = 0 ∨
      Exceeds storage l blocks ∨
      storage.start ≤ l.position ∧ l.position + blocks ≤ storage.start + storage.size)

/-- A fill chunk is malformed or empty, seen to exceed the partition, in it, or the callback
does not take one of its blocks before the end of the partition. -/
def FillSafe (storage : SparseStorage) (sparse : SparseHeader) (l : Locals) (header : ChunkHeader) :
    Prop :=
  let blocks := fillBlocks storage sparse header
  sparseGetChunkDataSize sparse header ≠ 4 ∨ blocks = 0 ∨ Exceeds storage l blocks ∨
    storage.start ≤ l.position ∧ (l.position + blocks ≤ storage.start + storage.size ∨
      ∃ i, l.position + i < storage.start + storage.size ∧ storage.write (l.position + i) 1 ≤ 0)

def ChunkSafe (mem : Memory) (storage : SparseStorage) (sparse : SparseHeader) :
    Loop → Nat → Prop
  | .stopped stop, _ => stop ≠ .divByZero
  | .on l, _ =>
    match (chunkHeader mem l.data).chunkType with
    | some .raw => RawSafe storage sparse l (chunkHeader mem l.data)
    | some .fill => FillSafe storage sparse l (chunkHeader mem l.data)
    | _ => True

/-! ## Buffers -/

theorem inside_iff {w : Write} : w.Inside storage ↔
    w.blocks = 0 ∨ storage.start ≤ w.offset ∧ w.offset + w.blocks ≤ storage.start + storage.size := by
  constructor
  · intro h
    obtain hzero | hpos := Nat.eq_zero_or_pos w.blocks
    · exact .inl hzero
    · have hfirst := h w.offset (Nat.le_refl _) (by omega)
      have hlast := h (w.offset + w.blocks - 1) (by omega) (by omega)
      omega
  · rintro (hzero | ⟨hstart, hend⟩) b hle hlt <;> omega

theorem writeBuffer_inside_iff (hsize : storage.start + storage.size < 2 ^ 32)
    (hbuf : buffer.length / storage.blockSz = 1) (n total : Nat) :
    (∀ w ∈ (writeBuffer storage buffer start n total).1, w.Inside storage) ↔
      n = 0 ∨ storage.start ≤ u32 (start + total) ∧
        (u32 (start + total) + n ≤ storage.start + storage.size ∨
          ∃ i, u32 (start + total) + i < storage.start + storage.size ∧
            storage.write (u32 (start + total) + i) 1 ≤ 0) := by
  induction n generalizing total with
  | zero => simp [writeBuffer]
  | succ n ih =>
    rw [writeBuffer, hbuf]
    generalize hp : u32 (start + total) = p at *
    have hle := storage.write_le p 1
    have hcall : Write.Inside storage ⟨p, 1, buffer.data⟩ ↔
        storage.start ≤ p ∧ p + 1 ≤ storage.start + storage.size :=
      inside_iff.trans (or_iff_right Nat.one_ne_zero)
    obtain hneg | hzero | hone : storage.write p 1 < 0 ∨ storage.write p 1 = 0 ∨
        storage.write p 1 = 1 := by omega
    · -- an error ends the loop
      simp only [hneg, if_true, List.forall_mem_singleton, hcall]
      constructor
      · rintro ⟨hstart, hend⟩
        exact .inr ⟨hstart, .inr ⟨0, hend, hneg.le⟩⟩
      · rintro (h | ⟨hstart, h | ⟨i, hi, -⟩⟩) <;> omega
    · -- nothing was written, and the next call is for the same block
      have hsame : u32 (start + u32 (total + (0 : Int).toNat)) = p := by
        rw [← hp]
        unfold u32
        simp
      simp only [hzero, lt_self_iff_false, if_false, List.forall_mem_cons, hcall, ih, hsame]
      constructor
      · rintro ⟨⟨hstart, hend⟩, -⟩
        exact .inr ⟨hstart, .inr ⟨0, hend, hzero.le⟩⟩
      · rintro (h | ⟨hstart, h | ⟨i, hi, hw⟩⟩)
        · omega
        · exact ⟨⟨hstart, by omega⟩, .inr ⟨hstart, .inl (by omega)⟩⟩
        · exact ⟨⟨hstart, by omega⟩, .inr ⟨hstart, .inr ⟨i, hi, hw⟩⟩⟩
    · have hnext (h : p + 1 ≤ storage.start + storage.size) :
          u32 (start + u32 (total + (1 : Int).toNat)) = p + 1 := by
        have : (1 : Int).toNat = 1 := rfl
        unfold u32 at *
        omega
      simp only [hone, Int.reduceLT, if_false, List.forall_mem_cons, hcall, ih]
      constructor
      · rintro ⟨⟨hstart, hend⟩, h⟩
        rw [hnext hend] at h
        refine .inr ⟨hstart, ?_⟩
        obtain rfl | ⟨-, h | ⟨i, hi, hw⟩⟩ := h
        · exact .inl hend
        · exact .inl (by omega)
        · exact .inr ⟨i + 1, by omega, by rwa [Nat.add_right_comm] at hw⟩
      · rintro (h | ⟨hstart, h⟩)
        · omega
        have hend : p + 1 ≤ storage.start + storage.size := by
          obtain h | ⟨i, hi, -⟩ := h <;> omega
        rw [hnext hend]
        refine ⟨⟨hstart, hend⟩, .inr ⟨by omega, ?_⟩⟩
        obtain h | ⟨i, hi, hw⟩ := h
        · exact .inl (by omega)
        · cases i with
          | zero =>
            rw [Nat.add_zero, hone] at hw
            omega
          | succ i => exact .inr ⟨i, by omega, by rwa [Nat.add_right_comm]⟩

theorem writeBuffer_one (buffer : SparseBuffer) (start total : Nat) :
    (writeBuffer storage buffer start 1 total).1 =
      [⟨u32 (start + total), buffer.length / storage.blockSz, buffer.data⟩] := by
  rw [writeBuffer]
  simp only [writeBuffer]
  split <;> rfl

theorem rawBuffer_calls (header : ChunkHeader) (p : Nat) (l : Locals) :
    (writeBuffer storage (sparseGetRawBuffer mem sparse header p) l.start
      (sparseGetRawBuffer mem sparse header p).repeats l.totalBlocks).1 =
        [⟨l.position, rawBlocks storage sparse header, fun i => mem.byte (p + i)⟩] :=
  writeBuffer_one _ _ _

theorem exceeds_iff (hsize : storage.start + storage.size < 2 ^ 32) (l : Locals)
    (hblocks : blocks < 2 ^ 32) :
    u32 (storage.start + storage.size) < u32 (l.start + l.totalBlocks + u32 blocks) ↔
      Exceeds storage l blocks := by
  rw [Exceeds, Locals.position, u32_of_lt hsize, u32_of_lt hblocks]
  unfold u32
  rw [Nat.mod_add_mod]

def StepInside (storage : SparseStorage) (r : Loop × List Write) : Prop :=
  (∀ w ∈ r.2, w.Inside storage) ∧ r.1 ≠ .stopped .divByZero

theorem stepInside_storeBuffer (hsize : storage.start + storage.size < 2 ^ 32)
    (hblocks : buffer.length / storage.blockSz * buffer.repeats = blocks)
    (hlt : blocks < 2 ^ 32)
    (hcalls : (∀ w ∈ (writeBuffer storage buffer l.start buffer.repeats l.totalBlocks).1,
      w.Inside storage) ↔ blocks = 0 ∨ P) (hdr data : Nat) :
    StepInside storage (storeBuffer storage buffer ((l.advance hdr).advance data)) ↔
      blocks = 0 ∨ Exceeds storage l blocks ∨ P := by
  rw [StepInside, storeBuffer, hblocks]
  simp only [exceeds_iff hsize _ hlt, Locals.start_advance, Locals.totalBlocks_advance]
  by_cases hexceeds : Exceeds storage l blocks
  · rw [if_pos hexceeds]
    exact iff_of_true ⟨by simp, by simp⟩ (.inr (.inl hexceeds))
  · rw [if_neg hexceeds, or_iff_right hexceeds, ← hcalls]
    split <;> rename_i heq <;> simp [heq]

/-! ## Chunks -/

theorem sparseGetChunkDataSize_lt (header : ChunkHeader) :
    sparseGetChunkDataSize sparse header < 2 ^ 32 := u32_lt _

theorem sparseParseChunk_raw (htype : header.chunkType = some .raw) :
    sparseParseChunk sparse header =
      if sparse.blkSz = 0 then some .divByZero
      else if sparseGetChunkDataSize sparse header % sparse.blkSz ≠ 0 ∨
          sparseGetChunkDataSize sparse header / sparse.blkSz ≠ header.chunkSz then
        some (.ret (-einval))
      else none := by
  simp only [sparseParseChunk, htype]
  split_ifs <;> simp_all

variable {l : Locals}

section
variable (hsize : storage.start + storage.size < 2 ^ 32)
include hsize

theorem stepInside_raw (htype : (chunkHeader mem l.data).chunkType = some .raw) (chunk : Nat) :
    StepInside storage (storeChunk mem heap storage sparse (.on l) chunk) ↔
      RawSafe storage sparse l (chunkHeader mem l.data) := by
  have hparse : sparseParseChunk sparse _ = _ := sparseParseChunk_raw htype
  rw [RawSafe]
  by_cases hzero : sparse.blkSz = 0
  · rw [if_pos hzero] at hparse
    rw [storeChunk_stop chunk hparse]
    exact iff_of_false (fun h => h.2 rfl) fun h => h.1 hzero
  rw [if_neg hzero] at hparse
  by_cases hbad : sparseGetChunkDataSize sparse (chunkHeader mem l.data) % sparse.blkSz ≠ 0 ∨
      sparseGetChunkDataSize sparse (chunkHeader mem l.data) / sparse.blkSz ≠
        (chunkHeader mem l.data).chunkSz
  · rw [if_pos hbad] at hparse
    rw [storeChunk_stop chunk hparse]
    refine iff_of_true ⟨by simp, by simp⟩ ⟨hzero, ?_⟩
    exact hbad.elim .inl fun h => .inr (.inl h)
  · rw [if_neg hbad] at hparse
    rw [storeChunk_raw chunk hparse htype]
    have hlt : rawBlocks storage sparse (chunkHeader mem l.data) < 2 ^ 32 :=
      (Nat.div_le_self _ _).trans_lt (sparseGetChunkDataSize_lt _)
    rw [not_or, not_not, not_not] at hbad
    simp only [hbad.1, hbad.2, ne_eq, hzero, not_true_eq_false, not_false_eq_true, false_or, true_and]
    refine stepInside_storeBuffer hsize (Nat.mul_one _) hlt ?_ _ _
    rw [rawBuffer_calls, List.forall_mem_singleton]
    exact inside_iff

theorem stepInside_fill (hblock : storage.blockSz ≠ 0)
    (htype : (chunkHeader mem l.data).chunkType = some .fill) (chunk : Nat) :
    StepInside storage (storeChunk mem heap storage sparse (.on l) chunk) ↔
      FillSafe storage sparse l (chunkHeader mem l.data) := by
  rw [FillSafe]
  by_cases hbad : sparseGetChunkDataSize sparse (chunkHeader mem l.data) ≠ 4
  · have hparse : sparseParseChunk sparse (chunkHeader mem l.data) = some (.ret (-einval)) := by
      simp [sparseParseChunk, htype, hbad]
    rw [storeChunk_stop chunk hparse]
    exact iff_of_true ⟨by simp, by simp⟩ (.inl hbad)
  · have hparse : sparseParseChunk sparse (chunkHeader mem l.data) = none := by
      simp [sparseParseChunk, htype, hbad]
    have hone : storage.blockSz / storage.blockSz = 1 := Nat.div_self (Nat.pos_of_ne_zero hblock)
    have hlt : fillBlocks storage sparse (chunkHeader mem l.data) < 2 ^ 32 :=
      (Nat.div_le_self _ _).trans_lt (u32_lt _)
    rw [storeChunk_fill chunk hparse htype, or_iff_right hbad]
    refine stepInside_storeBuffer hsize ?_ hlt (writeBuffer_inside_iff hsize hone _ _) _ _
    rw [sparseGetFillBuffer, hone, Nat.one_mul, fillBlocks]

theorem stepInside_iff (hblock : storage.blockSz ≠ 0) (loop : Loop) (chunk : Nat) :
    StepInside storage (storeChunk mem heap storage sparse loop chunk) ↔
      ChunkSafe mem storage sparse loop chunk := by
  cases loop with
  | stopped stop =>
    rw [storeChunk, StepInside, ChunkSafe]
    simp
  | on l =>
    rw [ChunkSafe]
    cases htype : (chunkHeader mem l.data).chunkType with
    | none =>
      have hparse : sparseParseChunk sparse (chunkHeader mem l.data) = some (.ret (-einval)) := by
        simp [sparseParseChunk, htype]
      rw [storeChunk_stop chunk hparse]
      exact iff_of_true ⟨by simp, by simp⟩ trivial
    | some type =>
      cases type with
      | raw => exact stepInside_raw hsize htype chunk
      | fill => exact stepInside_fill hsize hblock htype chunk
      | dontCare =>
        rw [storeChunk_dontCare chunk htype]
        exact iff_of_true ⟨by simp, by simp⟩ trivial
      | crc32 =>
        rw [storeChunk_crc32 chunk htype]
        exact iff_of_true ⟨by simp, by simp⟩ trivial

end

/-! ## Images -/

theorem stopped_divByZero_stays (loop : Loop) (chunk : Nat) (h : ¬ loop ≠ .stopped .divByZero) :
    ¬ (storeChunk mem heap storage sparse loop chunk).1 ≠ .stopped .divByZero := by
  rw [not_not] at h ⊢
  rw [h, storeChunk]

theorem finishImage_staysInside_iff (lastOffset : Nat) (calls : List (List Write)) (loop : Loop) :
    (finishImage storage sparse lastOffset calls.flatten loop).StaysInside storage ↔
      (∀ ws ∈ calls, ∀ w ∈ ws, w.Inside storage) ∧ loop ≠ .stopped .divByZero := by
  have hcalls : (∀ w ∈ calls.flatten, w.Inside storage) ↔
      ∀ ws ∈ calls, ∀ w ∈ ws, w.Inside storage := List.forall_mem_flatten
  rw [← hcalls, and_comm]
  cases loop with
  | stopped stop =>
    rw [finishImage, Outcome.StaysInside]
    simp
  | on l =>
    rw [finishImage]
    split <;> simp [Outcome.StaysInside]

/-- An image stays inside its partition exactly if each of its chunks is safe where the loop
comes to it. -/
theorem storeSparseImage_staysInside_iff (mem : Memory) (heap : Nat → UInt8)
    {storage : SparseStorage} (hsize : storage.start + storage.size < 2 ^ 32)
    (sessionId data lastOffset writeOver : UInt32) :
    (storeSparseImage mem heap storage sessionId data lastOffset writeOver).StaysInside storage ↔
      storage.blockSz ≠ 0 ∧ ((sparseHeader mem data.toNat).blkSz % storage.blockSz = 0 →
        (chunkLoop mem heap storage (sparseHeader mem data.toNat)).Meets
          (ChunkSafe mem storage (sparseHeader mem data.toNat))
          (.on (firstLocals mem storage sessionId data lastOffset writeOver))
          (List.range (sparseHeader mem data.toNat).totalChunks)) := by
  rw [storeSparseImage]
  by_cases hzero : storage.blockSz = 0
  · rw [if_pos hzero]
    exact iff_of_false (fun h => h.1 rfl) fun h => h.1 hzero
  rw [if_neg hzero, and_iff_right hzero]
  by_cases hrem : (sparseHeader mem data.toNat).blkSz % storage.blockSz = 0
  · rw [if_neg (not_not.mpr hrem), finishImage_staysInside_iff, imp_iff_right hrem]
    have hanswers := Machine.meets_iff_answers
      (M := chunkLoop mem heap storage (sparseHeader mem data.toNat))
      (P := fun ws => ∀ w ∈ ws, w.Inside storage) (Q := fun loop => loop ≠ .stopped .divByZero)
      (s := .on (firstLocals mem storage sessionId data lastOffset writeOver))
      stopped_divByZero_stays nofun (List.range (sparseHeader mem data.toNat).totalChunks)
    refine Iff.symm ((Machine.meets_congr fun loop chunk => ?_).trans hanswers)
    exact (stepInside_iff hsize hzero loop chunk).symm
  · rw [if_pos hrem]
    exact iff_of_true ⟨by simp, by simp⟩ fun h => absurd h hrem

def sampleStorage : SparseStorage where
  blockSz := 512
  start := 1000
  size := 100
  write _ blocks := blocks
  blockSz_lt := by decide
  start_lt := by decide
  end_le := by decide
  write_le _ _ := le_rfl

def sampleHeader (blkSz totalBlks totalChunks : Nat) : List UInt8 :=
  le 4 0xed26ff3a ++ le 2 1 ++ le 2 0 ++ le 2 28 ++ le 2 12 ++ le 4 blkSz ++ le 4 totalBlks ++
    le 4 totalChunks ++ le 4 0

def sampleChunk (code chunkSz totalSz : Nat) : List UInt8 :=
  le 2 code ++ le 2 0 ++ le 4 chunkSz ++ le 4 totalSz

def sampleMemory (bytes : List UInt8) : Memory := fun p => (bytes[p]?).getD 0

theorem sample_staysInside :
    (storeSparseImage (sampleMemory (sampleHeader 512 1 1 ++ sampleChunk 0xcac1 1 524)) 0
      sampleStorage 0 0 0 0).StaysInside sampleStorage := by
  refine (storeSparseImage_staysInside_iff _ 0 (by decide) 0 0 0 0).mpr ⟨by decide, fun _ => ?_⟩
  rw [show (sparseHeader _ _).totalChunks = 1 by decide +kernel]
  refine ⟨?_, trivial⟩
  rw [ChunkSafe, show (chunkHeader _ _).chunkType = some .raw by decide +kernel]
  exact ⟨by decide +kernel, .inr (.inr (.inr (.inr ⟨by decide +kernel, by decide +kernel⟩)))⟩

/-- A chunk to skip that takes the start to block 0, and a raw chunk of an image with blocks of
no bytes. -/
theorem hostile_image_leaves_partition :
    ((storeSparseImage (sampleMemory (sampleHeader 512 1 2 ++
        sampleChunk 0xcac3 (2 ^ 32 - 1000) 12 ++ sampleChunk 0xcac1 1 524)) 0
        sampleStorage 0 0 0 0).writes.map fun w => (w.offset, w.blocks)) = [(0, 1)] ∧
      (storeSparseImage (sampleMemory (sampleHeader 0 1 1 ++ sampleChunk 0xcac1 1 12)) 0
        sampleStorage 0 0 0 0).stop = .divByZero := by
  decide +kernel

end UBoot.Sparse
