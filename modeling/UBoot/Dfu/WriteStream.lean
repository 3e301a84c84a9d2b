import UBoot.Dfu.Entity

/-!
# A download is the stream of its blocks

Blocks are gathered in the buffer, and handed to the medium when the next one may not
fit. After any number of them, the chunks handed on and the bytes in the buffer are
what was received.
-/

namespace UBoot.Dfu

open List

open UBoot.Gpt (crc32 crc32NoComp)

theorem crc32_append (crc : UInt32) (p q : List UInt8) :
    crc32 crc (p ++ q) = crc32 (crc32 crc p) q := by
  have hnot (x : UInt32) : x ^^^ 0xffffffff ^^^ 0xffffffff = x := by
    rw [UInt32.xor_assoc, UInt32.xor_self, UInt32.xor_zero]
  rw [crc32, crc32, crc32, hnot, crc32NoComp, foldl_append]
  rfl

def Consecutive : Nat → List Chunk → Prop
  | _, [] => True
  | start, chunk :: rest =>
    chunk.offset.toNat = start % 2 ^ 64 ∧ Consecutive (start + chunk.bytes.length) rest

def bytesOf (chunks : List Chunk) : List UInt8 := chunks.flatMap Chunk.bytes

theorem bytesOf_concat (chunks : List Chunk) (chunk : Chunk) :
    bytesOf (chunks ++ [chunk]) = bytesOf chunks ++ chunk.bytes := by
  simp [bytesOf]

theorem Consecutive.concat (h : Consecutive start chunks)
    (hchunk : chunk.offset.toNat = (start + (bytesOf chunks).length) % 2 ^ 64) :
    Consecutive start (chunks ++ [chunk]) := by
  induction chunks generalizing start with
  | nil => exact ⟨by simpa [bytesOf] using hchunk, trivial⟩
  | cons first rest ih =>
    refine ⟨h.1, ih h.2 ?_⟩
    rw [hchunk, bytesOf, flatMap_cons, length_append, Nat.add_assoc]
    rfl

def WriteMedium.AcceptsAll (medium : WriteMedium) : Prop :=
  ∀ chunks chunk, medium.writeMedium chunks chunk = (0, chunk.bytes.length)

/-- The state after `data` came in: `chunks` were handed on since `s₀`, and the rest is in
the buffer of `size` bytes. -/
structure Staged (s₀ : Download) (size : Nat) (data : List UInt8) (chunks : List Chunk)
    (s : Download) : Prop where
  inited : s.dfu.inited = true
  length_mem : s.dfu.mem.length = size
  iBufEnd : s.dfu.iBufEnd = size
  iBuf_le : s.dfu.iBuf ≤ size
  chunks_eq : s.chunks = s₀.chunks ++ chunks
  consecutive : Consecutive 0 chunks
  data_eq : bytesOf chunks ++ s.dfu.mem.take s.dfu.iBuf = data
  offset : s.dfu.offset = UInt64.ofNat (bytesOf chunks).length
  crc : s.dfu.crc = crc32 0 (bytesOf chunks)
  printed : s.printed = s₀.printed

variable {medium : WriteMedium} {new data : List UInt8} {chunks : List Chunk} {s₀ s : Download}
  {size : Nat}

theorem drain_accepted (hmedium : medium.AcceptsAll) (hne : s.dfu.iBuf ≠ 0) :
    dfuWriteBufferDrain medium s =
      ({ s with
          dfu := { s.dfu with
            crc := crc32 s.dfu.crc (s.dfu.mem.take s.dfu.iBuf)
            iBuf := 0
            offset := s.dfu.offset + UInt64.ofNat (s.dfu.mem.take s.dfu.iBuf).length }
          chunks := s.chunks ++ [⟨s.dfu.offset, s.dfu.mem.take s.dfu.iBuf⟩] }, 0) := by
  simp [dfuWriteBufferDrain, if_neg hne, hmedium s.chunks]

section
variable (h : Staged s₀ size data chunks s)
include h

theorem Staged.drain (hmedium : medium.AcceptsAll) :
    ∃ s' chunks', dfuWriteBufferDrain medium s = (s', 0) ∧ Staged s₀ size data chunks' s' ∧
      s'.dfu.iBuf = 0 ∧ s'.dfu.iBlkSeqNum = s.dfu.iBlkSeqNum := by
  by_cases hempty : s.dfu.iBuf = 0
  · exact ⟨s, chunks, if_pos hempty, h, hempty, rfl⟩
  · have hbytes : bytesOf (chunks ++ [⟨s.dfu.offset, s.dfu.mem.take s.dfu.iBuf⟩]) = data := by
      rw [bytesOf_concat, h.data_eq]
    refine ⟨_, chunks ++ [⟨s.dfu.offset, s.dfu.mem.take s.dfu.iBuf⟩],
      drain_accepted hmedium hempty, ⟨h.inited, h.length_mem, h.iBufEnd, Nat.zero_le _, ?_,
        h.consecutive.concat ?_, ?_, ?_, ?_, h.printed⟩, rfl, rfl⟩
    · simp [h.chunks_eq]
    · simp [h.offset]
    · rw [hbytes]
      exact append_nil data
    · rw [bytesOf_concat, length_append, UInt64.ofNat_add, ← h.offset]
    · rw [bytesOf_concat, crc32_append, ← h.crc]

theorem Staged.drainIf (hmedium : medium.AcceptsAll) (full : Bool) :
    ∃ s' chunks', Dfu.drainIf medium full s 0 = (s', 0) ∧
      Staged s₀ size data chunks' s' ∧ (full = true → s'.dfu.iBuf = 0) ∧
      (full = false → s'.dfu.iBuf = s.dfu.iBuf) ∧ s'.dfu.iBlkSeqNum = s.dfu.iBlkSeqNum := by
  cases full with
  | false => exact ⟨s, chunks, rfl, h, nofun, fun _ => rfl, rfl⟩
  | true =>
    obtain ⟨s', chunks', hdrain, hstaged, hempty, hseq⟩ := h.drain hmedium
    refine ⟨s', chunks', ?_, hstaged, fun _ => hempty, nofun, hseq⟩
    simp [Dfu.drainIf, hdrain]

theorem Staged.copyIn (hfits : s.dfu.iBuf + block.length ≤ size) :
    Staged s₀ size (data ++ block) chunks { s with dfu := s.dfu.copyIn block } := by
  have hlength := h.length_mem
  have hmem : (s.dfu.copyIn block).mem =
      s.dfu.mem.take s.dfu.iBuf ++ block ++ s.dfu.mem.drop (s.dfu.iBuf + block.length) := rfl
  have hfront : (s.dfu.mem.take s.dfu.iBuf ++ block).length = s.dfu.iBuf + block.length := by
    rw [length_append, length_take, Nat.min_eq_left (by omega)]
  refine ⟨h.inited, ?_, h.iBufEnd, hfits, h.chunks_eq, h.consecutive, ?_, h.offset, h.crc,
    h.printed⟩
  · rw [hmem, length_append, hfront, length_drop]
    omega
  · change bytesOf chunks ++ (s.dfu.copyIn block).mem.take (s.dfu.iBuf + block.length) = _
    rw [hmem, take_left' hfront, ← append_assoc, h.data_eq]

end

theorem staged_begun (h : s.dfu.inited = false) :
    Staged s (s.dfu.getBuf new).length [] [] (begun new s) := by
  rw [begun, if_neg (by simp [h])]
  exact ⟨rfl, rfl, rfl, Nat.zero_le _, (append_nil _).symm, trivial, rfl, rfl, rfl, rfl⟩

section
variable (h : Staged s₀ size data chunks s)
include h

theorem Staged.begun_eq : begun new s = s := if_pos h.inited

theorem Staged.addBlock (hmedium : medium.AcceptsAll) (hle : block.length ≤ size) :
    ∃ s' chunks', Dfu.addBlock medium s block =
        (if block.length = 0 then finishWrite medium s' 0 else (s', 0)) ∧
      Staged s₀ size (data ++ block) chunks' s' ∧ (block.length = 0 → s'.dfu.iBuf = 0) ∧
      s'.dfu.iBlkSeqNum = s.dfu.iBlkSeqNum := by
  obtain ⟨s₁, chunks₁, hdrain₁, h₁, hempty₁, hkept₁, hseq₁⟩ :=
    h.drainIf hmedium (s.dfu.iBufEnd < s.dfu.iBuf + block.length)
  -- the block fits after the buffer has been handed on, if not before
  have hfits : s₁.dfu.iBuf + block.length ≤ size := by
    by_cases hfull : s.dfu.iBufEnd < s.dfu.iBuf + block.length
    · rw [hempty₁ (by simpa using hfull)]
      omega
    · rw [hkept₁ (by simpa using hfull)]
      have := h.iBufEnd
      omega
  obtain ⟨s₂, chunks₂, hdrain₂, h₂, hempty₂, -, hseq₂⟩ := (h₁.copyIn hfits).drainIf hmedium
    (block.length = 0 ∨ (s₁.dfu.copyIn block).iBufEnd < (s₁.dfu.copyIn block).iBuf + block.length)
  refine ⟨s₂, chunks₂, ?_, h₂, fun hzero => hempty₂ (by simp [hzero]), hseq₂.trans hseq₁⟩
  have hroom : ¬ s₁.dfu.iBufEnd < s₁.dfu.iBuf + block.length := by
    rw [h₁.iBufEnd]
    omega
  rw [Dfu.addBlock, hdrain₁]
  dsimp only
  rw [if_neg hroom, endBlock, hdrain₂]

theorem Staged.countBlock : Staged s₀ size data chunks s.countBlock :=
  ⟨h.inited, h.length_mem, h.iBufEnd, h.iBuf_le, h.chunks_eq, h.consecutive, h.data_eq, h.offset,
    h.crc, h.printed⟩

end

theorem Staged.write (h : Staged s₀ size data chunks (begun new s)) (hmedium : medium.AcceptsAll)
    (hseq : (begun new s).dfu.iBlkSeqNum = n) (hle : block.length ≤ size) :
    ∃ s' chunks', dfuWrite medium new s block n =
        (if block.length = 0 then finishWrite medium s' 0 else (s', 0)) ∧
      Staged s₀ size (data ++ block) chunks' s' ∧ (block.length = 0 → s'.dfu.iBuf = 0) ∧
      s'.dfu.iBlkSeqNum = (n + 1) % 2 ^ 16 := by
  obtain ⟨s', chunks', hadd, hstaged, hempty, hseq'⟩ := h.countBlock.addBlock hmedium hle
  refine ⟨s', chunks', ?_, hstaged, hempty, ?_⟩
  · rw [dfuWrite, if_neg (not_not.mpr hseq), hadd]
  · rw [hseq', ← hseq, ← Nat.and_two_pow_sub_one_eq_mod]
    rfl

def numbered : Nat → List (List UInt8) → List (List UInt8 × Nat)
  | _, [] => []
  | n, block :: rest => (block, n % 2 ^ 16) :: numbered (n + 1) rest

theorem numbered_append (n : Nat) (front back : List (List UInt8)) :
    numbered n (front ++ back) = numbered n front ++ numbered (n + front.length) back := by
  induction front generalizing n with
  | nil => rfl
  | cons block front ih =>
    rw [cons_append, numbered, ih, numbered, cons_append, length_cons,
      Nat.add_assoc, Nat.add_comm 1]

theorem Staged.run (h : Staged s₀ size data chunks (begun new s)) (hmedium : medium.AcceptsAll)
    (hseq : (begun new s).dfu.iBlkSeqNum = n % 2 ^ 16)
    (hblocks : ∀ block ∈ blocks, 0 < block.length ∧ block.length ≤ size) :
    ∃ s' chunks', (downloads medium new).run s (numbered n blocks) =
        (s', List.replicate blocks.length 0) ∧
      Staged s₀ size (data ++ blocks.flatten) chunks' (begun new s') ∧
      (begun new s').dfu.iBlkSeqNum = (n + blocks.length) % 2 ^ 16 := by
  induction blocks generalizing s data chunks n with
  | nil => exact ⟨s, chunks, rfl, by simpa using h, by simpa using hseq⟩
  | cons block blocks ih =>
    obtain ⟨⟨hpos, hle⟩, hblocks⟩ := forall_mem_cons.mp hblocks
    obtain ⟨s₁, chunks₁, hwrite, h₁, -, hseq₁⟩ := h.write hmedium hseq hle
    rw [if_neg hpos.ne'] at hwrite
    have hnext : (begun new s₁).dfu.iBlkSeqNum = (n + 1) % 2 ^ 16 := by
      rw [h₁.begun_eq, hseq₁, Nat.mod_add_mod]
    obtain ⟨s₂, chunks₂, hrun, h₂, hseq₂⟩ := ih (h₁.begun_eq.symm ▸ h₁) hnext hblocks
    refine ⟨s₂, chunks₂, ?_, ?_, ?_⟩
    · have hstep : (downloads medium new).step s (block, n % 2 ^ 16) = (s₁, 0) := hwrite
      rw [numbered, Machine.run, hstep, hrun]
      rfl
    · rwa [flatten_cons, ← append_assoc]
    · rw [hseq₂, length_cons, Nat.add_assoc, Nat.add_comm 1]

structure Entity.Cleared (dfu : Entity) : Prop where
  inited : dfu.inited = false
  dfuBuf : dfu.dfuBuf = none
  crc : dfu.crc = 0
  offset : dfu.offset = 0
  iBlkSeqNum : dfu.iBlkSeqNum = 0
  iBuf : dfu.iBuf = 0
  iBufEnd : dfu.iBufEnd = 0

/-- A download of blocks, whatever their number and sizes are, hands their bytes to the medium
at consecutive offsets, prints their checksum, and leaves the entity cleared. -/
theorem dfuWrite_stream {medium : WriteMedium} (hmedium : medium.AcceptsAll) (new : List UInt8)
    {s : Download} (hstart : s.dfu.inited = false) {blocks : List (List UInt8)}
    (hblocks : ∀ block ∈ blocks,
      0 < block.length ∧ block.length ≤ (s.dfu.getBuf new).length) :
    ∃ s' chunks ret, (downloads medium new).run s (numbered 0 (blocks ++ [[]])) =
        (s', List.replicate blocks.length 0 ++ [ret]) ∧
      s'.chunks = s.chunks ++ chunks ∧ Consecutive 0 chunks ∧
      bytesOf chunks = blocks.flatten ∧
      s'.printed = s.printed ++ [crc32 0 blocks.flatten] ∧ s'.dfu.Cleared := by
  have hseq : (begun new s).dfu.iBlkSeqNum = 0 % 2 ^ 16 := by
    rw [begun, if_neg (by simp [hstart])]
    rfl
  obtain ⟨s₁, chunks₁, hrun, h₁, hseq₁⟩ := (staged_begun hstart).run hmedium hseq hblocks
  have hnil : ([] : List UInt8).length ≤ (s.dfu.getBuf new).length := Nat.zero_le _
  obtain ⟨s₂, chunks₂, hwrite, h₂, hempty, -⟩ := h₁.write hmedium hseq₁ hnil
  have hdata : bytesOf chunks₂ = blocks.flatten := by
    have := h₂.data_eq
    rwa [hempty rfl, take_zero, append_nil, append_nil, nil_append] at this
  have hlast : (downloads medium new).run s₁ (numbered (0 + blocks.length) [[]]) =
      ((finishWrite medium s₂ 0).1, [(finishWrite medium s₂ 0).2]) := by
    rw [numbered, numbered, Machine.run, Machine.run]
    change ((dfuWrite medium new s₁ [] _).1, [(dfuWrite medium new s₁ [] _).2]) = _
    rw [hwrite, if_pos length_nil]
  refine ⟨(finishWrite medium s₂ 0).1, chunks₂, (finishWrite medium s₂ 0).2, ?_, h₂.chunks_eq,
    h₂.consecutive, hdata, ?_, ⟨rfl, rfl, rfl, rfl, rfl, rfl, rfl⟩⟩
  · rw [numbered_append]
    refine Prod.ext ?_ ?_
    · rw [Machine.run_append, hrun, hlast]
    · rw [Machine.answers_append, hrun, hlast]
  · rw [← hdata, ← h₂.crc, ← h₂.printed]
    rfl

def acceptingMedium : WriteMedium := ⟨fun _ chunk => (0, chunk.bytes.length), none⟩

def idleEntity : Entity := ⟨none, 0, 0, 0, 0, 0, 0, 0, 0, false⟩

/-- Three blocks of three, two and four bytes through a buffer of four. -/
theorem dfuWrite_stream_four : ∃ s' chunks ret,
    (downloads acceptingMedium [0, 0, 0, 0]).run ⟨idleEntity, [], []⟩
        (numbered 0 [[1, 2, 3], [4, 5], [6, 7, 8, 9], []]) = (s', [0, 0, 0, ret]) ∧
      s'.chunks = chunks ∧ Consecutive 0 chunks ∧
      bytesOf chunks = [1, 2, 3, 4, 5, 6, 7, 8, 9] ∧
      s'.printed = [crc32 0 [1, 2, 3, 4, 5, 6, 7, 8, 9]] ∧ s'.dfu.Cleared :=
  @dfuWrite_stream acceptingMedium (fun _ _ => rfl) [0, 0, 0, 0] ⟨idleEntity, [], []⟩ rfl
    [[1, 2, 3], [4, 5], [6, 7, 8, 9]] (by decide)

end UBoot.Dfu
