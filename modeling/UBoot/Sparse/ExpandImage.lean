import UBoot.Sparse.Expand

/-!
# Which sparse images are expanded

What a run has stored is what the image says if no chunk is cut short. That it is
then reported as stored rests on `write_over`, which is set by the last chunk of
some images only.
-/

namespace UBoot.Sparse

open LittleEndian Updates Word32
open List hiding count

variable {img : Image} {mem : Memory} {heap : Nat → UInt8} {storage : SparseStorage}

/-! ## Whole runs -/

variable {data : UInt32}

theorem setting_of_held (hheld : img.Held mem data.toNat) (hfits : img.Fits storage)
    (hwrite : WritesAll storage) : Setting img storage (sparseHeader mem data.toNat) :=
  ⟨⟨hheld.blkSz, hheld.chunkHdrSz⟩, hfits.dvd, hwrite⟩

theorem totalChunks_lt (mem : Memory) (p : Nat) : (sparseHeader mem p).totalChunks < 2 ^ 32 :=
  number_lt _ _

/-- The variables before the first chunk, which is at `p`. -/
structure First (img : Image) (mem : Memory) (storage : SparseStorage) (p writeOver : Nat)
    (l : Locals) : Prop extends Counts l 0 0 where
  data : l.data = p
  start_lt : l.start < 2 ^ 32
  writeOver : l.writeOver = writeOver
  start : ∀ c, img.ChunkHeld mem p c → c.type ≠ .dontCare → l.start = storage.start

theorem first_firstLocals (hheld : img.Held mem data.toNat)
    (sessionId lastOffset writeOver : UInt32) :
    First img mem storage (u32 (data.toNat + img.fileHdrSz)) writeOver.toNat
      (firstLocals mem storage sessionId data lastOffset writeOver) := by
  have hzero : (0 : Nat) = u32 0 := (u32_of_lt (by decide)).symm
  refine ⟨⟨le_rfl, hzero, hzero⟩, ?_, ?_, rfl, fun c hc hkind => ?_⟩
  · rw [firstLocals, hheld.fileHdrSz]
  · rw [firstLocals]
    simp only
    split
    · exact lastOffset.toNat_lt
    · exact storage.start_lt
  · rw [firstLocals, hheld.fileHdrSz]
    simp [hc.chunkType, hkind]

def firstSkip (img : Image) (storage : SparseStorage) (cs : List Chunk) : Nat :=
  (skipped img storage cs.head?).getD 0

section
variable {sparse : SparseHeader} {l : Locals} {p g : Nat} (hs : Setting img storage sparse)
  (hcount : sparse.totalChunks < 2 ^ 32)
include hs hcount

omit hcount in
/-- A first chunk of holes is skipped; before any other the first block is the one to write. -/
theorem First.cons_cases (h : First img mem storage p g l) (heap : Nat → UInt8)
    (hheld : img.ChunksHeld mem p (c :: cs)) :
    (∃ blocks l', c = .dontCare blocks ∧
      storeChunk mem heap storage sparse (.on l) 0 = (.on l', []) ∧
      At storage l' (firstSkip img storage (c :: cs)) (taken img storage c) ∧
      img.ChunksHeld mem l'.data cs ∧ l'.writeOver = g) ∨
    c.type ≠ .dontCare ∧ firstSkip img storage (c :: cs) = 0 ∧ At storage l 0 0 := by
  have hat (hkind : c.type ≠ .dontCare) : At storage l 0 0 :=
    ⟨h.toCounts, by rw [h.start c hheld.1 hkind, Nat.add_zero, u32_of_lt storage.start_lt]⟩
  cases c with
  | dontCare blocks =>
    rw [← h.data] at hheld
    obtain ⟨l', hstep, hat', hdata, hover⟩ :
        ∃ l', storeChunk mem heap storage sparse (.on l) 0 = (.on l', []) ∧ _ :=
      storeChunk_skipped_first hs hheld.1 h.start_lt (h.totalBlocks.trans (u32_of_lt (by decide)))
    exact .inl ⟨blocks, l', rfl, hstep, hat', hdata ▸ hheld.2, hover.trans h.writeOver⟩
  | raw blocks data => exact .inr ⟨nofun, rfl, hat nofun⟩
  | fill blocks value => exact .inr ⟨nofun, rfl, hat nofun⟩
  | crc32 sum => exact .inr ⟨nofun, rfl, hat nofun⟩

theorem run_chunks_spec (heap : Nat → UInt8) (h : First img mem storage p g l)
    (hheld : img.ChunksHeld mem p cs) (hwf : ∀ c ∈ cs, c.WellFormed img.blkSz)
    (hk : cs.length = sparse.totalChunks) (hfit : takenSum img storage cs ≤ storage.size) :
    (Accepted img storage 0 cs ∧ ∃ l' calls,
      (chunkLoop mem heap storage sparse).run (.on l) (List.range' 0 cs.length) = (.on l', calls) ∧
      calls.flatten.flatMap (Write.contents storage.blockSz) = written img storage heap 0 cs ∧
      EndsAt img storage cs.tail.getLast? g l' (firstSkip img storage cs)
        (takenSum img storage cs)) ∨
    (¬ Accepted img storage 0 cs ∧ ∃ ret, ret ≠ 0 ∧
      ((chunkLoop mem heap storage sparse).run (.on l) (List.range' 0 cs.length)).1 =
        .stopped (.ret ret)) := by
  cases cs with
  | nil => exact .inl ⟨trivial, l, [], rfl, rfl, h.toCounts, h.writeOver⟩
  | cons c cs =>
    obtain ⟨blocks, l₁, rfl, hstep, hat, hheld₁, rfl⟩ | ⟨hkind, hfirst, hat⟩ :=
      h.cons_cases hs heap hheld
    · have hrest := @run_spec _ _ heap _ _ _ _ _ hs hcount _ _ hat hheld₁
        (fun c hc => hwf c (mem_cons_of_mem _ hc)) (.inl Nat.one_ne_zero)
        (by rw [← hk, length_cons, Nat.add_comm]) hfit
      rw [Accepted, written, Nat.zero_add, length_cons, range'_succ]
      obtain ⟨hacc, l', calls, hrun, hcontents, hends⟩ | ⟨hacc, ret, hret, hrun⟩ := hrest
      · exact .inl ⟨⟨by rintro ⟨⟩, hacc⟩, l', _, run_step hstep hrun, hcontents, hends⟩
      · refine .inr ⟨fun h => hacc h.2, ret, hret, ?_⟩
        rw [run_step hstep rfl]
        exact hrun
    · refine (run_spec hs hcount hat (h.data ▸ hheld) hwf
        (.inr fun d hd => Option.some.inj hd ▸ hkind) ((Nat.zero_add _).trans hk)
        ((Nat.zero_add _).trans_le hfit)).imp_left ?_
      rintro ⟨hacc, l', calls, hrun, hcontents, hends⟩
      refine ⟨hacc, l', calls, hrun, hcontents, ?_⟩
      rw [hfirst, ← h.writeOver, tail_cons, ← endsAt_cons (.inr hkind)]
      rwa [Nat.zero_add] at hends

end

/-! ## The sizes at the end -/

def storageSum (img : Image) (storage : SparseStorage) (cs : List Chunk) : Nat :=
  (cs.map (img.storageBlocks storage)).sum

section
variable (hs : Setting img storage sparse) (htotal : sparse.totalBlks = img.totalBlks)
include hs htotal

theorem allSize_eq : sparseBlockSizeToStorage sparse.totalBlks storage sparse =
      u32 (storageSum img storage img.chunks) := by
  have hsum : storageSum img storage img.chunks = img.totalBlks * (img.blkSz / storage.blockSz) :=
    sum_map_mul_right _ _ _
  rw [sparseBlockSizeToStorage, htotal, hs.header.blkSz, Nat.mul_div_assoc _ hs.dvd, hsum]

theorem sizesDiffer_eq_false_iff (hg : g < 2 ^ 32)
    (hends : EndsAt img storage img.chunks.tail.getLast? g l (firstSkip img storage img.chunks)
      (storageSum img storage img.chunks)) :
    sizesDiffer storage sparse l = false ↔ SizesAgree img storage g := by
  have hdiffer : sizesDiffer storage sparse l = false ↔
      l.totalBlocks = u32 (u32 (storageSum img storage img.chunks) + 2 ^ 33 - l.writeStart -
        l.writeOver) ∨
      u32 (u32 (storageSum img storage img.chunks) + 2 ^ 33 - l.writeStart - l.writeOver) = 0 := by
    rw [sizesDiffer, allSize_eq hs htotal, decide_eq_false_iff_not, not_and_or, not_not, not_not]
  rw [hdiffer, SizesAgree, ← firstSkip, ← storageSum]
  rw [EndsAt] at hends
  generalize firstSkip img storage img.chunks = ws at *
  generalize storageSum img storage img.chunks = all at *
  cases hlast : skipped img storage img.chunks.tail.getLast? with
  | some n =>
    rw [hlast] at hends
    obtain ⟨a, hcounts, hsum, hover⟩ := hends
    have hle := hcounts.le
    refine iff_of_true (.inl ?_) (.inl rfl)
    rw [hcounts.totalBlocks, hcounts.writeStart, hover]
    unfold u32
    omega
  | none =>
    rw [hlast] at hends
    obtain ⟨hcounts, hover⟩ := hends
    have hle := hcounts.le
    rw [hcounts.totalBlocks, hcounts.writeStart, hover]
    simp only [Option.isSome_none, Bool.false_eq_true, false_or]
    unfold u32
    constructor
    · rintro (h | h)
      · exact .inl (by omega)
      · exact .inr (by omega)
    · rintro (h | h)
      · exact .inl (by omega)
      · exact .inr (by omega)

end

/-! ## What is stored -/

def ChunkWhole (img : Image) (storage : SparseStorage) (c : Chunk) : Prop :=
  taken img storage c = img.storageBlocks storage c ∧
    (c.type = .fill → c.blocks = 0 ∨ 4 ∣ storage.blockSz)

section
variable (hdvd : storage.blockSz ∣ img.blkSz)
include hdvd

theorem taken_fill_iff (blocks : Nat) (value : List UInt8) :
    taken img storage (.fill blocks value) = img.storageBlocks storage (.fill blocks value) ↔
      blocks * img.blkSz < 2 ^ 32 := by
  have hpos : 0 < storage.blockSz := Nat.pos_of_dvd_of_pos hdvd img.blkSz_pos
  rw [taken, Image.storageBlocks, Chunk.blocks, ← Nat.mul_div_assoc _ hdvd]
  constructor
  · intro h
    by_contra hge
    have hlt := storage.blockSz_lt
    have hmod : u32 (blocks * img.blkSz) + storage.blockSz ≤ blocks * img.blkSz := by
      rw [u32_eq]
      omega
    have hle := Nat.div_le_div_right (c := storage.blockSz) hmod
    rw [Nat.add_div_right _ hpos] at hle
    omega
  · intro h
    rw [u32_of_lt h]

theorem chunkAccepted_and_whole_iff (c : Chunk) (p : Nat) :
    ChunkAccepted img storage p c ∧ ChunkWhole img storage c ↔ ChunkStored img storage p c := by
  cases c with
  | raw blocks data =>
    constructor
    · rintro ⟨hacc, -⟩
      exact ⟨(hacc rfl).2 rfl, (hacc rfl).1⟩
    · rintro ⟨hsmall, hroom⟩
      exact ⟨fun _ => ⟨hroom, fun _ => hsmall⟩, rfl, nofun⟩
  | fill blocks value =>
    have htaken := taken_fill_iff hdvd blocks value
    constructor
    · rintro ⟨hacc, hwhole, hword⟩
      have hroom := (hacc rfl).1
      rw [hwhole] at hroom
      exact ⟨htaken.mp hwhole, hword rfl, hroom⟩
    · rintro ⟨hlt, hword, hroom⟩
      have hwhole := htaken.mpr hlt
      rw [← hwhole] at hroom
      exact ⟨fun _ => ⟨hroom, nofun⟩, hwhole, fun _ => hword⟩
  | dontCare blocks => exact iff_of_true ⟨nofun, rfl, nofun⟩ trivial
  | crc32 sum => exact iff_of_true ⟨nofun, rfl, nofun⟩ trivial

theorem accepted_and_whole_iff (cs : List Chunk) (p : Nat) :
    (Accepted img storage p cs ∧ ∀ c ∈ cs, ChunkWhole img storage c) ↔
      ChunksStored img storage p cs := by
  induction cs generalizing p with
  | nil => simp [Accepted, ChunksStored]
  | cons c cs ih =>
    rw [Accepted, ChunksStored, forall_mem_cons, ← chunkAccepted_and_whole_iff hdvd, ← ih]
    constructor
    · rintro ⟨⟨hacc, haccs⟩, hwhole, hwholes⟩
      rw [hwhole.1] at haccs
      exact ⟨⟨hacc, hwhole⟩, haccs, hwholes⟩
    · rintro ⟨⟨hacc, hwhole⟩, haccs, hwholes⟩
      rw [← hwhole.1] at haccs
      exact ⟨⟨hacc, haccs⟩, hwhole, hwholes⟩

end

theorem takenBlock_of_whole (heap : Nat → UInt8) (hwhole : ChunkWhole img storage c)
    (hj : j < img.storageBlocks storage c) :
    takenBlock heap storage.blockSz c j = Image.block storage.blockSz c.byte j := by
  cases c with
  | fill blocks value =>
    have hblocks : blocks ≠ 0 := by
      rintro rfl
      rw [Image.storageBlocks, Chunk.blocks, Nat.zero_mul] at hj
      exact Nat.not_lt_zero j hj
    obtain ⟨k, hk⟩ := (hwhole.2 rfl).resolve_left hblocks
    refine map_congr_left fun i hi => ?_
    have hi : i < storage.blockSz := mem_range.mp hi
    have hindex : (j * storage.blockSz + i) % 4 = (0 * storage.blockSz + i) % 4 := by
      rw [hk, Nat.zero_mul, Nat.mul_left_comm, Nat.mul_add_mod, Nat.zero_add]
    rw [fillByte, if_pos (by omega), Chunk.byte, hindex]
  | raw blocks data => rfl
  | dontCare blocks => rfl
  | crc32 sum => rfl

theorem written_eq_expected (heap : Nat → UInt8) (hwhole : ∀ c ∈ cs, ChunkWhole img storage c)
    (p : Nat) : written img storage heap p cs = img.expected storage p cs := by
  induction cs generalizing p with
  | nil => rfl
  | cons c cs ih =>
    obtain ⟨hc, hcs⟩ := forall_mem_cons.mp hwhole
    rw [written, Image.expected, chunkWritten, ih hcs, hc.1]
    congr 1
    split
    · refine map_congr_left fun j hj => ?_
      rw [takenBlock_of_whole heap hc (mem_range.mp hj)]
    · rfl

def places (storage : SparseStorage) (count : Chunk → Nat) : Nat → List Chunk → List Nat
  | _, [] => []
  | p, c :: cs =>
    (if c.stores then (List.range (count c)).map (storage.start + p + ·) else []) ++
      places storage count (p + count c) cs

theorem places_expected (p : Nat) (cs : List Chunk) :
    (img.expected storage p cs).map Prod.fst = places storage (img.storageBlocks storage) p cs := by
  induction cs generalizing p with
  | nil => rfl
  | cons c cs ih =>
    rw [Image.expected, places, map_append, ih]
    congr 1
    split
    · rw [map_map]
      rfl
    · rfl

theorem places_written (heap : Nat → UInt8) (p : Nat) (cs : List Chunk) :
    (written img storage heap p cs).map Prod.fst = places storage (taken img storage) p cs := by
  induction cs generalizing p with
  | nil => rfl
  | cons c cs ih =>
    rw [written, places, map_append, ih, chunkWritten]
    congr 1
    split
    · rw [map_map]
      rfl
    · rfl

theorem le_of_mem_places (h : b ∈ places storage count p cs) :
    storage.start + p ≤ b := by
  induction cs generalizing p with
  | nil => cases h
  | cons c cs ih =>
    rw [places, mem_append] at h
    obtain h | h := h
    · split at h
      · obtain ⟨j, -, rfl⟩ := mem_map.mp h
        exact Nat.le_add_right _ _
      · cases h
    · have := ih h
      omega

theorem nodup_places (count : Chunk → Nat) (p : Nat) (cs : List Chunk) :
    (places storage count p cs).Nodup := by
  induction cs generalizing p with
  | nil => exact nodup_nil
  | cons c cs ih =>
    rw [places, nodup_append']
    refine ⟨?_, ih _, fun b hb hb' => ?_⟩
    · split
      · exact nodup_range.map (add_right_injective _)
      · exact nodup_nil
    · have hle := le_of_mem_places hb'
      split at hb
      · obtain ⟨j, hj, rfl⟩ := mem_map.mp hb
        rw [mem_range] at hj
        omega
      · cases hb

theorem length_places (count : Chunk → Nat) (p : Nat) (cs : List Chunk) :
    (places storage count p cs).length =
      (cs.map fun c => if c.stores then count c else 0).sum := by
  induction cs generalizing p with
  | nil => rfl
  | cons c cs ih =>
    rw [places, length_append, ih, map_cons, sum_cons]
    congr 1
    split
    · rw [length_map, length_range]
    · rfl

theorem eq_of_sum_le {f g : α → Nat} {l : List α} (hle : ∀ a ∈ l, f a ≤ g a)
    (hsum : (l.map g).sum ≤ (l.map f).sum) : ∀ a ∈ l, f a = g a := by
  induction l with
  | nil => exact forall_mem_nil _
  | cons a l ih =>
    obtain ⟨ha, hl⟩ := forall_mem_cons.mp hle
    have htail := sum_le_sum hl
    rw [map_cons, map_cons, sum_cons, sum_cons] at hsum
    exact forall_mem_cons.mpr ⟨by omega, ih hl (by omega)⟩

/-- The blocks `e` are in their places after the updates `w`, and no other block is changed. -/
def Stored (w e : List (Nat × List UInt8)) : Prop :=
  ∀ disk, (∀ x ∈ e, updates w disk x.1 = x.2) ∧
    ∀ b, (∀ x ∈ e, x.1 ≠ b) → updates w disk b = disk b

theorem stored_self (hnodup : (e.map Prod.fst).Nodup) : Stored e e :=
  fun disk => ⟨fun _ hx => updates_of_mem hnodup hx disk, fun _ hb => updates_of_not_mem hb disk⟩

theorem Stored.has_place (h : Stored w e) (hx : x ∈ e) : x.1 ∈ w.map Prod.fst := by
  by_contra hnot
  have hother : ∀ y ∈ w, y.1 ≠ x.1 := fun y hy heq => hnot (heq ▸ mem_map_of_mem hy)
  have hsame := (h fun _ => x.2 ++ [0]).1 x hx
  rw [updates_of_not_mem hother] at hsame
  have hlen := congrArg length hsame
  rw [length_append, length_singleton] at hlen
  omega

section
variable (hdvd : storage.blockSz ∣ img.blkSz) {cs : List Chunk}
include hdvd

theorem taken_of_stored (h : Stored (written img storage heap 0 cs) (img.expected storage 0 cs)) :
    ∀ c ∈ cs, taken img storage c = img.storageBlocks storage c := by
  have hsub : places storage (img.storageBlocks storage) 0 cs ⊆
      places storage (taken img storage) 0 cs := by
    rw [← places_expected, ← places_written heap]
    intro b hb
    obtain ⟨x, hx, rfl⟩ := mem_map.mp hb
    exact h.has_place hx
  have hlen := ((nodup_places _ _ _).subperm hsub).length_le
  rw [length_places, length_places] at hlen
  have heq := eq_of_sum_le (fun c _ => ?_) hlen
  · intro c hc
    have hcount := heq c hc
    cases c with
    | raw blocks data => rfl
    | fill blocks value => exact hcount
    | dontCare blocks => rfl
    | crc32 sum => rfl
  · split
    · exact taken_le hdvd c
    · exact le_rfl

end

theorem exists_place (htaken : ∀ c ∈ cs, taken img storage c = img.storageBlocks storage c)
    (hc : c ∈ cs) (hstores : c.stores = true) (hpos : 0 < img.storageBlocks storage c) (p : Nat) :
    ∃ b, (b, Image.block storage.blockSz c.byte 0) ∈ img.expected storage p cs ∧
      ∀ heap, (b, takenBlock heap storage.blockSz c 0) ∈ written img storage heap p cs := by
  induction cs generalizing p with
  | nil => cases hc
  | cons d cs ih =>
    obtain ⟨hd, hcs⟩ := forall_mem_cons.mp htaken
    obtain rfl | hc := mem_cons.mp hc
    · refine ⟨storage.start + p + 0, ?_, fun heap => ?_⟩
      · rw [Image.expected, if_pos hstores]
        exact mem_append_left _ (mem_map_of_mem (mem_range.mpr hpos))
      · rw [written, chunkWritten, if_pos hstores, hd]
        exact mem_append_left _ (mem_map_of_mem (mem_range.mpr hpos))
    · obtain ⟨b, hexp, hwritten⟩ := ih hcs hc (p + img.storageBlocks storage d)
      refine ⟨b, ?_, fun heap => ?_⟩
      · rw [Image.expected]
        exact mem_append_right _ hexp
      · rw [written, hd]
        exact mem_append_right _ (hwritten heap)

theorem four_dvd_of_fillByte (hpos : 0 < blockSz) (blocks : Nat) (value : List UInt8)
    (h : ∀ heap, takenBlock heap blockSz (.fill blocks value) 0 =
      Image.block blockSz (Chunk.byte (.fill blocks value)) 0) : 4 ∣ blockSz := by
  by_contra hdvd
  have hbyte (heap : Nat → UInt8) : fillByte heap blockSz value (0 * blockSz + (blockSz - 1)) =
      Chunk.byte (.fill blocks value) (0 * blockSz + (blockSz - 1)) :=
    map_inj_left.mp (h heap) (blockSz - 1) (mem_range.mpr (by omega))
  have hheap := hbyte fun _ => Chunk.byte (.fill blocks value) (0 * blockSz + (blockSz - 1)) + 1
  rw [fillByte, if_neg (by omega)] at hheap
  have hone := add_eq_left.mp hheap
  exact absurd hone (by decide)

theorem stored_iff_whole (hdvd : storage.blockSz ∣ img.blkSz) (cs : List Chunk) :
    (∀ heap, Stored (written img storage heap 0 cs) (img.expected storage 0 cs)) ↔
      ∀ c ∈ cs, ChunkWhole img storage c := by
  have hpos : 0 < storage.blockSz := Nat.pos_of_dvd_of_pos hdvd img.blkSz_pos
  constructor
  · intro h
    have htaken := taken_of_stored hdvd (h 0)
    refine fun c hc => ⟨htaken c hc, fun hkind => ?_⟩
    cases c with
    | fill blocks value =>
      rw [Chunk.blocks, or_iff_not_imp_left]
      intro hblocks
      have hsome : 0 < img.storageBlocks storage (.fill blocks value) :=
        Nat.mul_pos (Nat.pos_of_ne_zero hblocks) (Nat.div_pos (Nat.le_of_dvd img.blkSz_pos hdvd) hpos)
      obtain ⟨b, hexp, hwritten⟩ := exists_place htaken hc rfl hsome 0
      refine four_dvd_of_fillByte hpos blocks value fun heap => ?_
      have hplaces : ((written img storage heap 0 cs).map Prod.fst).Nodup := by
        rw [places_written]
        exact nodup_places _ _ _
      have hleft := updates_of_mem hplaces (hwritten heap) fun _ => []
      have hright := (h heap fun _ => []).1 _ hexp
      exact hleft.symm.trans hright
    | raw blocks data => cases hkind
    | dontCare blocks => cases hkind
    | crc32 sum => cases hkind
  · intro hwhole heap
    rw [written_eq_expected heap hwhole]
    refine stored_self ?_
    rw [places_expected]
    exact nodup_places _ _ _

/-! ## Images -/

theorem storeSparseImage_eq (hheld : img.Held mem data.toNat) (hfits : img.Fits storage)
    (sessionId lastOffset writeOver : UInt32) :
    storeSparseImage mem heap storage sessionId data lastOffset writeOver =
      finishImage storage (sparseHeader mem data.toNat) lastOffset.toNat
        ((chunkLoop mem heap storage (sparseHeader mem data.toNat)).run
          (.on (firstLocals mem storage sessionId data lastOffset writeOver))
          (List.range' 0 img.chunks.length)).2.flatten
        ((chunkLoop mem heap storage (sparseHeader mem data.toNat)).run
          (.on (firstLocals mem storage sessionId data lastOffset writeOver))
          (List.range' 0 img.chunks.length)).1 := by
  have hpos : 0 < storage.blockSz := Nat.pos_of_dvd_of_pos hfits.dvd img.blkSz_pos
  have hrem : ¬ (sparseHeader mem data.toNat).blkSz % storage.blockSz ≠ 0 := by
    rw [hheld.blkSz, not_not]
    exact Nat.mod_eq_zero_of_dvd hfits.dvd
  rw [storeSparseImage, if_neg hpos.ne', if_neg hrem, hheld.totalChunks, range_eq_range']

section
variable (hheld : img.Held mem data.toNat) (hfits : img.Fits storage) (hwrite : WritesAll storage)
  (sessionId lastOffset writeOver : UInt32)
include hheld hfits hwrite

theorem expands_cases (heap : Nat → UInt8) :
    (Accepted img storage 0 img.chunks ∧
      ∃ l, EndsAt img storage img.chunks.tail.getLast? writeOver.toNat l
        (firstSkip img storage img.chunks) (takenSum img storage img.chunks) ∧
      ((storeSparseImage mem heap storage sessionId data lastOffset writeOver).Expands storage img ↔
        sizesDiffer storage (sparseHeader mem data.toNat) l = false ∧
          Stored (written img storage heap 0 img.chunks) (img.expected storage 0 img.chunks))) ∨
    (¬ Accepted img storage 0 img.chunks ∧
      ¬ (storeSparseImage mem heap storage sessionId data lastOffset writeOver).Expands
        storage img) := by
  have hs := setting_of_held hheld hfits hwrite
  have hfit := (takenSum_le hfits.dvd img.chunks).trans hfits.size
  have hfirst : First img mem storage _ _ _ :=
    first_firstLocals hheld sessionId lastOffset writeOver
  rw [storeSparseImage_eq hheld hfits]
  obtain ⟨hacc, l, calls, hrun, hcontents, hends⟩ | ⟨hacc, ret, hret, hrun⟩ :=
    run_chunks_spec hs (totalChunks_lt mem _) heap hfirst hheld.chunks img.wellFormed
      hheld.totalChunks.symm hfit
  · refine .inl ⟨hacc, l, hends, ?_⟩
    rw [hrun, Outcome.Expands]
    simp only [finishImage]
    cases sizesDiffer storage (sparseHeader mem data.toNat) l with
    | true =>
      rw [if_pos rfl]
      exact iff_of_false (fun h => absurd (Stop.ret.inj h.1) (by decide))
        fun h => absurd h.1 (by decide)
    | false =>
      rw [if_neg (by decide), ← hcontents]
      exact and_congr (iff_of_true rfl rfl) Iff.rfl
  · rw [hrun]
    exact .inr ⟨hacc, fun h => hret (Stop.ret.inj h.1)⟩

/-- An image is expanded, whatever the allocations hold before, exactly if each of its chunks
is stored whole in the partition and the sizes at the end agree. -/
theorem storeSparseImage_expands_iff :
    (∀ heap, (storeSparseImage mem heap storage sessionId data lastOffset writeOver).Expands
      storage img) ↔
      ChunksStored img storage 0 img.chunks ∧ SizesAgree img storage writeOver.toNat := by
  have hs := setting_of_held hheld hfits hwrite
  have hsum (hwhole : ∀ c ∈ img.chunks, ChunkWhole img storage c) :
      takenSum img storage img.chunks = storageSum img storage img.chunks :=
    congrArg sum (map_congr_left fun c hc => (hwhole c hc).1)
  have hcases := expands_cases hheld hfits hwrite sessionId lastOffset writeOver
  rw [← accepted_and_whole_iff hfits.dvd]
  by_cases hacc : Accepted img storage 0 img.chunks
  · rw [and_iff_right hacc]
    have hg := writeOver.toNat_lt
    have haccepted (heap : Nat → UInt8) := ((hcases heap).resolve_right fun h => h.1 hacc).2
    constructor
    · intro h
      have hstored (heap : Nat → UInt8) :
          Stored (written img storage heap 0 img.chunks) (img.expected storage 0 img.chunks) := by
        obtain ⟨l, -, hiff⟩ := haccepted heap
        exact (hiff.mp (h heap)).2
      have hwhole := (stored_iff_whole hfits.dvd _).mp hstored
      obtain ⟨l, hends, hiff⟩ := haccepted 0
      rw [hsum hwhole] at hends
      exact ⟨hwhole,
        (sizesDiffer_eq_false_iff hs hheld.totalBlks hg hends).mp (hiff.mp (h 0)).1⟩
    · rintro ⟨hwhole, hagree⟩ heap
      obtain ⟨l, hends, hiff⟩ := haccepted heap
      rw [hsum hwhole] at hends
      exact hiff.mpr ⟨(sizesDiffer_eq_false_iff hs hheld.totalBlks hg hends).mpr hagree,
        (stored_iff_whole hfits.dvd _).mpr hwhole heap⟩
  · refine iff_of_false (fun h => ?_) fun h => hacc h.1.1
    exact ((hcases 0).resolve_left fun h => hacc h.1).2 (h 0)

end

theorem toInt_le : toInt n ≤ n := by
  rw [toInt]
  split <;> omega

def wordStorage : SparseStorage where
  blockSz := 4
  start := 16
  size := 2 ^ 31
  write _ blocks := toInt blocks
  blockSz_lt := by decide
  start_lt := by decide
  end_le := by decide
  write_le _ _ := toInt_le

def wordImage (chunks : List Chunk) (h : ∀ c ∈ chunks, c.WellFormed 4) : Image where
  fileHdrSz := 28
  chunkHdrSz := 12
  blkSz := 4
  chunks := chunks
  blkSz_pos := by decide
  four_dvd := by decide
  wellFormed := h

def skipImage : Image := wordImage [.raw 1 [1, 2, 3, 4], .dontCare 1] (by simp [Chunk.WellFormed])

def skipMemory : Memory := sampleMemory (sampleHeader 4 2 2 ++ sampleChunk 0xcac1 1 16 ++
  [1, 2, 3, 4] ++ sampleChunk 0xcac3 1 12)

theorem writesAll_wordStorage : WritesAll wordStorage := fun _ _ => rfl

theorem skipImage_held : skipImage.Held skipMemory (0 : UInt32).toNat := by
  refine ⟨by decide +kernel, by decide +kernel, by decide +kernel, by decide +kernel,
    by decide +kernel, ⟨by decide +kernel, by decide +kernel, by decide +kernel,
      by decide +kernel⟩, ⟨by decide +kernel, by decide +kernel, by decide +kernel,
      by decide +kernel⟩, trivial⟩

theorem skipImage_fits : skipImage.Fits wordStorage := ⟨by decide, by decide +kernel⟩

theorem skipImage_expanded :
    (storeSparseImage skipMemory 0 wordStorage 0 0 0 7).Expands wordStorage skipImage := by
  refine (storeSparseImage_expands_iff skipImage_held skipImage_fits
    writesAll_wordStorage 0 0 7).mpr ⟨⟨⟨by decide, ?_⟩, trivial, trivial⟩, .inl rfl⟩ 0
  decide +kernel

def rawImage : Image := wordImage [.raw 1 [1, 2, 3, 4]] (by simp [Chunk.WellFormed])

def rawMemory : Memory := sampleMemory (sampleHeader 4 1 1 ++ sampleChunk 0xcac1 1 16 ++ [1, 2, 3, 4])

def fillImage : Image :=
  wordImage [.fill (2 ^ 30) [1, 2, 3, 4], .dontCare 1] (by simp [Chunk.WellFormed])

def fillMemory : Memory := sampleMemory (sampleHeader 4 (2 ^ 30 + 1) 2 ++
  sampleChunk 0xcac2 (2 ^ 30) 16 ++ [1, 2, 3, 4] ++ sampleChunk 0xcac3 1 12)

/-- The raw image is stored and reported as not stored; of the other one nothing is stored. -/
theorem images_not_expanded :
    (rawImage.Held rawMemory 0 ∧ rawImage.Fits wordStorage ∧
      (storeSparseImage rawMemory 0 wordStorage 0 0 0 7).stop = .ret (-eio)) ∧
    (fillImage.Held fillMemory 0 ∧ fillImage.Fits wordStorage ∧
      (storeSparseImage fillMemory 0 wordStorage 0 0 0 7).writes.length = 0) := by
  refine ⟨⟨⟨by decide +kernel, by decide +kernel, by decide +kernel, by decide +kernel,
      by decide +kernel, ⟨by decide +kernel, by decide +kernel, by decide +kernel,
      by decide +kernel⟩, trivial⟩, ⟨by decide, by decide +kernel⟩, by decide +kernel⟩,
    ⟨by decide +kernel, by decide +kernel, by decide +kernel, by decide +kernel,
      by decide +kernel, ⟨by decide +kernel, by decide +kernel, by decide +kernel,
      by decide +kernel⟩, ⟨by decide +kernel, by decide +kernel, by decide +kernel,
      by decide +kernel⟩, trivial⟩, ⟨by decide, by decide +kernel⟩, by decide +kernel⟩

end UBoot.Sparse
