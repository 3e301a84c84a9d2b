import UBoot.Dfu.Entity

/-!
# An upload is the medium in blocks

A block is served from what is left in the buffer, which is filled from the medium as
often as that takes. With a buffer that is not empty, every call has at most one round
more than it is asked for bytes, and one that ends it.
-/

namespace UBoot.Dfu

open List

structure ReadMedium.Holds (medium : ReadMedium) (data : List UInt8) : Prop where
  report : medium.report = (0, data.length)
  read : ∀ offset len, offset + len ≤ data.length →
    medium.readMedium (UInt64.ofNat offset) len = (0, (data.drop offset).take len)

/-- The state after `pos` bytes were given: the next ones are in the buffer, and those behind
them still in the medium. -/
structure Reading (data : List UInt8) (size pos : Nat) (dfu : Entity) : Prop where
  inited : dfu.inited = true
  iBufEnd : dfu.iBufEnd = size
  buffered : (dfu.mem.drop dfu.iBuf).take dfu.bLeft = (data.drop pos).take dfu.bLeft
  left : pos + dfu.bLeft + dfu.rLeft = data.length
  offset : dfu.offset = UInt64.ofNat (pos + dfu.bLeft)

variable {medium : ReadMedium} {new data : List UInt8} {size pos fuel : Nat} {dfu : Entity}

theorem Reading.consume (h : Reading data size pos dfu) (hle : chunk ≤ dfu.bLeft) :
    (dfu.mem.drop dfu.iBuf).take chunk = (data.drop pos).take chunk ∧
      Reading data size (pos + chunk) (dfu.consume chunk) := by
  have hleft := h.left
  constructor
  · have hbuffered := congrArg (take chunk) h.buffered
    rwa [take_take, take_take, Nat.min_eq_left hle] at hbuffered
  · refine ⟨h.inited, h.iBufEnd, ?_, ?_, ?_⟩
    · have hbuffered := congrArg (drop chunk) h.buffered
      rwa [drop_take, drop_take, drop_drop, drop_drop] at hbuffered
    · change pos + chunk + (dfu.bLeft - chunk) + dfu.rLeft = _
      omega
    · change dfu.offset = UInt64.ofNat (pos + chunk + (dfu.bLeft - chunk))
      rw [h.offset]
      congr 1
      omega

theorem Reading.refill (h : Reading data size pos dfu) (hempty : dfu.bLeft = 0)
    (hle : len ≤ dfu.rLeft) :
    Reading data size pos (dfu.refill ((data.drop pos).take len)) := by
  have hleft := h.left
  have hlen : ((data.drop pos).take len).length = len := by
    rw [length_take, length_drop]
    omega
  refine ⟨h.inited, h.iBufEnd, ?_, ?_, ?_⟩
  · change (((data.drop pos).take len ++ _).drop 0).take ((data.drop pos).take len).length = _
    rw [drop_zero, take_left' rfl]
    change _ = (data.drop pos).take ((data.drop pos).take len).length
    rw [hlen]
  · change pos + ((data.drop pos).take len).length +
      (dfu.rLeft - ((data.drop pos).take len).length) = _
    omega
  · change dfu.offset + UInt64.ofNat ((data.drop pos).take len).length =
      UInt64.ofNat (pos + ((data.drop pos).take len).length)
    rw [h.offset, hempty, Nat.add_zero, UInt64.ofNat_add]

theorem fillLoop_refill (hwant : want ≠ 0)
    (hchunk : min want dfu.bLeft = chunk) (hmore : want - chunk ≠ 0)
    (hrest : (dfu.consume chunk).rLeft ≠ 0) (hread : medium.readMedium (dfu.consume chunk).offset
      (min (dfu.consume chunk).iBufEnd (dfu.consume chunk).rLeft) = (0, bytes)) :
    fillLoop medium (fuel + 1) dfu want buf =
      fillLoop medium fuel ((dfu.consume chunk).refill bytes) (want - chunk)
        (buf ++ (dfu.mem.drop dfu.iBuf).take chunk) := by
  simp [fillLoop, hwant, hchunk, hmore, hrest, hread]

theorem Reading.fill (h : Reading data size pos dfu) (hmedium : medium.Holds data)
    (hsize : 0 < size) (hfuel : want + (if dfu.bLeft = 0 then 1 else 0) < fuel) (buf : List UInt8) :
    ∃ dfu', fillLoop medium fuel dfu want buf =
        some (dfu', ((buf ++ (data.drop pos).take want).length : Int),
          buf ++ (data.drop pos).take want) ∧
      Reading data size (pos + ((data.drop pos).take want).length) dfu' ∧
      dfu'.iBlkSeqNum = dfu.iBlkSeqNum := by
  induction fuel generalizing dfu want buf pos with
  | zero => omega
  | succ fuel ih =>
    by_cases hwant : want = 0
    · subst hwant
      exact ⟨dfu, by simp [fillLoop], by simpa using h, rfl⟩
    obtain ⟨hbytes, hconsume⟩ := h.consume (Nat.min_le_right want dfu.bLeft)
    have hleft := h.left
    generalize hchunk : min want dfu.bLeft = chunk at hbytes hconsume
    have hlength : ((data.drop pos).take chunk).length = chunk := by
      rw [length_take, length_drop]
      omega
    by_cases hdone : want - chunk = 0
    · -- the buffer has all bytes that are left to give
      obtain rfl : chunk = want := by omega
      obtain ⟨fuel, rfl⟩ : ∃ k, fuel = k + 1 := ⟨fuel - 1, by omega⟩
      refine ⟨dfu.consume chunk, ?_, hlength.symm ▸ hconsume, rfl⟩
      simp [fillLoop, hwant, hchunk, hbytes]
    have hall : chunk = dfu.bLeft := by omega
    by_cases hend : (dfu.consume chunk).rLeft = 0
    · -- the medium has no more bytes than the buffer had
      have hend' : dfu.rLeft = 0 := hend
      have hwhole (n : Nat) (hn : chunk ≤ n) : (data.drop pos).take n = data.drop pos := by
        refine take_of_length_le ?_
        rw [length_drop]
        omega
      have htake : (data.drop pos).take want = (data.drop pos).take chunk := by
        rw [hwhole want (by omega), hwhole chunk le_rfl]
      rw [htake, hlength]
      refine ⟨dfu.consume chunk, ?_, hconsume, rfl⟩
      simp [fillLoop, hwant, hchunk, hdone, hbytes, hend]
    have hempty : (dfu.consume chunk).bLeft = 0 := Nat.sub_eq_zero_of_le hall.ge
    obtain ⟨len, hlen⟩ : ∃ len, len = min (dfu.consume chunk).iBufEnd (dfu.consume chunk).rLeft :=
      ⟨_, rfl⟩
    have hread : medium.readMedium (dfu.consume chunk).offset
        (min (dfu.consume chunk).iBufEnd (dfu.consume chunk).rLeft) =
        (0, (data.drop (pos + chunk)).take len) := by
      rw [← hlen, hconsume.offset, hempty]
      refine hmedium.read _ _ ?_
      have := hconsume.left
      omega
    have hrefill := hconsume.refill hempty (hlen ▸ Nat.min_le_right _ _)
    have hneed : want - chunk + (if ((dfu.consume chunk).refill
        ((data.drop (pos + chunk)).take len)).bLeft = 0 then 1 else 0) < fuel := by
      have hpos : ((dfu.consume chunk).refill ((data.drop (pos + chunk)).take len)).bLeft ≠ 0 := by
        change ((data.drop (pos + chunk)).take len).length ≠ 0
        have := hconsume.left
        have := hconsume.iBufEnd
        rw [length_take, length_drop]
        omega
      rw [if_neg hpos]
      split at hfuel <;> omega
    obtain ⟨dfu', hfill, hreading, hseq⟩ := ih hrefill hneed (buf ++ (data.drop pos).take chunk)
    have hsplit : (data.drop pos).take want =
        (data.drop pos).take chunk ++ (data.drop (pos + chunk)).take (want - chunk) := by
      rw [← drop_drop, ← take_add, Nat.add_sub_cancel' (by omega)]
    refine ⟨dfu', ?_, ?_, hseq⟩
    · rw [fillLoop_refill hwant hchunk hdone hend hread, hbytes, hfill, hsplit,
        append_assoc]
    · rwa [hsplit, length_append, hlength, ← Nat.add_assoc]

theorem reading_begunRead (hmedium : medium.Holds data) (hstart : dfu.inited = false) :
    Reading data (dfu.getBuf new).length 0 (begunRead medium new dfu) ∧
      (begunRead medium new dfu).iBlkSeqNum = 0 := by
  rw [begunRead, if_neg (by simp [hstart]), hmedium.report]
  exact ⟨⟨rfl, rfl, rfl, by simp [Entity.startRead], rfl⟩, rfl⟩

theorem Reading.countBlock (h : Reading data size pos dfu) : Reading data size pos dfu.countBlock :=
  ⟨h.inited, h.iBufEnd, h.buffered, h.left, h.offset⟩

theorem Reading.read (h : Reading data size pos (begunRead medium new dfu))
    (hmedium : medium.Holds data) (hsize : 0 < size)
    (hseq : (begunRead medium new dfu).iBlkSeqNum = n) (hfuel : want + 1 < fuel) :
    ∃ dfu', dfuRead medium new fuel dfu want n =
        some (if data.length < pos + want then dfu'.finishRead else dfu',
          (((data.drop pos).take want).length : Int), (data.drop pos).take want) ∧
      Reading data size (pos + ((data.drop pos).take want).length) dfu' ∧
      dfu'.iBlkSeqNum = (n + 1) % 2 ^ 16 := by
  have hneed : want + (if (begunRead medium new dfu).countBlock.bLeft = 0 then 1 else 0) < fuel := by
    split <;> omega
  obtain ⟨dfu', hfill, hreading, hseq'⟩ := h.countBlock.fill hmedium hsize hneed []
  refine ⟨dfu', ?_, hreading, ?_⟩
  · have hreport : ¬ (dfu.inited = false ∧ medium.report.1 ≠ 0) := by simp [hmedium.report]
    rw [dfuRead, if_neg hreport, if_neg (not_not.mpr hseq), hfill, Option.map_some, endRead,
      nil_append, if_neg (Int.not_lt.mpr (Int.natCast_nonneg _))]
    have hleft := h.left
    have hshort : (((data.drop pos).take want).length : Int) < want ↔ data.length < pos + want := by
      rw [length_take, length_drop]
      omega
    by_cases hlt : data.length < pos + want
    · rw [if_pos (hshort.mpr hlt), if_pos hlt]
    · rw [if_neg (mt hshort.mp hlt), if_neg hlt]
  · rw [hseq', ← hseq, ← Nat.and_two_pow_sub_one_eq_mod]
    rfl

/-- What calls with the given sizes give, from a position in the medium on: each of them but the
last is full, and just one that is not ends the upload. -/
structure Uploaded (data : List UInt8) (pos : Nat) (sizes : List Nat) (dfu : Entity)
    (bufs : List (List UInt8)) : Prop where
  length_eq : bufs.length = sizes.length
  data_eq : bufs.flatten = (data.drop pos).take sizes.sum
  full : bufs.dropLast.map List.length = sizes.dropLast
  ended : dfu.inited = false ↔ bufs.map List.length ≠ sizes
  complete : dfu.inited = false → bufs.flatten = data.drop pos

theorem Reading.inited_eq (h : Reading data size pos dfu) : begunRead medium new dfu = dfu :=
  if_pos h.inited

theorem Reading.uploads (h : Reading data size pos (begunRead medium new dfu))
    (hmedium : medium.Holds data) (hsize : 0 < size)
    (hseq : (begunRead medium new dfu).iBlkSeqNum = n % 2 ^ 16)
    (hfuel : ∀ want ∈ sizes, want + 1 < fuel) (hne : sizes ≠ [])
    (hgo : pos + sizes.dropLast.sum ≤ data.length) :
    ∃ (dfu' : Entity) (bufs : List (List UInt8)), Dfu.uploads medium new fuel dfu n sizes =
        some (dfu', bufs.map fun buf => ((buf.length : Int), buf)) ∧
      Uploaded data pos sizes dfu' bufs := by
  induction sizes generalizing dfu n pos with
  | nil => exact absurd rfl hne
  | cons want sizes ih =>
    obtain ⟨hwant, hfuel⟩ := forall_mem_cons.mp hfuel
    obtain ⟨dfu₁, hread, h₁, hseq₁⟩ := h.read hmedium hsize hseq hwant
    have hleft := h.left
    have hlength : ((data.drop pos).take want).length = min want (data.length - pos) := by
      rw [length_take, length_drop]
    cases sizes with
    | nil =>
      refine ⟨if data.length < pos + want then dfu₁.finishRead else dfu₁,
        [(data.drop pos).take want], by rw [Dfu.uploads, hread]; rfl, rfl, by simp, rfl, ?_, ?_⟩
      · by_cases hshort : data.length < pos + want
        · rw [if_pos hshort, map_singleton, hlength]
          exact iff_of_true rfl (by simp; omega)
        · rw [if_neg hshort, map_singleton, hlength, h₁.inited]
          exact iff_of_false nofun (by simp; omega)
      · intro hended
        by_cases hshort : data.length < pos + want
        · rw [flatten_singleton]
          refine take_of_length_le ?_
          rw [length_drop]
          omega
        · rw [if_neg hshort, h₁.inited] at hended
          cases hended
    | cons want' sizes =>
      have hfull : pos + want + (want' :: sizes).dropLast.sum ≤ data.length := by
        rwa [dropLast_cons_cons, sum_cons, ← Nat.add_assoc] at hgo
      have hnot : ¬ data.length < pos + want := by omega
      have hlen : ((data.drop pos).take want).length = want := by omega
      rw [hlen] at h₁
      rw [if_neg hnot] at hread
      have hbegun : begunRead medium new dfu₁ = dfu₁ := h₁.inited_eq
      obtain ⟨dfu', bufs, hrun, huploaded⟩ := ih (n := n + 1) (hbegun.symm ▸ h₁)
        (by rw [hbegun, hseq₁, Nat.mod_add_mod]) hfuel (by simp) hfull
      have hbufs : bufs ≠ [] := by
        have := huploaded.length_eq
        rintro rfl
        cases this
      have hsplit : data.drop pos = (data.drop pos).take want ++ data.drop (pos + want) := by
        rw [← drop_drop, take_append_drop]
      refine ⟨dfu', (data.drop pos).take want :: bufs, ?_, ?_, ?_, ?_, ?_, ?_⟩
      · rw [Dfu.uploads, hread]
        dsimp only
        rw [hrun]
        rfl
      · exact congrArg (· + 1) huploaded.length_eq
      · have hsum : (want :: want' :: sizes).sum = want + (want' :: sizes).sum := sum_cons
        rw [flatten_cons, huploaded.data_eq, hsum, take_add, drop_drop]
      · rw [dropLast_cons_of_ne_nil hbufs, map_cons, hlen, huploaded.full,
          dropLast_cons_cons]
      · rw [huploaded.ended, map_cons, hlen, ne_eq, ne_eq, cons.injEq,
          and_iff_right rfl]
      · intro hended
        rw [flatten_cons, huploaded.complete hended, ← hsplit]

/-- An upload gives the bytes of the medium, whatever the sizes of the blocks are: the calls up
to the first that gives less than it is asked for, of which each ends. -/
theorem dfuRead_stream {medium : ReadMedium} {data : List UInt8} (hmedium : medium.Holds data)
    {new : List UInt8} {dfu : Entity} (hbuf : 0 < (dfu.getBuf new).length)
    (hstart : dfu.inited = false) {sizes : List Nat} (hne : sizes ≠ [])
    (hgo : sizes.dropLast.sum ≤ data.length) :
    ∃ bound, ∀ fuel ≥ bound, ∃ (dfu' : Entity) (bufs : List (List UInt8)),
      uploads medium new fuel dfu 0 sizes =
        some (dfu', bufs.map fun buf => ((buf.length : Int), buf)) ∧
      Uploaded data 0 sizes dfu' bufs := by
  obtain ⟨hreading, hseq⟩ := reading_begunRead hmedium hstart
  refine ⟨sizes.sum + 2, fun fuel hfuel => ?_⟩
  refine hreading.uploads hmedium hbuf hseq (fun want hwant => ?_) hne (by omega)
  have := single_le_sum (fun _ _ => Nat.zero_le _) want hwant
  omega

/-- Five bytes through a buffer of two, in blocks of three. -/
theorem dfuRead_stream_five : ∃ bound, ∀ fuel ≥ bound, ∃ (dfu' : Entity) (bufs : List (List UInt8)),
    uploads ⟨(0, 5), fun offset len => (0, ([1, 2, 3, 4, 5].drop offset.toNat).take len)⟩ [0, 0] fuel
        ⟨none, 0, 0, 0, 0, 0, 0, 0, 0, false⟩ 0 [3, 3] =
      some (dfu', bufs.map fun buf => ((buf.length : Int), buf)) ∧
    Uploaded [1, 2, 3, 4, 5] 0 [3, 3] dfu' bufs := by
  refine dfuRead_stream ⟨rfl, fun offset len hle => ?_⟩ (by decide) rfl (by decide) (by decide)
  have hlt : offset < 2 ^ 64 := by
    simp only [length_cons, length_nil] at hle
    omega
  dsimp only
  rw [UInt64.toNat_ofNat_of_lt' hlt]

end UBoot.Dfu
