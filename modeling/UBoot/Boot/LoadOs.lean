import UBoot.Lib.ByteMemory

/-!
# Loading the operating system

`memmove` of `lib/string.c`, `memmove_wd` of `common/image.c`, and `bootm_load_os` with the
`BOOTM_STATE_LOADOS` part of `do_bootm_states` from `common/cmd_bootm.c`. A range of bytes
does not wrap around the end of the memory.
-/

namespace UBoot.Boot

open ByteMemory

/-! ## memmove -/

def copyUp : Nat → Nat → Nat → Memory → Memory
  | _, _, 0, m => m
  | tmp, s, count + 1, m => copyUp (tmp + 1) (s + 1) count (Function.update m tmp (m s))

def copyDown (dest src : Nat) : Nat → Memory → Memory
  | 0, m => m
  | count + 1, m =>
    copyDown dest src count (Function.update m (dest + count) (m (src + count)))

def memmove (dest src count : Nat) (m : Memory) : Memory :=
  if src = dest then m
  else if dest ≤ src then copyUp dest src count m
  else copyDown dest src count m

/-- The chunks of a build with a watchdog; `none` where the fuel is spent. -/
def moveChunks (chunksz : Nat) : Nat → Nat → Nat → Nat → Memory → Option Memory
  | 0, _, _, len, m => if len = 0 then some m else none
  | fuel + 1, dest, src, len, m =>
    if 0 < len then
      let tail := if chunksz < len then chunksz else len
      moveChunks chunksz fuel (dest + tail) (src + tail) (len - tail) (memmove dest src tail m)
    else some m

def memmoveWd (watchdog : Bool) (fuel dest src len chunksz : Nat) (m : Memory) : Option Memory :=
  if dest = src then some m
  else if watchdog then moveChunks chunksz fuel dest src len m
  else some (memmove dest src len m)

/-! ## bootm_load_os -/

inductive Comp
  | none
  | gzip
  | bzip2
  | lzma
  | lzo
  deriving DecidableEq

inductive BootmErr
  | reset
  | overlap
  | unimplemented
  deriving DecidableEq

/-- `blobStart` and `blobEnd` are `start` and `end` of the source. -/
structure ImageInfo where
  comp : Comp
  load : Nat
  blobStart : Nat
  blobEnd : Nat
  imageStart : Nat
  imageLen : Nat

structure Images where
  os : ImageInfo
  legacyHdrValid : Bool

/-- A decompressor has the load address, the image and its length. It gives
the length of what it stored, or fails with the memory as it left it. -/
abbrev Decompressor := Nat → Nat → Nat → Memory → Bool × Nat × Memory

def chunkSz : Nat := 64 * 1024

theorem chunkSz_pos : 0 < chunkSz := by decide

def ImageInfo.loadEnd (os : ImageInfo) (len : Nat) : Nat := (os.load + len) % 2 ^ 32

def ImageInfo.InPlace (os : ImageInfo) : Prop :=
  os.comp = .none ∧ (os.load = os.blobStart ∨ os.load = os.imageStart)

instance (os : ImageInfo) : Decidable os.InPlace := inferInstanceAs (Decidable (_ ∧ _))

def ImageInfo.Overwritten (os : ImageInfo) (loadEnd : Nat) : Prop :=
  os.load < os.blobEnd ∧ os.blobStart < loadEnd

instance (os : ImageInfo) (loadEnd : Nat) : Decidable (os.Overwritten loadEnd) :=
  inferInstanceAs (Decidable (_ ∧ _))

section
variable (watchdog : Bool) (decompressors : Comp → Option Decompressor)

/-- The end of the load area and the memory after the `switch`. -/
def loadImage (fuel : Nat) (os : ImageInfo) (m : Memory) :
    Option (Except BootmErr Nat × Memory) :=
  match os.comp with
  | .none =>
    let loadEnd := os.loadEnd os.imageLen
    if os.load = os.blobStart ∨ os.load = os.imageStart then some (.ok loadEnd, m)
    else
      (memmoveWd watchdog fuel os.load os.imageStart os.imageLen chunkSz m).map
        fun m => (.ok loadEnd, m)
  | comp =>
    match decompressors comp with
    | Option.none => some (.error .unimplemented, m)
    | some decompress =>
      match decompress os.load os.imageStart os.imageLen m with
      | (true, len, m) => some (.ok (os.loadEnd len), m)
      | (false, _, m) => some (.error .reset, m)

def bootmLoadOs (fuel : Nat) (images : Images) (m : Memory) :
    Option (Except BootmErr Nat × Memory) :=
  let os := images.os
  (loadImage watchdog decompressors fuel os m).map fun
    | (.error e, m) => (.error e, m)
    | (.ok loadEnd, m) =>
      if ¬ os.InPlace ∧ os.Overwritten loadEnd then
        if images.legacyHdrValid then (.error .overlap, m) else (.error .reset, m)
      else (.ok loadEnd, m)

/-- The memory that `do_bootm_states` goes on with, and the area that it has
reserved. -/
def loadosState (fuel : Nat) (images : Images) (m : Memory) :
    Option (Except BootmErr (Memory × Option (Nat × Nat))) :=
  (bootmLoadOs watchdog decompressors fuel images m).map fun
    | (.ok loadEnd, m) =>
      .ok (m, some (images.os.load, (loadEnd + 2 ^ 32 - images.os.load) % 2 ^ 32))
    | (.error .overlap, m) => .ok (m, none)
    | (.error e, _) => .error e

end

/-! ## A range that has moved -/

theorem copyUp_eq (h : dest ≤ src) (count : Nat) (m : Memory) :
    copyUp dest src count m = moved dest src count m := by
  induction count generalizing dest src m with
  | zero => simp [copyUp]
  | succ count ih =>
    have hone : Function.update m dest (m src) = moved dest src 1 m := by
      funext a
      by_cases ha : a = dest
      · simp [moved, ha]
      · rw [Function.update_of_ne ha, moved, if_neg (by omega)]
    rw [copyUp, ih (by omega), hone, moved_moved (.inl h), Nat.add_comm]

theorem copyDown_eq (h : src ≤ dest) (count : Nat) (m : Memory) :
    copyDown dest src count m = moved dest src count m := by
  induction count generalizing m with
  | zero => simp [copyDown]
  | succ count ih =>
    rw [copyDown, ih]
    funext a
    unfold moved
    -- The byte moved first is at the far end, out of reach of the others.
    by_cases ha : a = dest + count
    · subst ha
      simp
    · have hiff : dest ≤ a ∧ a < dest + count ↔ dest ≤ a ∧ a < dest + (count + 1) := by omega
      by_cases hin : dest ≤ a ∧ a < dest + count
      · rw [if_pos hin, if_pos (hiff.mp hin), Function.update_of_ne (by omega)]
      · rw [if_neg hin, if_neg (fun h => hin (hiff.mpr h)), Function.update_of_ne ha]

theorem memmove_eq (dest src count : Nat) (m : Memory) :
    memmove dest src count m = moved dest src count m := by
  unfold memmove
  split
  next h =>
    subst h
    funext a
    unfold moved
    split
    · congr 1; omega
    · rfl
  · split
    · exact copyUp_eq ‹_› count m
    · exact copyDown_eq (by omega) count m

def Intact (dest src len : Nat) (m m' : Memory) : Prop := ∀ i < len, m' (dest + i) = m (src + i)

theorem Intact.moved (dest src len : Nat) (m : Memory) :
    Intact dest src len m (moved dest src len m) := by
  intro i hi
  rw [ByteMemory.moved, if_pos (by omega), Nat.add_sub_cancel_left]

/-! ## Chunks -/

theorem moveChunks_zero (chunksz fuel dest src : Nat) (m : Memory) :
    moveChunks chunksz fuel dest src 0 m = some m := by
  cases fuel <;> simp [moveChunks]

variable {len : Nat}

theorem moveChunks_succ (h : 0 < len) (chunksz fuel dest src : Nat) (m : Memory) :
    moveChunks chunksz (fuel + 1) dest src len m =
      moveChunks chunksz fuel (dest + min chunksz len) (src + min chunksz len)
        (len - min chunksz len) (moved dest src (min chunksz len) m) := by
  have htail : (if chunksz < len then chunksz else len) = min chunksz len := by split <;> omega
  simp [moveChunks, h, htail, memmove_eq]

variable {fuel src : Nat}

theorem moveChunks_eq (hc : 0 < chunksz) (hf : len ≤ fuel)
    (h : dest ≤ src ∨ src + len ≤ dest) (m : Memory) :
    moveChunks chunksz fuel dest src len m = some (moved dest src len m) := by
  induction fuel generalizing dest src len m with
  | zero =>
    obtain rfl : len = 0 := by omega
    rw [moveChunks_zero, moved_zero]
  | succ fuel ih =>
    obtain rfl | hlen := Nat.eq_zero_or_pos len
    · rw [moveChunks_zero, moved_zero]
    · rw [moveChunks_succ hlen, ih (by omega) (by omega), moved_moved (by omega),
        Nat.add_sub_cancel' (min_le_right _ _)]

theorem moveChunks_single (hf : 0 < fuel) (h : len ≤ chunksz)
    (m : Memory) : moveChunks chunksz fuel dest src len m = some (moved dest src len m) := by
  obtain ⟨fuel, rfl⟩ := Nat.exists_eq_add_of_le' (Nat.one_le_of_lt hf)
  obtain rfl | hlen := Nat.eq_zero_or_pos len
  · rw [moveChunks_zero, moved_zero]
  · rw [moveChunks_succ hlen, min_eq_right h, Nat.sub_self, moveChunks_zero]

theorem moveChunks_ends (hc : 0 < chunksz) (hf : len ≤ fuel)
    (m : Memory) : ∃ m', moveChunks chunksz fuel dest src len m = some m' := by
  induction fuel generalizing dest src len m with
  | zero => exact ⟨m, if_pos (by omega)⟩
  | succ fuel ih =>
    obtain rfl | hlen := Nat.eq_zero_or_pos len
    · exact ⟨m, moveChunks_zero ..⟩
    · rw [moveChunks_succ hlen]
      exact ih (by omega) _

theorem moveChunks_chunksz_zero (h : 0 < len) (fuel dest src : Nat) (m : Memory) :
    moveChunks 0 fuel dest src len m = none := by
  induction fuel generalizing dest src m with
  | zero => simp [moveChunks, h.ne']
  | succ fuel ih => rw [moveChunks_succ h, Nat.zero_min, Nat.sub_zero, ih]

theorem moveChunks_const
    (h : moveChunks chunksz fuel dest src len (fun _ => b) = some m') : m' = fun _ => b := by
  induction fuel generalizing dest src len with
  | zero =>
    rw [moveChunks] at h
    split at h
    · exact (Option.some.inj h).symm
    · cases h
  | succ fuel ih =>
    obtain rfl | hlen := Nat.eq_zero_or_pos len
    · rw [moveChunks_zero] at h
      exact (Option.some.inj h).symm
    · rw [moveChunks_succ hlen, moved_const] at h
      exact ih h

/-- The first byte of an image moved up that is overwritten before it is
moved: behind the first chunk, and where the first chunk is put. -/
def lostByte (dest src chunksz : Nat) : Nat := max chunksz (dest - src)

def marked (a : Nat) : Memory := Function.update (fun _ => 0) a 1

theorem moved_marked (h : src < dest) (hc : 0 < chunksz) :
    moved dest src chunksz (marked (src + lostByte dest src chunksz)) = fun _ => 0 := by
  funext a
  unfold moved marked lostByte
  split
  · rw [Function.update_of_ne (by omega)]
  · rw [Function.update_of_ne (by omega)]

theorem moveChunks_loses (h : src < dest) (hov : dest < src + len)
    (hc : 0 < chunksz) (hlen : chunksz < len)
    (hm : moveChunks chunksz fuel dest src len (marked (src + lostByte dest src chunksz)) =
      some m') : ¬ Intact dest src len (marked (src + lostByte dest src chunksz)) m' := by
  have hzero : m' = fun _ => 0 := by
    cases fuel with
    | zero => simp [moveChunks, show len ≠ 0 by omega] at hm
    | succ fuel =>
      rw [moveChunks_succ (by omega), min_eq_left hlen.le, moved_marked h hc] at hm
      exact moveChunks_const hm
  intro hintact
  have := hintact (lostByte dest src chunksz) (by unfold lostByte; omega)
  simp [hzero, marked] at this

/-! ## memmove_wd and bootm_load_os -/

def Chunkable (dest src len chunksz : Nat) : Prop :=
  len = 0 ∨ 0 < chunksz ∧ (dest < src ∨ src + len ≤ dest ∨ len ≤ chunksz)

instance (dest src len chunksz : Nat) : Decidable (Chunkable dest src len chunksz) :=
  inferInstanceAs (Decidable (_ ∨ _))

theorem moveChunks_of_chunkable
    (h : Chunkable dest src len chunksz) (hf : len < fuel) (m : Memory) :
    moveChunks chunksz fuel dest src len m = some (moved dest src len m) := by
  obtain rfl | ⟨hc, hlt | hle | hsingle⟩ := h
  · rw [moveChunks_zero, moved_zero]
  · exact moveChunks_eq hc hf.le (.inl hlt.le) m
  · exact moveChunks_eq hc hf.le (.inr hle) m
  · exact moveChunks_single (by omega) hsingle m

theorem memmoveWd_of_chunkable
    (h : dest = src ∨ watchdog = false ∨ Chunkable dest src len chunksz) (hf : len < fuel)
    (m : Memory) :
    memmoveWd watchdog fuel dest src len chunksz m = some (moved dest src len m) := by
  unfold memmoveWd
  split
  next heq => rw [← memmove_eq, memmove, if_pos heq.symm]
  next hne =>
    split
    next hw => exact moveChunks_of_chunkable (by simpa [hne, hw] using h) hf m
    next => rw [memmove_eq]

theorem memmoveWd_loses
    (h : ¬ (dest = src ∨ watchdog = false ∨ Chunkable dest src len chunksz)) :
    ∃ m, ∀ fuel m', memmoveWd watchdog fuel dest src len chunksz m = some m' →
      ¬ Intact dest src len m m' := by
  obtain ⟨hne, hw, hc⟩ : dest ≠ src ∧ watchdog = true ∧ ¬ Chunkable dest src len chunksz := by
    simpa using h
  refine ⟨marked (src + lostByte dest src chunksz), fun fuel m' hm => ?_⟩
  rw [memmoveWd, if_neg hne, if_pos hw] at hm
  unfold Chunkable at hc
  obtain rfl | hpos := Nat.eq_zero_or_pos chunksz
  · rw [moveChunks_chunksz_zero (by omega)] at hm
    cases hm
  · exact moveChunks_loses (by omega) (by omega) hpos (by omega) hm

theorem memmoveWd_ends (watchdog : Bool) (hc : 0 < chunksz)
    (m : Memory) : ∃ m', memmoveWd watchdog len dest src len chunksz m = some m' := by
  unfold memmoveWd
  split_ifs
  · exact ⟨m, rfl⟩
  · exact moveChunks_ends hc le_rfl m
  · exact ⟨_, rfl⟩

section
variable {images : Images} (hn : images.os.comp = .none) (hp : ¬ images.os.InPlace)
include hn hp

theorem loadosState_eq (watchdog : Bool) (decompressors : Comp → Option Decompressor) (fuel : Nat)
    (m : Memory) :
    ∃ after : Memory → Except BootmErr (Memory × Option (Nat × Nat)),
      loadosState watchdog decompressors fuel images m =
        (memmoveWd watchdog fuel images.os.load images.os.imageStart images.os.imageLen chunkSz
          m).map after ∧
      if images.os.Overwritten (images.os.loadEnd images.os.imageLen) ∧ images.legacyHdrValid = false then
        ∀ m', after m' = .error .reset
      else ∀ m', ∃ reserved, after m' = .ok (m', reserved) := by
  have hplace : ¬ (images.os.load = images.os.blobStart ∨
      images.os.load = images.os.imageStart) := fun h => hp ⟨hn, h⟩
  simp only [loadosState, bootmLoadOs, loadImage, hn, if_neg hplace, Option.map_map]
  refine ⟨_, rfl, ?_⟩
  by_cases hover : images.os.Overwritten (images.os.loadEnd images.os.imageLen)
  · cases hl : images.legacyHdrValid <;> simp [hover, hp]
  · simp [hover, hp]

end

/-- An image that is moved is lost where the chunks overlap, unless its being
overwritten is noticed. -/
theorem image_moved_intact_iff (watchdog : Bool) :
    (∀ dest src len chunksz : Nat,
      (∀ m, ∃ fuel m', memmoveWd watchdog fuel dest src len chunksz m = some m' ∧
        Intact dest src len m m') ↔
      dest = src ∨ watchdog = false ∨ Chunkable dest src len chunksz) ∧
    ∀ (decompressors : Comp → Option Decompressor) (images : Images),
      images.os.comp = .none → ¬ images.os.InPlace →
      ((∀ m, ∃ fuel r, loadosState watchdog decompressors fuel images m = some r ∧
        ∀ m' reserved, r = .ok (m', reserved) →
          Intact images.os.load images.os.imageStart images.os.imageLen m m') ↔
      (images.os.Overwritten (images.os.loadEnd images.os.imageLen) ∧ images.legacyHdrValid = false) ∨ watchdog = false ∨
        Chunkable images.os.load images.os.imageStart images.os.imageLen chunkSz) := by
  constructor
  · intro dest src len chunksz
    constructor
    · intro h
      by_contra hc
      obtain ⟨m, hm⟩ := memmoveWd_loses hc
      obtain ⟨fuel, m', hmove, hintact⟩ := h m
      exact hm fuel m' hmove hintact
    · intro h m
      exact ⟨len + 1, _, memmoveWd_of_chunkable h (Nat.lt_succ_self _) m, .moved dest src len m⟩
  · intro decompressors images hn hp
    have hne : images.os.load ≠ images.os.imageStart := fun h => hp ⟨hn, .inr h⟩
    constructor
    · intro h
      by_contra hc
      obtain ⟨hnoticed, hmove⟩ := not_or.mp hc
      obtain ⟨m, hm⟩ := memmoveWd_loses fun h => (h.resolve_left hne |> hmove)
      obtain ⟨fuel, r, hr, hintact⟩ := h m
      obtain ⟨after, hafter, hwhich⟩ := loadosState_eq hn hp watchdog decompressors fuel m
      rw [if_neg hnoticed] at hwhich
      obtain ⟨m', hm', rfl⟩ := Option.map_eq_some_iff.mp (hafter.symm.trans hr)
      obtain ⟨reserved, hok⟩ := hwhich m'
      exact hm fuel m' hm' (hintact m' reserved hok)
    · intro h m
      by_cases hnoticed : images.os.Overwritten (images.os.loadEnd images.os.imageLen) ∧
          images.legacyHdrValid = false
      · obtain ⟨m', hm'⟩ := memmoveWd_ends watchdog chunkSz_pos m
        obtain ⟨after, hafter, hwhich⟩ := loadosState_eq hn hp watchdog decompressors _ m
        rw [if_pos hnoticed] at hwhich
        refine ⟨_, _, hafter.trans (congrArg _ hm'), fun m'' reserved hr => ?_⟩
        simp [hwhich] at hr
      · have hmove := memmoveWd_of_chunkable (.inr (h.resolve_left hnoticed))
          (Nat.lt_succ_self images.os.imageLen) m
        obtain ⟨after, hafter, hwhich⟩ := loadosState_eq hn hp watchdog decompressors _ m
        rw [if_neg hnoticed] at hwhich
        refine ⟨_, _, hafter.trans (congrArg _ hmove), fun m' reserved hr => ?_⟩
        obtain ⟨reserved', hok⟩ := hwhich _
        obtain rfl : m' = _ := by
          have := hr.symm.trans hok
          simp at this
          exact this.1
        exact .moved _ _ _ m

def movedUp : Images where
  os := ⟨.none, 0x1001, 0xfc0, 0x22000, 0x1000, 2 * chunkSz + 1⟩
  legacyHdrValid := true

theorem movedUp_without_watchdog (m : Memory) :
    ∃ fuel r, loadosState false (fun _ => none) fuel movedUp m = some r ∧
      ∀ m' reserved, r = .ok (m', reserved) → Intact 0x1001 0x1000 (2 * chunkSz + 1) m m' :=
  ((image_moved_intact_iff false).2 (fun _ => none) movedUp rfl (by decide)).mpr (by decide) m

theorem movedUp_with_watchdog :
    (∃ m, ∀ fuel m' reserved, loadosState true (fun _ => none) fuel movedUp m =
      some (.ok (m', reserved)) → ¬ Intact 0x1001 0x1000 (2 * chunkSz + 1) m m') ∧
    ((memmoveWd true 3 1 0 3 1 fun a => UInt8.ofNat a).map fun m => [m 1, m 2, m 3]) =
      some [0, 0, 0] := by
  refine ⟨?_, by decide⟩
  have hloses : ∃ m, ∀ fuel m', memmoveWd true fuel 0x1001 0x1000 (2 * chunkSz + 1) chunkSz m =
      some m' → ¬ Intact 0x1001 0x1000 (2 * chunkSz + 1) m m' := memmoveWd_loses (by decide)
  obtain ⟨m, hm⟩ := hloses
  refine ⟨m, fun fuel m' reserved h => ?_⟩
  obtain ⟨after, hafter, hwhich⟩ :=
    loadosState_eq (show movedUp.os.comp = .none from rfl) (by decide) true (fun _ => none) fuel m
  rw [if_neg (by decide)] at hwhich
  obtain ⟨m'', hm'', hr⟩ := Option.map_eq_some_iff.mp (hafter.symm.trans h)
  obtain ⟨reserved', hok⟩ := hwhich m''
  obtain ⟨rfl, -⟩ := Prod.mk.inj (Except.ok.inj (hok.symm.trans hr))
  exact hm fuel m'' hm''

end UBoot.Boot
