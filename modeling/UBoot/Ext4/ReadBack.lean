import UBoot.Ext4.Extents
import UBoot.Ext4.Delayed

/-!
# What a read of a file gives

A file with extents is its size and the blocks of its extents, with zeros in the
holes and in extents that were never written. `ext4fs_read_file` gives the file
back as long as the search for each block ends at the right one.
-/

namespace UBoot.Ext4

open ByteMemory List

variable {V : Volume}

/-! ## Files -/

def extInitMaxLen : Nat := 2 ^ 15

def Extent.Written (e : Extent) : Prop := e.len ≤ extInitMaxLen

instance (e : Extent) : Decidable e.Written := inferInstanceAs (Decidable (e.len ≤ extInitMaxLen))

def Extent.count (e : Extent) : Nat := if e.Written then e.len else e.len - extInitMaxLen

def Extent.Covers (e : Extent) (i : Nat) : Prop := e.block ≤ i ∧ i < e.block + e.count

instance (e : Extent) (i : Nat) : Decidable (e.Covers i) :=
  inferInstanceAs (Decidable (e.block ≤ i ∧ i < e.block + e.count))

structure ExtentFile (V : Volume) where
  inode : Inode
  depth : Nat
  extents : List Extent
  keys : List Nat
  stores : Stores V depth inode.blocks extents keys
  count_pos : ∀ e ∈ extents, 0 < e.count
  sorted : extents.Pairwise fun a b => a.block + a.count ≤ b.block
  inside : ∀ e ∈ extents, 0 < e.start ∧ (e.start + e.count) * 2 ^ V.log2FsBlocksize ≤ V.size

namespace ExtentFile

variable (f : ExtentFile V)

def size : Nat := f.inode.size.toNat + 2 ^ 32 * f.inode.dirAcl.toNat

def extentOf (i : Nat) : Option Extent := f.extents.find? fun e => e.Covers i

def byteAt (k : Nat) : UInt8 :=
  match f.extentOf (k / V.blockSize) with
  | none => 0
  | some e =>
    if e.Written then
      V.data ((e.start + (k / V.blockSize - e.block)) * V.blockSize + k % V.blockSize)
    else 0

def ReadsBack (len : UInt32) (buf : Nat) : Prop :=
  ∀ mem : Memory, ∃ mem' : Memory, (∃ enough, ∀ rounds ≥ enough,
      ext4fsReadFile V f.inode rounds 0 len buf mem =
        some (((min len.toNat f.size : Nat) : Int), mem')) ∧
    (∀ k < min len.toNat f.size, mem' (buf + k) = f.byteAt k) ∧
    ∀ a, a < buf ∨ buf + min len.toNat f.size ≤ a → mem' a = mem a

def sector (i : Nat) : Nat := V.sectorOf (found V f.depth f.extents f.keys i)

/-- Of a block with `w` bytes to read, the sector is zero for zeros only, and otherwise the
sectors from there on are in the partition and have the bytes of the file. -/
structure BlockReadable (i w : Nat) : Prop where
  hole : f.sector i = 0 → ∀ k < w, f.byteAt (i * V.blockSize + k) = 0
  inside : f.sector i ≠ 0 → f.sector i + (w - 1) / V.blksz < V.size
  data : f.sector i ≠ 0 → ∀ k < w, V.data (f.sector i * V.blksz + k) =
    f.byteAt (i * V.blockSize + k)

structure Readable (n : Nat) : Prop where
  returned : n < 2 ^ 31
  low : n ≤ f.inode.size.toNat
  blocks : ∀ i, i * V.blockSize < n →
    f.BlockReadable i (min V.blockSize (n - i * V.blockSize))
  /-- A hole is filled up to the end of its block. -/
  tail : ∀ i, i * V.blockSize < n → n < (i + 1) * V.blockSize → f.sector i ≠ 0

/-! ## The read -/

theorem ascending : Ascending f.extents :=
  f.sorted.imp_of_mem fun {a _} ha _ h => by
    have := f.count_pos a ha
    omega

theorem sector_aligned (i : Nat) : 2 ^ V.log2FsBlocksize ∣ f.sector i := by
  have hlog : V.log2FsBlocksize ≤ 32 := by
    have := V.block_le_max
    unfold Volume.log2FsBlocksize
    omega
  exact (Nat.dvd_mod_iff (Nat.pow_dvd_pow 2 hlog)).mpr (Dvd.intro_left _ rfl)

def plan {n : Nat} (h : n < 2 ^ 31) : Plan V where
  sector := f.sector
  n := n
  aligned := f.sector_aligned
  sector_lt _ := Nat.mod_lt _ (by norm_num)
  n_lt := h

variable {f} {len : UInt32} {buf : Nat} {mem : Memory} {n rounds : Nat}

theorem readFile_cases (f : ExtentFile V) (buf : Nat) (mem : Memory)
    (hlen : min len.toNat f.inode.size.toNat = n) (hn : n < 2 ^ 31) (hrounds : f.depth < rounds) :
    (ext4fsReadFile V f.inode rounds 0 len buf mem =
          some ((n : Int), (f.plan hn).memory buf mem (f.plan hn).count) ∧
        ∀ m, m * V.blockSize < n → f.sector m = 0 ∨ f.sector m = noBlock ∨ (f.plan hn).Inside m) ∨
      (∃ mem', ext4fsReadFile V f.inode rounds 0 len buf mem = some (-1, mem')) ∧
        ∃ m, m * V.blockSize < n ∧ f.sector m ≠ 0 ∧ ¬ (f.plan hn).Inside m := by
  have hbmod : Int.bmod n (2 ^ 32) = n := Int.bmod_eq_of_le (by omega) (by omega)
  have hcount := (f.plan hn).lt_count_iff
  obtain ⟨hread, hdone⟩ | ⟨⟨mem', hread⟩, m, hm, hbad⟩ :=
    (f.plan hn).readBlocks (fun i => (rfl : V.sectorOf (found V f.depth f.extents f.keys i) = _))
      (fun i => readAllocatedBlock_eq f.stores f.ascending hrounds) buf mem
  · refine .inl ⟨?_, fun m hm => hdone m ((hcount m).mpr hm)⟩
    simp only [ext4fsReadFile, hlen, hbmod]
    rw [show (f.plan hn).n = n from rfl] at hread
    rw [hread]
  · refine .inr ⟨⟨mem', ?_⟩, m, (hcount m).mp hm, hbad⟩
    simp only [ext4fsReadFile, hlen]
    rw [show (f.plan hn).n = n from rfl] at hread
    rw [hread]

theorem plan_memory_apply (f : ExtentFile V) (buf : Nat) (mem : Memory) (hn : n < 2 ^ 31)
    (hk : k < V.blockSize) (hi : i * V.blockSize < n) :
    (f.plan hn).memory buf mem (f.plan hn).count (buf + (i * V.blockSize + k)) =
      if f.sector i = 0 then 0
      else if f.sector i ≠ noBlock ∧ i * V.blockSize + k < n then
        V.data (f.sector i * V.blksz + k)
      else mem (buf + (i * V.blockSize + k)) := by
  rw [Plan.memory_add, V.div_block i hk, V.mod_block i hk,
    if_pos (((f.plan hn).lt_count_iff i).mpr hi)]
  rfl

theorem eq_of_bmod_eq {m n : Nat} (hm : m < 2 ^ 32) (h : Int.bmod m (2 ^ 32) = n) :
    m = n ∧ n < 2 ^ 31 := by
  rw [Int.bmod_def] at h
  split at h <;> omega

theorem length_of_returned {mem' : Memory}
    (h : ext4fsReadFile V f.inode rounds 0 len buf mem = some ((n : Int), mem')) :
    min len.toNat f.inode.size.toNat = n ∧ n < 2 ^ 31 := by
  simp only [ext4fsReadFile] at h
  split at h
  · cases h
  · simp only [Option.some.injEq, Prod.mk.injEq] at h
    omega
  · simp only [Option.some.injEq, Prod.mk.injEq] at h
    exact eq_of_bmod_eq (lt_of_le_of_lt (Nat.min_le_left _ _) len.toNat_lt) h.1

theorem ReadsBack.plan (h : f.ReadsBack len buf) (hn : min len.toNat f.size < 2 ^ 31)
    (hlen : min len.toNat f.inode.size.toNat = min len.toNat f.size) (mem : Memory) :
    (∀ k < min len.toNat f.size, (f.plan hn).memory buf mem (f.plan hn).count (buf + k) =
        f.byteAt k) ∧
      (∀ a, a < buf ∨ buf + min len.toNat f.size ≤ a →
        (f.plan hn).memory buf mem (f.plan hn).count a = mem a) ∧
      ∀ m, m * V.blockSize < min len.toNat f.size →
        f.sector m = 0 ∨ f.sector m = noBlock ∨ (f.plan hn).Inside m := by
  obtain ⟨mem', ⟨enough, hread⟩, hbytes, hrest⟩ := h mem
  have hread := hread (max enough (f.depth + 1)) (Nat.le_max_left _ _)
  obtain ⟨hplan, hdone⟩ | ⟨⟨mem'', hfail⟩, -⟩ :=
    readFile_cases f buf mem hlen hn
      (lt_of_lt_of_le (Nat.lt_succ_self _) (Nat.le_max_right enough (f.depth + 1)))
  · rw [hplan] at hread
    obtain rfl : _ = mem' := congrArg Prod.snd (Option.some.inj hread)
    exact ⟨hbytes, hrest, hdone⟩
  · rw [hfail] at hread
    have := congrArg Prod.fst (Option.some.inj hread)
    simp only at this
    omega

theorem readable_of_readsBack (h : f.ReadsBack len buf) : f.Readable (min len.toNat f.size) := by
  have hlen : min len.toNat f.inode.size.toNat = min len.toNat f.size ∧
      min len.toNat f.size < 2 ^ 31 := by
    obtain ⟨mem', ⟨enough, hread⟩, -⟩ := h fun _ => 0
    exact length_of_returned (hread enough le_rfl)
  obtain ⟨hlen, hn⟩ := hlen
  have hplan := h.plan hn hlen
  generalize min len.toNat f.size = n at hlen hn hplan
  refine ⟨hn, hlen ▸ Nat.min_le_right _ _, fun i hi => ?_, fun i hi hpart hzero => ?_⟩
  · have hbyte (mem : Memory) (k : Nat) (hk : k < min V.blockSize (n - i * V.blockSize)) :=
      (plan_memory_apply f buf mem hn (by omega) hi).symm.trans
        ((hplan mem).1 (i * V.blockSize + k) (by omega))
    have hpos : 0 < min V.blockSize (n - i * V.blockSize) := by
      have := V.blockSize_pos
      omega
    -- A block that is left out would need the right bytes in the buffer already.
    have hno : f.sector i ≠ noBlock := by
      intro hno
      have hlost := hbyte (fun _ => f.byteAt (i * V.blockSize) + 1) 0 hpos
      simp [hno, show noBlock ≠ 0 by decide] at hlost
    refine ⟨fun hzero k hk => ?_, fun hne => ?_, fun hne k hk => ?_⟩
    · have hhole := hbyte (fun _ => 0) k hk
      rw [if_pos hzero] at hhole
      exact hhole.symm
    · obtain hzero | hno' | hinside := (hplan fun _ => 0).2.2 i hi
      · exact absurd hzero hne
      · exact absurd hno' hno
      · exact hinside
    · have hdata := hbyte (fun _ => 0) k hk
      rw [if_neg hne, if_pos ⟨hno, by omega⟩] at hdata
      exact hdata
  · -- The byte behind the file is written with the hole.
    have hlt : n - i * V.blockSize < V.blockSize := by
      rw [Nat.add_mul, Nat.one_mul] at hpart
      omega
    have hover := plan_memory_apply f buf (fun _ => 1) hn hlt hi
    rw [if_pos hzero, (hplan fun _ => 1).2.1 _ (.inr (by omega))] at hover
    exact absurd hover (by decide)

theorem readsBack_of_readable (h : f.Readable (min len.toNat f.size)) (buf : Nat) :
    f.ReadsBack len buf := by
  intro mem
  have hlen : min len.toNat f.inode.size.toNat = min len.toNat f.size := by
    have := h.low
    unfold size at this ⊢
    omega
  generalize min len.toNat f.size = n at h hlen
  have hn := h.returned
  have hread (rounds : Nat) (hrounds : rounds ≥ f.depth + 1) :
      ext4fsReadFile V f.inode rounds 0 len buf mem =
        some ((n : Int), (f.plan hn).memory buf mem (f.plan hn).count) := by
    obtain ⟨hplan, -⟩ | ⟨-, m, hm, hne, houtside⟩ := readFile_cases f buf mem hlen hn hrounds
    · exact hplan
    · exact absurd ((h.blocks m hm).inside hne) houtside
  have hsplit (k : Nat) : k = k / V.blockSize * V.blockSize + k % V.blockSize :=
    (Nat.div_add_mod' k V.blockSize).symm
  have hmod (k : Nat) : k % V.blockSize < V.blockSize := Nat.mod_lt _ V.blockSize_pos
  refine ⟨_, ⟨_, hread⟩, fun k hk => ?_, fun a ha => ?_⟩
  · have hk' := hsplit k
    have hi : k / V.blockSize * V.blockSize < n := by omega
    have hw : k % V.blockSize < min V.blockSize (n - k / V.blockSize * V.blockSize) := by
      have := hmod k
      omega
    obtain ⟨hhole, hinside, hdata⟩ := h.blocks _ hi
    rw [hk', plan_memory_apply f buf mem hn (hmod k) hi]
    by_cases hzero : f.sector (k / V.blockSize) = 0
    · rw [if_pos hzero, hhole hzero _ hw]
    · have hno : f.sector (k / V.blockSize) ≠ noBlock :=
        Plan.Inside.ne_noBlock (P := f.plan hn) (hinside hzero)
      rw [if_neg hzero, if_pos ⟨hno, by omega⟩, hdata hzero _ hw]
  · obtain hlt | hge := ha
    · exact Plan.memory_of_lt hlt
    obtain ⟨k, rfl⟩ := Nat.exists_eq_add_of_le (show buf ≤ a by omega)
    have hk' := hsplit k
    by_cases hi : k / V.blockSize * V.blockSize < n
    · have hne := h.tail _ hi (by
        have := hmod k
        rw [Nat.add_mul, Nat.one_mul]
        omega)
      rw [hk', plan_memory_apply f buf mem hn (hmod k) hi, if_neg hne, if_neg (fun hb => by omega)]
    · rw [Plan.memory_add, if_neg (mt ((f.plan hn).lt_count_iff _).mp hi)]

/-! ## Files that are read back -/

theorem keys_eq_nil (h : f.depth = 0) : f.keys = [] := by
  have hstores := f.stores
  rw [h] at hstores
  exact hstores.keys_eq_nil

theorem extentOf_eq (he : e ∈ f.extents) (hcovers : e.Covers i) : f.extentOf i = some e := by
  obtain ⟨front, back, hsplit⟩ := append_of_mem he
  have hsorted := f.sorted
  rw [hsplit, pairwise_append] at hsorted
  rw [extentOf, hsplit, find?_append, find?_eq_none.mpr, Option.none_or,
    find?_cons_of_pos (by simpa using hcovers)]
  intro a ha hcovers'
  have hbefore := hsorted.2.2 a ha e mem_cons_self
  have := (of_decide_eq_true hcovers').2
  have := hcovers.1
  omega

theorem extentOf_eq_none (h : ∀ e ∈ f.extents, ¬ e.Covers i) : f.extentOf i = none := by
  rw [extentOf, find?_eq_none]
  simpa using h

theorem lastBefore_of_flat (hkeys : f.keys = [])
    (hsplit : f.extents = front ++ e :: back) (hstart : e.block ≤ i)
    (hback : ∀ e' ∈ back, i < e'.block) : lastBefore f.extents f.keys i = some e := by
  have hdrop : back.filter (fun e => Precedes [] i e) = [] := by
    rw [filter_eq_nil_iff]
    intro e' he'
    simpa [Precedes] using hback e' he'
  rw [lastBefore, hkeys, hsplit, filter_append, filter_cons_of_pos
    (by simpa [Precedes] using hstart), hdrop, getLast?_concat]

theorem sector_of_covers (hdepth : f.depth = 0) (he : e ∈ f.extents) (hwritten : e.Written)
    (hcovers : e.Covers i) : f.sector i = (e.start + (i - e.block)) * 2 ^ V.log2FsBlocksize ∧
      f.sector i + 2 ^ V.log2FsBlocksize ≤ V.size ∧ f.sector i ≠ 0 := by
  obtain ⟨hle, hlt⟩ := hcovers
  obtain ⟨hstart, hinside⟩ := f.inside e he
  obtain ⟨front, back, hsplit⟩ := append_of_mem he
  have hback : ∀ e' ∈ back, i < e'.block := by
    intro e' he'
    have hsorted := f.sorted
    rw [hsplit, pairwise_append, pairwise_cons] at hsorted
    have := hsorted.2.1.1 e' he'
    omega
  have hcount : e.count = e.len := if_pos hwritten
  have hpos : 0 < 2 ^ V.log2FsBlocksize := Nat.two_pow_pos _
  have hsize := V.size_lt
  have hlast : (e.start + (i - e.block) + 1) * 2 ^ V.log2FsBlocksize ≤ V.size :=
    le_trans (Nat.mul_le_mul_right _ (by omega)) hinside
  have hfound : found V f.depth f.extents f.keys i = (e.start + (i - e.block)) % 2 ^ 32 := by
    rw [found, if_neg (fun h => h.1 hdepth), lastBefore_of_flat (keys_eq_nil hdepth) hsplit hle hback]
    simp only [Extent.blockFor]
    rw [if_neg (by omega), Nat.add_comm]
  have hsector : f.sector i = (e.start + (i - e.block)) * 2 ^ V.log2FsBlocksize := by
    rw [sector, hfound, sectorOf_inside hlast]
  rw [Nat.add_mul, Nat.one_mul] at hlast
  exact ⟨hsector, hsector ▸ hlast, hsector ▸ Nat.mul_ne_zero (by omega) hpos.ne'⟩

theorem sector_of_hole (hdepth : f.depth = 0) (hwritten : ∀ e ∈ f.extents, e.Written)
    (hfirst : ∃ e ∈ f.extents, e.block = 0) (hhole : ∀ e ∈ f.extents, ¬ e.Covers i) :
    f.sector i = 0 := by
  obtain ⟨e, he, hzero⟩ := hfirst
  have hmem : e ∈ f.extents.filter fun e => Precedes [] i e := by
    simpa [Precedes, hzero] using he
  have hlast := getLast?_eq_getLast_of_ne_nil (ne_nil_of_mem hmem)
  have hkept := getLast_mem (ne_nil_of_mem hmem)
  generalize (f.extents.filter fun e => Precedes [] i e).getLast _ = last at hlast hkept
  simp only [mem_filter, Precedes, not_mem_nil, if_false, decide_eq_true_eq] at hkept
  have hbehind : last.len ≤ i - last.block := by
    have hcount : last.count = last.len := if_pos (hwritten last hkept.1)
    have := hhole last hkept.1
    unfold Extent.Covers at this
    omega
  rw [sector, found, if_neg (fun h => h.1 hdepth), lastBefore, keys_eq_nil hdepth, hlast]
  simp [Extent.blockFor, hbehind, Volume.sectorOf]

theorem byteAt_block (i : Nat) (hk : k < V.blockSize) : f.byteAt (i * V.blockSize + k) =
      match f.extentOf i with
      | none => 0
      | some e =>
        if e.Written then V.data ((e.start + (i - e.block)) * V.blockSize + k) else 0 := by
  rw [byteAt, V.div_block i hk, V.mod_block i hk]

theorem readable_of_flat (hdepth : f.depth = 0) (hwritten : ∀ e ∈ f.extents, e.Written)
    (hfirst : ∃ e ∈ f.extents, e.block = 0) (hn : n < 2 ^ 31) (hlow : n ≤ f.inode.size.toNat)
    (htail : ∀ i, i * V.blockSize < n → n < (i + 1) * V.blockSize →
      ∃ e ∈ f.extents, e.Covers i) : f.Readable n := by
  refine ⟨hn, hlow, fun i hi => ?_, fun i hi hpart => ?_⟩
  · by_cases hcovers : ∃ e ∈ f.extents, e.Covers i
    · obtain ⟨e, he, hcovers⟩ := hcovers
      obtain ⟨hsector, hinside, hne⟩ := sector_of_covers hdepth he (hwritten e he) hcovers
      refine ⟨fun hzero => absurd hzero hne, fun _ => ?_, fun _ k hk => ?_⟩
      · have hpart := Plan.part_sectors_lt (P := f.plan hn) i (Plan.part_pos hi)
        exact lt_of_lt_of_le (Nat.add_lt_add_left hpart _) hinside
      · rw [byteAt_block i (by omega), extentOf_eq he hcovers]
        simp only
        rw [if_pos (hwritten e he), hsector, Nat.mul_assoc, ← V.blockSize_eq]
    · have hhole : ∀ e ∈ f.extents, ¬ e.Covers i := fun e he hc => hcovers ⟨e, he, hc⟩
      have hzero := sector_of_hole hdepth hwritten hfirst hhole
      refine ⟨fun _ k hk => ?_, fun hne => absurd hzero hne, fun hne => absurd hzero hne⟩
      rw [byteAt_block i (by omega), extentOf_eq_none hhole]
  · obtain ⟨e, he, hcovers⟩ := htail i hi hpart
    exact (sector_of_covers hdepth he (hwritten e he) hcovers).2.2

end ExtentFile

/-- A read from the start of a file gives the file back exactly if it is readable. -/
theorem readFile_readsBack_iff (f : ExtentFile V) (len : UInt32) (buf : Nat) :
    f.ReadsBack len buf ↔ f.Readable (min len.toNat f.size) :=
  ⟨ExtentFile.readable_of_readsBack, fun h => ExtentFile.readsBack_of_readable h buf⟩

/-! ## A file with an index node -/

def indexRoot : Memory := fun a =>
  [0x0a, 0xf3, 1, 0, 4, 0, 1, 0, 0, 0, 0, 0, 0, 0, 0, 0, 2].getD a 0

def indexLeaf : List UInt8 :=
  [0x0a, 0xf3, 1, 0, 84, 0, 0, 0, 0, 0, 0, 0, 0, 0, 0, 0, 1, 0, 0, 0, 3, 0, 0, 0]

def indexVolume : Volume where
  log2blksz := 9
  log2BlockSize := 10
  size := 16
  data a := if a < 2048 then 0 else indexLeaf.getD (a - 2048) 7
  fsBlksz := 1024
  sector_le_block := by norm_num
  block_le_max := by norm_num
  size_lt := by norm_num
  fsBlksz_eq := .inr (by norm_num)

theorem indexRoot_stores : Stores indexVolume 1 indexRoot [⟨0, 1, 3⟩] [0] := by
  have hentries : ehEntries indexRoot = 1 := by decide +kernel
  have hleaf : Stores indexVolume 0 (indexVolume.block 2) [⟨0, 1, 3⟩] [] :=
    .leaf (by decide +kernel) (by decide +kernel) (by decide +kernel)
  have hkey : eiBlock indexRoot 0 = 0 := by decide +kernel
  have hchild : eiLeaf indexRoot 0 = 2 := by decide +kernel
  have h := @Stores.index indexVolume 0 indexRoot (fun _ => [⟨0, 1, 3⟩]) (fun _ => [])
    (by decide +kernel) (by decide +kernel)
  simp [hentries, hkey, hchild, hleaf] at h
  exact h (by decide)

def indexFile : ExtentFile indexVolume where
  inode := ⟨1024, 0, indexRoot⟩
  depth := 1
  extents := [⟨0, 1, 3⟩]
  keys := [0]
  stores := indexRoot_stores
  count_pos := by decide
  sorted := by decide
  inside := by decide

/-- The first block of the file is the key of the index entry, and is not found. -/
theorem indexFile_not_readsBack : ¬ indexFile.ReadsBack 1024 0 := by
  intro h
  obtain ⟨mem', ⟨enough, hread⟩, -⟩ := h fun _ => 0
  have hread := hread (enough + 2) (by omega)
  have hlen : min (1024 : UInt32).toNat indexFile.inode.size.toNat = 1024 := by decide +kernel
  obtain ⟨-, hdone⟩ | ⟨⟨mem'', hfail⟩, -⟩ := indexFile.readFile_cases 0 (fun _ => 0) hlen
    (by norm_num) (show 1 < enough + 2 by omega)
  · exact absurd (hdone 0 (by decide)) (by decide +kernel)
  · have hreturned := congrArg Prod.fst (Option.some.inj (hfail.symm.trans hread))
    simp only at hreturned
    omega

/-- A file with all its extents in the inode reads back, holes included. -/
theorem flatFile_readsBack (f : ExtentFile V) (len : UInt32) (buf : Nat) (hdepth : f.depth = 0)
    (hwritten : ∀ e ∈ f.extents, e.Written) (hfirst : ∃ e ∈ f.extents, e.block = 0)
    (hsize : f.size < 2 ^ 31)
    (htail : ∀ i, i * V.blockSize < min len.toNat f.size →
      min len.toNat f.size < (i + 1) * V.blockSize → ∃ e ∈ f.extents, e.Covers i) :
    f.ReadsBack len buf := by
  have hle : min len.toNat f.size ≤ f.size := Nat.min_le_right ..
  have hhigh : f.inode.dirAcl.toNat = 0 := by
    unfold ExtentFile.size at hsize
    omega
  refine f.readsBack_of_readable (ExtentFile.readable_of_flat hdepth hwritten hfirst
    (hle.trans_lt hsize) (hle.trans ?_) htail) buf
  rw [ExtentFile.size, hhigh, Nat.mul_zero, Nat.add_zero]

def flatFile : ExtentFile indexVolume where
  inode := ⟨1000, 0, indexVolume.block 2⟩
  depth := 0
  extents := [⟨0, 1, 3⟩]
  keys := []
  stores := .leaf (by decide +kernel) (by decide +kernel) (by decide +kernel)
  count_pos := by decide
  sorted := by decide
  inside := by decide

theorem flatFile_readsBack_block : flatFile.ReadsBack 2000 0 := by
  refine flatFile_readsBack flatFile 2000 0 rfl (by decide) ⟨_, mem_cons_self, rfl⟩
    (by decide +kernel) fun i hi _ => ⟨_, mem_cons_self, Nat.zero_le i, ?_⟩
  have hlt : i * 1024 < 1000 := hi
  change i < 0 + 1
  omega

end UBoot.Ext4
