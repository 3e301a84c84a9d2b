import UBoot.Disk.GptBackup

/-!
# Reading an entry of a table

`get_partition_info_efi` takes the entry from the table that `is_gpt_valid` accepts.
The number of entries and their size stand in the header, and the entry is taken as
if its size were that of the structure.
-/

namespace UBoot.Gpt

open BlockDisk LittleEndian

/-! ## The data of an entry -/

def GptEntry.ofBytes (b : List UInt8) : GptEntry where
  partitionTypeGuid := blockOf 16 b
  uniquePartitionGuid := blockOf 16 (b.drop 16)
  startingLba := u64At b 32
  endingLba := u64At b 40
  attributes := u64At b 48
  partitionName := Vector.ofFn fun k => UInt16.ofNat (leValue (field b (56 + 2 * k) 2))

def partitionSystemGuid : Guid :=
  efiGuid 0xC12A7328 0xF81F 0x11d2 [0xBA, 0x4B, 0x00, 0xA0, 0xC9, 0x3E, 0xC9, 0x3B]

def isBootable (p : GptEntry) : Bool :=
  p.attributes &&& 4 ≠ 0 ∨ p.partitionTypeGuid = partitionSystemGuid

def isPteValid (pte : GptEntry) : Bool := pte.partitionTypeGuid ≠ Vector.replicate 16 0

def isPrint (c : UInt8) : Bool := 32 ≤ c ∧ c < 127 ∨ 160 ≤ c

def printEfiname (pte : GptEntry) : List UInt8 :=
  (pte.partitionName.toList.map fun u =>
    let c := u.toUInt8
    if c ≠ 0 ∧ isPrint c = false then 0x2e else c).takeWhile (· ≠ 0)

def hexDigit (n : UInt8) : UInt8 := if n < 10 then 0x30 + n else 0x57 + n

def uuidString (uuid : Guid) : List UInt8 :=
  [3, 2, 1, 0, 5, 4, 7, 6, 8, 9, 10, 11, 12, 13, 14, 15].zipIdx.flatMap fun (k, i) =>
    let b := uuid.get k
    [hexDigit (b / 16), hexDigit (b % 16)] ++
      if i = 3 ∨ i = 5 ∨ i = 7 ∨ i = 9 then [0x2d] else []

/-- What is left of `disk_partition_t`; the text of `uuid` stands without its final zero. -/
structure PartitionInfo where
  start : UInt64
  size : UInt64
  blksz : Nat
  name : Vector UInt8 32
  type : Vector UInt8 32
  bootable : Bool
  uuid : List UInt8

/-- The name of an entry has up to 36 characters: what does not fit in `name` comes to lie in
`type`, where the text `U-Boot` follows. -/
def PartitionInfo.fill (info : PartitionInfo) (uuids : Bool) (blksz : Nat) (pte : GptEntry) :
    PartitionInfo :=
  let name := printEfiname pte ++ [0]
  let both := name ++ (info.name.toList ++ info.type.toList).drop name.length
  { start := pte.startingLba
    size := pte.endingLba + 1 - pte.startingLba
    blksz
    name := blockOf 32 both
    type := blockOf 32 ([0x55, 0x2d, 0x42, 0x6f, 0x6f, 0x74, 0] ++ both.drop 39)
    bootable := isBootable pte
    uuid := if uuids then uuidString pte.uniquePartitionGuid else info.uuid }

/-- What `get_partition_info_efi` does: lets the header be read behind its buffer, returns -1, or
returns 0 with an entry of the table. -/
inductive InfoResult where
  | overread
  | error
  | ok (gptHead : GptHeader) (gptPte : List UInt8) (pte : GptEntry) (info : PartitionInfo)

section

variable (crc : List UInt8 → UInt32) (dev : BlockDev) (disk : Disk blksz) (behind : List UInt8)

/-- The entry with a number, where `behind` follows the table in memory. -/
def entryAt (gptPte behind : List UInt8) (part : Int) : GptEntry :=
  GptEntry.ofBytes ((gptPte ++ behind).drop ((part - 1).toNat * 128))

def getPartitionInfoEfi (uuids : Bool) (part : Int) (info : PartitionInfo) : InfoResult :=
  if part < 1 then .error
  else
    match isGptValid crc dev disk 1 with
    | .overread => .overread
    | .invalid => .error
    | .valid gptHead gptPte =>
      let pte := entryAt gptPte behind part
      if gptHead.numPartitionEntries.toNat < part.toNat ∨ isPteValid pte = false then .error
      else .ok gptHead gptPte pte (info.fill uuids blksz pte)

/-! ## Tables that are accepted -/

def GptHeader.covered (h : GptHeader) : Nat := (h.numPartitionEntries * h.sizeofPartitionEntry).toNat

def firstHeaderOf : GptHeader := GptHeader.ofBytes (disk 1).toList

def entriesOf (h : GptHeader) : List UInt8 :=
  read disk h.partitionEntryLba.toNat
    (blockCnt blksz (h.numPartitionEntries * h.sizeofPartitionEntry))

structure Signed : Prop where
  present : 2 ≤ dev.lba
  signature : (firstHeaderOf disk).signature = 0x5452415020494645

structure Accepted (h : GptHeader) : Prop where
  fits : h.headerSize.toNat ≤ blksz
  checksum : crc (((disk 1).toList.take 16 ++ (le 4 0 ++ (disk 1).toList.drop 20)).take
    h.headerSize.toNat) = h.headerCrc32
  myLba : h.myLba = 1
  firstUsable : h.firstUsableLba ≤ UInt64.ofNat dev.lba
  lastUsable : h.lastUsableLba ≤ UInt64.ofNat dev.lba
  nonempty : h.covered ≠ 0
  entries : h.partitionEntryLba.toNat +
    blockCnt blksz (h.numPartitionEntries * h.sizeofPartitionEntry) ≤ dev.lba
  entriesChecksum : crc ((entriesOf disk h).take h.covered) = h.partitionEntryArrayCrc32

variable {crc dev disk}

theorem allocReadGptEntries_eq_some : allocReadGptEntries dev disk h = some gptPte ↔ h.covered ≠ 0 ∧
      h.partitionEntryLba.toNat +
        blockCnt blksz (h.numPartitionEntries * h.sizeofPartitionEntry) ≤ dev.lba ∧
      gptPte = entriesOf disk h := by
  have hzero : h.numPartitionEntries * h.sizeofPartitionEntry = 0 ↔ h.covered = 0 :=
    UInt32.toNat_inj.symm
  simp only [allocReadGptEntries, hzero, BlockDev.blockRead]
  split
  next hcount => simp [hcount]
  next hcount =>
    split
    next hle => simp [hcount, hle, entriesOf, eq_comm]
    next hle => simp [hle]

theorem isGptValid_signed (h : Signed dev disk) :
    isGptValid crc dev disk 1 =
      let gptHead := firstHeaderOf disk
      let b := (disk 1).toList
      if blksz < gptHead.headerSize.toNat then .overread
      else if crc ((b.take 16 ++ (le 4 0 ++ b.drop 20)).take gptHead.headerSize.toNat) ≠
          gptHead.headerCrc32 then .invalid
      else if gptHead.myLba ≠ 1 then .invalid
      else if UInt64.ofNat dev.lba < gptHead.firstUsableLba then .invalid
      else if UInt64.ofNat dev.lba < gptHead.lastUsableLba then .invalid
      else
        match allocReadGptEntries dev disk gptHead with
        | none => .invalid
        | some gptPte =>
          if crc (gptPte.take gptHead.covered) ≠ gptHead.partitionEntryArrayCrc32 then .invalid
          else .valid gptHead gptPte := by
  have hread : dev.blockRead disk (1 : UInt64).toNat 1 = some (disk 1).toList := by
    have hpresent : (1 : UInt64).toNat + 1 ≤ dev.lba := h.present
    rw [BlockDev.blockRead, if_pos hpresent]
    simp [BlockDisk.read]
  rw [isGptValid, hread]
  exact if_neg (not_not.mpr h.signature)

theorem isGptValid_not_signed (h : ¬ Signed dev disk) : isGptValid crc dev disk 1 = .invalid := by
  rw [isGptValid]
  split
  next => rfl
  next b hb =>
    rw [BlockDev.blockRead] at hb
    split at hb
    next hpresent =>
      cases hb
      refine if_pos fun hsig => h ⟨hpresent, ?_⟩
      rw [firstHeaderOf, ← hsig]
      simp [BlockDisk.read]
    next => cases hb

theorem isGptValid_overread : isGptValid crc dev disk 1 = .overread ↔
    Signed dev disk ∧ blksz < (firstHeaderOf disk).headerSize.toNat := by
  by_cases hsigned : Signed dev disk
  · rw [isGptValid_signed hsigned, and_iff_right hsigned]
    dsimp only
    split
    next h => exact iff_of_true rfl h
    next h =>
      refine iff_of_false (fun hover => ?_) h
      split_ifs at hover
      split at hover
      · cases hover
      · split_ifs at hover
  · rw [isGptValid_not_signed hsigned]
    exact iff_of_false nofun fun h => hsigned h.1

theorem isGptValid_valid : isGptValid crc dev disk 1 = .valid gptHead gptPte ↔ Signed dev disk ∧
      Accepted crc dev disk (firstHeaderOf disk) ∧ gptHead = firstHeaderOf disk ∧
      gptPte = entriesOf disk (firstHeaderOf disk) := by
  by_cases hsigned : Signed dev disk
  · rw [isGptValid_signed hsigned, and_iff_right hsigned]
    constructor
    · intro h
      dsimp only at h
      split_ifs at h with hsize hcrc hlba hfirst hlast
      split at h
      next => cases h
      next gptPte' hentries =>
        obtain ⟨hnonempty, hinside, rfl⟩ := allocReadGptEntries_eq_some.mp hentries
        split_ifs at h with hcrc'
        cases h
        exact ⟨⟨Nat.not_lt.mp hsize, not_not.mp hcrc, not_not.mp hlba, UInt64.not_lt.mp hfirst,
          UInt64.not_lt.mp hlast, hnonempty, hinside, not_not.mp hcrc'⟩, rfl, rfl⟩
    · rintro ⟨haccepted, rfl, rfl⟩
      have hentries : allocReadGptEntries dev disk (firstHeaderOf disk) =
          some (entriesOf disk (firstHeaderOf disk)) :=
        allocReadGptEntries_eq_some.mpr ⟨haccepted.nonempty, haccepted.entries, rfl⟩
      dsimp only
      rw [hentries, if_neg (Nat.not_lt.mpr haccepted.fits), if_neg (not_not.mpr haccepted.checksum),
        if_neg (not_not.mpr haccepted.myLba), if_neg (UInt64.not_lt.mpr haccepted.firstUsable),
        if_neg (UInt64.not_lt.mpr haccepted.lastUsable)]
      exact if_neg (not_not.mpr haccepted.entriesChecksum)
  · rw [isGptValid_not_signed hsigned]
    exact iff_of_false nofun fun h => hsigned h.1

/-! ## Safe reads -/

/-- Nothing is read behind the block of the header, and the entry with a number is among the
bytes that were read and checked, and says where blocks lie that can be used. -/
structure InfoResult.Safe (part : Nat) (r : InfoResult) : Prop where
  header : r ≠ .overread
  entry : ∀ gptHead gptPte pte info, r = .ok gptHead gptPte pte info →
    (part * 128 ≤ gptPte.length ∧ part * 128 ≤ gptHead.covered) ∧
    (gptHead.firstUsableLba ≤ pte.startingLba ∧ pte.startingLba ≤ pte.endingLba ∧
      pte.endingLba ≤ gptHead.lastUsableLba) ∧
    info.size.toNat = pte.endingLba.toNat + 1 - pte.startingLba.toNat

structure Placed (h : GptHeader) (part : Nat) (pte : GptEntry) : Prop where
  covered : part * 128 ≤ h.covered
  first_le : h.firstUsableLba ≤ pte.startingLba
  le : pte.startingLba ≤ pte.endingLba
  le_last : pte.endingLba ≤ h.lastUsableLba
  counted : pte.endingLba.toNat + 1 - pte.startingLba.toNat < 2 ^ 64

structure Sound (crc : List UInt8 → UInt32) (dev : BlockDev) (disk : Disk blksz)
    (behind : List UInt8) (part : Int) : Prop where
  fits : Signed dev disk → (firstHeaderOf disk).headerSize.toNat ≤ blksz
  placed : Signed dev disk → Accepted crc dev disk (firstHeaderOf disk) →
    part.toNat ≤ (firstHeaderOf disk).numPartitionEntries.toNat →
    isPteValid (entryAt (entriesOf disk (firstHeaderOf disk)) behind part) = true →
    Placed (firstHeaderOf disk) part.toNat
      (entryAt (entriesOf disk (firstHeaderOf disk)) behind part)

theorem covered_le_length (hsigned : Signed dev disk) (h : GptHeader) :
    h.covered ≤ (entriesOf disk h).length := by
  have hpos : 0 < blksz := by
    refine Nat.pos_of_ne_zero fun hzero => ?_
    subst hzero
    have hnil : (disk 1).toList = [] := List.eq_nil_of_length_eq_zero Vector.length_toList
    have hsig := hsigned.signature
    rw [firstHeaderOf, hnil] at hsig
    exact absurd hsig (by decide)
  rw [entriesOf, length_read, GptHeader.covered, blockCnt]
  generalize h.numPartitionEntries * h.sizeofPartitionEntry = count
  have hsub : count.toNat ≤ (count - 1).toNat + 1 := by
    rw [UInt32.toNat_sub, UInt32.toNat_one]
    have := count.toNat_lt
    omega
  have hmod := Nat.div_add_mod (count - 1).toNat blksz
  have hlt := Nat.mod_lt (count - 1).toNat hpos
  rw [Nat.add_mul, Nat.one_mul, Nat.mul_comm]
  omega

theorem fill_size_toNat (hle : pte.startingLba ≤ pte.endingLba) (info : PartitionInfo)
    (uuids : Bool) (blksz : Nat) :
    (info.fill uuids blksz pte).size.toNat = pte.endingLba.toNat + 1 - pte.startingLba.toNat ↔
      pte.endingLba.toNat + 1 - pte.startingLba.toNat < 2 ^ 64 := by
  have hlt := pte.endingLba.toNat_lt
  have hle := UInt64.le_iff_toNat_le.mp hle
  rw [PartitionInfo.fill]
  dsimp only
  rw [UInt64.toNat_sub, UInt64.toNat_add, UInt64.toNat_one]
  omega

theorem getPartitionInfoEfi_safe_iff (crc : List UInt8 → UInt32) (uuids : Bool) (dev : BlockDev)
    (disk : Disk blksz) (behind : List UInt8) (info : PartitionInfo) (part : Int)
    (hpart : 1 ≤ part) :
    (getPartitionInfoEfi crc dev disk behind uuids part info).Safe part.toNat ↔
      Sound crc dev disk behind part := by
  rw [getPartitionInfoEfi, if_neg (Int.not_lt.mpr hpart)]
  cases hvalid : isGptValid crc dev disk 1 with
  | overread =>
    obtain ⟨hsigned, hlt⟩ := isGptValid_overread.mp hvalid
    exact iff_of_false (fun h => h.header rfl) fun h => absurd (h.fits hsigned) (Nat.not_le.mpr hlt)
  | invalid =>
    have hfits : Signed dev disk → (firstHeaderOf disk).headerSize.toNat ≤ blksz := by
      intro hsigned
      by_contra hlt
      rw [isGptValid_overread.mpr ⟨hsigned, Nat.not_le.mp hlt⟩] at hvalid
      cases hvalid
    refine iff_of_true ⟨nofun, nofun⟩ ⟨hfits, fun hsigned haccepted => ?_⟩
    rw [isGptValid_valid.mpr ⟨hsigned, haccepted, rfl, rfl⟩] at hvalid
    cases hvalid
  | valid gptHead gptPte =>
    obtain ⟨hsigned, haccepted, rfl, rfl⟩ := isGptValid_valid.mp hvalid
    have hlength := covered_le_length hsigned (firstHeaderOf disk)
    dsimp only
    split
    next herror =>
      refine iff_of_true ⟨nofun, nofun⟩ ⟨fun _ => haccepted.fits, fun _ _ hle hpte => ?_⟩
      obtain hlt | hpte' := herror
      · exact absurd hle (Nat.not_le.mpr hlt)
      · rw [hpte] at hpte'
        cases hpte'
    next hok =>
      obtain ⟨hle, hpte⟩ := not_or.mp hok
      constructor
      · rintro ⟨-, hentry⟩
        obtain ⟨⟨-, hcovered⟩, ⟨hfirst, hstart, hlast⟩, hsize⟩ := hentry _ _ _ _ rfl
        refine ⟨fun _ => haccepted.fits, fun _ _ _ _ => ?_⟩
        exact ⟨hcovered, hfirst, hstart, hlast, (fill_size_toNat hstart _ _ _).mp hsize⟩
      · rintro ⟨-, hplaced⟩
        have hplaced := hplaced hsigned haccepted (Nat.not_lt.mp hle) (by simpa using hpte)
        refine ⟨nofun, ?_⟩
        rintro _ _ _ _ ⟨⟩
        exact ⟨⟨hplaced.covered.trans hlength, hplaced.covered⟩,
          ⟨hplaced.first_le, hplaced.le, hplaced.le_last⟩,
          (fill_size_toNat hplaced.le _ _ _).mpr hplaced.counted⟩

def sampleEntries : List UInt8 :=
  let entry (first last : UInt64) : GptEntry :=
    { partitionTypeGuid := partitionBasicDataGuid, startingLba := first, endingLba := last }
  (entry 34 40).bytes ++ (entry 50 40).bytes ++ List.replicate 256 0

def sampleHeader (headerSize sizeofPartitionEntry : UInt32) : GptHeader :=
  GptHeader.seal efiCrc32
    { signature := 0x5452415020494645
      headerSize := headerSize
      myLba := 1
      firstUsableLba := 34
      lastUsableLba := 94
      partitionEntryLba := 2
      numPartitionEntries := 4
      sizeofPartitionEntry := sizeofPartitionEntry
      partitionEntryArrayCrc32 :=
        efiCrc32 (sampleEntries.take (4 * sizeofPartitionEntry).toNat) }

def sampleDisk (headerSize sizeofPartitionEntry : UInt32) : Disk 512 := fun b =>
  blockOf 512 (if b = 1 then (sampleHeader headerSize sizeofPartitionEntry).block else sampleEntries)

def emptyInfo : PartitionInfo := ⟨0, 0, 0, Vector.replicate 32 0, Vector.replicate 32 0, false, []⟩

theorem getPartitionInfoEfi_safe_sample :
    (getPartitionInfoEfi efiCrc32 smallDev (sampleDisk 92 128) [] true 1 emptyInfo).Safe 1 := by
  refine (getPartitionInfoEfi_safe_iff efiCrc32 true smallDev (sampleDisk 92 128) [] emptyInfo 1
    (by decide)).mpr ⟨fun _ => by decide +kernel, fun _ _ _ _ => ?_⟩
  constructor <;> decide +kernel

/-- The header may say that it is longer than its block. The entries may be shorter than the
structure, so that one that is used has no checksum; it also ends before it begins. -/
theorem getPartitionInfoEfi_hostile :
    ¬ (getPartitionInfoEfi efiCrc32 smallDev (sampleDisk 513 128) [] true 1 emptyInfo).Safe 1 ∧
    ∃ gptHead gptPte pte info,
      getPartitionInfoEfi efiCrc32 smallDev (sampleDisk 92 1) [] true 2 emptyInfo =
        .ok gptHead gptPte pte info ∧
      gptHead.covered = 4 ∧ info.size = 0xfffffffffffffff7 ∧
      ¬ (InfoResult.ok gptHead gptPte pte info).Safe 2 := by
  constructor
  · intro hsafe
    have hover : isGptValid efiCrc32 smallDev (sampleDisk 513 128) 1 = .overread :=
      isGptValid_overread.mpr ⟨⟨by decide, by decide +kernel⟩, by decide +kernel⟩
    refine hsafe.header ?_
    rw [getPartitionInfoEfi, if_neg (by decide), hover]
  · have hvalid : isGptValid efiCrc32 smallDev (sampleDisk 92 1) 1 =
        .valid (sampleHeader 92 1) sampleEntries := by
      have hblock : smallDev.blockRead (sampleDisk 92 1) (1 : UInt64).toNat 1 =
          some (sampleHeader 92 1).block := by
        rw [BlockDev.blockRead, if_pos (by decide)]
        simp [BlockDisk.read, sampleDisk, toList_blockOf, List.take_of_length_le]
      have hentries : allocReadGptEntries smallDev (sampleDisk 92 1) (sampleHeader 92 1) =
          some sampleEntries := by
        refine allocReadGptEntries_eq_some.mpr ⟨by decide, by decide, ?_⟩
        have hlength : sampleEntries.length = 512 := by
          simp only [sampleEntries, List.length_append, GptEntry.length_bytes,
            List.length_replicate]
        have hblocks : entriesOf (sampleDisk 92 1) (sampleHeader 92 1) =
            (blockOf 512 sampleEntries).toList ++ [] := rfl
        rw [hblocks, toList_blockOf _ hlength.ge, List.take_of_length_le hlength.le,
          List.append_nil]
      rw [isGptValid_of_header hblock rfl rfl (GptHeader.seal_checksum rfl) rfl (by decide) (by decide) hentries]
      exact if_pos rfl
    have hok : getPartitionInfoEfi efiCrc32 smallDev (sampleDisk 92 1) [] true 2 emptyInfo =
        .ok (sampleHeader 92 1) sampleEntries (entryAt sampleEntries [] 2)
          (emptyInfo.fill true 512 (entryAt sampleEntries [] 2)) := by
      rw [getPartitionInfoEfi, if_neg (by decide), hvalid]
      exact if_neg (by decide +kernel)
    refine ⟨_, _, _, _, hok, rfl, by decide +kernel, fun hsafe => ?_⟩
    exact absurd (hsafe.entry _ _ _ _ rfl).1.2 (by decide)

end

end UBoot.Gpt
