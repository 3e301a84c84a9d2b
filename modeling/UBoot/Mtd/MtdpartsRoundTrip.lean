import UBoot.Mtd.MtdpartsText

/-!
# Reading a generated list of devices

`parse_mtdparts` rebuilds the devices from what `generate_mtdparts` wrote, if they
are devices as a parse could have left them. A partition that `part_validate`
accepts need not be one: the parser refuses sizes below `MIN_PART_SIZE`, which the
size of a fill-up partition may have.
-/

namespace UBoot.Mtdparts

open List

/-! ## Validation -/

theorem resolve_sectorSize (id : MtdId) (part : PartInfo) (sectorSize : UInt32) :
    PartInfo.resolve id { part with sectorSize := sectorSize } =
      { part.resolve id with sectorSize := sectorSize } := by
  unfold PartInfo.resolve
  split <;> rfl

theorem resolve_resolve (id : MtdId) (part : PartInfo) :
    (part.resolve id).resolve id = part.resolve id := by
  by_cases h : part.size = sizeRemaining
  · have hres : part.resolve id = { part with size := id.size - part.offset } := if_pos h
    rw [hres, PartInfo.resolve]
    exact ite_self _
  · have hres : part.resolve id = part := if_neg h
    rw [hres, hres]

theorem partValidate_sectorSize (board : Board) (id : MtdId) (part : PartInfo)
    (sectorSize : UInt32) : partValidate board id { part with sectorSize := sectorSize } =
      partValidate board id part := by
  rw [partValidate, resolve_sectorSize]
  rfl

variable {board : Board} {id : MtdId} {part : PartInfo}

theorem partValidateEraseblock_eq_some
    (h : partValidateEraseblock board id part = some part') :
    ∃ sectorSize, part' = { part with sectorSize := sectorSize } := by
  unfold partValidateEraseblock at h
  split at h
  · cases h
  · split at h
    · cases h
      exact ⟨_, rfl⟩
    · cases h

theorem partValidate_eq_some
    (h : partValidate board id part = some part') :
    (part.resolve id).offset < (part.resolve id).offset + (part.resolve id).size ∧
      partValidateEraseblock board id (part.resolve id) = some part' := by
  simp only [partValidate] at h
  split at h
  · cases h
  · split at h
    · cases h
    · rename_i hwrap
      split at h
      · cases h
      · exact ⟨UInt64.not_le.mp hwrap, h⟩

theorem partValidate_again
    (h : partValidate board id part₀ = some part) : partValidate board id part = some part := by
  obtain ⟨sectorSize, rfl⟩ := partValidateEraseblock_eq_some (partValidate_eq_some h).2
  rw [partValidate_sectorSize, partValidate, resolve_resolve]
  exact h

theorem partValidate_offset_ne
    (h : partValidate board id part = some part) : part.offset ≠ offsetNotSpecified := by
  obtain ⟨hwrap, herase⟩ := partValidate_eq_some h
  obtain ⟨sectorSize, heq⟩ := partValidateEraseblock_eq_some herase
  intro hoff
  have hres : (part.resolve id).offset = offsetNotSpecified :=
    (congrArg PartInfo.offset heq).symm.trans hoff
  -- nothing is behind the highest offset
  rw [hres, UInt64.lt_iff_toNat_lt] at hwrap
  have hlt := (offsetNotSpecified + (part.resolve id).size).toNat_lt
  have hmax : offsetNotSpecified.toNat = 2 ^ 64 - 1 := rfl
  omega

/-! ## Devices that can be read back -/

/-- A partition accepted for its device, with a name of its own and the size and the
flags that a definition in a text can have. -/
structure PartInfo.Listed (board : Board) (id : MtdId) (part : PartInfo) : Prop where
  validated : ∃ part₀, partValidate board id part₀ = some part
  named : part.autoName = false
  name : part.name ≠ []
  closed : ')'.toUInt8 ∉ part.name
  size : minPartSize ≤ part.size
  flags : part.maskFlags = 0 ∨ part.maskFlags = 1

/-- A device that its identifier finds, with partitions in the order of their offsets of
which only the last may be a fill-up one. -/
structure MtdDevice.Listed (board : Board) (ids : List MtdId) (dev : MtdDevice) : Prop where
  found : idFindByMtdId ids dev.id.mtdId = some dev.id
  colon : ':'.toUInt8 ∉ dev.id.mtdId
  parts : ∀ part ∈ dev.parts, part.Listed board dev.id
  nonempty : dev.parts ≠ []
  count : dev.parts.length < 65536
  sorted : dev.parts.Pairwise fun p q => p.offset < q.offset
  fillUp : ∀ part ∈ dev.parts.dropLast, part.size ≠ sizeRemaining

def SameDevice (dev dev' : MtdDevice) : Prop :=
  dev.id.type = dev'.id.type ∧ dev.id.num = dev'.id.num

/-! ## The partitions of a device -/

def prevEnd : Option PartInfo → UInt64
  | none => 0
  | some prev => prev.offset + prev.size

theorem offset_of_no_gap (h : hasGap prevPart part = false) :
    part.offset = prevEnd prevPart := by
  cases prevPart with
  | none => simpa [hasGap, prevEnd] using h
  | some prev => exact (by simpa [hasGap] using h : prev.offset + prev.size = part.offset).symm

variable (prevPart : Option PartInfo)

theorem partText_head (part : PartInfo) (rest : List UInt8) :
    atEnd (partText prevPart part ++ rest) = false := by
  obtain ⟨c, s, hs, hc⟩ := memsizeFormat_head part.size
  rw [partText, hs]
  simp only [cons_append, atEnd, beq_eq_false_iff_ne]
  rintro rfl
  cases hc

theorem partsLoop_partText (hpart : part.Listed board id) (hrest : partEnd part.size rest = some p)
    (fuel : Nat) :
    partsLoop board id (fuel + 1) (prevEnd prevPart) (partText prevPart part ++ rest) =
      (partsLoop board id fuel (part.offset + part.size) p).map fun r => (part :: r.1, r.2) := by
  obtain ⟨part₀, hvalid₀⟩ := hpart.validated
  have hvalid := partValidate_again hvalid₀
  have hplace : PartInfo.place (prevEnd prevPart) { part with
      offset := if hasGap prevPart part then part.offset else offsetNotSpecified
      sectorSize := 0 } = { part with sectorSize := 0 } := by
    cases hgap : hasGap prevPart part with
    | true => simp [PartInfo.place, partValidate_offset_ne hvalid]
    | false => simp [PartInfo.place, offset_of_no_gap hgap]
  rw [partsLoop, if_neg (by rw [partText_head]; exact Bool.false_ne_true),
    partParse_partText hpart.named hpart.name hpart.closed hpart.size hpart.flags hrest]
  simp only [Option.bind_eq_bind, Option.bind_some, hplace, partValidate_sectorSize, hvalid]
  cases partsLoop board id fuel (part.offset + part.size) p <;> rfl

theorem partsLoop_partsText
    (hparts : ∀ part ∈ parts, part.Listed board id)
    (hfill : ∀ part ∈ parts.dropLast, part.size ≠ sizeRemaining) (hne : parts ≠ [])
    (prevPart : Option PartInfo) (hrest : atEnd rest = true) (hfuel : parts.length ≤ fuel) :
    partsLoop board id fuel (prevEnd prevPart) (partsText prevPart parts ++ rest) =
      some (parts, rest) := by
  induction parts generalizing prevPart fuel with
  | nil => exact absurd rfl hne
  | cons part parts ih =>
    obtain ⟨fuel, rfl⟩ : ∃ n, fuel = n + 1 := ⟨fuel - 1, by rw [length_cons] at hfuel; omega⟩
    have hpart := hparts part mem_cons_self
    cases parts with
    | nil =>
      have hend : partEnd part.size rest = some rest := by
        cases rest with
        | nil => rfl
        | cons c rest =>
          obtain rfl : c = ';'.toUInt8 := by simpa [atEnd] using hrest
          rfl
      have hstop (offset : UInt64) : partsLoop board id fuel offset rest = some ([], rest) := by
        cases fuel <;> simp [partsLoop, hrest]
      rw [partsText, partsLoop_partText _ hpart hend, hstop]
      rfl
    | cons next parts =>
      have hcomma : partEnd part.size (','.toUInt8 :: (partsText (some part) (next :: parts) ++
          rest)) = some (partsText (some part) (next :: parts) ++ rest) :=
        if_neg (hfill part (by simp))
      have hstep := partsLoop_partText prevPart hpart hcomma fuel
      rw [partsText, append_assoc, cons_append, hstep]
      · have hih := ih (fun q hq => hparts q (mem_cons_of_mem _ hq))
          (fun q hq => hfill q (by rw [dropLast_cons_cons]; exact mem_cons_of_mem _ hq))
          (cons_ne_nil _ _) (some part) (Nat.le_of_succ_le_succ hfuel)
        rw [prevEnd] at hih
        rw [hih]
        rfl
      · exact cons_ne_nil _ _

theorem partSortAdd_append (h : ∀ p ∈ parts, p.offset < part.offset) :
    partSortAdd parts part = some (parts ++ [part]) := by
  induction parts with
  | nil => rfl
  | cons q parts ih =>
    have hq : q.offset < part.offset := h q mem_cons_self
    have hne : ¬ (part.offset = q.offset ∧ q.offset = 0) := fun h' =>
      absurd (h'.1 ▸ hq) (UInt64.lt_irrefl _)
    rw [partSortAdd, if_neg hne, if_neg (UInt64.not_le.mpr hq),
      ih fun p hp => h p (mem_cons_of_mem _ hp)]
    rfl

theorem foldlM_partSortAdd (done : List PartInfo)
    (h : (done ++ parts).Pairwise fun p q => p.offset < q.offset) :
    parts.foldlM partSortAdd done = some (done ++ parts) := by
  induction parts generalizing done with
  | nil => simp
  | cons part parts ih =>
    have hbefore : ∀ p ∈ done, p.offset < part.offset := fun p hp =>
      (pairwise_append.mp h).2.2 p hp part mem_cons_self
    rw [foldlM_cons, partSortAdd_append hbefore]
    have hih := ih (done ++ [part]) (by simpa using h)
    simpa using hih

/-! ## The devices -/

theorem length_partsText (parts : List PartInfo) :
    parts.length ≤ (partsText prevPart parts).length := by
  induction parts generalizing prevPart with
  | nil => exact Nat.zero_le _
  | cons part parts ih =>
    have hpart : 0 < (partText prevPart part).length := by
      simp only [partText, length_append, length_cons]
      omega
    cases parts with
    | nil => exact hpart
    | cons next parts =>
      have hrest := ih (some part)
      rw [partsText, length_append]
      · simp only [length_cons] at hrest ⊢
        omega
      · exact cons_ne_nil _ _

theorem deviceFind_eq_none (h : ∀ d ∈ devices, ¬ SameDevice d dev) :
    deviceFind devices dev.id.type dev.id.num = none := by
  rw [deviceFind, find?_eq_none]
  intro d hd hsame
  rw [Bool.and_eq_true, beq_iff_eq, beq_iff_eq] at hsame
  exact h d hd hsame

theorem deviceParse_devText (hdev : dev.Listed board ids)
    (hnew : ∀ d ∈ devices, ¬ SameDevice d dev) (hrest : atEnd rest = true) :
    deviceParse board ids devices (devText dev ++ rest) = some (dev, rest.drop 1) := by
  have hfirst : firstOffset devices dev.id = prevEnd none := by
    rw [firstOffset, deviceFind_eq_none hnew]
    rfl
  have hcount : ¬ (dev.parts = [] ∨ UInt16.ofNat dev.parts.length = 0) := by
    rintro (h | h)
    · exact hdev.nonempty h
    · have hlen := congrArg UInt16.toNat h
      rw [UInt16.toNat_ofNat_of_lt' hdev.count] at hlen
      exact hdev.nonempty (eq_nil_of_length_eq_zero hlen)
  have hfuel : dev.parts.length ≤ (partsText none dev.parts ++ rest).length := by
    rw [length_append]
    exact (length_partsText none dev.parts).trans (Nat.le_add_right _ _)
  have hloop := partsLoop_partsText hdev.parts hdev.fillUp hdev.nonempty none hrest hfuel
  have hsort := foldlM_partSortAdd [] hdev.sorted
  rw [devText, append_assoc, cons_append, deviceParse, strchr_append hdev.colon]
  simp only [Option.bind_eq_bind, Option.bind_some, hdev.found, hfirst, hloop, hcount, if_false,
    hsort, nil_append]
  rfl

theorem length_devsText (devices : List MtdDevice) :
    devices.length ≤ (devsText devices).length := by
  induction devices with
  | nil => exact Nat.zero_le _
  | cons dev devices ih =>
    have hdev : 0 < (devText dev).length := by
      rw [devText, length_append, length_cons]
      omega
    cases devices with
    | nil => exact hdev
    | cons next devices =>
      rw [devsText, length_append]
      · simp only [length_cons] at ih ⊢
        omega
      · exact cons_ne_nil _ _

theorem devText_ne_nil (dev : MtdDevice) (rest : List UInt8) : devText dev ++ rest ≠ [] := by
  simp [devText]

theorem devicesLoop_devsText (done : List MtdDevice)
    (hdev : ∀ dev ∈ devices, dev.Listed board ids)
    (hdistinct : (done ++ devices).Pairwise fun d d' => ¬ SameDevice d d')
    (hfuel : devices.length ≤ fuel) :
    devicesLoop board ids fuel done (devsText devices) = some (done ++ devices) := by
  induction devices generalizing done fuel with
  | nil => cases fuel <;> simp [devicesLoop, devsText]
  | cons dev devices ih =>
    obtain ⟨fuel, rfl⟩ : ∃ n, fuel = n + 1 := ⟨fuel - 1, by rw [length_cons] at hfuel; omega⟩
    have hnew : ∀ d ∈ done, ¬ SameDevice d dev := fun d hd =>
      (pairwise_append.mp hdistinct).2.2 d hd dev mem_cons_self
    -- the text of a device and what the loop goes on with
    obtain ⟨rest, htext, hrest, hnext⟩ : ∃ rest, devsText (dev :: devices) = devText dev ++ rest ∧
        atEnd rest = true ∧ rest.drop 1 = devsText devices := by
      cases devices with
      | nil => exact ⟨[], (append_nil _).symm, rfl, rfl⟩
      | cons next devices => exact ⟨_, rfl, rfl, rfl⟩
    have hparse := deviceParse_devText (hdev dev mem_cons_self) hnew hrest
    rw [htext, devicesLoop, if_neg (devText_ne_nil dev rest), hparse]
    simp only [Option.bind_eq_bind, Option.bind_some, deviceFind_eq_none hnew, Option.isSome_none,
      Bool.false_eq_true, if_false, hnext]
    have hih := ih (done ++ [dev]) (fun d hd => hdev d (mem_cons_of_mem _ hd))
      (by simpa using hdistinct) (Nat.le_of_succ_le_succ hfuel)
    simpa using hih

theorem generateMtdparts_eq_ok (hne : devices ≠ [])
    (hnamed : ∀ dev ∈ devices, ∀ part ∈ dev.parts, part.autoName = false)
    (hcnt : ∀ dev ∈ devices, dev.parts.length < 65536)
    (h : generateMtdparts buflen devices = .ok text) : text = mtdpartsEq ++ devsText devices := by
  simp only [generateMtdparts, hne, if_false] at h
  split at h
  · cases h
  · rename_i text' heq
    obtain ⟨b, hput, rfl⟩ := Option.map_eq_some_iff.mp heq
    split at h
    · cases h
      exact putDevices_text hnamed hcnt hput
    · cases h

/-- The devices are rebuilt from the text they were written to. -/
theorem parseMtdparts_generateMtdparts (board : Board) (ids : List MtdId)
    (devices : List MtdDevice) (buflen : UInt32) (text : List UInt8) (hne : devices ≠ [])
    (hdev : ∀ dev ∈ devices, dev.Listed board ids)
    (hdistinct : devices.Pairwise fun d d' => ¬ SameDevice d d')
    (hgen : generateMtdparts buflen devices = .ok text) :
    parseMtdparts board ids text = some devices := by
  have htext := generateMtdparts_eq_ok hne (fun dev hd part hp => ((hdev dev hd).parts part hp).named)
    (fun dev hd => (hdev dev hd).count) hgen
  have htake : text.take 9 = mtdpartsEq := by rw [htext]; rfl
  have hdrop : text.drop 9 = devsText devices := by rw [htext]; rfl
  have hlen := length_devsText devices
  have hsome : devsText devices ≠ [] := by
    intro hnil
    rw [hnil] at hlen
    exact hne (eq_nil_of_length_eq_zero (Nat.le_zero.mp hlen))
  simp only [parseMtdparts, htake, if_true, hdrop, hsome, if_false]
  exact devicesLoop_devsText [] hdev hdistinct hlen

def ascii (s : String) : List UInt8 := s.toList.map Char.toUInt8

def uniformBoard (erasesize : UInt32) : Board := fun _ _ => some ⟨erasesize, []⟩

def sampleId : MtdId := ⟨.nand, 0, 0x1000000, ascii "jz"⟩

def sampleDev : MtdDevice := ⟨sampleId,
  [⟨ascii "boot", false, 0x100000, 0, 1, 0x20000⟩,
   ⟨ascii "root", false, 0x220000, 0x180000, 0, 0x20000⟩]⟩

theorem parseMtdparts_generateMtdparts_sample :
    generateMtdparts 512 [sampleDev] = .ok (ascii "mtdparts=jz:1m(boot)ro,2176k@1536k(root)") ∧
      parseMtdparts (uniformBoard 0x20000) [sampleId]
        (ascii "mtdparts=jz:1m(boot)ro,2176k@1536k(root)") = some [sampleDev] := by
  have hgen : generateMtdparts 512 [sampleDev] =
      .ok (ascii "mtdparts=jz:1m(boot)ro,2176k@1536k(root)") := by decide +kernel
  refine ⟨hgen, parseMtdparts_generateMtdparts _ _ _ 512 _ (cons_ne_nil _ _) ?_
    (pairwise_singleton _ _) hgen⟩
  intro dev hdev
  obtain rfl := mem_singleton.mp hdev
  have hparts : ∀ part ∈ sampleDev.parts, partValidate (uniformBoard 0x20000) sampleId part =
      some part ∧ part.autoName = false ∧ part.name ≠ [] ∧ ')'.toUInt8 ∉ part.name ∧
      minPartSize ≤ part.size ∧ (part.maskFlags = 0 ∨ part.maskFlags = 1) := by decide +kernel
  exact {
    found := by decide +kernel
    colon := by decide +kernel
    parts := fun part hpart =>
      have ⟨h₁, h₂, h₃, h₄, h₅, h₆⟩ := hparts part hpart
      ⟨⟨part, h₁⟩, h₂, h₃, h₄, h₅, h₆⟩
    nonempty := by decide +kernel
    count := by decide +kernel
    sorted := by decide +kernel
    fillUp := by decide +kernel }

def tinyId : MtdId := ⟨.nor, 0, 2048, ascii "f"⟩

def tinyPart : PartInfo := ⟨ascii "a", false, 2048, 0, 0, 2048⟩

/-- The fill-up partition of a flash of 2048 bytes is accepted and written to a text that
is refused. -/
theorem parseMtdparts_refuses_generated :
    parseMtdparts (uniformBoard 2048) [tinyId] (ascii "mtdparts=f:-(a)") =
        some [⟨tinyId, [tinyPart]⟩] ∧
      partValidate (uniformBoard 2048) tinyId tinyPart = some tinyPart ∧
      generateMtdparts 512 [⟨tinyId, [tinyPart]⟩] = .ok (ascii "mtdparts=f:2k(a)") ∧
      parseMtdparts (uniformBoard 2048) [tinyId] (ascii "mtdparts=f:2k(a)") = none := by
  decide +kernel

end UBoot.Mtdparts
