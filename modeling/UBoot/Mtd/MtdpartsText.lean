import UBoot.Mtd.Mtdparts

/-!
# The text of a list of devices

What `generate_mtdparts` writes for a partition, for a device and for all devices,
and what `part_parse` makes of the text of one partition.
-/

namespace UBoot.Mtdparts

open UBoot.Text List

/-! ## Sizes -/

def EndsSize (rest : List UInt8) : Prop := ∃ c s, rest = c :: s ∧ (c = 0x40 ∨ c = 0x28)

theorem simpleStrtoull_unit (hn : n < 2 ^ 64) (hc : xdigit c = none ∧ c ≠ 0x78) :
    simpleStrtoull 0 (decimal n ++ c :: rest) = (n, c :: rest) := by
  apply simpleStrto_decimal hn
  intro b hb
  cases hb
  exact hc

variable (size : UInt64)

theorem shifts_div :
    (size % 1073741824 = 0 →
      UInt64.ofNat (size / 1073741824).toNat <<< 10 <<< 10 <<< 10 = size) ∧
    (size % 1048576 = 0 → UInt64.ofNat (size / 1048576).toNat <<< 10 <<< 10 = size) ∧
    (size % 1024 = 0 → UInt64.ofNat (size / 1024).toNat <<< 10 = size) := by
  have hlt := size.toNat_lt
  refine ⟨fun h => ?_, fun h => ?_, fun h => ?_⟩
  all_goals
    rw [← UInt64.toNat_inj, UInt64.toNat_mod] at h
    rw [UInt64.ofNat_toNat, ← UInt64.toNat_inj]
    simp [UInt64.toNat_shiftLeft, Nat.shiftLeft_eq] at h ⊢
    omega

theorem memsizeParse_memsizeFormat (hrest : EndsSize rest) :
    memsizeParse (memsizeFormat size ++ rest) = (size, rest) := by
  obtain ⟨hg, hm, hk⟩ := shifts_div size
  unfold memsizeFormat
  split
  · rename_i h
    rw [append_assoc, singleton_append, memsizeParse,
      simpleStrtoull_unit (UInt64.toNat_lt _) (by decide)]
    exact congrArg (·, rest) (hg h)
  · split
    · rename_i h
      rw [append_assoc, singleton_append, memsizeParse,
        simpleStrtoull_unit (UInt64.toNat_lt _) (by decide)]
      exact congrArg (·, rest) (hm h)
    · split
      · rename_i h
        rw [append_assoc, singleton_append, memsizeParse,
          simpleStrtoull_unit (UInt64.toNat_lt _) (by decide)]
        exact congrArg (·, rest) (hk h)
      · obtain ⟨c, s, rfl, hc⟩ := hrest
        have hend : xdigit c = none ∧ c ≠ 0x78 := by
          obtain rfl | rfl := hc <;> decide
        rw [memsizeParse, simpleStrtoull_unit (UInt64.toNat_lt _) hend]
        obtain rfl | rfl := hc <;> exact congrArg (·, _) (UInt64.ofNat_toNat ..)

theorem memsizeFormat_head :
    ∃ c s, memsizeFormat size = c :: s ∧ (xdigit c).isSome := by
  have hdecimal (n : Nat) (rest : List UInt8) :
      ∃ c s, decimal n ++ rest = c :: s ∧ (xdigit c).isSome := by
    obtain ⟨c, s, hs, hc, -⟩ := decimal_head n
    exact ⟨c, s ++ rest, by rw [hs, cons_append], hc⟩
  unfold memsizeFormat
  split
  · exact hdecimal _ _
  · split
    · exact hdecimal _ _
    · split
      · exact hdecimal _ _
      · rw [← append_nil (decimal size.toNat)]
        exact hdecimal _ _

/-! ## What is written -/

def gapText (prevPart : Option PartInfo) (part : PartInfo) : List UInt8 :=
  if hasGap prevPart part then '@'.toUInt8 :: memsizeFormat part.offset else []

def roText (part : PartInfo) : List UInt8 :=
  if part.maskFlags ≠ 0 then ['r'.toUInt8, 'o'.toUInt8] else []

def partText (prevPart : Option PartInfo) (part : PartInfo) : List UInt8 :=
  memsizeFormat part.size ++ (gapText prevPart part ++
    ('('.toUInt8 :: (part.name ++ (')'.toUInt8 :: roText part))))

def partsText : Option PartInfo → List PartInfo → List UInt8
  | _, [] => []
  | prevPart, [part] => partText prevPart part
  | prevPart, part :: rest => partText prevPart part ++ (','.toUInt8 :: partsText (some part) rest)

def devText (dev : MtdDevice) : List UInt8 :=
  dev.id.mtdId ++ (':'.toUInt8 :: partsText none dev.parts)

def devsText : List MtdDevice → List UInt8
  | [] => []
  | [dev] => devText dev
  | dev :: rest => devText dev ++ (';'.toUInt8 :: devsText rest)

theorem put_text (h : put s b = some b') : b'.1 = b.1 ++ s := by
  unfold put at h
  split at h
  · cases h
  · cases h
    rfl

theorem putIf_text (h : putIf c s b = some b') : b'.1 = b.1 ++ if c then s else [] := by
  cases c with
  | true => exact put_text h
  | false =>
    cases h
    exact (append_nil _).symm

variable {part : PartInfo}

theorem putPart_text (hnamed : part.autoName = false)
    (h : putPart numParts prevPart partCnt part b = some b') :
    b'.1 = b.1 ++ (partText prevPart part ++
      if partCnt < numParts.toNat then [','.toUInt8] else []) := by
  simp only [putPart, hnamed, Option.bind_eq_bind, Option.bind_eq_some_iff] at h
  obtain ⟨b₁, h₁, b₂, h₂, b₃, h₃, b₄, h₄, h₅⟩ := h
  rw [putIf_text h₅, putIf_text h₄, putIf_text h₃, putIf_text h₂, put_text h₁]
  simp [partText, gapText, roText, append_assoc]

theorem putParts_text (hnamed : ∀ part ∈ parts, part.autoName = false)
    (hcnt : partCnt + parts.length = numParts.toNat)
    (h : putParts numParts prevPart partCnt parts b = some b') :
    b'.1 = b.1 ++ partsText prevPart parts := by
  induction parts generalizing prevPart partCnt b with
  | nil =>
    cases h
    rw [partsText, append_nil]
  | cons part rest ih =>
    simp only [putParts, Option.bind_eq_bind, Option.bind_eq_some_iff] at h
    obtain ⟨b₁, h₁, h₂⟩ := h
    rw [length_cons] at hcnt
    rw [ih (fun q hq => hnamed q (mem_cons_of_mem _ hq)) (by omega) h₂,
      putPart_text (hnamed part mem_cons_self) h₁]
    cases rest with
    | nil =>
      rw [if_neg (by rw [← hcnt, length_nil]; omega)]
      simp [partsText]
    | cons next rest =>
      rw [if_pos (by rw [← hcnt, length_cons]; omega)]
      simp [partsText, append_assoc]

theorem putDevices_text (hnamed : ∀ dev ∈ devices, ∀ part ∈ dev.parts, part.autoName = false)
    (hcnt : ∀ dev ∈ devices, dev.parts.length < 65536) (h : putDevices devices b = some b') :
    b'.1 = b.1 ++ devsText devices := by
  induction devices generalizing b with
  | nil =>
    cases h
    rw [devsText, append_nil]
  | cons dev rest ih =>
    have hnum : 0 + dev.parts.length = dev.numParts.toNat := by
      rw [Nat.zero_add]
      exact (UInt16.toNat_ofNat_of_lt' (hcnt dev mem_cons_self)).symm
    simp only [putDevices, Option.bind_eq_bind, Option.bind_eq_some_iff] at h
    obtain ⟨b₁, h₁, b₂, h₂, b₃, h₃, h₄⟩ := h
    rw [ih (fun d hd => hnamed d (mem_cons_of_mem _ hd))
      (fun d hd => hcnt d (mem_cons_of_mem _ hd)) h₄]
    have h₂' := putParts_text (hnamed dev mem_cons_self) hnum h₂
    rw [putIf_text h₃, h₂', put_text h₁]
    cases rest with
    | nil => simp [devsText, devText]
    | cons next rest => simp [devsText, devText]

/-! ## What is read of one partition -/

theorem strchr_append (hc : c ∉ s) : strchr c (s ++ c :: rest) = some (s, rest) := by
  induction s with
  | nil => exact if_pos rfl
  | cons b s ih =>
    rw [mem_cons, not_or] at hc
    rw [cons_append, strchr, if_neg (Ne.symm hc.1), ih hc.2]
    rfl

theorem partSize_memsizeFormat {size : UInt64} (hsize : minPartSize ≤ size) (hrest : EndsSize rest)
    :
    partSize (memsizeFormat size ++ rest) = some (size, rest) := by
  obtain ⟨c, s, hs, hc⟩ := memsizeFormat_head size
  unfold partSize
  split
  · rename_i p heq
    rw [hs, cons_append] at heq
    cases heq
    cases hc
  · rw [memsizeParse_memsizeFormat size hrest]
    exact if_neg (UInt64.not_lt.mpr hsize)

theorem partOffset_gapText (prevPart : Option PartInfo) (part : PartInfo) (rest : List UInt8) :
    partOffset (gapText prevPart part ++ 0x28 :: rest) =
      (if hasGap prevPart part then part.offset else offsetNotSpecified, 0x28 :: rest) := by
  unfold gapText
  split
  · exact memsizeParse_memsizeFormat part.offset ⟨0x28, rest, rfl, .inr rfl⟩
  · rfl

theorem partOptions_roText (hflags : part.maskFlags = 0 ∨ part.maskFlags = 1)
    {size : UInt64} (hrest : partEnd size rest = some p) :
    partOptions (roText part ++ rest) = (part.maskFlags, rest) := by
  obtain h | h := hflags
  · rw [roText, h, if_neg (not_not.mpr rfl), nil_append]
    unfold partOptions
    split
    · cases hrest
    · rfl
  · rw [roText, h]
    rfl

theorem partParse_partText (hnamed : part.autoName = false)
    (hname : part.name ≠ []) (hclosed : 0x29 ∉ part.name) (hsize : minPartSize ≤ part.size)
    (hflags : part.maskFlags = 0 ∨ part.maskFlags = 1) (hrest : partEnd part.size rest = some p) :
    partParse (partText prevPart part ++ rest) =
      some ({ part with
        offset := if hasGap prevPart part then part.offset else offsetNotSpecified
        sectorSize := 0 }, p) := by
  have hends : EndsSize (gapText prevPart part ++
      0x28 :: (part.name ++ (0x29 :: (roText part ++ rest)))) := by
    unfold gapText
    split
    · exact ⟨0x40, _, rfl, .inl rfl⟩
    · exact ⟨0x28, _, rfl, .inr rfl⟩
  have htext : partText prevPart part ++ rest = memsizeFormat part.size ++ (gapText prevPart part ++
      0x28 :: (part.name ++ (0x29 :: (roText part ++ rest)))) := by
    simp only [partText, append_assoc, cons_append]
    rfl
  have hbracket : partName (0x28 :: (part.name ++ (0x29 :: (roText part ++ rest)))) =
      some (some part.name, roText part ++ rest) := by
    rw [partName, strchr_append hclosed]
    exact if_neg hname
  obtain ⟨name, autoName, size, offset, maskFlags, sectorSize⟩ := part
  cases hnamed
  rw [htext, partParse, partSize_memsizeFormat hsize hends]
  simp only [Option.bind_eq_bind, Option.bind_some, partOffset_gapText, hbracket,
    partOptions_roText hflags hrest, hrest]
  rfl

end UBoot.Mtdparts
