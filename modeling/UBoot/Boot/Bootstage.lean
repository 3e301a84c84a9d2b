import UBoot.Lib.Word32

/-!
# Reading back the boot stages

The checks that `bootstage_unstash` of `common/bootstage.c` makes of a header before it copies
the records behind it. The header has 16 bytes and a record 20. Addresses and sizes are numbers
of 32 bits.
-/

namespace UBoot.Boot

open Word32

structure BootstageHdr where
  version : UInt32
  count : UInt32
  size : UInt32
  magic : UInt32

def bootstageVersion : UInt32 := 0

def bootstageMagic : UInt32 := 0xb00757a3

/-- The bytes copied, and the record in the table where they go. -/
structure RecordCopy where
  src : Nat
  len : Nat
  record : Nat
  deriving DecidableEq

/-- What is copied and the new `next_id`, or nothing where a check fails. -/
def unstashCopy (base : Nat) (size : Int) (hdr : BootstageHdr) (nextId idCount : Nat) :
    Option (RecordCopy × Nat) :=
  let stop := if size = -1 then 2 ^ 32 - 1 else ((base + size) % 2 ^ 32).toNat
  if u32 (base + 16) > stop then none
  else if hdr.magic ≠ bootstageMagic then none
  else if u32 (base + hdr.size.toNat) > stop then none
  else if u32 (hdr.count.toNat * 20) > hdr.size.toNat then none
  else if hdr.version ≠ bootstageVersion then none
  else if u32 (nextId + hdr.count.toNat) > idCount then none
  else some (⟨u32 (base + 16), u32 (hdr.count.toNat * 20), nextId⟩, u32 (nextId + hdr.count.toNat))

structure RecordCopy.Inside (copy : RecordCopy) (base : Nat) (size : Int) (idCount : Nat) :
    Prop where
  src_ge : base ≤ copy.src
  src_le : (copy.src + copy.len : Int) ≤ base + size
  dest_le : copy.record * 20 + copy.len ≤ idCount * 20

/-- The checks, as conditions on the fields of the header. -/
def BootstageHdr.Passes (hdr : BootstageHdr) (base : Nat) (size : Int) (nextId idCount : Nat) :
    Prop :=
  u32 (base + 16) ≤ base + size ∧ hdr.magic = bootstageMagic ∧
    u32 (base + hdr.size.toNat) ≤ base + size ∧ u32 (hdr.count.toNat * 20) ≤ hdr.size.toNat ∧
    hdr.version = bootstageVersion ∧ u32 (nextId + hdr.count.toNat) ≤ idCount

variable {base nextId idCount : Nat} {size : Int} {hdr : BootstageHdr}

theorem unstashCopy_eq_some_iff (hsize : 0 ≤ size) (hend : base + size < 2 ^ 32) :
    unstashCopy base size hdr nextId idCount = some out ↔
      hdr.Passes base size nextId idCount ∧
        (⟨u32 (base + 16), u32 (hdr.count.toNat * 20), nextId⟩,
          u32 (nextId + hdr.count.toNat)) = out := by
  have hstop (n : Nat) : n ≤ ((base + size) % 2 ^ 32).toNat ↔ n ≤ base + size := by omega
  norm_num at hstop
  simp [unstashCopy, BootstageHdr.Passes, if_neg (show size ≠ -1 by omega), hstop, and_assoc]

theorem count_le_of_inside {count : Nat} (hcount : count < 2 ^ 32) (hsize : size < 2 ^ 31)
    (hids : idCount * 20 < 2 ^ 31) (hnext : nextId ≤ idCount)
    (hfits : u32 (nextId + count) ≤ idCount) (hinside : 16 + u32 (count * 20) ≤ size) :
    count ≤ idCount := by
  rw [u32_eq] at hfits hinside
  by_contra hlarge
  -- The sum wraps around, and so the bytes are few less than can be counted.
  obtain ⟨less, hless⟩ : ∃ less, count + less = 2 ^ 32 := ⟨2 ^ 32 - count, by omega⟩
  have hsmall : less ≤ idCount := by omega
  have hbytes : count * 20 % 2 ^ 32 + less * 20 = 2 ^ 32 := by omega
  omega

/-- The header is not counted: what is copied lies in the area just where there is room for the
header and the records. -/
theorem unstashCopy_inside_iff (base : Nat) (size : Int) (hdr : BootstageHdr)
    (nextId idCount : Nat) (hsize : 0 ≤ size) (hint : size < 2 ^ 31) (hend : base + size < 2 ^ 32)
    (hids : idCount * 20 < 2 ^ 31) (hnext : nextId ≤ idCount) :
    (∀ copy next, unstashCopy base size hdr nextId idCount = some (copy, next) →
      copy.Inside base size idCount ∧ next ≤ idCount) ↔
      (hdr.Passes base size nextId idCount → 16 + 20 * hdr.count.toNat ≤ size) := by
  simp only [unstashCopy_eq_some_iff hsize hend]
  have hcount := hdr.count.toNat_lt
  constructor
  · intro h hpasses
    obtain ⟨⟨hge, hle, -⟩, -⟩ := h _ _ ⟨hpasses, rfl⟩
    have hfits := hpasses.2.2.2.2.2
    have hroom : 16 + u32 (hdr.count.toNat * 20) ≤ size := by
      simp only [u32_eq (base + 16)] at hge hle
      omega
    have hsmall := count_le_of_inside hcount hint hids hnext hfits hroom
    rw [u32_of_lt (by omega)] at hroom
    omega
  · rintro h copy next ⟨hpasses, heq⟩
    have hroom := h hpasses
    have hfits := hpasses.2.2.2.2.2
    cases heq
    rw [u32_of_lt (show base + 16 < 2 ^ 32 by omega), u32_of_lt (show _ * 20 < 2 ^ 32 by omega)]
    rw [u32_of_lt (show nextId + _ < 2 ^ 32 by omega)] at hfits ⊢
    exact ⟨⟨by simp, by simp only; omega, by simp only; omega⟩, hfits⟩

/-- A header and one record, in an area for them. -/
theorem unstashCopy_inside_one :
    unstashCopy 4096 36 ⟨0, 1, 36, bootstageMagic⟩ 0 20 = some (⟨4112, 20, 0⟩, 1) ∧
      RecordCopy.Inside ⟨4112, 20, 0⟩ 4096 36 20 := by
  have hcopy : unstashCopy 4096 36 ⟨0, 1, 36, bootstageMagic⟩ 0 20 = some (⟨4112, 20, 0⟩, 1) := by
    decide +kernel
  exact ⟨hcopy, ((unstashCopy_inside_iff 4096 36 ⟨0, 1, 36, bootstageMagic⟩ 0 20 (by decide)
    (by decide) (by decide) (by decide) (by decide)).mpr (fun _ => by decide) _ _ hcopy).1⟩

/-- The area ends four bytes into the record. -/
theorem unstashCopy_outside :
    unstashCopy 4096 20 ⟨0, 1, 20, bootstageMagic⟩ 0 20 = some (⟨4112, 20, 0⟩, 1) ∧
      ¬ RecordCopy.Inside ⟨4112, 20, 0⟩ 4096 20 20 :=
  ⟨by decide +kernel, fun h => absurd h.src_le (by decide)⟩

end UBoot.Boot
