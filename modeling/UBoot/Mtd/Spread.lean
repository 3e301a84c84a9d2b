import UBoot.Mtd.MtdpartsBuffer

/-!
# Spreading partitions over bad blocks

`mtdparts spread`: `spread_partitions` makes each partition larger by the bad blocks in it,
and moves the partitions behind it. `mtd_get_len_incl_bad` looks for a bad block at an
offset of which a mask of 32 bits has taken the upper half, so that on a flash of more
than 4 GiB it looks at the wrong block.
-/

namespace UBoot.Mtdparts.Spread

/-! ## Flash chips -/

/-- A flash with erase blocks of a power of two bytes; `erasesize` is a `u32` and `size` a `u64`. -/
structure Geometry where
  shift : Nat
  shift_lt : shift < 32
  size : Nat
  size_lt : size < 2 ^ 64

def Geometry.erasesize (geo : Geometry) : Nat := 2 ^ geo.shift

structure Mtd where
  geometry : Geometry
  blockIsbad : Option (Nat → Bool)

/-! ## Functions -/

/-- The loop of `mtd_get_len_incl_bad`, with its two results. -/
def lenLoop (geo : Geometry) (blockIsbad : Nat → Bool) (length : Nat) :
    Nat → Nat → Nat → Nat → Option (Nat × Bool)
  | 0, _, _, _ => none
  | fuel + 1, offset, lenExclBad, lenInclBad =>
    if lenExclBad < length then
      if geo.size ≤ offset then some (lenInclBad, true)
      else
        let blockLen := geo.erasesize - (offset &&& (geo.erasesize - 1))
        -- `~(mtd->erasesize - 1)` has 32 bits
        let bad := blockIsbad ((offset &&& (2 ^ 32 - geo.erasesize)) / geo.erasesize)
        lenLoop geo blockIsbad length fuel ((offset + blockLen) % 2 ^ 64)
          (if bad then lenExclBad else (lenExclBad + blockLen) % 2 ^ 64)
          ((lenInclBad + blockLen) % 2 ^ 64)
    else some (lenInclBad, false)

/-- Nothing is returned if the loop has no end; a loop that ends comes no more than once to each
offset while the length is the same. -/
def mtdGetLenInclBad (mtd : Mtd) (offset length : Nat) : Option (Nat × Bool) :=
  match mtd.blockIsbad with
  | none => some (length, false)
  | some blockIsbad => lenLoop mtd.geometry blockIsbad length (2 ^ 64 * (length + 2)) offset 0 0

def paddingSize (mtd : Mtd) (offset : Nat) : Option (Nat × Bool) := do
  let (paddingSize, truncated) ← mtdGetLenInclBad mtd offset mtd.geometry.erasesize
  return if truncated then (0, true) else (paddingSize - mtd.geometry.erasesize, false)

def spreadPartition (mtd : Mtd) (part : PartInfo) : Option (PartInfo × Bool) := do
  let (netSize, truncated) ← mtdGetLenInclBad mtd part.offset.toNat part.size.toNat
  let (padding, truncated) ←
    if truncated then some (0, true)
    else paddingSize mtd ((part.offset.toNat + netSize) % 2 ^ 64)
  return ({ part with size := UInt64.ofNat (netSize + padding) }, truncated)

def movedTo (curOffs : UInt64) (part : PartInfo) : PartInfo :=
  if part.offset < curOffs then { part with offset := curOffs } else part

def spreadParts (mtd : Mtd) : UInt64 → List PartInfo → Option (List (PartInfo × Bool))
  | _, [] => some []
  | curOffs, part :: rest => do
    let (part, truncated) ← spreadPartition mtd (movedTo curOffs part)
    let rest ← spreadParts mtd (part.offset + part.size) rest
    return (part, truncated) :: rest

def spreadDevices (getMtdInfo : DevType → UInt8 → Option Mtd) :
    List MtdDevice → Option (Int × List (MtdDevice × List (PartInfo × Bool)))
  | [] => some (0, [])
  | dev :: rest =>
    match getMtdInfo dev.id.type dev.id.num with
    | none => some (1, [])
    | some mtd => do
      let parts ← spreadParts mtd 0 dev.parts
      let (ret, done) ← spreadDevices getMtdInfo rest
      return (ret, (dev, parts) :: done)

def newDevice (done : MtdDevice × List (PartInfo × Bool)) : MtdDevice :=
  { done.1 with parts := done.2.map Prod.fst }

def mtdpartsMaxlen : UInt32 := 512

/-- What `spread_partitions` returns, and each device with its new partitions. -/
def spreadPartitions (getMtdInfo : DevType → UInt8 → Option Mtd) (devices : List MtdDevice) :
    Option (Int × List (MtdDevice × List (PartInfo × Bool))) := do
  let (ret, done) ← spreadDevices getMtdInfo devices
  if ret ≠ 0 then some (ret, done)
  else some ((generateMtdpartsInto mtdpartsMaxlen (done.map newDevice)).1, done)

/-! ## Soundness -/

def endOf (part : PartInfo) : Nat := part.offset.toNat + part.size.toNat

structure WellPlaced (geo : Geometry) (parts : List PartInfo) : Prop where
  ordered : parts.Pairwise fun p q => endOf p ≤ q.offset.toNat
  inside : ∀ p ∈ parts, endOf p ≤ geo.size
  aligned : ∀ p ∈ parts, geo.erasesize ∣ p.offset.toNat ∧ geo.erasesize ∣ p.size.toNat

def goodBytes (mtd : Mtd) (part : PartInfo) : Nat :=
  Nat.count (fun b => part.offset.toNat ≤ b * mtd.geometry.erasesize ∧
    (mtd.blockIsbad.getD fun _ => false) b = false) (endOf part / mtd.geometry.erasesize) *
      mtd.geometry.erasesize

def SameBut (p q : PartInfo) : Prop := q = { p with offset := q.offset, size := q.size }

/-- The partitions are in the same order, disjoint and inside the flash, and one that is not
reported as truncated has good blocks for its size. -/
structure Sound (mtd : Mtd) (parts : List PartInfo) (spread : List (PartInfo × Bool)) : Prop where
  same : List.Forall₂ (fun p q => SameBut p q.1) parts spread
  disjoint : spread.Pairwise fun p q => endOf p.1 ≤ q.1.offset.toNat
  inside : ∀ q ∈ spread, endOf q.1 ≤ mtd.geometry.size
  good : List.Forall₂ (fun p q => q.2 = false → p.size.toNat ≤ goodBytes mtd q.1) parts spread

def chips (geometry : DevType → UInt8 → Option Geometry)
    (bad : DevType → UInt8 → Option (Nat → Bool)) (type : DevType) (num : UInt8) : Option Mtd :=
  (geometry type num).map fun geo => ⟨geo, bad type num⟩

def SoundOn (geometry : DevType → UInt8 → Option Geometry) : Prop :=
  ∀ (bad : DevType → UInt8 → Option (Nat → Bool)) (devices : List MtdDevice)
    (done : List (MtdDevice × List (PartInfo × Bool))),
    (∀ dev ∈ devices, ∀ geo, geometry dev.id.type dev.id.num = some geo →
      WellPlaced geo dev.parts) →
    spreadPartitions (chips geometry bad) devices = some (0, done) →
    done.map Prod.fst = devices ∧
      ∀ d ∈ done, ∃ mtd, chips geometry bad d.1.id.type d.1.id.num = some mtd ∧
        Sound mtd d.1.parts d.2

def Geometry.Fits (geo : Geometry) : Prop :=
  geo.size < geo.erasesize ∨ geo.erasesize ∣ geo.size ∧ geo.size ≤ 2 ^ 32 + geo.erasesize

end UBoot.Mtdparts.Spread
