import UBoot.Lib.Word32

/-!
# The partitions of an SFC NOR flash

`sfc_nor_write` and `sfc_nor_erase` of `drivers/mtd/devices/jz_sfc_nor.c` without
`CONFIG_BURNER`: the commands they give to the chip and the values they return. A
transfer reports no error, and a loop that counts past `2 ^ 32` does not end, so
the loops give the commands of as many rounds as they are asked for.
-/

namespace UBoot.Nor

open Word32

structure NorPartition where
  size : UInt32
  offset : UInt32
  maskFlags : UInt32

structure NorflashPartitions where
  norPartition : Nat → NorPartition
  numPartitionInfo : UInt32

def norflashPartWO : UInt32 := 1

def norflashPartRO : UInt32 := 2

namespace NorflashPartitions

def listed (table : NorflashPartitions) : List NorPartition :=
  if table.numPartitionInfo ≠ 0 ∧ table.numPartitionInfo ≠ 0xffffffff then
    (List.range table.numPartitionInfo.toNat).map table.norPartition
  else []

def matchFlag (table : NorflashPartitions) (flag addr : UInt32) : Bool :=
  table.listed.any fun p => p.offset ≤ addr ∧ addr < p.offset + p.size ∧ p.maskFlags &&& flag ≠ 0

end NorflashPartitions

structure SpiNorInfo where
  pageShift : Nat
  eraseShift : Nat
  pageShift_lt : pageShift < 32
  eraseShift_lt : eraseShift < 31

namespace SpiNorInfo

def pageSize (info : SpiNorInfo) : Nat := 2 ^ info.pageShift
def eraseSize (info : SpiNorInfo) : Nat := 2 ^ info.eraseShift

end SpiNorInfo

inductive Command
  | pageProgram (addr len : Nat)
  | sectorErase (addr : Nat)
  deriving DecidableEq

structure Outcome where
  refused : Bool
  commands : List Command
  ret : Int
  deriving DecidableEq

section
variable (info : SpiNorInfo)

def pageLoop (toAddr len : Nat) : Nat → Nat → List Command
  | 0, _ => []
  | fuel + 1, i =>
    if i < len then
      let actualLen := if info.pageSize ≤ len - i then info.pageSize else len - i
      .pageProgram (u32 (toAddr + i)) actualLen :: pageLoop toAddr len fuel (u32 (i + info.pageSize))
    else []

def pageWrite (fuel toAddr len : Nat) : List Command :=
  let pageOffset := toAddr % info.pageSize
  if u32 (pageOffset + len) ≤ info.pageSize then [.pageProgram toAddr len]
  else
    let actualLen := info.pageSize - pageOffset
    .pageProgram toAddr actualLen :: pageLoop info toAddr len fuel actualLen

def eraseLoop (stop : Nat) : Nat → Nat → List Command
  | 0, _ => []
  | fuel + 1, addr =>
    if addr < stop then
      .sectorErase addr :: eraseLoop stop fuel (u32 (addr + info.eraseSize))
    else []

def eraseLen (len : Nat) : Nat :=
  if len % info.eraseSize ≠ 0 then u32 (len - len % info.eraseSize + info.eraseSize) else len

variable (table : NorflashPartitions)

def sfcNorWrite (fuel : Nat) (toAddr len : UInt32) : Outcome :=
  if table.matchFlag norflashPartRO toAddr then ⟨true, [], 0⟩
  else ⟨false, pageWrite info fuel toAddr.toNat len.toNat, 0⟩

def sfcNorErase (fuel : Nat) (addr len : UInt32) : Outcome :=
  if table.matchFlag norflashPartRO addr then ⟨true, [], 0⟩
  else ⟨false, eraseLoop info (u32 (addr.toNat + eraseLen info len.toNat)) fuel addr.toNat, 0⟩

end

inductive Call
  | write (toAddr len : UInt32)
  | erase (addr len : UInt32)

def Call.exec (info : SpiNorInfo) (table : NorflashPartitions) (fuel : Nat) : Call → Outcome
  | .write toAddr len => sfcNorWrite info table fuel toAddr len
  | .erase addr len => sfcNorErase info table fuel addr len

/-! ## The chip -/

/-- The bytes that a command changes. A page program goes on at the start of its page
when it comes to the end of it, and an erase takes the sector of its address. -/
def Command.Touches (info : SpiNorInfo) (a : Nat) : Command → Prop
  | .pageProgram addr len => ∃ i < len, a =
      addr / info.pageSize * info.pageSize + (addr % info.pageSize + i) % info.pageSize
  | .sectorErase addr => a / info.eraseSize = addr / info.eraseSize

end UBoot.Nor
