import UBoot.Lib.FlashMemory

/-!
# Reading and writing NAND flash around bad blocks

`nand_write_skip_bad` and `nand_read_skip_bad` of `drivers/mtd/nand/nand_util.c`, without the
YAFFS layout and with `CONFIG_CMD_NAND_TRIMFFS`, over `drivers/mtd/mtdcore.c`. `size_t` has 32
bits, `loff_t` 64. The loops take the number of their rounds.
-/

namespace UBoot.Nand

open FlashMemory (program)

def eINVAL : Int := -22
def eFBIG : Int := -27
def eROFS : Int := -30
def eUCLEAN : Int := -117

/-- Pages and erase blocks have sizes that are powers of 2; `erasesize` has 32 bits. -/
structure NandInfo where
  writeShift : Nat
  eraseShift : Nat
  blocks : Nat
  writeShift_le : writeShift ≤ eraseShift
  eraseShift_lt : eraseShift < 32
  size_lt : blocks * 2 ^ eraseShift < 2 ^ 63

namespace NandInfo

def writesize (nand : NandInfo) : Nat := 2 ^ nand.writeShift
def erasesize (nand : NandInfo) : Nat := 2 ^ nand.eraseShift
def size (nand : NandInfo) : Nat := nand.blocks * nand.erasesize

end NandInfo

/-- The chip behind the driver: its bad blocks by number, what a write or a read of a
range answers, and what a failed write leaves in the flash. -/
structure Chip where
  bad : Nat → Bool
  writeable : Bool
  writeStatus : Nat → Nat → Int
  readStatus : Nat → Nat → Int
  spoiled : (Nat → UInt8) → Nat → List UInt8 → Nat → UInt8

structure Flash where
  mem : Nat → UInt8
  touched : List Nat

def sizeT (n : Nat) : Nat := n % 2 ^ 32

section
variable (nand : NandInfo) (chip : Chip)

def nandBlockIsbad (ofs : Nat) : Bool :=
  if nand.size < ofs then true else chip.bad (ofs / nand.erasesize)

def nandWrite (flash : Flash) (start : Nat) (buf : List UInt8) : Int × Flash :=
  if nand.size < start ∨ nand.size - start < buf.length then (eINVAL, flash)
  else if !chip.writeable then (eROFS, flash)
  else if buf.length = 0 then (0, flash)
  else
    let touched := flash.touched ++ List.range' start buf.length
    let status := chip.writeStatus start buf.length
    if status = 0 then
      (0, { mem := program flash.mem ((List.range' start buf.length).zip buf), touched := touched })
    else (status, { mem := chip.spoiled flash.mem start buf, touched := touched })

def nandRead (flash : Flash) (start len : Nat) : Int × List UInt8 × Flash :=
  if nand.size < start ∨ nand.size - start < len then (eINVAL, [], flash)
  else if len = 0 then (0, [], flash)
  else
    (chip.readStatus start len, (List.range' start len).map flash.mem,
      { flash with touched := flash.touched ++ List.range' start len })

def blockOff (offset : Nat) : Nat := offset &&& (nand.erasesize - 1)

/-- The loop of `check_skip_len`: its answer, `len_excl_bad` and `used`. -/
def checkSkipLoop (length : Nat) : Nat → Nat → Nat → Nat → Int → Option (Int × Nat × Nat)
  | 0, _, _, _, _ => none
  | fuel + 1, offset, lenExclBad, used, ret =>
    if lenExclBad < length then
      if nand.size ≤ offset then some (-1, lenExclBad, used)
      else
        -- the mask is widened to `loff_t` before it is inverted
        let blockStart := offset &&& (2 ^ 64 - nand.erasesize)
        let blockLen := nand.erasesize - blockOff nand offset
        if nandBlockIsbad nand chip blockStart then
          checkSkipLoop length fuel (offset + blockLen) lenExclBad (sizeT (used + blockLen)) 1
        else
          checkSkipLoop length fuel (offset + blockLen) (sizeT (lenExclBad + blockLen))
            (sizeT (used + blockLen)) ret
    else some (ret, lenExclBad, used)

def checkSkipLen (fuel offset length : Nat) : Option (Int × Nat) := do
  let (ret, lenExclBad, used) ← checkSkipLoop nand chip length fuel offset 0 0 0
  if ret < 0 then some (ret, used)
  else if length < lenExclBad then
    some (ret, sizeT (used + 2 ^ 32 - (lenExclBad - length)))
  else some (ret, used)

def dropFfs (buf : List UInt8) : Nat :=
  let l := (buf.reverse.dropWhile (· == 0xff)).length
  let l := (l + nand.writesize - 1) / nand.writesize * nand.writesize
  min l buf.length

/-- `offset & ~(nand->erasesize - 1)`: the mask is inverted in 32 bits, and what the
offset has above them is lost. -/
def blockStart32 (offset : Nat) : Nat := offset &&& (2 ^ 32 - nand.erasesize)

/-- The loop of `nand_write_skip_bad`: `rval`, what is left to write, and the flash. -/
def writeLoop (drop : Bool) : Nat → Nat → List UInt8 → Flash → Option (Int × Nat × Flash)
  | 0, _, _, _ => none
  | fuel + 1, offset, buffer, flash =>
    if 0 < buffer.length then
      let blockOffset := blockOff nand offset
      if nandBlockIsbad nand chip (blockStart32 nand offset) then
        writeLoop drop fuel (offset + (nand.erasesize - blockOffset)) buffer flash
      else
        let writeSize :=
          if buffer.length < nand.erasesize - blockOffset then buffer.length
          else nand.erasesize - blockOffset
        let truncatedWriteSize :=
          if drop then dropFfs nand (buffer.take writeSize) else writeSize
        let (rval, flash) := nandWrite nand chip flash offset (buffer.take truncatedWriteSize)
        if rval ≠ 0 then some (rval, buffer.length, flash)
        else writeLoop drop fuel (offset + writeSize) (buffer.drop writeSize) flash
    else some (0, 0, flash)

/-- The loop of `nand_read_skip_bad`: `rval`, what is left to read, the bytes read, and
the flash. -/
def readLoop : Nat → Nat → Nat → Flash → Option (Int × Nat × List UInt8 × Flash)
  | 0, _, _, _ => none
  | fuel + 1, offset, leftToRead, flash =>
    if 0 < leftToRead then
      let blockOffset := blockOff nand offset
      if nandBlockIsbad nand chip (blockStart32 nand offset) then
        readLoop fuel (offset + (nand.erasesize - blockOffset)) leftToRead flash
      else
        let readLength :=
          if leftToRead < nand.erasesize - blockOffset then leftToRead
          else nand.erasesize - blockOffset
        let (rval, bytes, flash) := nandRead nand chip flash offset readLength
        if rval ≠ 0 ∧ rval ≠ eUCLEAN then some (rval, leftToRead, [], flash)
        else do
          let (rval, left, rest, flash) ←
            readLoop fuel (offset + readLength) (leftToRead - readLength) flash
          some (rval, left, bytes ++ rest, flash)
    else some (0, 0, [], flash)

/-- What a call leaves: its value, `*length`, `*actual`, the flash, and, for a read, the
bytes in the buffer. -/
structure Result where
  ret : Int
  length : Nat
  actual : Nat
  flash : Flash
  buffer : List UInt8

def nandWriteSkipBad (fuel offset : Nat) (lim : Int) (buffer : List UInt8) (drop : Bool)
    (flash : Flash) : Option Result :=
  let length := buffer.length
  if offset &&& (nand.writesize - 1) ≠ 0 then some ⟨eINVAL, 0, 0, flash, []⟩
  else do
    let (needSkip, usedForWrite) ← checkSkipLen nand chip fuel offset length
    if needSkip < 0 then some ⟨eINVAL, 0, usedForWrite, flash, []⟩
    else if lim < usedForWrite then some ⟨eFBIG, 0, usedForWrite, flash, []⟩
    else if needSkip = 0 ∧ !drop then
      let (rval, flash) := nandWrite nand chip flash offset buffer
      some ⟨rval, if rval = 0 then length else 0, usedForWrite, flash, []⟩
    else
      let (rval, left, flash) ← writeLoop nand chip drop fuel offset buffer flash
      some ⟨rval, length - left, usedForWrite, flash, []⟩

def nandReadSkipBad (fuel offset length : Nat) (lim : Int) (flash : Flash) : Option Result :=
  if offset &&& (nand.writesize - 1) ≠ 0 then some ⟨eINVAL, 0, 0, flash, []⟩
  else do
    let (needSkip, usedForRead) ← checkSkipLen nand chip fuel offset length
    if needSkip < 0 then some ⟨eINVAL, 0, usedForRead, flash, []⟩
    else if lim < usedForRead then some ⟨eFBIG, 0, usedForRead, flash, []⟩
    else if needSkip = 0 then
      let (rval, bytes, flash) := nandRead nand chip flash offset length
      if rval = 0 ∨ rval = eUCLEAN then some ⟨0, length, usedForRead, flash, bytes⟩
      else some ⟨rval, 0, usedForRead, flash, []⟩
    else
      let (rval, left, bytes, flash) ← readLoop nand chip fuel offset length flash
      some ⟨rval, length - left, usedForRead, flash, bytes⟩

end

end UBoot.Nand
