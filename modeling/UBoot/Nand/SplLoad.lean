import UBoot.Lib.ByteMemory
import UBoot.Lib.Word32
import UBoot.Nand.SkipBad

/-!
# The loader of the SPL

`sfc_nand_load` and `spinand_read_page` of `common/spl/spl_sfc_nand.c`. A block is bad if the
mark in the spare area of its first page says so. Which page reads fail the check of the ECC,
and what the FIFO gives behind the end of a transfer, is up to the device. The loop takes the
number of its rounds.
-/

namespace UBoot.Nand

open ByteMemory Word32

/-- How one call of `spinand_read_page` goes: the page is loaded for its data, and
the first page of a block again for its mark. -/
inductive Ecc
  | passes | dataFails | oobFails
  deriving DecidableEq

/-- What the device makes of the `n`th call for a page in a row, and what comes
behind the end of its data. -/
structure PageReads where
  ecc : Nat → Nat → Ecc
  fifo : Nat → Nat → Nat → UInt8

def NandInfo.pagesPerBlock (nand : NandInfo) : Nat := 2 ^ (nand.eraseShift - nand.writeShift)

section
variable (nand : NandInfo) (chip : Chip) (dev : PageReads) (mem : Nat → UInt8)

def transfer (page column len n : Nat) : List UInt8 :=
  (List.range (4 * ((len + 3) / 4))).map fun k =>
    if k < len then mem (page * nand.writesize + column + k) else dev.fifo page n k

def spinandReadPage (page column dst len n : Nat) (memory : Memory) : Int × Memory :=
  if dev.ecc page n = .dataFails then (-1, memory)
  else
    let memory := storeBytes dst (transfer nand dev mem page column len n) memory
    if page % nand.pagesPerBlock ≠ 0 then (0, memory)
    else if dev.ecc page n = .oobFails then (-1, memory)
    else (if chip.bad (page / nand.pagesPerBlock) then 1 else 0, memory)

/-- The variables of `sfc_nand_load`, and how often the page has been tried. -/
structure Load where
  srcAddr : Nat
  count : Nat
  buf : Nat
  retryCount : Int
  tries : Nat
  memory : Memory

def Load.skipBlock (s : Load) : Load :=
  { s with srcAddr := u32 (s.srcAddr + nand.pagesPerBlock * nand.writesize), tries := 0 }

/-- What a round does with the answer of `spinand_read_page`. -/
def Load.answered (s : Load) (ret : Int) (rlen : Nat) : Load :=
  if ret > 0 then s.skipBlock nand
  else if ret < 0 ∧ s.retryCount ≠ 0 then
    { s with retryCount := s.retryCount - 1, tries := s.tries + 1 }
  else if (if ret < 0 then s.retryCount - 1 else s.retryCount) < 0 then
    { s.skipBlock nand with retryCount := 5 }
  else
    { s with
      buf := s.buf + rlen
      srcAddr := u32 (s.srcAddr + rlen)
      count := s.count - rlen
      retryCount := 5
      tries := 0 }

def Load.rlen (s : Load) : Nat :=
  if nand.writesize - s.srcAddr % nand.writesize < s.count then
    nand.writesize - s.srcAddr % nand.writesize
  else s.count

def Load.round (s : Load) : Load :=
  let (ret, memory) := spinandReadPage nand chip dev mem (s.srcAddr / nand.writesize)
    (s.srcAddr % nand.writesize) s.buf (s.rlen nand) s.tries s.memory
  Load.answered nand { s with memory := memory } ret (s.rlen nand)

def loadLoop : Nat → Load → Option (Int × Memory)
  | 0, _ => none
  | fuel + 1, s => if s.count = 0 then some (0, s.memory) else loadLoop fuel (s.round nand chip dev mem)

def sfcNandLoad (fuel srcAddr count dstAddr : Nat) (memory : Memory) : Option (Int × Memory) :=
  loadLoop nand chip dev mem fuel
    { srcAddr := srcAddr
      count := count
      buf := dstAddr
      retryCount := 5
      tries := 0
      memory := memory }

end

end UBoot.Nand
