import UBoot.Disk.Gpt
import UBoot.Lib.Machine

/-!
# Device firmware upgrade

`dfu_write` and `dfu_read` of `drivers/dfu/dfu.c`, which pass the blocks of a transfer
through a buffer in memory. Pointers into the buffer are offsets from its start, and
memory is available.
-/

namespace UBoot.Dfu

open UBoot.Gpt (crc32)

/-- The state of `struct dfu_entity`, with the bytes of `dfu_buf`. -/
structure Entity where
  dfuBuf : Option (List UInt8)
  crc : UInt32
  offset : UInt64
  iBlkSeqNum : Nat
  iBuf : Nat
  iBufEnd : Nat
  rLeft : Nat
  bLeft : Nat
  badSkip : UInt32
  inited : Bool

def Entity.mem (dfu : Entity) : List UInt8 := dfu.dfuBuf.getD []

def Entity.getBuf (dfu : Entity) (new : List UInt8) : List UInt8 := dfu.dfuBuf.getD new

/-! ## Downloads -/

/-- Bytes that are handed to `write_medium`, with their offset. -/
structure Chunk where
  offset : UInt64
  bytes : List UInt8

/-- What the functions of a medium answer, after the chunks before: the value returned, and
for a chunk the number of bytes written. -/
structure WriteMedium where
  writeMedium : List Chunk → Chunk → Int × Nat
  flushMedium : Option (List Chunk → Int)

structure Download where
  dfu : Entity
  chunks : List Chunk
  printed : List UInt32

def dfuWriteBufferDrain (medium : WriteMedium) (s : Download) : Download × Int :=
  let dfu := s.dfu
  if dfu.iBuf = 0 then (s, 0)
  else
    let chunk : Chunk := ⟨dfu.offset, dfu.mem.take dfu.iBuf⟩
    let (ret, wSize) := medium.writeMedium s.chunks chunk
    ({ s with
        dfu := { dfu with
          crc := crc32 dfu.crc chunk.bytes
          iBuf := 0
          offset := dfu.offset + UInt64.ofNat wSize }
        chunks := s.chunks ++ [chunk] }, ret)

def Entity.startWrite (dfu : Entity) (new : List UInt8) : Entity :=
  { dfu with
    crc := 0
    offset := 0
    badSkip := 0
    iBlkSeqNum := 0
    dfuBuf := some (dfu.getBuf new)
    iBufEnd := (dfu.getBuf new).length
    iBuf := 0
    inited := true }

def Entity.copyIn (dfu : Entity) (buf : List UInt8) : Entity :=
  { dfu with
    dfuBuf := some (dfu.mem.take dfu.iBuf ++ buf ++ dfu.mem.drop (dfu.iBuf + buf.length))
    iBuf := dfu.iBuf + buf.length }

def drainIf (medium : WriteMedium) (full : Bool) (s : Download) (ret : Int) : Download × Int :=
  if full then
    let (s, tret) := dfuWriteBufferDrain medium s
    (s, if ret = 0 then tret else ret)
  else (s, ret)

def finishWrite (medium : WriteMedium) (s : Download) (ret : Int) : Download × Int :=
  let ret := match medium.flushMedium with
    | some flush => flush s.chunks
    | none => ret
  ({ s with
      printed := s.printed ++ [s.dfu.crc]
      dfu := { s.dfu with
        dfuBuf := none
        crc := 0
        offset := 0
        iBlkSeqNum := 0
        iBufEnd := 0
        iBuf := 0
        inited := false } }, ret)

def begun (new : List UInt8) (s : Download) : Download :=
  if s.dfu.inited then s else { s with dfu := s.dfu.startWrite new }

def Download.countBlock (s : Download) : Download :=
  { s with dfu := { s.dfu with iBlkSeqNum := (s.dfu.iBlkSeqNum + 1) &&& 0xffff } }

/-- What follows the copying of a block of `size` bytes. The value returned is never the size,
for the last line is `return ret = (0 ? size : ret)`. -/
def endBlock (medium : WriteMedium) (s : Download) (size : Nat) (ret : Int) : Download × Int :=
  let (s, ret) := drainIf medium (size = 0 ∨ s.dfu.iBufEnd < s.dfu.iBuf + size) s ret
  if size = 0 then finishWrite medium s ret else (s, ret)

def addBlock (medium : WriteMedium) (s : Download) (buf : List UInt8) : Download × Int :=
  let (s, ret) := drainIf medium (s.dfu.iBufEnd < s.dfu.iBuf + buf.length) s 0
  if s.dfu.iBufEnd < s.dfu.iBuf + buf.length then (s, -1)
  else endBlock medium { s with dfu := s.dfu.copyIn buf } buf.length ret

def dfuWrite (medium : WriteMedium) (new : List UInt8) (s : Download) (buf : List UInt8)
    (blkSeqNum : Nat) : Download × Int :=
  let s := begun new s
  if s.dfu.iBlkSeqNum ≠ blkSeqNum then (s, -1) else addBlock medium s.countBlock buf

/-- The calls of `dfu_write`, each with a block and its number. -/
def downloads (medium : WriteMedium) (new : List UInt8) :
    Machine Download (List UInt8 × Nat) Int where
  step s block := dfuWrite medium new s block.1 block.2

/-! ## Uploads -/

/-- What `read_medium` answers: for the call that is given `r_left`, the value returned and
what becomes of it; for the others, the value returned and the bytes. What the first one
leaves in the buffer is not used. -/
structure ReadMedium where
  report : Int × Nat
  readMedium : UInt64 → Nat → Int × List UInt8

def Entity.consume (dfu : Entity) (chunk : Nat) : Entity :=
  { dfu with
    crc := crc32 dfu.crc ((dfu.mem.drop dfu.iBuf).take chunk)
    iBuf := dfu.iBuf + chunk
    bLeft := dfu.bLeft - chunk }

def Entity.refill (dfu : Entity) (bytes : List UInt8) : Entity :=
  { dfu with
    dfuBuf := some (bytes ++ dfu.mem.drop bytes.length)
    iBuf := 0
    bLeft := bytes.length
    offset := dfu.offset + UInt64.ofNat bytes.length
    rLeft := dfu.rLeft - bytes.length }

/-- The loop of `dfu_read_buffer_fill`: the value returned and the bytes put in `buf`. -/
def fillLoop (medium : ReadMedium) : Nat → Entity → Nat → List UInt8 →
    Option (Entity × Int × List UInt8)
  | 0, _, _, _ => none
  | fuel + 1, dfu, size, buf =>
    if size = 0 then some (dfu, buf.length, buf)
    else
      let chunk := min size dfu.bLeft
      let buf := buf ++ (dfu.mem.drop dfu.iBuf).take chunk
      let dfu := dfu.consume chunk
      if size - chunk = 0 then fillLoop medium fuel dfu 0 buf
      else if dfu.rLeft = 0 then some (dfu, buf.length, buf)
      else
        let (ret, bytes) := medium.readMedium dfu.offset (min dfu.iBufEnd dfu.rLeft)
        if ret ≠ 0 then some ({ dfu with iBuf := 0, bLeft := bytes.length }, ret, buf)
        else fillLoop medium fuel (dfu.refill bytes) (size - chunk) buf

def Entity.startRead (dfu : Entity) (new : List UInt8) (rLeft : Nat) : Entity :=
  { dfu with
    dfuBuf := some (dfu.getBuf new)
    rLeft
    iBlkSeqNum := 0
    crc := 0
    offset := 0
    iBufEnd := (dfu.getBuf new).length
    iBuf := 0
    bLeft := 0
    badSkip := 0
    inited := true }

def Entity.finishRead (dfu : Entity) : Entity :=
  { dfu with
    dfuBuf := none
    iBlkSeqNum := 0
    crc := 0
    offset := 0
    iBufEnd := 0
    iBuf := 0
    bLeft := 0
    badSkip := 0
    inited := false }

def begunRead (medium : ReadMedium) (new : List UInt8) (dfu : Entity) : Entity :=
  if dfu.inited then dfu else dfu.startRead new medium.report.2

def Entity.countBlock (dfu : Entity) : Entity :=
  { dfu with iBlkSeqNum := (dfu.iBlkSeqNum + 1) &&& 0xffff }

def endRead (size : Nat) : Entity × Int × List UInt8 → Entity × Int × List UInt8
  | (dfu, ret, buf) =>
    if ret < 0 then (dfu, -1, buf)
    else if ret < size then (dfu.finishRead, ret, buf)
    else (dfu, ret, buf)

/-- One block of `size` bytes at most: the value returned and the bytes. `fuel` bounds the
rounds of the loop. -/
def dfuRead (medium : ReadMedium) (new : List UInt8) (fuel : Nat) (dfu : Entity) (size : Nat)
    (blkSeqNum : Nat) : Option (Entity × Int × List UInt8) :=
  if dfu.inited = false ∧ medium.report.1 ≠ 0 then
    some ({ dfu with dfuBuf := some (dfu.getBuf new), rLeft := medium.report.2 },
      medium.report.1, [])
  else
    let dfu := begunRead medium new dfu
    if dfu.iBlkSeqNum ≠ blkSeqNum then some (dfu, -1, [])
    else (fillLoop medium fuel dfu.countBlock size []).map (endRead size)

/-- The calls of `dfu_read` with blocks of the given sizes, from a number on. -/
def uploads (medium : ReadMedium) (new : List UInt8) (fuel : Nat) :
    Entity → Nat → List Nat → Option (Entity × List (Int × List UInt8))
  | dfu, _, [] => some (dfu, [])
  | dfu, n, size :: sizes =>
    match dfuRead medium new fuel dfu size (n % 2 ^ 16) with
    | none => none
    | some (dfu, ret, buf) =>
      match uploads medium new fuel dfu (n + 1) sizes with
      | none => none
      | some (dfu, rets) => some (dfu, (ret, buf) :: rets)

end UBoot.Dfu
