import UBoot.Lib.LittleEndian
import UBoot.Nor.SfcNor

/-!
# Reads of an SFC NOR flash

`sfc_nor_read` of `drivers/mtd/devices/jz_sfc_nor.c` and the transfer below it in
`jz_sfc_common.c`, down to the words of the FIFO. The status register is polled
without an end, so the loops are given the number of polls and of transfers they
may take.
-/

namespace UBoot.Nor

open LittleEndian Word32

def threshold : Nat := 31

/-- `data` is a pointer: the bytes it stands for are those of its value modulo `2 ^ 32`. -/
structure SfcTransfer where
  addr : Nat
  len : Nat
  data : Nat
  curLen : Nat

structure Sfc where
  transfer : SfcTransfer
  popped : Nat
  polls : Nat
  stored : List (Nat × UInt8)

def store (data : Nat) (bytes : List UInt8) : List (Nat × UInt8) :=
  (bytes.zipIdx data).map fun p => (u32 p.2, p.1)

/-! ## The controller -/

/-- A controller asks for a read when its FIFO is full enough, which it is at the polls
that are `ready`; it may report the end along with the last request. Words reach
behind the bytes of a transfer, and the FIFO can be read when it is empty. -/
structure Controller where
  flash : Nat → UInt8
  behind : Nat → UInt8
  ready : Nat → Bool
  endsEarly : Nat → Bool
  fair : ∀ t, ∃ t' ≥ t, ready t' = true

structure Status where
  rreq : Bool
  ends : Bool

namespace Controller

variable (c : Controller)

def byte (transfer : SfcTransfer) (i : Nat) : UInt8 :=
  if i < transfer.len then c.flash (transfer.addr + i) else c.behind i

def word (transfer : SfcTransfer) (k : Nat) : Nat :=
  leValue [c.byte transfer (4 * k), c.byte transfer (4 * k + 1), c.byte transfer (4 * k + 2),
    c.byte transfer (4 * k + 3)]

end Controller

def SfcTransfer.words (transfer : SfcTransfer) : Nat := (transfer.len + 3) / 4

/-- `SFC_SR`. The requests to write and the errors are not raised in a read. -/
def Controller.status (c : Controller) (s : Sfc) : Status :=
  if c.ready s.polls then
    if s.popped < s.transfer.words then
      ⟨true, decide (s.transfer.words ≤ s.popped + threshold) && c.endsEarly s.polls⟩
    else ⟨false, true⟩
  else ⟨false, false⟩

/-! ## Transfers -/

section
variable (c : Controller)

def wordBytes (aligned : Bool) (w : Nat) : List UInt8 :=
  if aligned then le 4 w
  else [UInt8.ofNat (w >>> 0 &&& 0xff), UInt8.ofNat (w >>> 8 &&& 0xff),
    UInt8.ofNat (w >>> 16 &&& 0xff), UInt8.ofNat (w >>> 24 &&& 0xff)]

/-- The next word of the FIFO, of which `bytes` are stored. -/
def Sfc.take (s : Sfc) (bytes : List UInt8) : Sfc where
  transfer := ⟨s.transfer.addr, s.transfer.len, s.transfer.data + bytes.length,
    u32 (s.transfer.curLen + 4)⟩
  popped := s.popped + 1
  polls := s.polls
  stored := s.stored ++ store s.transfer.data bytes

def readWord (aligned : Bool) (s : Sfc) : Sfc :=
  s.take (wordBytes aligned (c.word s.transfer s.popped))

def readWords (aligned : Bool) : Nat → Sfc → Sfc
  | 0, s => s
  | n + 1, s => readWords aligned n (readWord c aligned s)

def readLastWord (s : Sfc) : Sfc :=
  let w := c.word s.transfer s.popped
  s.take ((List.range (s.transfer.len % 4)).map fun i => UInt8.ofNat (w >>> (i * 8) &&& 0xff))

def fifoNum (transfer : SfcTransfer) : Nat × Bool :=
  let alignLen := u32 (transfer.len + 3) / 4 * 4
  let rest := u32 (alignLen + 2 ^ 32 - transfer.curLen) / 4
  if threshold < rest then (threshold, false)
  else if transfer.len % 4 ≠ 0 then (u32 (rest + 2 ^ 32 - 1), true)
  else (rest, false)

def cpuReadRxfifo (s : Sfc) : Sfc :=
  let next := readWords c (s.transfer.data % 4 == 0) (fifoNum s.transfer).1 s
  if (fifoNum s.transfer).2 then readLastWord c next else next

def Sfc.polled (s : Sfc) : Sfc := { s with polls := s.polls + 1 }

def sfcSrHandle : Nat → Sfc → Option Sfc
  | 0, _ => none
  | polls + 1, s =>
    let sr := c.status s
    let next := (if sr.rreq then cpuReadRxfifo c s else s).polled
    if sr.ends then some next else sfcSrHandle polls next

/-- A transfer of `sfc_do_read`; what it returns is the `curLen` after it. -/
def sfcDoRead (polls now : Nat) (stored : List (Nat × UInt8)) (addr data len : Nat) : Option Sfc :=
  sfcSrHandle c polls ⟨⟨addr, len, data, 0⟩, 0, now, stored⟩

/-- The loop of `sfc_read`: the bytes stored by all transfers. -/
def sfcRead (polls start buf : Nat) :
    Nat → Nat → Nat → Nat → List (Nat × UInt8) → Option (List (Nat × UInt8))
  | 0, _, len, _, stored => if len ≠ 0 then none else some stored
  | rounds + 1, currentLen, len, now, stored =>
    if len ≠ 0 then
      match sfcDoRead c polls now stored (u32 (start + currentLen)) (buf + currentLen) len with
      | none => none
      | some s =>
        let tmpLen := s.transfer.curLen
        sfcRead polls start buf rounds (u32 (currentLen + tmpLen)) (u32 (len + 2 ^ 32 - tmpLen))
          s.polls s.stored
    else some stored

def sfcNorRead (table : NorflashPartitions) (polls rounds : Nat) (start len buf : UInt32) :
    Option (List (Nat × UInt8)) :=
  if table.matchFlag norflashPartWO start then some []
  else sfcRead c polls start.toNat buf.toNat rounds 0 len.toNat 0 []

end

end UBoot.Nor
