import UBoot.Lib.ByteMemory

/-!
# S-records over the serial line

`srec_decode` of `common/s_record.c`, and `save_serial`, `read_record` and
`load_serial` of `common/cmd_load.c`. A character is a byte. The console is the
serial line, and what it is shown (the echo, a dot for a hundred lines) is left
out. `getc` waits for ever behind the last character.
-/

namespace UBoot.Serial

open ByteMemory

abbrev Text := List UInt8

def chNul : UInt8 := 0
def chCtrlC : UInt8 := 3
def chNewline : UInt8 := 10
def chReturn : UInt8 := 13
def chS : UInt8 := 83

/-! ## srec_decode -/

inductive SrecType
  | start
  | data2
  | data3
  | data4
  | count
  | end4
  | end3
  | end2
  | empty
  deriving DecidableEq

inductive SrecError
  | badType
  | noSrec
  | badChks
  deriving DecidableEq

structure Srec where
  type : SrecType
  count : Int
  addr : Nat
  data : List UInt8
  deriving DecidableEq

def hex1Bin (c : UInt8) : Option Nat :=
  if 48 ≤ c ∧ c ≤ 57 then some (c.toNat - 48)
  else if 97 ≤ c ∧ c ≤ 102 then some (c.toNat + 10 - 97)
  else if 65 ≤ c ∧ c ≤ 70 then some (c.toNat + 10 - 65)
  else none

/-- A byte and the text behind it. At the end of the text stands a `NUL`, which
is no digit. -/
def hex2Bin : Text → Option (UInt8 × Text)
  | c :: d :: input => do
    let i ← hex1Bin c
    let j ← hex1Bin d
    some (UInt8.ofNat (i * 16 + j), input)
  | _ => none

def hexBytes : Nat → Text → Option (List UInt8 × Text)
  | 0, input => some ([], input)
  | n + 1, input => do
    let (v, input) ← hex2Bin input
    let (bytes, input) ← hexBytes n input
    some (v :: bytes, input)

def skipToS : Text → Text
  | [] => []
  | c :: input => if c = chS then input else skipToS input

/-- The type of a record, the bytes of its address, and what its length counts
beside the data. Count records have no data. -/
def recordType (v : UInt8) (count : Nat) : Option (SrecType × Int × Nat) :=
  if v = 48 then some (.start, count - 3, 2)
  else if v = 49 then some (.data2, count - 3, 2)
  else if v = 50 then some (.data3, count - 4, 3)
  else if v = 51 then some (.data4, count - 5, 4)
  else if v = 53 then some (.count, 0, 2)
  else if v = 55 then some (.end4, count - 5, 4)
  else if v = 56 then some (.end3, count - 4, 3)
  else if v = 57 then some (.end2, count - 3, 2)
  else none

def addrOf (bytes : List UInt8) : Nat :=
  bytes.foldl (fun addr v => (addr * 256 + v.toNat) % 2 ^ 32) 0

def chksum (bytes : List UInt8) : UInt8 := bytes.foldl (· + ·) 0

def srecDecode (input : Text) : Except SrecError Srec :=
  match skipToS input with
  | [] => .ok ⟨.empty, 0, 0, []⟩
  | v :: input =>
    match hex2Bin input with
    | none => .error .noSrec
    | some (length, input) =>
      match recordType v length.toNat with
      | none => .error .badType
      | some (type, count, addrLen) =>
        let fields : Option (List UInt8 × List UInt8 × UInt8) := do
          let (addr, input) ← hexBytes addrLen input
          let (data, input) ← hexBytes count.toNat input
          let (check, _) ← hex2Bin input
          some (addr, data, check)
        match fields with
        | none => .error .noSrec
        | some (addr, data, check) =>
          if check ≠ ~~~ chksum (length :: (addr ++ data)) then .error .badChks
          else .ok ⟨type, count, addrOf addr, data⟩

/-! ## load_serial -/

def srecMaxRecLen : Nat := 512 + 4

inductive Line
  | record (text : Text)
  | hangup

/-- A line of at most `len` characters and the characters behind it; `none`
waits for more. -/
def readRecord : Nat → Text → Option (Line × Text)
  | 0, input => some (.record [], input)
  | _ + 1, [] => none
  | len + 1, c :: input =>
    if c = chReturn ∨ c = chNewline then some (.record [], input)
    else if c = chNul ∨ c = chCtrlC then some (.hangup, input)
    else
      (readRecord len input).map fun
        | (.record text, input) => (.record (c :: text), input)
        | (.hangup, input) => (.hangup, input)

structure Flash where
  addr2info : Nat → Bool
  flashWrite : List UInt8 → Nat → Memory → Option Memory

structure LoadState where
  mem : Memory
  startAddr : Nat
  endAddr : Nat

/-- `size` is what is printed and put into `filesize`. -/
inductive Loaded
  | aborted (mem : Memory)
  | done (addr size : Nat) (mem : Memory)
  /-- a length of a record that leaves less than no data -/
  | overrun

section
variable (flash : Flash) (offset : Int)

def storeRecord (r : Srec) (s : LoadState) : Option LoadState := do
  let storeAddr := ((r.addr + offset) % 2 ^ 32).toNat
  let mem ← if flash.addr2info storeAddr then flash.flashWrite r.data storeAddr s.mem
    else some (storeBytes storeAddr r.data s.mem)
  let last := ((storeAddr + r.count - 1) % 2 ^ 32).toNat
  some
    { mem := mem
      startAddr := if storeAddr < s.startAddr then storeAddr else s.startAddr
      endAddr := if s.endAddr < last then last else s.endAddr }

/-- `none` waits for characters, or has spent its fuel. -/
def loadLoop : Nat → Text → LoadState → Option Loaded
  | 0, _, _ => none
  | fuel + 1, input, s =>
    match readRecord srecMaxRecLen input with
    | none => none
    | some (.hangup, _) => some (.aborted s.mem)
    | some (.record text, input) =>
      match srecDecode text with
      | .error _ => some (.aborted s.mem)
      | .ok r =>
        match r.type with
        | .data2 | .data3 | .data4 =>
          if r.count < 0 then some .overrun
          else
            match storeRecord flash offset r s with
            | none => some (.aborted s.mem)
            | some s => loadLoop fuel input s
        | .end2 | .end3 | .end4 =>
          some (.done r.addr ((s.endAddr + 2 ^ 32 - s.startAddr + 1) % 2 ^ 32) s.mem)
        | .start | .count | .empty => loadLoop fuel input s

def loadSerial (fuel : Nat) (input : Text) (mem : Memory) : Option Loaded :=
  loadLoop flash offset fuel input ⟨mem, 2 ^ 32 - 1, 0⟩

end

/-! ## save_serial -/

def hexDigit (n : Nat) : UInt8 := if n < 10 then UInt8.ofNat (48 + n) else UInt8.ofNat (55 + n)

/-- The conversions `%02X` and `%08lX`, of numbers that fit. -/
def hexField : Nat → Nat → Text
  | 0, _ => []
  | width + 1, n => hexField width (n / 16) ++ [hexDigit (n % 16)]

def srec3Start : Text := [83, 48, 48, 51, 48, 48, 48, 48, 70, 67, chNewline]

def srec3End : Text := [83, 55, 48, 53, 48, 48, 48, 48, 48, 48, 48, 48, 70, 65, chNewline]

def srecBytesPerRecord : Nat := 16

structure SaveState where
  address : Nat
  reclen : Nat
  checksum : Nat
  data : Text

def collect (mem : Memory) (s : SaveState) : SaveState :=
  let c := (mem ((s.address + s.reclen) % 2 ^ 32)).toNat
  { s with
    checksum := s.checksum + c
    data := s.data ++ [hexDigit (c / 16 % 16), hexDigit (c % 16)]
    reclen := s.reclen + 1 }

def dump (s : SaveState) : Text × SaveState :=
  let record :=
    if s.reclen ≠ 0 then
      let length := 4 + s.reclen + 1
      let checksum := s.checksum + (length % 256 + length / 256 % 256) +
        (s.address % 256 + s.address / 256 % 256 + s.address / 65536 % 256 +
          s.address / 16777216 % 256)
      [chS, 51] ++ hexField 2 length ++ hexField 8 s.address ++ s.data ++
        hexField 2 (255 - checksum % 256) ++ [chNewline]
    else []
  (record, ⟨(s.address + s.reclen) % 2 ^ 32, 0, 0, []⟩)

def saveLoop (mem : Memory) : Nat → SaveState → Text
  | 0, s => (dump s).1
  | count + 1, s =>
    let s := collect mem s
    let (record, s) :=
      if s.reclen = srecBytesPerRecord ∨ count = 0 then dump s else ([], s)
    if count ≠ 0 then record ++ saveLoop mem count s else record

def saveSerial (address count : Nat) (mem : Memory) : Text :=
  srec3Start ++ saveLoop mem count ⟨address, 0, 0, []⟩ ++ srec3End

def onLine (cr : Bool) (text : Text) : Text :=
  text.flatMap fun c => if cr ∧ c = chNewline then [chReturn, c] else [c]

end UBoot.Serial
