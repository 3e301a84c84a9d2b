import UBoot.Text.Strto

/-!
# The `mtdparts` variable

`common/cmd_mtdparts.c`: the list of flash devices with their partitions,
`generate_mtdparts` that writes it as text and `parse_mtdparts` that reads the text
back. Texts stand without their final zero, and memory is always available.
-/

namespace UBoot.Mtdparts

open UBoot.Text

/-! ## Devices and partitions -/

inductive DevType where
  | nor
  | nand
  | onenand
deriving DecidableEq

structure MtdId where
  type : DevType
  num : UInt8
  size : UInt64
  mtdId : List UInt8
deriving DecidableEq

structure PartInfo where
  name : List UInt8
  autoName : Bool
  size : UInt64
  offset : UInt64
  maskFlags : UInt32
  sectorSize : UInt32
deriving DecidableEq

structure MtdDevice where
  id : MtdId
  parts : List PartInfo
deriving DecidableEq

/-- The field `num_parts`, a `u16` that `part_sort_add` and `part_del` count. -/
def MtdDevice.numParts (dev : MtdDevice) : UInt16 := UInt16.ofNat dev.parts.length

structure EraseRegion where
  offset : UInt64
  erasesize : UInt32
  numblocks : UInt32

structure MtdInfo where
  erasesize : UInt32
  eraseregions : List EraseRegion

abbrev Board := DevType → UInt8 → Option MtdInfo

def sizeRemaining : UInt64 := 0xffffffffffffffff

def offsetNotSpecified : UInt64 := 0xffffffffffffffff

def minPartSize : UInt64 := 4096

/-! ## Sizes in text -/

def memsizeParse (ptr : List UInt8) : UInt64 × List UInt8 :=
  let (n, p) := simpleStrtoull 0 ptr
  let ret := UInt64.ofNat n
  match p with
  | [] => (ret, [])
  | c :: rest =>
    if c = 'G'.toUInt8 ∨ c = 'g'.toUInt8 then (ret <<< 10 <<< 10 <<< 10, rest)
    else if c = 'M'.toUInt8 ∨ c = 'm'.toUInt8 then (ret <<< 10 <<< 10, rest)
    else if c = 'K'.toUInt8 ∨ c = 'k'.toUInt8 then (ret <<< 10, rest)
    else (ret, c :: rest)

def memsizeFormat (size : UInt64) : List UInt8 :=
  if size % 1073741824 = 0 then decimal (size / 1073741824).toNat ++ ['g'.toUInt8]
  else if size % 1048576 = 0 then decimal (size / 1048576).toNat ++ ['m'.toUInt8]
  else if size % 1024 = 0 then decimal (size / 1024).toNat ++ ['k'.toUInt8]
  else decimal size.toNat

/-! ## Validation -/

/-- The addresses at which the blocks of a region begin; `start` is an `ulong` of 32
bits. -/
def EraseRegion.starts (r : EraseRegion) : List UInt64 :=
  (List.range r.numblocks.toNat).map fun j =>
    (r.offset.toUInt32 + UInt32.ofNat j * r.erasesize).toUInt64

def lastEnd (rs : List EraseRegion) : UInt64 :=
  match rs.getLast? with
  | none => 0
  | some r => (r.offset.toUInt32 + r.numblocks * r.erasesize).toUInt64

def MtdInfo.aligned (mtd : MtdInfo) (offset size : UInt64) : Bool :=
  if mtd.eraseregions.isEmpty then
    offset % mtd.erasesize.toUInt64 == 0 && size % mtd.erasesize.toUInt64 == 0
  else
    (mtd.eraseregions.flatMap EraseRegion.starts).contains offset &&
      ((mtd.eraseregions.flatMap EraseRegion.starts).contains (offset + size) ||
        offset + size == lastEnd mtd.eraseregions)

def partValidateEraseblock (board : Board) (id : MtdId) (part : PartInfo) : Option PartInfo :=
  match board id.type id.num with
  | none => none
  | some mtd =>
    if mtd.aligned part.offset part.size then some { part with sectorSize := mtd.erasesize }
    else none

def PartInfo.resolve (id : MtdId) (part : PartInfo) : PartInfo :=
  if part.size = sizeRemaining then { part with size := id.size - part.offset } else part

def partValidate (board : Board) (id : MtdId) (part : PartInfo) : Option PartInfo :=
  let part := part.resolve id
  if id.size < part.offset then none
  else if part.offset + part.size ≤ part.offset then none
  else if id.size < part.offset + part.size then none
  else partValidateEraseblock board id part

/-! ## Parsing -/

/-- The text before the first `c` and the text behind it. -/
def strchr (c : UInt8) : List UInt8 → Option (List UInt8 × List UInt8)
  | [] => none
  | b :: s => if b = c then some ([], s) else (strchr c s).map fun r => (b :: r.1, r.2)

def partSize (p : List UInt8) : Option (UInt64 × List UInt8) :=
  match p with
  | 0x2d :: p => some (sizeRemaining, p)
  | p =>
    let (size, p) := memsizeParse p
    if size < minPartSize then none else some (size, p)

def partOffset (p : List UInt8) : UInt64 × List UInt8 :=
  match p with
  | 0x40 :: p => memsizeParse p
  | p => (offsetNotSpecified, p)

def partName (p : List UInt8) : Option (Option (List UInt8) × List UInt8) :=
  match p with
  | 0x28 :: name =>
    match strchr 0x29 name with
    | none => none
    | some (name, p) => if name = [] then none else some (some name, p)
  | p => some (none, p)

def partOptions (p : List UInt8) : UInt32 × List UInt8 :=
  match p with
  | 0x72 :: 0x6f :: p => (1, p)
  | p => (0, p)

def partEnd (size : UInt64) (p : List UInt8) : Option (List UInt8) :=
  match p with
  | [] => some []
  | 0x2c :: p => if size = sizeRemaining then none else some p
  | 0x3b :: p => some (0x3b :: p)
  | _ => none

def hex08 (n : UInt64) : List UInt8 :=
  let ds := (Nat.toDigits 16 n.toNat).map Char.toUInt8
  List.replicate (8 - ds.length) '0'.toUInt8 ++ ds

def generatedName (size offset : UInt64) : List UInt8 :=
  (['0'.toUInt8, 'x'.toUInt8] ++ hex08 size ++ ['@'.toUInt8, '0'.toUInt8, 'x'.toUInt8] ++
    hex08 offset).take 21

def partParse (partdef : List UInt8) : Option (PartInfo × List UInt8) := do
  let (size, p) ← partSize partdef
  let (offset, p) := partOffset p
  let (name, p) ← partName p
  let (maskFlags, p) := partOptions p
  let p ← partEnd size p
  return ({
    name := name.getD (generatedName size offset)
    autoName := name.isNone
    size, offset, maskFlags
    sectorSize := 0 }, p)

def atEnd : List UInt8 → Bool
  | [] => true
  | c :: _ => c == ';'.toUInt8

def PartInfo.place (offset : UInt64) (part : PartInfo) : PartInfo :=
  { part with offset := if part.offset = offsetNotSpecified then offset else part.offset }

def partsLoop (board : Board) (id : MtdId) :
    Nat → UInt64 → List UInt8 → Option (List PartInfo × List UInt8)
  | 0, _, p => if atEnd p then some ([], p) else none
  | fuel + 1, offset, p =>
    if atEnd p then some ([], p)
    else do
      let (part, p) ← partParse p
      let part ← partValidate board id (part.place offset)
      let (parts, p) ← partsLoop board id fuel (part.offset + part.size) p
      return (part :: parts, p)

def partSortAdd : List PartInfo → PartInfo → Option (List PartInfo)
  | [], part => some [part]
  | pi :: rest, part =>
    if part.offset = pi.offset ∧ pi.offset = 0 then none
    else if part.offset ≤ pi.offset then some (part :: pi :: rest)
    else (partSortAdd rest part).map (pi :: ·)

def idFindByMtdId (ids : List MtdId) (mtdId : List UInt8) : Option MtdId :=
  ids.find? fun id => id.mtdId == mtdId

def deviceFind (devices : List MtdDevice) (type : DevType) (num : UInt8) : Option MtdDevice :=
  devices.find? fun dev => dev.id.type == type && dev.id.num == num

def firstOffset (devices : List MtdDevice) (id : MtdId) : UInt64 :=
  match deviceFind devices id.type id.num with
  | none => 0
  | some dev =>
    match dev.parts.getLast? with
    | none => 0
    | some part => part.offset + part.size

def deviceParse (board : Board) (ids : List MtdId) (devices : List MtdDevice)
    (mtdDev : List UInt8) : Option (MtdDevice × List UInt8) := do
  let (mtdId, p) ← strchr ':'.toUInt8 mtdDev
  let id ← idFindByMtdId ids mtdId
  let (tmpList, p) ← partsLoop board id p.length (firstOffset devices id) p
  -- `err` is 1 before the first partition, and the count of partitions is a `u16`
  if tmpList = [] ∨ UInt16.ofNat tmpList.length = 0 then none
  else
    let parts ← tmpList.foldlM partSortAdd []
    return ({ id, parts }, p.drop 1)

def devicesLoop (board : Board) (ids : List MtdId) :
    Nat → List MtdDevice → List UInt8 → Option (List MtdDevice)
  | 0, devices, p => if p = [] then some devices else none
  | fuel + 1, devices, p =>
    if p = [] then some devices
    else do
      let (dev, p) ← deviceParse board ids devices p
      if (deviceFind devices dev.id.type dev.id.num).isSome then none
      else devicesLoop board ids fuel (devices ++ [dev]) p

def mtdpartsEq : List UInt8 := "mtdparts=".toList.map Char.toUInt8

def parseMtdparts (board : Board) (ids : List MtdId) (mtdparts : List UInt8) :
    Option (List MtdDevice) :=
  if mtdparts.take 9 = mtdpartsEq then
    let p := mtdparts.drop 9
    if p = [] then none else devicesLoop board ids p.length [] p
  else none

/-! ## Generating -/

/-- The text so far and the space that is left, `maxlen`. -/
abbrev Buf := List UInt8 × Nat

def put (s : List UInt8) (b : Buf) : Option Buf :=
  if b.2 < s.length then none else some (b.1 ++ s, b.2 - s.length)

def putIf (c : Bool) (s : List UInt8) (b : Buf) : Option Buf := if c then put s b else some b

def hasGap (prevPart : Option PartInfo) (part : PartInfo) : Bool :=
  match prevPart with
  | none => part.offset != 0
  | some prev => prev.offset + prev.size != part.offset

def putPart (numParts : UInt16) (prevPart : Option PartInfo) (partCnt : Nat) (part : PartInfo)
    (b : Buf) : Option Buf := do
  let b ← put (memsizeFormat part.size) b
  let b ← putIf (hasGap prevPart part) ('@'.toUInt8 :: memsizeFormat part.offset) b
  let b ← putIf (!part.autoName) ('('.toUInt8 :: (part.name ++ [')'.toUInt8])) b
  -- the `&&` of the source asks for any flag
  let b ← putIf (part.maskFlags != 0) ['r'.toUInt8, 'o'.toUInt8] b
  putIf (partCnt < numParts.toNat) [','.toUInt8] b

/-- The loop over the partitions; `partCnt` counts the one at hand. -/
def putParts (numParts : UInt16) : Option PartInfo → Nat → List PartInfo → Buf → Option Buf
  | _, _, [], b => some b
  | prevPart, partCnt, part :: rest, b => do
    let b ← putPart numParts prevPart (partCnt + 1) part b
    putParts numParts (some part) (partCnt + 1) rest b

def putDevices : List MtdDevice → Buf → Option Buf
  | [], b => some b
  | dev :: rest, b => do
    let b ← put (dev.id.mtdId ++ [':'.toUInt8]) b
    let b ← putParts dev.numParts none 0 dev.parts b
    let b ← putIf (rest ≠ []) [';'.toUInt8] b
    putDevices rest b

/-- What `generate_mtdparts` does: returns 1, returns 0 with a text in the buffer, or
returns 0 after it has written behind the buffer. -/
inductive Generated where
  | error
  | ok (buf : List UInt8)
  | overrun
deriving DecidableEq

/-- The first nine characters are not counted in `maxlen`. -/
def generateMtdparts (buflen : UInt32) (devices : List MtdDevice) : Generated :=
  let text :=
    if devices = [] then some []
    else (putDevices devices (mtdpartsEq, (buflen - 1).toNat)).map Prod.fst
  match text with
  | none => .error
  | some text => if text.length < buflen.toNat then .ok text else .overrun

end UBoot.Mtdparts
