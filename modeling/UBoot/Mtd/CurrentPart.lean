import UBoot.Lib.Machine
import UBoot.Mtd.Mtdparts

/-!
# The current partition

`common/cmd_mtdparts.c`: `part_add` and `part_del` keep the number of the current partition.
The structures have their addresses, so that a partition can be told from another of the same
contents. Environment variables are left out.
-/

namespace UBoot.Mtdparts.Current

/-! ## State -/

structure Part where
  ptr : Nat
  info : PartInfo
deriving DecidableEq

structure Dev where
  ptr : Nat
  id : MtdId
  parts : List Part
  numParts : UInt16
deriving DecidableEq

structure Globals where
  devices : List Dev
  currentMtdDev : Option Nat
  currentMtdPartnum : UInt8
deriving DecidableEq

def Globals.deviceAt (s : Globals) (ptr : Nat) : Option Dev := s.devices.find? fun d => d.ptr == ptr

def Globals.update (s : Globals) (ptr : Nat) (f : Dev → Dev) : Globals :=
  { s with devices := s.devices.map fun d => if d.ptr = ptr then f d else d }

def mtdPartInfo (dev : Dev) (partNum : Nat) : Option Part :=
  if dev.numParts.toNat ≤ partNum then none else dev.parts[partNum]?

def Globals.currPi (s : Globals) (dev : Dev) : Option Part :=
  if s.currentMtdDev = some dev.ptr then mtdPartInfo dev s.currentMtdPartnum.toNat else none

/-! ## Functions -/

def deviceDel (s : Globals) (dev : Dev) : Globals :=
  let devices := s.devices.filter fun d => d.ptr ≠ dev.ptr
  if s.currentMtdDev = some dev.ptr then
    match devices with
    | [] => { s with devices, currentMtdDev := none }
    | first :: _ => ⟨devices, some first.ptr, 0⟩
  else { s with devices }

def partnumAfterDel (s : Globals) (dev : Dev) (part : Part) : UInt8 :=
  match s.currPi dev with
  | none => s.currentMtdPartnum
  | some currPi =>
    if currPi.ptr = part.ptr then 0
    else if part.info.offset ≤ currPi.info.offset then s.currentMtdPartnum - 1
    else s.currentMtdPartnum

def partDel (s : Globals) (dev : Dev) (part : Part) : Globals :=
  if dev.numParts = 1 then deviceDel s dev
  else
    { s.update dev.ptr fun d => { d with
        parts := d.parts.filter fun p => p.ptr ≠ part.ptr
        numParts := d.numParts - 1 } with
      currentMtdPartnum := partnumAfterDel s dev part }

/-- The loop of `part_sort_add`: the new list, and whether the current partition gets another
number. -/
def sortAdd (currPi : Option Part) (newPi : Part) : List Part → Option (List Part × Bool)
  | [] => some ([newPi], false)
  | pi :: rest =>
    if newPi.info.offset = pi.info.offset ∧ pi.info.offset = 0 then none
    else if newPi.info.offset ≤ pi.info.offset then
      some (newPi :: pi :: rest, currPi.any fun c => pi.info.offset ≤ c.info.offset)
    else (sortAdd currPi newPi rest).map fun r => (pi :: r.1, r.2)

def partSortAdd (s : Globals) (dev : Dev) (part : Part) : Option Globals :=
  (sortAdd (s.currPi dev) part dev.parts).map fun r =>
    { s.update dev.ptr fun d => { d with parts := r.1, numParts := d.numParts + 1 } with
      currentMtdPartnum := if r.2 then s.currentMtdPartnum + 1 else s.currentMtdPartnum }

variable (board : Board)

def partAdd (s : Globals) (dev : Dev) (part : Part) : Globals × Int :=
  match partValidate board dev.id part.info with
  | none => (s, 1)
  | some info =>
    match partSortAdd s dev { part with info } with
    | none => (s, 1)
    | some s => (s, 0)

inductive Call where
  | partAdd (dev : Nat) (part : Part)
  | partDel (dev part : Nat)

def mtdparts : Machine Globals Call Int where
  step s
    | .partAdd dev part =>
      match s.deviceAt dev with
      | none => (s, 1)
      | some dev => partAdd board s dev part
    | .partDel dev part =>
      match s.deviceAt dev with
      | none => (s, 1)
      | some dev =>
        match dev.parts.find? fun p => p.ptr == part with
        | none => (s, 1)
        | some part => (partDel s dev part, 0)

/-! ## The current partition -/

def Globals.current (s : Globals) : Option (Nat × Nat) := do
  let ptr ← s.currentMtdDev
  let dev ← s.deviceAt ptr
  let part ← mtdPartInfo dev s.currentMtdPartnum.toNat
  return (ptr, part.ptr)

structure Dev.Consistent (dev : Dev) : Prop where
  nonempty : dev.parts ≠ []
  addresses : (dev.parts.map Part.ptr).Nodup
  sorted : dev.parts.Pairwise fun p q => p.info.offset ≤ q.info.offset
  numParts : dev.numParts.toNat = dev.parts.length

structure Globals.Consistent (s : Globals) : Prop where
  addresses : (s.devices.map Dev.ptr).Nodup
  devices : ∀ dev ∈ s.devices, dev.Consistent
  current : s.devices ≠ [] → s.current.isSome

def firstPart : List Dev → Option (Nat × Nat)
  | [] => none
  | dev :: _ => dev.parts.head?.map fun p => (dev.ptr, p.ptr)

def resetTo (s : Globals) (dev : Dev) (part : Nat) : Option (Nat × Nat) :=
  match dev.parts.filter fun p => p.ptr ≠ part with
  | [] => firstPart (s.devices.filter fun d => d.ptr ≠ dev.ptr)
  | p :: _ => some (dev.ptr, p.ptr)

def meant (s : Globals) : Call → Option (Nat × Nat)
  | .partAdd _ _ => s.current
  | .partDel ptr part =>
    if s.current = some (ptr, part) then (s.deviceAt ptr).bind fun dev => resetTo s dev part
    else s.current

def Stable (s : Globals) (call : Call) : Prop :=
  ((mtdparts board).step s call).1.Consistent ∧ ((mtdparts board).step s call).1.current = meant s call

def Callable (s : Globals) : Call → Prop
  | .partAdd ptr part => ∃ dev ∈ s.devices, dev.ptr = ptr ∧ ∀ p ∈ dev.parts, p.ptr ≠ part.ptr
  | .partDel ptr part => ∃ dev ∈ s.devices, dev.ptr = ptr ∧ ∃ p ∈ dev.parts, p.ptr = part

/-- No counter runs over: a partition is one too many for the `u16` that counts them, or moves the
current partition to a number above the greatest of a `u8`. And no partition is deleted that
stands behind the current one at the same offset. -/
def Safe (s : Globals) : Call → Prop
  | .partAdd ptr part => ∀ dev ∈ s.devices, dev.ptr = ptr →
    partValidate board dev.id part.info ≠ none →
    ¬(part.info.offset = 0 ∧ ∃ p ∈ dev.parts, p.info.offset = 0) →
    dev.parts.length < 65535 ∧
      (s.currentMtdDev = some ptr → ∀ cur, dev.parts[s.currentMtdPartnum.toNat]? = some cur →
        part.info.offset ≤ cur.info.offset → s.currentMtdPartnum ≠ 255)
  | .partDel ptr part => ∀ dev ∈ s.devices, dev.ptr = ptr → s.currentMtdDev = some ptr →
    ∀ cur, dev.parts[s.currentMtdPartnum.toNat]? = some cur →
      ∀ p ∈ dev.parts.drop (s.currentMtdPartnum.toNat + 1), p.ptr = part →
        p.info.offset ≠ cur.info.offset

end UBoot.Mtdparts.Current
