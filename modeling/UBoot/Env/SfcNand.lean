import UBoot.Env.Nand

/-!
# The redundant environment in SFC NAND

`saveenv` and `env_relocate_spec` of `common/env_sfcnand.c`. A save is a sequence of `nand`
commands on two areas, whose results `sfc_nand_ops` drops. An area is erased, or holds an
image whose checksum is right, or garbage; the bytes outside the areas are kept one by one.
How each operation ends and where power is cut are inputs. There are no bad blocks.
-/

namespace UBoot.Env.SfcNand

open Nand (Copy)

/-- `CONFIG_ENV_OFFSET` and `CONFIG_ENV_OFFSET_REDUND`, the sizes, and the size
of an erase block of the chip. -/
structure Geometry where
  offset : Copy → Nat
  envSize : Nat
  sectSize : Nat
  erasesize : Nat

def Geometry.sector (g : Geometry) : Nat :=
  if g.envSize > g.sectSize then
    g.envSize / g.sectSize + if g.envSize % g.sectSize ≠ 0 then 1 else 0
  else 1

def Geometry.HasRest (g : Geometry) : Prop := g.sectSize > g.envSize

instance (g : Geometry) : Decidable g.HasRest := inferInstanceAs (Decidable (_ > _))

def Geometry.Covers (g : Geometry) (copy : Copy) (start stop : Nat) : Prop :=
  start ≤ g.offset copy ∧ g.offset copy + g.envSize ≤ stop

def Geometry.Touches (g : Geometry) (copy : Copy) (start stop : Nat) : Prop :=
  start < g.offset copy + g.envSize ∧ g.offset copy < stop

instance (g : Geometry) : Decidable (g.Covers copy start stop) :=
  inferInstanceAs (Decidable (_ ∧ _))

instance (g : Geometry) : Decidable (g.Touches copy start stop) :=
  inferInstanceAs (Decidable (_ ∧ _))

/-! ## The flash -/

inductive Area (δ : Type)
  | erased
  | image (flags : UInt8) (data : δ)
  | garbage
  deriving DecidableEq

structure Flash (δ : Type) where
  area : Copy → Area δ
  outside : Nat → UInt8

inductive Outcome
  | ok
  | unchanged
  | spoiled (junk : Nat → UInt8)

def activeFlag : UInt8 := 1
def obsoleteFlag : UInt8 := 0

variable {δ : Type}

/-- `nand erase`: whole blocks, from a block boundary. -/
def Flash.erase (g : Geometry) (start len : Nat) (outcome : Outcome) (flash : Flash δ) : Flash δ :=
  let stop := start + (len + g.erasesize - 1) / g.erasesize * g.erasesize
  if start % g.erasesize ≠ 0 then flash
  else
    match outcome with
    | .ok =>
      { area := fun copy =>
          if g.Covers copy start stop then .erased
          else if g.Touches copy start stop then .garbage
          else flash.area copy
        outside := fun i => if start ≤ i ∧ i < stop then 0xff else flash.outside i }
    | .unchanged => flash
    | .spoiled junk =>
      { area := fun copy => if g.Touches copy start stop then .garbage else flash.area copy
        outside := fun i => if start ≤ i ∧ i < stop then junk i else flash.outside i }

def Area.write (area content : Area δ) : Outcome → Area δ
  | .ok =>
    match area with
    | .erased => content
    | _ => .garbage
  | .unchanged => area
  | .spoiled _ => .garbage

def Flash.writeEnv (copy : Copy) (content : Area δ) (outcome : Outcome) (flash : Flash δ) : Flash δ :=
  { flash with area := Function.update flash.area copy ((flash.area copy).write content outcome) }

def Flash.writeBytes (g : Geometry) (start stop : Nat) (bytes : Nat → UInt8) (outcome : Outcome)
    (flash : Flash δ) : Flash δ :=
  let damaged : Copy → Area δ :=
    fun copy => if g.Touches copy start stop then .garbage else flash.area copy
  match outcome with
  | .ok =>
    ⟨damaged, fun i => if start ≤ i ∧ i < stop then flash.outside i &&& bytes i else flash.outside i⟩
  | .unchanged => flash
  | .spoiled junk => ⟨damaged, fun i => if start ≤ i ∧ i < stop then junk i else flash.outside i⟩

/-! ## saveenv -/

inductive Op
  | readRest | eraseNew | writeNew | writeRest | readOld | eraseOld | writeOld
  deriving DecidableEq

structure Results where
  readRest : Option (Nat → UInt8)
  eraseNew : Outcome
  writeNew : Outcome
  writeRest : Outcome
  readOld : Bool
  eraseOld : Outcome
  writeOld : Outcome

structure Session (δ : Type) where
  flash : Flash δ
  saved : Nat → UInt8
  tmp : Area δ

def Geometry.ops (g : Geometry) : List Op :=
  if g.HasRest then [.readRest, .eraseNew, .writeNew, .writeRest, .readOld, .eraseOld, .writeOld]
  else [.eraseNew, .writeNew, .readOld, .eraseOld, .writeOld]

/-- `tmp_tmp->flags = OBSOLETE_FLAG`; the checksum is over the data alone. -/
def Area.markObsolete : Area δ → Area δ
  | .image _ data => .image obsoleteFlag data
  | _ => .garbage

def runOp (g : Geometry) (new : Copy) (data : δ) (r : Results) (t : Session δ) : Op → Session δ
  | .readRest => { t with saved := r.readRest.getD t.flash.outside }
  | .eraseNew =>
    { t with flash := t.flash.erase g (g.offset new) (g.sector * g.sectSize) r.eraseNew }
  | .writeNew => { t with flash := t.flash.writeEnv new (.image activeFlag data) r.writeNew }
  | .writeRest =>
    let stop := g.offset new + g.sectSize
    { t with flash := t.flash.writeBytes g (g.offset new + g.envSize) stop t.saved r.writeRest }
  | .readOld =>
    { t with tmp := if r.readOld then (t.flash.area new.other).markObsolete else .garbage }
  | .eraseOld =>
    { t with flash := t.flash.erase g (g.offset new.other) (g.sector * g.envSize) r.eraseOld }
  | .writeOld => { t with flash := t.flash.writeEnv new.other t.tmp r.writeOld }

def sfcNandOps (op : Session δ → Session δ) (t : Session δ) : Nat × Session δ := (0, op t)

def runOps (g : Geometry) (new : Copy) (data : δ) (r : Results) :
    List Op → Session δ → Nat × Session δ
  | [], t => (0, t)
  | op :: ops, t =>
    let (ret, t) := sfcNandOps (runOp g new data r · op) t
    if ret ≠ 0 then (ret, t) else runOps g new data r ops t

structure State (δ : Type) where
  flash : Flash δ
  envValid : Copy

/-- The return value, `none` if power is cut, which `cut` says after how many
operations. -/
def saveenv (g : Geometry) (exported : Option δ) (r : Results) (cut : Option Nat) (s : State δ) :
    Option Nat × State δ :=
  match exported with
  | none => (some 1, s)
  | some data =>
    let new : Copy := if s.envValid = .first then .second else .first
    let start : Session δ := ⟨s.flash, fun _ => 0, .garbage⟩
    match cut with
    | some n => (none, { s with flash := (runOps g new data r (g.ops.take n) start).2.flash })
    | none =>
      let (ret, t) := runOps g new data r g.ops start
      if ret ≠ 0 then (some ret, { s with flash := t.flash })
      else
        (some ret, ⟨t.flash, if s.envValid = .second then .first else .second⟩)

/-! ## env_relocate_spec -/

def checkFlags (flags1 flags2 : UInt8) : Copy :=
  if flags1 = activeFlag ∧ flags2 = obsoleteFlag then .first
  else if flags1 = obsoleteFlag ∧ flags2 = activeFlag then .second
  else if flags1 = flags2 then .second
  else if flags1 = 0xff then .second
  else .second

def Area.read (ok : Bool) : Area δ → Option (UInt8 × δ)
  | .image flags data => if ok then some (flags, data) else none
  | _ => none

/-- A reboot, with the results of the two reads: the data imported, or `none`
for the default environment. -/
def envRelocateSpec (reads : Copy → Bool) (s : State δ) : Option δ × State δ :=
  match (s.flash.area .first).read (reads .first), (s.flash.area .second).read (reads .second) with
  | none, none => (none, { s with envValid := .first })
  | some (_, data), none => (some data, { s with envValid := .first })
  | none, some (_, data) => (some data, { s with envValid := .second })
  | some (flags1, data1), some (flags2, data2) =>
    match checkFlags flags1 flags2 with
    | .first => (some data1, { s with envValid := .first })
    | .second => (some data2, { s with envValid := .second })

end UBoot.Env.SfcNand
