import UBoot.Lib.ForEach

/-!
# Reading flattened device trees

The functions of `lib/libfdt/fdt.c` and `fdt_ro.c` that walk the structure block of a
tree with version 17: offsets in the block are those of the tags. A property whose
length makes the offset of the next tag wrap to its own offset keeps them from
returning, which is `none`.
-/

namespace UBoot.Libfdt

open ForEach

scoped instance lawful : LawfulBEq (List UInt8) := inferInstance

def ascii (s : String) : List UInt8 := s.toList.map fun c => UInt8.ofNat c.toNat

def cstring (bytes : List UInt8) : List UInt8 := bytes.takeWhile (· ≠ 0)

def be32 : List UInt8 → Nat
  | b0 :: b1 :: b2 :: b3 :: _ => Nat.ofDigits 256 [b3.toNat, b2.toNat, b1.toNat, b0.toNat]
  | _ => 0

structure Fdt where
  blob : List UInt8
  offDtStruct : Nat
  sizeDtStruct : Nat
  offDtStrings : Nat
  fits : offDtStruct + sizeDtStruct ≤ blob.length

inductive FdtErr
  | notFound | noSpace | badOffset | truncated | badStructure | badLayout
  deriving DecidableEq

inductive Tag
  | beginNode | endNode | prop | nop | fdtEnd
  deriving DecidableEq

def Fdt.ptr (fdt : Fdt) (offset : Nat) : List UInt8 := fdt.blob.drop (fdt.offDtStruct + offset)

def tagAlign (offset : Nat) : Nat := (offset + 3) / 4 * 4

def finishTag (fdt : Fdt) (tag : Tag) (offset : Nat) : Tag × Except FdtErr Nat :=
  if fdt.sizeDtStruct < offset then (.fdtEnd, .error .badStructure)
  else (tag, .ok (tagAlign offset))

def fdtNextTag (fdt : Fdt) (start : Nat) : Tag × Except FdtErr Nat :=
  if fdt.sizeDtStruct < start + 4 then (.fdtEnd, .error .truncated)
  else
    match be32 (fdt.ptr start) with
    | 1 => finishTag fdt .beginNode (start + 4 + (cstring (fdt.ptr (start + 4))).length + 1)
    | 2 => finishTag fdt .endNode (start + 4)
    | 3 =>
      if fdt.sizeDtStruct < start + 8 then (.fdtEnd, .error .badStructure)
      else finishTag fdt .prop (start + (12 + be32 (fdt.ptr (start + 4))) % 2 ^ 32)
    | 4 => finishTag fdt .nop (start + 4)
    | 9 => finishTag fdt .fdtEnd (start + 4)
    | _ => (.fdtEnd, .error .badStructure)

def fdtCheckNodeOffset (fdt : Fdt) (offset : Nat) : Except FdtErr Nat :=
  if offset % 4 ≠ 0 then .error .badOffset
  else
    match fdtNextTag fdt offset with
    | (.beginNode, .ok next) => .ok next
    | _ => .error .badOffset

def Fdt.rounds (fdt : Fdt) : Nat := fdt.sizeDtStruct + 1

/-- The loop of `fdt_next_node`: the offset and the depth. -/
def nextNodeLoop (fdt : Fdt) : Nat → Nat → Int → Option (Except FdtErr Nat × Int)
  | 0, _, _ => none
  | fuel + 1, offset, depth =>
    match fdtNextTag fdt offset with
    | (.beginNode, _) => some (.ok offset, depth + 1)
    | (.endNode, .ok next) =>
      if depth - 1 < 0 then some (.ok next, depth - 1) else nextNodeLoop fdt fuel next (depth - 1)
    | (.fdtEnd, .ok _) => some (.error .notFound, depth)
    | (_, .ok next) => nextNodeLoop fdt fuel next depth
    | (_, .error e) => some (.error e, depth)

def fdtNextNode (fdt : Fdt) (offset : Nat) (depth : Int) : Option (Except FdtErr Nat × Int) :=
  match fdtCheckNodeOffset fdt offset with
  | .error e => some (.error e, depth)
  | .ok next => nextNodeLoop fdt fdt.rounds next depth

def fdtFirstSubnode (fdt : Fdt) (offset : Nat) : Option (Option Nat) :=
  match fdtNextNode fdt offset 0 with
  | none => none
  | some (.ok offset, depth) => some (if depth = 1 then some offset else none)
  | some (.error _, _) => some none

def nextSubnodeLoop (fdt : Fdt) : Nat → Nat → Int → Option (Option Nat)
  | 0, _, _ => none
  | fuel + 1, offset, depth =>
    match fdtNextNode fdt offset depth with
    | none => none
    | some (.error _, _) => some none
    | some (.ok offset, depth) =>
      if depth < 1 then some none
      else if 1 < depth then nextSubnodeLoop fdt fuel offset depth
      else some (some offset)

def fdtNextSubnode (fdt : Fdt) (offset : Nat) : Option (Option Nat) :=
  nextSubnodeLoop fdt fdt.rounds offset 1

/-- `_fdt_nodename_eq`: a name without a unit address matches one with it. -/
def fdtNodenameEq (fdt : Fdt) (offset : Nat) (s : List UInt8) : Bool :=
  let p := fdt.ptr (offset + 4)
  if fdt.sizeDtStruct < offset + 4 + s.length + 1 then false
  else if p.take s.length ≠ s then false
  else
    match p[s.length]? with
    | some 0 => true
    | some 0x40 => 0x40 ∉ s
    | _ => false

def subnodeOffsetLoop (fdt : Fdt) (name : List UInt8) :
    Nat → Nat → Int → Option (Except FdtErr Nat)
  | 0, _, _ => none
  | fuel + 1, offset, depth =>
    if depth = 1 ∧ fdtNodenameEq fdt offset name then some (.ok offset)
    else
      match fdtNextNode fdt offset depth with
      | none => none
      | some (next, depth) =>
        if depth < 0 then some (.error .notFound)
        else
          match next with
          | .error e => some (.error e)
          | .ok next => subnodeOffsetLoop fdt name fuel next depth

def fdtSubnodeOffset (fdt : Fdt) (parent : Nat) (name : List UInt8) : Option (Except FdtErr Nat) :=
  subnodeOffsetLoop fdt name fdt.rounds parent 0

def fdtGetName (fdt : Fdt) (offset : Nat) : List UInt8 := cstring (fdt.ptr (offset + 4))

def nextprop (fdt : Fdt) : Nat → Nat → Option (Option Nat)
  | 0, _ => none
  | fuel + 1, offset =>
    match fdtNextTag fdt offset with
    | (.prop, _) => some (some offset)
    | (.nop, .ok next) => nextprop fdt fuel next
    | _ => some none

def fdtFirstPropertyOffset (fdt : Fdt) (node : Nat) : Option (Option Nat) :=
  match fdtCheckNodeOffset fdt node with
  | .error _ => some none
  | .ok next => nextprop fdt fdt.rounds next

def fdtNextPropertyOffset (fdt : Fdt) (offset : Nat) : Option (Option Nat) :=
  match fdtNextTag fdt offset with
  | (.prop, .ok next) => nextprop fdt fdt.rounds next
  | _ => some none

def propName (fdt : Fdt) (offset : Nat) : List UInt8 :=
  cstring (fdt.blob.drop ((fdt.offDtStrings + be32 (fdt.ptr (offset + 8))) % 2 ^ 32))

def fdtGetprop (fdt : Fdt) (node : Nat) (name : List UInt8) : Option (Option (Nat × Nat)) := do
  let first ← fdtFirstPropertyOffset fdt node
  match ← forEach (fdtNextPropertyOffset fdt)
      (fun _ offset => some (if propName fdt offset = name then .inr offset else .inl ()))
      fdt.rounds () first with
  | .inl () => some none
  | .inr offset => some (some (offset + 12, be32 (fdt.ptr (offset + 4))))

def fdtdecGetInt (fdt : Fdt) (node : Nat) (name : List UInt8) (default : Nat) : Option Nat := do
  match ← fdtGetprop fdt node name with
  | some (cell, len) => some (if 4 ≤ len then be32 (fdt.ptr cell) else default)
  | none => some default

/-! ## Trees in bytes -/

def cell (n : Nat) : List UInt8 :=
  [UInt8.ofNat (n / 2 ^ 24), UInt8.ofNat (n / 2 ^ 16), UInt8.ofNat (n / 2 ^ 8), UInt8.ofNat n]

def text (s : String) : List UInt8 := ascii s ++ [0]

def padded (bytes : List UInt8) : List UInt8 :=
  bytes ++ List.replicate (tagAlign bytes.length - bytes.length) 0

def nodeBytes (name : String) (body : List (List UInt8)) : List UInt8 :=
  cell 1 ++ padded (text name) ++ body.flatten ++ cell 2

def propBytes (names : List String) (name : String) (value : List UInt8) : List UInt8 :=
  cell 3 ++ cell value.length ++
    cell ((names.takeWhile (· ≠ name)).map fun s => s.length + 1).sum ++ padded value

def Fdt.ofRoot (names : List String) (root : List UInt8) : Fdt where
  blob := root ++ cell 9 ++ names.flatMap text
  offDtStruct := 0
  sizeDtStruct := root.length + 4
  offDtStrings := root.length + 4
  fits := by simp [cell]

end UBoot.Libfdt
