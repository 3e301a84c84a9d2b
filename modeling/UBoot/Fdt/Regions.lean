import UBoot.Fdt.Libfdt

/-!
# The regions of a tree that are hashed

`fdt_find_regions` of `lib/libfdt/fdt_wip.c`: the parts of the structure block that
belong to the nodes at the given paths, with their properties except those in a
second list, and the tags of their subnodes. `fdtFindRegions` is the call without the
string table, and with an array that is large enough.
-/

namespace UBoot.Libfdt

def fdtMaxDepth : Nat := 32

/-- The variables of the loop. The last region comes first, `stack` holds `want` for
the nodes around, and regions are offsets in the structure block with sizes. -/
structure Walk where
  regions : List (Nat × Nat)
  start : Option Nat
  stack : List Nat
  want : Nat
  path : List UInt8
  deriving DecidableEq

/-- Opens a region at a tag that is included, or the last one again when it ends there,
and closes one at a tag that is not. -/
def Walk.add (w : Walk) (maxRegions offset stopAt : Nat) (incl : Bool) : Walk :=
  if incl then
    match w.start, w.regions with
    | none, (first, size) :: rest =>
      if w.regions.length ≤ maxRegions ∧ offset = first + size then
        { w with regions := rest, start := some first }
      else { w with start := some offset }
    | none, [] => { w with start := some offset }
    | some _, _ => w
  else
    match w.start with
    | some start => { w with regions := (start, stopAt - start) :: w.regions, start := none }
    | none => w

def childPath (path name : List UInt8) : List UInt8 :=
  (if path.length = 1 then path else path ++ [0x2f]) ++ name

def parentPath (path : List UInt8) : List UInt8 :=
  ((path.reverse.dropWhile (· ≠ 0x2f)).drop 1).reverse

section
variable (fdt : Fdt) (inc excProp : List (List UInt8)) (maxRegions pathLen : Nat)

/-- A tag that is not the last one. An `FDT_END_NODE` without its node reads `stack` out
of bounds. -/
def regionStep (w : Walk) (tag : Tag) (offset next : Nat) : Option (Except FdtErr Walk) :=
  match tag with
  | .prop =>
    let incl := 2 ≤ w.want ∧ propName fdt offset ∉ excProp
    some (.ok (w.add maxRegions offset offset incl))
  | .nop => some (.ok (w.add maxRegions offset offset (2 ≤ w.want)))
  | .beginNode =>
    let name := fdtGetName fdt offset
    if w.stack.length = fdtMaxDepth then some (.error .badStructure)
    else if pathLen ≤ w.path.length + 2 + name.length then some (.error .noSpace)
    else
      let path := childPath w.path name
      let want := if path ∈ inc then 2 else w.want - 1
      let stopAt := if w.want = 1 ∨ (w.want = 0 ∧ path ∉ inc) then offset else next
      let w := { w with stack := w.want :: w.stack, path := path, want := want }
      some (.ok (w.add maxRegions offset stopAt (want ≠ 0)))
  | .endNode =>
    match w.stack with
    | [] => none
    | want :: stack =>
      let incl := w.want ≠ 0
      let w := { w with want := want, stack := stack, path := parentPath w.path }
      some (.ok (w.add maxRegions offset next incl))
  | .fdtEnd => some (.ok w)

/-- The rounds up to the `FDT_END`: the variables, its offset and what follows it. -/
def regionLoop : Nat → Nat → Walk → Option (Except FdtErr (Walk × Nat × Except FdtErr Nat))
  | 0, _, _ => none
  | fuel + 1, offset, w =>
    match fdtNextTag fdt offset with
    | (.fdtEnd, next) => some (.ok (w.add maxRegions offset offset true, offset, next))
    | (_, .error _) => none
    | (tag, .ok next) =>
      match regionStep fdt inc excProp maxRegions pathLen w tag offset next with
      | none => none
      | some (.error e) => some (.error e)
      | some (.ok w) => regionLoop fuel next w

/-- The number of regions, and those in the array. The last one goes on over the string
table, which follows, if that is to be added. -/
def fdtFindRegionsTab (sizeDtStrings : Nat) (addStringTab : Bool) :
    Option (Except FdtErr (Nat × List (Nat × Nat))) :=
  match regionLoop fdt inc excProp maxRegions pathLen fdt.rounds 0 ⟨[], none, [], 0, []⟩ with
  | none => none
  | some (.error e) => some (.error e)
  | some (.ok (w, offset, next)) =>
    if next = .ok fdt.sizeDtStruct then
      let start := w.start.getD offset
      let size := fdt.sizeDtStruct - start + (if addStringTab then sizeDtStrings else 0)
      let regions := ((start, size) :: w.regions).reverse
      some (.ok (regions.length, regions.take maxRegions))
    else some (.error .badLayout)

def fdtFindRegions : Option (Except FdtErr (List (Nat × Nat))) :=
  match regionLoop fdt inc excProp maxRegions pathLen fdt.rounds 0 ⟨[], none, [], 0, []⟩ with
  | none => none
  | some (.error e) => some (.error e)
  | some (.ok (w, offset, next)) =>
    if next = .ok fdt.sizeDtStruct then
      let start := w.start.getD offset
      some (.ok (((start, fdt.sizeDtStruct - start) :: w.regions).reverse))
    else some (.error .badLayout)

end

end UBoot.Libfdt
