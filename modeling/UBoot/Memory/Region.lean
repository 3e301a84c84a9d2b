import UBoot.Lib.IntervalTable

/-!
# Logical memory blocks

`lib/lmb.c`: tables of memory regions in an array, and the search for free memory, with 32-bit
addresses. A table whose counter is zero makes `cnt - 1` the largest number, so that the code
reads what an earlier region left, and may run over the array: `none`. The field `size` of a
table is never read and is left out.
-/

namespace UBoot.Memory

def maxLmbRegions : Nat := 8

def allocAnywhere : Nat := 0

def add (a b : Nat) : Nat := (a + b) % 2 ^ 32

def sub (a b : Nat) : Nat := (a + 2 ^ 32 - b) % 2 ^ 32

structure Property where
  base : Nat
  size : Nat
  deriving DecidableEq

/-- `struct lmb_region`. The array is kept beyond `cnt`. -/
structure LmbRegion where
  cnt : Nat
  region : Nat → Property

structure Lmb where
  memory : LmbRegion
  reserved : LmbRegion

def LmbRegion.setRegion (rgn : LmbRegion) (i : Nat) (p : Property) : LmbRegion :=
  { rgn with region := Function.update rgn.region i p }

def lmbAddrsOverlap (base1 size1 base2 size2 : Nat) : Bool :=
  base1 < add base2 size2 && base2 < add base1 size1

def lmbAddrsAdjacent (base1 size1 base2 size2 : Nat) : Int :=
  if base2 = add base1 size1 then 1
  else if base1 = add base2 size2 then -1
  else 0

def lmbRegionsAdjacent (rgn : LmbRegion) (r1 r2 : Nat) : Int :=
  lmbAddrsAdjacent (rgn.region r1).base (rgn.region r1).size (rgn.region r2).base
    (rgn.region r2).size

def removeLoop : Nat → Nat → LmbRegion → Option LmbRegion
  | 0, _, _ => none
  | fuel + 1, i, rgn =>
    if i < sub rgn.cnt 1 then
      if i + 1 ≤ maxLmbRegions then removeLoop fuel (i + 1) (rgn.setRegion i (rgn.region (i + 1)))
      else none
    else some rgn

def lmbRemoveRegion (rgn : LmbRegion) (r : Nat) : Option LmbRegion := do
  let rgn ← removeLoop (maxLmbRegions + 2) r rgn
  some { rgn with cnt := sub rgn.cnt 1 }

def lmbCoalesceRegions (rgn : LmbRegion) (r1 r2 : Nat) : Option LmbRegion :=
  let size := add (rgn.region r1).size (rgn.region r2).size
  lmbRemoveRegion (rgn.setRegion r1 { rgn.region r1 with size := size }) r2

def initRegion (rgn : LmbRegion) : LmbRegion := { rgn.setRegion 0 ⟨0, 0⟩ with cnt := 1 }

def lmbInit (lmb : Lmb) : Lmb := ⟨initRegion lmb.memory, initRegion lmb.reserved⟩

/-! ## lmb_add_region -/

inductive Neighbour
  | same
  | after (i : Nat)
  | before (i : Nat)
  | none
  deriving DecidableEq

def findNeighbour (rgn : LmbRegion) (base size : Nat) : Nat → Nat → Neighbour
  | 0, _ => .none
  | n + 1, i =>
    let p := rgn.region i
    if p.base = base ∧ p.size = size then .same
    else
      let adjacent := lmbAddrsAdjacent base size p.base p.size
      if adjacent > 0 then .after i
      else if adjacent < 0 then .before i
      else findNeighbour rgn base size n (i + 1)

/-- Merge the region at `i`, where the search stopped, with the next one. -/
def mergeNext (i : Nat) (coalesced : Int) (rgn : LmbRegion) : Option (Int × LmbRegion) :=
  if i < sub rgn.cnt 1 ∧ lmbRegionsAdjacent rgn i (i + 1) ≠ 0 then do
    let rgn ← lmbCoalesceRegions rgn i (i + 1)
    some (coalesced + 1, rgn)
  else some (coalesced, rgn)

/-- The loop that shifts the regions above `base`, for the indices below `n`. -/
def insertLoop (base size : Nat) : Nat → LmbRegion → LmbRegion
  | 0, rgn => rgn
  | i + 1, rgn =>
    if base < (rgn.region i).base then insertLoop base size i (rgn.setRegion (i + 1) (rgn.region i))
    else rgn.setRegion (i + 1) ⟨base, size⟩

def insertRegion (rgn : LmbRegion) (base size : Nat) : LmbRegion :=
  let rgn := insertLoop base size rgn.cnt rgn
  let rgn := if base < (rgn.region 0).base then rgn.setRegion 0 ⟨base, size⟩ else rgn
  { rgn with cnt := add rgn.cnt 1 }

def lmbAddRegion (rgn : LmbRegion) (base size : Nat) : Option (Int × LmbRegion) :=
  if rgn.cnt = 1 ∧ (rgn.region 0).size = 0 then some (0, rgn.setRegion 0 ⟨base, size⟩)
  else
    match findNeighbour rgn base size rgn.cnt 0 with
    | .same => some (0, rgn)
    | .after i =>
      let p := rgn.region i
      mergeNext i 1 (rgn.setRegion i ⟨sub p.base size, add p.size size⟩)
    | .before i =>
      let p := rgn.region i
      mergeNext i 1 (rgn.setRegion i ⟨p.base, add p.size size⟩)
    | .none => do
      let (coalesced, rgn) ← mergeNext rgn.cnt 0 rgn
      if coalesced ≠ 0 then some (coalesced, rgn)
      else if rgn.cnt ≥ maxLmbRegions then some (-1, rgn)
      else some (0, insertRegion rgn base size)

def lmbReserve (lmb : Lmb) (base size : Nat) : Option (Int × Lmb) := do
  let (ret, rgn) ← lmbAddRegion lmb.reserved base size
  some (ret, { lmb with reserved := rgn })

/-! ## lmb_free -/

def findRegion (rgn : LmbRegion) (base stop : Nat) : Nat → Nat → Option Nat
  | 0, _ => none
  | n + 1, i =>
    let p := rgn.region i
    if p.base ≤ base ∧ stop ≤ add p.base p.size then some i else findRegion rgn base stop n (i + 1)

def freeFrom (rgn : LmbRegion) (i base size : Nat) : Option (Int × LmbRegion) :=
  let p := rgn.region i
  let rgnend := add p.base p.size
  let stop := add base size
  if p.base = base ∧ rgnend = stop then do
    let rgn ← lmbRemoveRegion rgn i
    some (0, rgn)
  else if p.base = base then some (0, rgn.setRegion i ⟨stop, sub p.size size⟩)
  else if rgnend = stop then some (0, rgn.setRegion i ⟨p.base, sub p.size size⟩)
  else
    -- split the entry
    lmbAddRegion (rgn.setRegion i ⟨p.base, sub base p.base⟩) stop (sub rgnend stop)

def freeRegion (rgn : LmbRegion) (base size : Nat) : Option (Int × LmbRegion) :=
  match findRegion rgn base (add base size) rgn.cnt 0 with
  | none => some (-1, rgn)
  | some i => freeFrom rgn i base size

def lmbFree (lmb : Lmb) (base size : Nat) : Option (Int × Lmb) := do
  let (ret, rgn) ← freeRegion lmb.reserved base size
  some (ret, { lmb with reserved := rgn })

/-! ## Allocation -/

def overlapLoop (rgn : LmbRegion) (base size : Nat) : Nat → Nat → Option Nat
  | 0, _ => none
  | n + 1, i =>
    let p := rgn.region i
    if lmbAddrsOverlap base size p.base p.size then some i else overlapLoop rgn base size n (i + 1)

def lmbOverlapsRegion (rgn : LmbRegion) (base size : Nat) : Option Nat :=
  overlapLoop rgn base size rgn.cnt 0

def alignMask (size : Nat) : Nat := 2 ^ 32 - 1 - sub size 1

def lmbAlignDown (addr size : Nat) : Nat := addr &&& alignMask size

def lmbAlignUp (addr size : Nat) : Nat := add addr (sub size 1) &&& alignMask size

/-- How the `while` loop of the search ends: with a return from the function,
or with the next memory region. -/
inductive Search
  | returned (alloc : Nat) (reserved : LmbRegion)
  | next

def allocLoop (size align lmbbase : Nat) (reserved : LmbRegion) : Nat → Nat → Option Search
  | 0, _ => none
  | fuel + 1, base =>
    if base ≠ 0 ∧ lmbbase ≤ base then
      match lmbOverlapsRegion reserved base size with
      | none => do
        let (ret, rgn) ← lmbAddRegion reserved base (lmbAlignUp size align)
        if ret < 0 then some (.returned 0 rgn) else some (.returned base rgn)
      | some j =>
        let resBase := (reserved.region j).base
        if resBase < size then some .next
        else allocLoop size align lmbbase reserved fuel (lmbAlignDown (sub resBase size) align)
    else some .next

/-- Where the search in a memory region begins, `none` to `continue` with the
next one. -/
def allocStart (p : Property) (size align maxAddr : Nat) : Option Nat :=
  if p.size < size then none
  else if maxAddr = allocAnywhere then some (lmbAlignDown (sub (add p.base p.size) size) align)
  else if p.base < maxAddr then
    some (lmbAlignDown (sub (min (add p.base p.size) maxAddr) size) align)
  else none

/-- The memory regions below index `n`, from the last. Each round of the search
comes to a reserved region further down, so that one more round than there are
such regions is enough. -/
def allocRegions (lmb : Lmb) (size align maxAddr : Nat) : Nat → Option (Nat × Lmb)
  | 0 => some (0, lmb)
  | i + 1 =>
    match allocStart (lmb.memory.region i) size align maxAddr with
    | none => allocRegions lmb size align maxAddr i
    | some base => do
      match ← allocLoop size align (lmb.memory.region i).base lmb.reserved (lmb.reserved.cnt + 1)
        base with
      | .next => allocRegions lmb size align maxAddr i
      | .returned alloc rgn => some (alloc, { lmb with reserved := rgn })

def lmbAllocBase (lmb : Lmb) (size align maxAddr : Nat) : Option (Nat × Lmb) :=
  allocRegions lmb size align maxAddr lmb.memory.cnt

end UBoot.Memory
