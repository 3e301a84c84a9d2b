import UBoot.Nor.ReadOnly

/-!
# The data of page programs

`sfc_nor_page_write` with the bytes it gives to `sfc_do_write`. The programs of a call
that is not refused store the buffer byte after byte and stay in their pages, if the
counter of the loop does not come to the end of the address space.
-/

namespace UBoot.Nor

open Word32

structure PageProgram where
  addr : Nat
  data : List UInt8

def PageProgram.stores (p : PageProgram) : List (Nat × UInt8) :=
  p.data.zipIdx.map fun (b, k) => (p.addr + k, b)

def sfcDoWrite (addr len : Nat) (buf : Nat → UInt8) (i : Nat) : PageProgram :=
  ⟨addr, (List.range len).map fun k => buf (i + k)⟩

section
variable (info : SpiNorInfo) (toAddr len : Nat) (buf : Nat → UInt8)

def programLoop : Nat → Nat → List PageProgram
  | 0, _ => []
  | fuel + 1, i =>
    if i < len then
      let actualLen := if info.pageSize ≤ len - i then info.pageSize else len - i
      sfcDoWrite (u32 (toAddr + i)) actualLen buf i :: programLoop fuel (u32 (i + info.pageSize))
    else []

def programs (fuel : Nat) : List PageProgram :=
  let pageOffset := toAddr % info.pageSize
  if u32 (pageOffset + len) ≤ info.pageSize then [sfcDoWrite toAddr len buf 0]
  else
    let actualLen := info.pageSize - pageOffset
    sfcDoWrite toAddr actualLen buf 0 :: programLoop info toAddr len buf fuel actualLen

end

def sfcNorPageWrite (info : SpiNorInfo) (table : NorflashPartitions) (fuel : Nat)
    (toAddr len : UInt32) (buf : Nat → UInt8) : List PageProgram :=
  if table.matchFlag norflashPartRO toAddr then []
  else programs info toAddr.toNat len.toNat buf fuel

variable {info : SpiNorInfo} {toAddr len : Nat} {buf : Nat → UInt8}

theorem stores_sfcDoWrite (toAddr i n : Nat) (buf : Nat → UInt8) :
    (sfcDoWrite (toAddr + i) n buf i).stores =
      (List.range' i n).map fun k => (toAddr + k, buf k) := by
  apply List.ext_getElem
  · simp [PageProgram.stores, sfcDoWrite]
  · intro k h1 h2
    simp [PageProgram.stores, sfcDoWrite, Nat.add_assoc]

/-- The bytes of the buffer from `i` on, in order, with no program past its page. -/
structure Covers (info : SpiNorInfo) (toAddr len : Nat) (buf : Nat → UInt8) (i : Nat)
    (ps : List PageProgram) : Prop where
  stores : ps.flatMap PageProgram.stores =
    (List.range' i (len - i)).map fun k => (toAddr + k, buf k)
  inPage : ∀ p ∈ ps, p.addr % info.pageSize + p.data.length ≤ info.pageSize

theorem Covers.cons (h : Covers info toAddr len buf (i + n) ps) (hn : n ≤ len - i)
    (hpage : (toAddr + i) % info.pageSize + n ≤ info.pageSize) :
    Covers info toAddr len buf i (sfcDoWrite (toAddr + i) n buf i :: ps) := by
  constructor
  · have hsum : len - i = n + (len - (i + n)) := by omega
    rw [List.flatMap_cons, stores_sfcDoWrite, h.stores, ← List.map_append, List.range'_append_1,
      ← hsum]
  · intro p hp
    obtain rfl | hp := List.mem_cons.mp hp
    · simpa [sfcDoWrite] using hpage
    · exact h.inPage p hp

theorem covers_nil (h : len ≤ i) : Covers info toAddr len buf i [] := by
  refine ⟨?_, by simp⟩
  rw [Nat.sub_eq_zero_of_le h]
  rfl

theorem programLoop_covers (hend : toAddr + len < 2 ^ 32)
    (hcount : toAddr ≠ 0 ∨ len + info.pageSize ≤ 2 ^ 32)
    (hi : (toAddr + i) % info.pageSize = 0) (hfuel : len ≤ i + fuel) :
    Covers info toAddr len buf i (programLoop info toAddr len buf fuel i) := by
  induction fuel generalizing i with
  | zero => exact covers_nil hfuel
  | succ fuel ih =>
    rw [programLoop]
    split
    · rename_i hlt
      have hpos : 0 < info.pageSize := pageSize_pos
      have hpage := page_end_le info (show toAddr + i < 2 ^ 32 by omega)
      have hnext : u32 (i + info.pageSize) = i + info.pageSize := u32_of_lt (by omega)
      have haddr : u32 (toAddr + i) = toAddr + i := u32_of_lt (by omega)
      have hrest := ih (i := i + info.pageSize) (by rw [← Nat.add_assoc, Nat.add_mod_right, hi])
        (by omega)
      rw [hnext, haddr]
      obtain hfull | hpart := Nat.lt_or_ge (len - i) info.pageSize
      · -- the last page: the loop ends behind it
        have hnil := hrest.stores
        rw [if_neg (by omega)]
        refine Covers.cons ⟨?_, hrest.inPage⟩ (Nat.le_refl _) (by omega)
        rw [hnil, Nat.sub_eq_zero_of_le (by omega : len ≤ i + info.pageSize),
          Nat.sub_eq_zero_of_le (by omega : len ≤ i + (len - i))]
        rfl
      · rw [if_pos hpart]
        exact hrest.cons hpart (by omega)
    · exact covers_nil (by omega)

theorem programs_covers (hend : toAddr + len < 2 ^ 32)
    (hcount : toAddr ≠ 0 ∨ len + info.pageSize ≤ 2 ^ 32) (hfuel : len ≤ fuel) :
    Covers info toAddr len buf 0 (programs info toAddr len buf fuel) := by
  have hoff := Nat.mod_lt toAddr (@pageSize_pos info)
  have hmod := Nat.mod_le toAddr info.pageSize
  have hsum : u32 (toAddr % info.pageSize + len) = toAddr % info.pageSize + len :=
    u32_of_lt (by omega)
  rw [programs]
  dsimp only
  rw [hsum]
  split
  · rename_i hfit
    exact @Covers.cons info toAddr len buf 0 len [] (covers_nil (by omega)) (Nat.le_refl _) hfit
  · have hrest := @programLoop_covers info toAddr len buf _ fuel hend hcount
      (next_page info toAddr) (by omega)
    exact Covers.cons (i := 0) (by rwa [Nat.zero_add]) (by omega) (by rw [Nat.add_zero]; omega)

theorem programLoop_endless (hlen : 2 ^ 32 < len + info.pageSize)
    (hi : i % info.pageSize = 0) (hlt : i < 2 ^ 32) (fuel : Nat) :
    (programLoop info 0 len buf fuel i).length = fuel := by
  induction fuel generalizing i with
  | zero => rfl
  | succ fuel ih =>
    have hpage := page_end_le info hlt
    rw [programLoop, if_pos (by omega), List.length_cons, ih _ (u32_lt _)]
    rw [u32_mod_pageSize, Nat.add_mod_right, hi]

end UBoot.Nor
