import UBoot.Nor.SfcNor

/-!
# Read-only partitions of an SFC NOR flash

A call is checked by its first address alone and then goes as far as its length
says, in whole sectors if it erases. A call that is refused returns 0.
-/

namespace UBoot.Nor

open Word32

/-! ## What a call reaches -/

/-- A byte of a partition that is flagged `NORFLASH_PART_RO`. -/
def NorflashPartitions.ReadOnly (table : NorflashPartitions) (a : Nat) : Prop :=
  a < 2 ^ 32 ∧ ∃ p ∈ table.listed, p.maskFlags &&& norflashPartRO ≠ 0 ∧
    p.offset.toNat ≤ a ∧ a < p.offset.toNat + p.size.toNat

/-- The bytes from an address on over a length. A length that leaves the first page and
the whole address space stays in the page. -/
def WriteReaches (info : SpiNorInfo) (toAddr len a : Nat) : Prop :=
  if toAddr % info.pageSize + len < 2 ^ 32 then u32 (a + 2 ^ 32 - toAddr) < len
  else a / info.pageSize = toAddr / info.pageSize

def EraseReaches (info : SpiNorInfo) (addr len a : Nat) : Prop :=
  addr + eraseLen info len < 2 ^ 32 ∧ addr / info.eraseSize ≤ a / info.eraseSize ∧
    a / info.eraseSize < addr / info.eraseSize + eraseLen info len / info.eraseSize

def Call.addr : Call → UInt32
  | .write toAddr _ => toAddr
  | .erase addr _ => addr

def Call.Reaches (info : SpiNorInfo) (a : Nat) : Call → Prop
  | .write toAddr len => WriteReaches info toAddr.toNat len.toNat a
  | .erase addr len => EraseReaches info addr.toNat len.toNat a

def Outcome.Protected (info : SpiNorInfo) (table : NorflashPartitions) (o : Outcome) : Prop :=
  (∀ c ∈ o.commands, ∀ a, c.Touches info a → ¬ table.ReadOnly a) ∧
    (o.refused = true → o.ret ≠ 0)

/-! ## Page programs -/

variable {info : SpiNorInfo}

theorem pageSize_pos : 0 < info.pageSize := Nat.two_pow_pos _

theorem pageSize_dvd (info : SpiNorInfo) : info.pageSize ∣ 2 ^ 32 :=
  Nat.pow_dvd_pow 2 info.pageShift_lt.le

theorem pageSize_add_le (info : SpiNorInfo) : info.pageSize + info.pageSize ≤ 2 ^ 32 := by
  have hle : 2 ^ (info.pageShift + 1) ≤ 2 ^ 32 := Nat.pow_le_pow_right (by decide) info.pageShift_lt
  rw [pow_succ] at hle
  exact (Nat.mul_two _).symm.trans_le hle

variable {addr len a : Nat}

theorem touches_pageProgram_of_le
    (hle : addr % info.pageSize + len ≤ info.pageSize) :
    (Command.pageProgram addr len).Touches info a ↔ ∃ i < len, a = addr + i := by
  refine exists_congr fun i => and_congr_right fun hi => ?_
  rw [Nat.mod_eq_of_lt (by omega), ← Nat.add_assoc, Nat.div_add_mod']

theorem touches_pageProgram_of_ge (hge : info.pageSize ≤ len) :
    (Command.pageProgram addr len).Touches info a ↔ a / info.pageSize = addr / info.pageSize := by
  have hpos : 0 < info.pageSize := pageSize_pos
  constructor
  · rintro ⟨i, -, rfl⟩
    rw [Nat.mul_comm, Nat.mul_add_div hpos, Nat.div_eq_of_lt (Nat.mod_lt _ hpos), Nat.add_zero]
  · intro h
    have ha := Nat.mod_lt a hpos
    have haddr := Nat.mod_lt addr hpos
    refine ⟨(a % info.pageSize + (info.pageSize - addr % info.pageSize)) % info.pageSize,
      (Nat.mod_lt _ hpos).trans_le hge, ?_⟩
    have hsum : addr % info.pageSize + (a % info.pageSize + (info.pageSize - addr % info.pageSize)) =
        a % info.pageSize + info.pageSize := by omega
    rw [Nat.add_mod_mod, hsum, Nat.add_mod_right, Nat.mod_mod, ← h, Nat.div_add_mod']

variable {toAddr : Nat}

theorem mem_pageLoop (hi : (toAddr + i) % info.pageSize = 0)
    (hc : c ∈ pageLoop info toAddr len fuel i) : ∃ j < len, (toAddr + j) % info.pageSize = 0 ∧
      c = .pageProgram (u32 (toAddr + j)) (min info.pageSize (len - j)) := by
  induction fuel generalizing i with
  | zero => cases hc
  | succ fuel ih =>
    rw [pageLoop] at hc
    split at hc
    · rename_i hlt
      obtain rfl | hc := List.mem_cons.mp hc
      · exact ⟨i, hlt, hi, congrArg _ (by rw [Nat.min_def])⟩
      · apply ih _ hc
        -- a page is a part of the address space, so that the counter stays at pages
        have hnext : (toAddr + u32 (i + info.pageSize)) % info.pageSize =
            (toAddr + (i + info.pageSize)) % info.pageSize := by
          rw [u32, Nat.add_mod, Nat.mod_mod_of_dvd _ (pageSize_dvd info), ← Nat.add_mod]
        rw [hnext, ← Nat.add_assoc, Nat.add_mod_right, hi]
    · cases hc

theorem pageLoop_mem (hlen : len < 2 ^ 32) (k : Nat)
    (hk : i + k * info.pageSize < len) :
    Command.pageProgram (u32 (toAddr + (i + k * info.pageSize)))
      (min info.pageSize (len - (i + k * info.pageSize))) ∈ pageLoop info toAddr len (k + 1) i := by
  induction k generalizing i with
  | zero =>
    rw [Nat.zero_mul, Nat.add_zero] at hk ⊢
    rw [pageLoop, if_pos hk, Nat.min_def]
    exact List.mem_cons_self
  | succ k ih =>
    rw [Nat.succ_mul] at hk ⊢
    have hnext : u32 (i + info.pageSize) = i + info.pageSize := u32_of_lt (by omega)
    have hstep := ih (i := i + info.pageSize) (by omega)
    rw [pageLoop, if_pos (by omega), hnext]
    apply List.mem_cons_of_mem
    have heq : i + info.pageSize + k * info.pageSize = i + (k * info.pageSize + info.pageSize) := by
      omega
    rwa [heq] at hstep

theorem u32_mod_pageSize (n : Nat) : u32 n % info.pageSize = n % info.pageSize := by
  rw [u32_eq, Nat.mod_mod_of_dvd _ (pageSize_dvd info)]

theorem page_end_le (info : SpiNorInfo) (hn : n < 2 ^ 32) :
    n - n % info.pageSize + info.pageSize ≤ 2 ^ 32 := by
  obtain ⟨q, hq⟩ := pageSize_dvd info
  have hlt : n / info.pageSize < q := Nat.div_lt_of_lt_mul (hq ▸ hn)
  have hle : info.pageSize * (n / info.pageSize + 1) ≤ info.pageSize * q := Nat.mul_le_mul_left _ hlt
  have hdiv := Nat.div_add_mod n info.pageSize
  rw [Nat.mul_add, Nat.mul_one] at hle
  omega

theorem next_page (info : SpiNorInfo) (n : Nat) :
    (n + (info.pageSize - n % info.pageSize)) % info.pageSize = 0 := by
  have hoff := Nat.mod_lt n (@pageSize_pos info)
  have hmod := Nat.mod_le n info.pageSize
  have heq : n + (info.pageSize - n % info.pageSize) = n - n % info.pageSize + info.pageSize := by
    omega
  rw [heq, Nat.add_mod_right]
  exact Nat.sub_mod_eq_zero_of_mod_eq (Nat.mod_mod _ _).symm

theorem pageWrite_touches_fits (hto : toAddr < 2 ^ 32) (ha : a < 2 ^ 32)
    (hfit : toAddr % info.pageSize + len ≤ info.pageSize) :
    (Command.pageProgram toAddr len).Touches info a ↔ u32 (a + 2 ^ 32 - toAddr) < len := by
  have hend := page_end_le info hto
  rw [touches_pageProgram_of_le hfit]
  unfold u32
  constructor
  · rintro ⟨i, hi, rfl⟩
    omega
  · intro h
    exact ⟨_, h, by omega⟩

theorem pageWrite_touches_pages (hto : toAddr < 2 ^ 32) (hlen : len < 2 ^ 32)
    (ha : a < 2 ^ 32) (hfit : info.pageSize < toAddr % info.pageSize + len) :
    (∃ fuel, ∃ c ∈ Command.pageProgram toAddr (info.pageSize - toAddr % info.pageSize) ::
        pageLoop info toAddr len fuel (info.pageSize - toAddr % info.pageSize),
        c.Touches info a) ↔ u32 (a + 2 ^ 32 - toAddr) < len := by
  have hpos : 0 < info.pageSize := pageSize_pos
  have hoff := Nat.mod_lt toAddr hpos
  have hend := page_end_le info hto
  have hstart := next_page info toAddr
  have hfirst : toAddr % info.pageSize + (info.pageSize - toAddr % info.pageSize) ≤ info.pageSize := by
    omega
  constructor
  · rintro ⟨fuel, c, hc, htouch⟩
    obtain rfl | hc := List.mem_cons.mp hc
    · rw [touches_pageProgram_of_le hfirst] at htouch
      obtain ⟨i, hi, rfl⟩ := htouch
      unfold u32
      omega
    · obtain ⟨j, hj, halign, rfl⟩ := mem_pageLoop hstart hc
      rw [← u32_mod_pageSize] at halign
      rw [touches_pageProgram_of_le (by omega)] at htouch
      obtain ⟨i, hi, rfl⟩ := htouch
      unfold u32 at ha ⊢
      omega
  · intro hdist
    have haddr : a = u32 (toAddr + u32 (a + 2 ^ 32 - toAddr)) := by
      unfold u32
      omega
    generalize u32 (a + 2 ^ 32 - toAddr) = d at hdist haddr
    obtain hd | hd := Nat.lt_or_ge d (info.pageSize - toAddr % info.pageSize)
    · refine ⟨0, _, List.mem_cons_self, (touches_pageProgram_of_le hfirst).mpr ⟨d, hd, ?_⟩⟩
      unfold u32 at haddr
      omega
    · -- the page of the loop in which the byte is
      obtain ⟨k, i, hi, rfl⟩ : ∃ k i, i < info.pageSize ∧
          d = (info.pageSize - toAddr % info.pageSize) + k * info.pageSize + i := by
        refine ⟨(d - (info.pageSize - toAddr % info.pageSize)) / info.pageSize,
          (d - (info.pageSize - toAddr % info.pageSize)) % info.pageSize, Nat.mod_lt _ hpos, ?_⟩
        have := Nat.div_add_mod' (d - (info.pageSize - toAddr % info.pageSize)) info.pageSize
        omega
      refine ⟨k + 1, _, List.mem_cons_of_mem _ (pageLoop_mem hlen k (by omega)), ?_⟩
      have halign : u32 (toAddr + (info.pageSize - toAddr % info.pageSize + k * info.pageSize)) %
          info.pageSize = 0 := by
        rw [u32_mod_pageSize, ← Nat.add_assoc, Nat.add_mul_mod_self_right, hstart]
      generalize info.pageSize - toAddr % info.pageSize + k * info.pageSize = j at *
      have hlt : u32 (toAddr + j) < 2 ^ 32 := u32_lt _
      have hpage := page_end_le info hlt
      rw [touches_pageProgram_of_le (by omega)]
      refine ⟨i, by omega, ?_⟩
      unfold u32 at *
      omega

theorem pageWrite_touches (hto : toAddr < 2 ^ 32) (hlen : len < 2 ^ 32)
    (ha : a < 2 ^ 32) :
    (∃ fuel, ∃ c ∈ pageWrite info fuel toAddr len, c.Touches info a) ↔
      WriteReaches info toAddr len a := by
  have hpos : 0 < info.pageSize := pageSize_pos
  have hoff := Nat.mod_lt toAddr hpos
  have htwo := pageSize_add_le info
  unfold WriteReaches pageWrite
  by_cases hspace : toAddr % info.pageSize + len < 2 ^ 32
  · have hsum : u32 (toAddr % info.pageSize + len) = toAddr % info.pageSize + len :=
      u32_of_lt hspace
    simp only [hspace, if_true, hsum]
    by_cases hfit : toAddr % info.pageSize + len ≤ info.pageSize
    · simp only [hfit, if_true, List.mem_singleton, exists_eq_left, exists_const]
      exact pageWrite_touches_fits hto ha hfit
    · simp only [hfit, if_false]
      exact pageWrite_touches_pages hto hlen ha (Nat.lt_of_not_le hfit)
  · have hsum : u32 (toAddr % info.pageSize + len) ≤ info.pageSize := by
      unfold u32
      omega
    simp only [hspace, if_false, hsum, if_true, List.mem_singleton, exists_eq_left, exists_const]
    exact touches_pageProgram_of_ge (by omega)

/-! ## Erases -/

theorem eraseSize_pos : 0 < info.eraseSize := Nat.two_pow_pos _

theorem eraseSize_dvd : info.eraseSize ∣ 2 ^ 32 :=
  Nat.pow_dvd_pow 2 (info.eraseShift_lt.le.trans (by decide))

theorem eraseSize_dvd_eraseLen (info : SpiNorInfo) (len : Nat) : info.eraseSize ∣ eraseLen info len := by
  unfold eraseLen
  split
  · rw [u32_eq]
    refine (Nat.dvd_mod_iff eraseSize_dvd).mpr (Nat.dvd_add ?_ (Nat.dvd_refl _))
    exact Nat.dvd_sub_mod _
  · rename_i h
    exact Nat.dvd_of_mod_eq_zero (not_not.mp h)

theorem eraseLen_lt (info : SpiNorInfo) (hlen : len < 2 ^ 32) : eraseLen info len < 2 ^ 32 := by
  unfold eraseLen
  split
  · exact u32_lt _
  · exact hlen

theorem mem_eraseLoop (hstop : addr + n * info.eraseSize < 2 ^ 32) :
    c ∈ eraseLoop info (addr + n * info.eraseSize) fuel addr ↔
      ∃ k < n, k < fuel ∧ c = .sectorErase (addr + k * info.eraseSize) := by
  have hpos : 0 < info.eraseSize := eraseSize_pos
  induction fuel generalizing n addr with
  | zero =>
    constructor
    · intro h
      cases h
    · rintro ⟨k, -, hk, -⟩
      exact absurd hk (Nat.not_lt_zero k)
  | succ fuel ih =>
    cases n with
    | zero =>
      rw [eraseLoop, if_neg (by omega)]
      constructor
      · intro h
        cases h
      · rintro ⟨k, hk, -⟩
        exact absurd hk (Nat.not_lt_zero k)
    | succ n =>
      rw [Nat.succ_mul] at hstop
      have hnext : u32 (addr + info.eraseSize) = addr + info.eraseSize := u32_of_lt (by omega)
      have hshift : addr + (n + 1) * info.eraseSize = addr + info.eraseSize + n * info.eraseSize := by
        ring
      have hspace : addr + info.eraseSize + n * info.eraseSize < 2 ^ 32 := by omega
      rw [eraseLoop, if_pos (by rw [Nat.succ_mul]; omega), hnext, hshift, List.mem_cons]
      refine (or_congr_right (ih hspace)).trans ?_
      constructor
      · rintro (rfl | ⟨k, hk, hf, rfl⟩)
        · exact ⟨0, Nat.succ_pos n, Nat.succ_pos fuel, by rw [Nat.zero_mul, Nat.add_zero]⟩
        · exact ⟨k + 1, Nat.succ_lt_succ hk, Nat.succ_lt_succ hf, congrArg _ (by ring)⟩
      · rintro ⟨k, hk, hf, rfl⟩
        cases k with
        | zero => exact .inl (by rw [Nat.zero_mul, Nat.add_zero])
        | succ k =>
          exact .inr ⟨k, Nat.lt_of_succ_lt_succ hk, Nat.lt_of_succ_lt_succ hf, congrArg _ (by ring)⟩

theorem eraseLoop_touches (haddr : addr < 2 ^ 32) (hlen : len < 2 ^ 32) :
    (∃ fuel, ∃ c ∈ eraseLoop info (u32 (addr + eraseLen info len)) fuel addr, c.Touches info a) ↔
      EraseReaches info addr len a := by
  have hpos : 0 < info.eraseSize := eraseSize_pos
  obtain ⟨n, hn⟩ := eraseSize_dvd_eraseLen info len
  have hlt := eraseLen_lt info hlen
  rw [Nat.mul_comm] at hn
  unfold EraseReaches
  rw [hn] at hlt ⊢
  rw [Nat.mul_div_cancel n hpos]
  by_cases hspace : addr + n * info.eraseSize < 2 ^ 32
  · have hstop : u32 (addr + n * info.eraseSize) = addr + n * info.eraseSize :=
      u32_of_lt hspace
    have hsector (k : Nat) : (addr + k * info.eraseSize) / info.eraseSize =
        addr / info.eraseSize + k := Nat.add_mul_div_right _ _ hpos
    simp only [hstop, mem_eraseLoop hspace]
    constructor
    · rintro ⟨fuel, c, ⟨k, hk, -, rfl⟩, htouch⟩
      rw [Command.Touches, hsector] at htouch
      exact ⟨hspace, by omega, by omega⟩
    · rintro ⟨-, hle, hltn⟩
      refine ⟨n, _, ⟨a / info.eraseSize - addr / info.eraseSize, by omega, by omega, rfl⟩, ?_⟩
      rw [Command.Touches, hsector]
      omega
  · -- the end is in front of the start
    have hstop : ¬ addr < u32 (addr + n * info.eraseSize) := by
      unfold u32
      omega
    constructor
    · rintro ⟨fuel, c, hc, -⟩
      cases fuel with
      | zero => cases hc
      | succ fuel =>
        rw [eraseLoop, if_neg hstop] at hc
        cases hc
    · rintro ⟨h, -⟩
      exact absurd h hspace

/-! ## Calls -/

theorem Call.exec_refused (info : SpiNorInfo) {table : NorflashPartitions} {call : Call}
    (h : table.matchFlag norflashPartRO call.addr = true) (fuel : Nat) :
    call.exec info table fuel = ⟨true, [], 0⟩ := by
  cases call with
  | write toAddr len => exact if_pos h
  | erase addr len => exact if_pos h

theorem Call.exec_touches {table : NorflashPartitions} {call : Call} (ha : a < 2 ^ 32)
    (h : table.matchFlag norflashPartRO call.addr = false) :
    (∃ fuel, ∃ c ∈ (call.exec info table fuel).commands, c.Touches info a) ↔
      call.Reaches info a := by
  cases call with
  | write toAddr len =>
    have hexec (fuel : Nat) : (Call.write toAddr len).exec info table fuel =
        ⟨false, pageWrite info fuel toAddr.toNat len.toNat, 0⟩ :=
      if_neg (by rw [show table.matchFlag norflashPartRO toAddr = false from h]; decide)
    simp only [hexec]
    exact pageWrite_touches toAddr.toNat_lt len.toNat_lt ha
  | erase addr len =>
    have hexec (fuel : Nat) : (Call.erase addr len).exec info table fuel =
        ⟨false, eraseLoop info (u32 (addr.toNat + eraseLen info len.toNat)) fuel addr.toNat, 0⟩ :=
      if_neg (by rw [show table.matchFlag norflashPartRO addr = false from h]; decide)
    simp only [hexec]
    exact eraseLoop_touches addr.toNat_lt len.toNat_lt

theorem Call.exec_refused_iff (info : SpiNorInfo) (table : NorflashPartitions) (call : Call)
    (fuel : Nat) : (call.exec info table fuel).refused = table.matchFlag norflashPartRO call.addr ∧
      (call.exec info table fuel).ret = 0 := by
  cases h : table.matchFlag norflashPartRO call.addr with
  | true =>
    rw [call.exec_refused info h]
    exact ⟨rfl, rfl⟩
  | false =>
    cases call with
    | write toAddr len => simp [Call.exec, sfcNorWrite, show table.matchFlag _ toAddr = _ from h]
    | erase addr len => simp [Call.exec, sfcNorErase, show table.matchFlag _ addr = _ from h]

def sampleInfo : SpiNorInfo := ⟨8, 12, by decide, by decide⟩

def sampleTable : NorflashPartitions := ⟨fun _ => ⟨0x10000, 0x10000, 2⟩, 1⟩

end UBoot.Nor
