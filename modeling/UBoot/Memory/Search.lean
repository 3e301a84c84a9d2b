import UBoot.Memory.RegionLaws

/-!
# The search for free memory

`__lmb_alloc_base` goes down from the top of the memory regions, past reserved ones. It finds
the highest address possible, unless the limit is smaller than the size.
-/

namespace UBoot.Memory

/-! ## Alignment -/

section
variable {k : Nat} (hk : k < 32)
include hk

theorem alignMask_two_pow : alignMask (2 ^ k) = 2 ^ 32 - (2 ^ k - 1 + 1) := by
  have hlt : 2 ^ k < 2 ^ 32 := Nat.pow_lt_pow_right (by decide) hk
  unfold alignMask
  rw [sub_eq Nat.one_le_two_pow hlt]
  omega

theorem lmbAlignDown_eq (ha : a < 2 ^ 32) : lmbAlignDown a (2 ^ k) = a / 2 ^ k * 2 ^ k := by
  have hlt : 2 ^ k < 2 ^ 32 := Nat.pow_lt_pow_right (by decide) hk
  unfold lmbAlignDown
  rw [alignMask_two_pow hk, ← Nat.shiftRight_eq_div_pow, ← Nat.shiftLeft_eq]
  refine Nat.eq_of_testBit_eq fun i => ?_
  rw [Nat.testBit_and, Nat.testBit_two_pow_sub_succ (by omega), Nat.testBit_two_pow_sub_one,
    Nat.testBit_shiftLeft, Nat.testBit_shiftRight]
  by_cases hik : i < k
  · simp [hik]
  · have hi : i < 32 ∨ a.testBit i = false := by
      by_cases hi : i < 32
      · exact .inl hi
      · exact .inr (Nat.testBit_lt_two_pow (ha.trans_le (Nat.pow_le_pow_right (by decide)
          (Nat.le_of_not_lt hi))))
    rw [Nat.add_sub_cancel' (Nat.le_of_not_lt hik)]
    rcases hi with hi | hi <;> simp [hik, hi]
    omega

theorem dvd_lmbAlignDown (ha : a < 2 ^ 32) : 2 ^ k ∣ lmbAlignDown a (2 ^ k) := by
  rw [lmbAlignDown_eq hk ha]
  exact Nat.dvd_mul_left _ _

theorem lmbAlignDown_le (ha : a < 2 ^ 32) : lmbAlignDown a (2 ^ k) ≤ a := by
  rw [lmbAlignDown_eq hk ha]
  exact Nat.div_mul_le_self a _

theorem le_lmbAlignDown_iff (ha : a < 2 ^ 32) (hb : 2 ^ k ∣ b) :
    b ≤ lmbAlignDown a (2 ^ k) ↔ b ≤ a := by
  refine ⟨(·.trans (lmbAlignDown_le hk ha)), fun h => ?_⟩
  obtain ⟨c, rfl⟩ := hb
  rw [lmbAlignDown_eq hk ha, Nat.mul_comm]
  exact Nat.mul_le_mul_right _ ((Nat.le_div_iff_mul_le (Nat.two_pow_pos k)).mpr
    (Nat.mul_comm _ c ▸ h))

theorem lmbAlignUp_bounds (hb : 2 ^ k ∣ b) (hb0 : b ≠ 0) (hend : b + size < 2 ^ 32) :
    size ≤ lmbAlignUp size (2 ^ k) ∧ b + lmbAlignUp size (2 ^ k) ≤ 2 ^ 32 := by
  have hlt : 2 ^ k < 2 ^ 32 := Nat.pow_lt_pow_right (by decide) hk
  have hle : 2 ^ k ≤ b := Nat.le_of_dvd (Nat.pos_of_ne_zero hb0) hb
  have hup : lmbAlignUp size (2 ^ k) = lmbAlignDown (size + (2 ^ k - 1)) (2 ^ k) := by
    unfold lmbAlignUp lmbAlignDown
    rw [sub_eq Nat.one_le_two_pow hlt, add_eq (by omega)]
  rw [hup, lmbAlignDown_eq hk (by omega)]
  have hdm := Nat.div_add_mod (size + (2 ^ k - 1)) (2 ^ k)
  rw [Nat.mul_comm] at hdm
  refine ⟨by omega, ?_⟩
  -- both are multiples of the alignment, so that the end is at most the next multiple
  obtain ⟨c, rfl⟩ := hb
  obtain ⟨d, hd⟩ : 2 ^ k ∣ 2 ^ 32 := Nat.pow_dvd_pow 2 hk.le
  rw [hd] at hend ⊢
  rw [Nat.mul_comm _ (2 ^ k), ← Nat.mul_add]
  refine Nat.mul_le_mul_left _ (Nat.le_of_lt_succ (Nat.lt_of_mul_lt_mul_left (a := 2 ^ k) ?_))
  rw [Nat.mul_add, Nat.mul_succ, Nat.mul_comm _ (_ / _)]
  omega

end

/-! ## The search in one memory region -/

variable {res : LmbRegion} {size base b lmbbase : Nat}

def LmbRegion.Free (res : LmbRegion) (base size : Nat) : Prop :=
  ∀ j < res.cnt, lmbAddrsOverlap base size (res.region j).base (res.region j).size = false

theorem overlapLoop_none (h : overlapLoop res base size n i = none) (hij : i ≤ j)
    (hj : j < i + n) : lmbAddrsOverlap base size (res.region j).base (res.region j).size = false := by
  induction n generalizing i with
  | zero => omega
  | succ n ih =>
    simp only [overlapLoop] at h
    split at h
    case isTrue => cases h
    case isFalse hno =>
      rcases Nat.lt_or_eq_of_le hij with hlt | rfl
      · exact ih h hlt (by omega)
      · exact Bool.eq_false_iff.mpr hno

theorem overlapLoop_some (h : overlapLoop res base size n i = some j) :
    j < i + n ∧ lmbAddrsOverlap base size (res.region j).base (res.region j).size = true := by
  induction n generalizing i with
  | zero => cases h
  | succ n ih =>
    simp only [overlapLoop] at h
    split at h
    case isTrue hov =>
      cases h
      exact ⟨by omega, hov⟩
    case isFalse =>
      obtain ⟨hj, hov⟩ := ih h
      exact ⟨by omega, hov⟩

theorem lmbOverlapsRegion_none (h : lmbOverlapsRegion res base size = none) : res.Free base size :=
  fun _ hj => overlapLoop_none h (Nat.zero_le _) (by omega)

theorem lmbOverlapsRegion_some (h : lmbOverlapsRegion res base size = some j) :
    j < res.cnt ∧ lmbAddrsOverlap base size (res.region j).base (res.region j).size = true := by
  simpa using overlapLoop_some h

theorem overlap_iff (hwf : res.Ordered) (hj : j < res.cnt) (hend : base + size < 2 ^ 32) :
    lmbAddrsOverlap base size (res.region j).base (res.region j).size = true ↔
      base < res.table.hi j ∧ res.table.lo j < base + size := by
  have hw : res.table.hi j < 2 ^ 32 := hwf.noWrap j hj
  simp only [lmbAddrsOverlap, add_eq hend, add_eq hw, Bool.and_eq_true, decide_eq_true_eq]
  rfl

theorem LmbRegion.Free.apart (hfree : res.Free base size) (hwf : res.Ordered)
    (hend : base + size < 2 ^ 32) (hj : j < res.cnt) :
    res.table.hi j ≤ base ∨ base + size ≤ res.table.lo j := by
  have hno := (overlap_iff hwf hj hend).not.mp (Bool.eq_false_iff.mp (hfree j hj))
  omega

/-- An address the search in a memory region from `lmbbase` may stop at. -/
structure Place (res : LmbRegion) (size align lmbbase b : Nat) : Prop where
  ne_zero : b ≠ 0
  aligned : align ∣ b
  base_le : lmbbase ≤ b
  free : res.Free b size

def takeAt (res : LmbRegion) (b n : Nat) : Option (Nat × LmbRegion) :=
  (lmbAddRegion res b n).map fun r => (if r.1 < 0 then 0 else b, r.2)

def Search.ofTake (r : Nat × LmbRegion) : Search := .returned r.1 r.2

theorem allocLoop_free (hb0 : b ≠ 0) (hle : lmbbase ≤ b)
    (hov : lmbOverlapsRegion res b size = none) :
    allocLoop size align lmbbase res (fuel + 1) b =
      (takeAt res b (lmbAlignUp size align)).map Search.ofTake := by
  unfold allocLoop takeAt
  rw [if_pos ⟨hb0, hle⟩, hov]
  cases lmbAddRegion res b (lmbAlignUp size align) with
  | none => rfl
  | some r =>
    simp only [Option.bind_eq_bind, Option.bind_some, Option.map_some, Search.ofTake]
    split <;> rfl

/-- The search stops at the highest of some addresses, or goes on if there is none. -/
def FindsTop (res : LmbRegion) (size align : Nat) (P : Nat → Prop) (r : Option Search) : Prop :=
  (∃ b, IsGreatest {b | P b} b ∧ r = (takeAt res b (lmbAlignUp size align)).map Search.ofTake) ∨
  ((∀ b, ¬ P b) ∧ r = some .next)

theorem FindsTop.congr (h : FindsTop res size align P r) (hiff : ∀ b, P b ↔ Q b) :
    FindsTop res size align Q r := by
  obtain rfl : P = Q := funext fun b => propext (hiff b)
  exact h

theorem allocLoop_spec (hk : k < 32) (hwf : res.Ordered) (fuel m base : Nat)
    (hal : 2 ^ k ∣ base) (hend : base + size < 2 ^ 32)
    (hm : ∀ j < res.cnt, res.table.lo j < base + size → j < m) (hfuel : m < fuel) :
    FindsTop res size (2 ^ k) (fun b => b ≤ base ∧ Place res size (2 ^ k) lmbbase b)
      (allocLoop size (2 ^ k) lmbbase res fuel base) := by
  induction fuel generalizing m base with
  | zero => cases hfuel
  | succ fuel ih =>
    by_cases hbase : base ≠ 0 ∧ lmbbase ≤ base
    · cases hov : lmbOverlapsRegion res base size with
      | none =>
        exact .inl ⟨base, ⟨⟨le_rfl, hbase.1, hal, hbase.2, lmbOverlapsRegion_none hov⟩,
          fun b hb => hb.1⟩, allocLoop_free hbase.1 hbase.2 hov⟩
      | some j =>
        obtain ⟨hj, hover⟩ := lmbOverlapsRegion_some hov
        rw [overlap_iff hwf hj hend] at hover
        -- a place below is below the region
        have hbelow (b) (hb : b ≤ base) (hp : Place res size (2 ^ k) lmbbase b) :
            b + size ≤ res.table.lo j := by
          rcases hp.free.apart hwf (by omega) hj with h | h <;> omega
        unfold allocLoop
        rw [if_pos hbase, hov]
        simp only
        have hlo : (res.region j).base = res.table.lo j := rfl
        have hlow : res.table.lo j < 2 ^ 32 :=
          (hwf.sorted.lo_le_hi j hj).trans_lt (hwf.noWrap j hj)
        rw [hlo]
        by_cases hsmall : res.table.lo j < size
        · refine .inr ⟨fun b hb => ?_, if_pos hsmall⟩
          have := hbelow b hb.1 hb.2
          omega
        · rw [if_neg hsmall, sub_eq (by omega) hlow]
          have hlt : res.table.lo j - size < 2 ^ 32 := by omega
          have hdown := lmbAlignDown_le hk hlt
          have hm' (i) (hi : i < res.cnt)
              (hlti : res.table.lo i < lmbAlignDown (res.table.lo j - size) (2 ^ k) + size) :
              i < j := by
            by_contra hji
            have := hwf.sorted.lo_le_lo (Nat.le_of_not_lt hji) hi
            omega
          have hjm := hm j hj hover.2
          refine (ih j _ (dvd_lmbAlignDown hk hlt) (by omega) hm' (by omega)).congr fun b =>
            and_congr_left fun hp => ?_
          rw [le_lmbAlignDown_iff hk hlt hp.aligned]
          refine ⟨fun h => ?_, fun h => ?_⟩
          · omega
          · have := hbelow b h hp
            omega
    · refine .inr ⟨fun b hb => hbase ⟨?_, hb.2.base_le.trans hb.1⟩, ?_⟩
      · have hne := hb.2.ne_zero
        omega
      · unfold allocLoop
        rw [if_neg hbase]

/-! ## The search in all memory regions -/

variable {lmb : Lmb} {maxAddr k : Nat}

def Within (p : Property) (size maxAddr b : Nat) : Prop :=
  p.base ≤ b ∧ b + size ≤ p.base + p.size ∧ (maxAddr ≠ allocAnywhere → b + size ≤ maxAddr)

/-- An address that may be allocated, from the memory regions below `n`. -/
structure Candidate (lmb : Lmb) (size align maxAddr n b : Nat) : Prop where
  ne_zero : b ≠ 0
  aligned : align ∣ b
  within : ∃ i < n, Within (lmb.memory.region i) size maxAddr b
  free : lmb.reserved.Free b size

theorem Candidate.end_lt (hmem : lmb.memory.Ordered) (hn : n ≤ lmb.memory.cnt)
    (hc : Candidate lmb size align maxAddr n b) : b + size < 2 ^ 32 := by
  obtain ⟨i, hi, -, hhi, -⟩ := hc.within
  exact hhi.trans_lt (hmem.noWrap i (hi.trans_le hn))

theorem allocStart_none (hsize : 0 < size)
    (hstart : allocStart p size align maxAddr = none) : ¬ Within p size maxAddr b := by
  rintro ⟨hlo, hhi, hmax⟩
  unfold allocStart at hstart
  split_ifs at hstart with h1 h2 h3
  · omega
  · have := hmax h2
    omega

theorem allocStart_some (hk : k < 32) (hmax : maxAddr = allocAnywhere ∨ size ≤ maxAddr)
    (hw : p.base + p.size < 2 ^ 32) (hstart : allocStart p size (2 ^ k) maxAddr = some s) :
    2 ^ k ∣ s ∧ s + size < 2 ^ 32 ∧
      ∀ b, 2 ^ k ∣ b → p.base ≤ b → (b ≤ s ↔ Within p size maxAddr b) := by
  have hgen (limit) (hlimit : limit < 2 ^ 32) (hle : size ≤ limit)
      (hs : lmbAlignDown (sub limit size) (2 ^ k) = s) :
      2 ^ k ∣ s ∧ s + size < 2 ^ 32 ∧ ∀ b, 2 ^ k ∣ b → (b ≤ s ↔ b + size ≤ limit) := by
    subst hs
    have hlt : limit - size < 2 ^ 32 := by omega
    rw [sub_eq hle hlimit]
    have hdown := lmbAlignDown_le hk hlt
    refine ⟨dvd_lmbAlignDown hk hlt, by omega, fun b hb => ?_⟩
    rw [le_lmbAlignDown_iff hk hlt hb]
    omega
  unfold allocStart at hstart
  rw [add_eq hw] at hstart
  split_ifs at hstart with h1 h2 h3
  · obtain ⟨hdvd, hend, hiff⟩ := hgen _ hw (by omega) (Option.some.inj hstart)
    refine ⟨hdvd, hend, fun b hb hlo => ?_⟩
    rw [hiff b hb, Within]
    exact ⟨fun h => ⟨hlo, h, fun hne => absurd h2 hne⟩, fun h => h.2.1⟩
  · obtain ⟨hdvd, hend, hiff⟩ := hgen _ (by omega) (by omega) (Option.some.inj hstart)
    refine ⟨hdvd, hend, fun b hb hlo => ?_⟩
    rw [hiff b hb, Within, le_min_iff]
    exact ⟨fun h => ⟨hlo, h.1, fun _ => h.2⟩, fun h => ⟨h.2.1, h.2.2 h2⟩⟩

def Lmb.withReserved (lmb : Lmb) (r : Nat × LmbRegion) : Nat × Lmb :=
  (r.1, { lmb with reserved := r.2 })

def TakesTop (lmb : Lmb) (size align : Nat) (P : Nat → Prop) (r : Option (Nat × Lmb)) : Prop :=
  (∃ b, IsGreatest {b | P b} b ∧
    r = (takeAt lmb.reserved b (lmbAlignUp size align)).map lmb.withReserved) ∨
  ((∀ b, ¬ P b) ∧ r = some (0, lmb))

theorem TakesTop.congr (h : TakesTop lmb size align P r) (hiff : ∀ b, P b ↔ Q b) :
    TakesTop lmb size align Q r := by
  obtain rfl : P = Q := funext fun b => propext (hiff b)
  exact h

section
variable (hstart : allocStart (lmb.memory.region i) size align maxAddr = some s)
include hstart

theorem allocRegions_next
    (hloop : allocLoop size align (lmb.memory.region i).base lmb.reserved (lmb.reserved.cnt + 1) s =
      some .next) :
    allocRegions lmb size align maxAddr (i + 1) = allocRegions lmb size align maxAddr i := by
  simp [allocRegions, hstart, hloop]

theorem allocRegions_take
    (hloop : allocLoop size align (lmb.memory.region i).base lmb.reserved (lmb.reserved.cnt + 1) s =
      (takeAt lmb.reserved b n).map Search.ofTake) : allocRegions lmb size align maxAddr (i + 1) =
      (takeAt lmb.reserved b n).map lmb.withReserved := by
  simp only [allocRegions, hstart, hloop]
  cases takeAt lmb.reserved b n <;> rfl

end

/-- The regions are searched from the last, for addresses that lie the higher the later their
region comes. -/
theorem allocRegions_takesTop {At : Nat → Nat → Prop}
    (hstep : ∀ i < lmb.memory.cnt,
      (allocStart (lmb.memory.region i) size align maxAddr = none ∧ ∀ b, ¬ At i b) ∨
      ∃ s, allocStart (lmb.memory.region i) size align maxAddr = some s ∧
        FindsTop lmb.reserved size align (At i) (allocLoop size align (lmb.memory.region i).base
          lmb.reserved (lmb.reserved.cnt + 1) s))
    (habove : ∀ i < lmb.memory.cnt, ∀ j < i, ∀ b b', At i b → At j b' → b' ≤ b)
    (hn : n ≤ lmb.memory.cnt) :
    TakesTop lmb size align (fun b => ∃ i < n, At i b)
      (allocRegions lmb size align maxAddr n) := by
  induction n with
  | zero => exact .inr ⟨by simp, rfl⟩
  | succ i ih =>
    have ih := ih (Nat.le_of_succ_le hn)
    have hskip (hno : ∀ b, ¬ At i b) (b : Nat) : (∃ j < i, At j b) ↔ ∃ j < i + 1, At j b := by
      simp only [Nat.lt_succ_iff_lt_or_eq, or_and_right, exists_or, exists_eq_left, hno, or_false]
    obtain ⟨hstart, hno⟩ | ⟨s, hstart, ⟨b, hb, hloop⟩ | ⟨hno, hloop⟩⟩ := hstep i hn
    · rw [show allocRegions lmb size align maxAddr (i + 1) =
        allocRegions lmb size align maxAddr i by simp [allocRegions, hstart]]
      exact ih.congr (hskip hno)
    · refine .inl ⟨b, ⟨⟨i, Nat.lt_succ_self i, hb.1⟩, ?_⟩, allocRegions_take hstart hloop⟩
      rintro b' ⟨j, hj, hat⟩
      rcases Nat.lt_succ_iff_lt_or_eq.mp hj with hlt | rfl
      · exact habove i hn j hlt b b' hb.1 hat
      · exact hb.2 hat
    · rw [allocRegions_next hstart hloop]
      exact ih.congr (hskip hno)

theorem allocRegions_top (hk : k < 32) (hmem : lmb.memory.Ordered) (hres : lmb.reserved.Ordered)
    (hsize : 0 < size) (hmax : maxAddr = allocAnywhere ∨ size ≤ maxAddr)
    (hn : n ≤ lmb.memory.cnt) :
    TakesTop lmb size (2 ^ k) (Candidate lmb size (2 ^ k) maxAddr n)
      (allocRegions lmb size (2 ^ k) maxAddr n) := by
  refine (@allocRegions_takesTop _ _ _ _ _ (fun i b =>
    Place lmb.reserved size (2 ^ k) (lmb.memory.region i).base b ∧
      Within (lmb.memory.region i) size maxAddr b) (fun i hi => ?_) ?_ hn).congr fun b => ?_
  · cases hstart : allocStart (lmb.memory.region i) size (2 ^ k) maxAddr with
    | none => exact .inl ⟨rfl, fun b h => allocStart_none hsize hstart h.2⟩
    | some s =>
      obtain ⟨hdvd, hend, hiff⟩ := allocStart_some hk hmax (hmem.noWrap i hi) hstart
      refine .inr ⟨s, rfl, (allocLoop_spec hk hres _ _ s hdvd hend (fun j hj _ => hj)
        (Nat.lt_succ_self _)).congr fun b => ?_⟩
      rw [and_comm]
      exact and_congr_right fun hp => hiff b hp.aligned hp.base_le
  · intro i hi j hj b b' hb hb'
    have hle : lmb.memory.table.hi j ≤ lmb.memory.table.lo i := hmem.sorted.hi_le_lo hj hi
    exact (Nat.le_add_right b' size).trans (hb'.2.2.1.trans (hle.trans hb.1.base_le))
  · constructor
    · rintro ⟨i, hi, hp, hwithin⟩
      exact ⟨hp.ne_zero, hp.aligned, ⟨i, hi, hwithin⟩, hp.free⟩
    · intro hc
      obtain ⟨i, hi, hwithin⟩ := hc.within
      exact ⟨i, hi, ⟨hc.ne_zero, hc.aligned, hwithin.1, hc.free⟩, hwithin⟩

/-! ## A limit below the size -/

def wrapStart (size align maxAddr : Nat) : Nat := lmbAlignDown (2 ^ 32 + maxAddr - size) align

/-- An address that is found then: the memory region is one that begins below
the limit, but nothing holds the address inside it. -/
structure WrapCandidate (lmb : Lmb) (size align maxAddr n b : Nat) : Prop where
  place : ∃ i < n, size ≤ (lmb.memory.region i).size ∧ (lmb.memory.region i).base < maxAddr ∧
    Place lmb.reserved size align (lmb.memory.region i).base b
  start : b = wrapStart size align maxAddr ∨
    b < wrapStart size align maxAddr ∧ b + size < 2 ^ 32

theorem allocStart_wrap (p : Property) (align : Nat) (hmax0 : maxAddr ≠ allocAnywhere)
    (hmax : maxAddr < size) (hw : p.base + p.size < 2 ^ 32) :
    allocStart p size align maxAddr =
      if size ≤ p.size ∧ p.base < maxAddr then some (wrapStart size align maxAddr) else none := by
  unfold allocStart
  split_ifs with h1 h2 h3 h4 <;> first | omega | rfl | skip
  have hmin : min (add p.base p.size) maxAddr = maxAddr := by
    rw [add_eq hw]
    omega
  have hsub : sub maxAddr size = 2 ^ 32 + maxAddr - size := by
    unfold sub
    rw [Nat.add_comm]
    exact Nat.mod_eq_of_lt (by omega)
  rw [hmin, hsub, wrapStart]

theorem allocLoop_wrap (hwf : res.Ordered) (hsize : size < 2 ^ 32) (hmax : maxAddr < size)
    (hal : align ∣ base) (hlt : base < 2 ^ 32) (hle : base + size ≤ 2 ^ 32 + maxAddr)
    (hwrap : 2 ^ 32 ≤ base + size) :
    FindsTop res size align
      (fun b => Place res size align lmbbase b ∧ (b = base ∨ b < base ∧ b + size < 2 ^ 32))
      (allocLoop size align lmbbase res (fuel + 1) base) := by
  by_cases hbase : base ≠ 0 ∧ lmbbase ≤ base
  · cases hov : lmbOverlapsRegion res base size with
    | none =>
      refine .inl ⟨base, ⟨⟨⟨hbase.1, hal, hbase.2, lmbOverlapsRegion_none hov⟩, .inl rfl⟩,
        fun b hb => ?_⟩, allocLoop_free hbase.1 hbase.2 hov⟩
      have := hb.2
      omega
    | some j =>
      obtain ⟨hj, hover⟩ := lmbOverlapsRegion_some hov
      have hw : res.table.hi j < 2 ^ 32 := hwf.noWrap j hj
      have hadd : add base size = base + size - 2 ^ 32 := by
        unfold add
        rw [Nat.mod_eq_sub_mod hwrap]
        exact Nat.mod_eq_of_lt (by omega)
      have hover' := hover
      simp only [lmbAddrsOverlap, add_eq hw, hadd, Bool.and_eq_true, decide_eq_true_eq] at hover'
      refine .inr ⟨?_, ?_⟩
      · rintro b ⟨hp, rfl | ⟨hlt', hend⟩⟩
        · rw [hp.free j hj] at hover
          cases hover
        · have := hp.free.apart hwf hend hj
          simp only [LmbRegion.table] at this
          omega
      · unfold allocLoop
        rw [if_pos hbase, hov]
        exact if_pos (by omega)
  · refine .inr ⟨?_, ?_⟩
    · rintro b ⟨hp, hb⟩
      have hne := hp.ne_zero
      have hge := hp.base_le
      omega
    · unfold allocLoop
      rw [if_neg hbase]

theorem allocLoop_wrapStart (hk : k < 32) (hres : res.Ordered) (hsize : size < 2 ^ 32)
    (hmax : maxAddr < size) :
    FindsTop res size (2 ^ k)
      (fun b => Place res size (2 ^ k) lmbbase b ∧ (b = wrapStart size (2 ^ k) maxAddr ∨
        b < wrapStart size (2 ^ k) maxAddr ∧ b + size < 2 ^ 32))
      (allocLoop size (2 ^ k) lmbbase res (res.cnt + 1) (wrapStart size (2 ^ k) maxAddr)) := by
  have hlt : 2 ^ 32 + maxAddr - size < 2 ^ 32 := by omega
  have hdown : wrapStart size (2 ^ k) maxAddr ≤ 2 ^ 32 + maxAddr - size := lmbAlignDown_le hk hlt
  have hdvd : 2 ^ k ∣ wrapStart size (2 ^ k) maxAddr := dvd_lmbAlignDown hk hlt
  generalize wrapStart size (2 ^ k) maxAddr = s at hdown hdvd
  rcases Nat.lt_or_ge (s + size) (2 ^ 32) with hend | hwrap
  · refine (allocLoop_spec hk hres _ _ s hdvd hend (fun j hj _ => hj)
      (Nat.lt_succ_self _)).congr fun b => ?_
    rw [and_comm]
    exact and_congr_right fun _ => by omega
  · exact allocLoop_wrap hres hsize hmax hdvd (hdown.trans_lt hlt) (by omega) hwrap

theorem allocRegions_wrap (hk : k < 32) (hmem : lmb.memory.Ordered)
    (hres : lmb.reserved.Ordered) (hsize : size < 2 ^ 32) (hmax0 : maxAddr ≠ allocAnywhere)
    (hmax : maxAddr < size) (hn : n ≤ lmb.memory.cnt) :
    TakesTop lmb size (2 ^ k) (WrapCandidate lmb size (2 ^ k) maxAddr n)
      (allocRegions lmb size (2 ^ k) maxAddr n) := by
  refine (@allocRegions_takesTop _ _ _ _ _ (fun i b =>
    (size ≤ (lmb.memory.region i).size ∧ (lmb.memory.region i).base < maxAddr ∧
      Place lmb.reserved size (2 ^ k) (lmb.memory.region i).base b) ∧
    (b = wrapStart size (2 ^ k) maxAddr ∨
      b < wrapStart size (2 ^ k) maxAddr ∧ b + size < 2 ^ 32)) (fun i hi => ?_) ?_ hn).congr
    fun b => ?_
  · have hstart := allocStart_wrap (lmb.memory.region i) (2 ^ k) hmax0 hmax (hmem.noWrap i hi)
    split at hstart
    case isFalse hnot => exact .inl ⟨hstart, fun b h => hnot ⟨h.1.1, h.1.2.1⟩⟩
    case isTrue hfits =>
      refine .inr ⟨_, hstart, (allocLoop_wrapStart hk hres hsize hmax).congr fun b => ?_⟩
      rw [and_iff_right hfits.1, and_iff_right hfits.2]
  · rintro i hi j hj b b' ⟨⟨-, hlow, -⟩, -⟩ ⟨⟨hsz, -⟩, -⟩
    -- a region below another that begins below the limit has no room
    have hle : lmb.memory.table.hi j ≤ lmb.memory.table.lo i := hmem.sorted.hi_le_lo hj hi
    simp only [LmbRegion.table] at hle
    omega
  · constructor
    · rintro ⟨i, hi, h, hs⟩
      exact ⟨⟨i, hi, h⟩, hs⟩
    · rintro ⟨⟨i, hi, h⟩, hs⟩
      exact ⟨i, hi, h, hs⟩

end UBoot.Memory
