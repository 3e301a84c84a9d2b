import UBoot.Memory.Alloc

/-!
# Allocation from the top

Without a limit, `__lmb_alloc_base` returns the highest address where the size
fits, and zero if there is none. It does not return at all if nothing is reserved
and the entries that were left in the array touch.
-/

namespace UBoot.Memory

variable {lmb : Lmb} {res : LmbRegion} {size align b n k : Nat}

structure Fits (lmb : Lmb) (size align b : Nat) : Prop where
  ne_zero : b ≠ 0
  aligned : align ∣ b
  inside : ∃ i < lmb.memory.cnt, lmb.memory.table.lo i ≤ b ∧ b + size ≤ lmb.memory.table.hi i
  apart : ∀ j < lmb.reserved.cnt, lmb.reserved.table.hi j ≤ b ∨ b + size ≤ lmb.reserved.table.lo j

def AllocTop (lmb : Lmb) (size align : Nat) : Prop :=
  ∃ base lmb', lmbAllocBase lmb size align allocAnywhere = some (base, lmb') ∧
    (base ≠ 0 → IsGreatest {b | Fits lmb size align b} base) ∧
    (base = 0 ↔ ∀ b, ¬ Fits lmb size align b)

theorem candidate_iff_fits (hmem : lmb.memory.Ordered) (hres : lmb.reserved.Ordered)
    (size align b : Nat) :
    Candidate lmb size align allocAnywhere lmb.memory.cnt b ↔ Fits lmb size align b := by
  constructor
  · intro hc
    obtain ⟨i, hi, hlo, hhi, -⟩ := hc.within
    exact ⟨hc.ne_zero, hc.aligned, ⟨i, hi, hlo, hhi⟩,
      fun j hj => hc.free.apart hres (hc.end_lt hmem le_rfl) hj⟩
  · intro hf
    obtain ⟨i, hi, hlo, hhi⟩ := hf.inside
    have hend : b + size < 2 ^ 32 := hhi.trans_lt (hmem.noWrap i hi)
    refine ⟨hf.ne_zero, hf.aligned, ⟨i, hi, hlo, hhi, fun h => absurd rfl h⟩, fun j hj => ?_⟩
    rw [Bool.eq_false_iff, Ne, overlap_iff hres hj hend]
    have := hf.apart j hj
    omega

/-! ## Adding the region -/

theorem lmbAddRegion_isSome_iff (hroom : res.cnt ≤ maxLmbRegions + 1) (b n : Nat) :
    (∃ r, lmbAddRegion res b n = some r) ↔ (res.cnt = 0 → lmbRegionsAdjacent res 0 1 = 0) := by
  rcases Nat.eq_zero_or_pos res.cnt with hcnt | hcnt
  · rw [lmbAddRegion_stale hcnt]
    by_cases hadj : lmbRegionsAdjacent res 0 1 = 0
    · rw [if_neg (not_not.mpr hadj)]
      refine iff_of_true ?_ fun _ => hadj
      split <;> exact ⟨_, rfl⟩
    · rw [if_pos hadj]
      exact iff_of_false (by simp) fun h => hadj (h hcnt)
  · refine iff_of_true ?_ fun h => by omega
    obtain ⟨ret, res', hrun, -⟩ | ⟨-, -, hrun⟩ := lmbAddRegion_cases hcnt hroom b n
    · exact ⟨_, hrun⟩
    · exact ⟨_, hrun⟩

theorem takeAt_eq (hroom : res.cnt < maxLmbRegions) (h : lmbAddRegion res b n = some r) :
    takeAt res b n = some (b, r.2) := by
  have hret : ¬ r.1 < 0 := fun hneg =>
    absurd ((lmbAddRegion_neg_iff (by omega)).mp ⟨r.1, r.2, h, hneg⟩).1 (by omega)
  rw [takeAt, h, Option.map_some, if_neg hret]

/-! ## The allocation -/

/-- The highest address that fits is returned, unless nothing is reserved and the entries left
in the array touch. -/
theorem lmbAllocBase_top_iff (hmem : lmb.memory.Ordered) (hres : lmb.reserved.Ordered)
    (hroom : lmb.reserved.cnt < maxLmbRegions) (hk : k < 32) (hsize : 0 < size) :
    AllocTop lmb size (2 ^ k) ↔
      (lmb.reserved.cnt = 0 → lmbRegionsAdjacent lmb.reserved 0 1 = 0) ∨
        ∀ b, ¬ Fits lmb size (2 ^ k) b := by
  have hiff := candidate_iff_fits hmem hres size (2 ^ k)
  rcases (allocRegions_top hk hmem hres hsize (.inl rfl) le_rfl).congr hiff with
    ⟨b, hb, hrun⟩ | ⟨hnone, hrun⟩
  · have hfits : Fits lmb size (2 ^ k) b := hb.1
    have hsome := lmbAddRegion_isSome_iff hres.room b (lmbAlignUp size (2 ^ k))
    rw [or_iff_left fun hnone => hnone b hfits, ← hsome]
    constructor
    · rintro ⟨base, lmb', heq, -⟩
      unfold lmbAllocBase at heq
      rw [hrun, takeAt, Option.map_map, Option.map_eq_some_iff] at heq
      obtain ⟨r, hr, -⟩ := heq
      exact ⟨r, hr⟩
    · rintro ⟨r, hr⟩
      rw [takeAt_eq hroom hr] at hrun
      exact ⟨b, _, hrun, fun _ => hb, iff_of_false hfits.ne_zero fun hnone => hnone b hfits⟩
  · refine iff_of_true ⟨0, lmb, hrun, fun h => absurd rfl h, iff_of_true rfl hnone⟩ (.inr hnone)

theorem lmbAllocBase_top_one : AllocTop (oneRegion ⟨4096, 4096⟩ ⟨4096, 256⟩) 16 (2 ^ 8) :=
  (lmbAllocBase_top_iff (oneRegion_wellFormed _ (by decide) (by norm_num)).ordered
    (oneRegion_wellFormed _ (by decide) (by norm_num)).ordered (by decide) (by decide)
    (by decide)).mpr (.inl fun h => absurd h (by decide))

/-- The array as it is left when `[4096, 16384)` was reserved in three pieces, the middle one
last, and `[12288, 16384)` and then the rest was freed. -/
def staleReserved : LmbRegion where
  cnt := 0
  region i := if i = 0 then ⟨4096, 8192⟩ else ⟨12288, 4096⟩

example :
    (do
      let lmb := lmbInit (oneRegion ⟨0, 0⟩ ⟨0, 0⟩)
      let (_, lmb) ← lmbReserve lmb 4096 4096
      let (_, lmb) ← lmbReserve lmb 12288 4096
      let (_, lmb) ← lmbReserve lmb 8192 4096
      let (_, lmb) ← lmbFree lmb 12288 4096
      let (_, lmb) ← lmbFree lmb 4096 8192
      some (lmb.reserved.cnt, lmb.reserved.region 0, lmb.reserved.region 1)) =
    some (staleReserved.cnt, staleReserved.region 0, staleReserved.region 1) := by
  decide +kernel

/-- The entries left in the array are merged, over the end of it. -/
theorem lmbAllocBase_stale :
    ¬ AllocTop ⟨⟨1, fun _ => ⟨4096, 65536⟩⟩, staleReserved⟩ 16 (2 ^ 8) := by
  rintro ⟨base, lmb', hrun, -⟩
  have hnone : (lmbAllocBase ⟨⟨1, fun _ => ⟨4096, 65536⟩⟩, staleReserved⟩ 16 (2 ^ 8)
      allocAnywhere).isNone := by decide +kernel
  rw [hrun] at hnone
  cases hnone

end UBoot.Memory
