import UBoot.Memory.Search

/-!
# Allocation of free memory

What `__lmb_alloc_base` promises about the address it returns. The search makes sure that
`size` bytes are free, but the size rounded up is reserved; a limit below the size makes the
search start near the end of the address space; and a table without a region is not written
to as it should.
-/

namespace UBoot.Memory

open Function

variable {res res' : LmbRegion} {b size n : Nat}

def Taken (res res' : LmbRegion) (b size : Nat) : Prop :=
  res'.WellFormed ∧ res.covered ∪ Set.Ico b (b + size) ⊆ res'.covered

/-- When `n` bytes can be reserved at an address where `size` bytes are free. -/
structure Reservable (res : LmbRegion) (b size n : Nat) : Prop where
  /-- Without a region, the entries left in the array do not touch, and the first
  of them is above the address or contains the range. -/
  stale : res.cnt = 0 → lmbRegionsAdjacent res 0 1 = 0 ∧
    (b < (res.region 0).base ∧ b + n < 2 ^ 32 ∨
      (res.region 0).base ≤ b ∧ b + size ≤ (res.region 0).base + (res.region 0).size ∧
        (res.region 0).base + (res.region 0).size < 2 ^ 32)
  dummy : res.Dummy → b + n < 2 ^ 32
  /-- The rounded range is apart from every region; or the table is full, and the
  allocation fails. -/
  apart : 0 < res.cnt → ¬ res.Dummy →
    maxLmbRegions ≤ res.cnt ∧ res.NoNeighbour b n ∨ b + n < 2 ^ 32 ∧ res.Apart b n

/-! ## Without a region -/

theorem taken_single (base n : Nat) (hempty : res.covered = ∅) (hcnt : res'.cnt = 1)
    (h0 : res'.region 0 = ⟨base, n⟩) (hsize : 0 < size) :
    Taken res res' b size ↔ base ≤ b ∧ b + size ≤ base + n ∧ base + n < 2 ^ 32 := by
  constructor
  · rintro ⟨hwf, hcov⟩
    rw [hempty, Set.empty_union, covered_single hcnt h0] at hcov
    have hw := hwf.noWrap 0 (hcnt ▸ Nat.one_pos : 0 < res'.cnt)
    simp only [LmbRegion.table, h0] at hw
    have hlo := hcov (show b ∈ Set.Ico b (b + size) by simp [hsize])
    have hhi := hcov (show b + size - 1 ∈ Set.Ico b (b + size) by simp only [Set.mem_Ico]; omega)
    simp only [Set.mem_Ico] at hlo hhi
    omega
  · rintro ⟨hlo, hhi, hw⟩
    refine ⟨wellFormed_single hcnt h0 (by omega) hw, ?_⟩
    rw [hempty, Set.empty_union, covered_single hcnt h0]
    exact Set.Ico_subset_Ico hlo hhi

theorem stale_taken_iff (hcnt : res.cnt = 0) (hsize : 0 < size) (hle : size ≤ n) :
    (∃ ret res', lmbAddRegion res b n = some (ret, res') ∧ (0 ≤ ret → Taken res res' b size)) ↔
      Reservable res b size n := by
  have hempty := covered_empty hcnt
  have hiff : Reservable res b size n ↔ lmbRegionsAdjacent res 0 1 = 0 ∧
      (b < (res.region 0).base ∧ b + n < 2 ^ 32 ∨
        (res.region 0).base ≤ b ∧ b + size ≤ (res.region 0).base + (res.region 0).size ∧
          (res.region 0).base + (res.region 0).size < 2 ^ 32) := by
    refine ⟨fun h => h.stale hcnt, fun h => ⟨fun _ => h, ?_, ?_⟩⟩
    · rintro ⟨h1, -⟩
      omega
    · omega
  rw [hiff, lmbAddRegion_stale hcnt]
  by_cases hadj : lmbRegionsAdjacent res 0 1 = 0
  · rw [if_neg (by simp [hadj])]
    have hone (res' : LmbRegion) : (∃ ret r, some ((0 : Int), res') = some (ret, r) ∧
        (0 ≤ ret → Taken res r b size)) ↔ Taken res res' b size := by
      constructor
      · rintro ⟨_, _, ⟨⟩, h⟩
        exact h le_rfl
      · exact fun h => ⟨0, res', rfl, fun _ => h⟩
    split
    · rw [hone, taken_single b n hempty rfl (by simp [LmbRegion.setRegion]) hsize]
      omega
    · have hcnt1 : ({ res with cnt := 1 } : LmbRegion).cnt = 1 := rfl
      rw [hone, taken_single (res.region 0).base (res.region 0).size hempty hcnt1 rfl hsize]
      omega
  · rw [if_pos hadj]
    simp [hadj]

theorem dummy_taken_iff (hd : res.Dummy) (hsize : 0 < size) (hle : size ≤ n) :
    (∃ ret res', lmbAddRegion res b n = some (ret, res') ∧ (0 ≤ ret → Taken res res' b size)) ↔
      Reservable res b size n := by
  have hiff : Reservable res b size n ↔ b + n < 2 ^ 32 := by
    refine ⟨fun h => h.dummy hd, fun h => ⟨fun h0 => ?_, fun _ => h, fun _ hnd => absurd hd hnd⟩⟩
    omega
  rw [hiff, lmbAddRegion, if_pos hd]
  have hcnt : (res.setRegion 0 ⟨b, n⟩).cnt = 1 := hd.1
  have htaken := taken_single b n (b := b) (covered_dummy hd) hcnt
    (by simp [LmbRegion.setRegion]) hsize
  constructor
  · rintro ⟨_, _, ⟨⟩, h⟩
    exact (htaken.mp (h le_rfl)).2.2
  · exact fun h => ⟨0, _, rfl, fun _ => htaken.mpr ⟨le_rfl, by omega, h⟩⟩

/-! ## With a region -/

variable {rgn rgn' : LmbRegion}

theorem mergeNext_eq_self (hadj : i + 1 < rgn.cnt → lmbRegionsAdjacent rgn i (i + 1) = 0)
    (hcnt : 0 < rgn.cnt) (hwide : rgn.cnt < 2 ^ 32) (c : Int) :
    mergeNext i c rgn = some (c, rgn) := by
  unfold mergeNext
  rw [sub_eq hcnt hwide]
  refine if_neg fun h => h.2 (hadj (by omega))

theorem mergeNext_bases (hi : i < rgn.cnt) (hroom : rgn.cnt ≤ maxLmbRegions + 1) (c : Int) :
    ∃ c' rgn', mergeNext i c rgn = some (c', rgn') ∧ c ≤ c' ∧ i < rgn'.cnt ∧
      (∀ j ≤ i, rgn'.table.lo j = rgn.table.lo j) ∧
      ∀ j < rgn'.cnt, ∃ k < rgn.cnt, rgn'.table.lo j = rgn.table.lo k := by
  unfold mergeNext
  rw [sub_eq (by omega) (hroom.trans_lt (by decide))]
  split
  case isTrue h =>
    obtain ⟨rgn', hrun, hsame⟩ := lmbRemoveRegion_spec
      (rgn.setRegion i
        { rgn.region i with size := add (rgn.region i).size (rgn.region (i + 1)).size })
      (r := i + 1) (show i + 1 < rgn.cnt by omega) hroom
    have hco : lmbCoalesceRegions rgn i (i + 1) = some rgn' := hrun
    rw [hco]
    have hcnt : rgn'.cnt = rgn.cnt - 1 := hsame.1
    have hlo (j) (hj : j < rgn'.cnt) :
        rgn'.table.lo j = if j < i + 1 then rgn.table.lo j else rgn.table.lo (j + 1) := by
      rw [(hsame.2 j hj).1]
      simp only [table_setRegion, IntervalTable.remove, IntervalTable.set, update_apply]
      split_ifs with h1 h2 h3 <;> first | rfl | omega | (subst h2; rfl)
    refine ⟨c + 1, rgn', rfl, by omega, by omega, fun j hj => ?_, fun j hj => ?_⟩
    · rw [hlo j (by omega), if_pos (by omega)]
    · rw [hlo j hj]
      split
      · exact ⟨j, by omega, rfl⟩
      · exact ⟨j + 1, by omega, rfl⟩
  case isFalse => exact ⟨c, rgn, rfl, le_rfl, hi, fun _ _ => rfl, fun j hj => ⟨j, hj, rfl⟩⟩

section
variable (hwf : res.WellFormed) (hlt : res.table.All (· < ·)) (hb0 : b ≠ 0) (hsize : 0 < size)
  (hend : b + size < 2 ^ 32) (hfree : res.Free b size) (hn : b + n ≤ 2 ^ 32)
include hwf

theorem apart_of_insert (hcnt : 0 < res.cnt)
    (htaken : Taken res (insertRegion res b n) b size) : b + n < 2 ^ 32 ∧ res.Apart b n := by
  obtain ⟨p, hp, -, hnext, hsame⟩ := insertRegion_same hwf hcnt b n
  obtain ⟨hwf', -⟩ := htaken
  have hcnt' : (insertRegion res b n).table.cnt = res.cnt + 1 := hsame.1
  have hlo (j) (hj : j < res.cnt + 1) := (hsame.2 j (hcnt' ▸ hj)).1
  have hhi (j) (hj : j < res.cnt + 1) := (hsame.2 j (hcnt' ▸ hj)).2
  have hp' : p < res.cnt + 1 := Nat.lt_succ_of_le hp
  have hlop : (insertRegion res b n).table.lo p = b := by simp [hlo p hp', IntervalTable.insert]
  have hhip : (insertRegion res b n).table.hi p = b + n := by simp [hhi p hp', IntervalTable.insert]
  refine ⟨hhip ▸ hwf'.noWrap p (hcnt' ▸ hp'), fun j hj => ?_⟩
  rcases Nat.lt_or_ge j p with hjp | hpj
  · have h1 := hwf'.sorted.hi_le_lo hjp (hcnt' ▸ hp')
    rw [hlop, hhi j (by omega)] at h1
    simp only [IntervalTable.insert, if_pos hjp] at h1
    exact .inl h1
  · have hj' : j + 1 < res.cnt + 1 := by omega
    have h1 := hwf'.sorted.hi_le_lo (Nat.lt_succ_of_le hpj)
      (hcnt' ▸ hj')
    rw [hhip, hlo (j + 1) hj'] at h1
    simp only [IntervalTable.insert, Nat.add_sub_cancel] at h1
    rw [if_neg (by omega), if_neg (by omega)] at h1
    exact .inr h1

include hlt hsize hend hfree hn

theorem apart_of_before (hsearch : findNeighbour res b n res.cnt 0 = .before i) (hi : i < res.cnt)
    (hbase : b = add (res.region i).base (res.region i).size)
    (hrun : lmbAddRegion res b n = some (ret, res')) (htaken : 0 ≤ ret → Taken res res' b size) :
    b + n < 2 ^ 32 ∧ res.Apart b n := by
  have hlti : res.table.lo i < res.table.hi i := hlt i hi
  have hwi : res.table.hi i < 2 ^ 32 := hwf.noWrap i hi
  have hhi : b = res.table.hi i := hbase.trans (add_eq hwi)
  rw [lmbAddRegion_before (not_dummy hlt) hsearch] at hrun
  -- the next region begins behind the free bytes
  have hnext (hi' : i + 1 < res.cnt) : b + size ≤ res.table.lo (i + 1) := by
    have h1 : res.table.hi i ≤ res.table.lo (i + 1) := hwf.sorted.apart i hi'
    have h2 : res.table.lo (i + 1) < res.table.hi (i + 1) := hlt (i + 1) hi'
    rcases hfree.apart hwf.ordered hend hi' with h | h <;> omega
  have hself (hne : ∀ hi' : i + 1 < res.cnt, res.table.lo (i + 1) ≠ add b n) :
      mergeNext i 1 (res.setRegion i ⟨(res.region i).base, add (res.region i).size n⟩) =
        some (1, res.setRegion i ⟨(res.region i).base, add (res.region i).size n⟩) := by
    have hcnt : (res.setRegion i ⟨(res.region i).base, add (res.region i).size n⟩).cnt = res.cnt :=
      rfl
    refine mergeNext_eq_self (fun hi' => ?_) (by rw [hcnt]; omega) (hcnt ▸ hwf.cnt_lt) 1
    have hw' : res.table.hi (i + 1) < 2 ^ 32 := hwf.noWrap (i + 1) hi'
    have hne' : (res.region (i + 1)).base ≠ add b n := hne hi'
    have hadd : add (res.region i).base (add (res.region i).size n) = add b n := by
      simp [hhi, LmbRegion.table, add, Nat.add_assoc]
    simp only [lmbRegionsAdjacent, lmbAddrsAdjacent, LmbRegion.setRegion, update_self,
      update_of_ne (show i + 1 ≠ i by omega), hadd]
    rw [if_neg hne', add_eq hw']
    refine if_neg fun h => ?_
    simp only [LmbRegion.table] at *
    omega
  rcases Nat.lt_or_eq_of_le hn with hlt32 | heq
  · refine ⟨hlt32, fun j hj => ?_⟩
    rcases hfree.apart hwf.ordered hend hj with h | h
    · exact .inl h
    refine .inr (Nat.le_of_not_lt fun hlo => ?_)
    have hij : i < j := by
      by_contra hji
      have := hwf.sorted.lo_le_lo (Nat.le_of_not_lt hji) hi
      omega
    have hi' : i + 1 < res.cnt := by omega
    have hle : res.table.lo (i + 1) ≤ res.table.lo j := hwf.sorted.lo_le_lo hij hj
    rw [hself fun _ => by rw [add_eq hlt32]; omega] at hrun
    cases hrun
    have hap := (htaken (by decide)).1.sorted.apart i hi'
    rw [table_setRegion] at hap
    simp only [IntervalTable.set, update_self,
      update_of_ne (show i + 1 ≠ i by omega)] at hap
    simp only [LmbRegion.table] at hap hhi hle hlo
    rw [add_eq (by omega)] at hap
    omega
  · -- the longer region ends with the address space, or is empty as a whole
    exfalso
    rw [hself fun hi' => by have := hnext hi'; simp only [add, heq, Nat.mod_self]; omega] at hrun
    cases hrun
    obtain ⟨hwf', hcov⟩ := htaken (by decide)
    have hw' := hwf'.noWrap i hi
    have hlt' : (res.setRegion i ⟨(res.region i).base, add (res.region i).size n⟩).table.lo i <
        (res.setRegion i ⟨(res.region i).base, add (res.region i).size n⟩).table.hi i := by
      refine hwf'.proper.resolve_left (fun hd => ?_) i hi
      have hmem := hcov (.inr (show b ∈ Set.Ico b (b + size) by simp [hsize]))
      rw [covered_dummy hd] at hmem
      exact hmem
    rw [table_setRegion] at hw' hlt'
    simp only [IntervalTable.set, update_self] at hw' hlt'
    simp only [LmbRegion.table] at hhi
    rcases Nat.eq_zero_or_pos (res.region i).base with h0 | hpos
    · have hz : add (res.region i).size n = 0 := by
        simp [add, show (res.region i).size + n = 2 ^ 32 by omega]
      omega
    · rw [add_eq (by omega)] at hw'
      omega

include hb0

theorem apart_of_after (hsearch : findNeighbour res b n res.cnt 0 = .after i) (hi : i < res.cnt)
    (hbase : (res.region i).base = add b n)
    (hrun : lmbAddRegion res b n = some (ret, res')) (htaken : 0 ≤ ret → Taken res res' b size) :
    b + n < 2 ^ 32 ∧ res.Apart b n := by
  have hlti : res.table.lo i < res.table.hi i := hlt i hi
  have hsub : sub (res.region i).base n = b := by
    rw [hbase]
    rcases Nat.lt_or_eq_of_le hn with hlt32 | heq
    · rw [add_eq hlt32, sub_eq (by omega) hlt32]
      omega
    · simp only [add, heq, Nat.mod_self, sub]
      omega
  rw [lmbAddRegion_after (not_dummy hlt) hsearch, hsub] at hrun
  obtain ⟨ret', res'', hmerge, hret, hcnt', hkeep, hbases⟩ :=
    @mergeNext_bases (res.setRegion i ⟨b, _⟩) i hi hwf.room 1
  cases hmerge.symm.trans hrun
  obtain ⟨hwf', hcov⟩ := htaken (by omega)
  have hloi : res'.table.lo i = b := by
    rw [hkeep i le_rfl, table_setRegion]
    simp [IntervalTable.set]
  rcases Nat.lt_or_eq_of_le hn with hlt32 | heq
  · rw [add_eq hlt32] at hbase
    refine ⟨hlt32, fun j hj => ?_⟩
    rcases hfree.apart hwf.ordered hend hj with h | h
    · exact .inl h
    refine .inr (Nat.le_of_not_lt fun hlo => ?_)
    -- the region lies between the range and its neighbour, and is out of order now
    have hji : j < i := by
      by_contra hij
      have hle' : (res.region i).base ≤ (res.region j).base :=
        hwf.sorted.lo_le_lo (Nat.le_of_not_lt hij) hj
      simp only [LmbRegion.table] at hlo
      omega
    have hloj : res'.table.lo j = res.table.lo j := by
      rw [hkeep j hji.le, table_setRegion]
      simp [IntervalTable.set, update_of_ne hji.ne]
    have h1 : res'.table.lo j ≤ res'.table.hi j := hwf'.sorted.lo_le_hi j (hji.trans hcnt')
    have h2 : res'.table.hi j ≤ res'.table.lo i := hwf'.sorted.hi_le_lo hji hcnt'
    omega
  · -- the range ends with the address space, and the region at zero is lost
    exfalso
    have hzero : res.table.lo i = 0 := by
      show (res.region i).base = 0
      simp [hbase, add, heq]
    have hmem : 0 ∈ res'.covered := hcov (.inl ⟨i, hi, hzero.le, hzero ▸ hlti⟩)
    obtain ⟨j, hj, hlo, -⟩ := hmem
    obtain ⟨m, hm, hjm⟩ := hbases j hj
    rw [table_setRegion] at hjm
    simp only [IntervalTable.set, update_apply] at hjm
    split at hjm
    · omega
    case isFalse hmi =>
      have hltm : res.table.lo m < res.table.hi m := hlt m hm
      refine hmi (hwf.sorted.unique hm hi (a := 0) ⟨?_, ?_⟩ ⟨?_, ?_⟩) <;> omega

end

theorem addRegion_taken_iff (hwf : res.WellFormed) (hb0 : b ≠ 0) (hsize : 0 < size)
    (hend : b + size < 2 ^ 32) (hfree : res.Free b size) (hle : size ≤ n) (hn : b + n ≤ 2 ^ 32) :
    (∃ ret res', lmbAddRegion res b n = some (ret, res') ∧ (0 ≤ ret → Taken res res' b size)) ↔
      Reservable res b size n := by
  rcases Nat.eq_zero_or_pos res.cnt with hcnt | hcnt
  · exact stale_taken_iff hcnt hsize hle
  by_cases hd : res.Dummy
  · exact dummy_taken_iff hd hsize hle
  have hlt := hwf.proper.resolve_left hd
  have hfound := findNeighbour_found res b n res.cnt 0 (by omega) (by simp)
  constructor
  · rintro ⟨ret, res', hrun, htaken⟩
    refine ⟨by omega, fun h => absurd h hd, fun _ _ => ?_⟩
    cases hsearch : findNeighbour res b n res.cnt 0 with
    | same =>
      obtain ⟨i, hi, he⟩ := hsearch ▸ hfound
      have := hfree.apart hwf.ordered hend hi
      simp only [LmbRegion.table, he] at this
      omega
    | after i =>
      obtain ⟨hi, hbase⟩ := hsearch ▸ hfound
      exact .inr (apart_of_after hwf hlt hb0 hsize hend hfree hn hsearch hi hbase hrun htaken)
    | before i =>
      obtain ⟨hi, hbase⟩ := hsearch ▸ hfound
      exact .inr (apart_of_before hwf hlt hsize hend hfree hn hsearch hi hbase hrun htaken)
    | none =>
      have hno : res.NoNeighbour b n := by rwa [hsearch] at hfound
      rw [lmbAddRegion_noNeighbour hd hcnt hwf.cnt_lt hno] at hrun
      split at hrun
      case isTrue hfull => exact .inl ⟨hfull, hno⟩
      case isFalse =>
        cases hrun
        exact .inr (apart_of_insert hwf hcnt (htaken le_rfl))
  · intro hr
    rcases hr.apart hcnt hd with ⟨hfull, hno⟩ | ⟨hend', hapart⟩
    · exact ⟨-1, res, (lmbAddRegion_noNeighbour hd hcnt hwf.cnt_lt hno).trans (if_pos hfull),
        fun h => absurd h (by decide)⟩
    · rcases addRegion_apart hwf hlt (by omega) hend' hapart hcnt with
        ⟨-, hrun⟩ | ⟨ret, res', hrun, -, hnew⟩
      · exact ⟨-1, res, hrun, fun h => absurd h (by decide)⟩
      · refine ⟨ret, res', hrun, fun _ => ⟨hnew.wellFormed, ?_⟩⟩
        rw [hnew.covered]
        exact Set.union_subset_union_right _ (Set.Ico_subset_Ico_right (by omega))

theorem lmbAddRegion_cases (hcnt : 0 < res.cnt) (hroom : res.cnt ≤ maxLmbRegions + 1) (b n : Nat) :
    (∃ ret res', lmbAddRegion res b n = some (ret, res') ∧ 0 ≤ ret) ∨
      maxLmbRegions ≤ res.cnt ∧ res.NoNeighbour b n ∧ lmbAddRegion res b n = some (-1, res) := by
  by_cases hd : res.Dummy
  · rw [lmbAddRegion, if_pos hd]
    exact .inl ⟨_, _, rfl, le_rfl⟩
  have hfound := findNeighbour_found res b n res.cnt 0 (by omega) (by simp)
  have hmerges {i : Nat} (p : Property) (hi : i < res.cnt) :
      ∃ ret res', mergeNext i 1 (res.setRegion i p) = some (ret, res') ∧ 0 ≤ ret := by
    obtain ⟨ret, res', hrun, hret, -⟩ := @mergeNext_bases (res.setRegion i p) i hi hroom 1
    exact ⟨ret, res', hrun, by omega⟩
  cases hsearch : findNeighbour res b n res.cnt 0 with
  | same =>
    rw [lmbAddRegion, if_neg hd, hsearch]
    exact .inl ⟨_, _, rfl, le_rfl⟩
  | after i =>
    rw [lmbAddRegion_after hd hsearch]
    exact .inl (hmerges _ (hsearch ▸ hfound).1)
  | before i =>
    rw [lmbAddRegion_before hd hsearch]
    exact .inl (hmerges _ (hsearch ▸ hfound).1)
  | none =>
    have hno : res.NoNeighbour b n := by rwa [hsearch] at hfound
    rw [lmbAddRegion_noNeighbour hd hcnt (hroom.trans_lt (by decide)) hno]
    split
    case isTrue hfull => exact .inr ⟨hfull, hno, rfl⟩
    case isFalse => exact .inl ⟨_, _, rfl, le_rfl⟩

theorem lmbAddRegion_neg_iff (hroom : res.cnt ≤ maxLmbRegions + 1) :
    (∃ ret res', lmbAddRegion res b n = some (ret, res') ∧ ret < 0) ↔
      maxLmbRegions ≤ res.cnt ∧ res.NoNeighbour b n := by
  constructor
  · rintro ⟨ret, res', hrun, hneg⟩
    rcases Nat.eq_zero_or_pos res.cnt with hcnt | hcnt
    · rw [lmbAddRegion_stale hcnt] at hrun
      split_ifs at hrun <;> cases hrun <;> omega
    obtain ⟨ret', res'', hrun', hret⟩ | ⟨hfull, hno, -⟩ := lmbAddRegion_cases hcnt hroom b n
    · cases hrun'.symm.trans hrun
      omega
    · exact ⟨hfull, hno⟩
  · rintro ⟨hfull, hno⟩
    have hcnt : 1 < res.cnt := lt_of_lt_of_le (by decide) hfull
    have hd : ¬ res.Dummy := fun hd => by have := hd.1; omega
    exact ⟨-1, res, (lmbAddRegion_noNeighbour hd (by omega) (hroom.trans_lt (by decide)) hno).trans (if_pos hfull),
      by decide⟩

/-! ## The allocation -/

variable {lmb : Lmb} {align maxAddr k : Nat}

structure Allocated (lmb lmb' : Lmb) (size align maxAddr base : Nat) : Prop where
  aligned : align ∣ base
  inside : ∃ i < lmb.memory.cnt,
    lmb.memory.table.lo i ≤ base ∧ base + size ≤ lmb.memory.table.hi i
  free : Disjoint (Set.Ico base (base + size)) lmb.reserved.covered
  below : maxAddr ≠ allocAnywhere → base + size ≤ maxAddr
  taken : Taken lmb.reserved lmb'.reserved base size

def AllocSafe (lmb : Lmb) (size align maxAddr : Nat) : Prop :=
  ∃ base lmb', lmbAllocBase lmb size align maxAddr = some (base, lmb') ∧
    (base ≠ 0 → Allocated lmb lmb' size align maxAddr base)

/-- The highest candidate can be reserved with its size rounded up. If the limit
is below the size, the address that is found instead cannot be reserved. -/
structure AllocCondition (lmb : Lmb) (size align maxAddr : Nat) : Prop where
  top : maxAddr = allocAnywhere ∨ size ≤ maxAddr →
    ∀ b, IsGreatest {b | Candidate lmb size align maxAddr lmb.memory.cnt b} b →
      Reservable lmb.reserved b size (lmbAlignUp size align)
  wrap : maxAddr ≠ allocAnywhere → maxAddr < size →
    ∀ b, IsGreatest {b | WrapCandidate lmb size align maxAddr lmb.memory.cnt b} b →
      maxLmbRegions ≤ lmb.reserved.cnt ∧ lmb.reserved.NoNeighbour b (lmbAlignUp size align)

theorem allocSafe_takeAt (hb0 : b ≠ 0)
    (hrun : lmbAllocBase lmb size align maxAddr = (takeAt lmb.reserved b n).map lmb.withReserved) :
    AllocSafe lmb size align maxAddr ↔
      ∃ ret res', lmbAddRegion lmb.reserved b n = some (ret, res') ∧
        (0 ≤ ret → Allocated lmb { lmb with reserved := res' } size align maxAddr b) := by
  unfold AllocSafe takeAt at *
  rw [hrun]
  cases lmbAddRegion lmb.reserved b n with
  | none => simp
  | some r =>
    simp only [Option.map_some, Option.some.injEq, Lmb.withReserved, Prod.mk.injEq]
    constructor
    · rintro ⟨_, _, ⟨rfl, rfl⟩, h⟩
      refine ⟨r.1, r.2, rfl, fun hret => ?_⟩
      rw [if_neg (by omega)] at h
      exact h hb0
    · rintro ⟨_, _, rfl, h⟩
      refine ⟨_, _, ⟨rfl, rfl⟩, fun hne => ?_⟩
      split_ifs at hne ⊢ with hret
      · exact absurd rfl hne
      · exact h (by omega)

theorem Candidate.allocated_iff (hmem : lmb.memory.WellFormed) (hres : lmb.reserved.WellFormed)
    (hc : Candidate lmb size align maxAddr lmb.memory.cnt b) (lmb' : Lmb) :
    Allocated lmb lmb' size align maxAddr b ↔ Taken lmb.reserved lmb'.reserved b size := by
  refine ⟨Allocated.taken, fun htaken => ?_⟩
  obtain ⟨i, hi, hlo, hhi, hmax⟩ := hc.within
  refine ⟨hc.aligned, ⟨i, hi, hlo, hhi⟩, ?_, hmax, htaken⟩
  rw [Set.disjoint_left]
  rintro a ⟨ha1, ha2⟩ ⟨j, hj, hj1, hj2⟩
  rcases hc.free.apart hres.ordered (hc.end_lt hmem.ordered le_rfl) hj with h | h <;> omega

/-- An allocation keeps its promise exactly under the condition. -/
theorem lmbAllocBase_safe_iff (hmem : lmb.memory.WellFormed) (hres : lmb.reserved.WellFormed)
    (hk : k < 32) (hsize : 0 < size) (hsize' : size < 2 ^ 32) :
    AllocSafe lmb size (2 ^ k) maxAddr ↔ AllocCondition lmb size (2 ^ k) maxAddr := by
  by_cases hmax : maxAddr = allocAnywhere ∨ size ≤ maxAddr
  · have hiff : AllocCondition lmb size (2 ^ k) maxAddr ↔
        ∀ b, IsGreatest {b | Candidate lmb size (2 ^ k) maxAddr lmb.memory.cnt b} b →
          Reservable lmb.reserved b size (lmbAlignUp size (2 ^ k)) :=
      ⟨fun h => h.top hmax, fun h => ⟨fun _ => h, by omega⟩⟩
    rw [hiff]
    rcases allocRegions_top hk hmem.ordered hres.ordered hsize hmax le_rfl with ⟨b, hb, hrun⟩ | ⟨hnone, hrun⟩
    · have hc : Candidate lmb size (2 ^ k) maxAddr lmb.memory.cnt b := hb.1
      have hend := hc.end_lt hmem.ordered le_rfl
      obtain ⟨hle, hn⟩ := lmbAlignUp_bounds hk hc.aligned hc.ne_zero hend
      rw [allocSafe_takeAt hc.ne_zero hrun]
      simp only [hc.allocated_iff hmem hres]
      rw [addRegion_taken_iff hres hc.ne_zero hsize hend hc.free hle hn]
      exact ⟨fun h b' hb' => hb'.unique hb ▸ h, fun h => h b hb⟩
    · exact ⟨fun _ b hb => absurd hb.1 (hnone b), fun _ => ⟨0, lmb, hrun, fun h => absurd rfl h⟩⟩
  · have hmax0 : maxAddr ≠ allocAnywhere := fun h => hmax (.inl h)
    have hlt : maxAddr < size := Nat.lt_of_not_le fun h => hmax (.inr h)
    have hiff : AllocCondition lmb size (2 ^ k) maxAddr ↔
        ∀ b, IsGreatest {b | WrapCandidate lmb size (2 ^ k) maxAddr lmb.memory.cnt b} b →
          maxLmbRegions ≤ lmb.reserved.cnt ∧
            lmb.reserved.NoNeighbour b (lmbAlignUp size (2 ^ k)) :=
      ⟨fun h => h.wrap hmax0 hlt, fun h => ⟨fun h' => absurd h' hmax, fun _ _ => h⟩⟩
    rw [hiff]
    rcases allocRegions_wrap hk hmem.ordered hres.ordered hsize' hmax0 hlt le_rfl with ⟨b, hb, hrun⟩ | ⟨hnone, hrun⟩
    · obtain ⟨i, -, -, -, hp⟩ := hb.1.place
      -- no range of the size ends at or below the limit
      have hnot (lmb' : Lmb) : ¬ Allocated lmb lmb' size (2 ^ k) maxAddr b := by
        intro h
        have := h.below hmax0
        omega
      rw [allocSafe_takeAt hp.ne_zero hrun]
      simp only [hnot, imp_false, not_le]
      rw [lmbAddRegion_neg_iff hres.room]
      exact ⟨fun h b' hb' => hb'.unique hb ▸ h, fun h => h b hb⟩
    · exact ⟨fun _ b hb => absurd hb.1 (hnone b), fun _ => ⟨0, lmb, hrun, fun h => absurd rfl h⟩⟩

def oneRegion (memory reserved : Property) : Lmb := ⟨⟨1, fun _ => memory⟩, ⟨1, fun _ => reserved⟩⟩

theorem oneRegion_wellFormed (p : Property) (hsize : 0 < p.size) (hw : p.base + p.size < 2 ^ 32) :
    LmbRegion.WellFormed ⟨1, fun _ => p⟩ :=
  wellFormed_single rfl rfl hsize hw

theorem lmbAllocBase_safe_iff_one :
    AllocSafe (oneRegion ⟨4096, 4096⟩ ⟨4096, 256⟩) 256 (2 ^ 8) allocAnywhere := by
  refine (lmbAllocBase_safe_iff (oneRegion_wellFormed _ (by decide) (by norm_num))
    (oneRegion_wellFormed _ (by decide) (by norm_num)) (by decide) (by decide) (by norm_num)).mpr
    ⟨fun _ b hb => ?_, fun h => absurd rfl h⟩
  have hup : lmbAlignUp 256 (2 ^ 8) = 256 := by decide
  have hc : Candidate (oneRegion ⟨4096, 4096⟩ ⟨4096, 256⟩) 256 (2 ^ 8) allocAnywhere 1 b := hb.1
  obtain ⟨i, -, hlo, hhi, -⟩ := hc.within
  have hhi : b + 256 ≤ 4096 + 4096 := hhi
  rw [hup]
  refine ⟨fun h => absurd h (by decide), fun _ => by omega, fun _ _ => .inr ⟨by omega, ?_⟩⟩
  exact fun j hj =>
    hc.free.apart (oneRegion_wellFormed _ (by decide) (by norm_num)).ordered (by omega) hj

/-- The 16 bytes at 7936 are free, and with them the 256 bytes up to 8192 are
reserved again, of which those from 7968 are taken. -/
theorem lmbAllocBase_overlaps_reserved :
    ¬ AllocSafe (oneRegion ⟨4096, 4096⟩ ⟨7968, 224⟩) 16 (2 ^ 8) allocAnywhere := by
  rintro ⟨base, lmb', hrun, h⟩
  have heval : (lmbAllocBase (oneRegion ⟨4096, 4096⟩ ⟨7968, 224⟩) 16 (2 ^ 8) allocAnywhere).map
      (fun r => (r.1, r.2.reserved.cnt, r.2.reserved.region 0, r.2.reserved.region 1)) =
      some (7936, 2, ⟨7936, 256⟩, ⟨7968, 224⟩) := by decide +kernel
  rw [hrun] at heval
  simp only [Option.map_some, Option.some.injEq, Prod.mk.injEq] at heval
  obtain ⟨rfl, hcnt, h0, h1⟩ := heval
  have hap : lmb'.reserved.table.hi 0 ≤ lmb'.reserved.table.lo 1 :=
    (h (by decide)).taken.1.sorted.apart 0 (by show 0 + 1 < lmb'.reserved.cnt; omega)
  simp only [LmbRegion.table, h0, h1] at hap
  omega

end UBoot.Memory
