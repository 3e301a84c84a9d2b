import UBoot.Mtd.Spread

/-!
# Where spreading is sound

The loop over the blocks stops when enough of them look good. On a flash of whole blocks
of which at most one is behind 4 GiB, those that a partition takes look as they are. On
every other flash that has a block there is a partition that goes wrong.
-/

namespace UBoot.Mtdparts.Spread

open Option
open List hiding length

/-! ## The loop over the blocks -/

variable {geo : Geometry} {bad : Nat → Bool} {n : Nat}

theorem erasesize_pos (geo : Geometry) : 0 < geo.erasesize := Nat.two_pow_pos _

theorem erasesize_le (geo : Geometry) : geo.erasesize ≤ 2 ^ 32 :=
  Nat.pow_le_pow_right (by decide) geo.shift_lt.le

theorem erasesize_lt (geo : Geometry) : geo.erasesize < 2 ^ 64 :=
  Nat.lt_of_le_of_lt (erasesize_le geo) (by decide)

theorem mul_erasesize_lt (hsize : geo.size = n * geo.erasesize) (hb : b ≤ n) :
    b * geo.erasesize < 2 ^ 64 :=
  Nat.lt_of_le_of_lt (Nat.mul_le_mul_right _ hb) (hsize ▸ geo.size_lt)

def Geometry.wrap (geo : Geometry) : Nat := 2 ^ (32 - geo.shift)

theorem wrap_mul (geo : Geometry) : geo.wrap * geo.erasesize = 2 ^ 32 := by
  rw [Geometry.wrap, Geometry.erasesize, ← Nat.pow_add, Nat.sub_add_cancel geo.shift_lt.le]

theorem two_le_wrap (geo : Geometry) : 2 ≤ geo.wrap := by
  have hlt := geo.shift_lt
  calc 2 = 2 ^ 1 := rfl
    _ ≤ 2 ^ (32 - geo.shift) := Nat.pow_le_pow_right (by decide) (by omega)

theorem masked_block (geo : Geometry) (a : Nat) :
    (a * geo.erasesize &&& (2 ^ 32 - geo.erasesize)) / geo.erasesize = a % geo.wrap := by
  have hmask : 2 ^ 32 - geo.erasesize = (geo.wrap - 1) * geo.erasesize := by
    rw [Nat.sub_mul, wrap_mul, Nat.one_mul]
  have hand : a * geo.erasesize &&& (geo.wrap - 1) * geo.erasesize =
      (a &&& (geo.wrap - 1)) * geo.erasesize := by
    simp [Geometry.erasesize, ← Nat.shiftLeft_eq, Nat.shiftLeft_and_distrib]
  rw [hmask, hand, Nat.mul_div_cancel _ (erasesize_pos geo), Geometry.wrap,
    Nat.and_two_pow_sub_one_eq_mod]

theorem lenLoop_step (hlen : lenExclBad < length)
    (ha : a * geo.erasesize < geo.size) :
    lenLoop geo bad length (fuel + 1) (a * geo.erasesize) lenExclBad lenInclBad =
      lenLoop geo bad length fuel ((a + 1) * geo.erasesize % 2 ^ 64)
        (if bad (a % geo.wrap) then lenExclBad else (lenExclBad + geo.erasesize) % 2 ^ 64)
        ((lenInclBad + geo.erasesize) % 2 ^ 64) := by
  have haligned : a * geo.erasesize &&& (geo.erasesize - 1) = 0 := by
    rw [Geometry.erasesize, Nat.and_two_pow_sub_one_eq_mod, Nat.mul_mod_left]
  rw [lenLoop, if_pos hlen, if_neg (Nat.not_le.mpr ha), haligned, masked_block, Nat.sub_zero,
    Nat.succ_mul]

def looksGood (geo : Geometry) (bad : Nat → Bool) (a m : Nat) : Nat :=
  Nat.count (fun b => bad ((a + b) % geo.wrap) = false) m

theorem looksGood_succ (geo : Geometry) (bad : Nat → Bool) (a m : Nat) :
    looksGood geo bad a (m + 1) =
      (if bad (a % geo.wrap) then 0 else 1) + looksGood geo bad (a + 1) m := by
  have hshift : (fun b => bad ((a + (1 + b)) % geo.wrap) = false) =
      fun b => bad ((a + 1 + b) % geo.wrap) = false := by
    funext b
    rw [Nat.add_assoc]
  rw [looksGood, Nat.add_comm m 1, Nat.count_add, looksGood]
  simp only [hshift, Nat.count_succ, Nat.count_zero, Nat.add_zero, Nat.zero_add]
  cases bad (a % geo.wrap) <;> rfl

theorem lenLoop_spec (hsize : geo.size = n * geo.erasesize) {k : Nat}
    (hk : k * geo.erasesize < 2 ^ 64) {fuel a j i : Nat} (ha : a ≤ n) (hj : j ≤ k) (hi : i ≤ a)
    (hfuel : n - a < fuel) :
    ∃ m truncated,
      lenLoop geo bad (k * geo.erasesize) fuel (a * geo.erasesize) (j * geo.erasesize)
        (i * geo.erasesize) = some ((i + m) * geo.erasesize, truncated) ∧
      a + m ≤ n ∧ (truncated = false → j + looksGood geo bad a m = k) := by
  have hpos := erasesize_pos geo
  induction fuel generalizing a j i with
  | zero => omega
  | succ fuel ih =>
    obtain rfl | hjk := Nat.eq_or_lt_of_le hj
    · refine ⟨0, false, ?_, ha, fun _ => rfl⟩
      rw [lenLoop, if_neg (Nat.lt_irrefl _)]
      rfl
    · have hlt : j * geo.erasesize < k * geo.erasesize := Nat.mul_lt_mul_of_pos_right hjk hpos
      obtain rfl | han := Nat.eq_or_lt_of_le ha
      · refine ⟨0, true, ?_, Nat.le_refl _, fun h => nomatch h⟩
        rw [lenLoop, if_pos hlt, if_pos (Nat.le_of_eq hsize)]
        rfl
      · have hin : a * geo.erasesize < geo.size := by
          rw [hsize]
          exact Nat.mul_lt_mul_of_pos_right han hpos
        have hjfits : (j + 1) * geo.erasesize < 2 ^ 64 :=
          Nat.lt_of_le_of_lt (Nat.mul_le_mul_right _ hjk) hk
        have hexcl : (if bad (a % geo.wrap) then j * geo.erasesize
            else (j * geo.erasesize + geo.erasesize) % 2 ^ 64) =
            (j + if bad (a % geo.wrap) then 0 else 1) * geo.erasesize := by
          rw [← Nat.succ_mul, Nat.mod_eq_of_lt hjfits]
          cases bad (a % geo.wrap) <;> rfl
        rw [lenLoop_step hlt hin, hexcl, ← Nat.succ_mul i,
          Nat.mod_eq_of_lt (mul_erasesize_lt hsize han),
          Nat.mod_eq_of_lt (mul_erasesize_lt hsize (by omega : i + 1 ≤ n))]
        obtain ⟨m, truncated, hloop, hend, hgood⟩ :=
          @ih (a + 1) (j + if bad (a % geo.wrap) then 0 else 1) (i + 1) han (by split <;> omega)
            (by omega) (by omega)
        refine ⟨m + 1, truncated, ?_, by omega, fun h => ?_⟩
        · rw [hloop, Nat.add_assoc i 1 m, Nat.add_comm 1 m]
        · rw [looksGood_succ, ← Nat.add_assoc]
          exact hgood h

/-! ## One partition -/

theorem count_le_count [DecidablePred p] [DecidablePred q] (h : ∀ i < m, p i → q i) :
    Nat.count p m ≤ Nat.count q m := by
  rw [Nat.count_eq_card_filter_range, Nat.count_eq_card_filter_range]
  apply Finset.card_le_card
  intro i hi
  obtain ⟨hlt, hp⟩ := Finset.mem_filter.mp hi
  exact Finset.mem_filter.mpr ⟨hlt, h i (Finset.mem_range.mp hlt) hp⟩

theorem goodBytes_ge {blocks : Option (Nat → Bool)} {part : PartInfo} {a m : Nat}
    {good : Nat → Prop} [DecidablePred good] (hoffset : part.offset.toNat = a * geo.erasesize)
    (hend : endOf part = (a + m) * geo.erasesize)
    (hgood : ∀ i < m, good i → (blocks.getD fun _ => false) (a + i) = false) :
    Nat.count good m * geo.erasesize ≤ goodBytes ⟨geo, blocks⟩ part := by
  apply Nat.mul_le_mul_right
  rw [hend, Nat.mul_div_cancel _ (erasesize_pos _), Nat.count_add]
  refine Nat.le_trans (count_le_count fun i hi h => ?_) (Nat.le_add_left _ _)
  exact ⟨hoffset ▸ Nat.mul_le_mul_right _ (Nat.le_add_right a i), hgood i hi h⟩

theorem mtdGetLenInclBad_spec (hsize : geo.size = n * geo.erasesize)
    (hk : k * geo.erasesize < 2 ^ 64) (ha : a ≤ n) : ∃ m truncated,
      mtdGetLenInclBad ⟨geo, some bad⟩ (a * geo.erasesize) (k * geo.erasesize) =
        some (m * geo.erasesize, truncated) ∧
      a + m ≤ n ∧ (truncated = false → looksGood geo bad a m = k) := by
  have hn : n < 2 ^ 64 := Nat.lt_of_le_of_lt
    (hsize ▸ Nat.le_mul_of_pos_right n (erasesize_pos geo)) geo.size_lt
  have hfuel : n - a < 2 ^ 64 * (k * geo.erasesize + 2) := by omega
  obtain ⟨m, truncated, hloop, hend, hgood⟩ :=
    @lenLoop_spec _ bad _ hsize _ hk _ _ _ _ ha (Nat.zero_le k) (Nat.zero_le a) hfuel
  rw [Nat.zero_mul, Nat.zero_add] at hloop
  simp only [Nat.zero_add] at hgood
  exact ⟨m, truncated, hloop, hend, hgood⟩

theorem looksGood_pos (h : looksGood geo bad a m = 1) : 0 < m := by
  rcases Nat.eq_zero_or_pos m with rfl | hm
  · exact absurd h (by simp [looksGood])
  · exact hm

variable {part : PartInfo}

theorem spreadPartition_eq {mtd : Mtd} {netSize : Nat} {padding : Nat × Bool}
    (hnet : mtdGetLenInclBad mtd part.offset.toNat part.size.toNat = some (netSize, false))
    (hpad : paddingSize mtd ((part.offset.toNat + netSize) % 2 ^ 64) = some padding) :
    spreadPartition mtd part =
      some ({ part with size := UInt64.ofNat (netSize + padding.1) }, padding.2) := by
  rw [spreadPartition, hnet]
  simp only [bind_eq_bind, bind_some, Bool.false_eq_true, if_false, hpad]
  rfl

theorem paddingSize_eq {mtd : Mtd} {offset padding : Nat}
    (h : mtdGetLenInclBad mtd offset mtd.geometry.erasesize = some (padding, truncated)) :
    paddingSize mtd offset =
      some (if truncated then (0, true) else (padding - mtd.geometry.erasesize, false)) := by
  rw [paddingSize, h]
  rfl

theorem spreadPartition_spec (hsize : geo.size = n * geo.erasesize)
    (hoffset : part.offset.toNat = a * geo.erasesize)
    (hk : part.size.toNat = k * geo.erasesize) (ha : a ≤ n) : ∃ m truncated,
      spreadPartition ⟨geo, some bad⟩ part =
        some ({ part with size := UInt64.ofNat (m * geo.erasesize) }, truncated) ∧
      a + m ≤ n ∧ (truncated = false → a + m < n ∧ k ≤ looksGood geo bad a m) := by
  have hone : 1 * geo.erasesize < 2 ^ 64 := (Nat.one_mul _).trans_lt (erasesize_lt geo)
  obtain ⟨m, truncated, hnet, hend, hgood⟩ :=
    @mtdGetLenInclBad_spec _ bad _ _ _ hsize (hk ▸ part.size.toNat_lt) ha
  rw [← hoffset, ← hk] at hnet
  cases truncated with
  | true =>
    refine ⟨m, true, ?_, hend, fun h => nomatch h⟩
    rw [spreadPartition, hnet]
    rfl
  | false =>
    obtain ⟨m', truncated', hpad, hend', hgood'⟩ :=
      @mtdGetLenInclBad_spec _ bad _ _ _ hsize hone hend
    rw [Nat.one_mul] at hpad
    have hnext : (part.offset.toNat + m * geo.erasesize) % 2 ^ 64 = (a + m) * geo.erasesize := by
      rw [hoffset, ← Nat.add_mul, Nat.mod_eq_of_lt (mul_erasesize_lt hsize hend)]
    have hstep := spreadPartition_eq hnet (hnext ▸ paddingSize_eq hpad)
    cases truncated' with
    | true =>
      exact ⟨m, true, hstep, hend, fun h => nomatch h⟩
    | false =>
      have hpos := looksGood_pos (hgood' rfl)
      refine ⟨m + (m' - 1), false, ?_, by omega, fun _ => ⟨by omega, ?_⟩⟩
      · rw [hstep, Nat.add_mul, Nat.sub_mul, Nat.one_mul]
        rfl
      · rw [← hgood rfl]
        exact Nat.count_monotone _ (Nat.le_add_right m _)

/-! ## The partitions of a device -/

variable {mtd : Mtd}

structure SoundPart (mtd : Mtd) (curOffs : Nat) (p : PartInfo) (q : PartInfo × Bool) : Prop where
  same : SameBut p q.1
  behind : curOffs ≤ q.1.offset.toNat
  inside : endOf q.1 ≤ mtd.geometry.size
  good : q.2 = false → p.size.toNat ≤ goodBytes mtd q.1

theorem spreadParts_sound_of {Inv : Nat → List PartInfo → Prop}
    (hstep : ∀ (curOffs : UInt64) p rest, Inv curOffs.toNat (p :: rest) →
      ∃ q, spreadPartition mtd (movedTo curOffs p) = some q ∧ SoundPart mtd curOffs.toNat p q ∧
        Inv (endOf q.1) rest) {curOffs : UInt64} {parts : List PartInfo}
    (h : Inv curOffs.toNat parts) :
    ∃ spread, spreadParts mtd curOffs parts = some spread ∧ Sound mtd parts spread ∧
      ∀ q ∈ spread, curOffs.toNat ≤ q.1.offset.toNat := by
  induction parts generalizing curOffs with
  | nil => exact ⟨[], rfl, ⟨.nil, .nil, by simp, .nil⟩, by simp⟩
  | cons p parts ih =>
    obtain ⟨q, hq, hsound, hrest⟩ := hstep curOffs p parts h
    have hnext : (q.1.offset + q.1.size).toNat = endOf q.1 := by
      rw [UInt64.toNat_add]
      exact Nat.mod_eq_of_lt (Nat.lt_of_le_of_lt hsound.inside mtd.geometry.size_lt)
    obtain ⟨spread, hspread, hs, hbehind⟩ := @ih (q.1.offset + q.1.size) (hnext.symm ▸ hrest)
    rw [hnext] at hbehind
    refine ⟨q :: spread, ?_, ⟨?_, ?_, ?_, ?_⟩, ?_⟩
    · rw [spreadParts, hq]
      simp only [bind_eq_bind, bind_some, hspread]
      rfl
    · exact .cons hsound.same hs.same
    · exact .cons hbehind hs.disjoint
    · exact forall_mem_cons.mpr ⟨hsound.inside, hs.inside⟩
    · exact .cons hsound.good hs.good
    · refine forall_mem_cons.mpr ⟨hsound.behind, fun q' hq' => ?_⟩
      exact Nat.le_trans (Nat.le_trans hsound.behind (Nat.le_add_right _ _)) (hbehind q' hq')

theorem movedTo_offset (curOffs : UInt64) (p : PartInfo) :
    (movedTo curOffs p).offset.toNat = max curOffs.toNat p.offset.toNat ∧
      (movedTo curOffs p).size = p.size ∧ SameBut p (movedTo curOffs p) := by
  unfold movedTo
  split
  · rename_i h
    rw [UInt64.lt_iff_toNat_lt] at h
    exact ⟨(Nat.max_eq_left h.le).symm, rfl, rfl⟩
  · rename_i h
    rw [UInt64.lt_iff_toNat_lt, Nat.not_lt] at h
    exact ⟨(Nat.max_eq_right h).symm, rfl, rfl⟩

theorem spreadPartition_sound (hsize : geo.size = n * geo.erasesize) (hwrap : n ≤ geo.wrap + 1)
    (hc : c ≤ n) (hcur : curOffs.toNat = c * geo.erasesize) (hinside : endOf p ≤ geo.size)
    (haligned : geo.erasesize ∣ p.offset.toNat ∧ geo.erasesize ∣ p.size.toNat) :
    ∃ q, spreadPartition ⟨geo, some bad⟩ (movedTo curOffs p) = some q ∧
      SoundPart ⟨geo, some bad⟩ curOffs.toNat p q ∧ ∃ c ≤ n, endOf q.1 = c * geo.erasesize := by
  obtain ⟨hmoved, hmsize, hsame⟩ := movedTo_offset curOffs p
  obtain ⟨⟨a, ha⟩, ⟨k, hk⟩⟩ := haligned
  rw [Nat.mul_comm] at ha hk
  have han : a ≤ n := by
    apply Nat.le_of_mul_le_mul_right _ (erasesize_pos geo)
    rw [← ha, ← hsize]
    exact Nat.le_trans (Nat.le_add_right _ _) hinside
  rw [hcur, ha, Nat.mul_max_mul_right] at hmoved
  obtain ⟨m, truncated, hstep, hend, hgood⟩ :=
    @spreadPartition_spec _ bad _ _ _ _ hsize hmoved (hmsize ▸ hk) (Nat.max_le.mpr ⟨hc, han⟩)
  have hm : (UInt64.ofNat (m * geo.erasesize)).toNat = m * geo.erasesize :=
    UInt64.toNat_ofNat_of_lt' (mul_erasesize_lt hsize (by omega))
  have hendOf : endOf { movedTo curOffs p with size := UInt64.ofNat (m * geo.erasesize) } =
      (max c a + m) * geo.erasesize := by
    rw [endOf, hm, hmoved, Nat.add_mul]
  refine ⟨_, hstep, ⟨?_, ?_, ?_, fun htruncated => ?_⟩, _, hend, hendOf⟩
  · rw [SameBut] at hsame ⊢
    dsimp only
    rw [hsame]
  · dsimp only
    rw [hmoved, hcur]
    exact Nat.mul_le_mul_right _ (Nat.le_max_left c a)
  · rw [hendOf, hsize]
    exact Nat.mul_le_mul_right _ hend
  · -- the last block of the flash is not in a partition that is not truncated
    obtain ⟨hlt, hk'⟩ := hgood htruncated
    refine Nat.le_trans (hk ▸ Nat.mul_le_mul_right _ hk') (goodBytes_ge hmoved hendOf ?_)
    intro i hi h
    rwa [Nat.mod_eq_of_lt (by omega)] at h

section OneBlock

variable {a : Nat}

theorem mtdGetLenInclBad_one (geo : Geometry) (bad : Nat → Bool) (offset : Nat) :
    ∃ fuel, mtdGetLenInclBad ⟨geo, some bad⟩ offset geo.erasesize =
      lenLoop geo bad geo.erasesize (fuel + 3) offset 0 0 := by
  obtain ⟨fuel, hfuel⟩ : ∃ fuel, 2 ^ 64 * (geo.erasesize + 2) = fuel + 3 :=
    ⟨2 ^ 64 * (geo.erasesize + 2) - 3, by omega⟩
  exact ⟨fuel, by rw [← hfuel]; rfl⟩

theorem one_behind (h : geo.size ≤ offset) :
    paddingSize ⟨geo, some bad⟩ offset = some (0, true) := by
  obtain ⟨fuel, hloop⟩ := mtdGetLenInclBad_one geo bad offset
  rw [lenLoop, if_pos (erasesize_pos _), if_pos h] at hloop
  exact paddingSize_eq hloop

theorem one_good (ha : a * geo.erasesize < geo.size) (hgood : bad (a % geo.wrap) = false) :
    mtdGetLenInclBad ⟨geo, some bad⟩ (a * geo.erasesize) geo.erasesize =
      some (geo.erasesize, false) := by
  obtain ⟨fuel, hloop⟩ := mtdGetLenInclBad_one geo bad (a * geo.erasesize)
  rw [hloop, lenLoop_step (erasesize_pos _) ha, hgood, if_neg Bool.false_ne_true, Nat.zero_add,
    Nat.mod_eq_of_lt (erasesize_lt _), lenLoop, if_neg (Nat.lt_irrefl _)]

theorem paddingSize_good (ha : a * geo.erasesize < geo.size)
    (hgood : bad (a % geo.wrap) = false) :
    paddingSize ⟨geo, some bad⟩ (a * geo.erasesize) = some (0, false) := by
  rw [paddingSize_eq (one_good ha hgood), if_neg Bool.false_ne_true, Nat.sub_self]

theorem one_bad (ha : a * geo.erasesize < geo.size) (hfirst : bad (a % geo.wrap) = true)
    (hnext : (a + 1) * geo.erasesize < 2 ^ 64) :
    (geo.size ≤ (a + 1) * geo.erasesize →
      mtdGetLenInclBad ⟨geo, some bad⟩ (a * geo.erasesize) geo.erasesize =
        some (geo.erasesize, true)) ∧
    ((a + 1) * geo.erasesize < geo.size → bad ((a + 1) % geo.wrap) = false →
      mtdGetLenInclBad ⟨geo, some bad⟩ (a * geo.erasesize) geo.erasesize =
        some (2 * geo.erasesize, false)) := by
  have hpos := erasesize_pos geo
  obtain ⟨fuel, hloop⟩ := mtdGetLenInclBad_one geo bad (a * geo.erasesize)
  rw [hloop, lenLoop_step hpos ha, hfirst, if_pos rfl, Nat.zero_add,
    Nat.mod_eq_of_lt (erasesize_lt _), Nat.mod_eq_of_lt hnext]
  refine ⟨fun hend => ?_, fun hin hgood => ?_⟩
  · rw [lenLoop, if_pos hpos, if_pos hend]
  · have hle := erasesize_le geo
    rw [lenLoop_step hpos hin, hgood, if_neg Bool.false_ne_true, Nat.zero_add,
      Nat.mod_eq_of_lt (erasesize_lt _), lenLoop, if_neg (Nat.lt_irrefl _), ← Nat.two_mul,
      Nat.mod_eq_of_lt (by omega)]

end OneBlock

theorem movedTo_zero (p : PartInfo) : movedTo 0 p = p :=
  if_neg (UInt64.not_lt.mpr UInt64.zero_le)

theorem spreadPartition_none (hcur : curOffs.toNat ≤ p.offset.toNat) (hinside : endOf p ≤ geo.size)
    (haligned : geo.erasesize ∣ p.offset.toNat ∧ geo.erasesize ∣ p.size.toNat) :
    spreadPartition ⟨geo, none⟩ (movedTo curOffs p) = some (p, false) ∧
      SoundPart ⟨geo, none⟩ curOffs.toNat p (p, false) := by
  have hlen (offset length : Nat) :
      mtdGetLenInclBad ⟨geo, none⟩ offset length = some (length, false) := rfl
  have hmoved : movedTo curOffs p = p :=
    if_neg (UInt64.not_lt.mpr (UInt64.le_iff_toNat_le.mpr hcur))
  refine ⟨?_, ⟨rfl, hcur, hinside, fun _ => ?_⟩⟩
  · rw [hmoved, spreadPartition_eq (hlen _ _) (paddingSize_eq (hlen _ _))]
    simp
  · obtain ⟨⟨a, ha⟩, ⟨k, hk⟩⟩ := haligned
    rw [Nat.mul_comm] at ha hk
    have hend : endOf p = (a + k) * geo.erasesize := by rw [endOf, ha, hk, Nat.add_mul]
    have hge := @goodBytes_ge geo none p a k (fun _ => True) _ ha hend (fun i _ _ => rfl)
    rwa [Nat.count_true, ← hk] at hge

theorem spreadPartition_small (hsmall : geo.size < geo.erasesize) (hoffset : p.offset = 0)
    (hsize : p.size = 0) : ∃ truncated,
      spreadPartition ⟨geo, some bad⟩ (movedTo 0 p) = some (p, truncated) ∧
        SoundPart ⟨geo, some bad⟩ 0 p (p, truncated) := by
  have hzero : (0 : UInt64).toNat = 0 := rfl
  have hendOf : endOf p = 0 := by rw [endOf, hoffset, hsize, hzero]
  have hnet : mtdGetLenInclBad ⟨geo, some bad⟩ p.offset.toNat p.size.toNat = some (0, false) := by
    rw [hoffset, hsize]
    rfl
  obtain ⟨truncated, hpad⟩ : ∃ truncated,
      paddingSize ⟨geo, some bad⟩ ((p.offset.toNat + 0) % 2 ^ 64) = some (0, truncated) := by
    have hat : (p.offset.toNat + 0) % 2 ^ 64 = 0 * geo.erasesize := by
      rw [hoffset, hzero, Nat.zero_mul, Nat.add_zero, Nat.zero_mod]
    rw [hat]
    obtain hnil | hsome := Nat.eq_zero_or_pos geo.size
    · exact ⟨true, one_behind (by rw [hnil]; exact Nat.zero_le _)⟩
    · have hstart : 0 * geo.erasesize < geo.size := by rwa [Nat.zero_mul]
      cases hfirst : bad (0 % geo.wrap) with
      | false => exact ⟨false, paddingSize_good hstart hfirst⟩
      | true =>
        have hone : (0 + 1) * geo.erasesize = geo.erasesize := Nat.one_mul _
        have hend := (one_bad hstart hfirst (hone.symm ▸ erasesize_lt _)).1
          (hone.symm ▸ hsmall.le)
        exact ⟨true, paddingSize_eq hend⟩
  refine ⟨truncated, ?_, ⟨rfl, Nat.zero_le _, by rw [hendOf]; exact Nat.zero_le _, fun _ => ?_⟩⟩
  · rw [movedTo_zero, spreadPartition_eq hnet hpad]
    have hofNat : UInt64.ofNat (0 + 0) = p.size := hsize.symm
    dsimp only
    rw [hofNat]
  · rw [hsize, hzero]
    exact Nat.zero_le _

theorem spreadParts_sound {blocks : Option (Nat → Bool)} (hfits : geo.Fits)
    {parts : List PartInfo} (hparts : WellPlaced geo parts) :
    ∃ spread, spreadParts ⟨geo, blocks⟩ 0 parts = some spread ∧
      Sound ⟨geo, blocks⟩ parts spread := by
  suffices h : ∃ spread, spreadParts ⟨geo, blocks⟩ 0 parts = some spread ∧
      Sound ⟨geo, blocks⟩ parts spread ∧ ∀ q ∈ spread, (0 : UInt64).toNat ≤ q.1.offset.toNat by
    obtain ⟨spread, hspread, hsound, -⟩ := h
    exact ⟨spread, hspread, hsound⟩
  cases blocks with
  | none =>
    refine @spreadParts_sound_of ⟨geo, none⟩
      (fun cur parts => WellPlaced geo parts ∧ ∀ p ∈ parts, cur ≤ p.offset.toNat)
      (fun cur p rest ⟨hplaced, hcur⟩ => ?_) 0 parts ⟨hparts, fun p _ => Nat.zero_le _⟩
    obtain ⟨hp, hrest⟩ := pairwise_cons.mp hplaced.ordered
    obtain ⟨hinside, hinside'⟩ := forall_mem_cons.mp hplaced.inside
    obtain ⟨haligned, haligned'⟩ := forall_mem_cons.mp hplaced.aligned
    obtain ⟨hstep, hsound⟩ := spreadPartition_none (hcur p mem_cons_self) hinside haligned
    exact ⟨_, hstep, hsound, ⟨hrest, hinside', haligned'⟩, hp⟩
  | some bad =>
    rcases hfits with hsmall | ⟨⟨n, hsize⟩, hwrap⟩
    · have hempty (p : PartInfo) (hp : p ∈ parts) : p.offset = 0 ∧ p.size = 0 := by
        have hinside := hparts.inside p hp
        obtain ⟨hoffset, hsize⟩ := hparts.aligned p hp
        unfold endOf at hinside
        exact ⟨UInt64.toNat.inj (Nat.eq_zero_of_dvd_of_lt hoffset (by omega)),
          UInt64.toNat.inj (Nat.eq_zero_of_dvd_of_lt hsize (by omega))⟩
      refine @spreadParts_sound_of ⟨geo, some bad⟩
        (fun cur parts => cur = 0 ∧ ∀ p ∈ parts, p.offset = 0 ∧ p.size = 0)
        (fun cur p rest ⟨hcur, hall⟩ => ?_) 0 parts ⟨rfl, hempty⟩
      obtain ⟨⟨hoffset, hsize⟩, hrest⟩ := forall_mem_cons.mp hall
      obtain ⟨truncated, hstep, hsound⟩ := spreadPartition_small hsmall hoffset hsize
      obtain rfl : cur = 0 := UInt64.toNat.inj hcur
      refine ⟨_, hstep, hsound, ?_, hrest⟩
      rw [endOf, hoffset, hsize]
      rfl
    · rw [Nat.mul_comm] at hsize
      have hn : n ≤ geo.wrap + 1 := by
        apply Nat.le_of_mul_le_mul_right _ (erasesize_pos geo)
        rw [← hsize, Nat.succ_mul, wrap_mul]
        exact hwrap
      refine @spreadParts_sound_of ⟨geo, some bad⟩
        (fun cur parts => (∃ c ≤ n, cur = c * geo.erasesize) ∧
          ∀ p ∈ parts, endOf p ≤ geo.size ∧
            geo.erasesize ∣ p.offset.toNat ∧ geo.erasesize ∣ p.size.toNat)
        (fun cur p rest ⟨⟨c, hc, hcur⟩, hall⟩ => ?_) 0 parts
        ⟨⟨0, Nat.zero_le _, (Nat.zero_mul _).symm⟩,
          fun p hp => ⟨hparts.inside p hp, hparts.aligned p hp⟩⟩
      obtain ⟨⟨hinside, haligned⟩, hrest⟩ := forall_mem_cons.mp hall
      obtain ⟨q, hstep, hsound, hnext⟩ := spreadPartition_sound hsize hn hc hcur hinside haligned
      exact ⟨q, hstep, hsound, hnext, hrest⟩

/-! ## Boards -/

variable {geometry : DevType → UInt8 → Option Geometry}
  {blocks : DevType → UInt8 → Option (Nat → Bool)}

theorem spreadDevices_sound (hfits : ∀ type num geo, geometry type num = some geo → geo.Fits)
    (hplaced : ∀ dev ∈ devices, ∀ geo, geometry dev.id.type dev.id.num = some geo →
      WellPlaced geo dev.parts) (h : spreadDevices (chips geometry blocks) devices = some (0, done))
    :
    done.map Prod.fst = devices ∧
      ∀ d ∈ done, ∃ mtd, chips geometry blocks d.1.id.type d.1.id.num = some mtd ∧
        Sound mtd d.1.parts d.2 := by
  induction devices generalizing done with
  | nil =>
    cases h
    exact ⟨rfl, by simp⟩
  | cons dev devices ih =>
    obtain ⟨hdev, hrest⟩ := forall_mem_cons.mp hplaced
    rw [spreadDevices] at h
    cases hchip : chips geometry blocks dev.id.type dev.id.num with
    | none =>
      rw [hchip] at h
      cases h
    | some mtd =>
      obtain ⟨geo, hgeo, rfl⟩ := map_eq_some_iff.mp hchip
      obtain ⟨spread, hspread, hsound⟩ :=
        @spreadParts_sound _ (blocks dev.id.type dev.id.num) (hfits _ _ _ hgeo) _ (hdev geo hgeo)
      rw [hchip] at h
      simp only [hspread, bind_eq_bind, bind_some, bind_eq_some_iff] at h
      obtain ⟨⟨ret, done'⟩, hdone', heq⟩ := h
      cases heq
      obtain ⟨hmap, hall⟩ := ih hrest hdone'
      refine ⟨congrArg (dev :: ·) hmap, forall_mem_cons.mpr ⟨⟨_, hchip, hsound⟩, hall⟩⟩

/-! ## Larger flashes -/

def single (type : DevType) (num : UInt8) (part : PartInfo) : MtdDevice :=
  ⟨⟨type, num, 0, []⟩, [part]⟩

def partOf (offset size : Nat) : PartInfo :=
  ⟨[], false, UInt64.ofNat size, UInt64.ofNat offset, 0, 0⟩

theorem memsizeFormat_length_le (size : UInt64) : (memsizeFormat size).length ≤ 21 := by
  have hdecimal (n : UInt64) : (Text.decimal n.toNat).length ≤ 20 := by
    have hlt := n.toNat_lt
    rw [Text.decimal, length_map]
    exact (Nat.length_toDigits_le_iff (by decide) (by decide)).mpr (by omega)
  have hunit (n : UInt64) (c : UInt8) : (Text.decimal n.toNat ++ [c]).length ≤ 21 := by
    rw [length_append]
    exact Nat.succ_le_succ (hdecimal n)
  unfold memsizeFormat
  split
  · exact hunit _ _
  · split
    · exact hunit _ _
    · split
      · exact hunit _ _
      · exact Nat.le_succ_of_le (hdecimal _)

theorem pieceIf_length_le (c : Bool) (s : List UInt8) :
    (pieceIf c s).flatten.length ≤ s.length := by
  cases c <;> simp [pieceIf]

theorem generateMtdpartsInto_single (type : DevType) (num : UInt8)
    (hname : part.name = []) :
    (generateMtdpartsInto mtdpartsMaxlen [single type num part]).1 = 0 := by
  apply generateMtdpartsInto_of_length_le
  have hsize := memsizeFormat_length_le part.size
  have hoffset := memsizeFormat_length_le part.offset
  have hgap := pieceIf_length_le (hasGap none part) ('@'.toUInt8 :: memsizeFormat part.offset)
  have hnameText := pieceIf_length_le (!part.autoName) ['('.toUInt8, ')'.toUInt8]
  have hro := pieceIf_length_le (part.maskFlags != 0) ['r'.toUInt8, 'o'.toUInt8]
  have hcomma := pieceIf_length_le (decide (0 + 1 < (UInt16.ofNat (0 + 1)).toNat)) [','.toUInt8]
  have hsemi := pieceIf_length_le (decide (([] : List MtdDevice) ≠ [])) [';'.toUInt8]
  have hmax : (mtdpartsMaxlen - 1).toNat = 511 := rfl
  simp only [pieces, single, partsPieces, partPieces, MtdDevice.numParts, hname, hmax,
    flatten_append, length_append, flatten_cons, flatten_nil, length_nil,
    length_cons, nil_append] at hgap hnameText hro hcomma hsemi ⊢
  omega

variable {type : DevType}

theorem chips_eq (hgeo : geometry type num = some geo) (bad : Nat → Bool) :
    chips geometry (fun _ _ => some bad) type num = some ⟨geo, some bad⟩ := by
  rw [chips, hgeo]
  rfl

theorem spreadPartitions_single (hgeo : geometry type num = some geo) (hname : q.1.name = [])
    (hq : spreadPartition ⟨geo, some bad⟩ part = some q) :
    spreadPartitions (chips geometry fun _ _ => some bad) [single type num part] =
      some (0, [(single type num part, [q])]) := by
  have hparts : spreadParts ⟨geo, some bad⟩ 0 [part] = some [q] := by
    rw [spreadParts, movedTo_zero, hq]
    rfl
  have hdevices : spreadDevices (chips geometry fun _ _ => some bad) [single type num part] =
      some (0, [(single type num part, [q])]) := by
    rw [spreadDevices, single, chips_eq hgeo]
    simp only [hparts, bind_eq_bind, bind_some]
    rfl
  have hret := generateMtdpartsInto_single type num hname
  rw [spreadPartitions, hdevices]
  simp only [bind_eq_bind, bind_some, ne_eq, not_true_eq_false, if_false]
  exact congrArg (fun ret => some (ret, _)) hret

theorem not_soundOn (hgeo : geometry type num = some geo)
    (hplaced : WellPlaced geo [part]) (hname : q.1.name = [])
    (hq : spreadPartition ⟨geo, some bad⟩ part = some q)
    (hunsound : ¬Sound ⟨geo, some bad⟩ [part] [q]) : ¬SoundOn geometry := by
  intro h
  have hsingle (dev : MtdDevice) (hdev : dev ∈ [single type num part]) (geo' : Geometry)
      (hgeo' : geometry dev.id.type dev.id.num = some geo') : WellPlaced geo' dev.parts := by
    obtain rfl := mem_singleton.mp hdev
    obtain rfl := some.inj (hgeo.symm.trans hgeo')
    exact hplaced
  obtain ⟨-, hall⟩ := h (fun _ _ => some bad) _ _ hsingle (spreadPartitions_single hgeo hname hq)
  obtain ⟨mtd, hmtd, hsound⟩ := hall _ mem_cons_self
  obtain rfl := some.inj ((chips_eq hgeo bad).symm.trans hmtd)
  exact hunsound hsound

def blockPart (geo : Geometry) (a : Nat) : PartInfo := partOf (a * geo.erasesize) geo.erasesize

theorem wellPlaced_single (h : (a + 1) * geo.erasesize ≤ geo.size) :
    WellPlaced geo [blockPart geo a] ∧ endOf (blockPart geo a) = (a + 1) * geo.erasesize ∧
      (blockPart geo a).offset.toNat = a * geo.erasesize ∧
      (blockPart geo a).size.toNat = geo.erasesize := by
  have hlt := geo.size_lt
  rw [Nat.succ_mul] at h ⊢
  have hoffset : (blockPart geo a).offset.toNat = a * geo.erasesize :=
    UInt64.toNat_ofNat_of_lt' (show _ < 2 ^ 64 by omega)
  have hsize : (blockPart geo a).size.toNat = geo.erasesize :=
    UInt64.toNat_ofNat_of_lt' (erasesize_lt geo)
  have hend : endOf (blockPart geo a) = a * geo.erasesize + geo.erasesize := by
    rw [endOf, hoffset, hsize]
  refine ⟨⟨pairwise_singleton _ _, ?_, ?_⟩, hend, hoffset, hsize⟩
  · intro p hp
    obtain rfl := mem_singleton.mp hp
    rw [hend]
    exact h
  · intro p hp
    obtain rfl := mem_singleton.mp hp
    rw [hoffset, hsize]
    exact ⟨Nat.dvd_mul_left _ _, Nat.dvd_refl _⟩

theorem goodBytes_eq_zero (hoffset : part.offset.toNat = a * geo.erasesize)
    (hend : endOf part = (a + 1) * geo.erasesize) (hbad : bad a = true) :
    goodBytes ⟨geo, some bad⟩ part = 0 := by
  have hpos := erasesize_pos geo
  rw [goodBytes, hend, Nat.mul_div_cancel _ hpos, hoffset, Nat.count_iff_forall_not.mpr, Nat.zero_mul]
  rintro b hb ⟨hle, hgood⟩
  obtain rfl : b = a :=
    Nat.le_antisymm (Nat.le_of_lt_succ hb) (Nat.le_of_mul_le_mul_right hle hpos)
  cases hbad.symm.trans hgood

theorem not_soundOn_of_large (hgeo : geometry type num = some geo)
    (hlarge : 2 ^ 32 + geo.erasesize < geo.size) : ¬SoundOn geometry := by
  have hwrap := wrap_mul geo
  have htwo := two_le_wrap geo
  have hsucc : (geo.wrap + 1) * geo.erasesize = 2 ^ 32 + geo.erasesize := by
    rw [Nat.succ_mul, hwrap]
  obtain ⟨hplaced, hend, hoffset, hsize⟩ := wellPlaced_single (hsucc ▸ hlarge.le)
  have hnet := @one_good geo (fun b => b == geo.wrap) geo.wrap
    (by rw [hwrap]; exact Nat.lt_trans (Nat.lt_add_of_pos_right (erasesize_pos geo)) hlarge)
    (by rw [Nat.mod_self]; simpa using (by omega : 0 ≠ geo.wrap))
  have hpad := @paddingSize_good geo (fun b => b == geo.wrap) (geo.wrap + 1)
    (by rw [hsucc]; exact hlarge)
    (by
      rw [Nat.add_mod_left, Nat.mod_eq_of_lt htwo]
      simpa using (by omega : 1 ≠ geo.wrap))
  have hnext : ((blockPart geo geo.wrap).offset.toNat + geo.erasesize) % 2 ^ 64 =
      (geo.wrap + 1) * geo.erasesize := by
    rw [hoffset, ← Nat.succ_mul, Nat.mod_eq_of_lt]
    exact Nat.lt_trans (hsucc ▸ hlarge) geo.size_lt
  have hstep := @spreadPartition_eq (blockPart geo geo.wrap) _ geo.erasesize _
    (by rw [hoffset, hsize]; exact hnet) (by rw [hnext]; exact hpad)
  refine not_soundOn hgeo hplaced rfl hstep fun hsound => ?_
  obtain ⟨hgood, -⟩ := forall₂_cons.mp hsound.good
  have hge : (blockPart geo geo.wrap).size.toNat ≤ goodBytes _ (blockPart geo geo.wrap) :=
    hgood rfl
  rw [hsize, goodBytes_eq_zero hoffset hend (by simp)] at hge
  exact absurd hge (Nat.not_le.mpr (erasesize_pos geo))

theorem succ_mod_ne (hw : 2 ≤ w) : (a + 1) % w ≠ a % w := by
  have hlt := Nat.mod_lt a (by omega : 0 < w)
  rw [Nat.add_mod, Nat.mod_eq_of_lt (by omega : 1 < w)]
  rcases Nat.lt_or_ge (a % w + 1) w with h | h
  · rw [Nat.mod_eq_of_lt h]
    omega
  · have heq : a % w + 1 = w := by omega
    rw [heq, Nat.mod_self]
    omega

theorem exists_last_block (hle : geo.erasesize ≤ geo.size) (hdvd : ¬geo.erasesize ∣ geo.size) :
    ∃ a, (a + 1) * geo.erasesize < geo.size ∧ geo.size < (a + 2) * geo.erasesize := by
  have hpos := erasesize_pos geo
  obtain ⟨a, ha⟩ : ∃ a, geo.size / geo.erasesize = a + 1 :=
    Nat.exists_eq_succ_of_ne_zero (Nat.div_pos hle hpos).ne'
  have hdiv := Nat.div_add_mod geo.size geo.erasesize
  have hmod := Nat.mod_lt geo.size hpos
  rw [ha, Nat.mul_comm] at hdiv
  refine ⟨a, by omega, ?_⟩
  rw [Nat.succ_mul (a + 1)]
  omega

section LastBlock

variable {a : Nat}

theorem paddingSize_behind (hin : (a + 1) * geo.erasesize < geo.size)
    (hover : geo.size < (a + 2) * geo.erasesize) :
    ∃ padding truncated,
      paddingSize ⟨geo, some fun b => b == a % geo.wrap⟩ ((a + 2) * geo.erasesize % 2 ^ 64) =
        some (padding, truncated) ∧ padding ≤ geo.erasesize := by
  have htwo := two_le_wrap geo
  have hsmall : geo.erasesize < geo.size := Nat.lt_of_le_of_lt
    (Nat.le_mul_of_pos_left _ (Nat.succ_pos a)) hin
  rcases Nat.lt_or_ge ((a + 2) * geo.erasesize) (2 ^ 64) with hlt | hge
  · rw [Nat.mod_eq_of_lt hlt]
    exact ⟨0, true, one_behind hover.le, Nat.zero_le _⟩
  · have hall : 2 ^ (64 - geo.shift) * geo.erasesize = 2 ^ 64 := by
      have hshift := geo.shift_lt
      rw [Geometry.erasesize, ← Nat.pow_add, Nat.sub_add_cancel (by omega)]
    have hblocks : a + 1 < 2 ^ (64 - geo.shift) := by
      apply Nat.lt_of_mul_lt_mul_right
      rw [hall]
      exact Nat.lt_trans hin geo.size_lt
    have heq : (a + 2) * geo.erasesize = 2 ^ 64 :=
      Nat.le_antisymm (hall ▸ Nat.mul_le_mul_right _ hblocks) hge
    have hzero : (a + 2) * geo.erasesize % 2 ^ 64 = 0 * geo.erasesize := by
      rw [heq, Nat.mod_self, Nat.zero_mul]
    have hstart : 0 * geo.erasesize < geo.size := by
      rw [Nat.zero_mul]
      exact Nat.lt_of_le_of_lt (Nat.zero_le _) hsmall
    rw [hzero]
    by_cases hfirst : 0 = a % geo.wrap
    · have hbad := (@one_bad geo (fun b => b == a % geo.wrap) 0 hstart
        (by simpa using hfirst) (by rw [Nat.one_mul]; exact erasesize_lt geo)).2
        (by rw [Nat.one_mul]; exact hsmall)
        (by rw [Nat.zero_add, Nat.mod_eq_of_lt htwo, ← hfirst]; rfl)
      refine ⟨geo.erasesize, false, (paddingSize_eq hbad).trans ?_, Nat.le_refl _⟩
      rw [if_neg Bool.false_ne_true, Nat.two_mul, Nat.add_sub_cancel]
    · exact ⟨0, false, paddingSize_good hstart (by simpa using hfirst), Nat.zero_le _⟩

end LastBlock

theorem not_soundOn_of_not_dvd (hgeo : geometry type num = some geo)
    (hle : geo.erasesize ≤ geo.size) (hdvd : ¬geo.erasesize ∣ geo.size) : ¬SoundOn geometry := by
  obtain ⟨a, hin, hover⟩ := exists_last_block hle hdvd
  obtain ⟨hplaced, hend, hoffset, hsize⟩ := wellPlaced_single hin.le
  obtain ⟨padding, truncated, hpad, hpadding⟩ := paddingSize_behind hin hover
  have hlt := geo.size_lt
  have hes := erasesize_le geo
  have hmul₁ : (a + 1) * geo.erasesize = a * geo.erasesize + geo.erasesize := Nat.succ_mul _ _
  have hmul₂ : (a + 2) * geo.erasesize = a * geo.erasesize + 2 * geo.erasesize := Nat.add_mul _ _ _
  have hnet := (@one_bad geo (fun b => b == a % geo.wrap) a (by omega) (by simp) (by omega)).2 hin
    (by simpa using succ_mod_ne (two_le_wrap geo))
  have hstep := @spreadPartition_eq (blockPart geo a) _ (2 * geo.erasesize) _
    (by rw [hoffset, hsize]; exact hnet) (by rw [hoffset, ← hmul₂]; exact hpad)
  refine not_soundOn hgeo hplaced rfl hstep fun hsound => ?_
  have hinside := hsound.inside _ mem_cons_self
  rw [endOf] at hinside
  dsimp only at hinside
  rw [hoffset, UInt64.toNat_ofNat_of_lt' (show _ < 2 ^ 64 by omega)] at hinside
  omega

def sixGiB : Geometry := ⟨30, by decide, 6 * 2 ^ 30, by decide⟩

end UBoot.Mtdparts.Spread
