import UBoot.Lib.Machine
import UBoot.Memory.RegionLaws

/-!
# The bookkeeping of reserved memory

Along a run of `lmb_reserve` and `lmb_free` the table agrees with the set of reserved
addresses, but for a reservation when everything has been freed, and a free in the middle of
a region of a full table.
-/

namespace UBoot.Memory

variable {rgn rgn' : LmbRegion} {base size : Nat}

/-! ## Freeing -/

theorem findRegion_some (hfind : findRegion rgn base stop n i = some k) :
    k < i + n ∧ (rgn.region k).base ≤ base ∧
      stop ≤ add (rgn.region k).base (rgn.region k).size := by
  induction n generalizing i with
  | zero => cases hfind
  | succ n ih =>
    simp only [findRegion] at hfind
    split at hfind
    case isTrue h =>
      cases hfind
      exact ⟨by omega, h⟩
    case isFalse =>
      obtain ⟨hlt, h⟩ := ih hfind
      exact ⟨by omega, h⟩

section
variable (hwf : rgn.WellFormed) (hlt : rgn.table.All (· < ·))
include hwf hlt

theorem becomes_shrink (hi : i < rgn.cnt) (hlo : rgn.table.lo i ≤ p.base) (hsize : 0 < p.size)
    (hhi : p.base + p.size ≤ rgn.table.hi i) :
    rgn.Becomes (rgn.setRegion i p)
        (rgn.covered \ Set.Ico (rgn.table.lo i) (rgn.table.hi i) ∪
          Set.Ico p.base (p.base + p.size)) ∧
      (rgn.setRegion i p).table.All (· < ·) := by
  have hw : rgn.table.hi i < 2 ^ 32 := hwf.noWrap i hi
  have hlt' : (rgn.setRegion i p).table.All (· < ·) := by
    rw [table_setRegion]
    exact hlt.set (by omega)
  refine ⟨⟨⟨hwf.room, ?_, ?_, .inr hlt'⟩, ?_, le_max_left _ _⟩, hlt'⟩
  · rw [table_setRegion]
    refine hwf.sorted.set (by omega) (fun j hj => ?_) fun hnext => ?_
    · subst hj
      exact (hwf.sorted.apart j hi).trans hlo
    · exact hhi.trans (hwf.sorted.apart i hnext)
  · rw [table_setRegion]
    exact hwf.noWrap.set (by omega)
  · ext a
    simp only [LmbRegion.covered, table_setRegion, hwf.sorted.mem_covered_set hi]
    exact or_comm

theorem becomes_split (hi : i < rgn.cnt) (hlo : rgn.table.lo i < base)
    (hhi : base + size < rgn.table.hi i) (hsize : 0 < size) (hroom : rgn.cnt < maxLmbRegions) :
    ∃ ret rgn',
      lmbAddRegion (rgn.setRegion i ⟨rgn.table.lo i, base - rgn.table.lo i⟩) (base + size)
        (rgn.table.hi i - (base + size)) = some (ret, rgn') ∧ 0 ≤ ret ∧
      rgn.Becomes rgn' (rgn.covered \ Set.Ico base (base + size)) := by
  have hw : rgn.table.hi i < 2 ^ 32 := hwf.noWrap i hi
  obtain ⟨hcut, hlt'⟩ := becomes_shrink hwf hlt (p := ⟨rgn.table.lo i, base - rgn.table.lo i⟩) hi
    le_rfl (by simp only; omega) (by simp only; omega)
  have hapart : (rgn.setRegion i ⟨rgn.table.lo i, base - rgn.table.lo i⟩).Apart (base + size)
      (rgn.table.hi i - (base + size)) := by
    intro j hj
    have hj : j < rgn.cnt := hj
    rw [table_setRegion]
    simp only [IntervalTable.set, Function.update_apply]
    rcases Nat.lt_trichotomy j i with hji | rfl | hij
    · have : rgn.table.hi j ≤ rgn.table.lo i := hwf.sorted.hi_le_lo hji hi
      rw [if_neg (by omega)]
      omega
    · rw [if_pos rfl]
      omega
    · have : rgn.table.hi i ≤ rgn.table.lo j := hwf.sorted.hi_le_lo hij hj
      rw [if_neg (by omega), if_neg (by omega)]
      omega
  rcases addRegion_apart hcut.wellFormed hlt' (by omega) (by omega) hapart
    (Nat.zero_lt_of_lt hi) with ⟨hfull, -⟩ | ⟨ret, rgn', hrun, hret, hnew⟩
  · exact absurd hfull (Nat.not_le_of_lt hroom)
  · refine ⟨ret, rgn', hrun, hret, ?_⟩
    have hcov := hcut.trans hnew
    convert hcov using 1
    rw [hcut.covered]
    ext a
    have hat : rgn.table.lo i ≤ a ∧ a < rgn.table.hi i → a ∈ rgn.covered := fun h => ⟨i, hi, h⟩
    simp only [Set.mem_union, Set.mem_sdiff, Set.mem_Ico]
    grind

end

def SplitFits (rgn : LmbRegion) (base size : Nat) : Prop :=
  ∀ i < rgn.cnt, (rgn.region i).base < base →
    base + size < (rgn.region i).base + (rgn.region i).size → rgn.cnt < maxLmbRegions

theorem freeFrom_spec (hwf : rgn.WellFormed) (hlt : rgn.table.All (· < ·)) (hsize : 0 < size)
    (hi : i < rgn.cnt) (hlo : rgn.table.lo i ≤ base) (hhi : base + size ≤ rgn.table.hi i)
    (hfits : SplitFits rgn base size) :
    ∃ ret rgn', freeFrom rgn i base size = some (ret, rgn') ∧ 0 ≤ ret ∧
      rgn.Becomes rgn' (rgn.covered \ Set.Ico base (base + size)) := by
  have hw : rgn.table.hi i < 2 ^ 32 := hwf.noWrap i hi
  have hat (a) : rgn.table.lo i ≤ a ∧ a < rgn.table.hi i → a ∈ rgn.covered := fun h => ⟨i, hi, h⟩
  have hsub (h : size ≤ (rgn.region i).size) :
      sub (rgn.region i).size size = (rgn.region i).size - size :=
    sub_eq h (by simp only [LmbRegion.table] at hw; omega)
  unfold freeFrom
  simp only
  rw [add_eq (hhi.trans_lt hw), add_eq hw]
  split_ifs with hwhole hfront hback
  · obtain ⟨rgn', hrun, hsame⟩ := lmbRemoveRegion_spec rgn hi hwf.room
    refine ⟨0, rgn', by simp [hrun], le_rfl, ?_, ?_, ?_⟩
    · exact .of_same hsame ((Nat.sub_le _ _).trans hwf.room) (hwf.sorted.remove i)
        (hwf.noWrap.remove i) (hlt.remove i)
    · ext a
      rw [LmbRegion.covered, hsame.covered, hwf.sorted.mem_covered_remove hi, ← hwhole.2,
        ← hwhole.1]
      rfl
    · exact le_max_of_le_left (hsame.1.le.trans (Nat.sub_le _ _))
  all_goals simp only [LmbRegion.table] at hlo hhi hw hat
  · rw [hsub (by omega)]
    obtain ⟨hnew, -⟩ := becomes_shrink hwf hlt
      (p := ⟨base + size, (rgn.region i).size - size⟩) hi
      (by simp only [LmbRegion.table]; omega) (by simp only; omega)
      (by simp only [LmbRegion.table]; omega)
    refine ⟨0, _, rfl, le_rfl, ?_⟩
    convert hnew using 1
    ext a
    have := hat a
    simp only [LmbRegion.table, Set.mem_union, Set.mem_sdiff, Set.mem_Ico]
    grind
  · rw [hsub (by omega)]
    obtain ⟨hnew, -⟩ := becomes_shrink hwf hlt
      (p := ⟨(rgn.region i).base, (rgn.region i).size - size⟩) hi
      (by simp only [LmbRegion.table]; omega) (by simp only; omega)
      (by simp only [LmbRegion.table]; omega)
    refine ⟨0, _, rfl, le_rfl, ?_⟩
    convert hnew using 1
    ext a
    have := hat a
    simp only [LmbRegion.table, Set.mem_union, Set.mem_sdiff, Set.mem_Ico]
    grind
  · rw [sub_eq hlo (by omega), sub_eq hhi hw]
    exact becomes_split hwf hlt hi (by simp only [LmbRegion.table]; omega)
      (by simp only [LmbRegion.table]; omega) hsize (hfits i hi (by omega) (by omega))

theorem freeRegion_spec (hwf : rgn.WellFormed) (hsize : 0 < size) (hend : base + size < 2 ^ 32)
    (hfits : SplitFits rgn base size) :
    freeRegion rgn base size = some (-1, rgn) ∨
      ∃ ret rgn', freeRegion rgn base size = some (ret, rgn') ∧ 0 ≤ ret ∧
        rgn.Becomes rgn' (rgn.covered \ Set.Ico base (base + size)) := by
  unfold freeRegion
  rw [add_eq hend]
  cases hfind : findRegion rgn base (base + size) rgn.cnt 0 with
  | none => exact .inl rfl
  | some i =>
    obtain ⟨hi, hlo, hhi⟩ := findRegion_some hfind
    rw [zero_add] at hi
    rw [add_eq (hwf.noWrap i hi)] at hhi
    have hlt : rgn.table.All (· < ·) := by
      refine hwf.proper.resolve_left ?_
      rintro ⟨hcnt, h0⟩
      obtain rfl : i = 0 := Nat.lt_one_iff.mp (hcnt ▸ hi)
      omega
    exact .inr (freeFrom_spec hwf hlt hsize hi hlo hhi hfits)

theorem findRegion_none (hfind : findRegion rgn base stop n i = none) (hij : i ≤ j)
    (hj : j < i + n) :
    ¬ ((rgn.region j).base ≤ base ∧ stop ≤ add (rgn.region j).base (rgn.region j).size) := by
  induction n generalizing i with
  | zero => omega
  | succ n ih =>
    simp only [findRegion] at hfind
    split at hfind
    case isTrue => cases hfind
    case isFalse h =>
      rcases Nat.lt_or_eq_of_le hij with hlt | rfl
      · exact ih hfind hlt (by omega)
      · exact h

theorem freeRegion_full_drops (hwf : rgn.WellFormed) (hlt : rgn.table.All (· < ·))
    (hsize : 0 < size) (hi : i < rgn.cnt) (hlo : rgn.table.lo i < base)
    (hhi : base + size < rgn.table.hi i) (hfull : maxLmbRegions ≤ rgn.cnt)
    (hnext : ∀ j < rgn.cnt, rgn.table.lo j ≠ rgn.table.hi i) :
    freeRegion rgn base size =
      some (-1, rgn.setRegion i ⟨rgn.table.lo i, base - rgn.table.lo i⟩) := by
  have hw : rgn.table.hi i < 2 ^ 32 := hwf.noWrap i hi
  have hfind : findRegion rgn base (base + size) rgn.cnt 0 = some i := by
    cases hfind : findRegion rgn base (base + size) rgn.cnt 0 with
    | none =>
      refine absurd ⟨hlo.le, ?_⟩ (findRegion_none hfind (Nat.zero_le i) (by omega))
      rw [add_eq hw]
      exact hhi.le
    | some k =>
      obtain ⟨hk, hlok, hhik⟩ := findRegion_some hfind
      rw [zero_add] at hk
      rw [add_eq (hwf.noWrap k hk)] at hhik
      have hat : rgn.table.At k base := ⟨hlok, by simp only [LmbRegion.table]; omega⟩
      rw [hwf.sorted.unique hk hi hat ⟨hlo.le, by omega⟩]
  unfold freeRegion
  rw [add_eq (hhi.trans hw), hfind]
  simp only [freeFrom]
  rw [add_eq (hhi.trans hw), add_eq hw]
  simp only [LmbRegion.table] at hlo hhi hw hnext ⊢
  rw [if_neg (by omega), if_neg (by omega), if_neg (by omega), sub_eq hlo.le (by omega),
    sub_eq hhi.le hw]
  -- nothing touches the end of the region, neither the rest of it nor another
  have hno : (rgn.setRegion i ⟨(rgn.region i).base, base - (rgn.region i).base⟩).NoNeighbour
      (base + size) ((rgn.region i).base + (rgn.region i).size - (base + size)) := by
    intro j hj
    have hj : j < rgn.cnt := hj
    have hwj := hwf.noWrap j hj
    have hltj := hlt j hj
    have hnextj := hnext j hj
    have hbefore (h : j < i) := hwf.sorted.hi_le_lo h hi
    have hafter (h : i < j) := hwf.sorted.hi_le_lo h hj
    simp only [LmbRegion.table] at hwj hltj hbefore hafter
    by_cases hji : j = i
    · subst hji
      simp only [LmbRegion.setRegion, Function.update_self, lmbAddrsAdjacent, ne_eq,
        Property.mk.injEq]
      rw [add_eq (by omega), add_eq (by omega), if_neg (by omega), if_neg (by omega)]
      exact ⟨by omega, rfl⟩
    · simp only [LmbRegion.setRegion, Function.update_of_ne hji, lmbAddrsAdjacent]
      rw [add_eq (by omega), add_eq hwj, if_neg (by omega), if_neg (by omega)]
      refine ⟨fun he => ?_, rfl⟩
      have hb := congrArg Property.base he
      simp only at hb
      omega
  obtain ⟨-, hlt'⟩ := becomes_shrink hwf hlt (p := ⟨rgn.table.lo i, base - rgn.table.lo i⟩) hi
    le_rfl (by simp only [LmbRegion.table]; omega) (by simp only [LmbRegion.table]; omega)
  exact (lmbAddRegion_noNeighbour (not_dummy hlt') (Nat.zero_lt_of_lt hi) hwf.cnt_lt hno).trans
    (if_pos hfull)

/-! ## Runs -/

inductive Op
  | reserve (base size : Nat)
  | free (base size : Nat)

def Op.apply : Op → Lmb → Option (Int × Lmb)
  | .reserve base size, lmb => lmbReserve lmb base size
  | .free base size, lmb => lmbFree lmb base size

def Op.effect : Op → Set Nat → Set Nat
  | .reserve base size, s => s ∪ Set.Ico base (base + size)
  | .free base size, s => s \ Set.Ico base (base + size)

/-- The tables, `none` once the code has run over an array, and the addresses
that are reserved. -/
structure Tracked where
  lmb : Option Lmb
  reserved : Set Nat

def lmbMachine : Machine Tracked Op (Option Int) where
  step s op :=
    match s.lmb.bind op.apply with
    | none => (⟨none, s.reserved⟩, none)
    | some (ret, lmb) => (⟨some lmb, if 0 ≤ ret then op.effect s.reserved else s.reserved⟩, some ret)

/-- The use of the operations: ranges that are not empty and do not wrap, to
reserve what is free and to free what is reserved. -/
def Op.Allowed (s : Tracked) : Op → Prop
  | .reserve base size =>
    0 < size ∧ base + size < 2 ^ 32 ∧ Disjoint (Set.Ico base (base + size)) s.reserved
  | .free base size =>
    0 < size ∧ base + size < 2 ^ 32 ∧ Set.Ico base (base + size) ⊆ s.reserved

/-- What has to be true for a reservation to be exact: without a region, the
first two entries of the array do not touch, and the first is above the range,
or is the range. -/
def StaleHarmless (rgn : LmbRegion) (base size : Nat) : Prop :=
  rgn.cnt = 0 → lmbRegionsAdjacent rgn 0 1 = 0 ∧
    (base < (rgn.region 0).base ∨ rgn.region 0 = ⟨base, size⟩)

def Op.Exact (s : Tracked) (op : Op) : Prop :=
  ∀ lmb ∈ s.lmb, match op with
    | .reserve base size => StaleHarmless lmb.reserved base size
    | .free base size => SplitFits lmb.reserved base size

def Tracked.Agrees (s : Tracked) : Prop :=
  ∃ lmb, s.lmb = some lmb ∧ lmb.reserved.WellFormed ∧ lmb.reserved.cnt ≤ maxLmbRegions ∧
    lmb.reserved.covered = s.reserved

theorem apart_of_disjoint (hwf : rgn.WellFormed)
    (hdisj : Disjoint (Set.Ico base (base + size)) rgn.covered) (hsize : 0 < size) :
    rgn.Dummy ∨ rgn.Apart base size := by
  refine hwf.proper.imp_right fun hlt i hi => ?_
  have hlti : rgn.table.lo i < rgn.table.hi i := hlt i hi
  by_contra hover
  -- the larger of the two lower ends lies in both
  have hmem : max base (rgn.table.lo i) ∈ Set.Ico base (base + size) := by
    simp only [Set.mem_Ico]
    omega
  have hmem' : max base (rgn.table.lo i) ∈ rgn.covered := by
    refine ⟨i, hi, ?_⟩
    simp only [IntervalTable.At]
    omega
  exact Set.disjoint_left.mp hdisj hmem hmem'

theorem reserve_spec (hwf : rgn.WellFormed) (hsize : 0 < size) (hend : base + size < 2 ^ 32)
    (hdisj : Disjoint (Set.Ico base (base + size)) rgn.covered)
    (hstale : StaleHarmless rgn base size) :
    lmbAddRegion rgn base size = some (-1, rgn) ∨
      ∃ ret rgn', lmbAddRegion rgn base size = some (ret, rgn') ∧ 0 ≤ ret ∧
        rgn.Becomes rgn' (rgn.covered ∪ Set.Ico base (base + size)) := by
  rcases Nat.eq_zero_or_pos rgn.cnt with hcnt | hcnt
  · obtain ⟨hadj, h0⟩ := hstale hcnt
    refine .inr ?_
    have hone {rgn' : LmbRegion} (hcnt' : rgn'.cnt = 1) (h0' : rgn'.region 0 = ⟨base, size⟩) :
        rgn.Becomes rgn' (rgn.covered ∪ Set.Ico base (base + size)) := by
      refine ⟨wellFormed_single hcnt' h0' hsize hend, ?_, ?_⟩
      · rw [covered_single hcnt' h0', covered_empty hcnt, Set.empty_union]
      · rw [hcnt']
        exact le_max_of_le_right (by decide)
    rw [lmbAddRegion_stale hcnt, if_neg (by simp [hadj])]
    split
    · exact ⟨0, _, rfl, le_rfl, hone rfl (by simp [LmbRegion.setRegion])⟩
    case isFalse hlt => exact ⟨0, _, rfl, le_rfl, hone rfl (h0.resolve_left hlt)⟩
  · exact (lmbAddRegion_spec hwf hsize hend hcnt (apart_of_disjoint hwf hdisj hsize)).imp_left
      (·.2)

theorem Op.agrees_step (op : Op) (hagree : s.Agrees) (hallowed : op.Allowed s)
    (hexact : op.Exact s) : (lmbMachine.step s op).1.Agrees := by
  obtain ⟨lmb, hlmb, hwf, hcnt, hcov⟩ := hagree
  have hex := hexact lmb hlmb
  cases op with
  | reserve base size =>
    obtain ⟨hsize, hend, hdisj⟩ := hallowed
    rcases reserve_spec hwf hsize hend (hcov ▸ hdisj) hex with
      hrun | ⟨ret, rgn', hrun, hret, hnew⟩
    · exact ⟨lmb, by simp [lmbMachine, hlmb, Op.apply, lmbReserve, hrun], hwf, hcnt, by
        simp [lmbMachine, hlmb, Op.apply, lmbReserve, hrun, hcov]⟩
    · exact ⟨{ lmb with reserved := rgn' }, by simp [lmbMachine, hlmb, Op.apply, lmbReserve, hrun],
        hnew.wellFormed, hnew.cnt_le.trans (max_le hcnt le_rfl), by
        simp [lmbMachine, hlmb, Op.apply, lmbReserve, hrun, hret, hnew.covered, hcov, Op.effect]⟩
  | free base size =>
    obtain ⟨hsize, hend, -⟩ := hallowed
    rcases freeRegion_spec hwf hsize hend hex with hrun | ⟨ret, rgn', hrun, hret, hnew⟩
    · exact ⟨lmb, by simp [lmbMachine, hlmb, Op.apply, lmbFree, hrun], hwf, hcnt, by
        simp [lmbMachine, hlmb, Op.apply, lmbFree, hrun, hcov]⟩
    · exact ⟨{ lmb with reserved := rgn' }, by simp [lmbMachine, hlmb, Op.apply, lmbFree, hrun],
        hnew.wellFormed, hnew.cnt_le.trans (max_le hcnt le_rfl), by
        simp [lmbMachine, hlmb, Op.apply, lmbFree, hrun, hret, hnew.covered, hcov, Op.effect]⟩

theorem agrees_init (lmb : Lmb) : Tracked.Agrees ⟨some (lmbInit lmb), ∅⟩ := by
  have hd : (lmbInit lmb).reserved.Dummy := ⟨rfl, by simp [lmbInit, initRegion, LmbRegion.setRegion]⟩
  have h0 : (lmbInit lmb).reserved.region 0 = ⟨0, 0⟩ := by
    simp [lmbInit, initRegion, LmbRegion.setRegion]
  have hall {P : Nat → Nat → Prop} (h : P 0 0) : (lmbInit lmb).reserved.table.All P := by
    intro i hi
    obtain rfl : i = 0 := Nat.lt_one_iff.mp hi
    simpa [LmbRegion.table, h0] using h
  have hroom : 1 ≤ maxLmbRegions := by decide
  refine ⟨_, rfl, ⟨Nat.le_succ_of_le hroom, ⟨hall le_rfl, fun i hi => ?_⟩, hall (by norm_num),
    .inl hd⟩, hroom, covered_dummy hd⟩
  exact absurd hi (Nat.not_lt_of_le (Nat.le_add_left 1 i))

/-- In every run of reservations and frees, the table of reserved regions is
well formed and covers exactly the reserved addresses. -/
theorem lmb_run_agrees (lmb : Lmb) (ops : List Op)
    (hmeets : lmbMachine.Meets (fun s op => op.Allowed s ∧ op.Exact s)
      ⟨some (lmbInit lmb), ∅⟩ ops) :
    (lmbMachine.run ⟨some (lmbInit lmb), ∅⟩ ops).1.Agrees :=
  Machine.invariant (fun _ op hs h => op.agrees_step hs h.1 h.2) (agrees_init lmb) hmeets

def noBlocks : Lmb := ⟨⟨0, fun _ => ⟨0, 0⟩⟩, ⟨0, fun _ => ⟨0, 0⟩⟩⟩

/-- A free in the middle of a region. -/
theorem lmb_run_agrees_split :
    (lmbMachine.run ⟨some (lmbInit noBlocks), ∅⟩
      [.reserve 4096 256, .free 4160 64, .reserve 8192 256]).1.Agrees := by
  refine lmb_run_agrees noBlocks _ ⟨⟨⟨by decide, by norm_num, Set.disjoint_empty _⟩, ?_⟩,
    ⟨⟨by decide, by norm_num, ?_⟩, ?_⟩, ⟨⟨by decide, by norm_num, ?_⟩, ?_⟩, trivial⟩
  · rintro _ ⟨⟩ hcnt
    cases hcnt
  · show Set.Ico 4160 (4160 + 64) ⊆ ∅ ∪ Set.Ico 4096 (4096 + 256)
    intro a
    simp only [Set.mem_Ico, Set.empty_union]
    omega
  · rintro _ ⟨⟩ _ _ _ _
    decide
  · show Disjoint (Set.Ico 8192 (8192 + 256))
      ((∅ ∪ Set.Ico 4096 (4096 + 256)) \ Set.Ico 4160 (4160 + 64))
    rw [Set.disjoint_left]
    intro a
    simp only [Set.mem_Ico, Set.empty_union, Set.mem_sdiff]
    omega
  · rintro _ ⟨⟩ hcnt
    cases hcnt

/-- With everything freed, the next reservation brings back the region that was
freed and is not itself in the table. -/
theorem lmb_reserve_after_free_all :
    lmbMachine.Meets (fun s op => op.Allowed s) ⟨some (lmbInit noBlocks), ∅⟩
      [.reserve 4096 256, .free 4096 256, .reserve 8192 256] ∧
    ¬ (lmbMachine.run ⟨some (lmbInit noBlocks), ∅⟩
      [.reserve 4096 256, .free 4096 256, .reserve 8192 256]).1.Agrees := by
  refine ⟨⟨⟨by decide, by norm_num, Set.disjoint_empty _⟩, ⟨by decide, by norm_num, ?_⟩,
    ⟨by decide, by norm_num, ?_⟩, trivial⟩, ?_⟩
  · show Set.Ico 4096 (4096 + 256) ⊆ ∅ ∪ Set.Ico 4096 (4096 + 256)
    exact Set.subset_union_right
  · show Disjoint (Set.Ico 8192 (8192 + 256))
      ((∅ ∪ Set.Ico 4096 (4096 + 256)) \ Set.Ico 4096 (4096 + 256))
    simp
  · rintro ⟨lmb, hlmb, -, -, hcov⟩
    have hcov' : lmb.reserved.covered =
        ((∅ ∪ Set.Ico 4096 (4096 + 256)) \ Set.Ico 4096 (4096 + 256)) ∪
          Set.Ico 8192 (8192 + 256) := hcov
    have hmem : 4096 ∈ lmb.reserved.covered := by
      cases hlmb
      exact ⟨0, by decide, by decide, by decide⟩
    simp [hcov'] at hmem

end UBoot.Memory
