import UBoot.Memory.Region

/-!
# What a change of a region table does

On a table that is well formed, adding a range that is apart from every region fails, for a
full table, or extends the table by that range; freeing removes just the range. A table
without a region is the exception (`lmbAddRegion_stale`).
-/

namespace UBoot.Memory

variable {rgn rgn' : LmbRegion} {base size : Nat}

theorem add_eq (h : a + b < 2 ^ 32) : add a b = a + b := Nat.mod_eq_of_lt h

theorem sub_eq (h : b ≤ a) (ha : a < 2 ^ 32) : sub a b = a - b := by
  unfold sub
  rw [show a + 2 ^ 32 - b = a - b + 2 ^ 32 by omega, Nat.add_mod_right]
  exact Nat.mod_eq_of_lt (by omega)

def LmbRegion.table (rgn : LmbRegion) : IntervalTable Nat :=
  ⟨rgn.cnt, fun i => (rgn.region i).base, fun i => (rgn.region i).base + (rgn.region i).size⟩

def LmbRegion.covered (rgn : LmbRegion) : Set Nat := rgn.table.covered

abbrev LmbRegion.Dummy (rgn : LmbRegion) : Prop := rgn.cnt = 1 ∧ (rgn.region 0).size = 0

/-- The regions fit the array, are sorted and disjoint, and none wraps. None is
empty, but for the one of `lmb_init`. -/
structure LmbRegion.WellFormed (rgn : LmbRegion) : Prop where
  room : rgn.cnt ≤ maxLmbRegions + 1
  sorted : rgn.table.Sorted
  noWrap : rgn.table.All fun _ stop => stop < 2 ^ 32
  proper : rgn.Dummy ∨ rgn.table.All (· < ·)

structure LmbRegion.Ordered (rgn : LmbRegion) : Prop where
  room : rgn.cnt ≤ maxLmbRegions + 1
  sorted : rgn.table.Sorted
  noWrap : rgn.table.All fun _ stop => stop < 2 ^ 32

theorem LmbRegion.WellFormed.ordered (hwf : rgn.WellFormed) : rgn.Ordered :=
  ⟨hwf.room, hwf.sorted, hwf.noWrap⟩

theorem LmbRegion.WellFormed.of_same (hsame : rgn.table.Same t) (hroom : t.cnt ≤ maxLmbRegions + 1)
    (hs : t.Sorted) (hw : t.All fun _ stop => stop < 2 ^ 32) (hp : t.All (· < ·)) :
    rgn.WellFormed :=
  ⟨hsame.1.le.trans hroom, hsame.sorted hs, hsame.all hw, .inr (hsame.all hp)⟩

theorem LmbRegion.WellFormed.cnt_lt (hwf : rgn.WellFormed) : rgn.cnt < 2 ^ 32 :=
  hwf.room.trans_lt (by decide)

@[simp] theorem table_setRegion (rgn : LmbRegion) (i : Nat) (p : Property) :
    (rgn.setRegion i p).table = rgn.table.set i p.base (p.base + p.size) := by
  simp only [LmbRegion.table, LmbRegion.setRegion, IntervalTable.set, IntervalTable.mk.injEq,
    true_and]
  constructor <;> funext j <;> simp only [Function.update_apply] <;> split <;> rfl

structure LmbRegion.Becomes (rgn rgn' : LmbRegion) (s : Set Nat) : Prop where
  wellFormed : rgn'.WellFormed
  covered : rgn'.covered = s
  cnt_le : rgn'.cnt ≤ max rgn.cnt maxLmbRegions

/-! ## Removing and merging regions -/

theorem removeLoop_spec (fuel r : Nat) (rgn : LmbRegion) (hcnt : 1 ≤ rgn.cnt)
    (hroom : rgn.cnt ≤ maxLmbRegions + 1) (hfuel : rgn.cnt ≤ fuel + r) (hpos : 0 < fuel) :
    ∃ rgn', removeLoop fuel r rgn = some rgn' ∧ rgn'.cnt = rgn.cnt ∧
      ∀ j, rgn'.region j =
        if r ≤ j ∧ j < rgn.cnt - 1 then rgn.region (j + 1) else rgn.region j := by
  induction fuel generalizing r rgn with
  | zero => cases hpos
  | succ fuel ih =>
    have hsub : sub rgn.cnt 1 = rgn.cnt - 1 := sub_eq hcnt (hroom.trans_lt (by decide))
    unfold removeLoop
    rw [hsub]
    by_cases hr : r < rgn.cnt - 1
    · rw [if_pos hr, if_pos (by omega)]
      have hfuel' : rgn.cnt ≤ fuel + (r + 1) := by omega
      obtain ⟨rgn', hrun, hcnt', hreg⟩ :=
        ih (r + 1) (rgn.setRegion r (rgn.region (r + 1))) hcnt hroom hfuel' (by omega)
      refine ⟨rgn', hrun, hcnt', fun j => ?_⟩
      rw [hreg j]
      simp only [LmbRegion.setRegion, Function.update_apply]
      -- the entry `r` was moved in this round, the others are moved later
      grind
    · rw [if_neg hr]
      refine ⟨rgn, rfl, rfl, fun j => ?_⟩
      rw [if_neg (by omega)]

theorem lmbRemoveRegion_spec (rgn : LmbRegion) (hr : r < rgn.cnt) (hroom : rgn.cnt ≤ maxLmbRegions + 1) :
    ∃ rgn', lmbRemoveRegion rgn r = some rgn' ∧ rgn'.table.Same (rgn.table.remove r) := by
  obtain ⟨rgn', hrun, hcnt', hreg⟩ :=
    removeLoop_spec (maxLmbRegions + 2) r rgn (by omega) hroom (by omega) (by decide)
  have hsub : sub rgn'.cnt 1 = rgn.cnt - 1 := by
    rw [hcnt']
    exact sub_eq (by omega) (hroom.trans_lt (by decide))
  refine ⟨{ rgn' with cnt := sub rgn'.cnt 1 }, by simp [lmbRemoveRegion, hrun], hsub,
    fun j hj => ?_⟩
  have hj : j < rgn.cnt - 1 := hsub ▸ hj
  simp only [LmbRegion.table, IntervalTable.remove, hreg j]
  split_ifs <;> omega

section
variable (hwf : rgn.WellFormed)
include hwf

theorem lmbCoalesceRegions_spec (hi : i + 1 < rgn.cnt)
    (htouch : rgn.table.hi i = rgn.table.lo (i + 1)) :
    ∃ rgn', lmbCoalesceRegions rgn i (i + 1) = some rgn' ∧
      rgn'.table.Same (rgn.table.merge i) := by
  have hw : rgn.table.hi (i + 1) < 2 ^ 32 := hwf.noWrap (i + 1) hi
  simp only [LmbRegion.table] at htouch hw
  have hadd : add (rgn.region i).size (rgn.region (i + 1)).size =
      (rgn.region i).size + (rgn.region (i + 1)).size := add_eq (by omega)
  unfold lmbCoalesceRegions
  rw [hadd]
  obtain ⟨rgn', hrun, hsame⟩ := lmbRemoveRegion_spec
    (rgn.setRegion i ⟨(rgn.region i).base, (rgn.region i).size + (rgn.region (i + 1)).size⟩)
    hi hwf.room
  refine ⟨rgn', hrun, ?_⟩
  rwa [table_setRegion, ← Nat.add_assoc, htouch] at hsame

theorem touch_of_adjacent (hi : i + 1 < rgn.cnt) (hadj : lmbRegionsAdjacent rgn i (i + 1) ≠ 0) :
    rgn.table.hi i = rgn.table.lo (i + 1) := by
  have hw : rgn.table.hi i < 2 ^ 32 := hwf.noWrap i (Nat.lt_of_succ_lt hi)
  have hw' : rgn.table.hi (i + 1) < 2 ^ 32 := hwf.noWrap (i + 1) hi
  have hap : rgn.table.hi i ≤ rgn.table.lo (i + 1) := hwf.sorted.apart i hi
  simp only [LmbRegion.table] at *
  unfold lmbRegionsAdjacent lmbAddrsAdjacent at hadj
  rw [add_eq hw, add_eq hw'] at hadj
  split_ifs at hadj <;> omega

theorem mergeNext_spec (hlt : rgn.table.All (· < ·)) (hi : i < rgn.cnt) (coalesced : Int) :
    ∃ c rgn', mergeNext i coalesced rgn = some (c, rgn') ∧ coalesced ≤ c ∧
      rgn.Becomes rgn' rgn.covered := by
  have hsub : sub rgn.cnt 1 = rgn.cnt - 1 := sub_eq (by omega) hwf.cnt_lt
  unfold mergeNext
  rw [hsub]
  split
  case isTrue h =>
    have hi' : i + 1 < rgn.cnt := by omega
    have htouch := touch_of_adjacent hwf hi' h.2
    obtain ⟨rgn', hrun, hsame⟩ := lmbCoalesceRegions_spec hwf hi' htouch
    have hlt' : rgn.table.lo i < rgn.table.hi (i + 1) :=
      (hlt i hi).trans (htouch ▸ hlt (i + 1) hi')
    refine ⟨coalesced + 1, rgn', by simp [hrun], by omega, ?_, ?_, ?_⟩
    · exact .of_same hsame ((Nat.sub_le _ _).trans hwf.room) (hwf.sorted.merge hi')
        ((hwf.noWrap.set (hwf.noWrap (i + 1) hi')).remove _) ((hlt.set hlt').remove _)
    · exact hsame.covered.trans (hwf.sorted.covered_merge hi' htouch)
    · have : rgn'.cnt = rgn.cnt - 1 := hsame.1
      omega
  case isFalse =>
    exact ⟨coalesced, rgn, rfl, le_rfl, hwf, rfl, le_max_left _ _⟩

end

/-! ## Adding a region -/

def LmbRegion.NoNeighbour (rgn : LmbRegion) (base size : Nat) : Prop :=
  ∀ i < rgn.cnt, rgn.region i ≠ ⟨base, size⟩ ∧
    lmbAddrsAdjacent base size (rgn.region i).base (rgn.region i).size = 0

def Neighbour.Found (rgn : LmbRegion) (base size : Nat) : Neighbour → Prop
  | .same => ∃ i < rgn.cnt, rgn.region i = ⟨base, size⟩
  | .after i => i < rgn.cnt ∧ (rgn.region i).base = add base size
  | .before i => i < rgn.cnt ∧ base = add (rgn.region i).base (rgn.region i).size
  | .none => rgn.NoNeighbour base size

theorem findNeighbour_found (rgn : LmbRegion) (base size n i : Nat) (hn : i + n = rgn.cnt)
    (hbefore : ∀ j < i, rgn.region j ≠ ⟨base, size⟩ ∧
      lmbAddrsAdjacent base size (rgn.region j).base (rgn.region j).size = 0) :
    (findNeighbour rgn base size n i).Found rgn base size := by
  induction n generalizing i with
  | zero => exact fun j hj => hbefore j (by omega)
  | succ n ih =>
    simp only [findNeighbour]
    split
    case isTrue h => exact ⟨i, by omega, by rw [← h.1, ← h.2]⟩
    case isFalse hne =>
      simp only [lmbAddrsAdjacent]
      split_ifs with h1 h2 h3 h4 h5 h6 <;> first | omega | skip
      · exact ⟨by omega, h1⟩
      · exact ⟨by omega, h4⟩
      · refine ih (i + 1) (by omega) fun j hj => ?_
        rcases Nat.lt_succ_iff_lt_or_eq.mp hj with hlt | rfl
        · exact hbefore j hlt
        · refine ⟨fun he => hne (by simp [he]), ?_⟩
          rw [lmbAddrsAdjacent, if_neg h1, if_neg h4]

theorem not_dummy (hlt : rgn.table.All (· < ·)) : ¬ rgn.Dummy := by
  rintro ⟨hcnt, hs⟩
  have := hlt 0 (hcnt ▸ Nat.one_pos : 0 < rgn.cnt)
  simp [LmbRegion.table, hs] at this

theorem findNeighbour_eq_none (hno : rgn.NoNeighbour base size) :
    findNeighbour rgn base size rgn.cnt 0 = .none := by
  have hfound := findNeighbour_found rgn base size rgn.cnt 0 (by omega) (by simp)
  generalize findNeighbour rgn base size rgn.cnt 0 = found at hfound
  cases found with
  | none => rfl
  | same =>
    obtain ⟨i, hi, he⟩ := hfound
    exact absurd he (hno i hi).1
  | after i =>
    have hadj := (hno i hfound.1).2
    rw [lmbAddrsAdjacent, if_pos hfound.2] at hadj
    omega
  | before i =>
    have hadj := (hno i hfound.1).2
    rw [lmbAddrsAdjacent, if_pos hfound.2] at hadj
    split at hadj <;> omega

theorem lmbAddRegion_after (hnd : ¬ rgn.Dummy)
    (hsearch : findNeighbour rgn base size rgn.cnt 0 = .after i) :
    lmbAddRegion rgn base size = mergeNext i 1
      (rgn.setRegion i ⟨sub (rgn.region i).base size, add (rgn.region i).size size⟩) := by
  rw [lmbAddRegion, if_neg hnd, hsearch]

theorem lmbAddRegion_before (hnd : ¬ rgn.Dummy)
    (hsearch : findNeighbour rgn base size rgn.cnt 0 = .before i) :
    lmbAddRegion rgn base size = mergeNext i 1
      (rgn.setRegion i ⟨(rgn.region i).base, add (rgn.region i).size size⟩) := by
  rw [lmbAddRegion, if_neg hnd, hsearch]

theorem lmbAddRegion_noNeighbour (hnd : ¬ rgn.Dummy) (hcnt : 0 < rgn.cnt) (hwide : rgn.cnt < 2 ^ 32)
    (hno : rgn.NoNeighbour base size) :
    lmbAddRegion rgn base size =
      if maxLmbRegions ≤ rgn.cnt then some (-1, rgn) else some (0, insertRegion rgn base size) := by
  have hmerge : mergeNext rgn.cnt 0 rgn = some (0, rgn) := by
    unfold mergeNext
    rw [sub_eq hcnt hwide, if_neg (by omega)]
  unfold lmbAddRegion
  rw [if_neg hnd, findNeighbour_eq_none hno]
  simp [hmerge]

theorem insertLoop_spec (base size n : Nat) (rgn : LmbRegion) :
    ∃ p ≤ n, (∀ q, q + 1 = p → (rgn.region q).base ≤ base) ∧
      (∀ j, p ≤ j → j < n → base < (rgn.region j).base) ∧
      (insertLoop base size n rgn).cnt = rgn.cnt ∧
      ∀ j, (insertLoop base size n rgn).region j =
        if p < j ∧ j ≤ n then rgn.region (j - 1)
        else if j = p ∧ 0 < p then ⟨base, size⟩ else rgn.region j := by
  induction n generalizing rgn with
  | zero =>
    refine ⟨0, le_rfl, by simp, by simp, rfl, fun j => ?_⟩
    rw [if_neg (by omega), if_neg (by omega), insertLoop]
  | succ n ih =>
    unfold insertLoop
    split
    case isTrue h =>
      obtain ⟨p, hp, hprev, hnext, hcnt, hreg⟩ := ih (rgn.setRegion (n + 1) (rgn.region n))
      have hother (j) (hj : j ≤ n) :
          (rgn.setRegion (n + 1) (rgn.region n)).region j = rgn.region j :=
        Function.update_of_ne (by omega) _ _
      refine ⟨p, by omega, fun q hq => ?_, fun j hpj hj => ?_, hcnt, fun j => ?_⟩
      · have := hprev q hq
        rwa [hother q (by omega)] at this
      · rcases Nat.lt_succ_iff_lt_or_eq.mp hj with hlt | rfl
        · have := hnext j hpj hlt
          rwa [hother j (by omega)] at this
        · exact h
      · rw [hreg j]
        simp only [LmbRegion.setRegion, Function.update_apply]
        grind
    case isFalse h =>
      refine ⟨n + 1, le_rfl, fun q hq => ?_, fun j hpj hj => ?_, rfl, fun j => ?_⟩
      · cases hq
        exact Nat.le_of_not_lt h
      · omega
      · simp only [LmbRegion.setRegion, Function.update_apply]
        grind

theorem insertRegion_same (hwf : rgn.WellFormed) (hcnt : 0 < rgn.cnt) (base size : Nat) :
    ∃ p ≤ rgn.cnt, (∀ j < p, rgn.table.lo j ≤ base) ∧
      (∀ j, p ≤ j → j < rgn.cnt → base < rgn.table.lo j) ∧
      (insertRegion rgn base size).table.Same (rgn.table.insert p base (base + size)) := by
  obtain ⟨p, hp, hprev, hnext, hcnt', hreg⟩ := insertLoop_spec base size rgn.cnt rgn
  have hlo (j) (hj : j < p) : rgn.table.lo j ≤ base := by
    rcases Nat.lt_or_eq_of_le (Nat.succ_le_of_lt hj) with hlt | rfl
    · have hq : p - 1 < rgn.cnt := by omega
      calc rgn.table.lo j ≤ rgn.table.hi j := hwf.sorted.lo_le_hi j (hj.trans_le hp)
        _ ≤ rgn.table.lo (p - 1) := hwf.sorted.hi_le_lo (by omega) hq
        _ ≤ base := hprev (p - 1) (by omega)
    · exact hprev j rfl
  unfold insertRegion
  generalize insertLoop base size rgn.cnt rgn = r at hcnt' hreg
  have h0 : r.region 0 = rgn.region 0 := by
    rw [hreg 0, if_neg (by omega), if_neg (by omega)]
  -- the range goes to the place `p`, in the loop or after it
  have hreg' (j) : (if base < (r.region 0).base then r.setRegion 0 ⟨base, size⟩ else r).region j =
      if p < j ∧ j ≤ rgn.cnt then rgn.region (j - 1)
      else if j = p then ⟨base, size⟩ else rgn.region j := by
    rw [h0]
    by_cases hp0 : 0 < p
    · have hle : (rgn.region 0).base ≤ base := hlo 0 hp0
      rw [if_neg (Nat.not_lt_of_le hle), hreg j]
      simp [hp0]
    · rw [if_pos (hnext 0 (by omega) hcnt)]
      simp only [LmbRegion.setRegion, Function.update_apply, hreg j]
      grind
  have hcnt'' : (if base < (r.region 0).base then r.setRegion 0 ⟨base, size⟩ else r).cnt =
      rgn.cnt := by
    split <;> exact hcnt'
  have hadd : add rgn.cnt 1 = rgn.cnt + 1 := add_eq ((Nat.succ_le_succ hwf.room).trans_lt (by decide))
  refine ⟨p, hp, hlo, hnext, ?_⟩
  dsimp only
  rw [hcnt'', hadd]
  refine ⟨rfl, fun j hj => ?_⟩
  have hj : j < rgn.cnt + 1 := hj
  simp only [LmbRegion.table, IntervalTable.insert, hreg' j]
  grind

def LmbRegion.Apart (rgn : LmbRegion) (base size : Nat) : Prop :=
  ∀ i < rgn.cnt, rgn.table.hi i ≤ base ∨ base + size ≤ rgn.table.lo i

theorem LmbRegion.Becomes.trans (h : rgn.Becomes rgn' s) (h' : rgn'.Becomes rgn'' t) :
    rgn.Becomes rgn'' t :=
  ⟨h'.wellFormed, h'.covered, h'.cnt_le.trans (max_le h.cnt_le (le_max_right _ _))⟩

section
variable (hwf : rgn.WellFormed) (hlt : rgn.table.All (· < ·)) (hsize : 0 < size)
  (hend : base + size < 2 ^ 32) (hapart : rgn.Apart base size)
include hwf hlt hsize hend hapart

theorem becomes_setRegion (hi : i < rgn.cnt) (hb : p.base = min base (rgn.table.lo i))
    (hs : p.base + p.size = max (base + size) (rgn.table.hi i))
    (htouch : rgn.table.lo i = base + size ∨ rgn.table.hi i = base) :
    rgn.Becomes (rgn.setRegion i p) (rgn.covered ∪ Set.Ico base (base + size)) ∧
      (rgn.setRegion i p).table.All (· < ·) := by
  have hlti : rgn.table.lo i < rgn.table.hi i := hlt i hi
  have hwi : rgn.table.hi i < 2 ^ 32 := hwf.noWrap i hi
  have hlt' : (rgn.setRegion i p).table.All (· < ·) := by
    rw [table_setRegion]
    exact hlt.set (by omega)
  refine ⟨⟨⟨hwf.room, ?_, ?_, .inr hlt'⟩, ?_, le_max_left _ _⟩, hlt'⟩
  · rw [table_setRegion]
    refine hwf.sorted.set (by omega) (fun j hj => ?_) fun hnext => ?_
    · subst hj
      have hj : j < rgn.cnt := Nat.lt_of_succ_lt hi
      have hltj : rgn.table.lo j < rgn.table.hi j := hlt j hj
      have hle : rgn.table.hi j ≤ rgn.table.lo (j + 1) := hwf.sorted.apart j hi
      rcases hapart j hj with h | h <;> omega
    · have hltn : rgn.table.lo (i + 1) < rgn.table.hi (i + 1) := hlt (i + 1) hnext
      have hle : rgn.table.hi i ≤ rgn.table.lo (i + 1) := hwf.sorted.apart i hnext
      rcases hapart (i + 1) hnext with h | h <;> omega
  · rw [table_setRegion]
    exact hwf.noWrap.set (by omega)
  · ext a
    simp only [LmbRegion.covered, table_setRegion, Set.mem_union, Set.mem_Ico,
      hwf.sorted.mem_covered_set hi]
    have hat : rgn.table.At i a → a ∈ rgn.table.covered := fun h => ⟨i, hi, h⟩
    simp only [IntervalTable.At] at *
    grind

theorem becomes_insertRegion (hcnt : 0 < rgn.cnt) (hroom : rgn.cnt < maxLmbRegions) :
    rgn.Becomes (insertRegion rgn base size) (rgn.covered ∪ Set.Ico base (base + size)) := by
  obtain ⟨p, hp, hprev, hnext, hsame⟩ := insertRegion_same hwf hcnt base size
  have hbelow (j) (hj : j < p) : rgn.table.hi j ≤ base := by
    have hle := hprev j hj
    rcases hapart j (by omega) with h | h <;> omega
  have habove (j) (hpj : p ≤ j) (hj : j < rgn.cnt) : base + size ≤ rgn.table.lo j := by
    have hlo := hnext j hpj hj
    have hlej : rgn.table.lo j ≤ rgn.table.hi j := hwf.sorted.lo_le_hi j hj
    rcases hapart j hj with h | h <;> omega
  refine ⟨.of_same hsame (Nat.succ_le_succ hroom.le)
    (hwf.sorted.insert (by omega) hbelow habove hp) (hwf.noWrap.insert hend hp)
    (hlt.insert (by omega) hp), ?_, ?_⟩
  · ext a
    rw [LmbRegion.covered, hsame.covered, IntervalTable.mem_covered_insert hp]
    exact or_comm
  · have hcnt' : (insertRegion rgn base size).cnt = rgn.cnt + 1 := hsame.1
    exact le_max_of_le_right (hcnt' ▸ hroom)

theorem addRegion_apart (hcnt : 0 < rgn.cnt) :
    (maxLmbRegions ≤ rgn.cnt ∧ lmbAddRegion rgn base size = some (-1, rgn)) ∨
      ∃ ret rgn', lmbAddRegion rgn base size = some (ret, rgn') ∧ 0 ≤ ret ∧
        rgn.Becomes rgn' (rgn.covered ∪ Set.Ico base (base + size)) := by
  have hnd := not_dummy hlt
  have hfound := findNeighbour_found rgn base size rgn.cnt 0 (by omega) (by simp)
  cases hsearch : findNeighbour rgn base size rgn.cnt 0 with
  | same =>
    obtain ⟨i, hi, he⟩ := hsearch ▸ hfound
    have := hapart i hi
    simp only [LmbRegion.table, he] at this
    omega
  | after i =>
    obtain ⟨hi, hb⟩ := hsearch ▸ hfound
    have hw : rgn.table.hi i < 2 ^ 32 := hwf.noWrap i hi
    rw [add_eq hend] at hb
    simp only [LmbRegion.table] at hw
    rw [lmbAddRegion_after hnd hsearch, sub_eq (by omega) (by omega), add_eq (by omega)]
    obtain ⟨hnew, hlt'⟩ := becomes_setRegion hwf hlt hsize hend hapart
      (p := ⟨(rgn.region i).base - size, (rgn.region i).size + size⟩) hi
      (by simp only [LmbRegion.table]; omega) (by simp only [LmbRegion.table]; omega) (.inl hb)
    obtain ⟨c, rgn', hrun, hc, hnew'⟩ := mergeNext_spec hnew.wellFormed hlt' hi 1
    exact .inr ⟨c, rgn', hrun, by omega, hnew.covered ▸ hnew.trans hnew'⟩
  | before i =>
    obtain ⟨hi, hb⟩ := hsearch ▸ hfound
    have hw : rgn.table.hi i < 2 ^ 32 := hwf.noWrap i hi
    simp only [LmbRegion.table] at hw
    rw [add_eq hw] at hb
    rw [lmbAddRegion_before hnd hsearch, add_eq (by omega)]
    obtain ⟨hnew, hlt'⟩ := becomes_setRegion hwf hlt hsize hend hapart
      (p := ⟨(rgn.region i).base, (rgn.region i).size + size⟩) hi
      (by simp only [LmbRegion.table]; omega) (by simp only [LmbRegion.table]; omega)
      (.inr hb.symm)
    obtain ⟨c, rgn', hrun, hc, hnew'⟩ := mergeNext_spec hnew.wellFormed hlt' hi 1
    exact .inr ⟨c, rgn', hrun, by omega, hnew.covered ▸ hnew.trans hnew'⟩
  | none =>
    have hno : rgn.NoNeighbour base size := by rwa [hsearch] at hfound
    rw [lmbAddRegion_noNeighbour hnd hcnt hwf.cnt_lt hno]
    split
    case isTrue hfull => exact .inl ⟨hfull, rfl⟩
    case isFalse hfull =>
      exact .inr ⟨0, _, rfl, le_rfl, becomes_insertRegion hwf hlt hsize hend hapart hcnt
        (Nat.lt_of_not_le hfull)⟩

end

theorem covered_dummy (hd : rgn.Dummy) : rgn.covered = ∅ := by
  refine Set.eq_empty_iff_forall_notMem.mpr ?_
  rintro a ⟨i, hi, hlo, hhi⟩
  obtain rfl : i = 0 := Nat.lt_one_iff.mp (hd.1 ▸ hi)
  simp only [LmbRegion.table, hd.2] at hlo hhi
  omega

theorem covered_empty (hcnt : rgn.cnt = 0) : rgn.covered = ∅ := by
  refine Set.eq_empty_iff_forall_notMem.mpr ?_
  rintro a ⟨i, hi, -⟩
  exact Nat.not_lt_zero i (hcnt ▸ hi)

theorem covered_single (hcnt : rgn.cnt = 1) (h0 : rgn.region 0 = ⟨base, size⟩) :
    rgn.covered = Set.Ico base (base + size) := by
  ext a
  simp [LmbRegion.covered, IntervalTable.mem_covered, LmbRegion.table, IntervalTable.At, hcnt, h0]

theorem wellFormed_single (hcnt : rgn.cnt = 1) (h0 : rgn.region 0 = ⟨base, size⟩)
    (hsize : 0 < size) (hend : base + size < 2 ^ 32) : rgn.WellFormed := by
  have hall {P : Nat → Nat → Prop} (h : P base (base + size)) : rgn.table.All P := by
    intro i hi
    obtain rfl : i = 0 := Nat.lt_one_iff.mp (hcnt ▸ hi)
    simpa [LmbRegion.table, h0] using h
  have hroom : rgn.cnt ≤ maxLmbRegions + 1 := by rw [hcnt]; decide
  refine ⟨hroom, ⟨hall (by omega), fun i hi => ?_⟩, hall hend, .inr (hall (by omega))⟩
  have : i + 1 < rgn.cnt := hi
  omega

theorem lmbAddRegion_spec (hwf : rgn.WellFormed) (hsize : 0 < size) (hend : base + size < 2 ^ 32)
    (hcnt : 0 < rgn.cnt) (hfree : rgn.Dummy ∨ rgn.Apart base size) :
    (maxLmbRegions ≤ rgn.cnt ∧ lmbAddRegion rgn base size = some (-1, rgn)) ∨
      ∃ ret rgn', lmbAddRegion rgn base size = some (ret, rgn') ∧ 0 ≤ ret ∧
        rgn.Becomes rgn' (rgn.covered ∪ Set.Ico base (base + size)) := by
  by_cases hd : rgn.Dummy
  · have hcnt' : (rgn.setRegion 0 ⟨base, size⟩).cnt = 1 := hd.1
    have h0 : (rgn.setRegion 0 ⟨base, size⟩).region 0 = ⟨base, size⟩ := by
      simp [LmbRegion.setRegion]
    refine .inr ⟨0, _, if_pos hd, le_rfl, wellFormed_single hcnt' h0 hsize hend, ?_,
      le_max_left _ _⟩
    rw [covered_single hcnt' h0, covered_dummy hd, Set.empty_union]
  · exact addRegion_apart hwf (hwf.proper.resolve_left hd) hsize hend (hfree.resolve_left hd) hcnt

theorem removeLoop_stale (fuel i : Nat) (rgn : LmbRegion) (hcnt : rgn.cnt = 0)
    (hi : i + fuel < 2 ^ 32 - 1) : removeLoop fuel i rgn = none := by
  induction fuel generalizing i rgn with
  | zero => rfl
  | succ fuel ih =>
    have hsub : sub rgn.cnt 1 = 2 ^ 32 - 1 := by simp [hcnt, sub]
    unfold removeLoop
    rw [hsub, if_pos (by omega)]
    split
    · exact ih (i + 1) _ hcnt (by omega)
    · rfl

theorem lmbCoalesceRegions_stale (hcnt : rgn.cnt = 0) : lmbCoalesceRegions rgn 0 1 = none := by
  have hlt : 1 + (maxLmbRegions + 2) < 2 ^ 32 - 1 := by norm_num [maxLmbRegions]
  unfold lmbCoalesceRegions lmbRemoveRegion
  dsimp only
  rw [removeLoop_stale _ 1 (rgn.setRegion 0 _) hcnt hlt]
  rfl

theorem lmbAddRegion_stale (hcnt : rgn.cnt = 0) (base size : Nat) :
    lmbAddRegion rgn base size =
      if lmbRegionsAdjacent rgn 0 1 ≠ 0 then none
      else if base < (rgn.region 0).base then
        some (0, { rgn.setRegion 0 ⟨base, size⟩ with cnt := 1 })
      else some (0, { rgn with cnt := 1 }) := by
  have hsub : 0 < sub 0 1 := by norm_num [sub]
  unfold lmbAddRegion
  simp only [hcnt, findNeighbour, mergeNext, hsub, true_and, zero_add]
  rw [if_neg (by simp)]
  split
  · simp [lmbCoalesceRegions_stale hcnt]
  · simp only [Option.bind_eq_bind, Option.bind_some, ne_eq, not_true_eq_false, if_false, hcnt,
      insertRegion, insertLoop]
    rw [if_neg (by decide)]
    split <;> simp [LmbRegion.setRegion, hcnt, add]

end UBoot.Memory
