import UBoot.Env.HashTableMap

/-!
# Names that begin alike

`hmatch_r` of `lib/hashtable.c`, and the loop that `env_complete` runs on it. The
entries are in the slots `1 .. size`, and `hmatch_r` leaves out the last of them.
-/

namespace UBoot.Env

/-- The slot has an entry whose name begins like that, by `strncmp` over the length of the
beginning. -/
def Slot.Matches (start : CString) (s : Slot) : Prop :=
  0 < s.used ∧ ∃ key, s.entry.key = some key ∧ start.val <+: key.val

instance (start : CString) (s : Slot) : Decidable (s.Matches start) :=
  match hkey : s.entry.key with
  | none => .isFalse fun ⟨_, key, h, _⟩ => by rw [hkey] at h; cases h
  | some key =>
    decidable_of_iff (0 < s.used ∧ start.val <+: key.val)
      ⟨fun h => ⟨h.1, key, hkey, h.2⟩, fun ⟨hused, key', h, hstart⟩ => by
        obtain rfl : key = key' := Option.some.inj (hkey.symm.trans h)
        exact ⟨hused, hstart⟩⟩

/-- The value returned, which is the number of the slot that `*retval` points into, or 0. -/
def hmatchR (start : CString) (lastIdx : Nat) (htab : Htab) : Nat :=
  ((List.range' (lastIdx + 1) (htab.size - (lastIdx + 1))).find? fun idx =>
    decide ((htab.table idx).Matches start)).getD 0

/-- The slots found by calling `hmatch_r` until it returns 0. The index grows with each call. -/
def matchesFrom (start : CString) (htab : Htab) : Nat → Nat → List Nat
  | 0, _ => []
  | fuel + 1, idx =>
    match hmatchR start idx htab with
    | 0 => []
    | next + 1 => (next + 1) :: matchesFrom start htab fuel (next + 1)

def allMatches (start : CString) (htab : Htab) : List Nat :=
  matchesFrom start htab (htab.size + 1) 0

def Enumerates (start : CString) (htab : Htab) : Prop :=
  (allMatches start htab).Nodup ∧
    ∀ i, i ∈ allMatches start htab ↔ i ∈ Finset.Icc 1 htab.size ∧ (htab.table i).Matches start

/-! ## The calls -/

variable {start : CString} {htab : Htab}

theorem hmatchR_of_le (h : htab.size ≤ lastIdx + 1) : hmatchR start lastIdx htab = 0 := by
  rw [hmatchR, Nat.sub_eq_zero_of_le h]
  rfl

theorem hmatchR_of_lt (h : lastIdx + 1 < htab.size) : hmatchR start lastIdx htab =
      if (htab.table (lastIdx + 1)).Matches start then lastIdx + 1
      else hmatchR start (lastIdx + 1) htab := by
  have hrange : htab.size - (lastIdx + 1) = htab.size - (lastIdx + 1 + 1) + 1 := by omega
  rw [hmatchR, hrange, List.range'_succ, List.find?_cons]
  by_cases hmatch : (htab.table (lastIdx + 1)).Matches start
  · simp [hmatch]
  · simp [hmatch, hmatchR]

theorem matchesFrom_eq (hfuel : htab.size ≤ fuel + idx) (hpos : 0 < fuel) :
    matchesFrom start htab fuel idx =
      (List.range' (idx + 1) (htab.size - (idx + 1))).filter fun i =>
        decide ((htab.table i).Matches start) := by
  -- By induction on the number of slots that are left to look at.
  induction hleft : htab.size - (idx + 1) generalizing fuel idx with
  | zero =>
    obtain ⟨fuel, rfl⟩ := Nat.exists_eq_succ_of_ne_zero hpos.ne'
    rw [matchesFrom, hmatchR_of_le (by omega)]
    rfl
  | succ left ih =>
    obtain ⟨fuel, rfl⟩ := Nat.exists_eq_succ_of_ne_zero hpos.ne'
    rw [matchesFrom, hmatchR_of_lt (by omega), List.range'_succ, List.filter_cons]
    by_cases hmatch : (htab.table (idx + 1)).Matches start
    · simp only [hmatch, if_true, decide_true]
      rw [ih (by omega) (by omega) (by omega)]
    · simp only [hmatch, if_false, decide_false, Bool.false_eq_true]
      rw [← ih (by omega) (Nat.succ_pos fuel) (by omega), matchesFrom]

theorem allMatches_eq (start : CString) (htab : Htab) :
    allMatches start htab =
      (List.range' 1 (htab.size - 1)).filter fun i => decide ((htab.table i).Matches start) :=
  matchesFrom_eq (by omega) (by omega)

/-- All entries whose names begin like that are found iff the last slot has none of them. -/
theorem hmatchR_enumerates_iff (start : CString) (htab : Htab) :
    Enumerates start htab ↔ (0 < htab.size → ¬ (htab.table htab.size).Matches start) := by
  have hmem (i : Nat) : i ∈ allMatches start htab ↔
      (1 ≤ i ∧ i < htab.size) ∧ (htab.table i).Matches start := by
    rw [allMatches_eq, List.mem_filter, List.mem_range'_1, decide_eq_true_eq]
    constructor <;> rintro ⟨hi, hmatch⟩ <;> exact ⟨by omega, hmatch⟩
  constructor
  · rintro ⟨-, hall⟩ hpos hmatch
    have := (hmem _).mp ((hall htab.size).mpr ⟨Finset.mem_Icc.mpr ⟨hpos, le_rfl⟩, hmatch⟩)
    omega
  · intro hlast
    refine ⟨?_, fun i => ?_⟩
    · rw [allMatches_eq]
      exact List.Nodup.filter _ List.nodup_range'
    · rw [hmem, Finset.mem_Icc]
      constructor
      · rintro ⟨hi, hmatch⟩
        exact ⟨by omega, hmatch⟩
      · rintro ⟨hi, hmatch⟩
        refine ⟨⟨hi.1, lt_of_le_of_ne hi.2 ?_⟩, hmatch⟩
        rintro rfl
        exact hlast hi.1 hmatch

def fourNames : Htab :=
  ((htabMachine noHooks).run (newTable 5)
    (["c", "d", "h", "i"].map fun name => .enter (.lit name) (.lit "1") 0)).1

theorem hmatchR_misses_last_slot :
    hcreateR 5 none = some (newTable 5) ∧ fourNames.Holds (.lit "i") (.lit "1") ∧
      hmatchR (.lit "i") 0 fourNames = 0 ∧ ¬ Enumerates (.lit "i") fourNames := by
  have hlast : (fourNames.table 5).Matches (.lit "i") := by decide +kernel
  have hnone : allMatches (.lit "i") fourNames = [] := by decide +kernel
  have hslot : 5 ∈ Finset.Icc 1 fourNames.size := by decide +kernel
  refine ⟨by rfl, ⟨5, hslot, ?_⟩, by decide +kernel, ?_⟩
  · decide +kernel
  · rintro ⟨-, hall⟩
    have hfound := (hall 5).mpr ⟨hslot, hlast⟩
    rw [hnone] at hfound
    cases hfound

end UBoot.Env
