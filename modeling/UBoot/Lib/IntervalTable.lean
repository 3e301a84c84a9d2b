import Mathlib

/-!
# Tables of sorted intervals

A table holds half-open intervals `[lo i, hi i)` for `i < cnt`, over any linear order, and is
`Sorted` if each ends before, or where, the next begins.
-/

structure IntervalTable (α : Type) where
  cnt : Nat
  lo : Nat → α
  hi : Nat → α

namespace IntervalTable

variable {α : Type} [LinearOrder α] {t u : IntervalTable α} {a l h : α}

def At (t : IntervalTable α) (i : Nat) (a : α) : Prop := t.lo i ≤ a ∧ a < t.hi i

def covered (t : IntervalTable α) : Set α := {a | ∃ i < t.cnt, t.At i a}

theorem mem_covered : a ∈ t.covered ↔ ∃ i < t.cnt, t.At i a := Iff.rfl

def All (P : α → α → Prop) (t : IntervalTable α) : Prop := ∀ i < t.cnt, P (t.lo i) (t.hi i)

structure Sorted (t : IntervalTable α) : Prop where
  lo_le_hi : t.All (· ≤ ·)
  apart : ∀ i, i + 1 < t.cnt → t.hi i ≤ t.lo (i + 1)

theorem Sorted.hi_le_lo (hs : t.Sorted) (hij : i < j) (hj : j < t.cnt) : t.hi i ≤ t.lo j := by
  induction j with
  | zero => cases hij
  | succ j ih =>
    rcases Nat.lt_succ_iff_lt_or_eq.mp hij with hlt | rfl
    · calc t.hi i ≤ t.lo j := ih hlt (Nat.lt_of_succ_lt hj)
        _ ≤ t.hi j := hs.lo_le_hi j (Nat.lt_of_succ_lt hj)
        _ ≤ t.lo (j + 1) := hs.apart j hj
    · exact hs.apart i hj

theorem Sorted.lo_le_lo (hs : t.Sorted) (hij : i ≤ j) (hj : j < t.cnt) : t.lo i ≤ t.lo j := by
  rcases Nat.lt_or_eq_of_le hij with hlt | rfl
  · exact (hs.lo_le_hi i (hlt.trans hj)).trans (hs.hi_le_lo hlt hj)
  · exact le_rfl

theorem Sorted.unique (hs : t.Sorted) (hi : i < t.cnt) (hj : j < t.cnt) (hai : t.At i a)
    (haj : t.At j a) : i = j := by
  rcases Nat.lt_trichotomy i j with hij | rfl | hji
  · exact absurd (hai.2.trans_le (hs.hi_le_lo hij hj)) haj.1.not_gt
  · rfl
  · exact absurd (haj.2.trans_le (hs.hi_le_lo hji hi)) hai.1.not_gt

def Same (t u : IntervalTable α) : Prop :=
  t.cnt = u.cnt ∧ ∀ i < t.cnt, t.lo i = u.lo i ∧ t.hi i = u.hi i

omit [LinearOrder α] in
theorem Same.all (he : t.Same u) (hu : u.All P) : t.All P := by
  intro i hi
  rw [(he.2 i hi).1, (he.2 i hi).2]
  exact hu i (he.1 ▸ hi)

theorem Same.sorted (he : t.Same u) (hs : u.Sorted) : t.Sorted := by
  refine ⟨he.all hs.lo_le_hi, fun i hi => ?_⟩
  · rw [(he.2 i (Nat.lt_of_succ_lt hi)).2, (he.2 (i + 1) hi).1]
    exact hs.apart i (he.1 ▸ hi)

theorem Same.covered (he : t.Same u) : t.covered = u.covered := by
  ext a
  simp only [mem_covered, At, ← he.1]
  exact exists_congr fun i => and_congr_right fun hi => by rw [(he.2 i hi).1, (he.2 i hi).2]

/-! ## Replacing an interval -/

def set (t : IntervalTable α) (i : Nat) (l h : α) : IntervalTable α :=
  ⟨t.cnt, Function.update t.lo i l, Function.update t.hi i h⟩

theorem set_at_self : (t.set i l h).At i a ↔ l ≤ a ∧ a < h := by simp [At, set]

theorem set_at_ne (hne : j ≠ i) : (t.set i l h).At j a ↔ t.At j a := by
  simp [At, set, Function.update_of_ne hne]

omit [LinearOrder α] in
theorem All.set (ht : t.All P) (hlh : P l h) : (t.set i l h).All P := by
  intro j hj
  by_cases he : j = i
  · subst he
    simpa [IntervalTable.set] using hlh
  · simpa [IntervalTable.set, Function.update_of_ne he] using ht j hj

theorem Sorted.set (hs : t.Sorted) (hlh : l ≤ h) (hprev : ∀ j, j + 1 = i → t.hi j ≤ l)
    (hnext : i + 1 < t.cnt → h ≤ t.lo (i + 1)) : (t.set i l h).Sorted := by
  refine ⟨hs.lo_le_hi.set hlh, fun j hj => ?_⟩
  · have hne : j ≠ j + 1 := (Nat.succ_ne_self j).symm
    by_cases he : j = i
    · subst he
      simpa [IntervalTable.set, Function.update_of_ne hne.symm] using hnext hj
    · by_cases he' : j + 1 = i
      · subst he'
        simpa [IntervalTable.set, Function.update_of_ne hne] using hprev j rfl
      · simpa [IntervalTable.set, Function.update_of_ne he, Function.update_of_ne he'] using
          hs.apart j hj

theorem Sorted.mem_covered_set (hs : t.Sorted) (hi : i < t.cnt) :
    a ∈ (t.set i l h).covered ↔ (l ≤ a ∧ a < h) ∨ (a ∈ t.covered ∧ ¬ t.At i a) := by
  simp only [mem_covered]
  constructor
  · rintro ⟨j, hj, ha⟩
    by_cases he : j = i
    · subst he
      exact .inl (set_at_self.mp ha)
    · have ha := (set_at_ne he).mp ha
      exact .inr ⟨⟨j, hj, ha⟩, fun hai => he (hs.unique hj hi ha hai)⟩
  · rintro (ha | ⟨⟨j, hj, ha⟩, hne⟩)
    · exact ⟨i, hi, set_at_self.mpr ha⟩
    · refine ⟨j, hj, (set_at_ne ?_).mpr ha⟩
      rintro rfl
      exact hne ha

/-! ## Removing an interval -/

def remove (t : IntervalTable α) (r : Nat) : IntervalTable α :=
  ⟨t.cnt - 1, fun i => if i < r then t.lo i else t.lo (i + 1),
    fun i => if i < r then t.hi i else t.hi (i + 1)⟩

theorem remove_at (t : IntervalTable α) (r i : Nat) :
    (t.remove r).At i a ↔ t.At (if i < r then i else i + 1) a := by
  simp only [At, remove]
  split <;> rfl

omit [LinearOrder α] in
theorem All.remove (ht : t.All P) (r : Nat) : (t.remove r).All P := by
  intro i hi
  simp only [IntervalTable.remove] at hi ⊢
  split
  · exact ht i (by omega)
  · exact ht (i + 1) (by omega)

theorem Sorted.remove (hs : t.Sorted) (r : Nat) : (t.remove r).Sorted := by
  refine ⟨hs.lo_le_hi.remove r, fun i hi => ?_⟩
  · simp only [IntervalTable.remove] at hi ⊢
    split_ifs
    · exact hs.apart i (by omega)
    · exact hs.hi_le_lo (by omega) (by omega)
    · omega
    · exact hs.apart (i + 1) (by omega)

theorem Sorted.mem_covered_remove (hs : t.Sorted) (hr : r < t.cnt) :
    a ∈ (t.remove r).covered ↔ a ∈ t.covered ∧ ¬ t.At r a := by
  simp only [mem_covered, remove_at]
  constructor
  · rintro ⟨i, hi, ha⟩
    have hi : i < t.cnt - 1 := hi
    have hlt : (if i < r then i else i + 1) < t.cnt := by split <;> omega
    refine ⟨⟨_, hlt, ha⟩, fun har => ?_⟩
    have := hs.unique hlt hr ha har
    split at this <;> omega
  · rintro ⟨⟨i, hi, ha⟩, hne⟩
    have hir : i ≠ r := by rintro rfl; exact hne ha
    refine ⟨if i < r then i else i - 1, ?_, ?_⟩
    · show _ < t.cnt - 1
      split <;> omega
    · have : (if (if i < r then i else i - 1) < r then (if i < r then i else i - 1)
          else (if i < r then i else i - 1) + 1) = i := by split_ifs <;> omega
      rwa [this]

def merge (t : IntervalTable α) (i : Nat) : IntervalTable α :=
  (t.set i (t.lo i) (t.hi (i + 1))).remove (i + 1)

section
variable (hs : t.Sorted) (hi : i + 1 < t.cnt)
include hs hi

theorem Sorted.lo_le_hi_succ : t.lo i ≤ t.hi (i + 1) :=
  calc t.lo i ≤ t.hi i := hs.lo_le_hi i (Nat.lt_of_succ_lt hi)
    _ ≤ t.lo (i + 1) := hs.apart i hi
    _ ≤ t.hi (i + 1) := hs.lo_le_hi (i + 1) hi

theorem Sorted.merge : (t.merge i).Sorted := by
  -- the two intervals overlap until the second is removed
  refine ⟨(hs.lo_le_hi.set (hs.lo_le_hi_succ hi)).remove _, fun j hj => ?_⟩
  have hj : j + 1 < t.cnt - 1 := hj
  simp only [IntervalTable.merge, IntervalTable.remove, IntervalTable.set, Function.update_apply]
  split_ifs <;> first | omega | skip
  · subst_vars
    exact hs.hi_le_lo (by omega) (by omega)
  · subst_vars
    exact hs.apart j (by omega)
  · exact hs.apart j (by omega)
  · exact hs.apart (j + 1) (by omega)

theorem Sorted.covered_merge (htouch : t.hi i = t.lo (i + 1)) :
    (t.merge i).covered = t.covered := by
  ext a
  simp only [mem_covered, IntervalTable.merge, remove_at]
  constructor
  · rintro ⟨j, hj, ha⟩
    have hj : j < t.cnt - 1 := hj
    split_ifs at ha with hji
    · by_cases he : j = i
      · subst he
        obtain ⟨hlo, hhi⟩ := set_at_self.mp ha
        rcases lt_or_ge a (t.hi j) with hlt | hge
        · exact ⟨j, by omega, hlo, hlt⟩
        · exact ⟨j + 1, hi, htouch ▸ hge, hhi⟩
      · exact ⟨j, by omega, (set_at_ne he).mp ha⟩
    · exact ⟨j + 1, by omega, (set_at_ne (by omega)).mp ha⟩
  · rintro ⟨j, hj, ha⟩
    show ∃ k < t.cnt - 1, _
    rcases Nat.lt_trichotomy j i with hlt | rfl | hgt
    · refine ⟨j, by omega, ?_⟩
      rw [if_pos (by omega)]
      exact (set_at_ne (by omega)).mpr ha
    · refine ⟨j, by omega, ?_⟩
      rw [if_pos (by omega)]
      have hle : t.hi j ≤ t.hi (j + 1) := htouch ▸ hs.lo_le_hi (j + 1) hi
      exact set_at_self.mpr ⟨ha.1, ha.2.trans_le hle⟩
    · by_cases he : j = i + 1
      · subst he
        refine ⟨i, by omega, ?_⟩
        rw [if_pos (by omega)]
        have hle : t.lo i ≤ t.lo (i + 1) := htouch ▸ hs.lo_le_hi i (by omega)
        exact set_at_self.mpr ⟨hle.trans ha.1, ha.2⟩
      · obtain ⟨k, rfl⟩ : ∃ k, j = k + 1 := ⟨j - 1, by omega⟩
        refine ⟨k, by omega, ?_⟩
        rw [if_neg (by omega)]
        exact (set_at_ne (by omega)).mpr ha

end

/-! ## Inserting an interval -/

def insert (t : IntervalTable α) (p : Nat) (l h : α) : IntervalTable α :=
  ⟨t.cnt + 1, fun i => if i < p then t.lo i else if i = p then l else t.lo (i - 1),
    fun i => if i < p then t.hi i else if i = p then h else t.hi (i - 1)⟩

omit [LinearOrder α] in
theorem All.insert (ht : t.All P) (hlh : P l h) (hp : p ≤ t.cnt) : (t.insert p l h).All P := by
  intro i hi
  simp only [IntervalTable.insert] at hi ⊢
  split_ifs
  · exact ht i (by omega)
  · exact hlh
  · exact ht (i - 1) (by omega)

theorem Sorted.insert (hs : t.Sorted) (hlh : l ≤ h) (hprev : ∀ j < p, t.hi j ≤ l)
    (hnext : ∀ j, p ≤ j → j < t.cnt → h ≤ t.lo j) (hp : p ≤ t.cnt) : (t.insert p l h).Sorted := by
  refine ⟨hs.lo_le_hi.insert hlh hp, fun i hi => ?_⟩
  · simp only [IntervalTable.insert] at hi ⊢
    split_ifs with h1 h2 h3 h4 h5 h6
    · exact hs.apart i (by omega)
    · exact hprev i h1
    · omega
    · omega
    · omega
    · exact hnext i (by omega) (by omega)
    · omega
    · omega
    · obtain ⟨k, rfl⟩ : ∃ k, i = k + 1 := ⟨i - 1, by omega⟩
      exact hs.apart k (by omega)

theorem mem_covered_insert (hp : p ≤ t.cnt) :
    a ∈ (t.insert p l h).covered ↔ (l ≤ a ∧ a < h) ∨ a ∈ t.covered := by
  simp only [mem_covered]
  constructor
  · rintro ⟨i, hi, ha⟩
    simp only [insert, At] at hi ha
    split_ifs at ha with h1 h2
    · exact .inr ⟨i, by omega, ha⟩
    · exact .inl ha
    · exact .inr ⟨i - 1, by omega, ha⟩
  · rintro (ha | ⟨i, hi, ha⟩)
    · refine ⟨p, Nat.lt_succ_of_le hp, ?_⟩
      simpa [insert, At] using ha
    · refine ⟨if i < p then i else i + 1, ?_, ?_⟩
      · simp only [insert]
        split <;> omega
      · simp only [insert, At]
        split_ifs with h1 h2 h3
        · exact ha
        · omega
        · omega
        · exact ha

end IntervalTable
