import Mathlib

/-!
# The size of the memory

`get_ram_size` of `common/memsize.c` writes to offsets that are powers of two and looks where
the writes meet. The memory has `words` words of 32 bits and repeats from `base` on. The array
`save` is the stack of its entries below `i`, and an access behind its 32 entries has no outcome.
-/

namespace UBoot.Memory.RamSize

open Function

abbrev Ram := Nat → BitVec 32

def load (words : Nat) (mem : Ram) (addr : Nat) : BitVec 32 := mem (addr % words)

def store (words : Nat) (mem : Ram) (addr : Nat) (val : BitVec 32) : Ram :=
  update mem (addr % words) val

/-- The value `~cnt`. -/
def pattern (cnt : Nat) : BitVec 32 := ~~~ BitVec.ofNat 32 cnt

/-- The first argument counts the entries of `save` that are left. -/
def saveLoop (words : Nat) :
    Nat → Nat → Ram → List (BitVec 32) → Option (Ram × List (BitVec 32))
  | 0, cnt, mem, save => if 0 < cnt then none else some (mem, save)
  | left + 1, cnt, mem, save =>
    if 0 < cnt then
      saveLoop words left (cnt >>> 1) (store words mem cnt (pattern cnt))
        (load words mem cnt :: save)
    else some (mem, save)

def restoreLoop (words limit : Nat) : List (BitVec 32) → Nat → Ram → Option Ram
  | [], cnt, mem => if cnt < limit then none else some mem
  | val :: save, cnt, mem =>
    if cnt < limit then restoreLoop words limit save (cnt <<< 1) (store words mem cnt val)
    else some mem

def checkLoop (words limit maxsize : Nat) :
    List (BitVec 32) → Nat → Ram → Option (Nat × Ram)
  | [], cnt, mem => if cnt < limit then none else some (maxsize, mem)
  | val :: save, cnt, mem =>
    if cnt < limit then
      let mem' := store words mem cnt val
      if load words mem cnt ≠ pattern cnt then
        (restoreLoop words limit save (cnt <<< 1) mem').map (cnt * 4, ·)
      else checkLoop words limit maxsize save (cnt <<< 1) mem'
    else some (maxsize, mem)

/-- The size returned, and the memory afterwards. -/
def getRamSize (words maxsize : Nat) (mem : Ram) : Option (Nat × Ram) := do
  let limit := maxsize / 4
  let (mem, save) ← saveLoop words 32 (limit >>> 1) mem []
  if save.length < 32 then
    let mem' := store words mem 0 0
    if load words mem' 0 ≠ 0 then
      (restoreLoop words limit save 1 (store words mem' 0 (load words mem 0))).map (0, ·)
    else checkLoop words limit maxsize save 1 mem'
  else none

/-- The probes at the powers of two from `2 ^ i` up to below `2 ^ k` have been made. -/
inductive Probed (words : Nat) (start : Ram) (k : Nat) : Nat → Ram → List (BitVec 32) → Prop
  | start : Probed words start k k start []
  | probe : Probed words start k (i + 1) mem save →
      Probed words start k i (store words mem (2 ^ i) (pattern (2 ^ i)))
        (load words mem (2 ^ i) :: save)

variable {words : Nat} {start mem : Ram} {save : List (BitVec 32)}

theorem Probed.length_eq (h : Probed words start k i mem save) : save.length + i = k := by
  induction h with
  | start => exact Nat.zero_add k
  | probe h ih => rw [List.length_cons, Nat.add_assoc, Nat.add_comm 1, ih]

theorem Probed.lt (h : Probed words start k (i + 1) mem save) : 2 ^ i < 2 ^ k := by
  have hlen := h.length_eq
  exact Nat.pow_lt_pow_right (by decide) (by omega)

theorem saveLoop_probed (h : Probed words start k i mem save) (hleft : i ≤ left) :
    ∃ mem' save', saveLoop words left (2 ^ i >>> 1) mem save = some (mem', save') ∧
      Probed words start k 0 mem' save' := by
  induction i generalizing left mem save with
  | zero => cases left <;> exact ⟨mem, save, rfl, h⟩
  | succ i ih =>
    obtain ⟨left, rfl⟩ := Nat.exists_eq_succ_of_ne_zero (Nat.ne_zero_of_lt hleft)
    have hhalf : 2 ^ (i + 1) >>> 1 = 2 ^ i := by
      rw [Nat.shiftRight_one, pow_succ, Nat.mul_div_cancel _ (by decide)]
    rw [saveLoop, hhalf, if_pos (Nat.two_pow_pos i)]
    exact ih h.probe (Nat.le_of_succ_le_succ hleft)

/-- The last value saved is the first restored, so that it does not matter where the probes
meet. -/
theorem restoreLoop_probed (h : Probed words start k i mem save) :
    restoreLoop words (2 ^ k) save (2 ^ i) mem = some start := by
  induction h with
  | start => rw [restoreLoop, if_neg (Nat.lt_irrefl _)]
  | @probe i mem save h ih =>
    have hback : store words (store words mem (2 ^ i) (pattern (2 ^ i))) (2 ^ i)
        (load words mem (2 ^ i)) = mem := by
      simp [store, load]
    rw [restoreLoop, if_pos h.lt, hback, Nat.shiftLeft_eq, ← pow_succ]
    exact ih

theorem pattern_ne_zero (i : Nat) : pattern (2 ^ i) ≠ 0 := by
  intro h
  have hfirst := congrArg (BitVec.getLsbD · 0) h
  have hsecond := congrArg (BitVec.getLsbD · 1) h
  simp only [pattern, BitVec.getLsbD_not, BitVec.getLsbD_ofNat,
    Nat.testBit_two_pow] at hfirst hsecond
  simp_all

/-- Restoring the value at an address when the word at the start has been cleared. -/
theorem store_cleared (words : Nat) (mem : Ram) (addr : Nat) (val : BitVec 32) :
    store words (update (store words mem addr val) 0 0) addr (load words mem addr) =
      if addr % words = 0 then mem else update mem 0 0 := by
  unfold store load
  split
  · next hmeet => simp [hmeet]
  · next hmeet =>
    rw [update_comm hmeet, update_idem, update_comm (Ne.symm hmeet), update_eq_self]

theorem checkLoop_probed (h : Probed (2 ^ j) start k i mem save) (hj : j ≤ k) (hi : i ≤ j) :
    checkLoop (2 ^ j) (2 ^ k) (2 ^ k * 4) save (2 ^ i) (update mem 0 0) =
      some (2 ^ j * 4, if j < k then start else update start 0 0) := by
  induction h with
  | start =>
    obtain rfl := Nat.le_antisymm hj hi
    rw [checkLoop, if_neg (Nat.lt_irrefl _), if_neg (Nat.lt_irrefl _)]
  | @probe i mem save h ih =>
    have hlen := h.length_eq
    rw [checkLoop, if_pos h.lt, store_cleared, Nat.shiftLeft_eq, ← pow_succ]
    by_cases hlast : i = j
    · -- The probe meets the word at the start, which is zero.
      subst hlast
      have hzero : load (2 ^ i) (update (store (2 ^ i) mem (2 ^ i) (pattern (2 ^ i))) 0 0)
          (2 ^ i) ≠ pattern (2 ^ i) := by
        simpa [load] using (pattern_ne_zero i).symm
      rw [if_pos hzero, Nat.mod_self, if_pos rfl, restoreLoop_probed h, if_pos (by omega)]
      rfl
    · have hcell : 2 ^ i % 2 ^ j = 2 ^ i :=
        Nat.mod_eq_of_lt (Nat.pow_lt_pow_right (by decide) (by omega))
      rw [hcell, if_neg (Nat.two_pow_pos i).ne']
      exact (if_neg (by simp [load, store, hcell])).trans (ih (by omega))

/-- The size is always right. The word at the start comes back only where a probe meets it, or
where it was zero. -/
theorem getRamSize_restores_iff (j k : Nat) (mem : Ram) (hj : j ≤ k)
    (hlong : 2 ^ (k + 2) < 2 ^ 31) :
    ∃ mem', getRamSize (2 ^ j) (2 ^ (k + 2)) mem = some (2 ^ (j + 2), mem') ∧
      ((∀ addr, mem' addr = mem addr) ↔ 2 ^ j < 2 ^ k ∨ mem 0 = 0) := by
  have hk : k + 2 < 31 := (Nat.pow_lt_pow_iff_right Nat.one_lt_two).mp hlong
  obtain ⟨mem', save, hsave, hprobed⟩ :=
    saveLoop_probed (.start : Probed (2 ^ j) mem k k mem []) (show k ≤ 32 by omega)
  have hlen := hprobed.length_eq
  have hcheck := checkLoop_probed hprobed hj (Nat.zero_le j)
  refine ⟨if j < k then mem else update mem 0 0, ?_, ?_⟩
  · have hfour (n : Nat) : 2 ^ (n + 2) = 2 ^ n * 4 := pow_add 2 n 2
    rw [getRamSize, hfour, hfour, Nat.mul_div_cancel _ (by decide), hsave]
    simp only [Option.bind_eq_bind, Option.bind_some, if_pos (show save.length < 32 by omega)]
    exact (if_neg (by simp [load, store])).trans hcheck
  · rw [Nat.pow_lt_pow_iff_right (by decide)]
    split
    · next hlt => exact iff_of_true (fun _ => rfl) (.inl hlt)
    · next hge =>
      rw [or_iff_right hge]
      constructor
      · intro h
        exact (h 0).symm.trans (update_self ..)
      · intro hzero addr
        rw [← hzero, update_eq_self]

/-- Sixteen bytes of memory where there could be thirty-two. -/
theorem getRamSize_restores_mirrored :
    ∃ mem', getRamSize 4 32 (fun _ => 5) = some (16, mem') ∧ ∀ addr, mem' addr = 5 := by
  obtain ⟨mem', hsize, hiff⟩ := getRamSize_restores_iff 2 3 (fun _ => 5) (by decide) (by decide)
  exact ⟨mem', hsize, hiff.mpr (.inl (by decide))⟩

theorem getRamSize_clears_first :
    (getRamSize 2 8 (fun _ => 5)).map (fun (size, mem) => (size, mem 0, mem 1)) =
      some (8, 0, 5) := by
  decide

end UBoot.Memory.RamSize
