import Mathlib

/-!
# Disks of blocks

A disk is a sequence of blocks of one size. A read of several blocks gives their
bytes one after the other, and a write of as many bytes is read back.
-/

namespace BlockDisk

variable {size : Nat}

abbrev Block (size : Nat) := Vector UInt8 size

abbrev Disk (size : Nat) := Nat → Block size

def blockOf (size : Nat) (buf : List UInt8) : Block size := Vector.ofFn fun i => buf.getD i 0

def read (disk : Disk size) (start : Nat) : Nat → List UInt8
  | 0 => []
  | cnt + 1 => (disk start).toList ++ read disk (start + 1) cnt

def write (disk : Disk size) (start : Nat) : Nat → List UInt8 → Disk size
  | 0, _ => disk
  | cnt + 1, buf =>
    Function.update (write disk (start + 1) cnt (buf.drop size)) start (blockOf size buf)

variable (disk : Disk size)

@[simp] theorem length_read (start cnt : Nat) :
    (read disk start cnt).length = cnt * size := by
  induction cnt generalizing start with
  | zero => simp [read]
  | succ cnt ih => rw [read, List.length_append, ih, Vector.length_toList]; ring

variable (buf : List UInt8)

theorem write_of_outside
    (hb : b < start ∨ start + cnt ≤ b) : write disk start cnt buf b = disk b := by
  induction cnt generalizing start buf with
  | zero => rfl
  | succ cnt ih =>
    rw [write, Function.update_of_ne (by omega)]
    exact ih _ (by omega)

theorem read_eq_read_iff (disk' : Disk size) (start cnt : Nat) :
    read disk start cnt = read disk' start cnt ↔
      ∀ b, start ≤ b → b < start + cnt → disk b = disk' b := by
  induction cnt generalizing start with
  | zero => exact ⟨fun _ b h1 h2 => by omega, fun _ => rfl⟩
  | succ cnt ih =>
    constructor
    · intro h b h1 h2
      obtain ⟨hstart, hrest⟩ := List.append_inj h (by simp)
      obtain rfl | hlt := Nat.eq_or_lt_of_le h1
      · exact Vector.toList_inj.mp hstart
      · exact (ih _).mp hrest b hlt (by omega)
    · intro h
      rw [read, read, h start le_rfl (by omega)]
      exact congrArg _ ((ih _).mpr fun b h1 h2 => h b (by omega) (by omega))

theorem read_write_of_disjoint
    (h : first + n ≤ start ∨ start + cnt ≤ first) :
    read (write disk start cnt buf) first n = read disk first n := by
  rw [read_eq_read_iff]
  intro b h1 h2
  exact write_of_outside disk buf (by omega)

theorem toList_blockOf (hlen : size ≤ buf.length) :
    (blockOf size buf).toList = buf.take size := by
  apply List.ext_getElem
  · simp [hlen]
  · intro i h1 h2
    have hi : i < buf.length := by rw [List.length_take] at h2; omega
    simp [blockOf, List.getElem?_eq_getElem hi]

theorem read_write (start cnt : Nat)
    (hlen : buf.length = cnt * size) : read (write disk start cnt buf) start cnt = buf := by
  induction cnt generalizing start buf with
  | zero => exact (List.eq_nil_of_length_eq_zero (by simpa using hlen)).symm
  | succ cnt ih =>
    have hsize : buf.length = cnt * size + size := by rw [hlen]; ring
    -- the update of the first block is outside the blocks read after it
    have hrest : read (write disk start (cnt + 1) buf) (start + 1) cnt =
        read (write disk (start + 1) cnt (buf.drop size)) (start + 1) cnt := by
      rw [read_eq_read_iff]
      intro b h1 _
      rw [write, Function.update_of_ne (by omega)]
    rw [read, hrest, ih _ _ (by rw [List.length_drop]; omega), write, Function.update_self,
      toList_blockOf buf (by omega), List.take_append_drop]

end BlockDisk
