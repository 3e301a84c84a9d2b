import Mathlib

/-!
# Little-endian numbers

Numbers as fixed-width byte strings, least significant byte first, and fields of
them inside a longer string.
-/

namespace LittleEndian

def le : Nat → Nat → List UInt8
  | 0, _ => []
  | k + 1, n => UInt8.ofNat n :: le k (n / 256)

def leValue : List UInt8 → Nat
  | [] => 0
  | b :: bs => b.toNat + 256 * leValue bs

variable (k n : Nat)

@[simp] theorem length_le : (le k n).length = k := by
  induction k generalizing n with
  | zero => rfl
  | succ k ih => rw [le, List.length_cons, ih]

theorem leValue_le : leValue (le k n) = n % 256 ^ k := by
  induction k generalizing n with
  | zero => rw [le, leValue, pow_zero, Nat.mod_one]
  | succ k ih =>
    have hbyte : (UInt8.ofNat n).toNat = n % 256 := UInt8.toNat_ofNat'
    rw [le, leValue, ih, hbyte, Nat.pow_succ', Nat.mod_mul]

theorem leValue_lt (bs : List UInt8) : leValue bs < 256 ^ bs.length := by
  induction bs with
  | nil => exact Nat.one_pos
  | cons b bs ih =>
    have hb : b.toNat < 256 := b.toNat_lt
    rw [leValue, List.length_cons, Nat.pow_succ']
    omega

theorem le_leValue (bs : List UInt8) : le bs.length (leValue bs) = bs := by
  induction bs with
  | nil => rfl
  | cons b bs ih =>
    have hb : b.toNat < 256 := b.toNat_lt
    have hhead : UInt8.ofNat (b.toNat + 256 * leValue bs) = b := by
      apply UInt8.toNat_inj.mp
      rw [UInt8.toNat_ofNat', Nat.add_mul_mod_self_left, Nat.mod_eq_of_lt hb]
    have htail : (b.toNat + 256 * leValue bs) / 256 = leValue bs := by omega
    rw [List.length_cons, leValue, le, hhead, htail, ih]

def field (bytes : List UInt8) (off k : Nat) : List UInt8 := (bytes.drop off).take k

def u32At (bytes : List UInt8) (off : Nat) : UInt32 := UInt32.ofNat (leValue (field bytes off 4))

def u64At (bytes : List UInt8) (off : Nat) : UInt64 := UInt64.ofNat (leValue (field bytes off 8))

variable {part : List UInt8} (after : List UInt8)

theorem field_append_of_le
    (hoff : part.length ≤ off) :
    field (part ++ after) off k = field after (off - part.length) k := by
  rw [field, List.drop_append, List.drop_eq_nil_of_le hoff, List.nil_append, field]

theorem field_le_append : field (le k n ++ after) 0 k = le k n := by
  rw [field, List.drop_zero, List.take_left' (length_le k n)]

@[simp] theorem u32At_append_of_le
    (hoff : part.length ≤ off) : u32At (part ++ after) off = u32At after (off - part.length) := by
  rw [u32At, field_append_of_le 4 after hoff, u32At]

@[simp] theorem u64At_append_of_le
    (hoff : part.length ≤ off) : u64At (part ++ after) off = u64At after (off - part.length) := by
  rw [u64At, field_append_of_le 8 after hoff, u64At]

@[simp] theorem u32At_le_append (n : UInt32) (after : List UInt8) :
    u32At (le 4 n.toNat ++ after) 0 = n := by
  have hlt : n.toNat < 256 ^ 4 := n.toNat_lt
  rw [u32At, field_le_append, leValue_le, Nat.mod_eq_of_lt hlt, UInt32.ofNat_toNat]

@[simp] theorem u64At_le_append (n : UInt64) (after : List UInt8) :
    u64At (le 8 n.toNat ++ after) 0 = n := by
  have hlt : n.toNat < 256 ^ 8 := n.toNat_lt
  rw [u64At, field_le_append, leValue_le, Nat.mod_eq_of_lt hlt, UInt64.ofNat_toNat]

end LittleEndian
