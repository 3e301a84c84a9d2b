import Mathlib

/-!
# A memory of bytes

What storing bytes and moving a range leave at every address.
-/

namespace ByteMemory

abbrev Memory := Nat → UInt8

def storeBytes : Nat → List UInt8 → Memory → Memory
  | _, [], m => m
  | a, b :: bytes, m => storeBytes (a + 1) bytes (Function.update m a b)

theorem storeBytes_append (a : Nat) (front back : List UInt8) (m : Memory) :
    storeBytes a (front ++ back) m = storeBytes (a + front.length) back (storeBytes a front m) := by
  induction front generalizing a m with
  | nil => rfl
  | cons b front ih =>
    rw [List.cons_append, storeBytes, ih, storeBytes, List.length_cons, Nat.add_assoc, Nat.add_comm 1]

theorem storeBytes_apply (a : Nat) (bytes : List UInt8) (m : Memory) (x : Nat) :
    storeBytes a bytes m x =
      if a ≤ x ∧ x < a + bytes.length then bytes.getD (x - a) 0 else m x := by
  induction bytes generalizing a m with
  | nil =>
    rw [storeBytes, if_neg (by simp)]
  | cons b bytes ih =>
    rw [storeBytes, ih]
    obtain rfl | hne := eq_or_ne x a
    · rw [if_neg (by omega), if_pos (by simp)]
      simp
    · rw [Function.update_of_ne hne]
      by_cases hin : a + 1 ≤ x ∧ x < a + 1 + bytes.length
      · rw [if_pos hin, if_pos (by simp; omega), show x - a = x - (a + 1) + 1 by omega]
        simp
      · rw [if_neg hin, if_neg (by simp; omega)]

def moved (dest src len : Nat) (m : Memory) : Memory :=
  fun a => if dest ≤ a ∧ a < dest + len then m (src + (a - dest)) else m a

@[simp] theorem moved_zero (dest src : Nat) (m : Memory) : moved dest src 0 m = m := by
  funext a
  simp only [moved, Nat.add_zero]
  split
  · omega
  · rfl

theorem moved_moved (h : dest ≤ src ∨ src + t + n ≤ dest) (m : Memory) :
    moved (dest + t) (src + t) n (moved dest src t m) = moved dest src (t + n) m := by
  funext a
  unfold moved
  split_ifs <;> first | omega | rfl | (congr 1; omega)

theorem moved_const (dest src len : Nat) (b : UInt8) :
    moved dest src len (fun _ => b) = fun _ => b := by
  funext a
  simp [moved]

end ByteMemory
