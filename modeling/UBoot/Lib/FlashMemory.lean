import Mathlib

/-!
# Flash memory

Programming a flash memory clears bits. A byte that is erased, with all bits set,
takes the value programmed, and programming all bits set changes nothing.
-/

namespace FlashMemory

variable {α : Type} [DecidableEq α]

def program (mem : α → UInt8) : List (α × UInt8) → α → UInt8
  | [] => mem
  | (a, d) :: rest => program (Function.update mem a (mem a &&& d)) rest

variable (mem : α → UInt8)

@[simp] theorem program_nil : program mem [] = mem := rfl

variable (xs : List (α × UInt8))

theorem program_append (ys : List (α × UInt8)) :
    program mem (xs ++ ys) = program (program mem xs) ys := by
  induction xs generalizing mem with
  | nil => rfl
  | cons x xs ih => exact ih _

theorem program_of_notMem (ha : a ∉ xs.map Prod.fst) :
    program mem xs a = mem a := by
  induction xs generalizing mem with
  | nil => rfl
  | cons x xs ih =>
    rw [List.map_cons, List.mem_cons, not_or] at ha
    exact (ih _ ha.2).trans (Function.update_of_ne ha.1 _ _)

theorem and_ones (d : UInt8) : d &&& 0xff = d := by
  simp [← UInt8.toNat_inj, UInt8.toNat_and, Nat.and_two_pow_sub_one_of_lt_two_pow (n := 8) d.toNat_lt]

theorem program_ones (hxs : ∀ x ∈ xs, x.2 = 0xff) :
    program mem xs = mem := by
  induction xs with
  | nil => rfl
  | cons x xs ih =>
    obtain ⟨a, d⟩ := x
    obtain rfl : d = 0xff := hxs (a, d) (by simp)
    rw [program, and_ones, Function.update_eq_self]
    exact ih fun x hx => hxs x (List.mem_cons_of_mem _ hx)

theorem map_program (addrs : List α) (data : List UInt8) (hnodup : addrs.Nodup)
    (hlen : addrs.length = data.length) (herased : ∀ a ∈ addrs, mem a = 0xff) :
    addrs.map (program mem (addrs.zip data)) = data := by
  induction addrs generalizing mem data with
  | nil => exact (List.eq_nil_of_length_eq_zero hlen.symm).symm
  | cons a addrs ih =>
    obtain ⟨d, data, rfl⟩ := List.exists_cons_of_length_eq_add_one hlen.symm
    obtain ⟨ha, hnodup⟩ := List.nodup_cons.mp hnodup
    have hlen' : addrs.length = data.length := Nat.succ.inj hlen
    have hkept : a ∉ (addrs.zip data).map Prod.fst := by
      rwa [List.map_fst_zip hlen'.le]
    rw [List.zip_cons_cons, program, List.map_cons]
    refine congrArg₂ List.cons ?_ (ih _ data hnodup hlen' fun a' ha' => ?_)
    · rw [program_of_notMem _ _ hkept, Function.update_self, herased a (by simp), UInt8.and_comm,
        and_ones]
    · have hne : a' ≠ a := fun heq => ha (heq ▸ ha')
      rw [Function.update_of_ne hne]
      exact herased a' (List.mem_cons_of_mem _ ha')

end FlashMemory
