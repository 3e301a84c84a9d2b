import Mathlib

/-!
# Sequences as runs

A run is a number of equal elements. `expand` writes the elements out.
-/

namespace RunLength

variable {α : Type}

abbrev Run (α : Type) := Nat × α

def expand (runs : List (Run α)) : List α := runs.flatMap fun run => List.replicate run.1 run.2

@[simp] theorem expand_nil : expand ([] : List (Run α)) = [] := rfl

@[simp] theorem expand_cons (run : Run α) (runs : List (Run α)) :
    expand (run :: runs) = List.replicate run.1 run.2 ++ expand runs := rfl

@[simp] theorem expand_append (runs more : List (Run α)) :
    expand (runs ++ more) = expand runs ++ expand more := List.flatMap_append

theorem expand_flatMap (f : β → List (Run α)) (l : List β) :
    expand (l.flatMap f) = l.flatMap fun b => expand (f b) := List.flatMap_assoc

theorem expand_replicate (n : Nat) (run : Run α) :
    expand (List.replicate n run) = List.replicate (n * run.1) run.2 := by
  induction n with
  | zero => simp
  | succ n ih =>
    rw [List.replicate_succ, expand_cons, ih, ← List.replicate_add, Nat.succ_mul, Nat.add_comm]

def Positive (runs : List (Run α)) : Prop := ∀ run ∈ runs, 0 < run.1

theorem expand_ne_nil (h : expand runs ≠ []) :
    ∃ run rest, runs = run :: rest := by
  cases runs with
  | nil => exact absurd rfl h
  | cons run rest => exact ⟨run, rest, rfl⟩

end RunLength
