import Mathlib

/-!
# Texts that end with a zero

A text in memory, read byte by byte up to the zero behind it, and the places of what is
left of it.
-/

namespace CString

structure Text where
  bytes : List UInt8
  noZero : 0 ∉ bytes

variable {ε : Type} {s : Text} {c : UInt8} {rest : List UInt8}

def read (fault : ε) (s : Text) (i : Nat) : Except ε UInt8 :=
  if i ≤ s.bytes.length then .ok (s.bytes.getD i 0) else .error fault

def pos (s : Text) (rest : List UInt8) : Nat := s.bytes.length - rest.length

theorem pos_bytes (s : Text) : pos s s.bytes = 0 := Nat.sub_self _

theorem read_pos (fault : ε) (h : rest <:+ s.bytes) :
    read fault s (pos s rest) = .ok (rest.headD 0) := by
  obtain ⟨before, hs⟩ := h
  have hpos : pos s rest = before.length := by
    rw [pos, ← hs, List.length_append, Nat.add_sub_cancel]
  rw [hpos, read, ← hs, if_pos (by simp), List.getD_append_right _ _ _ _ (Nat.le_refl _),
    Nat.sub_self]
  cases rest <;> rfl

theorem pos_cons (h : c :: rest <:+ s.bytes) : pos s (c :: rest) + 1 = pos s rest := by
  have hle := h.length_le
  rw [List.length_cons] at hle
  rw [pos, pos, List.length_cons]
  omega

theorem pos_append (h : front ++ rest <:+ s.bytes) :
    pos s (front ++ rest) + front.length = pos s rest := by
  have hle := h.length_le
  rw [List.length_append] at hle
  rw [pos, pos, List.length_append]
  omega

theorem tail_suffix (h : c :: rest <:+ s.bytes) : rest <:+ s.bytes :=
  (List.suffix_cons c rest).trans h

theorem ne_zero_of_suffix (h : c :: rest <:+ s.bytes) : c ≠ 0 := by
  rintro rfl
  exact s.noZero (h.mem List.mem_cons_self)

end CString
