import UBoot.Env.RoundTrip

/-!
# The size that an export promises

Pass 1 of `hexport_r` counts two bytes too many for each entry, and with `NUL` as separator
not the escapes that pass 2 writes. The selection of entries can be any.
-/

namespace UBoot.Env

def totlen (sep : UInt8) (list : List Pair) : Nat := (list.map (entryRoom sep)).sum

def pass2 (sep : UInt8) (list : List Pair) : List UInt8 := list.flatMap (entryBytes sep) ++ [0]

def Htab.selected (htab : Htab) (flag : Nat) (argv : List CString) : List Pair :=
  htab.pairs.filter (exported flag argv)

def Htab.exportList (htab : Htab) (flag : Nat) (argv : List CString) : List Pair :=
  (qsort cmpkey (htab.selected flag argv).toArray).toList

structure KeepsToSize (htab : Htab) (sep : UInt8) (flag : Nat) (argv : List CString) : Prop where
  counted : (pass2 sep (htab.exportList flag argv)).length ≤ totlen sep (htab.selected flag argv) + 1
  inBounds : ∀ size, hexportR htab sep flag size argv ≠ .error .outOfBounds

theorem hexportR_eq (htab : Htab) (sep : UInt8) (flag size : Nat) (argv : List CString) :
    hexportR htab sep flag size argv =
      let written := pass2 sep (htab.exportList flag argv)
      let room := totlen sep (htab.selected flag argv) + 1
      let buffer := if size ≠ 0 then size else room
      if size ≠ 0 ∧ size < room then .ok none
      else if written.length ≤ buffer then
        .ok (some (written ++ List.replicate (buffer - written.length) 0))
      else .error .outOfBounds := rfl

theorem pass2_length (sep : UInt8) (list : List Pair) :
    (pass2 sep list).length + 2 * list.length =
      totlen sep list + 1 + if sep = 0 then (list.map backslashes).sum else 0 := by
  induction list with
  | nil => simp [pass2, totlen]
  | cons e list ih =>
    have he := entryBytes_length sep e
    simp only [pass2, totlen, List.flatMap_cons, List.length_append, List.length_cons,
      List.map_cons, List.sum_cons] at ih ⊢
    split at ih <;> simp_all <;> omega

theorem pass2_exportList_length (htab : Htab) (sep : UInt8) (flag : Nat) (argv : List CString) :
    (pass2 sep (htab.exportList flag argv)).length =
      (pass2 sep (htab.selected flag argv)).length := by
  have hperm : (htab.exportList flag argv).Perm (htab.selected flag argv) := qsort_perm ..
  exact ((hperm.flatMap_right _).append_right _).length_eq

/-- An export keeps to its size iff `NUL` is not the separator, or there are no more than two
backslashes for each entry. -/
theorem hexportR_keepsToSize_iff (htab : Htab) (sep : UInt8) (flag : Nat) (argv : List CString) :
    KeepsToSize htab sep flag argv ↔
      sep ≠ 0 ∨ ((htab.selected flag argv).map backslashes).sum ≤
        2 * (htab.selected flag argv).length := by
  have hlength := pass2_length sep (htab.selected flag argv)
  have hcounted : (pass2 sep (htab.exportList flag argv)).length ≤
      totlen sep (htab.selected flag argv) + 1 ↔
        sep ≠ 0 ∨ ((htab.selected flag argv).map backslashes).sum ≤
          2 * (htab.selected flag argv).length := by
    rw [pass2_exportList_length]
    by_cases hsep : sep = 0
    · rw [if_pos hsep] at hlength
      simp only [hsep, ne_eq, not_true_eq_false, false_or]
      subst hsep
      omega
    · rw [if_neg hsep] at hlength
      simp only [ne_eq, hsep, not_false_eq_true, true_or, iff_true]
      omega
  rw [← hcounted]
  refine ⟨fun h => h.counted, fun h => ⟨h, fun size hover => ?_⟩⟩
  rw [hexportR_eq] at hover
  dsimp only at hover
  by_cases hsmall : size ≠ 0 ∧ size < totlen sep (htab.selected flag argv) + 1
  · rw [if_pos hsmall] at hover
    cases hover
  · rw [if_neg hsmall, if_pos (by split_ifs <;> omega)] at hover
    cases hover

/-- One entry whose value is three backslashes. -/
theorem hexportR_exceeds_size : ¬ KeepsToSize (oneEntry "\\\\\\") 0 0 [] := by
  intro h
  exact h.inBounds 0 (by decide)

end UBoot.Env
