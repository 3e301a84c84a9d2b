import Mathlib

/-!
# Updates of a function in turn

What a list of places and values leaves of a function, and which places it
changes.
-/

namespace Updates

variable {α β : Type} [DecidableEq α]

def updates (l : List (α × β)) (m : α → β) : α → β :=
  l.foldl (fun m p => Function.update m p.1 p.2) m

@[simp] theorem updates_nil (m : α → β) : updates [] m = m := rfl

@[simp] theorem updates_cons (p : α × β) (l : List (α × β)) (m : α → β) :
    updates (p :: l) m = updates l (Function.update m p.1 p.2) := rfl

theorem updates_of_not_mem (h : ∀ p ∈ l, p.1 ≠ a) (m : α → β) : updates l m a = m a := by
  induction l generalizing m with
  | nil => rfl
  | cons p l ih =>
    have hhead : a ≠ p.1 := (h p List.mem_cons_self).symm
    rw [updates_cons, ih fun q hq => h q (List.mem_cons_of_mem _ hq), Function.update_of_ne hhead]

theorem updates_of_mem (hnodup : (l.map Prod.fst).Nodup) (hp : p ∈ l) (m : α → β) :
    updates l m p.1 = p.2 := by
  induction l generalizing m with
  | nil => cases hp
  | cons q l ih =>
    rw [List.map_cons, List.nodup_cons] at hnodup
    rw [updates_cons]
    obtain rfl | hp := List.mem_cons.mp hp
    · have hbehind : ∀ q ∈ l, q.1 ≠ p.1 := fun q hq heq =>
        hnodup.1 (heq ▸ List.mem_map_of_mem hq)
      rw [updates_of_not_mem hbehind, Function.update_self]
    · exact ih hnodup.2 hp _

theorem mem_iff_updates [Nontrivial β] (hnodup : (l.map Prod.fst).Nodup) (p : α × β) :
    p ∈ l ↔ ∀ m, updates l m p.1 = p.2 := by
  constructor
  · exact fun hp m => updates_of_mem hnodup hp m
  · intro h
    -- A place without an update keeps a value other than the one asked for.
    by_cases hkey : ∃ q ∈ l, q.1 = p.1
    · obtain ⟨q, hq, hfst⟩ := hkey
      obtain ⟨other, -⟩ := exists_ne p.2
      have hsnd := updates_of_mem hnodup hq fun _ => other
      rw [hfst, h] at hsnd
      rwa [Prod.ext hfst.symm hsnd]
    · obtain ⟨other, hother⟩ := exists_ne p.2
      push Not at hkey
      have hkept := updates_of_not_mem hkey fun _ => other
      rw [h] at hkept
      exact absurd hkept.symm hother

theorem eq_of_updates_eq [LinearOrder α] [Nontrivial β] (hl : (l.map Prod.fst).Pairwise (· < ·))
    (hl' : (l'.map Prod.fst).Pairwise (· < ·)) (h : ∀ m : α → β, updates l m = updates l' m) :
    l = l' := by
  have hmem (p : α × β) : p ∈ l ↔ p ∈ l' := by
    rw [mem_iff_updates (hl.imp fun h => h.ne), mem_iff_updates (hl'.imp fun h => h.ne)]
    simp [h]
  have hnodup {l : List (α × β)} (h : (l.map Prod.fst).Pairwise (· < ·)) : l.Nodup :=
    List.Nodup.of_map _ (h.imp fun h => h.ne)
  have hperm : l.Perm l' := (List.perm_ext_iff_of_nodup (hnodup hl) (hnodup hl')).mpr hmem
  exact hperm.eq_of_pairwise (fun _ _ _ _ hlt hgt => absurd hgt hlt.asymm)
    (List.pairwise_map.mp hl) (List.pairwise_map.mp hl')

end Updates
