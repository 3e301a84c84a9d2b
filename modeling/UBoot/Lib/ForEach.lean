import Mathlib

/-!
# Loops over what a cursor visits

`for (x = start; x; x = next(x))` with a body that goes on with a state or leaves
the loop. Finding the next place, and the body, may fail to return; so may the
loop, and a bound on the number of its rounds stands for that.
-/

namespace ForEach

variable {ν σ ρ : Type}

/-- `.inl` is the state when there is no next place, `.inr` what the body left with. -/
def forEach (next : ν → Option (Option ν)) (body : σ → ν → Option (σ ⊕ ρ)) :
    Nat → σ → Option ν → Option (σ ⊕ ρ)
  | _, s, none => some (.inl s)
  | 0, _, some _ => none
  | fuel + 1, s, some x =>
    match body s x with
    | none => none
    | some (.inr r) => some (.inr r)
    | some (.inl s) =>
      match next x with
      | none => none
      | some y => forEach next body fuel s y

/-- The places that a loop from `start` on comes to if nothing makes it leave. -/
inductive Visits (next : ν → Option (Option ν)) (start : Option ν) : ν → Prop
  | head {x} : start = some x → Visits next start x
  | tail {x y} : Visits next start x → next x = some (some y) → Visits next start y

variable {next : ν → Option (Option ν)} {body : σ → ν → Option (σ ⊕ ρ)}

theorem Visits.of_next (hnext : next x = some start) (h : Visits next start y) :
    Visits next (some x) y := by
  induction h with
  | head hstart => exact .tail (.head rfl) (hstart ▸ hnext)
  | tail _ hstep ih => exact .tail ih hstep

theorem visits_some (h : Visits next (some x) y) :
    y = x ∨ ∃ start, next x = some start ∧ Visits next start y := by
  induction h with
  | head hx => exact .inl (Option.some.inj hx).symm
  | tail _ hstep ih =>
    obtain rfl | ⟨start, hnext, hvisits⟩ := ih
    · exact .inr ⟨_, hstep, .head rfl⟩
    · exact .inr ⟨start, hnext, .tail hvisits hstep⟩

theorem not_visits_none : ¬ Visits next none y := by
  intro h
  induction h with
  | head hx => cases hx
  | tail _ _ ih => exact ih

theorem forEach_inr (h : forEach next body fuel s start = some (.inr r)) :
    ∃ x s', Visits next start x ∧ body s' x = some (.inr r) := by
  induction fuel generalizing s start with
  | zero => cases start <;> cases h
  | succ fuel ih =>
    cases start with
    | none => cases h
    | some x =>
      rw [forEach] at h
      split at h
      · cases h
      · rename_i hbody
        cases h
        exact ⟨x, s, .head rfl, hbody⟩
      · split at h
        · cases h
        · rename_i hnext
          obtain ⟨y, s', hvisits, hbody⟩ := ih h
          exact ⟨y, s', hvisits.of_next hnext, hbody⟩

theorem forEach_inl (h : forEach next body fuel s start = some (.inl s')) :
    ∀ x, Visits next start x → ∃ s₁ s₂, body s₁ x = some (.inl s₂) := by
  induction fuel generalizing s start with
  | zero =>
    cases start with
    | none => exact fun x hx => absurd hx not_visits_none
    | some x => cases h
  | succ fuel ih =>
    cases start with
    | none => exact fun x hx => absurd hx not_visits_none
    | some x =>
      rw [forEach] at h
      split at h
      · cases h
      · cases h
      · rename_i s₂ hbody
        split at h
        · cases h
        · rename_i hnext
          intro y hy
          obtain rfl | ⟨start, hstart, hvisits⟩ := visits_some hy
          · exact ⟨s, s₂, hbody⟩
          · rw [hnext] at hstart
            cases hstart
            exact ih h y hvisits

theorem forEach_keeps {P : σ → Prop} (hbody : ∀ s x s', P s → body s x = some (.inl s') → P s')
    (hleave : ∀ s x r, P s → body s x = some (.inr r) → Q r) (hs : P s)
    (h : forEach next body fuel s start = some out) : Sum.elim P Q out := by
  induction fuel generalizing s start with
  | zero =>
    cases start with
    | none =>
      cases h
      exact hs
    | some x => cases h
  | succ fuel ih =>
    cases start with
    | none =>
      cases h
      exact hs
    | some x =>
      rw [forEach] at h
      split at h
      · cases h
      · rename_i r hx
        cases h
        exact hleave s x r hs hx
      · rename_i s₁ hx
        split at h
        · cases h
        · exact ih (hbody s x s₁ hs hx) h

theorem forEach_invariant {P : σ → Prop}
    (hbody : ∀ s x s', P s → body s x = some (.inl s') → P s') (hs : P s)
    (h : forEach next body fuel s start = some (.inl s')) : P s' :=
  forEach_keeps (Q := fun _ => True) hbody (fun _ _ _ _ _ => trivial) hs h

theorem forEach_map (f : σ → σ') (g : ρ → ρ')
    (hbody : ∀ s x, (body s x).map (Sum.map f g) = body' (f s) x) :
    (forEach next body fuel s start).map (Sum.map f g) = forEach next body' fuel (f s) start := by
  induction fuel generalizing s start with
  | zero => cases start <;> rfl
  | succ fuel ih =>
    cases start with
    | none => rfl
    | some x =>
      rw [forEach, forEach, ← hbody]
      cases body s x with
      | none => rfl
      | some out =>
        cases out with
        | inr r => rfl
        | inl s' =>
          simp only [Option.map_some, Sum.map_inl]
          cases next x with
          | none => rfl
          | some y => exact ih

end ForEach
