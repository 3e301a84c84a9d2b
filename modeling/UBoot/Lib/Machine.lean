import Mathlib

/-!
# Machines, runs and what a run keeps

A machine takes one input at a time and answers it. `Meets C s is` says that
along the run on `is` every step meets the condition `C`, read in the state
before the step. Statements about every state of a run are statements about
every input list, since a prefix of a run that meets `C` meets `C`.
-/

structure Machine (σ ι ο : Type) where
  step : σ → ι → σ × ο

namespace Machine

variable {σ τ ι ο : Type} {M : Machine σ ι ο} {A : Machine τ ι ο} {C D : σ → ι → Prop}

def run (M : Machine σ ι ο) : σ → List ι → σ × List ο
  | s, [] => (s, [])
  | s, i :: is =>
    let next := M.step s i
    let rest := M.run next.1 is
    (rest.1, next.2 :: rest.2)

def Meets (M : Machine σ ι ο) (C : σ → ι → Prop) : σ → List ι → Prop
  | _, [] => True
  | s, i :: is => C s i ∧ M.Meets C (M.step s i).1 is

instance Meets.decidable (M : Machine σ ι ο) (C : σ → ι → Prop) [∀ s i, Decidable (C s i)] :
    ∀ s is, Decidable (M.Meets C s is)
  | _, [] => .isTrue trivial
  | s, i :: is =>
    have := Meets.decidable M C (M.step s i).1 is
    inferInstanceAs (Decidable (C s i ∧ M.Meets C (M.step s i).1 is))

theorem Meets.mono (h : M.Meets C s is) (hcd : ∀ s i, C s i → D s i) : M.Meets D s is := by
  induction is generalizing s with
  | nil => trivial
  | cons i is ih => exact ⟨hcd _ _ h.1, ih h.2⟩

theorem run_append (s : σ) (is js : List ι) :
    (M.run s (is ++ js)).1 = (M.run (M.run s is).1 js).1 := by
  induction is generalizing s with
  | nil => rfl
  | cons i is ih => exact ih _

theorem answers_append (s : σ) (is js : List ι) :
    (M.run s (is ++ js)).2 = (M.run s is).2 ++ (M.run (M.run s is).1 js).2 := by
  induction is generalizing s with
  | nil => rfl
  | cons i is ih => exact congrArg (_ :: ·) (ih _)

theorem run_replicate {P : Nat → σ → Prop} (i : ι)
    (hstep : ∀ n s, P n s → (M.step s i).2 = f n ∧ P (n + 1) (M.step s i).1) (hs : P 0 s) (n : Nat)
    :
    (M.run s (List.replicate n i)).2 = (List.range n).map f ∧
      P n (M.run s (List.replicate n i)).1 := by
  induction n with
  | zero => exact ⟨rfl, hs⟩
  | succ n ih =>
    obtain ⟨hanswer, hnext⟩ := hstep n _ ih.2
    rw [List.replicate_succ', answers_append, run_append, ih.1, List.range_succ, List.map_append]
    exact ⟨congrArg _ (congrArg (fun o => [o]) hanswer), hnext⟩

theorem meets_append : M.Meets C s (is ++ js) ↔ M.Meets C s is ∧ M.Meets C (M.run s is).1 js := by
  induction is generalizing s with
  | nil => simp [Meets, run]
  | cons i is ih => simp [Meets, run, ih, and_assoc]

theorem meets_congr (h : ∀ s i, C s i ↔ D s i) : M.Meets C s is ↔ M.Meets D s is :=
  ⟨fun hm => hm.mono fun s i => (h s i).mp, fun hm => hm.mono fun s i => (h s i).mpr⟩

theorem meets_iff_answers {P : ο → Prop} {Q : σ → Prop}
    (hlost : ∀ s i, ¬ Q s → ¬ Q (M.step s i).1) (hs : Q s) (is : List ι) :
    M.Meets (fun s i => P (M.step s i).2 ∧ Q (M.step s i).1) s is ↔
      (∀ o ∈ (M.run s is).2, P o) ∧ Q (M.run s is).1 := by
  induction is generalizing s with
  | nil => simp [Meets, run, hs]
  | cons i is ih =>
    by_cases hnext : Q (M.step s i).1
    · simp [Meets, run, ih hnext, hnext, and_assoc]
    · have hend (js : List ι) (t : σ) (ht : ¬ Q t) : ¬ Q (M.run t js).1 := by
        induction js generalizing t with
        | nil => exact ht
        | cons j js ihj => exact ihj _ (hlost t j ht)
      simp [Meets, run, hnext, hend is _ hnext]

theorem invariant {I : σ → Prop} (hstep : ∀ s i, I s → C s i → I (M.step s i).1)
    (hs : I s) (hm : M.Meets C s is) : I (M.run s is).1 := by
  induction is generalizing s with
  | nil => exact hs
  | cons i is ih => exact ih (hstep s i hs hm.1) hm.2

theorem meets_iff_of_invariant {I : σ → Prop} (hiff : ∀ s i, I s → K s i → (C s i ↔ D s i))
    (hinv : ∀ s i, I s → C s i → I (M.step s i).1) (hs : I s) (hk : M.Meets K s is) :
    M.Meets C s is ↔ M.Meets D s is := by
  induction is generalizing s with
  | nil => exact Iff.rfl
  | cons i is ih =>
    have hstep := hiff s i hs hk.1
    constructor
    · rintro ⟨hc, hrest⟩
      exact ⟨hstep.mp hc, (ih (hinv s i hs hc) hk.2).mp hrest⟩
    · rintro ⟨hd, hrest⟩
      exact ⟨hstep.mpr hd, (ih (hinv s i hs (hstep.mpr hd)) hk.2).mpr hrest⟩

theorem simulation {R : σ → τ → Prop}
    (hstep : ∀ s t i, R s t → C s i →
      R (M.step s i).1 (A.step t i).1 ∧ (M.step s i).2 = (A.step t i).2)
    (hs : R s t) (hm : M.Meets C s is) :
    R (M.run s is).1 (A.run t is).1 ∧ (M.run s is).2 = (A.run t is).2 := by
  induction is generalizing s t with
  | nil => exact ⟨hs, rfl⟩
  | cons i is ih =>
    obtain ⟨hr, ho⟩ := hstep s t i hs hm.1
    obtain ⟨hr', ho'⟩ := ih hr hm.2
    exact ⟨hr', by simp [run, ho, ho']⟩

end Machine
