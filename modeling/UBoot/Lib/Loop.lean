import UBoot.Lib.Checked

/-!
# Loops that their body ends

A loop whose body either goes on with a new state or stops with a result, and what
it does in terms of a relation that describes its body on a view of the state.
-/

namespace Loop

open Checked

variable {σ τ ρ π ε : Type}

inductive Next (σ ρ : Type)
  | goOn (s : σ)
  | stop (r : ρ)

def Next.map (view : σ → τ) (result : ρ → π) : Next σ ρ → Next τ π
  | .goOn s => .goOn (view s)
  | .stop r => .stop (result r)

def run (step : σ → Except ε (Next σ ρ)) (endless : ε) : Nat → σ → Except ε ρ
  | 0, _ => .error endless
  | fuel + 1, s => do
    match ← step s with
    | .goOn s => run step endless fuel s
    | .stop r => .ok r

inductive Ends (R : τ → Next τ π → Prop) : τ → π → Prop
  | stop {t : τ} {r : π} (h : R t (.stop r)) : Ends R t r
  | goOn {t t' : τ} {r : π} (h : R t (.goOn t')) (rest : Ends R t' r) : Ends R t r

theorem run_eq_ok {step : σ → Except ε (Next σ ρ)} {R : τ → Next τ π → Prop} {view : σ → τ}
    (Inv : σ → Prop) (size : τ → Nat)
    (hstep : ∀ s, Inv s → ∀ x, (step s).map (Next.map view result) = .ok x ↔ R (view s) x)
    (hinv : ∀ s s', Inv s → step s = .ok (.goOn s') → Inv s')
    (hsize : ∀ t t', R t (.goOn t') → size t' < size t) (hs : Inv s) (hfuel : size (view s) < fuel)
    :
    (run step endless fuel s).map result = .ok r ↔ Ends R (view s) r := by
  induction fuel generalizing s with
  | zero => omega
  | succ fuel ih =>
    simp only [run, map_eq_ok, bind_eq_ok]
    constructor
    · rintro ⟨y, ⟨next, hnext, hy⟩, rfl⟩
      have hR := (hstep s hs _).mp (map_eq_ok.mpr ⟨next, hnext, rfl⟩)
      cases next with
      | stop r =>
        cases hy
        exact .stop hR
      | goOn s' =>
        have hlt := hsize _ _ hR
        have hrest := (ih (hinv s s' hs hnext) (by omega)).mp (map_eq_ok.mpr ⟨y, hy, rfl⟩)
        exact .goOn hR hrest
    · intro h
      cases h with
      | stop h =>
        obtain ⟨next, hnext, hmap⟩ := map_eq_ok.mp ((hstep s hs _).mpr h)
        cases next with
        | goOn s' => cases hmap
        | stop r' =>
          cases hmap
          exact ⟨r', ⟨_, hnext, rfl⟩, rfl⟩
      | goOn h rest =>
        have hlt := hsize _ _ h
        obtain ⟨next, hnext, hmap⟩ := map_eq_ok.mp ((hstep s hs _).mpr h)
        cases next with
        | stop r' => cases hmap
        | goOn s' =>
          cases hmap
          obtain ⟨y, hy, hres⟩ := map_eq_ok.mp ((ih (hinv s s' hs hnext) (by omega)).mpr rest)
          exact ⟨y, ⟨_, hnext, hy⟩, hres⟩

end Loop
