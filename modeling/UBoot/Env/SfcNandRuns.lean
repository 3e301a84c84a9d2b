import UBoot.Env.SfcNandLaws

/-!
# Runs of saves to SFC NAND

Along every run whose saves are `Sound`, each reboot imports the environment
in use or, if it follows a power cut, the one that was being saved, and no byte
outside the two areas changes (`sfcnand_run_keeps_env`). The environment in
use is that of the last save that returned 0, or what was imported since.
-/

namespace UBoot.Env.SfcNand

open Nand (Copy Answer)

variable {δ : Type}

/-- `cut` says after how many operations power is cut, and `reads` how the
reads of the reboot end. -/
inductive Event (δ : Type)
  | save (exported : Option δ) (r : Results) (cut : Option Nat) (reads : Copy → Bool)
  | reboot (reads : Copy → Bool)

def sfcMachine (g : Geometry) : Machine (State δ) (Event δ) (Answer δ) where
  step s
    | .save exported r cut reads =>
      match saveenv g exported r cut s with
      | (some value, s) => (s, .returned value)
      | (none, s) =>
        let (imported, s) := envRelocateSpec reads s
        (s, .booted imported)
    | .reboot reads =>
      let (imported, s) := envRelocateSpec reads s
      (s, .booted imported)

def inUse (current : δ) : Event δ → Answer δ → δ
  | .save (some data) _ _ _, .returned 0 => data
  | _, .booted (some data) => data
  | _, _ => current

def monitor (g : Geometry) : Machine (State δ × δ) (Event δ) (Answer δ) where
  step m e :=
    let (s, answer) := (sfcMachine g).step m.1 e
    ((s, inUse m.2 e answer), answer)

/-- Before the old copy is erased the new one was erased and written; the rest
of a larger sector, once erased, is restored; and a save that ends has touched
the old copy, unless the new one is preferred anyway. Reboots read both copies. -/
def Sound (g : Geometry) (m : State δ × δ) : Event δ → Prop
  | .save none _ _ _ => True
  | .save (some _) r (some n) reads => Covered g r (g.ops.take n) ∧ ∀ copy, reads copy = true
  | .save (some _) r none _ =>
    Covered g r g.ops ∧ (r.eraseOld ≠ .unchanged ∨ r.writeOld ≠ .unchanged ∨
      m.1.envValid = .first ∨ ∃ d, m.1.flash.area m.1.envValid = .image obsoleteFlag d)
  | .reboot reads => ∀ copy, reads copy = true

def Expected (current : δ) (e : Event δ) : Answer δ → Prop
  | .returned _ => True
  | .booted imported =>
    imported = some current ∨
      ∃ data r n reads, e = .save (some data) r (some n) reads ∧ imported = some data

/-! ## One event -/

structure Kept (g : Geometry) (outside : Nat → UInt8) (m : State δ × δ) : Prop where
  chosen : Chosen m.1.flash m.1.envValid m.2
  outside : ∀ i, g.Elsewhere i → m.1.flash.outside i = outside i

section
variable {g : Geometry} {m : State δ × δ}

theorem saveenv_eq (s : State δ) (data : δ) (r : Results) (cut : Option Nat) :
    saveenv g (some data) r cut s =
      match cut with
      | some n => (none, { s with flash := s.during g data r (g.ops.take n) })
      | none => (some 0, ⟨s.during g data r g.ops, s.envValid.other⟩) := by
  simp only [saveenv, runOps_eq, Nand.target_eq]
  cases cut <;> rfl

theorem envRelocateSpec_eq (h : ∀ copy, reads copy = true) (s : State δ) :
    envRelocateSpec reads s = reboot s := by
  rw [reboot, show reads = fun _ => true from funext h]

theorem monitor_step (hg : g.Fits) (hk : Kept g outside m) (hs : Sound g m e) :
    Expected m.2 e ((monitor g).step m e).2 ∧ Kept g outside ((monitor g).step m e).1 := by
  obtain ⟨s, current⟩ := m
  cases e with
  | reboot reads =>
    simp only [monitor, sfcMachine, envRelocateSpec_eq hs, hk.chosen.reboot]
    exact ⟨.inl rfl, hk⟩
  | save exported r cut reads =>
    cases exported with
    | none =>
      simp only [monitor, sfcMachine, saveenv]
      exact ⟨trivial, hk⟩
    | some data =>
      cases cut with
      | none =>
        obtain ⟨hcov, hold⟩ := hs
        have hnew := hcov.new (eraseOld_mem g)
        simp only [monitor, sfcMachine, saveenv_eq]
        refine ⟨trivial, during_ops_chosen hg hk.chosen hnew.1 hnew.2 hold, fun i hi => ?_⟩
        rw [← g.ops.take_length] at hcov
        have hout := during_outside s data hg hi hcov
        rw [List.take_length] at hout
        exact hout.trans (hk.outside i hi)
      | some n =>
        obtain ⟨hcov, hreads⟩ := hs
        obtain ⟨copy, d, hc, hd⟩ := during_chosen data hg hk.chosen hcov.new
        have hboot := Chosen.reboot (s := { s with flash := s.during g data r (g.ops.take n) }) hc
        simp only [monitor, sfcMachine, saveenv_eq, envRelocateSpec_eq hreads, hboot]
        refine ⟨?_, hc, fun i hi => (during_outside s data hg hi hcov).trans (hk.outside i hi)⟩
        rcases hd with rfl | rfl
        · exact .inl rfl
        · exact .inr ⟨_, _, _, _, rfl, rfl⟩

end

/-! ## Runs -/

theorem run_kept (hg : g.Fits) (hk : Kept g outside m) (hs : (monitor g).Meets (Sound g) m es) :
    Kept g outside ((monitor g).run m es).1 :=
  Machine.invariant (fun _ _ hk hs => (monitor_step hg hk hs).2) hk hs

/-- From any state a reboot can load, along every run of sound events, each
reboot imports what it should and the bytes outside the areas stay. -/
theorem sfcnand_run_keeps_env (g : Geometry) (hg : g.Fits) (s : State δ) (current : δ)
    (hload : (reboot s).1 = some current) (es : List (Event δ))
    (hs : (monitor g).Meets (Sound g) ((reboot s).2, current) es) :
    (∀ before e after, es = before ++ e :: after →
      let m := ((monitor g).run ((reboot s).2, current) before).1
      Expected m.2 e ((monitor g).step m e).2) ∧
    ∀ i, g.Elsewhere i →
      ((monitor g).run ((reboot s).2, current) es).1.1.flash.outside i = s.flash.outside i := by
  have hflash : (reboot s).2.flash = s.flash := reboot_flash s
  have hk : Kept g s.flash.outside ((reboot s).2, current) :=
    ⟨chosen_of_reboot hload, fun i _ => by rw [hflash]⟩
  refine ⟨?_, (run_kept hg hk hs).outside⟩
  rintro before e after rfl
  obtain ⟨hbefore, hafter⟩ := Machine.meets_append.mp hs
  exact (monitor_step hg (run_kept hg hk hbefore) hafter.1).1

def adjacent (envSize sectSize : Nat) : Geometry :=
  ⟨fun copy => if copy = .first then 0 else envSize, envSize, sectSize, sectSize⟩

def firstInUse : State Nat :=
  ⟨⟨fun copy => if copy = .first then .image activeFlag 1 else .garbage, fun _ => 0⟩, .first⟩

def allOk : Results := ⟨none, .ok, .ok, .ok, true, .ok, .ok⟩

theorem adjacent_fits : (adjacent 4 4).Fits where
  block_pos := by decide
  offset := by rintro ⟨⟩ <;> decide
  env := by decide
  env_pos := by decide
  sect := by decide
  le := by decide
  apart := by rintro ⟨⟩ <;> decide

theorem sfcnand_run_keeps_env_adjacent :
    let es : List (Event Nat) := [.save (some 2) allOk none fun _ => true,
      .save (some 3) { allOk with writeNew := .unchanged } (some 2) fun _ => true,
      .reboot fun _ => true]
    (reboot firstInUse).1 = some 1 ∧
    (∀ before e after, es = before ++ e :: after →
      let m := ((monitor (adjacent 4 4)).run ((reboot firstInUse).2, 1) before).1
      Expected m.2 e ((monitor (adjacent 4 4)).step m e).2) ∧
    ∀ i, (adjacent 4 4).Elsewhere i →
      ((monitor (adjacent 4 4)).run ((reboot firstInUse).2, 1) es).1.1.flash.outside i = 0 := by
  have hrest : ¬ (adjacent 4 4).HasRest := by decide
  refine ⟨by decide, sfcnand_run_keeps_env (adjacent 4 4) adjacent_fits firstInUse 1 (by decide) _
    ⟨⟨⟨fun _ => ⟨rfl, rfl⟩, fun h => absurd h hrest⟩, .inl nofun⟩,
      ⟨⟨fun h => absurd h (by decide), fun h => absurd h hrest⟩, fun _ => rfl⟩, fun _ => rfl, trivial⟩⟩

/-- The write of the new copy and of the old one fail, or, with nothing failing
but an environment of two sectors, the erase of the old copy reaches the new
one. Both saves return 0. -/
theorem sfcnand_save_loses_env :
    let failing : Results := { allOk with writeNew := .spoiled fun _ => 0, writeOld := .spoiled fun _ => 0 }
    ((monitor (adjacent 4 4)).run ((reboot firstInUse).2, 1)
      [.save (some 2) failing none fun _ => true, .reboot fun _ => true]).2 =
        [.returned 0, .booted none] ∧
    ((monitor (adjacent 4 2)).run ((reboot firstInUse).2, 1)
      [.save (some 2) allOk none fun _ => true, .reboot fun _ => true]).2 =
        [.returned 0, .booted (some 1)] ∧
    ¬ Expected 2 (.reboot fun _ => true) (.booted none) ∧
    ¬ Expected 2 (.reboot fun _ => true) (.booted (some 1)) := by
  refine ⟨by decide, by decide, ?_, ?_⟩
  · simp [Expected]
  · simp [Expected]

end UBoot.Env.SfcNand
