import UBoot.Lib.Machine

/-!
# The redundant environment in NAND

`saveenv` and `env_relocate_spec` of `common/env_nand.c` with `CONFIG_ENV_OFFSET_REDUND`. Each
copy in flash is invalid or holds exported data with the 8-bit serial number in its `flags`.
An erase or a write may fail, and power may be cut, which is followed by a reboot. `saveenv`
increments `env_flags` first, so that saves that fail use up serial numbers.
-/

namespace UBoot.Env.Nand

open Function

/-- The value of `gd->env_valid`: which copy is in use. -/
inductive Copy
  | first | second
  deriving DecidableEq

def Copy.other : Copy → Copy
  | .first => .second
  | .second => .first

@[simp] theorem Copy.other_other (copy : Copy) : copy.other.other = copy := by cases copy <;> rfl

structure Image (δ : Type) where
  flags : UInt8
  data : δ
  deriving DecidableEq

/-- The flash, and what is lost at a reboot: `env_valid` and `env_flags`. -/
structure State (δ : Type) where
  flash : Copy → Option (Image δ)
  envValid : Copy
  envFlags : UInt8

/-- How an erase ends. `spoiled` says whether the copy was damaged by it. -/
inductive Erase
  | done
  | failed (spoiled : Bool)
  | cut (spoiled : Bool)
  deriving DecidableEq

/-- How a write ends; `cutAfter` is a power cut once everything is written. -/
inductive Write
  | done | failed | cut | cutAfter
  deriving DecidableEq

variable {δ : Type}

def State.put (s : State δ) (copy : Copy) (image : Option (Image δ)) : State δ :=
  { s with flash := Function.update s.flash copy image }

/-- The return value, `none` if power was cut. `exported` is the environment as
`hexport_r` writes it, if it does. -/
def saveenv (range size : Nat) (exported : Option δ) (erase : Erase) (write : Write) (s : State δ) :
    Option Nat × State δ :=
  if range < size then (some 1, s)
  else
    match exported with
    | none => (some 1, s)
    | some data =>
      let s := { s with envFlags := s.envFlags + 1 }
      let envNew : Image δ := ⟨s.envFlags, data⟩
      let target : Copy := if s.envValid = .first then .second else .first
      match erase with
      | .failed spoiled => (some 1, if spoiled then s.put target none else s)
      | .cut spoiled => (none, if spoiled then s.put target none else s)
      | .done =>
        let s := s.put target none
        match write with
        | .failed => (some 1, s)
        | .cut => (none, s)
        | .cutAfter => (none, s.put target (some envNew))
        | .done =>
          (some 0, { s.put target (some envNew) with
            envValid := if s.envValid = .second then .first else .second })

def checkSerial (flags1 flags2 : UInt8) : Copy :=
  if flags1 = 255 ∧ flags2 = 0 then .second
  else if flags2 = 255 ∧ flags1 = 0 then .first
  else if flags1 > flags2 then .first
  else if flags2 > flags1 then .second
  else .first

/-- A reboot: the data imported, or `none` for the default environment. -/
def envRelocateSpec (s : State δ) : Option δ × State δ :=
  let load (copy : Copy) (image : Image δ) : Option δ × State δ :=
    (some image.data, { s with envValid := copy, envFlags := image.flags })
  match s.flash .first, s.flash .second with
  | none, none => (none, { s with envValid := .first, envFlags := 0 })
  | some image, none => load .first image
  | none, some image => load .second image
  | some image1, some image2 =>
    match checkSerial image1.flags image2.flags with
    | .first => load .first image1
    | .second => load .second image2

/-! ## Runs, and what they are for -/

inductive Event (δ : Type)
  | save (exported : Option δ) (erase : Erase) (write : Write)
  | reboot

inductive Answer (δ : Type)
  | returned (value : Nat)
  | booted (imported : Option δ)
  deriving DecidableEq

def nandMachine (range size : Nat) : Machine (State δ) (Event δ) (Answer δ) where
  step s
    | .save exported erase write =>
      match saveenv range size exported erase write s with
      | (some value, s) => (s, .returned value)
      | (none, s) =>
        let (imported, s) := envRelocateSpec s
        (s, .booted imported)
    | .reboot =>
      let (imported, s) := envRelocateSpec s
      (s, .booted imported)

/-- One value, the data of the latest save, which every reboot imports. A save
counts once it is written, also when power is cut before it can return. -/
def latestMachine (range size : Nat) : Machine δ (Event δ) (Answer δ) where
  step latest
    | .save exported erase write =>
      if range < size then (latest, .returned 1)
      else
        match exported, erase, write with
        | none, _, _ => (latest, .returned 1)
        | some _, .failed _, _ => (latest, .returned 1)
        | some _, .cut _, _ => (latest, .booted (some latest))
        | some _, .done, .failed => (latest, .returned 1)
        | some _, .done, .cut => (latest, .booted (some latest))
        | some data, .done, .cutAfter => (data, .booted (some data))
        | some data, .done, .done => (data, .returned 0)
    | .reboot => (latest, .booted (some latest))

/-- Serial number `new`, written beside `old` in the copy in use, is preferred
at a reboot. Equal numbers prefer the first copy. -/
def Newer (inUse : Copy) (old new : UInt8) : Prop :=
  old = 255 ∧ new = 0 ∨ old < new ∧ ¬ (old = 0 ∧ new = 255) ∨ new = old ∧ inUse = .second

instance : Decidable (Newer inUse old new) := by unfold Newer; infer_instance

def Fresh (s : State δ) : Event δ → Prop
  | .save (some _) .done .done | .save (some _) .done .cutAfter =>
    ∀ image, s.flash s.envValid = some image → Newer s.envValid image.flags (s.envFlags + 1)
  | _ => True

/-! ## The copy a reboot chooses -/

theorem checkSerial_second : checkSerial flags1 flags2 = .second ↔ Newer .first flags1 flags2 := by
  unfold checkSerial Newer
  simp only [UInt8.lt_iff_toNat_lt, ← UInt8.toNat_inj, gt_iff_lt]
  split_ifs <;> simp_all <;> omega

theorem checkSerial_first : checkSerial flags1 flags2 = .first ↔ Newer .second flags2 flags1 := by
  unfold checkSerial Newer
  simp only [UInt8.lt_iff_toNat_lt, ← UInt8.toNat_inj, gt_iff_lt]
  split_ifs <;> simp_all <;> omega

def Chosen (flash : Copy → Option (Image δ)) (copy : Copy) (image : Image δ) : Prop :=
  flash copy = some image ∧
    ∀ old, flash copy.other = some old → Newer copy.other old.flags image.flags

theorem envRelocateSpec_chosen (h : Chosen s.flash copy image) :
    envRelocateSpec s = (some image.data, { s with envValid := copy, envFlags := image.flags }) := by
  obtain ⟨hcopy, hold⟩ := h
  cases copy with
  | first =>
    cases hother : s.flash .second with
    | none => simp [envRelocateSpec, hcopy, hother]
    | some old =>
      have hnew := checkSerial_first.mpr (hold old hother)
      simp [envRelocateSpec, hcopy, hother, hnew]
  | second =>
    cases hother : s.flash .first with
    | none => simp [envRelocateSpec, hcopy, hother]
    | some old =>
      have hnew := checkSerial_second.mpr (hold old hother)
      simp [envRelocateSpec, hcopy, hother, hnew]

theorem Chosen.erase_other (h : Chosen flash copy image) :
    Chosen (δ := δ) (Function.update flash copy.other none) copy image := by
  refine ⟨?_, fun old ho => by simp at ho⟩
  rw [update_of_ne (by cases copy <;> decide)]
  exact h.1

theorem Chosen.write_other (h : Chosen flash copy image) (hnew : Newer copy image.flags new.flags) :
    Chosen (δ := δ) (Function.update flash copy.other (some new)) copy.other new := by
  refine ⟨update_self .., fun old ho => ?_⟩
  rw [Copy.other_other, update_of_ne (by cases copy <;> decide), h.1] at ho
  cases ho
  rw [Copy.other_other]
  exact hnew

def Holds (s : State δ) (latest : δ) : Prop := ∃ flags, Chosen s.flash s.envValid ⟨flags, latest⟩

theorem Holds.reboot (h : Holds s latest) :
    (envRelocateSpec s).1 = some latest ∧ Holds (envRelocateSpec s).2 latest := by
  obtain ⟨flags, hc⟩ := h
  rw [envRelocateSpec_chosen hc]
  exact ⟨rfl, flags, hc⟩

/-! ## Runs -/

theorem target_eq (copy : Copy) :
    (if copy = .first then .second else .first : Copy) = copy.other ∧
      (if copy = .second then .first else .second : Copy) = copy.other := by
  cases copy <;> decide

theorem nandMachine_step (range size : Nat) (h : Holds s latest) (hf : Fresh s e) :
    Holds ((nandMachine range size).step s e).1 ((latestMachine range size).step latest e).1 ∧
      ((nandMachine range size).step s e).2 = ((latestMachine range size).step latest e).2 := by
  have hcount (n : UInt8) : Holds { s with envFlags := n } latest := h
  have herase (n : UInt8) : Holds ({ s with envFlags := n }.put s.envValid.other none) latest := by
    obtain ⟨flags, hc⟩ := h
    exact ⟨flags, hc.erase_other⟩
  cases e with
  | reboot => exact ⟨h.reboot.2, congrArg Answer.booted h.reboot.1⟩
  | save exported erase write =>
    simp only [nandMachine, latestMachine, saveenv, target_eq]
    by_cases hr : range < size
    · simp only [hr, ↓reduceIte]
      exact ⟨h, trivial⟩
    simp only [hr, ↓reduceIte]
    cases exported with
    | none => exact ⟨h, rfl⟩
    | some data =>
      cases erase with
      | failed spoiled =>
        cases spoiled with
        | false => exact ⟨hcount _, rfl⟩
        | true => exact ⟨herase _, rfl⟩
      | cut spoiled =>
        cases spoiled with
        | false => exact ⟨(hcount _).reboot.2, congrArg Answer.booted (hcount _).reboot.1⟩
        | true => exact ⟨(herase _).reboot.2, congrArg Answer.booted (herase _).reboot.1⟩
      | done =>
        have hnew (hn : ∀ image, s.flash s.envValid = some image →
            Newer s.envValid image.flags (s.envFlags + 1)) :
            Chosen (update (update s.flash s.envValid.other none)
              s.envValid.other (some ⟨s.envFlags + 1, data⟩)) s.envValid.other
              ⟨s.envFlags + 1, data⟩ := by
          obtain ⟨flags, hc⟩ := h
          rw [update_idem]
          exact hc.write_other (hn _ hc.1)
        cases write with
        | failed => exact ⟨herase _, rfl⟩
        | cut => exact ⟨(herase _).reboot.2, congrArg Answer.booted (herase _).reboot.1⟩
        | done => exact ⟨⟨_, hnew hf⟩, rfl⟩
        | cutAfter =>
          -- the reboot goes over to the copy just written
          have hboot := envRelocateSpec_chosen (hnew hf)
            (s := { s with envFlags := s.envFlags + 1 }.put s.envValid.other none
              |>.put s.envValid.other (some ⟨s.envFlags + 1, data⟩))
          simp only [hboot]
          exact ⟨⟨_, hnew hf⟩, trivial⟩

theorem run_holds (range size : Nat) (h : Holds s latest)
    (hf : (nandMachine range size).Meets Fresh s es) :
    Holds ((nandMachine range size).run s es).1 ((latestMachine range size).run latest es).1 ∧
      ((nandMachine range size).run s es).2 = ((latestMachine range size).run latest es).2 :=
  Machine.simulation (fun _ _ _ h hf => nandMachine_step range size h hf) h hf

theorem envRelocateSpec_holds (h : (envRelocateSpec s).1 = some latest) :
    Holds (envRelocateSpec s).2 latest := by
  cases h1 : s.flash .first with
  | none =>
    cases h2 : s.flash .second with
    | none => simp [envRelocateSpec, h1, h2] at h
    | some image2 =>
      have hc : Chosen s.flash .second image2 := ⟨h2, fun old ho => by simp [Copy.other, h1] at ho⟩
      rw [envRelocateSpec_chosen hc] at h ⊢
      cases h
      exact ⟨_, hc⟩
  | some image1 =>
    cases h2 : s.flash .second with
    | none =>
      have hc : Chosen s.flash .first image1 := ⟨h1, fun old ho => by simp [Copy.other, h2] at ho⟩
      rw [envRelocateSpec_chosen hc] at h ⊢
      cases h
      exact ⟨_, hc⟩
    | some image2 =>
      cases hs : checkSerial image1.flags image2.flags with
      | first =>
        have hc : Chosen s.flash .first image1 := by
          refine ⟨h1, fun old ho => ?_⟩
          obtain rfl := Option.some.inj (h2.symm.trans ho)
          exact checkSerial_first.mp hs
        rw [envRelocateSpec_chosen hc] at h ⊢
        cases h
        exact ⟨_, hc⟩
      | second =>
        have hc : Chosen s.flash .second image2 := by
          refine ⟨h2, fun old ho => ?_⟩
          obtain rfl := Option.some.inj (h1.symm.trans ho)
          exact checkSerial_second.mp hs
        rw [envRelocateSpec_chosen hc] at h ⊢
        cases h
        exact ⟨_, hc⟩

/-- From any state a reboot can load, along every run whose completed writes
have fresh serial numbers, every reboot imports the latest save, and so does
one at the end. -/
theorem nand_run_imports_latest (range size : Nat) (s : State δ) (latest : δ)
    (hload : (envRelocateSpec s).1 = some latest) (es : List (Event δ))
    (hf : (nandMachine range size).Meets Fresh (envRelocateSpec s).2 es) :
    ((nandMachine range size).run (envRelocateSpec s).2 es).2 =
        ((latestMachine range size).run latest es).2 ∧
      (envRelocateSpec ((nandMachine range size).run (envRelocateSpec s).2 es).1).1 =
        some ((latestMachine range size).run latest es).1 := by
  obtain ⟨h, hanswers⟩ := run_holds range size (envRelocateSpec_holds hload) hf
  exact ⟨hanswers, h.reboot.1⟩

/-- The copies `254` and none: a save fails, the next one wraps around. -/
def atWrap : State Nat := ⟨fun copy => if copy = .first then some ⟨254, 1⟩ else none, .first, 0⟩

theorem nand_run_imports_latest_at_wrap :
    (envRelocateSpec atWrap).1 = some 1 ∧
      (envRelocateSpec ((nandMachine 1 1).run (envRelocateSpec atWrap).2
        [.save (some 2) .done .done, .save (some 3) .done .done, .save (some 4) .done .failed,
          .save (some 5) .done .cutAfter]).1).1 = some 5 := by
  refine ⟨by decide, (nand_run_imports_latest 1 1 atWrap 1 (by decide)
    [.save (some 2) .done .done, .save (some 3) .done .done, .save (some 4) .done .failed,
      .save (some 5) .done .cutAfter] ⟨?_, ?_, trivial, ?_, trivial⟩).2⟩
  all_goals
    rintro image ⟨⟩
    decide

theorem nand_failed_save_loses_next :
    (envRelocateSpec atWrap).1 = some 1 ∧
      ((nandMachine 1 1).run (envRelocateSpec atWrap).2
        [.save (some 2) .done .failed, .save (some 3) .done .done, .reboot]).2 =
          [.returned 1, .returned 0, .booted (some 1)] ∧
      ((latestMachine 1 1).run 1
        [.save (some 2) .done .failed, .save (some 3) .done .done, .reboot]).2 =
          [.returned 1, .returned 0, .booted (some 3)] := by
  decide

theorem Newer.of_not (h : ¬ Newer copy old new) : Newer copy.other new old := by
  cases copy with
  | first =>
    cases hs : checkSerial old new with
    | first => exact checkSerial_first.mp hs
    | second => exact absurd (checkSerial_second.mp hs) h
  | second =>
    cases hs : checkSerial new old with
    | first => exact absurd (checkSerial_first.mp hs) h
    | second => exact checkSerial_second.mp hs

theorem Holds.reboot_after_save (h : Holds s latest) (himage : s.flash s.envValid = some image)
    (hsize : ¬ range < size) (data : δ) :
    (envRelocateSpec (saveenv range size (some data) .done .done s).2).1 =
      some (if Newer s.envValid image.flags (s.envFlags + 1) then data else latest) := by
  obtain ⟨flags, hc⟩ := h
  obtain rfl := Option.some.inj (himage.symm.trans hc.1)
  have hne : s.envValid ≠ s.envValid.other := by cases s.envValid <;> decide
  simp only [saveenv, hsize, ↓reduceIte, target_eq, State.put, update_idem]
  split
  · rename_i hn
    rw [envRelocateSpec_chosen (hc.write_other hn)]
  · rename_i hn
    have hold : Chosen (update s.flash s.envValid.other
        (some ⟨s.envFlags + 1, data⟩)) s.envValid ⟨flags, latest⟩ := by
      refine ⟨by rw [update_of_ne hne]; exact hc.1, fun new hnew => ?_⟩
      rw [update_self] at hnew
      cases hnew
      exact Newer.of_not hn
    rw [envRelocateSpec_chosen hold]

theorem reboot_after_save_stale :
    (envRelocateSpec (saveenv 1 1 (some 2) .done .done
      (⟨fun _ => some ⟨0, 1⟩, .first, 254⟩ : State Nat)).2).1 = some 1 := by
  have h : Holds (⟨fun _ => some ⟨0, 1⟩, .first, 254⟩ : State Nat) 1 :=
    ⟨0, rfl, by rintro _ ⟨⟩; decide⟩
  exact h.reboot_after_save rfl (by decide) 2

end UBoot.Env.Nand
