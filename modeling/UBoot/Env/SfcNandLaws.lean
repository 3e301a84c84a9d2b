import UBoot.Env.SfcNand

/-!
# Laws of a save to SFC NAND

Where erasing for one copy stays within its sector (`Geometry.Fits`), the operations of a
save work on one copy each, so that a reboot always finds the old or the new image.
-/

namespace UBoot.Env.SfcNand

open Nand (Copy)

variable {δ : Type}

structure Geometry.Fits (g : Geometry) : Prop where
  block_pos : 0 < g.erasesize
  offset : ∀ copy, g.erasesize ∣ g.offset copy
  env : g.erasesize ∣ g.envSize
  env_pos : 0 < g.envSize
  sect : g.erasesize ∣ g.sectSize
  le : g.envSize ≤ g.sectSize
  apart : ∀ copy, g.offset copy + g.sectSize ≤ g.offset copy.other ∨
    g.offset copy.other + g.sectSize ≤ g.offset copy

def Area.erase (area : Area δ) : Outcome → Area δ
  | .ok => .erased
  | .unchanged => area
  | .spoiled _ => .garbage

/-! ## Erasing and writing one copy -/

section
variable {g : Geometry} {flash : Flash δ}

theorem roundUp_eq (hpos : 0 < block) (h : block ∣ len) : (len + block - 1) / block * block = len := by
  obtain ⟨k, rfl⟩ := h
  have : (block * k + block - 1) / block = k := by
    rw [Nat.add_sub_assoc hpos, Nat.mul_add_div hpos, Nat.div_eq_of_lt (by omega), Nat.add_zero]
  rw [this, Nat.mul_comm]

theorem Geometry.Fits.sector (hg : g.Fits) : g.sector = 1 := if_neg (by have := hg.le; omega)

theorem Flash.erase_area (flash : Flash δ) (copy : Copy) (hg : g.Fits) (hlen : g.erasesize ∣ len) (hlo : g.envSize ≤ len)
    (hhi : len ≤ g.sectSize) (outcome : Outcome) :
    (flash.erase g (g.offset copy) len outcome).area copy = (flash.area copy).erase outcome ∧
      (flash.erase g (g.offset copy) len outcome).area copy.other = flash.area copy.other := by
  have hstart : g.offset copy % g.erasesize = 0 := Nat.mod_eq_zero_of_dvd (hg.offset copy)
  have hpos := hg.env_pos
  have hapart := hg.apart copy
  have hnot : ¬ g.Touches copy.other (g.offset copy) (g.offset copy + len) := by
    rintro ⟨h1, h2⟩; omega
  simp only [Flash.erase, roundUp_eq hg.block_pos hlen, hstart, ne_eq, not_true_eq_false, ↓reduceIte]
  cases outcome with
  | ok =>
    have hcovers : g.Covers copy (g.offset copy) (g.offset copy + len) := ⟨le_rfl, by omega⟩
    have hnot' : ¬ g.Covers copy.other (g.offset copy) (g.offset copy + len) := by
      rintro ⟨h1, h2⟩; omega
    simp [hcovers, hnot, hnot', Area.erase]
  | unchanged => exact ⟨rfl, rfl⟩
  | spoiled junk =>
    have htouch : g.Touches copy (g.offset copy) (g.offset copy + len) := ⟨by omega, by omega⟩
    simp [htouch, hnot, Area.erase]

theorem Flash.erase_outside (hg : g.Fits) (hlen : g.erasesize ∣ len) (outcome : Outcome)
    (hi : i < g.offset copy ∨ g.offset copy + len ≤ i) :
    (flash.erase g (g.offset copy) len outcome).outside i = flash.outside i := by
  have hin : ¬ (g.offset copy ≤ i ∧ i < g.offset copy + len) := by omega
  simp only [Flash.erase, roundUp_eq hg.block_pos hlen]
  split
  · rfl
  · cases outcome with
    | ok => simp only [hin, ↓reduceIte]
    | unchanged => rfl
    | spoiled junk => simp only [hin, ↓reduceIte]

theorem Flash.writeEnv_area (copy : Copy) (content : Area δ) (outcome : Outcome) :
    (flash.writeEnv copy content outcome).area copy = (flash.area copy).write content outcome ∧
      (flash.writeEnv copy content outcome).area copy.other = flash.area copy.other := by
  refine ⟨Function.update_self .., Function.update_of_ne ?_ ..⟩
  cases copy <;> decide

theorem Flash.writeBytes_area (hg : g.Fits) (copy c : Copy) (bytes : Nat → UInt8)
    (outcome : Outcome) :
    (flash.writeBytes g (g.offset copy + g.envSize) (g.offset copy + g.sectSize) bytes outcome).area c =
      flash.area c := by
  have htouch : ¬ g.Touches c (g.offset copy + g.envSize) (g.offset copy + g.sectSize) := by
    rintro ⟨h1, h2⟩
    by_cases hc : c = copy
    · subst hc; omega
    · obtain rfl : c = copy.other := by cases c <;> cases copy <;> simp_all [Copy.other]
      have := hg.apart copy
      omega
  cases outcome with
  | ok => simp [Flash.writeBytes, htouch]
  | unchanged => rfl
  | spoiled junk => simp [Flash.writeBytes, htouch]

end

/-! ## The operations of a save -/

section
variable {g : Geometry} {new : Copy} {data : δ} {r : Results} {t : Session δ}

theorem runOp_area (new : Copy) (data : δ) (r : Results) (t : Session δ) (hg : g.Fits) (op : Op) :
    (runOp g new data r t op).flash.area new = (match op with
      | .eraseNew => (t.flash.area new).erase r.eraseNew
      | .writeNew => (t.flash.area new).write (.image activeFlag data) r.writeNew
      | _ => t.flash.area new) ∧
    (runOp g new data r t op).flash.area new.other = (match op with
      | .eraseOld => (t.flash.area new.other).erase r.eraseOld
      | .writeOld => (t.flash.area new.other).write t.tmp r.writeOld
      | _ => t.flash.area new.other) := by
  cases op with
  | readRest | readOld => exact ⟨rfl, rfl⟩
  | eraseNew => simpa [runOp, hg.sector] using Flash.erase_area _ _ hg hg.sect hg.le le_rfl _
  | writeNew => exact Flash.writeEnv_area ..
  | writeRest => exact ⟨Flash.writeBytes_area hg .., Flash.writeBytes_area hg ..⟩
  | eraseOld =>
    have h := Flash.erase_area t.flash new.other hg hg.env le_rfl hg.le r.eraseOld
    simpa [runOp, hg.sector] using h.symm
  | writeOld => simpa [runOp] using (Flash.writeEnv_area new.other t.tmp r.writeOld).symm

theorem runOps_eq (ops : List Op) :
    runOps g new data r ops t = (0, ops.foldl (runOp g new data r) t) := by
  induction ops generalizing t with
  | nil => rfl
  | cons op ops ih => simp [runOps, sfcNandOps, ih]

/-- What can be found in the areas at any point of a save: the new image in the
new copy, the old image in the old one, no other image than at the start. -/
structure Harmless (new : Copy) (data : δ) (flash : Flash δ) (t : Session δ) : Prop where
  newArea : t.flash.area new = flash.area new ∨ (t.flash.area new).read true = none ∨
    t.flash.area new = .image activeFlag data
  oldArea : t.flash.area new.other = flash.area new.other ∨
    (t.flash.area new.other).read true = none ∨
    t.flash.area new.other = (flash.area new.other).markObsolete
  tmp : t.tmp = .garbage ∨ t.tmp = (flash.area new.other).markObsolete

theorem Area.markObsolete_idem (a : Area δ) : a.markObsolete.markObsolete = a.markObsolete := by
  cases a <;> rfl

theorem Area.markObsolete_invalid {a : Area δ} (h : a.read true = none) : a.markObsolete = .garbage := by
  cases a with
  | image flags data => simp [Area.read] at h
  | _ => rfl

theorem Harmless.runOp (hg : g.Fits) {flash : Flash δ} (h : Harmless new data flash t) (op : Op) :
    Harmless new data flash (runOp g new data r t op) := by
  refine ⟨?_, ?_, ?_⟩
  · rw [(runOp_area _ _ _ _ hg op).1]
    cases op with
    | eraseNew =>
      cases r.eraseNew with
      | unchanged => exact h.newArea
      | _ => exact .inr (.inl rfl)
    | writeNew =>
      cases r.writeNew with
      | ok =>
        cases ha : t.flash.area new with
        | erased => exact .inr (.inr rfl)
        | _ => exact .inr (.inl rfl)
      | unchanged => exact h.newArea
      | spoiled junk => exact .inr (.inl rfl)
    | _ => exact h.newArea
  · rw [(runOp_area _ _ _ _ hg op).2]
    cases op with
    | eraseOld =>
      cases r.eraseOld with
      | unchanged => exact h.oldArea
      | _ => exact .inr (.inl rfl)
    | writeOld =>
      cases r.writeOld with
      | ok =>
        cases ha : t.flash.area new.other with
        | erased =>
          rcases h.tmp with ht | ht
          · exact .inr (.inl (by simp [Area.write, ht, Area.read]))
          · exact .inr (.inr ht)
        | _ => exact .inr (.inl rfl)
      | unchanged => exact h.oldArea
      | spoiled junk => exact .inr (.inl rfl)
    | _ => exact h.oldArea
  · cases op with
    | readOld =>
      simp only [UBoot.Env.SfcNand.runOp]
      split
      · rcases h.oldArea with ho | ho | ho
        · exact .inr (by rw [ho])
        · exact .inl (Area.markObsolete_invalid ho)
        · exact .inr (by rw [ho, Area.markObsolete_idem])
      · exact .inl rfl
    | _ => exact h.tmp

theorem Harmless.runOps (hg : g.Fits) (h : Harmless new data flash t) (ops : List Op) :
    Harmless new data flash (ops.foldl (UBoot.Env.SfcNand.runOp g new data r) t) := by
  induction ops generalizing t with
  | nil => exact h
  | cons op ops ih => exact ih (h.runOp hg op)

theorem foldl_area_old (new : Copy) (data : δ) (r : Results) (t : Session δ) (hg : g.Fits)
    (ops : List Op) (he : .eraseOld ∉ ops) (hw : .writeOld ∉ ops) :
    (ops.foldl (runOp g new data r) t).flash.area new.other = t.flash.area new.other := by
  induction ops generalizing t with
  | nil => rfl
  | cons op ops ih =>
    simp only [List.mem_cons, not_or] at he hw
    rw [List.foldl_cons, ih _ he.2 hw.2, (runOp_area _ _ _ _ hg op).2]
    cases op with
    | eraseOld => exact absurd rfl he.1
    | writeOld => exact absurd rfl hw.1
    | _ => rfl

theorem writeOld_notMem (h : .eraseOld ∉ g.ops.take n) : .writeOld ∉ g.ops.take n := by
  unfold Geometry.ops at h ⊢
  split at h
  · rename_i hr
    rw [if_pos hr]
    rcases n with _ | _ | _ | _ | _ | _ | _ | n <;> simp_all
  · rename_i hr
    rw [if_neg hr]
    rcases n with _ | _ | _ | _ | _ | n <;> simp_all

theorem foldl_area_new (new : Copy) (data : δ) (t : Session δ) (hg : g.Fits)
    (h : .eraseOld ∈ g.ops.take n) (he : r.eraseNew = .ok)
    (hw : r.writeNew = .ok) :
    ((g.ops.take n).foldl (runOp g new data r) t).flash.area new = .image activeFlag data := by
  unfold Geometry.ops at h ⊢
  split at h
  · rename_i hr
    rw [if_pos hr]
    rcases n with _ | _ | _ | _ | _ | _ | _ | n <;>
      simp_all [runOp_area, Area.erase, Area.write]
  · rename_i hr
    rw [if_neg hr]
    rcases n with _ | _ | _ | _ | _ | n <;> simp_all [runOp_area, Area.erase, Area.write]

end

/-! ## Reboots -/

def reboot (s : State δ) : Option δ × State δ := envRelocateSpec (fun _ => true) s

/-- A copy with `flags` is preferred to the other one with `flags'`. -/
def Wins (copy : Copy) (flags flags' : UInt8) : Prop :=
  match copy with
  | .first => checkFlags flags flags' = .first
  | .second => checkFlags flags' flags = .second

theorem wins_or_wins (copy : Copy) (flags flags' : UInt8) :
    Wins copy flags flags' ∨ Wins copy.other flags' flags := by
  cases copy with
  | first => cases h : checkFlags flags flags' <;> simp [Wins, Copy.other, h]
  | second => cases h : checkFlags flags' flags <;> simp [Wins, Copy.other, h]

theorem checkFlags_active (flags : UInt8) : checkFlags flags activeFlag = .second := by
  unfold checkFlags
  rw [if_neg fun h => absurd h.2 (by decide)]
  split_ifs <;> rfl

def Chosen (flash : Flash δ) (copy : Copy) (data : δ) : Prop :=
  ∃ flags, flash.area copy = .image flags data ∧
    ∀ flags' data', flash.area copy.other = .image flags' data' → Wins copy flags flags'

theorem Chosen.reboot (h : Chosen s.flash copy data) :
    reboot s = (some data, { s with envValid := copy }) := by
  obtain ⟨flags, hc, ho⟩ := h
  cases copy with
  | first =>
    cases hother : s.flash.area .second with
    | image flags' data' =>
      have hwins : checkFlags flags flags' = .first := ho flags' data' hother
      simp [UBoot.Env.SfcNand.reboot, envRelocateSpec, hc, hother, Area.read, hwins]
    | _ => simp [UBoot.Env.SfcNand.reboot, envRelocateSpec, hc, hother, Area.read]
  | second =>
    cases hother : s.flash.area .first with
    | image flags' data' =>
      have hwins : checkFlags flags' flags = .second := ho flags' data' hother
      simp [UBoot.Env.SfcNand.reboot, envRelocateSpec, hc, hother, Area.read, hwins]
    | _ => simp [UBoot.Env.SfcNand.reboot, envRelocateSpec, hc, hother, Area.read]

theorem reboot_flash (s : State δ) : (reboot s).2.flash = s.flash := by
  unfold reboot envRelocateSpec
  repeat' split
  all_goals rfl

theorem chosen_of_image (h : flash.area copy = .image flags data) : Chosen flash copy data ∨
      ∃ flags' data', flash.area copy.other = .image flags' data' ∧ Chosen flash copy.other data' := by
  cases ho : flash.area copy.other with
  | image flags' data' =>
    rcases wins_or_wins copy flags flags' with hw | hw
    · refine .inl ⟨flags, h, fun f d hf => ?_⟩
      rw [ho] at hf
      cases hf
      exact hw
    · refine .inr ⟨flags', data', rfl, flags', ho, fun f d hf => ?_⟩
      rw [Copy.other_other, h] at hf
      cases hf
      exact hw
  | _ => exact .inl ⟨flags, h, fun f d hf => by rw [ho] at hf; cases hf⟩

theorem chosen_of_reboot (h : (reboot s).1 = some data) :
    Chosen (reboot s).2.flash (reboot s).2.envValid data := by
  obtain ⟨copy, f, d, hvalid⟩ : ∃ copy f d, s.flash.area copy = .image f d := by
    by_contra hnone
    push Not at hnone
    cases h1 : s.flash.area .first with
    | image f d => exact hnone _ f d h1
    | _ =>
      cases h2 : s.flash.area .second with
      | image f d => exact hnone _ f d h2
      | _ => simp [reboot, envRelocateSpec, h1, h2, Area.read] at h
  obtain ⟨copy, d, hc⟩ : ∃ copy d, Chosen s.flash copy d := by
    rcases chosen_of_image hvalid with hc | ⟨-, d', -, hc⟩
    · exact ⟨_, _, hc⟩
    · exact ⟨_, _, hc⟩
  rw [hc.reboot] at h ⊢
  cases h
  exact hc

/-! ## One save -/

section
variable {g : Geometry} {r : Results} {s : State δ} {data current : δ}

def State.during (s : State δ) (g : Geometry) (data : δ) (r : Results) (ops : List Op) : Flash δ :=
  (ops.foldl (runOp g s.envValid.other data r) ⟨s.flash, fun _ => 0, .garbage⟩).flash

theorem during_harmless (s : State δ) (data : δ) (r : Results) (hg : g.Fits) (ops : List Op) :
    Harmless s.envValid.other data s.flash
      (ops.foldl (runOp g s.envValid.other data r) ⟨s.flash, fun _ => 0, .garbage⟩) :=
  Harmless.runOps (t := ⟨s.flash, fun _ => 0, .garbage⟩) hg ⟨.inl rfl, .inl rfl, .inl rfl⟩ ops

theorem during_chosen (data : δ) (hg : g.Fits) (h : Chosen s.flash s.envValid current)
    (hnew : .eraseOld ∈ g.ops.take n → r.eraseNew = .ok ∧ r.writeNew = .ok) :
    ∃ copy d, Chosen (s.during g data r (g.ops.take n)) copy d ∧ (d = current ∨ d = data) := by
  have hharm := during_harmless s data r hg (g.ops.take n)
  obtain ⟨flags, hold, hpref⟩ := h
  by_cases he : .eraseOld ∈ g.ops.take n
  · have hn := hnew he
    have himage : (s.during g data r (g.ops.take n)).area s.envValid.other = .image activeFlag data :=
      foldl_area_new _ _ _ hg he hn.1 hn.2
    rcases chosen_of_image himage with hc | ⟨f, d, hd, hc⟩
    · exact ⟨_, _, hc, .inr rfl⟩
    · refine ⟨_, d, hc, .inl ?_⟩
      rcases hharm.oldArea with ho | ho | ho
      · rw [State.during, ho, Copy.other_other, hold] at hd
        cases hd; rfl
      · rw [State.during] at hd
        rw [hd] at ho
        cases ho
      · rw [State.during, ho, Copy.other_other, hold] at hd
        cases hd; rfl
  · have hkeep : (s.during g data r (g.ops.take n)).area s.envValid = s.flash.area s.envValid := by
      have := foldl_area_old s.envValid.other data r
        ⟨s.flash, fun _ => 0, .garbage⟩ hg _ he (writeOld_notMem he)
      rwa [Copy.other_other] at this
    rcases hharm.newArea with hn | hn | hn
    · refine ⟨s.envValid, current, ⟨flags, hkeep.trans hold, fun f d hd => hpref f d ?_⟩, .inl rfl⟩
      exact hn.symm.trans hd
    · refine ⟨s.envValid, current, ⟨flags, hkeep.trans hold, fun f d hd => ?_⟩, .inl rfl⟩
      rw [State.during] at hd
      rw [hd] at hn
      cases hn
    · rcases chosen_of_image (hkeep.trans hold) with hc | ⟨f, d, hd, hc⟩
      · exact ⟨_, _, hc, .inl rfl⟩
      · have heq := hn.symm.trans hd
        cases heq
        exact ⟨_, _, hc, .inr rfl⟩

theorem ops_split (g : Geometry) :
    ∃ pre, g.ops = pre ++ [.eraseOld, .writeOld] ∧ .eraseOld ∉ pre ∧ .writeOld ∉ pre := by
  unfold Geometry.ops
  split
  · exact ⟨[.readRest, .eraseNew, .writeNew, .writeRest, .readOld], rfl, by decide, by decide⟩
  · exact ⟨[.eraseNew, .writeNew, .readOld], rfl, by decide, by decide⟩

theorem eraseOld_mem (g : Geometry) : .eraseOld ∈ g.ops := by
  obtain ⟨pre, hops, -⟩ := ops_split g
  simp [hops]

theorem during_ops_old (s : State δ) (data : δ) (r : Results) (hg : g.Fits) :
    (r.eraseOld = .unchanged ∧ r.writeOld = .unchanged ∧
      (s.during g data r g.ops).area s.envValid = s.flash.area s.envValid) ∨
    ((s.during g data r g.ops).area s.envValid).read true = none ∨
    (s.during g data r g.ops).area s.envValid = (s.flash.area s.envValid).markObsolete := by
  obtain ⟨pre, hops, he, hw⟩ := ops_split g
  let t := pre.foldl (runOp g s.envValid.other data r) ⟨s.flash, fun _ => 0, .garbage⟩
  have hold : t.flash.area s.envValid = s.flash.area s.envValid := by
    have := foldl_area_old s.envValid.other data r
      ⟨s.flash, fun _ => 0, .garbage⟩ hg pre he hw
    rwa [Copy.other_other] at this
  have htmp : t.tmp = .garbage ∨ t.tmp = (s.flash.area s.envValid).markObsolete := by
    have := (during_harmless s data r hg pre).tmp
    rwa [Copy.other_other] at this
  have hfinal : (s.during g data r g.ops).area s.envValid =
      ((s.flash.area s.envValid).erase r.eraseOld).write t.tmp r.writeOld := by
    have hwrite := (runOp_area s.envValid.other data r
      (runOp g s.envValid.other data r t .eraseOld) hg .writeOld).2
    have herase := (runOp_area s.envValid.other data r t hg .eraseOld).2
    rw [Copy.other_other] at hwrite herase
    rw [State.during, hops, List.foldl_append]
    refine hwrite.trans ?_
    rw [herase, hold]
    rfl
  rw [hfinal]
  cases r.eraseOld with
  | ok =>
    cases r.writeOld with
    | ok =>
      rcases htmp with ht | ht
      · exact .inr (.inl (by simp [Area.erase, Area.write, ht, Area.read]))
      · exact .inr (.inr ht)
    | _ => exact .inr (.inl rfl)
  | unchanged =>
    cases r.writeOld with
    | ok =>
      cases ha : s.flash.area s.envValid with
      | erased =>
        rcases htmp with ht | ht
        · exact .inr (.inl (by simp [Area.erase, Area.write, ht, Area.read]))
        · exact .inr (.inr (ht.trans (by rw [ha])))
      | _ => exact .inr (.inl rfl)
    | unchanged => exact .inl ⟨rfl, rfl, rfl⟩
    | spoiled junk => exact .inr (.inl rfl)
  | spoiled junk =>
    cases r.writeOld with
    | _ => exact .inr (.inl rfl)

theorem during_ops_chosen (hg : g.Fits) (h : Chosen s.flash s.envValid current)
    (he : r.eraseNew = .ok) (hw : r.writeNew = .ok)
    (hold : r.eraseOld ≠ .unchanged ∨ r.writeOld ≠ .unchanged ∨ s.envValid = .first ∨
      ∃ d, s.flash.area s.envValid = .image obsoleteFlag d) :
    Chosen (s.during g data r g.ops) s.envValid.other data := by
  have hmem : .eraseOld ∈ g.ops.take g.ops.length := by
    rw [List.take_length]
    exact eraseOld_mem g
  have hnew := foldl_area_new s.envValid.other data
    ⟨s.flash, fun _ => 0, .garbage⟩ hg hmem he hw
  rw [List.take_length] at hnew
  have hobsolete : Wins s.envValid.other activeFlag obsoleteFlag := by
    cases s.envValid with
    | first => exact (by decide : checkFlags obsoleteFlag activeFlag = .second)
    | second => exact (by decide : checkFlags activeFlag obsoleteFlag = .first)
  refine ⟨activeFlag, hnew, fun flags' data' ho => ?_⟩
  rw [Copy.other_other] at ho
  obtain ⟨flags, hc, -⟩ := h
  rcases during_ops_old s data r hg with ⟨hue, huw, hd⟩ | hd | hd
  · -- the old copy is as it was
    rw [hd, hc] at ho
    cases ho
    rcases hold with h | h | h | ⟨d, h⟩
    · exact absurd hue h
    · exact absurd huw h
    · rw [h]
      exact checkFlags_active _
    · rw [hc] at h
      cases h
      exact hobsolete
  · rw [ho] at hd
    cases hd
  · rw [hd, hc] at ho
    cases ho
    exact hobsolete

/-! ## The bytes outside -/

def Geometry.Elsewhere (g : Geometry) (i : Nat) : Prop :=
  ∀ copy, i < g.offset copy ∨ g.offset copy + g.envSize ≤ i

theorem runOp_outside (hg : g.Fits) (hi : g.Elsewhere i) (op : Op)
    (he : op = .eraseNew → ¬ g.HasRest) (hw : op = .writeRest → ¬ g.HasRest) :
    (runOp g new data r t op).flash.outside i = t.flash.outside i := by
  cases op with
  | eraseNew =>
    have hle := hg.le
    have hsect : g.sectSize = g.envSize := by have := he rfl; unfold Geometry.HasRest at this; omega
    have hin : i < g.offset new ∨ g.offset new + g.sectSize ≤ i := by rw [hsect]; exact hi new
    simpa [runOp, hg.sector] using Flash.erase_outside hg hg.sect r.eraseNew hin
  | writeRest =>
    have hrest := hw rfl
    unfold Geometry.HasRest at hrest
    have hin : ¬ (g.offset new + g.envSize ≤ i ∧ i < g.offset new + g.sectSize) := by omega
    simp only [runOp, Flash.writeBytes]
    cases r.writeRest with
    | ok => simp only [hin, ↓reduceIte]
    | unchanged => rfl
    | spoiled junk => simp only [hin, ↓reduceIte]
  | eraseOld => simpa [runOp, hg.sector] using Flash.erase_outside hg hg.env r.eraseOld (hi new.other)
  | _ => rfl

theorem foldl_outside (hg : g.Fits) (hi : g.Elsewhere i) (ops : List Op)
    (he : .eraseNew ∈ ops → ¬ g.HasRest) (hw : .writeRest ∈ ops → ¬ g.HasRest) :
    (ops.foldl (runOp g new data r) t).flash.outside i = t.flash.outside i := by
  induction ops generalizing t with
  | nil => rfl
  | cons op ops ih =>
    rw [List.foldl_cons, ih (fun h => he (by simp [h])) (fun h => hw (by simp [h]))]
    exact runOp_outside hg hi op (fun h => he (by simp [h])) (fun h => hw (by simp [h]))

theorem and_erased (b : UInt8) : 0xff &&& b = b := by
  rw [← UInt8.toNat_inj, UInt8.toNat_and, Nat.and_comm]
  exact Nat.and_two_pow_sub_one_of_lt_two_pow b.toNat_lt

theorem rest_restored (hg : g.Fits) (hi : g.Elsewhere i) (hread : r.readRest = none)
    (he : r.eraseNew = .ok) (hw : r.writeRest = .ok) :
    ([.readRest, .eraseNew, .writeNew, .writeRest].foldl (runOp g new data r) t).flash.outside i =
      t.flash.outside i := by
  have hstart : g.offset new % g.erasesize = 0 := Nat.mod_eq_zero_of_dvd (hg.offset new)
  have hround := roundUp_eq hg.block_pos hg.sect
  simp only [List.foldl_cons, List.foldl_nil, runOp, Flash.writeBytes, Flash.writeEnv, Flash.erase,
    hg.sector, one_mul, hround, hstart, hread, he, hw, Option.getD_none, ne_eq, not_true_eq_false,
    ↓reduceIte]
  have hi := hi new
  split
  · rename_i hin
    rw [if_pos (by omega), and_erased]
  · rename_i hin
    rw [if_neg (by omega)]

structure Covered (g : Geometry) (r : Results) (done : List Op) : Prop where
  new : .eraseOld ∈ done → r.eraseNew = .ok ∧ r.writeNew = .ok
  rest : g.HasRest → .eraseNew ∈ done →
    r.readRest = none ∧ r.eraseNew = .ok ∧ .writeRest ∈ done ∧ r.writeRest = .ok

theorem during_outside (s : State δ) (data : δ) (hg : g.Fits) (hi : g.Elsewhere i) (h : Covered g r (g.ops.take n)) :
    (s.during g data r (g.ops.take n)).outside i = s.flash.outside i := by
  by_cases hrest : g.HasRest
  · have hr := h.rest hrest
    unfold State.during
    simp only [Geometry.ops, hrest, ↓reduceIte] at hr ⊢
    rcases n with _ | _ | _ | _ | n
    · rfl
    · rfl
    · simp at hr
    · simp at hr
    · obtain ⟨hread, he, -, hw⟩ := hr (by simp)
      have htake : [Op.readRest, .eraseNew, .writeNew, .writeRest, .readOld, .eraseOld,
          .writeOld].take (n + 4) = [.readRest, .eraseNew, .writeNew, .writeRest] ++
            [Op.readOld, .eraseOld, .writeOld].take n := by simp
      have hsub := List.take_subset n [Op.readOld, .eraseOld, .writeOld]
      rw [htake, List.foldl_append, foldl_outside hg hi _ (fun h => absurd (hsub h) (by decide))
        (fun h => absurd (hsub h) (by decide))]
      exact rest_restored hg hi hread he hw
  · exact foldl_outside hg hi _ (fun _ => hrest) (fun _ => hrest)

end

end UBoot.Env.SfcNand
