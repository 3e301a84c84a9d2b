import UBoot.Env.Nand

/-!
# The environment in NAND, shared with Linux

`fw_env_open`, `fw_env_close` and `flash_write` of `tools/env/fw_env.c` for two NAND devices,
next to `saveenv` and `env_relocate_spec` of `common/env_nand.c`. A copy in flash is its
checksum, its flags and its data, right or wrong.
-/

namespace UBoot.Env.Fw

open Nand

variable {δ : Type}

structure EnvImage (δ : Type) where
  crc : UInt32
  flags : UInt8
  data : δ

abbrev Flash (δ : Type) := Copy → EnvImage δ

section
variable (crc32 : δ → UInt32)

def EnvImage.CrcOk (image : EnvImage δ) : Prop := crc32 image.data = image.crc

instance (image : EnvImage δ) : Decidable (image.CrcOk crc32) :=
  inferInstanceAs (Decidable (_ = _))

/-! ## Linux -/

/-- The choice between two copies that are ok, for `FLAG_INCREMENTAL`. -/
def devCurrent (flag0 flag1 : UInt8) : Copy :=
  if flag0 = 255 ∧ flag1 = 0 then .second
  else if (flag1 = 255 ∧ flag0 = 0) ∨ flag0 ≥ flag1 then .first
  else .second

/-- The value of `dev_current`, and the image that `environment` points to. -/
def fwEnvOpen (defaultEnvironment : δ) (flash : Flash δ) : Copy × EnvImage δ :=
  if (flash .first).CrcOk crc32 ∧ ¬ (flash .second).CrcOk crc32 then (.first, flash .first)
  else if ¬ (flash .first).CrcOk crc32 ∧ (flash .second).CrcOk crc32 then (.second, flash .second)
  else if ¬ (flash .first).CrcOk crc32 ∧ ¬ (flash .second).CrcOk crc32 then
    (.first, { flash .first with data := defaultEnvironment })
  else
    let current := devCurrent (flash .first).flags (flash .second).flags
    (current, flash current)

/-- A write of `environment` to the copy that is not in use. -/
def fwEnvClose (current : Copy) (environment : EnvImage δ) (flash : Flash δ) : Flash δ :=
  Function.update flash current.other
    { environment with crc := crc32 environment.data, flags := environment.flags + 1 }

/-- A run of `fw_setenv`: the environment is read, edited and written. -/
def fwSetenv (defaultEnvironment : δ) (edit : δ → δ) (flash : Flash δ) : Flash δ × δ :=
  let (current, environment) := fwEnvOpen crc32 defaultEnvironment flash
  let environment := { environment with data := edit environment.data }
  (fwEnvClose crc32 current environment flash, environment.data)

/-! ## U-Boot -/

def valid (flash : Flash δ) (copy : Copy) : Option (Nand.Image δ) :=
  if (flash copy).CrcOk crc32 then some ⟨(flash copy).flags, (flash copy).data⟩ else none

structure Uboot (δ : Type) where
  flash : Flash δ
  envValid : Copy
  envFlags : UInt8

def Uboot.view (u : Uboot δ) : State δ := ⟨valid crc32 u.flash, u.envValid, u.envFlags⟩

def boot (flash : Flash δ) : Uboot δ :=
  let booted := (envRelocateSpec ⟨valid crc32 flash, .first, 0⟩).2
  ⟨flash, booted.envValid, booted.envFlags⟩

def saveenv (u : Uboot δ) (data : δ) : Uboot δ :=
  let flags := u.envFlags + 1
  let target : Copy := if u.envValid = .first then .second else .first
  ⟨Function.update u.flash target ⟨crc32 data, flags, data⟩,
    if u.envValid = .second then .first else .second, flags⟩

/-! ## Both -/

/-- What runs on the flash: U-Boot, which boots and saves any number of times, or one run of
`fw_setenv`. -/
inductive Session (δ : Type)
  | uboot (saves : List δ)
  | linux (edit : δ → δ)

def sharedMachine (defaultEnvironment : δ) : Machine (Flash δ) (Session δ) (List δ) where
  step flash
    | .uboot saves => ((saves.foldl (saveenv crc32) (boot crc32 flash)).flash, saves)
    | .linux edit =>
      let (flash, data) := fwSetenv crc32 defaultEnvironment edit flash
      (flash, [data])

def ubootReads (flash : Flash δ) : Option (Copy × δ) :=
  let booted := envRelocateSpec ⟨valid crc32 flash, .first, 0⟩
  booted.1.map fun data => (booted.2.envValid, data)

/-- The copy that `fw_printenv` and `fw_setenv` would read now. The default environment is taken
if neither checksum is right. -/
def linuxReads (defaultEnvironment : δ) (flash : Flash δ) : Option (Copy × δ) :=
  if ¬ (flash .first).CrcOk crc32 ∧ ¬ (flash .second).CrcOk crc32 then none
  else
    let (current, environment) := fwEnvOpen crc32 defaultEnvironment flash
    some (current, environment.data)

end

/-! ## The copy that is chosen -/

variable {crc32 : δ → UInt32} {flash : Flash δ} {copy : Copy} {image : Nand.Image δ}

theorem devCurrent_eq (flag0 flag1 : UInt8) : devCurrent flag0 flag1 = checkSerial flag0 flag1 := by
  unfold devCurrent checkSerial
  simp only [ge_iff_le, gt_iff_lt, UInt8.le_iff_toNat_le, UInt8.lt_iff_toNat_lt]
  split_ifs <;> simp_all <;> omega

theorem valid_of_crcOk (h : (flash copy).CrcOk crc32) :
    valid crc32 flash copy = some ⟨(flash copy).flags, (flash copy).data⟩ := if_pos h

theorem valid_of_not_crcOk (h : ¬ (flash copy).CrcOk crc32) : valid crc32 flash copy = none :=
  if_neg h

theorem none_or_chosen (crc32 : δ → UInt32) (flash : Flash δ) :
    (∀ copy, ¬ (flash copy).CrcOk crc32) ∨
      ∃ copy, (flash copy).CrcOk crc32 ∧
        Chosen (valid crc32 flash) copy ⟨(flash copy).flags, (flash copy).data⟩ := by
  have halone {copy : Copy} (h : (flash copy).CrcOk crc32)
      (hother : ¬ (flash copy.other).CrcOk crc32) :
      Chosen (valid crc32 flash) copy ⟨(flash copy).flags, (flash copy).data⟩ := by
    refine ⟨valid_of_crcOk h, fun old hold => ?_⟩
    rw [valid_of_not_crcOk hother] at hold
    cases hold
  have hnewer {copy : Copy} (h : (flash copy).CrcOk crc32)
      (hother : (flash copy.other).CrcOk crc32)
      (hnew : Newer copy.other (flash copy.other).flags (flash copy).flags) :
      Chosen (valid crc32 flash) copy ⟨(flash copy).flags, (flash copy).data⟩ := by
    refine ⟨valid_of_crcOk h, fun old hold => ?_⟩
    rw [valid_of_crcOk hother] at hold
    cases hold
    exact hnew
  by_cases h1 : (flash .first).CrcOk crc32
  · by_cases h2 : (flash .second).CrcOk crc32
    · cases hs : checkSerial (flash .first).flags (flash .second).flags with
      | first => exact .inr ⟨.first, h1, hnewer h1 h2 (checkSerial_first.mp hs)⟩
      | second => exact .inr ⟨.second, h2, hnewer h2 h1 (checkSerial_second.mp hs)⟩
    · exact .inr ⟨.first, h1, halone h1 h2⟩
  · by_cases h2 : (flash .second).CrcOk crc32
    · exact .inr ⟨.second, h2, halone h2 h1⟩
    · exact .inl fun copy => by cases copy <;> assumption

/-! ## Reads -/

theorem ubootReads_of_chosen (h : Chosen (valid crc32 flash) copy image) :
    ubootReads crc32 flash = some (copy, image.data) := by
  have hboot := envRelocateSpec_chosen (s := ⟨valid crc32 flash, .first, 0⟩) h
  rw [ubootReads, hboot]
  rfl

theorem ubootReads_of_none (h : ∀ copy, ¬ (flash copy).CrcOk crc32) :
    ubootReads crc32 flash = none := by
  simp [ubootReads, envRelocateSpec, valid_of_not_crcOk (h _)]

theorem fwEnvOpen_of_chosen (defaultEnvironment : δ) (h : Chosen (valid crc32 flash) copy image) :
    (flash copy).CrcOk crc32 ∧ (flash copy).flags = image.flags ∧ (flash copy).data = image.data ∧
      fwEnvOpen crc32 defaultEnvironment flash = (copy, flash copy) := by
  obtain ⟨hcopy, hold⟩ := h
  have hok : (flash copy).CrcOk crc32 := by
    by_contra hbad
    rw [valid_of_not_crcOk hbad] at hcopy
    cases hcopy
  rw [valid_of_crcOk hok] at hcopy
  obtain rfl := Option.some.inj hcopy
  refine ⟨hok, rfl, rfl, ?_⟩
  by_cases hother : (flash copy.other).CrcOk crc32
  · have hnew := hold _ (valid_of_crcOk hother)
    cases copy with
    | first =>
      have hother : (flash .second).CrcOk crc32 := hother
      have hserial : checkSerial (flash .first).flags (flash .second).flags = .first :=
        checkSerial_first.mpr hnew
      simp [fwEnvOpen, hok, hother, devCurrent_eq, hserial]
    | second =>
      have hother : (flash .first).CrcOk crc32 := hother
      have hserial : checkSerial (flash .first).flags (flash .second).flags = .second :=
        checkSerial_second.mpr hnew
      simp [fwEnvOpen, hok, hother, devCurrent_eq, hserial]
  · cases copy with
    | first =>
      have hother : ¬ (flash .second).CrcOk crc32 := hother
      simp [fwEnvOpen, hok, hother]
    | second =>
      have hother : ¬ (flash .first).CrcOk crc32 := hother
      simp [fwEnvOpen, hok, hother]

theorem linuxReads_of_chosen (defaultEnvironment : δ)
    (h : Chosen (valid crc32 flash) copy image) :
    linuxReads crc32 defaultEnvironment flash = some (copy, image.data) := by
  obtain ⟨hok, -, hdata, hopen⟩ := fwEnvOpen_of_chosen defaultEnvironment h
  have hsome : ¬ (¬ (flash .first).CrcOk crc32 ∧ ¬ (flash .second).CrcOk crc32) := by
    rintro ⟨h1, h2⟩
    cases copy with
    | first => exact h1 hok
    | second => exact h2 hok
  rw [linuxReads, if_neg hsome, hopen, ← hdata]

theorem reads_agree (crc32 : δ → UInt32) (defaultEnvironment : δ) (flash : Flash δ) :
    ubootReads crc32 flash = linuxReads crc32 defaultEnvironment flash := by
  obtain hnone | ⟨copy, -, hchosen⟩ := none_or_chosen crc32 flash
  · rw [ubootReads_of_none hnone, linuxReads, if_pos ⟨hnone _, hnone _⟩]
  · rw [ubootReads_of_chosen hchosen, linuxReads_of_chosen defaultEnvironment hchosen]

/-! ## Writes -/

theorem newer_succ (copy : Copy) (flags : UInt8) : Newer copy flags (flags + 1) := by
  unfold Newer
  simp only [UInt8.lt_iff_toNat_lt, ← UInt8.toNat_inj, UInt8.toNat_add]
  have := flags.toNat_lt
  simp
  omega

theorem valid_update (copy : Copy) (flags : UInt8) (data : δ) :
    valid crc32 (Function.update flash copy ⟨crc32 data, flags, data⟩) =
      Function.update (valid crc32 flash) copy (some ⟨flags, data⟩) := by
  funext other
  by_cases h : other = copy
  · subst h
    rw [valid, Function.update_self, Function.update_self]
    exact if_pos rfl
  · rw [valid, Function.update_of_ne h, Function.update_of_ne h, valid]

theorem chosen_of_write (copy : Copy) (flags : UInt8) (data : δ)
    (hold : ∀ old, valid crc32 flash copy = some old → flags = old.flags + 1) :
    Chosen (valid crc32 (Function.update flash copy.other ⟨crc32 data, flags, data⟩)) copy.other
      ⟨flags, data⟩ := by
  have hne : copy ≠ copy.other := by cases copy <;> decide
  rw [valid_update]
  refine ⟨Function.update_self .., fun old h => ?_⟩
  rw [Copy.other_other, Function.update_of_ne hne] at h
  rw [Copy.other_other, hold old h]
  exact newer_succ copy old.flags

def Latest (crc32 : δ → UInt32) (flash : Flash δ) (data : δ) : Prop :=
  ∃ copy flags, Chosen (valid crc32 flash) copy ⟨flags, data⟩

theorem latest_fwSetenv (defaultEnvironment : δ) (edit : δ → δ) (flash : Flash δ) :
    Latest crc32 (fwSetenv crc32 defaultEnvironment edit flash).1
      (fwSetenv crc32 defaultEnvironment edit flash).2 := by
  obtain hnone | ⟨copy, hok, hchosen⟩ := none_or_chosen crc32 flash
  · have hopen : fwEnvOpen crc32 defaultEnvironment flash =
        (.first, { flash .first with data := defaultEnvironment }) := by
      simp [fwEnvOpen, hnone]
    rw [fwSetenv, hopen]
    refine ⟨.second, _, chosen_of_write .first _ _ fun old h => ?_⟩
    rw [valid_of_not_crcOk (hnone _)] at h
    cases h
  · obtain ⟨-, -, -, hopen⟩ := fwEnvOpen_of_chosen defaultEnvironment hchosen
    rw [fwSetenv, hopen]
    refine ⟨copy.other, _, chosen_of_write copy _ _ fun old h => ?_⟩
    rw [valid_of_crcOk hok] at h
    rw [← Option.some.inj h]

def Tracks (crc32 : δ → UInt32) (u : Uboot δ) : Prop :=
  ∀ old, valid crc32 u.flash u.envValid = some old → u.envFlags = old.flags

theorem tracks_boot (flash : Flash δ) : Tracks crc32 (boot crc32 flash) := by
  intro old h
  obtain hnone | ⟨copy, -, hchosen⟩ := none_or_chosen crc32 flash
  · rw [boot, valid_of_not_crcOk (hnone _)] at h
    cases h
  · have hboot := envRelocateSpec_chosen (s := ⟨valid crc32 flash, .first, 0⟩) hchosen
    rw [boot, hboot] at h ⊢
    rw [hchosen.1] at h
    rw [← Option.some.inj h]

theorem saveenv_latest (h : Tracks crc32 u) (data : δ) :
    Tracks crc32 (saveenv crc32 u data) ∧ Latest crc32 (saveenv crc32 u data).flash data := by
  obtain ⟨htarget, hvalid⟩ := target_eq u.envValid
  have hchosen : Chosen (valid crc32 (saveenv crc32 u data).flash) u.envValid.other
      ⟨u.envFlags + 1, data⟩ := by
    rw [saveenv, htarget]
    exact chosen_of_write u.envValid _ data fun old hold => by rw [h old hold]
  refine ⟨fun old hold => ?_, _, _, hchosen⟩
  have henv : (saveenv crc32 u data).envValid = u.envValid.other := hvalid
  rw [henv, hchosen.1] at hold
  rw [← Option.some.inj hold]
  rfl

theorem saves_latest (h : Tracks crc32 u) {saves : List δ} {data : δ}
    (hlast : saves.getLast? = some data) :
    Latest crc32 (saves.foldl (saveenv crc32) u).flash data := by
  induction saves generalizing u with
  | nil => cases hlast
  | cons first saves ih =>
    obtain ⟨htracks, hlatest⟩ := saveenv_latest h first
    cases saves with
    | nil =>
      obtain rfl := Option.some.inj hlast
      exact hlatest
    | cons second saves => exact ih htracks (by rwa [List.getLast?_cons_cons] at hlast)

theorem view_saveenv (hsize : ¬ range < size) (u : Uboot δ) (data : δ) :
    (saveenv crc32 u data).view crc32 =
      (Nand.saveenv range size (some data) .done .done (u.view crc32)).2 := by
  simp only [saveenv, Uboot.view, Nand.saveenv, if_neg hsize, State.put, valid_update,
    Function.update_idem]
  rfl

/-! ## Both -/

theorem latest_step (defaultEnvironment : δ) (flash : Flash δ) (session : Session δ)
    (h : ((sharedMachine crc32 defaultEnvironment).step flash session).2.getLast? = some data) :
    Latest crc32 ((sharedMachine crc32 defaultEnvironment).step flash session).1 data := by
  cases session with
  | uboot saves => exact saves_latest (tracks_boot flash) h
  | linux edit =>
    obtain rfl := Option.some.inj h
    exact latest_fwSetenv defaultEnvironment edit flash

theorem step_eq_of_nil (h : ((sharedMachine crc32 defaultEnvironment).step flash session).2 = []) :
    ((sharedMachine crc32 defaultEnvironment).step flash session).1 = flash := by
  cases session with
  | uboot saves =>
    obtain rfl : saves = [] := h
    rfl
  | linux edit => cases h

theorem latest_run (defaultEnvironment : δ) (sessions : List (Session δ))
    (h : ((sharedMachine crc32 defaultEnvironment).run flash sessions).2.flatten.getLast? =
      some data) :
    Latest crc32 ((sharedMachine crc32 defaultEnvironment).run flash sessions).1 data := by
  -- The last session that writes is the one that counts: the sessions are taken from the end.
  induction sessions using List.reverseRecOn with
  | nil => cases h
  | append_singleton sessions session ih =>
    rw [Machine.answers_append, List.flatten_append] at h
    rw [Machine.run_append]
    cases hwritten : ((sharedMachine crc32 defaultEnvironment).step
        ((sharedMachine crc32 defaultEnvironment).run flash sessions).1 session).2 with
    | nil =>
      have hrest : ((sharedMachine crc32 defaultEnvironment).run flash sessions).2.flatten.getLast? =
          some data := by simpa [Machine.run, hwritten] using h
      simpa [Machine.run, step_eq_of_nil hwritten] using ih hrest
    | cons first rest =>
      refine latest_step defaultEnvironment _ session ?_
      simpa [Machine.run, hwritten, List.getLast?_append] using h

end UBoot.Env.Fw
