import UBoot.Net.BootpSafe

/-!
# Which BOOTP replies are read in bounds

In a build without DHCP the walk over the vendor fields is given the length of the
packet as that of its vendor area. Which data it copies depends on what is already
set, so the fields are followed together with the variables that are still empty.
-/

namespace UBoot.Net.Bootp

open Checked

/-! ## Fields that keep to the packet -/

inductive Slot
  | subnetMask | gateway | dns | dns2 | hostName | rootPath | nisDomain
  deriving DecidableEq

def Slot.code : Slot → UInt8
  | subnetMask => 1
  | gateway => 3
  | dns | dns2 => 6
  | hostName => 12
  | rootPath => 17
  | nisDomain => 40

def Globals.empty (g : Globals) : Slot → Bool
  | .subnetMask => isZero g.netOurSubnetMask
  | .gateway => isZero g.netOurGatewayIP
  | .dns => isZero g.netOurDNSIP
  | .dns2 => isZero g.netOurDNS2IP
  | .hostName => g.netOurHostName 0 == 0
  | .rootPath => g.netOurRootPath 0 == 0
  | .nisDomain => g.netOurNISDomain 0 == 0

/-- The field at `ext` has nothing for the variable that it is for. -/
def leavesEmpty (cfg : Config) (pkt : Packet) (ext : Nat) : Slot → Bool
  | .subnetMask | .gateway | .dns => isZero (bytes pkt (ext + 2) 4)
  | .dns2 => !(cfg.dns2 && decide (4 < (pkt (ext + 1)).toNat)) || isZero (bytes pkt (ext + 6) 4)
  | .hostName | .rootPath | .nisDomain => pkt (ext + 1) == 0 || pkt (ext + 2) == 0

def emptyAfter (cfg : Config) (pkt : Packet) (ext : Nat) (empty : Slot → Bool) : Slot → Bool :=
  fun slot => empty slot && (pkt ext != slot.code || leavesEmpty cfg pkt ext slot)

def vendorNeed (cfg : Config) (empty : Slot → Bool) (code : UInt8) (size : Nat) : Nat :=
  if code = 1 then if empty .subnetMask then 4 else 0
  else if code = 3 then if empty .gateway then 4 else 0
  else if code = 6 then
    if (cfg.dns2 ∧ 4 < size) ∧ empty .dns2 then 8 else if empty .dns then 4 else 0
  else if code = 12 then if empty .hostName then min size 31 else 0
  else if code = 13 then if size = 2 then 2 else if size = 4 then 4 else 0
  else if code = 17 then if empty .rootPath then min size 63 else 0
  else if code = 40 then if empty .nisDomain then min size 31 else 0
  else if code = 42 then if cfg.ntpServer then 4 else 0
  else 0

/-- The vendor fields from `ext` on lie in the packet as far as `BootpVendorProcess` goes,
which takes the vendor area to be as long as the packet. -/
inductive FieldsInside (cfg : Config) (pkt : Packet) (len : Nat) : (Slot → Bool) → Nat → Prop
  | limit {empty : Slot → Bool} {ext : Nat} (h : bpVend + 4 + len ≤ ext) :
      FieldsInside cfg pkt len empty ext
  | endMark {empty : Slot → Bool} {ext : Nat} (h : ext < len) (hend : pkt ext = 0xff) :
      FieldsInside cfg pkt len empty ext
  | pad {empty : Slot → Bool} {ext : Nat} (h : ext < len) (hpad : pkt ext = 0)
      (rest : FieldsInside cfg pkt len empty (ext + 1)) : FieldsInside cfg pkt len empty ext
  | field {empty : Slot → Bool} {ext : Nat} (hend : pkt ext ≠ 0xff) (hpad : pkt ext ≠ 0)
      (hstop : ext + (pkt (ext + 1)).toNat + 2 ≤ bpVend + 4 + len)
      (h : ext + 2 + vendorNeed cfg empty (pkt ext) (pkt (ext + 1)).toNat ≤ len)
      (rest : FieldsInside cfg pkt len (emptyAfter cfg pkt ext empty)
        (ext + (pkt (ext + 1)).toNat + 2)) :
      FieldsInside cfg pkt len empty ext
  | beyond {empty : Slot → Bool} {ext : Nat} (hend : pkt ext ≠ 0xff) (hpad : pkt ext ≠ 0)
      (hstop : bpVend + 4 + len < ext + (pkt (ext + 1)).toNat + 2) (h : ext + 2 ≤ len) :
      FieldsInside cfg pkt len empty ext

def BootpInside (cfg : Config) (pkt : Packet) (len : Nat) (empty : Slot → Bool) : Prop :=
  FileEnds pkt len ∧ (HasMagic pkt → FieldsInside cfg pkt len empty (bpVend + 4))

/-! ## One field -/

variable {cfg : Config} {pkt : Packet} {len ext size : Nat} {g g' : Globals} {code : UInt8}

theorem fillIP_eq_ok : fillIP len pkt start ip = .ok ip' ↔
      (isZero ip → start + 4 ≤ len) ∧ ip' = if isZero ip then bytes pkt start 4 else ip := by
  unfold fillIP
  split
  next hzero => simp [read_eq_ok, hzero, eq_comm (a := ip')]
  next hset => simp [hset, eq_comm]

section
variable (hlen : ext + 2 ≤ len)
include hlen

theorem fillString_eq_ok : fillString len pkt ext size (room + 1) array = .ok array' ↔
      ext + 2 + (if array 0 = 0 then min size room else 0) ≤ len ∧
        array' = if array 0 = 0 then setString (bytes pkt (ext + 2) (min size room)) array
          else array := by
  unfold fillString
  split
  next hempty =>
    rw [copyString_eq_ok, eq_comm (a := array')]
    refine and_congr_left' ?_
    omega
  next hset => simp [hlen, eq_comm]

theorem fillIP_inBounds : (∃ ip', fillIP len pkt (ext + 2) ip = .ok ip') ↔
      ext + 2 + (if isZero ip then 4 else 0) ≤ len := by
  simp only [fillIP_eq_ok, exists_and_left, exists_eq, and_true]
  split <;> simp [*]

theorem fillString_inBounds :
    (∃ array', fillString len pkt ext size (room + 1) array = .ok array') ↔
      ext + 2 + (if array 0 = 0 then min size room else 0) ≤ len := by
  simp [fillString_eq_ok hlen]

theorem fillDns_inBounds :
    (∃ g', (((fillIP len pkt (ext + 2) g.netOurDNSIP).map fun ip => { g with netOurDNSIP := ip }) >>=
      fun g => if cfg.dns2 ∧ 4 < size then
        (fillIP len pkt (ext + 6) g.netOurDNS2IP).map fun ip => { g with netOurDNS2IP := ip }
      else .ok g) = .ok g') ↔
      ext + 2 + (if (cfg.dns2 ∧ 4 < size) ∧ isZero g.netOurDNS2IP then 8
        else if isZero g.netOurDNSIP then 4 else 0) ≤ len := by
  simp only [bind_eq_ok, map_eq_ok, fillIP_eq_ok]
  constructor
  · rintro ⟨g', g₁, ⟨ip, ⟨hin, -⟩, rfl⟩, h⟩
    split at h
    next hsecond =>
      obtain ⟨ip2, h2, -⟩ := map_eq_ok.mp h
      have hin2 := (fillIP_eq_ok.mp h2).1
      by_cases hz2 : isZero g.netOurDNS2IP
      · have := hin2 hz2
        rw [if_pos ⟨hsecond, hz2⟩]
        omega
      · rw [if_neg fun hs => hz2 hs.2]
        split
        · exact hin ‹_›
        · exact hlen
    next hsecond =>
      rw [if_neg fun hs => hsecond hs.1]
      split
      · exact hin ‹_›
      · exact hlen
  · intro h
    have hin : isZero g.netOurDNSIP → ext + 2 + 4 ≤ len := by
      intro hz
      rw [if_pos hz] at h
      split at h <;> omega
    rw [exists_comm]
    refine ⟨{ g with netOurDNSIP := if isZero g.netOurDNSIP then bytes pkt (ext + 2) 4
      else g.netOurDNSIP }, ?_⟩
    simp only [exists_and_left]
    refine ⟨⟨_, ⟨hin, rfl⟩, rfl⟩, ?_⟩
    split
    next hsecond =>
      refine exists_map_eq_ok.mpr ⟨_, fillIP_eq_ok.mpr ⟨fun hz2 => ?_, rfl⟩⟩
      rw [if_pos ⟨hsecond, hz2⟩] at h
      omega
    next => exact ⟨_, rfl⟩

theorem vendorField_inBounds : (∃ g', vendorField cfg len pkt ext code size g = .ok g') ↔
      ext + 2 + vendorNeed cfg g.empty code size ≤ len := by
  by_cases h1 : code = 1
  · cases hz : isZero g.netOurSubnetMask <;>
      simp [vendorField, vendorNeed, h1, exists_map_eq_ok, fillIP_inBounds hlen, Globals.empty, hz]
  by_cases h3 : code = 3
  · cases hz : isZero g.netOurGatewayIP <;>
      simp [vendorField, vendorNeed, h3, exists_map_eq_ok, fillIP_inBounds hlen, Globals.empty, hz]
  by_cases h6 : code = 6
  · subst h6
    exact fillDns_inBounds hlen
  by_cases h12 : code = 12
  · simp [vendorField, vendorNeed, h12, exists_map_eq_ok, hostNameSize, fillString_inBounds hlen,
      Globals.empty]
  by_cases h13 : code = 13
  · simp only [vendorField, vendorNeed, h13]
    by_cases hs2 : size = 2
    · simp [hs2, exists_map_eq_ok, read_inBounds]
    by_cases hs4 : size = 4
    · simp [hs4, exists_map_eq_ok, read_inBounds]
    · simp [hs2, hs4, hlen]
  by_cases h17 : code = 17
  · simp [vendorField, vendorNeed, h17, exists_map_eq_ok, rootPathSize, fillString_inBounds hlen,
      Globals.empty]
  by_cases h40 : code = 40
  · simp [vendorField, vendorNeed, h40, exists_map_eq_ok, nisDomainSize, fillString_inBounds hlen,
      Globals.empty]
  by_cases h42 : code = 42
  · cases hntp : cfg.ntpServer <;>
      simp [vendorField, vendorNeed, h42, hntp, hlen, exists_map_eq_ok, read_inBounds]
  · simp [vendorField, vendorNeed, *]

end

theorem isZero_fill : isZero (if isZero ip then s else ip) = (isZero ip && isZero s) := by
  cases h : isZero ip <;> simp [h]

theorem setString_head (hroom : 0 < room) :
    setString (bytes pkt (ext + 2) (min (pkt (ext + 1)).toNat room)) array 0 =
      if pkt (ext + 1) = 0 then 0 else pkt (ext + 2) := by
  rw [setString, bytes_length]
  split
  next hlt =>
    have hne : pkt (ext + 1) ≠ 0 := by
      intro hz
      simp [hz] at hlt
    rw [if_neg hne, bytes_getD hlt, Nat.add_zero]
  next hge =>
    have hz : (pkt (ext + 1)).toNat = 0 := by omega
    rw [if_pos (UInt8.toNat_inj.mp hz), if_pos (by omega)]

theorem head_fill (hroom : 0 < room) :
    ((if array 0 = 0 then setString (bytes pkt (ext + 2) (min (pkt (ext + 1)).toNat room)) array
      else array) 0 == 0) = (array 0 == 0 && (pkt (ext + 1) == 0 || pkt (ext + 2) == 0)) := by
  split
  next hempty =>
    rw [setString_head hroom, hempty]
    split <;> simp [*]
  next hset => simp [hset]

theorem fillDns_empty (hcode : pkt ext = 6)
    (h : (((fillIP len pkt (ext + 2) g.netOurDNSIP).map fun ip => { g with netOurDNSIP := ip }) >>=
      fun g => if cfg.dns2 ∧ 4 < (pkt (ext + 1)).toNat then
        (fillIP len pkt (ext + 6) g.netOurDNS2IP).map fun ip => { g with netOurDNS2IP := ip }
      else .ok g) = .ok g') : g'.empty slot = emptyAfter cfg pkt ext g.empty slot := by
  obtain ⟨g₁, hg₁, h⟩ := bind_eq_ok.mp h
  obtain ⟨_, hip, rfl⟩ := map_eq_ok.mp hg₁
  obtain ⟨-, rfl⟩ := fillIP_eq_ok.mp hip
  split at h
  next hsecond =>
    obtain ⟨_, hip2, rfl⟩ := map_eq_ok.mp h
    obtain ⟨-, rfl⟩ := fillIP_eq_ok.mp hip2
    cases slot <;>
      simp [emptyAfter, hcode, hsecond, Slot.code, Globals.empty, leavesEmpty, isZero_fill]
  next hsecond =>
    have hnot : (cfg.dns2 && decide (4 < (pkt (ext + 1)).toNat)) = false := by
      simpa using hsecond
    cases h
    cases slot <;>
      simp [emptyAfter, hcode, hnot, Slot.code, Globals.empty, leavesEmpty, isZero_fill]

theorem emptyAfter_other (h : ∀ slot : Slot, pkt ext ≠ slot.code) :
    emptyAfter cfg pkt ext empty = empty := by
  funext slot
  simp [emptyAfter, h slot]

theorem vendorField_empty (hlen : ext + 2 ≤ len)
    (h : vendorField cfg len pkt ext (pkt ext) (pkt (ext + 1)).toNat g = .ok g') :
    g'.empty = emptyAfter cfg pkt ext g.empty := by
  funext slot
  unfold vendorField at h
  split at h
  next hcode =>
    obtain ⟨_, hip, rfl⟩ := map_eq_ok.mp h
    obtain ⟨-, rfl⟩ := fillIP_eq_ok.mp hip
    cases slot <;> simp [emptyAfter, hcode, Slot.code, Globals.empty, leavesEmpty, isZero_fill]
  split at h
  next hcode =>
    obtain ⟨_, hip, rfl⟩ := map_eq_ok.mp h
    obtain ⟨-, rfl⟩ := fillIP_eq_ok.mp hip
    cases slot <;> simp [emptyAfter, hcode, Slot.code, Globals.empty, leavesEmpty, isZero_fill]
  split at h
  next hcode => exact fillDns_empty hcode h
  split at h
  next hcode =>
    obtain ⟨_, hname, rfl⟩ := map_eq_ok.mp h
    obtain ⟨-, rfl⟩ := (fillString_eq_ok hlen).mp hname
    cases slot <;> simp [emptyAfter, hcode, Slot.code, Globals.empty, leavesEmpty, head_fill]
  split at h
  next hcode =>
    have hother : ∀ slot : Slot, pkt ext ≠ slot.code := by
      intro slot
      rw [hcode]
      cases slot <;> decide
    rw [emptyAfter_other hother]
    split at h
    · obtain ⟨_, -, rfl⟩ := map_eq_ok.mp h
      cases slot <;> rfl
    split at h
    · obtain ⟨_, -, rfl⟩ := map_eq_ok.mp h
      cases slot <;> rfl
    · cases h
      rfl
  split at h
  next hcode =>
    obtain ⟨_, hname, rfl⟩ := map_eq_ok.mp h
    obtain ⟨-, rfl⟩ := (fillString_eq_ok hlen).mp hname
    cases slot <;> simp [emptyAfter, hcode, Slot.code, Globals.empty, leavesEmpty, head_fill]
  split at h
  next hcode =>
    obtain ⟨_, hname, rfl⟩ := map_eq_ok.mp h
    obtain ⟨-, rfl⟩ := (fillString_eq_ok hlen).mp hname
    cases slot <;> simp [emptyAfter, hcode, Slot.code, Globals.empty, leavesEmpty, head_fill]
  have hother : ∀ slot : Slot, pkt ext ≠ slot.code := by
    intro slot
    cases slot <;> assumption
  rw [emptyAfter_other hother]
  split at h
  · obtain ⟨_, -, rfl⟩ := map_eq_ok.mp h
    cases slot <;> rfl
  · cases h
    rfl

theorem bootpVendorFieldProcess_eq (hlen : ext + 2 ≤ len) :
    bootpVendorFieldProcess cfg len pkt ext g =
      vendorField cfg len pkt ext (pkt ext) (pkt (ext + 1)).toNat { g with netBootFileSize := 0 } := by
  have hsize : readByte len pkt (ext + 1) = .ok (pkt (ext + 1)) :=
    readByte_eq_ok.mpr ⟨by omega, rfl⟩
  have hcode : readByte len pkt ext = .ok (pkt ext) := readByte_eq_ok.mpr ⟨by omega, rfl⟩
  rw [bootpVendorFieldProcess, hsize, hcode]
  rfl

theorem empty_netBootFileSize (n : Nat) : { g with netBootFileSize := n }.empty = g.empty := by
  funext slot
  cases slot <;> rfl

/-! ## The walk -/

theorem bootpVendorLoop_succ (hstop : ext < stop) :
    bootpVendorLoop cfg len pkt stop (fuel + 1) ext g = .ok g' ↔
      (ext < len ∧ pkt ext = 0xff ∧ g = g') ∨
      (ext < len ∧ pkt ext = 0 ∧ bootpVendorLoop cfg len pkt stop fuel (ext + 1) g = .ok g') ∨
      (pkt ext ≠ 0xff ∧ pkt ext ≠ 0 ∧ ext + 2 ≤ len ∧ ∃ g₁,
        fieldBefore cfg len pkt stop (ext + (pkt (ext + 1)).toNat + 2) ext g = .ok g₁ ∧
        bootpVendorLoop cfg len pkt stop fuel (ext + (pkt (ext + 1)).toNat + 2) g₁ = .ok g') := by
  rw [bootpVendorLoop, if_pos hstop]
  simp only [bind_eq_ok, readByte_eq_ok]
  constructor
  · rintro ⟨_, ⟨hin, rfl⟩, h⟩
    split at h
    next hend => exact .inl ⟨hin, hend, Except.ok.inj h⟩
    next hend =>
      split at h
      next hpad => exact .inr (.inl ⟨hin, hpad, h⟩)
      next hpad =>
        obtain ⟨size, hsize, h⟩ := bind_eq_ok.mp h
        obtain ⟨hin', rfl⟩ := readByte_eq_ok.mp hsize
        obtain ⟨g₁, hg₁, h⟩ := bind_eq_ok.mp h
        exact .inr (.inr ⟨hend, hpad, hin', g₁, hg₁, h⟩)
  · rintro (⟨hin, hend, rfl⟩ | ⟨hin, hpad, h⟩ | ⟨hend, hpad, hin, g₁, hg₁, h⟩)
    · exact ⟨_, ⟨hin, rfl⟩, if_pos hend⟩
    · refine ⟨_, ⟨hin, rfl⟩, ?_⟩
      rwa [if_neg (by rw [hpad]; decide), if_pos hpad]
    · refine ⟨_, ⟨by omega, rfl⟩, ?_⟩
      rw [if_neg hend, if_neg hpad, bind_eq_ok]
      exact ⟨_, readByte_eq_ok.mpr ⟨by omega, rfl⟩, bind_eq_ok.mpr ⟨g₁, hg₁, h⟩⟩

theorem bootpVendorLoop_inBounds (hfuel : bpVend + 4 + len ≤ ext + fuel) :
    (∃ g', bootpVendorLoop cfg len pkt (bpVend + 4 + len) fuel ext g = .ok g') ↔
      FieldsInside cfg pkt len g.empty ext := by
  induction fuel generalizing ext g with
  | zero => exact iff_of_true ⟨g, rfl⟩ (.limit hfuel)
  | succ fuel ih =>
    by_cases hstop : ext < bpVend + 4 + len
    · simp only [bootpVendorLoop_succ hstop]
      constructor
      · rintro ⟨g', ⟨hin, hend, -⟩ | ⟨hin, hpad, hrest⟩ | ⟨hend, hpad, hin, g₁, hg₁, hrest⟩⟩
        · exact .endMark hin hend
        · exact .pad hin hpad ((ih (by omega)).mp ⟨g', hrest⟩)
        · have hinside := (ih (by omega)).mp ⟨g', hrest⟩
          unfold fieldBefore at hg₁
          split at hg₁
          next hnext =>
            rw [bootpVendorFieldProcess_eq hin] at hg₁
            have hneed := (vendorField_inBounds hin).mp ⟨g₁, hg₁⟩
            rw [vendorField_empty hin hg₁] at hinside
            rw [empty_netBootFileSize] at hneed hinside
            exact .field hend hpad hnext hneed hinside
          next hnext => exact .beyond hend hpad (by omega) hin
      · intro hinside
        cases hinside with
        | limit hlimit => omega
        | endMark hin hend => exact ⟨g, .inl ⟨hin, hend, rfl⟩⟩
        | pad hin hpad hrest =>
          obtain ⟨g', hg'⟩ := (ih (by omega)).mpr hrest
          exact ⟨g', .inr (.inl ⟨hin, hpad, hg'⟩)⟩
        | field hend hpad hnext hneed hrest =>
          have hin : ext + 2 ≤ len := by omega
          rw [← empty_netBootFileSize 0] at hneed hrest
          obtain ⟨g₁, hg₁⟩ := (vendorField_inBounds hin).mpr hneed
          rw [← vendorField_empty hin hg₁] at hrest
          obtain ⟨g', hg'⟩ := (ih (by omega)).mpr hrest
          refine ⟨g', .inr (.inr ⟨hend, hpad, hin, g₁, ?_, hg'⟩)⟩
          rw [fieldBefore, if_pos hnext, bootpVendorFieldProcess_eq hin, hg₁]
        | beyond hend hpad hnext hin =>
          obtain ⟨g', hg'⟩ : ∃ g', bootpVendorLoop cfg len pkt (bpVend + 4 + len) fuel
              (ext + (pkt (ext + 1)).toNat + 2) g = .ok g' := (ih (by omega)).mpr (.limit (by omega))
          exact ⟨g', .inr (.inr ⟨hend, hpad, hin, g, if_neg (by omega), hg'⟩)⟩
    · rw [bootpVendorLoop, if_neg hstop]
      exact iff_of_true ⟨g, rfl⟩ (.limit (by omega))

/-! ## The handlers -/

theorem bootpCopyNetParams_empty (h : bootpCopyNetParams cfg len pkt g = .ok g') :
    g'.empty = g.empty := by
  have hserver {g₁ : Globals} (h : copyServerIP cfg len pkt g = .ok g₁) : g₁.empty = g.empty := by
    unfold copyServerIP at h
    split at h
    · cases h
      rfl
    · obtain ⟨ip, -, rfl⟩ := map_eq_ok.mp h
      split
      · rfl
      · funext slot
        cases slot <;> rfl
  have hfile {g₁ : Globals} (h : copyBootFile len pkt g₁ = .ok g') : g'.empty = g₁.empty := by
    obtain ⟨file, -, h⟩ := bind_eq_ok.mp h
    split at h
    · cases h
      rfl
    · obtain ⟨name, -, rfl⟩ := map_eq_ok.mp h
      funext slot
      cases slot <;> rfl
  obtain ⟨g₁, hg₁, h⟩ := bind_eq_ok.mp h
  obtain ⟨ip, -, h⟩ := bind_eq_ok.mp h
  rw [hfile h, ← hserver hg₁]
  funext slot
  cases slot <;> rfl

theorem bootpHandler_inBounds : (∃ g', bootpHandler cfg pkt dest src len g = .ok g') ↔
      (bootpCheckPkt g pkt dest src len = 0 → BootpInside cfg pkt len g.empty) := by
  unfold bootpHandler
  split
  next hdrop => exact iff_of_true ⟨g, rfl⟩ fun h => absurd h hdrop
  next haccept =>
    have hcheck := not_not.mp haccept
    have hlen := bootpCheckPkt_eq_zero hcheck
    simp only [hcheck, true_implies, BootpInside]
    rw [← bootpCopyNetParams_inBounds hlen]
    constructor
    · rintro ⟨g', h⟩
      obtain ⟨g₁, hg₁, h⟩ := bind_eq_ok.mp h
      refine ⟨⟨g₁, hg₁⟩, fun hmagic => ?_⟩
      rw [if_pos hmagic] at h
      rw [← bootpCopyNetParams_empty hg₁]
      exact (bootpVendorLoop_inBounds le_rfl).mp ⟨g', h⟩
    · rintro ⟨⟨g₁, hg₁⟩, h⟩
      simp only [bind_eq_ok, hg₁, Except.ok.injEq, exists_eq_left']
      split
      next hmagic =>
        have hfields := h hmagic
        rw [← bootpCopyNetParams_empty hg₁] at hfields
        exact (bootpVendorLoop_inBounds le_rfl).mpr hfields
      next => exact ⟨g₁, rfl⟩

/-- A reply is read in bounds, and everything that is written keeps to its array,
exactly if its options, its vendor fields and its file name keep to its length. -/
theorem reply_inBounds_iff (cfg : Config) (pkt : Packet) (dest src len : Nat) (g : Globals) :
    ((∃ g', dhcpHandler cfg pkt dest src len g = .ok g') ↔
      (bootpCheckPkt g pkt dest src len = 0 → DhcpInside cfg pkt len g.dhcpState)) ∧
    ((∃ g', bootpHandler cfg pkt dest src len g = .ok g') ↔
      (bootpCheckPkt g pkt dest src len = 0 → BootpInside cfg pkt len g.empty)) :=
  ⟨dhcpHandler_inBounds, bootpHandler_inBounds⟩

def bareReply : Packet := fun i =>
  if i = 0 then 2 else if i = 1 then 1 else if i = 2 then 6
  else if bpVend ≤ i then vendorMagic.getD (i - bpVend) 0 else 0

def idle : Globals where
  dhcpState := .selecting
  bootpID := [0, 0, 0, 0]
  netServerIP := [0, 0, 0, 0]
  netOurIP := [0, 0, 0, 0]
  netOurSubnetMask := [0, 0, 0, 0]
  netOurGatewayIP := [0, 0, 0, 0]
  netOurDNSIP := [0, 0, 0, 0]
  netOurDNS2IP := [0, 0, 0, 0]
  netNtpServerIP := [0, 0, 0, 0]
  netDHCPServerIP := [0, 0, 0, 0]
  netTimeOffset := [0, 0, 0, 0]
  dhcpLeasetime := [0, 0, 0, 0]
  netBootFileSize := 0
  netOurHostName := fun _ => 0
  netOurRootPath := fun _ => 0
  netOurNISDomain := fun _ => 0
  bootFile := fun _ => 0

/-- The options of an accepted reply are looked for behind its end. -/
theorem reply_leaves_packet :
    bootpCheckPkt idle bareReply 68 67 240 = 0 ∧
      dhcpHandler ⟨false, false, false, false, none⟩ bareReply 68 67 240 idle = .error .read ∧
      bootpHandler ⟨false, false, false, false, none⟩ bareReply 68 67 240 idle = .error .read := by
  refine ⟨by decide +kernel, ?_, ?_⟩
  · rfl
  · rfl

end UBoot.Net.Bootp
