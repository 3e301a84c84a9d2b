import UBoot.Lib.Checked
import UBoot.Net.Bootp

/-!
# Which DHCP replies are read in bounds

Neither the walk over the options nor the search for the message type ends where
the packet does: a reply is read in bounds exactly if its own options keep to it.
The writes all keep to their arrays.
-/

namespace UBoot.Net.Bootp

open Checked

/-! ## Replies that keep to their length -/

/-- `bp_file` ends in the packet, if not in its own 128 bytes. -/
def FileEnds (pkt : Packet) (len : Nat) : Prop := ∃ k, bpFile ≤ k ∧ k < len ∧ pkt k = 0

/-- The bytes of data that are copied from an option; `noFile` tells that `bp_file` is
still empty. -/
def dhcpNeed (cfg : Config) (noFile : Bool) (code : UInt8) (oplen : Nat) : Nat :=
  if code = 1 ∨ code = 3 ∨ code = 51 ∨ code = 54 then 4
  else if code = 2 then if cfg.timeOffset then 4 else 0
  else if code = 6 then if cfg.dns2 ∧ 4 < oplen then 8 else 4
  else if code = 12 then min oplen 31
  else if code = 17 then min oplen 63
  else if code = 42 then if cfg.ntpServer then 4 else 0
  else if code = 67 then if noFile then min oplen 127 else 0
  else 0

def SetsFile (pkt : Packet) (popt : Nat) : Prop :=
  pkt popt = 67 ∧ pkt (popt + 1) ≠ 0 ∧ pkt (popt + 2) ≠ 0

instance (pkt : Packet) (popt : Nat) : Decidable (SetsFile pkt popt) :=
  inferInstanceAs (Decidable (_ ∧ _))

/-- The options from `popt` on lie in the packet as far as `DhcpOptionsProcess` goes. -/
inductive OptionsInside (cfg : Config) (pkt : Packet) (len : Nat) : Bool → Nat → Prop
  | limit {noFile : Bool} {popt : Nat} (h : bpVend + 4 + bootpHdrSize ≤ popt) :
      OptionsInside cfg pkt len noFile popt
  | endMark {noFile : Bool} {popt : Nat} (h : popt < len) (hend : pkt popt = 0xff) :
      OptionsInside cfg pkt len noFile popt
  | option {noFile : Bool} {popt : Nat} (hend : pkt popt ≠ 0xff)
      (h : popt + 2 + dhcpNeed cfg noFile (pkt popt) (pkt (popt + 1)).toNat ≤ len)
      (rest : OptionsInside cfg pkt len (noFile && !decide (SetsFile pkt popt))
        (popt + (pkt (popt + 1)).toNat + 2)) :
      OptionsInside cfg pkt len noFile popt

/-- The search from `popt` on ends in the packet, and with which message type. -/
inductive MessageInside (pkt : Packet) (len : Nat) : Option UInt8 → Nat → Prop
  | endMark {popt : Nat} (h : popt < len) (hend : pkt popt = 0xff) : MessageInside pkt len none popt
  | found {popt : Nat} (hcode : pkt popt = 53) (h : popt + 2 < len) :
      MessageInside pkt len (some (pkt (popt + 2))) popt
  | skip {type : Option UInt8} {popt : Nat} (hend : pkt popt ≠ 0xff) (hcode : pkt popt ≠ 53)
      (h : popt + 1 < len) (rest : MessageInside pkt len type (popt + (pkt (popt + 1)).toNat + 2)) :
      MessageInside pkt len type popt

abbrev HasMagic (pkt : Packet) : Prop := bytes pkt bpVend 4 = vendorMagic

def DhcpInside (cfg : Config) (pkt : Packet) (len : Nat) (state : DhcpState) : Prop :=
  match state with
  | .selecting => hasPrefix cfg pkt → HasMagic pkt →
      OptionsInside cfg pkt len (pkt bpFile == 0) (bpVend + 4)
  | .requesting => bpVend + 4 ≤ len ∧ (HasMagic pkt →
      ∃ type, MessageInside pkt len type (bpVend + 4) ∧ (type = some dhcpAck →
        OptionsInside cfg pkt len (pkt bpFile == 0) (bpVend + 4) ∧ FileEnds pkt len))
  | _ => True

/-! ## Checked copies -/

variable {cfg : Config} {pkt : Packet} {len : Nat} {g : Globals}

theorem bytes_length (start count : Nat) : (bytes pkt start count).length = count := by
  simp [bytes]

theorem readByte_eq_ok : readByte len pkt i = .ok b ↔ i < len ∧ pkt i = b := by
  unfold readByte
  split <;> simp [*]

theorem read_eq_ok :
    read len pkt start count = .ok s ↔ (count = 0 ∨ start + count ≤ len) ∧
      bytes pkt start count = s := by
  unfold read
  split <;> simp [*]

theorem storeString_of_lt (h : s.length < room) : storeString room s old = .ok (setString s old) :=
  if_pos h

theorem truncateSz_eq (room size : Nat) : truncateSz (room + 1) size = min size room := by
  unfold truncateSz
  split <;> omega

theorem copyString_eq_ok : copyString len pkt popt oplen (room + 1) array = .ok array' ↔
      (min oplen room = 0 ∨ popt + 2 + min oplen room ≤ len) ∧
        setString (bytes pkt (popt + 2) (min oplen room)) array = array' := by
  simp only [copyString, bind_eq_ok, read_eq_ok, truncateSz_eq]
  constructor
  · rintro ⟨s, ⟨hin, rfl⟩, hs⟩
    rw [storeString_of_lt (by rw [bytes_length]; omega)] at hs
    exact ⟨hin, Except.ok.inj hs⟩
  · rintro ⟨hin, rfl⟩
    exact ⟨_, ⟨hin, rfl⟩, storeString_of_lt (by rw [bytes_length]; omega)⟩

/-! ## The string in bp_file -/

theorem readString_ends (n i : Nat) :
    (∃ s, readString pkt n i = .ok s) ↔ ∃ k, i ≤ k ∧ k < i + n ∧ pkt k = 0 := by
  induction n generalizing i with
  | zero =>
    simp only [readString, reduceCtorEq, exists_false, false_iff]
    rintro ⟨k, hk, hlt, -⟩
    omega
  | succ n ih =>
    rw [readString]
    split
    next hz => exact iff_of_true ⟨[], rfl⟩ ⟨i, le_rfl, by omega, hz⟩
    next hz =>
      simp only [bind_eq_ok, Except.ok.injEq]
      constructor
      · rintro ⟨_, s, hs, -⟩
        obtain ⟨k, hk, hlt, h0⟩ := (ih (i + 1)).mp ⟨s, hs⟩
        exact ⟨k, by omega, by omega, h0⟩
      · rintro ⟨k, hk, hlt, h0⟩
        have hne : k ≠ i := fun he => hz (he ▸ h0)
        obtain ⟨s, hs⟩ := (ih (i + 1)).mpr ⟨k, by omega, by omega, h0⟩
        exact ⟨_, s, hs, rfl⟩

theorem filenameOf_length (s : List UInt8) : (filenameOf s bootFileSize).length < bootFileSize := by
  have htake (l : List UInt8) (n : Nat) (hn : n < bootFileSize) :
      ((l.take n).takeWhile (· ≠ chQuote)).length < bootFileSize := by
    have h1 := (List.takeWhile_sublist (l := l.take n) (· ≠ chQuote)).length_le
    have h2 := List.length_take_le n l
    omega
  match s with
  | [] => decide
  | c :: rest =>
    rw [filenameOf]
    split
    · exact htake rest _ (by decide)
    · exact htake (c :: rest) _ (by decide)

theorem copyServerIP_inBounds (hlen : bpVend ≤ len) :
    ∃ g', copyServerIP cfg len pkt g = .ok g' := by
  unfold copyServerIP
  split
  · exact ⟨g, rfl⟩
  · exact exists_map_eq_ok.mpr ⟨_, read_eq_ok.mpr ⟨.inr (le_trans (by decide) hlen), rfl⟩⟩

theorem copyBootFile_inBounds (hlen : bpVend ≤ len) :
    (∃ g', copyBootFile len pkt g = .ok g') ↔ FileEnds pkt len := by
  have hends : FileEnds pkt len ↔ ∃ s, readString pkt (len - bpFile) bpFile = .ok s := by
    have hle : bpFile ≤ len := le_trans (by decide) hlen
    rw [readString_ends, Nat.add_sub_cancel' hle, FileEnds]
  simp only [hends, copyBootFile, bind_eq_ok]
  constructor
  · rintro ⟨g', s, hs, -⟩
    exact ⟨s, hs⟩
  · rintro ⟨s, hs⟩
    rw [exists_comm]
    refine ⟨s, ?_⟩
    simp only [hs, true_and]
    split
    · exact ⟨g, rfl⟩
    · exact exists_map_eq_ok.mpr ⟨_, storeString_of_lt (filenameOf_length s)⟩

theorem bootpCopyNetParams_inBounds (hlen : bpVend ≤ len) :
    (∃ g', bootpCopyNetParams cfg len pkt g = .ok g') ↔ FileEnds pkt len := by
  simp only [bootpCopyNetParams, bind_eq_ok]
  constructor
  · rintro ⟨g', g₁, -, ip, -, h⟩
    exact (copyBootFile_inBounds hlen).mp ⟨g', h⟩
  · intro h
    obtain ⟨g₁, hg₁⟩ : ∃ g₁, copyServerIP cfg len pkt g = .ok g₁ := copyServerIP_inBounds hlen
    obtain ⟨g', hg'⟩ : ∃ g', copyBootFile len pkt { g₁ with netOurIP := bytes pkt bpYiaddr 4 } =
        .ok g' := (copyBootFile_inBounds hlen).mpr h
    exact ⟨g', g₁, hg₁, _, read_eq_ok.mpr ⟨.inr (le_trans (by decide) hlen), rfl⟩, hg'⟩

/-! ## Options -/

variable {popt oplen : Nat} {code : UInt8}

theorem read_inBounds :
    (∃ s, read len pkt start count = .ok s) ↔ count = 0 ∨ start + count ≤ len := by
  simp [read_eq_ok]

theorem copyString_inBounds (hlen : popt + 2 ≤ len) :
    (∃ array', copyString len pkt popt oplen (room + 1) array = .ok array') ↔
      popt + 2 + min oplen room ≤ len := by
  simp only [copyString_eq_ok, exists_and_left, exists_eq', and_true]
  omega

theorem dns_inBounds [Decidable second] (f : List UInt8 → Globals)
    (f' : Globals → List UInt8 → Globals) :
    (∃ g', ((read len pkt (popt + 2) 4).map f >>= fun g =>
      if second then (read len pkt (popt + 6) 4).map (f' g) else .ok g) = .ok g') ↔
      popt + 2 + (if second then 8 else 4) ≤ len := by
  simp only [bind_eq_ok, map_eq_ok, read_eq_ok]
  split
  · simp only [map_eq_ok, read_eq_ok]
    constructor
    · rintro ⟨g', g₁, ⟨_, ⟨h, rfl⟩, rfl⟩, _, ⟨h', rfl⟩, rfl⟩
      omega
    · intro h
      exact ⟨_, _, ⟨_, ⟨by omega, rfl⟩, rfl⟩, _, ⟨by omega, rfl⟩, rfl⟩
  · simp [add_assoc]

theorem dhcpGlobals_inBounds (hlen : popt + 2 ≤ len) (hcode : code ≠ 67) :
    (∃ g', dhcpGlobals cfg len pkt popt code oplen g = .ok g') ↔
      popt + 2 + dhcpNeed cfg noFile code oplen ≤ len := by
  by_cases h2 : code = 2
  · cases htime : cfg.timeOffset <;>
      simp [dhcpGlobals, dhcpNeed, h2, htime, hlen, exists_map_eq_ok, read_inBounds]
  by_cases h6 : code = 6
  · simp only [dhcpGlobals, dhcpNeed, h6]
    simp [dns_inBounds]
  by_cases h12 : code = 12
  · simp [dhcpGlobals, dhcpNeed, h12, exists_map_eq_ok, hostNameSize, copyString_inBounds hlen]
  by_cases h17 : code = 17
  · simp [dhcpGlobals, dhcpNeed, h17, exists_map_eq_ok, rootPathSize, copyString_inBounds hlen]
  by_cases h42 : code = 42
  · cases hntp : cfg.ntpServer <;>
      simp [dhcpGlobals, dhcpNeed, h42, hntp, hlen, exists_map_eq_ok, read_inBounds]
  by_cases hip : code = 1 ∨ code = 3 ∨ code = 51 ∨ code = 54
  · rw [dhcpNeed, if_pos hip]
    obtain rfl | rfl | rfl | rfl := hip <;> simp [dhcpGlobals, exists_map_eq_ok, read_inBounds]
  · rw [not_or, not_or, not_or] at hip
    simp [dhcpGlobals, dhcpNeed, *]

theorem storeFile_eq_ok (hlen : bpVend ≤ len) (hopt : popt + 2 ≤ len) :
    storeFile len popt oplen pkt = .ok pkt' ↔
      popt + 2 + (if pkt bpFile = 0 then min oplen 127 else 0) ≤ len ∧
        pkt' = if pkt bpFile = 0 ∧ 0 < oplen then setFile (bytes pkt (popt + 2) (min oplen 127)) pkt
          else pkt := by
  have hfirst : readByte len pkt bpFile = .ok (pkt bpFile) :=
    readByte_eq_ok.mpr ⟨lt_of_lt_of_le (by decide) hlen, rfl⟩
  have hsize : truncateSz bootFileSize oplen = min oplen 127 := truncateSz_eq 127 oplen
  have hroom : min oplen 127 < bootFileSize := lt_of_le_of_lt (min_le_right _ _) (by decide)
  rw [storeFile, hfirst]
  simp only [bind, Except.bind, hsize, lt_min_iff, Nat.ofNat_pos, and_true]
  by_cases h : pkt bpFile = 0 ∧ 0 < oplen
  · simp only [if_pos h, if_pos h.1]
    by_cases hin : popt + 2 + min oplen 127 ≤ len
    · simp [read, hin, bytes_length, hroom, eq_comm]
    · have hpos : min oplen 127 ≠ 0 := by omega
      simp [read, hin, hpos]
  · simp only [if_neg h]
    have hin : popt + 2 + (if pkt bpFile = 0 then min oplen 127 else 0) ≤ len := by
      split
      next hempty =>
        have hzero : oplen = 0 := Nat.eq_zero_of_not_pos fun hpos => h ⟨hempty, hpos⟩
        simpa [hzero] using hopt
      next => exact hopt
    simp [hin, eq_comm]

theorem dhcpOption_inBounds (hlen : bpVend ≤ len) (hopt : popt + 2 ≤ len) :
    (∃ s', dhcpOption cfg len popt code oplen s = .ok s') ↔
      popt + 2 + dhcpNeed cfg (s.pkt bpFile == 0) code oplen ≤ len := by
  unfold dhcpOption
  split
  next h =>
    simp only [exists_map_eq_ok, storeFile_eq_ok hlen hopt, exists_and_left, exists_eq, and_true]
    simp [dhcpNeed, h]
  next h => rw [exists_map_eq_ok, dhcpGlobals_inBounds hopt h]

/-- The packet as it is after some options: only `bp_file` has changed, and only
from an empty one to a name with its `NUL`. -/
structure Follows (pkt cur : Packet) (noFile : Bool) : Prop where
  vend : ∀ i, bpVend ≤ i → cur i = pkt i
  first : (cur bpFile == 0) = noFile
  file : cur = pkt ∨ pkt bpFile = 0 ∧ ∃ k, bpFile ≤ k ∧ k < bpVend ∧ cur k = 0

theorem Follows.refl (pkt : Packet) : Follows pkt pkt (pkt bpFile == 0) :=
  ⟨fun _ _ => rfl, rfl, .inl rfl⟩

theorem Follows.fileEnds (h : Follows pkt cur noFile) (hlen : bpVend ≤ len) :
    FileEnds cur len ↔ FileEnds pkt len := by
  obtain rfl | ⟨h0, k, hk, hlt, hz⟩ := h.file
  · rfl
  · exact iff_of_true ⟨k, hk, by omega, hz⟩ ⟨bpFile, le_rfl, lt_of_lt_of_le (by decide) hlen, h0⟩

theorem setFile_apply : setFile s pkt (bpFile + k) =
      if k < s.length then s.getD k 0 else if k = s.length then 0 else pkt (bpFile + k) := by
  simp [setFile, setString]

theorem bytes_getD (h : k < count) :
    (bytes pkt start count).getD k 0 = pkt (start + k) := by
  simp [bytes, List.getD_eq_getElem?_getD, h]

theorem Follows.storeFile (h : Follows pkt cur noFile) (hlen : bpVend ≤ len) (hopt : popt + 2 ≤ len)
    (hvend : bpVend ≤ popt) (hcode : pkt popt = 67)
    (hstore : storeFile len popt (pkt (popt + 1)).toNat cur = .ok cur') :
    Follows pkt cur' (noFile && !decide (SetsFile pkt popt)) := by
  obtain ⟨-, rfl⟩ := (storeFile_eq_ok hlen hopt).mp hstore
  have hoplen : pkt (popt + 1) ≠ 0 ↔ 0 < (pkt (popt + 1)).toNat := by
    rw [Nat.pos_iff_ne_zero, ne_eq, ne_eq, ← UInt8.toNat_inj, UInt8.toNat_zero]
  split
  next hset =>
    obtain ⟨hempty, hpos⟩ := hset
    have hsize : min (pkt (popt + 1)).toNat 127 < bpVend - bpFile :=
      lt_of_le_of_lt (min_le_right _ _) (by decide)
    refine ⟨fun i hi => ?_, ?_, .inr ⟨?_, bpFile + min (pkt (popt + 1)).toNat 127, by omega,
      by omega, ?_⟩⟩
    · obtain ⟨k, rfl⟩ := Nat.exists_eq_add_of_le (show bpFile ≤ i by omega)
      rw [setFile_apply, bytes_length, if_neg (by omega), if_neg (by omega), h.vend _ hi]
    · have hnoFile : noFile = true := by rw [← h.first, hempty]; rfl
      have hval : setFile (bytes cur (popt + 2) (min (pkt (popt + 1)).toNat 127)) cur bpFile =
          pkt (popt + 2) := by
        rw [← Nat.add_zero bpFile, setFile_apply, bytes_length, if_pos (by omega),
          bytes_getD (by omega), h.vend _ (by omega)]
      rw [hval, hnoFile]
      simp [SetsFile, hcode, hoplen, hpos, beq_eq_decide]
    · obtain rfl | ⟨h0, -⟩ := h.file
      · exact hempty
      · exact h0
    · rw [setFile_apply, bytes_length, if_neg (lt_irrefl _), if_pos rfl]
  next hkeep =>
    have hsame : (noFile && !decide (SetsFile pkt popt)) = noFile := by
      rw [← h.first]
      by_cases hempty : cur bpFile = 0
      · have hnot : ¬ SetsFile pkt popt := fun hs => hkeep ⟨hempty, hoplen.mp hs.2.1⟩
        simp [hnot]
      · simp [hempty]
    rw [hsame]
    exact h

theorem Follows.dhcpOption (h : Follows pkt s.pkt noFile) (hlen : bpVend ≤ len)
    (hopt : popt + 2 ≤ len) (hvend : bpVend ≤ popt)
    (hs' : dhcpOption cfg len popt (pkt popt) (pkt (popt + 1)).toNat s = .ok s') :
    Follows pkt s'.pkt (noFile && !decide (SetsFile pkt popt)) := by
  unfold Bootp.dhcpOption at hs'
  split at hs'
  next hcode =>
    obtain ⟨cur', hcur', rfl⟩ := map_eq_ok.mp hs'
    exact h.storeFile hlen hopt hvend hcode hcur'
  next hcode =>
    obtain ⟨g', -, rfl⟩ := map_eq_ok.mp hs'
    have hnot : ¬ SetsFile pkt popt := fun hs => hcode hs.1
    simpa [hnot] using h

theorem dhcpOptionsLoop_succ (hstop : popt < stop) :
    dhcpOptionsLoop cfg len stop (fuel + 1) popt s = .ok s' ↔
      (popt < len ∧ s.pkt popt = 0xff ∧ s = s') ∨
      (s.pkt popt ≠ 0xff ∧ popt + 2 ≤ len ∧ ∃ s₁,
        dhcpOption cfg len popt (s.pkt popt) (s.pkt (popt + 1)).toNat s = .ok s₁ ∧
        dhcpOptionsLoop cfg len stop fuel (popt + (s.pkt (popt + 1)).toNat + 2) s₁ = .ok s') := by
  rw [dhcpOptionsLoop, if_pos hstop]
  simp only [bind_eq_ok, readByte_eq_ok]
  constructor
  · rintro ⟨code, ⟨hin, rfl⟩, h⟩
    split at h
    next hend => exact .inl ⟨hin, hend, Except.ok.inj h⟩
    next hend =>
      simp only [bind_eq_ok, readByte_eq_ok] at h
      obtain ⟨_, ⟨hin', rfl⟩, s₁, hs₁, hrest⟩ := h
      exact .inr ⟨hend, hin', s₁, hs₁, hrest⟩
  · rintro (⟨hin, hend, rfl⟩ | ⟨hend, hin, s₁, hs₁, hrest⟩)
    · exact ⟨_, ⟨hin, rfl⟩, if_pos hend⟩
    · refine ⟨_, ⟨by omega, rfl⟩, ?_⟩
      rw [if_neg hend]
      simp only [bind_eq_ok, readByte_eq_ok]
      exact ⟨_, ⟨by omega, rfl⟩, s₁, hs₁, hrest⟩

theorem Follows.dhcpOptionsLoop (h : Follows pkt s.pkt noFile)
    (hlen : bpVend ≤ len) (hvend : bpVend ≤ popt)
    (hs' : dhcpOptionsLoop cfg len stop fuel popt s = .ok s') :
    ∃ noFile', Follows pkt s'.pkt noFile' := by
  induction fuel generalizing popt s noFile with
  | zero =>
    cases hs'
    exact ⟨noFile, h⟩
  | succ fuel ih =>
    by_cases hstop : popt < stop
    · obtain ⟨-, -, rfl⟩ | ⟨-, hopt, s₁, hs₁, hrest⟩ := (dhcpOptionsLoop_succ hstop).mp hs'
      · exact ⟨noFile, h⟩
      · rw [h.vend _ hvend, h.vend _ (by omega)] at hs₁
        exact ih (h.dhcpOption hlen hopt hvend hs₁) (by omega) hrest
    · rw [Bootp.dhcpOptionsLoop, if_neg hstop] at hs'
      cases hs'
      exact ⟨noFile, h⟩

theorem dhcpOptionsLoop_inBounds (h : Follows pkt s.pkt noFile) (hlen : bpVend ≤ len)
    (hvend : bpVend ≤ popt) (hfuel : bpVend + 4 + bootpHdrSize ≤ popt + fuel) :
    (∃ s', dhcpOptionsLoop cfg len (bpVend + 4 + bootpHdrSize) fuel popt s = .ok s') ↔
      OptionsInside cfg pkt len noFile popt := by
  induction fuel generalizing popt s noFile with
  | zero => exact iff_of_true ⟨s, rfl⟩ (.limit hfuel)
  | succ fuel ih =>
    by_cases hstop : popt < bpVend + 4 + bootpHdrSize
    · simp only [dhcpOptionsLoop_succ hstop, h.vend _ hvend, h.vend _ (Nat.le_succ_of_le hvend)]
      constructor
      · rintro ⟨s', ⟨hin, hend, -⟩ | ⟨hend, hopt, s₁, hs₁, hrest⟩⟩
        · exact .endMark hin hend
        · have hneed := (dhcpOption_inBounds hlen hopt).mp ⟨s₁, hs₁⟩
          rw [h.first] at hneed
          have hfollows := h.dhcpOption hlen hopt hvend hs₁
          exact .option hend hneed ((ih hfollows (by omega) (by omega)).mp ⟨s', hrest⟩)
      · intro hinside
        cases hinside with
        | limit hlimit => omega
        | endMark hin hend => exact ⟨s, .inl ⟨hin, hend, rfl⟩⟩
        | option hend hneed hrest =>
          rw [← h.first] at hneed
          have hopt : popt + 2 ≤ len := by omega
          obtain ⟨s₁, hs₁⟩ := (dhcpOption_inBounds hlen hopt).mpr hneed
          have hfollows := h.dhcpOption hlen hopt hvend hs₁
          obtain ⟨s', hs'⟩ := (ih hfollows (by omega) (by omega)).mpr hrest
          exact ⟨s', .inr ⟨hend, hopt, s₁, hs₁, hs'⟩⟩
    · rw [dhcpOptionsLoop, if_neg hstop]
      exact iff_of_true ⟨s, rfl⟩ (.limit (by omega))

/-! ## The message type -/

theorem messageTypeLoop_eq_ok (hfuel : len < popt + fuel) :
    messageTypeLoop len pkt fuel popt = .ok type ↔ MessageInside pkt len type popt := by
  induction fuel generalizing popt with
  | zero =>
    simp only [messageTypeLoop, reduceCtorEq, false_iff]
    intro h
    cases h <;> omega
  | succ fuel ih =>
    simp only [messageTypeLoop, bind_eq_ok, readByte_eq_ok]
    constructor
    · rintro ⟨code, ⟨hin, rfl⟩, h⟩
      split at h
      next hend =>
        cases h
        exact .endMark hin hend
      next hend =>
        split at h
        next hcode =>
          obtain ⟨_, ⟨hin', rfl⟩, h⟩ := by simpa only [bind_eq_ok, readByte_eq_ok] using h
          cases h
          exact .found hcode hin'
        next hcode =>
          simp only [bind_eq_ok, readByte_eq_ok] at h
          obtain ⟨_, ⟨hin', rfl⟩, h⟩ := h
          exact .skip hend hcode hin' ((ih (by omega)).mp h)
    · intro h
      cases h with
      | endMark hin hend => exact ⟨_, ⟨hin, rfl⟩, if_pos hend⟩
      | found hcode hin =>
        refine ⟨_, ⟨by omega, rfl⟩, ?_⟩
        rw [if_neg (by rw [hcode]; decide), if_pos hcode, bind_eq_ok]
        exact ⟨_, readByte_eq_ok.mpr ⟨hin, rfl⟩, rfl⟩
      | skip hend hcode hin hrest =>
        refine ⟨_, ⟨by omega, rfl⟩, ?_⟩
        rw [if_neg hend, if_neg hcode, bind_eq_ok]
        exact ⟨_, readByte_eq_ok.mpr ⟨hin, rfl⟩, (ih (by omega)).mpr hrest⟩

theorem dhcpMessageType_eq_ok :
    dhcpMessageType len pkt bpVend = .ok type ↔ bpVend + 4 ≤ len ∧
      if HasMagic pkt then MessageInside pkt len type (bpVend + 4) else type = none := by
  simp only [dhcpMessageType, bind_eq_ok, read_eq_ok, OfNat.ofNat_ne_zero, false_or]
  constructor
  · rintro ⟨_, ⟨hin, rfl⟩, h⟩
    refine ⟨hin, ?_⟩
    split at h
    next hno => rw [if_neg hno, Except.ok.inj h]
    next hmagic =>
      rw [if_pos (not_not.mp hmagic)]
      exact (messageTypeLoop_eq_ok (by omega)).mp h
  · rintro ⟨hin, h⟩
    refine ⟨_, ⟨hin, rfl⟩, ?_⟩
    split at h
    next hmagic =>
      rw [if_neg (not_not.mpr hmagic)]
      exact (messageTypeLoop_eq_ok (by omega)).mpr h
    next hno => rw [if_pos hno, h]

/-! ## The handler -/

theorem dhcpOptions_inBounds (hlen : bpVend ≤ len) :
    (∃ s, dhcpOptions cfg len ⟨g, pkt⟩ = .ok s) ↔
      (HasMagic pkt → OptionsInside cfg pkt len (pkt bpFile == 0) (bpVend + 4)) := by
  unfold dhcpOptions
  split
  next hmagic =>
    rw [dhcpOptionsProcess, dhcpOptionsLoop_inBounds (Follows.refl pkt) hlen (by omega) le_rfl]
    exact ⟨fun h _ => h, fun h => h hmagic⟩
  next hno => exact iff_of_true ⟨_, rfl⟩ fun h => absurd h hno

theorem Follows.dhcpOptions (hlen : bpVend ≤ len) (h : dhcpOptions cfg len ⟨g, pkt⟩ = .ok s) :
    ∃ noFile, Follows pkt s.pkt noFile := by
  unfold Bootp.dhcpOptions at h
  split at h
  · exact (Follows.refl pkt).dhcpOptionsLoop hlen (by omega) h
  · cases h
    exact ⟨_, Follows.refl pkt⟩

theorem acknowledged_inBounds (hlen : bpVend ≤ len) :
    (∃ g', (do
      let s ← dhcpOptions cfg len ⟨g, pkt⟩
      let g ← bootpCopyNetParams cfg len s.pkt s.globals
      .ok { g with dhcpState := .bound } : Except Fault Globals) = .ok g') ↔
      (HasMagic pkt → OptionsInside cfg pkt len (pkt bpFile == 0) (bpVend + 4)) ∧
        FileEnds pkt len := by
  rw [← dhcpOptions_inBounds hlen]
  simp only [bind_eq_ok]
  constructor
  · rintro ⟨g', s, hs, g₁, hg₁, -⟩
    obtain ⟨noFile, hfollows⟩ := Follows.dhcpOptions hlen hs
    exact ⟨⟨s, hs⟩, (hfollows.fileEnds hlen).mp ((bootpCopyNetParams_inBounds hlen).mp ⟨g₁, hg₁⟩)⟩
  · rintro ⟨⟨s, hs⟩, hends⟩
    obtain ⟨noFile, hfollows⟩ := Follows.dhcpOptions hlen hs
    obtain ⟨g₁, hg₁⟩ := (bootpCopyNetParams_inBounds hlen).mpr ((hfollows.fileEnds hlen).mpr hends)
    exact ⟨_, s, hs, g₁, hg₁, rfl⟩

theorem bootpCheckPkt_eq_zero (h : bootpCheckPkt g pkt dest src len = 0) : bpVend ≤ len := by
  by_contra hlt
  rw [bootpCheckPkt] at h
  split at h
  · omega
  · rw [if_pos (by omega)] at h
    omega

theorem dhcpHandler_inBounds : (∃ g', dhcpHandler cfg pkt dest src len g = .ok g') ↔
      (bootpCheckPkt g pkt dest src len = 0 → DhcpInside cfg pkt len g.dhcpState) := by
  unfold dhcpHandler
  split
  next hdrop => exact iff_of_true ⟨g, rfl⟩ fun h => absurd h hdrop
  next haccept =>
    have hcheck := not_not.mp haccept
    have hlen := bootpCheckPkt_eq_zero hcheck
    simp only [hcheck, true_implies]
    cases hstate : g.dhcpState with
    | selecting =>
      simp only [DhcpInside]
      split
      next hcookie =>
        simp only [bind_eq_ok, Except.ok.injEq]
        rw [exists_comm]
        simp [hcookie, dhcpOptions_inBounds hlen]
      next hcookie => exact iff_of_true ⟨g, rfl⟩ fun h => absurd h hcookie
    | requesting =>
      simp only [DhcpInside]
      constructor
      · rintro ⟨g', h⟩
        obtain ⟨type, htype, h⟩ := bind_eq_ok.mp h
        obtain ⟨hin, hmessage⟩ := dhcpMessageType_eq_ok.mp htype
        refine ⟨hin, fun hmagic => ⟨type, by rwa [if_pos hmagic] at hmessage, fun hack => ?_⟩⟩
        rw [if_pos hack] at h
        obtain ⟨hoptions, hends⟩ := (acknowledged_inBounds hlen).mp ⟨g', h⟩
        exact ⟨hoptions hmagic, hends⟩
      · rintro ⟨hin, h⟩
        simp only [bind_eq_ok]
        rw [exists_comm]
        by_cases hmagic : HasMagic pkt
        · obtain ⟨type, hmessage, hack⟩ := h hmagic
          refine ⟨type, ?_⟩
          have htype : dhcpMessageType len pkt bpVend = .ok type :=
            dhcpMessageType_eq_ok.mpr ⟨hin, by rwa [if_pos hmagic]⟩
          simp only [htype, true_and]
          split
          next hacked =>
            obtain ⟨hoptions, hends⟩ := hack hacked
            exact (acknowledged_inBounds hlen).mpr ⟨fun _ => hoptions, hends⟩
          next => exact ⟨g, rfl⟩
        · refine ⟨none, g, dhcpMessageType_eq_ok.mpr ⟨hin, by rw [if_neg hmagic]⟩, ?_⟩
          rw [if_neg (by simp)]
    | _ => exact iff_of_true ⟨g, rfl⟩ trivial

end UBoot.Net.Bootp
