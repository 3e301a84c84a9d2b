import UBoot.Serial.SRecord

/-!
# What is saved in S-records can be loaded

The characters that `save_serial` sends make `load_serial` store the bytes that were saved
where they were, by induction over the bytes still to save.
-/

namespace UBoot.Serial

open ByteMemory
open List hiding count

/-! ## Bytes in hexadecimal -/

def byteText (bytes : List UInt8) : Text := bytes.flatMap fun b => hexField 2 b.toNat

theorem hexField_two (n : Nat) : hexField 2 n = [hexDigit (n / 16 % 16), hexDigit (n % 16)] := rfl

theorem hex1Bin_hexDigit (h : n < 16) : hex1Bin (hexDigit n) = some n := by
  interval_cases n <;> rfl

theorem hex2Bin_hexField (b : UInt8) (rest : Text) :
    hex2Bin (hexField 2 b.toNat ++ rest) = some (b, rest) := by
  have hhigh : b.toNat / 16 % 16 < 16 := Nat.mod_lt _ (by decide)
  have hlow : b.toNat % 16 < 16 := Nat.mod_lt _ (by decide)
  have hb : b.toNat / 16 % 16 * 16 + b.toNat % 16 = b.toNat := by
    have := b.toNat_lt
    omega
  simp only [hexField_two, cons_append, nil_append, hex2Bin, hex1Bin_hexDigit hhigh,
    hex1Bin_hexDigit hlow, Option.bind_eq_bind, Option.bind_some, hb, UInt8.ofNat_toNat]

theorem byteText_cons (b : UInt8) (bytes : List UInt8) :
    byteText (b :: bytes) = hexField 2 b.toNat ++ byteText bytes := rfl

variable (bytes : List UInt8)

theorem byteText_append (bytes' : List UInt8) :
    byteText (bytes ++ bytes') = byteText bytes ++ byteText bytes' := by
  simp [byteText]

theorem hexBytes_byteText (rest : Text) :
    hexBytes bytes.length (byteText bytes ++ rest) = some (bytes, rest) := by
  induction bytes with
  | nil => rfl
  | cons b bytes ih =>
    simp [hexBytes, byteText_cons, append_assoc, hex2Bin_hexField, ih]

theorem hexField_add_two (width n : Nat) :
    hexField (width + 2) n = hexField width (n / 256) ++ hexField 2 (n % 256) := by
  have hdiv : n / 16 / 16 = n / 256 := Nat.div_div_eq_div_mul n 16 16
  have hhigh : n % 256 / 16 % 16 = n / 16 % 16 := by omega
  have hlow : n % 256 % 16 = n % 16 := by omega
  rw [hexField, hexField, hexField_two, hdiv, hhigh, hlow]
  simp

def addrBytes (a : Nat) : List UInt8 :=
  [UInt8.ofNat (a / 16777216 % 256), UInt8.ofNat (a / 65536 % 256), UInt8.ofNat (a / 256 % 256),
    UInt8.ofNat (a % 256)]

theorem hexField_eight (a : Nat) : hexField 8 a = byteText (addrBytes a) := by
  have hbyte (n : Nat) : (UInt8.ofNat (n % 256)).toNat = n % 256 :=
    UInt8.toNat_ofNat_of_lt' (Nat.mod_lt _ (by decide))
  have hthird : a / 256 / 256 = a / 65536 := by omega
  have hfourth : a / 65536 / 256 = a / 16777216 := by omega
  rw [hexField_add_two 6, hexField_add_two 4, hexField_add_two 2, hexField_add_two 0, hthird,
    hfourth]
  simp only [addrBytes, byteText, flatMap_cons, flatMap_nil, hbyte, append_assoc,
    append_nil]
  rfl

theorem addrOf_addrBytes (h : a < 2 ^ 32) : addrOf (addrBytes a) = a := by
  simp [addrOf, addrBytes]
  omega

theorem chksum_eq :
    chksum bytes = UInt8.ofNat (bytes.map UInt8.toNat).sum := by
  have hfold (acc : UInt8) : bytes.foldl (· + ·) acc =
      acc + UInt8.ofNat (bytes.map UInt8.toNat).sum := by
    induction bytes generalizing acc with
    | nil => simp
    | cons b bytes ih =>
      rw [foldl_cons, ih, map_cons, sum_cons, UInt8.ofNat_add, UInt8.ofNat_toNat,
        UInt8.add_assoc]
  rw [chksum, hfold, UInt8.zero_add]

theorem not_ofNat (n : Nat) : ~~~ UInt8.ofNat n = UInt8.ofNat (255 - n % 256) := by
  have hnot : ∀ x : UInt8, ~~~ x = UInt8.ofNat (255 - x.toNat) := by decide +kernel
  rw [hnot, UInt8.toNat_ofNat']

/-! ## A line -/

def Plain (c : UInt8) : Prop := (c ≠ chReturn ∧ c ≠ chNewline) ∧ c ≠ chNul ∧ c ≠ chCtrlC

instance (c : UInt8) : Decidable (Plain c) := inferInstanceAs (Decidable (_ ∧ _))

theorem hexDigit_plain (h : n < 16) : Plain (hexDigit n) := by
  interval_cases n <;> decide

theorem byteText_plain {bytes : List UInt8} : ∀ c ∈ byteText bytes, Plain c := by
  intro c hc
  obtain ⟨b, -, hb⟩ := mem_flatMap.mp hc
  simp only [hexField_two, mem_cons, not_mem_nil, or_false] at hb
  obtain rfl | rfl := hb
  · exact hexDigit_plain (Nat.mod_lt _ (by decide))
  · exact hexDigit_plain (Nat.mod_lt _ (by decide))

theorem byteText_length : (byteText bytes).length = 2 * bytes.length := by
  induction bytes with
  | nil => rfl
  | cons b bytes ih =>
    rw [byteText_cons, length_append, ih, hexField_two]
    simp
    omega

variable {text : Text}

theorem readRecord_eq (h : ∀ c ∈ text, Plain c) (hn : text.length < n)
    (hc : c = chReturn ∨ c = chNewline) (rest : Text) :
    readRecord n (text ++ c :: rest) = some (.record text, rest) := by
  induction text generalizing n with
  | nil =>
    obtain ⟨n, rfl⟩ := Nat.exists_eq_add_of_le' hn
    simp [readRecord, hc]
  | cons d text ih =>
    obtain ⟨n, rfl⟩ := Nat.exists_eq_add_of_le' (Nat.one_le_of_lt hn)
    obtain ⟨hd, htext⟩ := forall_mem_cons.mp h
    have hend : ¬ (d = chReturn ∨ d = chNewline) := by have := hd.1; tauto
    have hhangup : ¬ (d = chNul ∨ d = chCtrlC) := by have := hd.2; tauto
    rw [cons_append, readRecord, if_neg hend, if_neg hhangup,
      ih htext (by simpa using hn)]
    rfl

def lineEnd (cr : Bool) : Text := if cr then [chReturn, chNewline] else [chNewline]

variable (cr : Bool)

theorem onLine_append (text text' : Text) :
    onLine cr (text ++ text') = onLine cr text ++ onLine cr text' := by
  simp [onLine]

theorem onLine_line (h : ∀ c ∈ text, Plain c) (cr : Bool) :
    onLine cr (text ++ [chNewline]) = text ++ lineEnd cr := by
  have hplain : onLine cr text = text := by
    unfold onLine
    induction text with
    | nil => rfl
    | cons c text ih =>
      obtain ⟨hc, htext⟩ := forall_mem_cons.mp h
      rw [flatMap_cons, ih htext, if_neg fun hnl => hc.1.2 hnl.2]
      rfl
  rw [onLine_append, hplain]
  cases cr <;> rfl

section
variable {flash : Flash} {offset : Int}

def Takes (flash : Flash) (offset : Int) (text : Text) (s s' : LoadState) : Prop :=
  ∃ rounds, ∀ fuel rest, loadLoop flash offset (fuel + rounds) (text ++ rest) s =
    loadLoop flash offset fuel rest s'

theorem Takes.trans (h : Takes flash offset text s s')
    (h' : Takes flash offset text' s' s'') : Takes flash offset (text ++ text') s s'' := by
  obtain ⟨n, hn⟩ := h
  obtain ⟨n', hn'⟩ := h'
  refine ⟨n' + n, fun fuel rest => ?_⟩
  rw [append_assoc, ← Nat.add_assoc, hn, hn']

theorem Takes.line (hp : ∀ c ∈ text, Plain c) (hlen : text.length < srecMaxRecLen)
    (h : ∀ fuel rest, loadLoop flash offset (fuel + 1) (text ++ chNewline :: rest) s =
      loadLoop flash offset fuel rest s') (cr : Bool) :
    Takes flash offset (onLine cr (text ++ [chNewline])) s s' := by
  rw [onLine_line hp]
  cases cr with
  | false => exact ⟨1, fun fuel rest => by simpa [lineEnd] using h fuel rest⟩
  | true =>
    refine ⟨2, fun fuel rest => ?_⟩
    have hsame : loadLoop flash offset (fuel + 2) (text ++ chReturn :: chNewline :: rest) s =
        loadLoop flash offset (fuel + 2) (text ++ chNewline :: chNewline :: rest) s := by
      rw [loadLoop, readRecord_eq hp hlen (.inl rfl), loadLoop, readRecord_eq hp hlen (.inr rfl)]
    have hempty : loadLoop flash offset (fuel + 1) (chNewline :: rest) s' =
        loadLoop flash offset fuel rest s' := by
      have hread : readRecord srecMaxRecLen (chNewline :: rest) = some (.record [], rest) := rfl
      rw [loadLoop, hread]
      rfl
    simp only [lineEnd, ↓reduceIte, append_assoc, cons_append, nil_append]
    rw [hsame, h, hempty]

end

/-! ## A record -/

def dataRecord (a : Nat) (bytes : List UInt8) : Text :=
  let fields := UInt8.ofNat (5 + bytes.length) :: (addrBytes a ++ bytes)
  [chS, 51] ++ byteText (fields ++ [~~~ chksum fields])

theorem srecDecode_dataRecord (ha : a < 2 ^ 32) {bytes : List UInt8}
    (hlen : bytes.length ≤ srecBytesPerRecord) :
    srecDecode (dataRecord a bytes) = .ok ⟨.data4, bytes.length, a, bytes⟩ := by
  have hlength : (UInt8.ofNat (5 + bytes.length)).toNat = 5 + bytes.length :=
    UInt8.toNat_ofNat_of_lt' (show _ < 256 by unfold srecBytesPerRecord at hlen; omega)
  have htype : recordType 51 (5 + bytes.length) = some (SrecType.data4, (bytes.length : Int), 4) := by
    simp [recordType]
  have haddr (rest : Text) : hexBytes 4 (byteText (addrBytes a) ++ rest) =
      some (addrBytes a, rest) := hexBytes_byteText (addrBytes a) rest
  have hcheck (c : UInt8) : hex2Bin (byteText [c]) = some (c, []) := hex2Bin_hexField c []
  rw [dataRecord, srecDecode]
  generalize UInt8.ofNat (5 + bytes.length) = length at hlength
  have hskip : skipToS ([chS, 51] ++ byteText (length :: (addrBytes a ++ bytes) ++
      [~~~ chksum (length :: (addrBytes a ++ bytes))])) =
      51 :: (hexField 2 length.toNat ++ (byteText (addrBytes a) ++ (byteText bytes ++
        byteText [~~~ chksum (length :: (addrBytes a ++ bytes))]))) := by
    simp only [byteText_append, byteText_cons length, append_assoc]
    rfl
  simp only [hskip]
  rw [hex2Bin_hexField]
  simp [hlength, htype, haddr, hcheck, hexBytes_byteText, addrOf_addrBytes ha]

def bytesAt (mem : Memory) (a n : Nat) : List UInt8 := (List.range n).map fun i => mem (a + i)

structure Collected (mem : Memory) (s : SaveState) : Prop where
  checksum : s.checksum = ((bytesAt mem s.address s.reclen).map UInt8.toNat).sum
  data : s.data = byteText (bytesAt mem s.address s.reclen)
  inRange : s.address + s.reclen ≤ 2 ^ 32

theorem bytesAt_length (mem : Memory) (a n : Nat) : (bytesAt mem a n).length = n := by
  simp [bytesAt]

theorem addrBytes_sum (a : Nat) : ((addrBytes a).map UInt8.toNat).sum =
    a / 16777216 % 256 + (a / 65536 % 256 + (a / 256 % 256 + a % 256)) := by
  have hbyte (n : Nat) : (UInt8.ofNat (n % 256)).toNat = n % 256 :=
    UInt8.toNat_ofNat_of_lt' (Nat.mod_lt _ (by decide))
  simp [addrBytes, hbyte]

theorem Collected.dump (h : Collected mem s) (hpos : s.reclen ≠ 0)
    (hlen : s.reclen ≤ srecBytesPerRecord) :
    (dump s).1 = dataRecord s.address (bytesAt mem s.address s.reclen) ++ [chNewline] := by
  have hsmall : 5 + s.reclen < 256 := by unfold srecBytesPerRecord at hlen; omega
  have hlength : (UInt8.ofNat (5 + s.reclen)).toNat = 5 + s.reclen :=
    UInt8.toNat_ofNat_of_lt' hsmall
  have hcheck (n : Nat) : byteText [UInt8.ofNat (255 - n % 256)] = hexField 2 (255 - n % 256) := by
    rw [byteText_cons, UInt8.toNat_ofNat_of_lt' (show _ < 256 by omega)]
    rfl
  simp only [Serial.dump, if_pos hpos, dataRecord, chksum_eq, not_ofNat, byteText_append, hcheck,
    byteText_cons, bytesAt_length, hlength, hexField_eight, h.data, map_cons, map_append,
    sum_cons, sum_append, addrBytes_sum, h.checksum]
  have hone : 4 + s.reclen + 1 = 5 + s.reclen := by omega
  have hhigh : (5 + s.reclen) / 256 = 0 := by omega
  simp only [hone, hhigh, Nat.mod_eq_of_lt hsmall, append_assoc]
  congr 6
  omega

/-! ## The whole download -/

/-- The state of the loader with `n` more bytes loaded to `a`. -/
def LoadState.loaded (mem : Memory) (a n : Nat) (s : LoadState) : LoadState :=
  ⟨storeBytes a (bytesAt mem a n) s.mem, min s.startAddr a, max s.endAddr (a + n - 1)⟩

theorem bytesAt_add (mem : Memory) (a n n' : Nat) :
    bytesAt mem a (n + n') = bytesAt mem a n ++ bytesAt mem (a + n) n' := by
  simp [bytesAt, range_add, Nat.add_assoc]

theorem storeBytes_append (a : Nat) (bytes bytes' : List UInt8) (m : Memory) :
    storeBytes a (bytes ++ bytes') m = storeBytes (a + bytes.length) bytes' (storeBytes a bytes m) := by
  induction bytes generalizing a m with
  | nil => rfl
  | cons b bytes ih =>
    rw [cons_append, storeBytes, storeBytes, ih, length_cons, Nat.add_right_comm,
      Nat.add_assoc]

theorem LoadState.loaded_loaded (mem : Memory) (hn' : 0 < n') (s : LoadState) :
    (s.loaded mem a n).loaded mem (a + n) n' = s.loaded mem a (n + n') := by
  simp only [loaded, bytesAt_add, storeBytes_append, bytesAt_length, LoadState.mk.injEq, true_and]
  omega

section
variable {flash : Flash} {mem : Memory}

theorem storeRecord_eq {a n : Nat} (hpos : 0 < n) (ha : a + n ≤ 2 ^ 32)
    (hflash : flash.addr2info a = false) (s : LoadState) :
    storeRecord flash 0 ⟨.data4, n, a, bytesAt mem a n⟩ s = some (s.loaded mem a n) := by
  have haddr : (((a : Int) + 0) % 2 ^ 32).toNat = a := by omega
  have hlast : (((a : Int) + n - 1) % 2 ^ 32).toNat = a + n - 1 := by omega
  have hmin : (if a < s.startAddr then a else s.startAddr) = min s.startAddr a := by
    split <;> omega
  have hmax : (if s.endAddr < a + n - 1 then a + n - 1 else s.endAddr) =
      max s.endAddr (a + n - 1) := by split <;> omega
  simp only [storeRecord, haddr, hlast, hflash, Bool.false_eq_true, ↓reduceIte,
    Option.bind_eq_bind, Option.bind_some, hmin, hmax, LoadState.loaded]

theorem dataRecord_plain {bytes : List UInt8} : ∀ c ∈ dataRecord a bytes, Plain c := by
  intro c hc
  obtain hc | hc := mem_append.mp hc
  · simp only [mem_cons, not_mem_nil, or_false] at hc
    obtain rfl | rfl := hc <;> decide
  · exact byteText_plain c hc

theorem dataRecord_length (a : Nat) (bytes : List UInt8) :
    (dataRecord a bytes).length = 14 + 2 * bytes.length := by
  simp only [dataRecord, length_append, byteText_length, length_cons, length_nil,
    addrBytes]
  omega

theorem takes_dataRecord {a n : Nat} (hpos : 0 < n) (hn : n ≤ srecBytesPerRecord)
    (ha : a + n ≤ 2 ^ 32) (hflash : flash.addr2info a = false) (s : LoadState) :
    Takes flash 0 (onLine cr (dataRecord a (bytesAt mem a n) ++ [chNewline])) s
      (s.loaded mem a n) := by
  have hlen : (dataRecord a (bytesAt mem a n)).length < srecMaxRecLen := by
    rw [dataRecord_length, bytesAt_length]
    unfold srecMaxRecLen
    unfold srecBytesPerRecord at hn
    omega
  refine Takes.line dataRecord_plain hlen (fun fuel rest => ?_) cr
  have hdecode : srecDecode (dataRecord a (bytesAt mem a n)) =
      .ok ⟨.data4, n, a, bytesAt mem a n⟩ := by
    have h := srecDecode_dataRecord (show a < 2 ^ 32 by omega) ((bytesAt_length mem a n).trans_le hn)
    rwa [bytesAt_length] at h
  rw [loadLoop, readRecord_eq dataRecord_plain hlen (.inr rfl)]
  simp [hdecode, storeRecord_eq hpos ha hflash, if_neg (show ¬ (n : Int) < 0 by omega)]

theorem Collected.collect (h : Collected mem s) (hrange : s.address + s.reclen < 2 ^ 32) :
    Collected mem (collect mem s) := by
  have hmod : (s.address + s.reclen) % 2 ^ 32 = s.address + s.reclen := Nat.mod_eq_of_lt hrange
  have hone : bytesAt mem (s.address + s.reclen) 1 = [mem (s.address + s.reclen)] := rfl
  constructor
  · simp only [Serial.collect, hmod, h.checksum, bytesAt_add, hone, map_append, map_cons,
      map_nil, sum_append, sum_cons, sum_nil, Nat.add_zero]
  · simp only [Serial.collect, hmod, h.data, bytesAt_add, hone, byteText_append]
    rfl
  · exact hrange

theorem takes_saveLoop (hs : Collected mem s)
    (hlen : s.reclen < srecBytesPerRecord) (hcount : 0 < s.reclen + count)
    (hrange : s.address + s.reclen + count ≤ 2 ^ 32)
    (hflash : ∀ a, s.address ≤ a → a < s.address + s.reclen + count → flash.addr2info a = false)
    (l : LoadState) : Takes flash 0 (onLine cr (saveLoop mem count s)) l
      (l.loaded mem s.address (s.reclen + count)) := by
  induction count generalizing s l with
  | zero =>
    rw [saveLoop, hs.dump (by omega) hlen.le]
    exact takes_dataRecord cr hcount hlen.le hrange (hflash _ le_rfl (by omega)) l
  | succ count ih =>
    have hcollect := hs.collect (by omega)
    have hreclen : (collect mem s).reclen = s.reclen + 1 := rfl
    have haddress : (collect mem s).address = s.address := rfl
    have htotal : s.reclen + (count + 1) = s.reclen + 1 + count := by omega
    simp only [saveLoop]
    rw [htotal]
    generalize collect mem s = s' at hcollect hreclen haddress
    rw [← haddress] at hrange hflash ⊢
    rw [← hreclen]
    by_cases hdump : s'.reclen = srecBytesPerRecord ∨ count = 0
    · have hrecord : Takes flash 0 (onLine cr (dump s').1) l (l.loaded mem s'.address s'.reclen) := by
        rw [hcollect.dump (by omega) (by omega)]
        exact takes_dataRecord cr (by omega) (by omega) (by omega) (hflash _ le_rfl (by omega)) l
      simp only [if_pos hdump]
      by_cases hlast : count = 0
      · simpa [hlast] using hrecord
      · rw [if_pos hlast, onLine_append]
        have hnext : (dump s').2 = ⟨s'.address + s'.reclen, 0, 0, []⟩ := by
          show (⟨(s'.address + s'.reclen) % 2 ^ 32, 0, 0, []⟩ : SaveState) = _
          rw [Nat.mod_eq_of_lt (by omega)]
        have htail := ih (s := (dump s').2) (by rw [hnext]; exact ⟨rfl, rfl, by dsimp; omega⟩)
          (by rw [hnext]; show 0 < 16; decide) (by omega) (by rw [hnext]; dsimp; omega)
          (by rw [hnext]; exact fun a h h' => hflash a (by dsimp at h; omega) (by dsimp at h'; omega))
          (l.loaded mem s'.address s'.reclen)
        rw [hnext, Nat.zero_add, LoadState.loaded_loaded mem (by omega)] at htail
        rw [hnext]
        exact hrecord.trans htail
    · simp only [if_neg hdump, nil_append]
      rw [if_pos (by tauto)]
      exact ih hcollect (by omega) (by omega) (by omega)
        (fun a h h' => hflash a h (by omega)) l

end

theorem takes_srec3Start (flash : Flash) (cr : Bool) (s : LoadState) :
    Takes flash 0 (onLine cr srec3Start) s s := by
  have hplain : ∀ c ∈ srec3Start.dropLast, Plain c := by decide +kernel
  have hlen : srec3Start.dropLast.length < srecMaxRecLen := show 10 < 512 + 4 by omega
  refine Takes.line hplain hlen (fun fuel rest => ?_) cr
  have hdecode : srecDecode srec3Start.dropLast = .ok ⟨.start, 0, 0, []⟩ := rfl
  rw [loadLoop, readRecord_eq hplain hlen (.inr rfl)]
  simp [hdecode]

theorem loadLoop_srec3End (flash : Flash) (cr : Bool) (s : LoadState) (rest : Text) :
    loadLoop flash 0 1 (onLine cr srec3End ++ rest) s =
      some (.done 0 ((s.endAddr + 2 ^ 32 - s.startAddr + 1) % 2 ^ 32) s.mem) := by
  have hplain : ∀ c ∈ srec3End.dropLast, Plain c := by decide +kernel
  have hlen : srec3End.dropLast.length < srecMaxRecLen := show 14 < 512 + 4 by omega
  have hdecode : srecDecode srec3End.dropLast = .ok ⟨.end4, 0, 0, []⟩ := rfl
  have hline : onLine cr srec3End ++ rest = srec3End.dropLast ++ (lineEnd cr ++ rest) := by
    rw [← append_assoc, ← onLine_line hplain]
    rfl
  obtain ⟨c, rest', hc, hend⟩ : ∃ c rest', (c = chReturn ∨ c = chNewline) ∧
      lineEnd cr ++ rest = c :: rest' := by
    cases cr
    · exact ⟨chNewline, _, .inr rfl, rfl⟩
    · exact ⟨chReturn, _, .inl rfl, rfl⟩
  rw [hline, hend, loadLoop, readRecord_eq hplain hlen hc]
  simp [hdecode]

theorem takes_dataRecords (saved : Memory)
    (hrange : address + count ≤ 2 ^ 32)
    (hflash : ∀ a, address ≤ a → a < address + count → flash.addr2info a = false) (s : LoadState) :
    Takes flash 0 (onLine cr (saveLoop saved count ⟨address, 0, 0, []⟩)) s
      (if 0 < count then s.loaded saved address count else s) := by
  obtain rfl | hpos := Nat.eq_zero_or_pos count
  · exact ⟨0, fun fuel rest => rfl⟩
  · have hs : Collected saved ⟨address, 0, 0, []⟩ := ⟨rfl, rfl, by dsimp; omega⟩
    have h := takes_saveLoop cr hs (show 0 < 16 by decide) (show 0 < 0 + count by omega) hrange
      hflash s
    rw [Nat.zero_add] at h
    rwa [if_pos hpos]

/-- What was saved is where it was, whatever the memory held before, and the
rest of the memory is as it was. -/
theorem loadSerial_saveSerial (flash : Flash) (cr : Bool) (address count : Nat)
    (saved mem : Memory) (rest : Text) (hcount : count < 2 ^ 32) (hrange : address + count ≤ 2 ^ 32)
    (hflash : ∀ a, address ≤ a → a < address + count → flash.addr2info a = false) :
    ∃ fuel addr size mem', loadSerial flash 0 fuel
        (onLine cr (saveSerial address count saved) ++ rest) mem = some (.done addr size mem') ∧
      addr ≠ 2 ^ 32 - 1 ∧ (0 < count → size = count) ∧
      (∀ a, address ≤ a → a < address + count → mem' a = saved a) ∧
      ∀ a, ¬ (address ≤ a ∧ a < address + count) → mem' a = mem a := by
  have hdata := takes_dataRecords cr saved hrange hflash ⟨mem, 2 ^ 32 - 1, 0⟩
  obtain ⟨rounds, hrounds⟩ := (takes_srec3Start flash cr _).trans hdata
  have hload := hrounds 1 (onLine cr srec3End ++ rest)
  rw [loadLoop_srec3End, ← append_assoc, ← onLine_append, ← onLine_append] at hload
  refine ⟨_, _, _, _, hload, by decide, fun hpos => ?_, fun a h h' => ?_, fun a h => ?_⟩
  · simp only [if_pos hpos, LoadState.loaded]
    omega
  · simp only [if_pos (show 0 < count by omega), LoadState.loaded, storeBytes_apply,
      bytesAt_length, if_pos (And.intro h h')]
    simp [bytesAt, show a - address < count by omega, Nat.add_sub_cancel' h]
  · split
    · simp [LoadState.loaded, storeBytes_apply, bytesAt_length, if_neg h]
    · rfl

theorem loadSerial_saveSerial_byte :
    ∃ fuel addr size mem', loadSerial ⟨fun _ => false, fun _ _ _ => none⟩ 0 fuel
        (onLine true (saveSerial (2 ^ 32 - 1) 1 fun _ => 0xff) ++ []) (fun _ => 0) =
        some (.done addr size mem') ∧
      addr ≠ 2 ^ 32 - 1 ∧ (0 < 1 → size = 1) ∧
      (∀ a, 2 ^ 32 - 1 ≤ a → a < 2 ^ 32 - 1 + 1 → mem' a = 0xff) ∧
      ∀ a, ¬ (2 ^ 32 - 1 ≤ a ∧ a < 2 ^ 32 - 1 + 1) → mem' a = 0 :=
  loadSerial_saveSerial _ true (2 ^ 32 - 1) 1 (fun _ => 0xff) (fun _ => 0) [] (by norm_num)
    (by norm_num) fun _ _ _ => rfl

end UBoot.Serial
