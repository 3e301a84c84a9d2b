import UBoot.Lib.Updates
import UBoot.Nor.ReadOnly
import UBoot.Nor.SfcRead

/-!
# Exact reads of an SFC NOR flash

A transfer stores the bytes it is asked for and reports whole words. The loop
around it takes what is reported from the length, so that a length with a part of
a word does not come to 0 and the next transfer runs over the whole memory.
-/

namespace UBoot.Nor

open LittleEndian Updates Word32 Option List

/-! ## What a read is for -/

def StoredExactly (c : Controller) (start len buf : Nat) (stored : List (Nat × UInt8)) : Prop :=
  (∀ mem, ∀ i < len, updates stored mem (u32 (buf + i)) = c.flash (start + i)) ∧
    ∀ p ∈ stored, ∃ i < len, p.1 = u32 (buf + i)

def ReadsExactly (c : Controller) (table : NorflashPartitions) (start len buf : UInt32) : Prop :=
  (∃ polls rounds, (sfcNorRead c table polls rounds start len buf).isSome) ∧
    ∀ polls rounds stored, sfcNorRead c table polls rounds start len buf = some stored →
      StoredExactly c start.toNat len.toNat buf.toNat stored

/-! ## Stores -/

theorem store_append (data : Nat) (xs ys : List UInt8) :
    store data (xs ++ ys) = store data xs ++ store (data + xs.length) ys := by
  rw [store, zipIdx_append, map_append, store, store]

theorem mem_store {data : Nat} {bytes : List UInt8} :
    p ∈ store data bytes ↔ ∃ i b, bytes[i]? = some b ∧ p = (u32 (data + i), b) := by
  unfold store
  simp only [List.mem_map, Prod.exists, mem_zipIdx_iff_le_and_getElem?_sub]
  constructor
  · rintro ⟨b, a, ⟨hle, hb⟩, rfl⟩
    exact ⟨a - data, b, hb, by rw [Nat.add_sub_cancel' hle]⟩
  · rintro ⟨i, b, hb, rfl⟩
    exact ⟨b, data + i, ⟨Nat.le_add_right _ _, by rwa [Nat.add_sub_cancel_left]⟩, rfl⟩

theorem nodup_store (hlen : bytes.length < 2 ^ 32) :
    ((store data bytes).map Prod.fst).Nodup := by
  have hkeys : (store data bytes).map Prod.fst = (range' data bytes.length).map u32 := by
    rw [store, List.map_map, ← zipIdx_map_snd data bytes, List.map_map]
    rfl
  rw [hkeys]
  refine List.Nodup.map_on (fun a ha b hb hab => ?_) nodup_range'
  rw [mem_range'_1] at ha hb
  unfold u32 at hab
  omega

/-! ## Words -/

variable {c : Controller}

def Controller.bytes (c : Controller) (transfer : SfcTransfer) (i n : Nat) : List UInt8 :=
  (List.range' i n).map (c.byte transfer)

variable (transfer : SfcTransfer)

@[simp] theorem length_bytes (i n : Nat) :
    (c.bytes transfer i n).length = n := by
  rw [Controller.bytes, length_map, length_range']

theorem bytes_append (i m n : Nat) :
    c.bytes transfer i m ++ c.bytes transfer (i + m) n = c.bytes transfer i (m + n) := by
  rw [Controller.bytes, Controller.bytes, ← map_append, range'_append_1, Controller.bytes]

theorem bytes_congr (haddr : t'.addr = t.addr) (hlen : t'.len = t.len) (i n : Nat) :
    c.bytes t' i n = c.bytes t i n := by
  unfold Controller.bytes Controller.byte
  rw [haddr, hlen]

theorem byte_of_word (k : Nat) (hi : i < 4) :
    UInt8.ofNat (c.word transfer k >>> (i * 8) &&& 0xff) = c.byte transfer (4 * k + i) := by
  have hand (n : Nat) : n &&& 0xff = n % 256 := Nat.and_two_pow_sub_one_eq_mod n 8
  have h0 := (c.byte transfer (4 * k)).toNat_lt
  have h1 := (c.byte transfer (4 * k + 1)).toNat_lt
  have h2 := (c.byte transfer (4 * k + 2)).toNat_lt
  have h3 := (c.byte transfer (4 * k + 3)).toNat_lt
  apply UInt8.toNat_inj.mp
  rw [UInt8.toNat_ofNat', hand, Nat.shiftRight_eq_div_pow, Controller.word]
  simp only [leValue]
  obtain rfl | rfl | rfl | rfl : i = 0 ∨ i = 1 ∨ i = 2 ∨ i = 3 := by omega
  · rw [Nat.zero_mul, Nat.pow_zero, Nat.div_one, Nat.add_zero (4 * k)]
    omega
  all_goals omega

theorem bytes_of_word (k : Nat) (hn : n ≤ 4) :
    (List.range n).map (fun i => UInt8.ofNat (c.word transfer k >>> (i * 8) &&& 0xff)) =
      c.bytes transfer (4 * k) n := by
  rw [Controller.bytes, range'_eq_map_range, List.map_map]
  refine map_congr_left fun i hi => ?_
  exact byte_of_word transfer k ((mem_range.mp hi).trans_le hn)

variable (aligned : Bool)

theorem wordBytes_word (transfer : SfcTransfer) (k : Nat) :
    wordBytes aligned (c.word transfer k) = c.bytes transfer (4 * k) 4 := by
  cases aligned with
  | true => exact le_leValue (c.bytes transfer (4 * k) 4)
  | false => exact bytes_of_word transfer k (Nat.le_refl 4)

def Sfc.after (s : Sfc) (n : Nat) (bytes : List UInt8) : Sfc where
  transfer := ⟨s.transfer.addr, s.transfer.len, s.transfer.data + bytes.length,
    u32 (s.transfer.curLen + 4 * n)⟩
  popped := s.popped + n
  polls := s.polls
  stored := s.stored ++ store s.transfer.data bytes

theorem Sfc.take_after (s : Sfc) (n : Nat) (xs ys : List UInt8) :
    (s.after n xs).take ys = s.after (n + 1) (xs ++ ys) := by
  have hcur : u32 (u32 (s.transfer.curLen + 4 * n) + 4) = u32 (s.transfer.curLen + 4 * (n + 1)) := by
    unfold u32
    omega
  simp only [Sfc.take, Sfc.after, hcur, store_append, length_append, Nat.add_assoc,
    append_assoc]

theorem Sfc.after_zero {s : Sfc} (hcur : s.transfer.curLen < 2 ^ 32) : s.after 0 [] = s := by
  have hcur : u32 (s.transfer.curLen + 4 * 0) = s.transfer.curLen := u32_of_lt hcur
  simp only [Sfc.after, hcur, store, length_nil, Nat.add_zero, zipIdx_nil, map_nil,
    append_nil]

@[simp] theorem Sfc.popped_after (s : Sfc) (n : Nat) (xs : List UInt8) :
    (s.after n xs).popped = s.popped + n := rfl

theorem Sfc.bytes_after (s : Sfc) (n : Nat) (xs : List UInt8) (i m : Nat) :
    c.bytes (s.after n xs).transfer i m = c.bytes s.transfer i m :=
  bytes_congr rfl rfl i m

theorem readWords_after (s : Sfc) (m n : Nat) :
    readWords c aligned n (s.after m (c.bytes s.transfer (4 * s.popped) (4 * m))) =
      s.after (m + n) (c.bytes s.transfer (4 * s.popped) (4 * (m + n))) := by
  induction n generalizing m with
  | zero => rfl
  | succ n ih =>
    have hword : readWord c aligned (s.after m (c.bytes s.transfer (4 * s.popped) (4 * m))) =
        s.after (m + 1) (c.bytes s.transfer (4 * s.popped) (4 * (m + 1))) := by
      rw [readWord, wordBytes_word, Sfc.bytes_after, Sfc.take_after]
      have hplace : 4 * (s.popped + m) = 4 * s.popped + 4 * m := by ring
      rw [Sfc.popped_after, hplace, bytes_append, ← Nat.mul_succ]
    rw [readWords, hword, ih, Nat.add_right_comm, Nat.add_assoc]

theorem readWords_eq (n : Nat) (hcur : s.transfer.curLen < 2 ^ 32) :
    readWords c aligned n s = s.after n (c.bytes s.transfer (4 * s.popped) (4 * n)) := by
  have h := readWords_after (c := c) aligned s 0 n
  rw [Nat.zero_add] at h
  rw [← h]
  exact congrArg _ (Sfc.after_zero hcur).symm

theorem readLastWord_eq (s : Sfc) (n : Nat) :
    readLastWord c (s.after n (c.bytes s.transfer (4 * s.popped) (4 * n))) =
      s.after (n + 1) (c.bytes s.transfer (4 * s.popped) (4 * n + s.transfer.len % 4)) := by
  have hplace : 4 * (s.popped + n) = 4 * s.popped + 4 * n := by ring
  have hlast := bytes_of_word (c := c) (s.after n (c.bytes s.transfer (4 * s.popped) (4 * n))).transfer
    (s.popped + n) (Nat.mod_lt s.transfer.len (by decide : 0 < 4)).le
  rw [Sfc.bytes_after, hplace] at hlast
  rw [readLastWord]
  refine (congrArg _ hlast).trans ?_
  rw [Sfc.take_after, bytes_append]

theorem cpuReadRxfifo_eq (hcur : s.transfer.curLen < 2 ^ 32) : cpuReadRxfifo c s =
      if (fifoNum s.transfer).2 then
        s.after ((fifoNum s.transfer).1 + 1)
          (c.bytes s.transfer (4 * s.popped) (4 * (fifoNum s.transfer).1 + s.transfer.len % 4))
      else
        s.after (fifoNum s.transfer).1
          (c.bytes s.transfer (4 * s.popped) (4 * (fifoNum s.transfer).1)) := by
  rw [cpuReadRxfifo, readWords_eq _ _ hcur, readLastWord_eq]

/-! ## Polls -/

@[simp] theorem Sfc.popped_polled (s : Sfc) : s.polled.popped = s.popped := rfl
@[simp] theorem Sfc.stored_polled (s : Sfc) : s.polled.stored = s.stored := rfl

theorem sfcSrHandle_idle (h : c.ready s.polls = false) (polls : Nat) :
    sfcSrHandle c (polls + 1) s = sfcSrHandle c polls s.polled := by
  simp only [sfcSrHandle, Controller.status, h, Bool.false_eq_true, if_false]

theorem sfcSrHandle_request (h : c.ready s.polls = true) (hlt : s.popped < s.transfer.words)
    (polls : Nat) : sfcSrHandle c (polls + 1) s =
      if s.transfer.words ≤ s.popped + threshold ∧ c.endsEarly s.polls = true then
        some (cpuReadRxfifo c s).polled
      else sfcSrHandle c polls (cpuReadRxfifo c s).polled := by
  simp only [sfcSrHandle, Controller.status, h, hlt, if_true, Bool.and_eq_true, decide_eq_true_eq]

theorem sfcSrHandle_end (h : c.ready s.polls = true) (hge : ¬ s.popped < s.transfer.words)
    (polls : Nat) : sfcSrHandle c (polls + 1) s = some s.polled := by
  simp only [sfcSrHandle, Controller.status, h, hge, if_true, if_false, Bool.false_eq_true]

theorem sfcSrHandle_isSome_of_ready
    (h : ∀ now, c.ready now = true → ∃ polls, (sfcSrHandle c polls { s with polls := now }).isSome)
    :
    ∃ polls, (sfcSrHandle c polls s).isSome := by
  obtain ⟨t, hle, ht⟩ := c.fair s.polls
  induction hwait : t - s.polls generalizing s with
  | zero =>
    have hnow : s.polls = t := Nat.le_antisymm hle (Nat.le_of_sub_eq_zero hwait)
    exact h s.polls (hnow ▸ ht)
  | succ wait ih =>
    cases hready : c.ready s.polls with
    | true => exact h s.polls hready
    | false =>
      have hlater : t - (s.polls + 1) = wait := by omega
      obtain ⟨polls, hpolls⟩ := @ih s.polled h (show s.polls + 1 ≤ t by omega) hlater
      exact ⟨polls + 1, by rwa [sfcSrHandle_idle hready]⟩

/-! ## A transfer -/

/-- All words before `popped` are in the memory, without what is behind the last byte. -/
structure Reading (c : Controller) (start s : Sfc) : Prop where
  addr : s.transfer.addr = start.transfer.addr
  len : s.transfer.len = start.transfer.len
  curLen : s.transfer.curLen = 4 * s.popped
  popped : s.popped ≤ start.transfer.words
  data : s.transfer.data = start.transfer.data + min (4 * s.popped) start.transfer.len
  stored : s.stored = start.stored ++
    store start.transfer.data (c.bytes start.transfer 0 (min (4 * s.popped) start.transfer.len))

theorem SfcTransfer.words_bounds (t : SfcTransfer) :
    t.len ≤ 4 * t.words ∧ 4 * t.words < t.len + 4 := by
  unfold SfcTransfer.words
  omega

theorem fifoNum_eq {transfer : SfcTransfer} (hlen : transfer.len ≤ 2 ^ 32 - 4)
    (hcur : transfer.curLen = 4 * popped) (hlt : popped < transfer.words) : fifoNum transfer =
      if popped + threshold < transfer.words then (threshold, false)
      else if transfer.len % 4 ≠ 0 then (transfer.words - popped - 1, true)
      else (transfer.words - popped, false) := by
  unfold SfcTransfer.words at *
  have hrest : u32 (u32 (transfer.len + 3) / 4 * 4 + 2 ^ 32 - transfer.curLen) / 4 =
      (transfer.len + 3) / 4 - popped := by
    unfold u32
    omega
  have hpred : u32 ((transfer.len + 3) / 4 - popped + 2 ^ 32 - 1) =
      (transfer.len + 3) / 4 - popped - 1 := by
    unfold u32
    omega
  have hiff : threshold < (transfer.len + 3) / 4 - popped ↔
      popped + threshold < (transfer.len + 3) / 4 := by omega
  simp only [fifoNum, hrest, hpred, hiff]

namespace Reading

variable {start s : Sfc}

section
variable (h : Reading c start s)
include h

theorem bytes (i n : Nat) : c.bytes s.transfer i n = c.bytes start.transfer i n :=
  bytes_congr h.addr h.len i n

theorem after (hlen : start.transfer.len ≤ 2 ^ 32 - 4) (hn : s.popped + n ≤ start.transfer.words)
    (hpos : 4 * s.popped ≤ start.transfer.len)
    (hk : 4 * s.popped + k = min (4 * (s.popped + n)) start.transfer.len) :
    Reading c start (s.after n (c.bytes s.transfer (4 * s.popped) k)) := by
  have hdone : min (4 * s.popped) start.transfer.len = 4 * s.popped := Nat.min_eq_left hpos
  have hwords := start.transfer.words_bounds
  constructor
  · exact h.addr
  · exact h.len
  · rw [Sfc.popped_after, Nat.mul_add, ← h.curLen]
    exact u32_of_lt (by rw [h.curLen]; omega)
  · exact hn
  · rw [Sfc.popped_after, ← hk, ← Nat.add_assoc, ← hdone, ← h.data, Sfc.after, length_bytes]
  · have hstored := h.stored
    have hdata := h.data
    rw [hdone] at hstored hdata
    rw [Sfc.popped_after, ← hk, ← bytes_append, store_append, length_bytes, Nat.zero_add,
      ← append_assoc, ← hstored, ← hdata, ← h.bytes, Sfc.after]

theorem words : s.transfer.words = start.transfer.words := by
  rw [SfcTransfer.words, h.len, SfcTransfer.words]

theorem at_polls (now : Nat) : Reading c start { s with polls := now } :=
  ⟨h.addr, h.len, h.curLen, h.popped, h.data, h.stored⟩

theorem polled : Reading c start s.polled := h.at_polls _

theorem request (hlen : start.transfer.len ≤ 2 ^ 32 - 4) (hlt : s.popped < start.transfer.words) :
    Reading c start (cpuReadRxfifo c s) ∧
      (cpuReadRxfifo c s).popped = min (s.popped + threshold) start.transfer.words := by
  have hwords := start.transfer.words_bounds
  have hcur : s.transfer.curLen < 2 ^ 32 := by
    rw [h.curLen]
    omega
  have hfifo := fifoNum_eq (h.len.trans_le hlen) h.curLen (h.words ▸ hlt)
  rw [h.words, h.len] at hfifo
  rw [cpuReadRxfifo_eq hcur, hfifo, h.len]
  by_cases hmore : s.popped + threshold < start.transfer.words
  · simp only [hmore, if_true, Bool.false_eq_true, if_false]
    exact ⟨h.after hlen hmore.le (by omega) (by omega), (Nat.min_eq_left hmore.le).symm⟩
  by_cases hpart : start.transfer.len % 4 ≠ 0
  · simp only [hmore, hpart, if_true, if_false, Sfc.popped_after, ne_eq, not_false_eq_true]
    exact ⟨h.after hlen (by omega) (by omega) (by omega), by omega⟩
  · simp only [hmore, hpart, if_false, Sfc.popped_after, Bool.false_eq_true]
    exact ⟨h.after hlen (by omega) (by omega) (by omega), by omega⟩

end

section
variable (hlen : start.transfer.len ≤ 2 ^ 32 - 4) (h : Reading c start s)
include hlen h

theorem srHandle (hs : sfcSrHandle c polls s = some s') :
    Reading c start s' ∧ s'.popped = start.transfer.words := by
  induction polls generalizing s with
  | zero => cases hs
  | succ polls ih =>
    cases hready : c.ready s.polls with
    | false =>
      rw [sfcSrHandle_idle hready] at hs
      exact ih h.polled hs
    | true =>
      by_cases hlt : s.popped < start.transfer.words
      · obtain ⟨hnext, hpopped⟩ := h.request hlen hlt
        rw [sfcSrHandle_request hready (h.words ▸ hlt), h.words] at hs
        split at hs
        · rename_i hend
          obtain rfl := some.inj hs
          refine ⟨hnext.polled, ?_⟩
          rw [Sfc.popped_polled, hpopped, Nat.min_eq_right hend.1]
        · exact ih hnext.polled hs
      · rw [sfcSrHandle_end hready (h.words ▸ hlt)] at hs
        obtain rfl := some.inj hs
        exact ⟨h.polled, Nat.le_antisymm h.popped (Nat.le_of_not_lt hlt)⟩

theorem srHandle_isSome : ∃ polls, (sfcSrHandle c polls s).isSome := by
  induction hleft : start.transfer.words - s.popped using Nat.strong_induction_on
    generalizing s with
  | _ left ih =>
    refine sfcSrHandle_isSome_of_ready fun now hready => ?_
    have hnow := h.at_polls now
    by_cases hlt : s.popped < start.transfer.words
    · obtain ⟨hnext, hpopped⟩ := hnow.request hlen hlt
      have hpos : 0 < threshold := by decide
      have hfewer : start.transfer.words - min (s.popped + threshold) start.transfer.words < left := by
        omega
      obtain ⟨polls, hpolls⟩ := ih _ (by rwa [Sfc.popped_polled, hpopped]) hnext.polled rfl
      refine ⟨polls + 1, ?_⟩
      rw [sfcSrHandle_request hready (hnow.words ▸ hlt)]
      split
      · rfl
      · exact hpolls
    · refine ⟨1, ?_⟩
      rw [sfcSrHandle_end hready (hnow.words ▸ hlt)]
      rfl

end

end Reading

theorem reading_start (addr len data now : Nat) (stored : List (Nat × UInt8)) :
    Reading c ⟨⟨addr, len, data, 0⟩, 0, now, stored⟩ ⟨⟨addr, len, data, 0⟩, 0, now, stored⟩ := by
  refine ⟨rfl, rfl, rfl, Nat.zero_le _, ?_, ?_⟩
  · rw [Nat.mul_zero, Nat.zero_min, Nat.add_zero]
  · rw [Nat.mul_zero, Nat.zero_min]
    exact (append_nil stored).symm

variable {len : Nat}

theorem sfcDoRead_eq
    (hlen : len ≤ 2 ^ 32 - 4) (hs : sfcDoRead c polls now stored addr data len = some s) :
    s.transfer.curLen = (len + 3) / 4 * 4 ∧
      s.stored = stored ++ store data ((List.range len).map fun i => c.flash (addr + i)) := by
  obtain ⟨h, hpopped⟩ := (reading_start addr len data now stored).srHandle hlen hs
  have hall : min (4 * s.popped) len = len := by
    rw [hpopped]
    exact Nat.min_eq_right (SfcTransfer.words_bounds ⟨addr, len, data, 0⟩).1
  constructor
  · rw [h.curLen, hpopped, SfcTransfer.words, Nat.mul_comm]
  · have hbytes : c.bytes ⟨addr, len, data, 0⟩ 0 len =
        (range len).map fun i => c.flash (addr + i) := by
      rw [Controller.bytes, ← range_eq_range']
      exact map_congr_left fun i hi => if_pos (mem_range.mp hi)
    rw [h.stored, hall, hbytes]

/-! ## Reads -/

theorem Sfc.take_extends (s : Sfc) (bytes : List UInt8) : s.stored <+: (s.take bytes).stored :=
  prefix_append _ _

theorem readWords_extends (n : Nat) (s : Sfc) :
    s.stored <+: (readWords c aligned n s).stored := by
  induction n generalizing s with
  | zero => exact prefix_rfl
  | succ n ih =>
    rw [readWords]
    exact (s.take_extends _).trans (ih _)

theorem cpuReadRxfifo_extends (s : Sfc) : s.stored <+: (cpuReadRxfifo c s).stored := by
  have hwords := readWords_extends (c := c) (s.transfer.data % 4 == 0) (fifoNum s.transfer).1 s
  rw [cpuReadRxfifo]
  split
  · rw [readLastWord]
    exact hwords.trans (Sfc.take_extends _ _)
  · exact hwords

theorem sfcSrHandle_extends (hs : sfcSrHandle c polls s = some s') : s.stored <+: s'.stored := by
  induction polls generalizing s with
  | zero => cases hs
  | succ polls ih =>
    have hnext : s.stored <+: (if (c.status s).rreq then cpuReadRxfifo c s else s).polled.stored := by
      rw [Sfc.stored_polled]
      split
      · exact cpuReadRxfifo_extends s
      · exact prefix_rfl
    rw [sfcSrHandle] at hs
    split at hs
    · obtain rfl := some.inj hs
      exact hnext
    · exact hnext.trans (ih hs)

variable {buf rounds : Nat}

theorem sfcRead_extends
    (hs : sfcRead c polls start buf rounds currentLen len now stored = some out) :
    stored <+: out := by
  induction rounds generalizing currentLen len now stored with
  | zero =>
    rw [sfcRead] at hs
    split at hs
    · cases hs
    · exact some.inj hs ▸ prefix_rfl
  | succ rounds ih =>
    rw [sfcRead] at hs
    split at hs
    · split at hs
      · cases hs
      · rename_i s hdo
        exact (sfcSrHandle_extends hdo).trans (ih hs)
    · exact some.inj hs ▸ prefix_rfl

theorem fifoNum_of_wraps {transfer : SfcTransfer} (hlen : 2 ^ 32 - 4 < transfer.len)
    (hlt : transfer.len < 2 ^ 32) (hcur : transfer.curLen = 0) :
    fifoNum transfer = (2 ^ 32 - 1, true) := by
  have hrest : u32 (u32 (transfer.len + 3) / 4 * 4 + 2 ^ 32 - transfer.curLen) / 4 = 0 := by
    unfold u32
    omega
  have hpart : transfer.len % 4 ≠ 0 := by omega
  have hpred : u32 (0 + 2 ^ 32 - 1) = 2 ^ 32 - 1 := u32_of_lt (by decide)
  simp only [fifoNum, hrest, Nat.not_lt_zero, if_false, hpart, ne_eq, not_false_eq_true, if_true,
    hpred]

theorem cpuReadRxfifo_of_wraps (hlen : 2 ^ 32 - 4 < s.transfer.len) (hlt : s.transfer.len < 2 ^ 32)
    (hcur : s.transfer.curLen = 0) (ha : a < 2 ^ 32) :
    ∃ p ∈ (cpuReadRxfifo c s).stored, p.1 = a := by
  have hlow : s.transfer.curLen < 2 ^ 32 := hcur.trans_lt (by decide)
  rw [cpuReadRxfifo_eq hlow, fifoNum_of_wraps hlen hlt hcur]
  simp only [if_true]
  generalize hn : 4 * (2 ^ 32 - 1) + s.transfer.len % 4 = n
  have hoff : u32 (a + 2 ^ 32 - u32 s.transfer.data) < n := by
    unfold u32
    omega
  have hplace : u32 (s.transfer.data + u32 (a + 2 ^ 32 - u32 s.transfer.data)) = a := by
    unfold u32
    omega
  generalize u32 (a + 2 ^ 32 - u32 s.transfer.data) = i at hoff hplace
  refine ⟨(a, c.byte s.transfer (4 * s.popped + i)), mem_append_right _ (mem_store.mpr ?_), rfl⟩
  refine ⟨i, _, ?_, by rw [hplace]⟩
  rw [Controller.bytes, getElem?_map, getElem?_range' hoff, map_some, Nat.one_mul]

theorem sfcSrHandle_of_wraps (hlen : 2 ^ 32 - 4 < s.transfer.len) (hlt : s.transfer.len < 2 ^ 32)
    (hcur : s.transfer.curLen = 0) (hpopped : s.popped = 0) (hs : sfcSrHandle c polls s = some s')
    (ha : a < 2 ^ 32) : ∃ p ∈ s'.stored, p.1 = a := by
  induction polls generalizing s with
  | zero => cases hs
  | succ polls ih =>
    cases hready : c.ready s.polls with
    | false =>
      rw [sfcSrHandle_idle hready] at hs
      exact @ih s.polled hlen hlt hcur hpopped hs
    | true =>
      have hwords : s.popped < s.transfer.words := by
        have := s.transfer.words_bounds
        omega
      obtain ⟨p, hp, hpa⟩ := cpuReadRxfifo_of_wraps (c := c) hlen hlt hcur ha
      rw [sfcSrHandle_request hready hwords] at hs
      split at hs
      · obtain rfl := some.inj hs
        exact ⟨p, by rwa [Sfc.stored_polled], hpa⟩
      · rw [← Sfc.stored_polled] at hp
        exact ⟨p, (sfcSrHandle_extends hs).subset hp, hpa⟩

theorem sfcRead_zero (polls start buf rounds currentLen now : Nat) (stored : List (Nat × UInt8)) :
    sfcRead c polls start buf rounds currentLen 0 now stored = some stored := by
  cases rounds with
  | zero => rfl
  | succ rounds => rfl

theorem sfcRead_eq_some (hstart : start < 2 ^ 32)
    (hpos : len ≠ 0) (hs : sfcRead c polls start buf rounds 0 len 0 [] = some out) :
    ∃ rounds' s, sfcDoRead c polls 0 [] start buf len = some s ∧
      sfcRead c polls start buf rounds' (u32 (0 + s.transfer.curLen))
        (u32 (len + 2 ^ 32 - s.transfer.curLen)) s.polls s.stored = some out := by
  have haddr : u32 (start + 0) = start := u32_of_lt hstart
  cases rounds with
  | zero =>
    rw [sfcRead, if_pos hpos] at hs
    cases hs
  | succ rounds =>
    rw [sfcRead, if_pos hpos, haddr, Nat.add_zero] at hs
    split at hs
    · cases hs
    · rename_i s hdo
      exact ⟨rounds, s, hdo, hs⟩

theorem sfcRead_of_whole (hstart : start < 2 ^ 32)
    (hlen : len < 2 ^ 32) (hwhole : len % 4 = 0)
    (hs : sfcRead c polls start buf rounds 0 len 0 [] = some out) :
    out = store buf ((List.range len).map fun i => c.flash (start + i)) := by
  obtain rfl | hpos := eq_or_ne len 0
  · rw [sfcRead_zero] at hs
    exact (some.inj hs).symm
  obtain ⟨rounds', s, hdo, hrest⟩ := sfcRead_eq_some hstart hpos hs
  obtain ⟨hcur, hstored⟩ := sfcDoRead_eq (by omega) hdo
  have hzero : u32 (len + 2 ^ 32 - s.transfer.curLen) = 0 := by
    rw [hcur]
    unfold u32
    omega
  rw [hzero, sfcRead_zero] at hrest
  rw [← some.inj hrest, hstored, nil_append]

theorem sfcRead_isSome_of_whole (hstart : start < 2 ^ 32)
    (hlen : len < 2 ^ 32) (hwhole : len % 4 = 0) :
    ∃ polls rounds, (sfcRead c polls start buf rounds 0 len 0 []).isSome := by
  obtain rfl | hpos := eq_or_ne len 0
  · exact ⟨0, 0, by rw [sfcRead_zero]; rfl⟩
  have hle : len ≤ 2 ^ 32 - 4 := by omega
  have haddr : u32 (start + 0) = start := u32_of_lt hstart
  obtain ⟨polls, hpolls⟩ := (reading_start (c := c) start len buf 0 []).srHandle_isSome hle
  obtain ⟨s, hdo⟩ := isSome_iff_exists.mp hpolls
  obtain ⟨hcur, -⟩ := sfcDoRead_eq hle hdo
  have hzero : u32 (len + 2 ^ 32 - s.transfer.curLen) = 0 := by
    rw [hcur]
    unfold u32
    omega
  refine ⟨polls, 1, ?_⟩
  rw [sfcRead, if_pos hpos, haddr, Nat.add_zero, sfcDoRead, hdo]
  simp only [hzero, sfcRead_zero, isSome_some]

theorem sfcRead_of_part (hstart : start < 2 ^ 32)
    (hlen : len < 2 ^ 32) (hpart : len % 4 ≠ 0)
    (hs : sfcRead c polls start buf rounds 0 len 0 [] = some out) (ha : a < 2 ^ 32) :
    ∃ p ∈ out, p.1 = a := by
  obtain ⟨rounds', s, hdo, hrest⟩ := sfcRead_eq_some hstart (by omega) hs
  by_cases hle : len ≤ 2 ^ 32 - 4
  · obtain ⟨hcur, -⟩ := sfcDoRead_eq hle hdo
    have hleft : 2 ^ 32 - 4 < u32 (len + 2 ^ 32 - s.transfer.curLen) := by
      rw [hcur]
      unfold u32
      omega
    have hlt : u32 (len + 2 ^ 32 - s.transfer.curLen) < 2 ^ 32 := u32_lt _
    cases rounds' with
    | zero =>
      rw [sfcRead, if_pos (by omega)] at hrest
      cases hrest
    | succ rounds' =>
      rw [sfcRead, if_pos (by omega)] at hrest
      split at hrest
      · cases hrest
      · rename_i s' hdo'
        obtain ⟨p, hp, hpa⟩ := sfcSrHandle_of_wraps hleft hlt rfl rfl hdo' ha
        exact ⟨p, (sfcRead_extends hrest).subset hp, hpa⟩
  · obtain ⟨p, hp, hpa⟩ := sfcSrHandle_of_wraps (Nat.lt_of_not_le hle) hlen rfl rfl hdo ha
    exact ⟨p, (sfcRead_extends hrest).subset hp, hpa⟩

theorem storedExactly_store (hlen : len < 2 ^ 32) :
    StoredExactly c start len buf
      (store buf ((List.range len).map fun i => c.flash (start + i))) := by
  have hget {i : Nat} (hi : i < len) :
      ((List.range len).map fun i => c.flash (start + i))[i]? = some (c.flash (start + i)) := by
    rw [List.getElem?_map, List.getElem?_range hi, map_some]
  constructor
  · intro mem i hi
    have hlength : ((List.range len).map fun i => c.flash (start + i)).length < 2 ^ 32 := by
      rwa [List.length_map, List.length_range]
    exact updates_of_mem (nodup_store hlength) (mem_store.mpr ⟨i, _, hget hi, rfl⟩) mem
  · intro p hp
    obtain ⟨i, b, hb, rfl⟩ := mem_store.mp hp
    have hi := (List.getElem?_eq_some_iff.mp hb).1
    rw [List.length_map, List.length_range] at hi
    exact ⟨i, hi, rfl⟩

theorem sfcNorRead_of_readable
    (hread : table.matchFlag norflashPartWO start = false) (polls rounds : Nat) (len buf : UInt32) :
    sfcNorRead c table polls rounds start len buf =
      sfcRead c polls start.toNat buf.toNat rounds 0 len.toNat 0 [] :=
  if_neg (by rw [hread]; decide)

theorem not_readsExactly_of_part {table : NorflashPartitions} {start len : UInt32} (buf : UInt32)
    (hread : table.matchFlag norflashPartWO start = false) (hpart : len.toNat % 4 ≠ 0) :
    ¬ ReadsExactly c table start len buf := by
  rintro ⟨⟨polls, rounds, hsome⟩, hexact⟩
  obtain ⟨out, hout⟩ := isSome_iff_exists.mp hsome
  have hstored := (hexact polls rounds out hout).2
  rw [sfcNorRead_of_readable hread] at hout
  have ha : u32 (buf.toNat + len.toNat) < 2 ^ 32 := u32_lt _
  -- the byte right behind the buffer
  obtain ⟨p, hp, hpa⟩ := sfcRead_of_part start.toNat_lt len.toNat_lt hpart hout ha
  obtain ⟨i, hi, hpi⟩ := hstored p hp
  have hlen := len.toNat_lt
  rw [hpa] at hpi
  unfold u32 at hpi
  omega

/-- A read of a partition that can be read is exact exactly if its length is whole words. -/
theorem readsExactly_iff (c : Controller) {table : NorflashPartitions} {start : UInt32}
    (hread : table.matchFlag norflashPartWO start = false) (len buf : UInt32) :
    ReadsExactly c table start len buf ↔ len.toNat % 4 = 0 := by
  constructor
  · intro h
    by_contra hpart
    exact not_readsExactly_of_part buf hread hpart h
  · intro hwhole
    constructor
    · simp only [sfcNorRead_of_readable hread]
      exact sfcRead_isSome_of_whole start.toNat_lt len.toNat_lt hwhole
    · intro polls rounds stored hs
      rw [sfcNorRead_of_readable hread] at hs
      rw [sfcRead_of_whole start.toNat_lt len.toNat_lt hwhole hs]
      exact storedExactly_store len.toNat_lt

def sampleController : Controller where
  flash _ := 0xff
  behind _ := 0
  ready _ := true
  endsEarly _ := false
  fair t := ⟨t, Nat.le_refl t, rfl⟩

theorem readsExactly_four_bytes :
    ReadsExactly sampleController sampleTable 0x10000 4 0x80000001 :=
  (readsExactly_iff sampleController (by decide) 4 0x80000001).mpr (by decide)

theorem not_readsExactly_five_bytes :
    sampleTable.matchFlag norflashPartWO 0 = false ∧
      ¬ ReadsExactly sampleController sampleTable 0 5 0x80000000 :=
  ⟨by decide, not_readsExactly_of_part 0x80000000 (by decide) (by decide)⟩

end UBoot.Nor
