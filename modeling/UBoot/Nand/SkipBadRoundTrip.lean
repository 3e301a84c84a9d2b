import UBoot.Nand.SkipBad

/-!
# Reading undoes writing around bad blocks

The `i`th byte of the data belongs to the `i`th address in a good block, counted from the
offset. On a device below 4 GiB both functions go through just these addresses.
-/

namespace UBoot.Nand

open FlashMemory Option
open List hiding length drop

variable {nand : NandInfo} {chip : Chip}

/-! ## Blocks -/

theorem NandInfo.erasesize_pos (nand : NandInfo) : 0 < nand.erasesize := Nat.two_pow_pos _

theorem NandInfo.erasesize_lt (nand : NandInfo) : nand.erasesize < 2 ^ 32 :=
  Nat.pow_lt_pow_right (by norm_num) nand.eraseShift_lt

def blockLen (nand : NandInfo) (offset : Nat) : Nat := nand.erasesize - offset % nand.erasesize

theorem erasesize_sub_blockOff (nand : NandInfo) (offset : Nat) :
    nand.erasesize - blockOff nand offset = blockLen nand offset := by
  rw [blockOff, NandInfo.erasesize, Nat.and_two_pow_sub_one_eq_mod]
  rfl

theorem add_blockLen (nand : NandInfo) (offset : Nat) :
    offset + blockLen nand offset = (offset / nand.erasesize + 1) * nand.erasesize := by
  have hmod := Nat.mod_lt offset nand.erasesize_pos
  have hdiv := Nat.div_add_mod' offset nand.erasesize
  rw [blockLen, Nat.add_mul, Nat.one_mul]
  omega

theorem add_blockLen_le (h : offset < nand.size) : offset + blockLen nand offset ≤ nand.size := by
  rw [add_blockLen]
  refine Nat.mul_le_mul_right _ ?_
  exact Nat.div_lt_of_lt_mul (by rwa [Nat.mul_comm])

theorem div_eq_of_lt_blockLen (hle : offset ≤ a) (hlt : a < offset + blockLen nand offset) :
    a / nand.erasesize = offset / nand.erasesize := by
  rw [add_blockLen] at hlt
  refine le_antisymm (Nat.lt_succ_iff.mp (Nat.div_lt_of_lt_mul ?_)) (Nat.div_le_div_right hle)
  rwa [Nat.mul_comm]

theorem and_mask_div (nand : NandInfo) (hn : 32 ≤ n) (offset : Nat) :
    (offset &&& (2 ^ n - nand.erasesize)) / nand.erasesize =
      offset % 2 ^ n / nand.erasesize := by
  have hshift := nand.eraseShift_lt
  obtain ⟨k, rfl⟩ : ∃ k, n = nand.eraseShift + k := ⟨n - nand.eraseShift, by omega⟩
  have hmask : 2 ^ (nand.eraseShift + k) - nand.erasesize = 2 ^ nand.eraseShift * (2 ^ k - 1) := by
    rw [NandInfo.erasesize, pow_add, Nat.mul_sub, Nat.mul_one]
  rw [hmask, NandInfo.erasesize, ← Nat.shiftRight_eq_div_pow, Nat.shiftRight_and_distrib,
    Nat.shiftRight_eq_div_pow, Nat.shiftRight_eq_div_pow, Nat.mul_div_cancel_left _ (by positivity),
    Nat.and_two_pow_sub_one_eq_mod, pow_add, Nat.mod_mul_right_div_self]

theorem nandBlockIsbad_mask (hn : 32 ≤ n) (hsize : offset < nand.size) (hlt : offset < 2 ^ n) :
    nandBlockIsbad nand chip (offset &&& (2 ^ n - nand.erasesize)) =
      chip.bad (offset / nand.erasesize) := by
  have hle : offset &&& (2 ^ n - nand.erasesize) ≤ offset := Nat.and_le_left
  rw [nandBlockIsbad, if_neg (by omega), and_mask_div nand hn, Nat.mod_eq_of_lt hlt]

/-! ## Where the data belongs -/

def goodAddrs (nand : NandInfo) (chip : Chip) (offset : Nat) : List Nat :=
  (List.range' offset (nand.size - offset)).filter fun a => !chip.bad (a / nand.erasesize)

def target (nand : NandInfo) (chip : Chip) (offset length : Nat) : List Nat :=
  (goodAddrs nand chip offset).take length

def extent (nand : NandInfo) (chip : Chip) (offset length : Nat) : Nat :=
  match (target nand chip offset length).getLast? with
  | none => 0
  | some a => a + 1 - offset

theorem mem_target (h : a ∈ target nand chip offset length) :
    offset ≤ a ∧ a < nand.size ∧ chip.bad (a / nand.erasesize) = false := by
  have hmem := mem_filter.mp (mem_of_mem_take h)
  have hrange := mem_range'_1.mp hmem.1
  exact ⟨hrange.1, by omega, by simpa using hmem.2⟩

theorem target_pairwise (nand : NandInfo) (chip : Chip) (offset length : Nat) :
    (target nand chip offset length).Pairwise (· < ·) :=
  ((pairwise_lt_range' 1).filter _).sublist (take_sublist _ _)

theorem take_range' (start n k : Nat) :
    (List.range' start n).take k = List.range' start (min k n) :=
  ext_getElem (by simp) (by simp)

theorem goodAddrs_append (chip : Chip) (h : offset + n ≤ nand.size) :
    goodAddrs nand chip offset =
      (List.range' offset n).filter (fun a => !chip.bad (a / nand.erasesize)) ++
        goodAddrs nand chip (offset + n) := by
  rw [goodAddrs, goodAddrs, ← filter_append, range'_append_1]
  congr 2
  omega

section
variable (h : offset < nand.size) (hbad : chip.bad (offset / nand.erasesize) = true)
include h hbad

theorem goodAddrs_of_bad :
    goodAddrs nand chip offset = goodAddrs nand chip (offset + blockLen nand offset) := by
  rw [goodAddrs_append chip (add_blockLen_le h), filter_eq_nil_iff.mpr, nil_append]
  intro a ha
  have hrange := mem_range'_1.mp ha
  simp [div_eq_of_lt_blockLen hrange.1 hrange.2, hbad]

theorem target_of_bad (length : Nat) : target nand chip offset length =
    target nand chip (offset + blockLen nand offset) length := by
  rw [target, goodAddrs_of_bad h hbad]
  rfl

theorem room_of_bad : (goodAddrs nand chip offset).length =
    (goodAddrs nand chip (offset + blockLen nand offset)).length :=
  congrArg List.length (goodAddrs_of_bad h hbad)

end

section
variable (h : offset < nand.size) (hbad : chip.bad (offset / nand.erasesize) = false)
include h hbad

theorem goodAddrs_of_good (hn : n ≤ blockLen nand offset) :
    goodAddrs nand chip offset = List.range' offset n ++ goodAddrs nand chip (offset + n) := by
  have hend := add_blockLen_le h
  rw [goodAddrs_append (n := n) chip (by omega), filter_eq_self.mpr]
  intro a ha
  have hrange := mem_range'_1.mp ha
  rw [div_eq_of_lt_blockLen hrange.1 (by omega), hbad]
  rfl

theorem target_of_good (length : Nat) : target nand chip offset length =
      List.range' offset (min length (blockLen nand offset)) ++
        target nand chip (offset + blockLen nand offset) (length - blockLen nand offset) := by
  rw [target, goodAddrs_of_good h hbad le_rfl, take_append, take_range', length_range']
  rfl

theorem target_of_good_part (hn : n ≤ blockLen nand offset) (hlen : n ≤ length) :
    target nand chip offset length =
      List.range' offset n ++ target nand chip (offset + n) (length - n) := by
  rw [target, goodAddrs_of_good h hbad hn, take_append, take_range', length_range',
    Nat.min_eq_right hlen]
  rfl

theorem room_of_good (hn : n ≤ blockLen nand offset) : (goodAddrs nand chip offset).length =
    n + (goodAddrs nand chip (offset + n)).length := by
  rw [goodAddrs_of_good h hbad hn, length_append, length_range']

end

@[simp] theorem target_zero : target nand chip offset 0 = [] := rfl

theorem length_target (h : length ≤ (goodAddrs nand chip offset).length) :
    (target nand chip offset length).length = length := by
  rw [target, length_take, Nat.min_eq_left h]

@[simp] theorem extent_zero : extent nand chip offset 0 = 0 := rfl

theorem goodAddrs_of_size_le (h : nand.size ≤ offset) : goodAddrs nand chip offset = [] := by
  rw [goodAddrs, Nat.sub_eq_zero_of_le h]
  rfl

section
variable (hlen : 0 < length) (hroom : length ≤ (goodAddrs nand chip offset).length)
include hlen hroom

theorem lt_size_of_room : offset < nand.size := by
  by_contra hge
  rw [goodAddrs_of_size_le (Nat.le_of_not_lt hge), length_nil] at hroom
  omega

theorem exists_getLast : ∃ a, (target nand chip offset length).getLast? = some a ∧ offset ≤ a := by
  have hne : target nand chip offset length ≠ [] := by
    rw [← length_pos_iff, length_target hroom]
    exact hlen
  exact ⟨_, getLast?_eq_some_getLast hne, (mem_target (getLast_mem hne)).1⟩

end

section
variable (h : offset < nand.size)
include h

theorem extent_of_bad (hbad : chip.bad (offset / nand.erasesize) = true) (hlen : 0 < length)
    (hroom : length ≤ (goodAddrs nand chip offset).length) :
    extent nand chip offset length =
      blockLen nand offset + extent nand chip (offset + blockLen nand offset) length := by
  rw [room_of_bad h hbad] at hroom
  obtain ⟨a, ha, hle⟩ := exists_getLast hlen hroom
  rw [extent, extent, target_of_bad h hbad, ha]
  dsimp only
  omega

theorem extent_of_good (hbad : chip.bad (offset / nand.erasesize) = false) (hlen : 0 < length)
    (hroom : length ≤ (goodAddrs nand chip offset).length) :
    extent nand chip offset length =
      min length (blockLen nand offset) +
        extent nand chip (offset + blockLen nand offset) (length - blockLen nand offset) := by
  rw [room_of_good h hbad le_rfl] at hroom
  rw [extent, target_of_good h hbad, getLast?_append]
  by_cases hle : length ≤ blockLen nand offset
  · rw [Nat.sub_eq_zero_of_le hle, Nat.min_eq_left hle, target_zero, extent_zero,
      getLast?_range', if_neg hlen.ne']
    simp only [getLast?_nil, none_or]
    omega
  · have hrest : length - blockLen nand offset ≤
        (goodAddrs nand chip (offset + blockLen nand offset)).length := by omega
    obtain ⟨a, ha, hle'⟩ := exists_getLast (by omega) hrest
    rw [extent, ha, Nat.min_eq_right (by omega)]
    simp only [some_or]
    omega

end

/-! ## check_skip_len -/

theorem sizeT_of_lt (h : n < 2 ^ 32) : sizeT n = n := Nat.mod_eq_of_lt h

theorem checkSkipLoop_spec
    (hout : checkSkipLoop nand chip length fuel offset lenExclBad used ret =
      some (ret', lenExclBad', used')) (hret : 0 ≤ ret) (hsize : nand.size < 2 ^ 32)
    (hused : used + (nand.size - offset) < 2 ^ 32)
    (hexcl : lenExclBad + (goodAddrs nand chip offset).length < 2 ^ 32) :
    ret' < 0 ∧ (goodAddrs nand chip offset).length < length - lenExclBad ∨
      (0 ≤ ret' ∧ length - lenExclBad ≤ (goodAddrs nand chip offset).length ∧
        length ≤ lenExclBad' ∧ lenExclBad' < 2 ^ 32 ∧ used' < 2 ^ 32 ∧
        used' + (lenExclBad - length) =
          used + extent nand chip offset (length - lenExclBad) + (lenExclBad' - length) ∧
        (ret' = 0 → ret = 0 ∧ target nand chip offset (length - lenExclBad) =
          List.range' offset (length - lenExclBad))) := by
  induction fuel generalizing offset lenExclBad used ret with
  | zero => cases hout
  | succ fuel ih =>
    rw [checkSkipLoop] at hout
    split at hout
    · rename_i hlt
      split at hout
      · rename_i hoff
        cases hout
        rw [goodAddrs_of_size_le hoff]
        exact .inl ⟨by norm_num, Nat.sub_pos_of_lt hlt⟩
      · rename_i hoff
        have hoff : offset < nand.size := Nat.lt_of_not_le hoff
        have hend := add_blockLen_le hoff
        simp only [erasesize_sub_blockOff] at hout
        rw [nandBlockIsbad_mask (by norm_num) hoff (by omega),
          sizeT_of_lt (show used + blockLen nand offset < 2 ^ 32 by omega)] at hout
        cases hbad : chip.bad (offset / nand.erasesize) with
        | true =>
          rw [hbad, if_pos rfl] at hout
          have hroom := room_of_bad hoff hbad
          obtain hneg | ⟨h0, hle, h1, h2, h3, h4, h5⟩ :=
            ih hout (by norm_num) (by omega) (hroom ▸ hexcl)
          · exact .inl (hroom ▸ hneg)
          · refine .inr ⟨h0, hroom ▸ hle, h1, h2, h3, ?_, fun h0 => absurd (h5 h0).1 (by norm_num)⟩
            rw [extent_of_bad hoff hbad (by omega) (hroom ▸ hle)]
            omega
        | false =>
          have hroom := room_of_good hoff hbad le_rfl
          rw [hbad, if_neg (by simp), sizeT_of_lt (by omega)] at hout
          obtain hneg | ⟨h0, hle, h1, h2, h3, h4, h5⟩ := ih hout hret (by omega) (by omega)
          · exact .inl ⟨hneg.1, by omega⟩
          · have hrest : length - (lenExclBad + blockLen nand offset) =
                length - lenExclBad - blockLen nand offset := by omega
            rw [hrest] at hle h4 h5
            refine .inr ⟨h0, by omega, h1, h2, h3, ?_, fun h0 => ⟨(h5 h0).1, ?_⟩⟩
            · rw [extent_of_good hoff hbad (by omega) (by omega)]
              omega
            · rw [target_of_good hoff hbad, (h5 h0).2]
              by_cases hlast : length - lenExclBad ≤ blockLen nand offset
              · rw [Nat.min_eq_left hlast, Nat.sub_eq_zero_of_le hlast, range'_zero,
                  append_nil]
              · rw [Nat.min_eq_right (by omega), range'_append_1]
                congr 1
                omega
    · rename_i hge
      cases hout
      have hzero : length - lenExclBad' = 0 := by omega
      refine .inr ⟨hret, by omega, by omega, by omega, by omega, ?_, fun h0 => ⟨h0, ?_⟩⟩
      · rw [hzero, extent_zero]
        simp
      · rw [hzero, target_zero, range'_zero]

theorem checkSkipLen_spec (hsize : nand.size < 2 ^ 32)
    (hout : checkSkipLen nand chip fuel offset length = some (ret, used)) (hret : 0 ≤ ret) :
    length ≤ (goodAddrs nand chip offset).length ∧ used = extent nand chip offset length ∧
      (ret = 0 → target nand chip offset length = List.range' offset length) := by
  have hroom : (goodAddrs nand chip offset).length ≤ nand.size - offset :=
    (length_filter_le _ _).trans (length_range').le
  rw [checkSkipLen] at hout
  cases hloop : checkSkipLoop nand chip length fuel offset 0 0 0 with
  | none => simp [hloop] at hout
  | some out =>
    obtain ⟨ret', lenExclBad, used'⟩ := out
    simp only [hloop, bind_eq_bind, bind_some] at hout
    have hspec := checkSkipLoop_spec hloop le_rfl hsize (by omega) (by omega)
    dsimp only [Nat.sub_zero] at hspec
    split at hout
    · cases hout
      omega
    · rename_i hnonneg
      obtain hneg | ⟨-, hle, h1, h2, h3, h4, h5⟩ := hspec
      · exact absurd hneg.1 hnonneg
      · split at hout
        · cases hout
          refine ⟨hle, ?_, fun h0 => (h5 h0).2⟩
          rw [sizeT]
          omega
        · cases hout
          exact ⟨hle, by omega, fun h0 => (h5 h0).2⟩

/-! ## The loops -/

theorem target_split (h : offset < nand.size)
    (hbad : chip.bad (offset / nand.erasesize) = false)
    (hroom : length ≤ (goodAddrs nand chip offset).length)
    (hsize : size = if length < blockLen nand offset then length else blockLen nand offset) :
    size ≤ length ∧ length - size ≤ (goodAddrs nand chip (offset + size)).length ∧
      target nand chip offset length =
        List.range' offset size ++ target nand chip (offset + size) (length - size) := by
  have hle : size ≤ length ∧ size ≤ blockLen nand offset := by
    split at hsize <;> omega
  rw [room_of_good h hbad hle.2] at hroom
  exact ⟨hle.1, by omega, target_of_good_part h hbad hle.2 hle.1⟩

theorem nandWrite_eq_zero (h : nandWrite nand chip flash start buf = (0, flash')) :
    flash'.mem = program flash.mem ((List.range' start buf.length).zip buf) ∧
      flash'.touched = flash.touched ++ List.range' start buf.length := by
  rw [nandWrite] at h
  split at h
  · cases h
  · split at h
    · cases h
    · split at h
      · rename_i hlen
        obtain rfl := eq_nil_of_length_eq_zero hlen
        cases h
        exact ⟨rfl, by simp⟩
      · dsimp only at h
        split at h
        · cases h
          exact ⟨rfl, rfl⟩
        · rename_i hstatus
          exact absurd (congrArg Prod.fst h) hstatus

theorem dropFfs_le (nand : NandInfo) (buf : List UInt8) : dropFfs nand buf ≤ buf.length :=
  Nat.min_le_right _ _

theorem drop_dropFfs (nand : NandInfo) (buf : List UInt8) :
    ∀ d ∈ buf.drop (dropFfs nand buf), d = 0xff := by
  intro d hd
  have hsplit : buf = (buf.reverse.dropWhile (· == 0xff)).reverse ++
      (buf.reverse.takeWhile (· == 0xff)).reverse := by
    rw [← reverse_append, takeWhile_append_dropWhile, reverse_reverse]
  have hround (l : Nat) : l ≤ (l + nand.writesize - 1) / nand.writesize * nand.writesize := by
    have hpos : 0 < nand.writesize := Nat.two_pow_pos _
    have hmod := Nat.mod_lt (l + nand.writesize - 1) hpos
    have hdiv := Nat.div_add_mod' (l + nand.writesize - 1) nand.writesize
    omega
  have hle : (buf.reverse.dropWhile (· == 0xff)).length ≤ dropFfs nand buf := by
    refine Nat.le_min.mpr ⟨hround _, ?_⟩
    exact (length_dropWhile_le _ _).trans (length_reverse).le
  have hd := (drop_sublist_drop_left buf hle).subset hd
  rw [hsplit, drop_left' (by simp)] at hd
  simpa using mem_takeWhile_imp (mem_reverse.mp hd)

theorem program_take (mem : Nat → UInt8) (start : Nat) (hn : n ≤ buf.length)
    (hrest : ∀ d ∈ buf.drop n, d = 0xff) :
    program mem ((List.range' start (buf.take n).length).zip (buf.take n)) =
      program mem ((List.range' start buf.length).zip buf) := by
  have hlen : (buf.take n).length = n := length_take_of_le hn
  have hzip : (range' start buf.length).zip buf =
      (range' start n).zip (buf.take n) ++
        (range' (start + n) (buf.length - n)).zip (buf.drop n) := by
    rw [← zip_append (by rw [length_range', hlen]), take_append_drop,
      range'_append_1, Nat.add_sub_cancel' hn]
  rw [hzip, program_append, hlen]
  refine (program_ones _ _ fun x hx => hrest _ ?_).symm
  exact (of_mem_zip hx).2

/-- The loops go over the blocks in the same rounds, and these are enough. -/
def EnoughRounds (nand : NandInfo) (chip : Chip) : Nat → Nat → Nat → Prop
  | 0, _, _ => False
  | fuel + 1, offset, length => 0 < length →
    if chip.bad (offset / nand.erasesize) then
      EnoughRounds nand chip fuel (offset + blockLen nand offset) length
    else
      let size := if length < blockLen nand offset then length else blockLen nand offset
      EnoughRounds nand chip fuel (offset + size) (length - size)

theorem writeLoop_spec (hsize : nand.size < 2 ^ 32)
    (hroom : buffer.length ≤ (goodAddrs nand chip offset).length)
    (hout : writeLoop nand chip drop fuel offset buffer flash = some (0, left, flash')) :
    flash'.mem =
        program flash.mem ((target nand chip offset buffer.length).zip buffer) ∧
      EnoughRounds nand chip fuel offset buffer.length ∧ ∃ written, flash'.touched = flash.touched ++ written ∧
        ∀ a ∈ written, a ∈ target nand chip offset buffer.length := by
  induction fuel generalizing offset buffer flash with
  | zero => cases hout
  | succ fuel ih =>
    rw [writeLoop] at hout
    split at hout
    · rename_i hlen
      have hoff := lt_size_of_room hlen hroom
      simp only [erasesize_sub_blockOff] at hout
      rw [blockStart32, nandBlockIsbad_mask le_rfl hoff (by omega)] at hout
      cases hbad : chip.bad (offset / nand.erasesize) with
      | true =>
        rw [hbad, if_pos rfl] at hout
        rw [target_of_bad hoff hbad]
        obtain ⟨hmem, henough, hwritten⟩ := ih (room_of_bad hoff hbad ▸ hroom) hout
        exact ⟨hmem, fun _ => by rwa [if_pos hbad], hwritten⟩
      | false =>
        rw [hbad, if_neg (by simp)] at hout
        generalize hws : (if buffer.length < blockLen nand offset then buffer.length
          else blockLen nand offset) = writeSize at hout
        obtain ⟨hle, hroom', htarget⟩ := target_split hoff hbad hroom hws.symm
        generalize hts : (if drop = true then dropFfs nand (buffer.take writeSize)
          else writeSize) = truncated at hout
        obtain ⟨hts_le, hts_rest⟩ : truncated ≤ writeSize ∧
            ∀ d ∈ (buffer.take writeSize).drop truncated, d = 0xff := by
          subst hts
          cases drop with
          | true =>
            refine ⟨(dropFfs_le _ _).trans ?_, drop_dropFfs _ _⟩
            exact (length_take_of_le hle).le
          | false => simp
        cases hwrite : nandWrite nand chip flash offset (buffer.take truncated) with
        | mk rval flash₁ =>
          rw [hwrite] at hout
          dsimp only at hout
          split at hout
          · rename_i hrval
            exact absurd (congrArg Prod.fst (some.inj hout)) hrval
          · rename_i hrval
            obtain rfl := not_not.mp hrval
            obtain ⟨hmem, htouched⟩ := nandWrite_eq_zero hwrite
            rw [← length_drop] at hroom'
            obtain ⟨hmem', henough, written, htouched', hsub⟩ := ih hroom' hout
            have htake : buffer.take truncated = (buffer.take writeSize).take truncated := by
              rw [take_take, Nat.min_eq_left hts_le]
            have hlen' : (buffer.take writeSize).length = writeSize :=
              length_take_of_le hle
            rw [htake, program_take _ _ (hts_le.trans hlen'.ge) hts_rest, hlen'] at hmem
            rw [length_drop] at hmem' henough hsub
            have hzip : (target nand chip offset buffer.length).zip buffer =
                (range' offset writeSize).zip (buffer.take writeSize) ++
                  (target nand chip (offset + writeSize) (buffer.length - writeSize)).zip
                    (buffer.drop writeSize) := by
              rw [← zip_append (by rw [length_range', hlen']), take_append_drop,
                ← htarget]
            refine ⟨by rw [hmem', hmem, ← program_append, hzip],
              fun _ => by rw [hbad, hws]; exact henough, range' offset (buffer.take truncated).length ++ written,
              by rw [htouched', htouched, append_assoc], fun a ha => ?_⟩
            rw [htarget]
            obtain ha | ha := mem_append.mp ha
            · refine mem_append_left _ (mem_range'_1.mpr ?_)
              have := mem_range'_1.mp ha
              rw [length_take] at this
              omega
            · exact mem_append_right _ (hsub a ha)
    · rename_i hlen
      obtain rfl := eq_nil_of_length_eq_zero (Nat.eq_zero_of_not_pos hlen)
      cases hout
      exact ⟨rfl, fun h => absurd h hlen, [], by simp, by simp⟩

def Chip.Readable (chip : Chip) : Prop :=
  ∀ start len, chip.readStatus start len = 0 ∨ chip.readStatus start len = eUCLEAN

theorem nandRead_eq (hread : chip.Readable) (flash : Flash) (h : start + len ≤ nand.size) :
    ∃ rval, (rval = 0 ∨ rval = eUCLEAN) ∧
      nandRead nand chip flash start len = (rval, (List.range' start len).map flash.mem,
        { flash with touched := flash.touched ++ List.range' start len }) := by
  rw [nandRead, if_neg (by omega)]
  by_cases hlen : len = 0
  · subst hlen
    exact ⟨0, .inl rfl, by simp⟩
  · rw [if_neg hlen]
    exact ⟨_, hread start len, rfl⟩

theorem readLoop_spec (hsize : nand.size < 2 ^ 32) (hread : chip.Readable)
    (hroom : length ≤ (goodAddrs nand chip offset).length)
    (hfuel : EnoughRounds nand chip fuel offset length) (stored : Flash) :
    readLoop nand chip fuel offset length stored =
      some (0, 0, (target nand chip offset length).map stored.mem,
        { stored with touched := stored.touched ++ target nand chip offset length }) := by
  induction fuel generalizing offset length stored with
  | zero => cases hfuel
  | succ fuel ih =>
    rw [readLoop]
    split
    · rename_i hlen
      have hoff := lt_size_of_room hlen hroom
      have hfuel := hfuel hlen
      simp only [erasesize_sub_blockOff]
      rw [blockStart32, nandBlockIsbad_mask le_rfl hoff (by omega)]
      cases hbad : chip.bad (offset / nand.erasesize) with
      | true =>
        rw [if_pos hbad] at hfuel
        rw [if_pos rfl, target_of_bad hoff hbad]
        exact ih (room_of_bad hoff hbad ▸ hroom) hfuel stored
      | false =>
        have hend := add_blockLen_le hoff
        rw [hbad, if_neg (by simp)] at hfuel
        rw [if_neg (by simp)]
        generalize hrl : (if length < blockLen nand offset then length
          else blockLen nand offset) = readLength at hfuel ⊢
        obtain ⟨hle, hroom', htarget⟩ := target_split hoff hbad hroom hrl.symm
        have hfit : offset + readLength ≤ nand.size := by
          split at hrl <;> omega
        obtain ⟨rval, hrval, heq⟩ := nandRead_eq hread stored hfit
        rw [heq]
        dsimp only
        rw [if_neg (by omega), ih hroom' hfuel, htarget]
        simp
    · rename_i hlen
      rw [Nat.eq_zero_of_not_pos hlen]
      simp

/-! ## Both functions -/

structure RoundTrip (nand : NandInfo) (chip : Chip) (offset : Nat) (lim : Int) (data : List UInt8)
    (written read : Result) : Prop where
  ret : read.ret = 0
  buffer : read.buffer = data
  actual_written : written.actual = extent nand chip offset data.length
  actual_read : read.actual = extent nand chip offset data.length
  limit : written.actual ≤ lim
  touched : ∀ a ∈ written.flash.touched ++ read.flash.touched,
    chip.bad (a / nand.erasesize) = false ∧ offset ≤ a ∧ a < offset + written.actual

def ReadsBack (nand : NandInfo) (chip : Chip) (mem : Nat → UInt8) (offset : Nat) (lim : Int)
    (data : List UInt8) (drop : Bool) : Prop :=
  ∀ fuel written, nandWriteSkipBad nand chip fuel offset lim data drop ⟨mem, []⟩ = some written →
    written.ret = 0 →
    ∃ read, nandReadSkipBad nand chip fuel offset data.length lim ⟨written.flash.mem, []⟩ =
        some read ∧ RoundTrip nand chip offset lim data written read

theorem lt_extent (h : a ∈ target nand chip offset length) :
    a < offset + extent nand chip offset length := by
  have hne : target nand chip offset length ≠ [] := ne_nil_of_mem h
  have hlast : a ≤ (target nand chip offset length).getLast hne := by
    have hsorted := target_pairwise nand chip offset length
    rw [← dropLast_append_getLast hne] at h hsorted
    obtain h | h := mem_append.mp h
    · exact ((pairwise_append.mp hsorted).2.2 a h _ (by simp)).le
    · exact (mem_singleton.mp h).le
  rw [extent, getLast?_eq_some_getLast hne]
  dsimp only
  omega

theorem roundTrip_of_target {mem : Nat → UInt8} {lim : Int} {written read : Result}
    (hroom : data.length ≤ (goodAddrs nand chip offset).length)
    (herased : ∀ a ∈ target nand chip offset data.length, mem a = 0xff)
    (hactual : written.actual = extent nand chip offset data.length)
    (hlimit : written.actual ≤ lim)
    (hmem : written.flash.mem = program mem ((target nand chip offset data.length).zip data))
    (hwritten : ∀ a ∈ written.flash.touched, a ∈ target nand chip offset data.length)
    (hret : read.ret = 0) (hactual' : read.actual = extent nand chip offset data.length)
    (hbuffer : read.buffer = (target nand chip offset data.length).map written.flash.mem)
    (hread : read.flash.touched = target nand chip offset data.length) :
    RoundTrip nand chip offset lim data written read where
  ret := hret
  buffer := by
    rw [hbuffer, hmem]
    exact map_program _ _ _ ((target_pairwise _ _ _ _).imp ne_of_lt) (length_target hroom) herased
  actual_written := hactual
  actual_read := hactual'
  limit := hlimit
  touched := by
    intro a ha
    have hmem : a ∈ target nand chip offset data.length :=
      (mem_append.mp ha).elim (hwritten a) (hread ▸ ·)
    rw [hactual]
    exact ⟨(mem_target hmem).2.2, (mem_target hmem).1, lt_extent hmem⟩

theorem offset_add_le (hlen : 0 < length)
    (htarget : target nand chip offset length = List.range' offset length) :
    offset + length ≤ nand.size := by
  have hmem : offset + (length - 1) ∈ target nand chip offset length := by
    rw [htarget, mem_range'_1]
    omega
  have := (mem_target hmem).2.1
  omega

theorem nandReadSkipBad_fast (hread : chip.Readable) {lim : Int}
    (halign : offset &&& (nand.writesize - 1) = 0)
    (hcheck : checkSkipLen nand chip fuel offset length = some (0, used))
    (hlim : used ≤ lim) (hfit : offset + length ≤ nand.size) (stored : Flash) :
    nandReadSkipBad nand chip fuel offset length lim stored =
      some ⟨0, length, used,
        { stored with touched := stored.touched ++ List.range' offset length },
        (List.range' offset length).map stored.mem⟩ := by
  obtain ⟨rval, hrval, heq⟩ := nandRead_eq hread stored hfit
  rw [nandReadSkipBad, if_neg (not_not.mpr halign), hcheck]
  simp [if_neg (Int.not_lt.mpr hlim), heq, if_pos hrval]

theorem nandReadSkipBad_slow {lim : Int} (halign : offset &&& (nand.writesize - 1) = 0)
    (hcheck : checkSkipLen nand chip fuel offset length = some (needSkip, used))
    (hskip : 0 < needSkip) (hlim : used ≤ lim) {stored : Flash}
    (hloop : readLoop nand chip fuel offset length stored = some (0, 0, bytes, flash)) :
    nandReadSkipBad nand chip fuel offset length lim stored =
      some ⟨0, length, used, flash, bytes⟩ := by
  rw [nandReadSkipBad, if_neg (not_not.mpr halign), hcheck]
  simp [if_neg (Int.not_lt.mpr hskip.le), if_neg (Int.not_lt.mpr hlim), if_neg hskip.ne', hloop]

theorem nandWrite_fits (h : nandWrite nand chip flash start buf = (0, flash')) :
    start + buf.length ≤ nand.size := by
  rw [nandWrite] at h
  split at h
  · cases h
  · omega

theorem readsBack_of_small (hsize : nand.size < 2 ^ 32) (hread : chip.Readable)
    {mem : Nat → UInt8} {lim : Int}
    (herased : ∀ a ∈ target nand chip offset data.length, mem a = 0xff)
    (hempty : ¬ (data = [] ∧ drop = true ∧ nand.size < offset ∧ 0 ≤ lim)) :
    ReadsBack nand chip mem offset lim data drop := by
  intro fuel written hwrite hret
  rw [nandWriteSkipBad] at hwrite
  dsimp only at hwrite
  split at hwrite
  · cases hwrite
    cases hret
  rename_i halign
  have halign := not_not.mp halign
  cases hcheck : checkSkipLen nand chip fuel offset data.length with
  | none => simp [hcheck] at hwrite
  | some answer =>
    obtain ⟨needSkip, used⟩ := answer
    simp only [hcheck, bind_eq_bind, bind_some] at hwrite
    split at hwrite
    · cases hwrite
      cases hret
    rename_i hfits
    split at hwrite
    · cases hwrite
      cases hret
    rename_i hlim
    have hlim := Int.not_lt.mp hlim
    obtain ⟨hroom, rfl, hcontig⟩ := checkSkipLen_spec hsize hcheck (Int.not_lt.mp hfits)
    split at hwrite
    · -- no bad block, and no page is dropped
      rename_i hzero
      obtain rfl := hzero.1
      cases hout : nandWrite nand chip ⟨mem, []⟩ offset data with
      | mk rval flash =>
        rw [hout] at hwrite
        cases hwrite
        obtain rfl : rval = 0 := hret
        obtain ⟨hmem, htouched⟩ := nandWrite_eq_zero hout
        rw [← hcontig rfl] at hmem htouched
        refine ⟨_, nandReadSkipBad_fast hread halign hcheck hlim (nandWrite_fits hout) _, ?_⟩
        rw [← hcontig rfl]
        exact roundTrip_of_target hroom herased rfl hlim hmem (by simp [htouched]) rfl rfl rfl
          (by simp)
    · rename_i hslow
      cases hout : writeLoop nand chip drop fuel offset data ⟨mem, []⟩ with
      | none => simp [hout] at hwrite
      | some out =>
        obtain ⟨rval, left, flash⟩ := out
        simp only [hout, bind_some] at hwrite
        cases hwrite
        obtain rfl : rval = 0 := hret
        obtain ⟨hmem, henough, addrs, htouched, hsub⟩ := writeLoop_spec hsize hroom hout
        rw [nil_append] at htouched
        by_cases hzero : needSkip = 0
        · -- the read takes the short way
          subst hzero
          have hfit : offset + data.length ≤ nand.size := by
            obtain hnil | hpos := Nat.eq_zero_or_pos data.length
            · rw [hnil, extent_zero] at hlim
              have hdrop : drop = true := by simpa using hslow
              have hdata := eq_nil_of_length_eq_zero hnil
              by_contra hlt
              exact hempty ⟨hdata, hdrop, by omega, by exact_mod_cast hlim⟩
            · exact offset_add_le hpos (hcontig rfl)
          refine ⟨_, nandReadSkipBad_fast hread halign hcheck hlim hfit _, ?_⟩
          rw [← hcontig rfl]
          exact roundTrip_of_target hroom herased rfl hlim hmem (htouched ▸ hsub) rfl rfl rfl
            (by simp)
        · refine ⟨_, nandReadSkipBad_slow halign hcheck (by omega) hlim
            (readLoop_spec hsize hread hroom henough _), ?_⟩
          exact roundTrip_of_target hroom herased rfl hlim hmem (htouched ▸ hsub) rfl rfl rfl
            (by simp)

theorem not_readsBack_of_empty (halign : offset % nand.writesize = 0) (hoff : nand.size < offset)
    (hlim : 0 ≤ lim) (mem : Nat → UInt8) : ¬ ReadsBack nand chip mem offset lim [] true := by
  intro h
  have halign : offset &&& (nand.writesize - 1) = 0 := by
    rwa [NandInfo.writesize, Nat.and_two_pow_sub_one_eq_mod]
  obtain ⟨read, hread, htrip⟩ := h 1 ⟨0, 0, 0, ⟨mem, []⟩, []⟩
    (by simp [nandWriteSkipBad, halign, checkSkipLen, checkSkipLoop, writeLoop, hlim]) rfl
  have hfail : read.ret = eINVAL := by
    simp [nandReadSkipBad, halign, checkSkipLen, checkSkipLoop, nandRead, hoff, eINVAL, eUCLEAN,
      Int.not_lt.mpr hlim] at hread
    rw [← hread]
    rfl
  rw [htrip.ret] at hfail
  cases hfail

/-! ## A device of 4 GiB and more -/

def lastGood (nand : NandInfo) : Chip where
  bad b := (b + 1) * nand.erasesize < 2 ^ 32
  writeable := true
  writeStatus _ _ := 0
  readStatus _ _ := 0
  spoiled mem _ _ := mem

theorem blockLen_mul (nand : NandInfo) (b : Nat) :
    blockLen nand (b * nand.erasesize) = nand.erasesize := by
  rw [blockLen, Nat.mul_mod_left, Nat.sub_zero]

theorem checkSkipLoop_bad (hlen : 0 < length) (k : Nat)
    (hbad : ∀ b' < b + k, chip.bad b' = true) (hfit : b + k ≤ nand.blocks) (hused : used < 2 ^ 32) :
    checkSkipLoop nand chip length (fuel + k) (b * nand.erasesize) 0 used ret =
      checkSkipLoop nand chip length fuel ((b + k) * nand.erasesize) 0
        (sizeT (used + k * nand.erasesize)) (if k = 0 then ret else 1) := by
  induction k generalizing b used ret with
  | zero => simp [sizeT_of_lt hused]
  | succ k ih =>
    have hpos := nand.erasesize_pos
    have hoff : b * nand.erasesize < nand.size := Nat.mul_lt_mul_of_pos_right (by omega) hpos
    have hsize : nand.size < 2 ^ 63 := nand.size_lt
    rw [← Nat.add_assoc, checkSkipLoop, if_pos hlen, if_neg (Nat.not_le_of_lt hoff)]
    simp only [erasesize_sub_blockOff]
    have hlt : sizeT (used + nand.erasesize) < 2 ^ 32 := Nat.mod_lt _ (by norm_num)
    rw [nandBlockIsbad_mask (by norm_num) hoff (by omega), Nat.mul_div_cancel _ hpos,
      if_pos (hbad b (by omega)), blockLen_mul, ← Nat.succ_mul,
      ih (b := b.succ) (fun b' hb' => hbad b' (by omega)) (by omega) hlt]
    have hsum : sizeT (sizeT (used + nand.erasesize) + k * nand.erasesize) =
        sizeT (used + (k + 1) * nand.erasesize) := by
      rw [sizeT, sizeT, Nat.mod_add_mod, sizeT]
      congr 1
      ring
    rw [hsum, show b.succ + k = b + (k + 1) by omega]
    simp

theorem writeLoop_bad (hlen : 0 < buffer.length) (k : Nat) (hbad : ∀ b' < b + k, chip.bad b' = true)
    (hfit : b + k ≤ nand.blocks) (hlt : (b + k) * nand.erasesize < 2 ^ 32) :
    writeLoop nand chip drop (fuel + k) (b * nand.erasesize) buffer flash =
      writeLoop nand chip drop fuel ((b + k) * nand.erasesize) buffer flash := by
  induction k generalizing b with
  | zero => rfl
  | succ k ih =>
    have hpos := nand.erasesize_pos
    have hoff : b * nand.erasesize < nand.size := Nat.mul_lt_mul_of_pos_right (by omega) hpos
    have hle : b * nand.erasesize ≤ (b + (k + 1)) * nand.erasesize :=
      Nat.mul_le_mul_right _ (by omega)
    rw [← Nat.add_assoc, writeLoop, if_pos hlen]
    simp only [erasesize_sub_blockOff]
    rw [blockStart32, nandBlockIsbad_mask le_rfl hoff (by omega), Nat.mul_div_cancel _ hpos,
      if_pos (hbad b (by omega)), blockLen_mul, ← Nat.succ_mul,
      show b + (k + 1) = b.succ + k by omega] at *
    exact ih (fun b' hb' => hbad b' (by omega)) (by omega) hlt

theorem exists_lastBlock (nand : NandInfo) :
    ∃ lastBlock, 0 < lastBlock ∧ (lastBlock + 1) * nand.erasesize = 2 ^ 32 := by
  have hshift := nand.eraseShift_lt
  have hpow : 2 ^ (32 - nand.eraseShift) * nand.erasesize = 2 ^ 32 := by
    rw [NandInfo.erasesize, ← pow_add, Nat.sub_add_cancel hshift.le]
  have htwo : 2 ^ 1 ≤ 2 ^ (32 - nand.eraseShift) := Nat.pow_le_pow_right (by norm_num) (by omega)
  exact ⟨2 ^ (32 - nand.eraseShift) - 1, by omega, by rwa [Nat.sub_add_cancel (by omega)]⟩

section
variable (hend : (k + 1) * nand.erasesize = 2 ^ 32)
include hend

theorem lastGood_bad : ∀ b < 0 + k, (lastGood nand).bad b = true := by
  intro b hb
  refine decide_eq_true ?_
  rw [← hend]
  exact Nat.mul_lt_mul_of_pos_right (by omega) nand.erasesize_pos

theorem lastGood_good : (lastGood nand).bad k = false := by
  refine decide_eq_false ?_
  rw [hend]
  exact Nat.lt_irrefl _

theorem lt_blocks (hsize : 2 ^ 32 ≤ nand.size) : k < nand.blocks := by
  refine Nat.lt_of_succ_le (Nat.le_of_mul_le_mul_right ?_ nand.erasesize_pos)
  rw [Nat.succ_eq_add_one, hend]
  exact hsize

theorem checkSkipLen_lastGood (hk : 0 < k) (hsize : 2 ^ 32 ≤ nand.size) :
    checkSkipLen nand (lastGood nand) (2 + k) 0 nand.erasesize = some (1, 0) := by
  have hpos := nand.erasesize_pos
  have hblocks := lt_blocks hend hsize
  have hoff : k * nand.erasesize < nand.size := Nat.mul_lt_mul_of_pos_right hblocks hpos
  have hend' : k * nand.erasesize + nand.erasesize = 2 ^ 32 := by rw [← hend, Nat.succ_mul]
  have hrounds : checkSkipLoop nand (lastGood nand) nand.erasesize (2 + k) (0 * nand.erasesize) 0 0 0
      = _ := checkSkipLoop_bad hpos k (lastGood_bad hend) (by omega) (by norm_num)
  rw [Nat.zero_mul, Nat.zero_add, Nat.zero_add, if_neg hk.ne'] at hrounds
  have hloop : checkSkipLoop nand (lastGood nand) nand.erasesize (2 + k) 0 0 0 0 =
      some (1, nand.erasesize, 0) := by
    rw [hrounds, checkSkipLoop, if_pos hpos, if_neg (Nat.not_le_of_lt hoff)]
    simp only [erasesize_sub_blockOff]
    rw [nandBlockIsbad_mask (by norm_num) hoff (by omega), Nat.mul_div_cancel _ hpos,
      lastGood_good hend, if_neg (by simp), blockLen_mul, checkSkipLoop, Nat.zero_add,
      sizeT_of_lt nand.erasesize_lt, if_neg (Nat.lt_irrefl _),
      sizeT_of_lt (show k * nand.erasesize < 2 ^ 32 by omega), hend']
    rfl
  rw [checkSkipLen, hloop]
  simp

theorem writeLoop_lastGood (hsize : 2 ^ 32 ≤ nand.size) (mem : Nat → UInt8)
    (hdata : data.length = nand.erasesize) :
    writeLoop nand (lastGood nand) false (2 + k) 0 data ⟨mem, []⟩ =
      some (0, 0, ⟨program mem ((List.range' (k * nand.erasesize) nand.erasesize).zip data),
        List.range' (k * nand.erasesize) nand.erasesize⟩) := by
  have hpos := nand.erasesize_pos
  have hblocks := lt_blocks hend hsize
  have hoff : k * nand.erasesize < nand.size := Nat.mul_lt_mul_of_pos_right hblocks hpos
  have hend' : k * nand.erasesize + nand.erasesize = 2 ^ 32 := by rw [← hend, Nat.succ_mul]
  have hrounds : writeLoop nand (lastGood nand) false (2 + k) (0 * nand.erasesize) data ⟨mem, []⟩
      = _ := writeLoop_bad (by omega) k (lastGood_bad hend) (by omega)
        (by rw [Nat.zero_add]; omega)
  rw [Nat.zero_mul, Nat.zero_add] at hrounds
  have hwrite : nandWrite nand (lastGood nand) ⟨mem, []⟩ (k * nand.erasesize) data =
      (0, ⟨program mem ((range' (k * nand.erasesize) nand.erasesize).zip data),
        range' (k * nand.erasesize) nand.erasesize⟩) := by
    rw [nandWrite, hdata, if_neg (by omega), if_neg (by simp [lastGood]), if_neg hpos.ne']
    rfl
  rw [hrounds, writeLoop, if_pos (by omega)]
  simp only [erasesize_sub_blockOff]
  rw [blockStart32, nandBlockIsbad_mask le_rfl hoff (by omega), Nat.mul_div_cancel _ hpos,
    lastGood_good hend, blockLen_mul, hdata]
  simp [take_of_length_le hdata.le, hwrite, writeLoop, hdata]

end

theorem not_readsBack_of_large (hsize : 2 ^ 32 ≤ nand.size) (mem : Nat → UInt8)
    (hdata : data.length = nand.erasesize) :
    ¬ ReadsBack nand (lastGood nand) mem 0 0 data false := by
  intro h
  obtain ⟨k, hk, hend⟩ := exists_lastBlock nand
  have hpos := nand.erasesize_pos
  obtain ⟨read, -, htrip⟩ := h (2 + k) _ (by
    rw [nandWriteSkipBad, if_neg (by simp), hdata, checkSkipLen_lastGood hend hk hsize]
    simp only [bind_eq_bind, bind_some, writeLoop_lastGood hend hsize mem hdata]
    rfl) rfl
  have hfirst := htrip.touched (k * nand.erasesize)
    (mem_append_left _ (mem_range'_1.mpr (by omega)))
  exact absurd hfirst.2.2 (Nat.not_lt_zero _)

def fourBlocks : NandInfo := ⟨11, 31, 4, by decide, by decide, by decide⟩

def thirdBad : Chip where
  bad b := b = 2
  writeable := true
  writeStatus _ _ := 0
  readStatus _ _ := 0
  spoiled mem _ _ := mem

end UBoot.Nand
