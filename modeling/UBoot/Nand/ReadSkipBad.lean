import UBoot.Nand.SkipBadRoundTrip

/-!
# What a read around bad blocks returns

On a device below 4 GiB that can be read, `nand_read_skip_bad` returns the bytes
at the first addresses in good blocks, whatever was written there and how.
-/

namespace UBoot.Nand

open FlashMemory

variable {nand : NandInfo} {chip : Chip} {offset length : Nat}

def blocksLeft (nand : NandInfo) (offset : Nat) : Nat := nand.blocks - offset / nand.erasesize

theorem blocksLeft_next (h : offset < nand.size) :
    blocksLeft nand (offset + blockLen nand offset) < blocksLeft nand offset := by
  have hblock : offset / nand.erasesize < nand.blocks :=
    Nat.div_lt_of_lt_mul (by rwa [Nat.mul_comm])
  rw [blocksLeft, blocksLeft, add_blockLen, Nat.mul_div_cancel _ nand.erasesize_pos]
  omega

theorem checkSkipLoop_isSome (lenExclBad used : Nat)
    (hfuel : blocksLeft nand offset < fuel) :
    (checkSkipLoop nand chip length fuel offset lenExclBad used ret).isSome := by
  induction fuel generalizing offset lenExclBad used ret with
  | zero => omega
  | succ fuel ih =>
    rw [checkSkipLoop]
    split
    · split
      · rfl
      · rename_i hoff
        have hnext := blocksLeft_next (Nat.lt_of_not_le hoff)
        simp only [erasesize_sub_blockOff]
        split
        · exact ih _ _ (by omega)
        · exact ih _ _ (by omega)
    · rfl

theorem enoughRounds_of_blocksLeft (hroom : length ≤ (goodAddrs nand chip offset).length)
    (hpos : 0 < fuel) (hfuel : 0 < length → blocksLeft nand offset < fuel) :
    EnoughRounds nand chip fuel offset length := by
  induction fuel generalizing offset length with
  | zero => cases hpos
  | succ fuel ih =>
    intro hlen
    have hoff := lt_size_of_room hlen hroom
    have hnext := blocksLeft_next hoff
    have hfuel := hfuel hlen
    split
    · rename_i hbad
      exact ih (room_of_bad hoff hbad ▸ hroom) (by omega) fun _ => by omega
    · rename_i hbad
      generalize hrl : (if length < blockLen nand offset then length
        else blockLen nand offset) = readLength
      obtain ⟨hle, hroom', -⟩ := target_split hoff (by simpa using hbad) hroom hrl.symm
      refine ih hroom' (by omega) fun hleft => ?_
      -- a round that does not reach the end of the block is the last
      have hwhole : readLength = blockLen nand offset := by
        split at hrl <;> omega
      rw [hwhole]
      omega

section
variable (hsize : nand.size < 2 ^ 32)
include hsize

theorem checkSkipLen_room (hroom : length ≤ (goodAddrs nand chip offset).length)
    (hfuel : blocksLeft nand offset < fuel) : ∃ needSkip, 0 ≤ needSkip ∧
      checkSkipLen nand chip fuel offset length = some (needSkip, extent nand chip offset length) ∧
      (needSkip = 0 → target nand chip offset length = List.range' offset length) := by
  have hcount : (goodAddrs nand chip offset).length ≤ nand.size - offset :=
    (List.length_filter_le _ _).trans (List.length_range').le
  obtain ⟨⟨ret, excl, used⟩, hloop⟩ :=
    Option.isSome_iff_exists.mp (@checkSkipLoop_isSome _ chip _ length _ 0 0 0 hfuel)
  have hret : 0 ≤ ret := by
    have hspec := checkSkipLoop_spec hloop le_rfl hsize (by omega) (by omega)
    omega
  have hout : ∃ used', checkSkipLen nand chip fuel offset length = some (ret, used') := by
    rw [checkSkipLen, hloop]
    simp only [Option.bind_eq_bind, Option.bind_some, if_neg (Int.not_lt.mpr hret)]
    split
    · exact ⟨_, rfl⟩
    · exact ⟨_, rfl⟩
  obtain ⟨used', hout⟩ := hout
  obtain ⟨-, rfl, hcontig⟩ := checkSkipLen_spec hsize hout hret
  exact ⟨ret, hret, hout, hcontig⟩

theorem nandReadSkipBad_eq (hread : chip.Readable) {lim : Int}
    (halign : offset % nand.writesize = 0) (hoff : offset ≤ nand.size)
    (hroom : length ≤ (goodAddrs nand chip offset).length)
    (hlim : extent nand chip offset length ≤ lim) (hfuel : blocksLeft nand offset < fuel)
    (stored : Flash) : ∃ flash, nandReadSkipBad nand chip fuel offset length lim stored =
      some ⟨0, length, extent nand chip offset length, flash,
        (target nand chip offset length).map stored.mem⟩ := by
  have halign : offset &&& (nand.writesize - 1) = 0 := by
    rwa [NandInfo.writesize, Nat.and_two_pow_sub_one_eq_mod]
  obtain ⟨needSkip, hskip, hcheck, hcontig⟩ := checkSkipLen_room hsize hroom hfuel
  obtain rfl | hpos := hskip.eq_or_lt
  · have hfit : offset + length ≤ nand.size := by
      obtain rfl | hlen := Nat.eq_zero_or_pos length
      · exact hoff
      · exact offset_add_le hlen (hcontig rfl)
    rw [hcontig rfl]
    exact ⟨_, nandReadSkipBad_fast hread halign hcheck hlim hfit stored⟩
  · have henough := enoughRounds_of_blocksLeft hroom (by omega) fun _ => hfuel
    exact ⟨_, nandReadSkipBad_slow halign hcheck hpos hlim
      (readLoop_spec hsize hread hroom henough stored)⟩

end

end UBoot.Nand
