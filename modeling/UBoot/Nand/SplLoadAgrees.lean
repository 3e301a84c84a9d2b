import UBoot.Nand.ReadSkipBad
import UBoot.Nand.SplLoad

/-!
# The SPL loads what a read around bad blocks returns

From the start of a block, or from a page of a good one, `sfc_nand_load` and
`nand_read_skip_bad` go through the same addresses, as long as the reads of a page fail at
most five times. The failures on the first pages of the bad blocks right before a page count
as its own. Whole words are stored.
-/

namespace UBoot.Nand

open ByteMemory Word32 List

variable {nand : NandInfo} {chip : Chip} {dev : PageReads} {mem : Nat → UInt8}

/-! ## Pages and blocks -/

theorem NandInfo.writesize_pos (nand : NandInfo) : 0 < nand.writesize := Nat.two_pow_pos _

theorem NandInfo.pagesPerBlock_pos (nand : NandInfo) : 0 < nand.pagesPerBlock := Nat.two_pow_pos _

theorem NandInfo.erasesize_eq (nand : NandInfo) :
    nand.erasesize = nand.writesize * nand.pagesPerBlock := by
  rw [erasesize, writesize, pagesPerBlock, ← pow_add, Nat.add_sub_cancel' nand.writeShift_le]

theorem page_div (nand : NandInfo) (addr : Nat) :
    addr / nand.writesize / nand.pagesPerBlock = addr / nand.erasesize := by
  rw [Nat.div_div_eq_div_mul, nand.erasesize_eq]

section
variable (h : addr % nand.writesize = 0)
include h

theorem mod_erasesize :
    addr % nand.erasesize = nand.writesize * (addr / nand.writesize % nand.pagesPerBlock) := by
  have haddr : addr = nand.writesize * (addr / nand.writesize) := by
    have := Nat.div_add_mod addr nand.writesize
    omega
  rw [nand.erasesize_eq, haddr, Nat.mul_mod_mul_left, Nat.mul_div_cancel_left _ nand.writesize_pos]

theorem page_mod_eq_zero :
    addr / nand.writesize % nand.pagesPerBlock = 0 ↔ addr % nand.erasesize = 0 := by
  have := nand.writesize_pos
  rw [mod_erasesize h, Nat.mul_eq_zero]
  omega

theorem writesize_le_blockLen : nand.writesize ≤ blockLen nand addr := by
  have hlt := Nat.mod_lt (addr / nand.writesize) nand.pagesPerBlock_pos
  have hle : nand.writesize * (addr / nand.writesize % nand.pagesPerBlock + 1) ≤ nand.erasesize := by
    rw [nand.erasesize_eq]
    exact Nat.mul_le_mul_left _ hlt
  rw [Nat.mul_add, Nat.mul_one] at hle
  rw [blockLen, mod_erasesize h]
  omega

end

/-! ## One call, and the tries of a page -/

def Fails (nand : NandInfo) (dev : PageReads) (page n : Nat) : Prop :=
  dev.ecc page n = .dataFails ∨ page % nand.pagesPerBlock = 0 ∧ dev.ecc page n = .oobFails

instance (nand : NandInfo) (dev : PageReads) (page n : Nat) : Decidable (Fails nand dev page n) :=
  inferInstanceAs (Decidable (_ ∨ _))

@[simp] theorem length_transfer (page column len n : Nat) :
    (transfer nand dev mem page column len n).length = 4 * ((len + 3) / 4) := by
  simp [transfer]

def SameOutside (dst len : Nat) (memory memory' : Memory) : Prop :=
  ∀ a, a < dst ∨ dst + len ≤ a → memory' a = memory a

theorem sameOutside_storeBytes (dst : Nat) (bytes : List UInt8) (memory : Memory) :
    SameOutside dst bytes.length memory (storeBytes dst bytes memory) := by
  intro a ha
  rw [storeBytes_apply, if_neg (by omega)]

theorem SameOutside.storeBytes_eq
    (h : SameOutside dst bytes.length memory memory') :
    storeBytes dst bytes memory' = storeBytes dst bytes memory := by
  funext a
  rw [storeBytes_apply, storeBytes_apply]
  split
  · rfl
  · exact h a (by omega)

variable {page column dst len n : Nat} {memory : Memory}

theorem spinandReadPage_fails (chip : Chip) (mem : Nat → UInt8) (h : Fails nand dev page n) :
    ∃ memory', spinandReadPage nand chip dev mem page column dst len n memory = (-1, memory') ∧
      SameOutside dst (4 * ((len + 3) / 4)) memory memory' := by
  rw [spinandReadPage]
  split
  · exact ⟨memory, rfl, fun _ _ => rfl⟩
  · next hdata =>
    obtain ⟨hfirst, hoob⟩ := h.resolve_left hdata
    refine ⟨storeBytes dst (transfer nand dev mem page column len n) memory, by simp [hfirst, hoob],
      ?_⟩
    simpa using sameOutside_storeBytes dst (transfer nand dev mem page column len n) memory

theorem spinandReadPage_passes (h : ¬ Fails nand dev page n) :
    spinandReadPage nand chip dev mem page column dst len n memory =
      (if page % nand.pagesPerBlock = 0 ∧ chip.bad (page / nand.pagesPerBlock) = true then 1 else 0,
        storeBytes dst (transfer nand dev mem page column len n) memory) := by
  obtain ⟨hdata, hoob⟩ := not_or.mp h
  rw [spinandReadPage, if_neg hdata]
  dsimp only
  split
  · next hfirst => rw [if_neg (by simp [hfirst])]
  · next hfirst =>
    have hfirst := not_not.mp hfirst
    rw [if_neg (fun he => hoob ⟨hfirst, he⟩)]
    simp [hfirst]

variable {s : Load}

theorem round_fails (chip : Chip) (mem : Nat → UInt8)
    (h : Fails nand dev (s.srcAddr / nand.writesize) s.tries) (hretry : s.retryCount ≠ 0) :
    ∃ memory', s.round nand chip dev mem =
        { s with retryCount := s.retryCount - 1, tries := s.tries + 1, memory := memory' } ∧
      SameOutside s.buf (4 * ((s.rlen nand + 3) / 4)) s.memory memory' := by
  obtain ⟨memory', hread, hsame⟩ := spinandReadPage_fails chip mem h
  refine ⟨memory', ?_, hsame⟩
  rw [Load.round, hread]
  simp [Load.answered, hretry]

theorem loadLoop_fails (chip : Chip) (mem : Nat → UInt8) (k : Nat) (hcount : s.count ≠ 0)
    (h : ∀ j < k, Fails nand dev (s.srcAddr / nand.writesize) (s.tries + j))
    (hretry : k ≤ s.retryCount) :
    ∃ memory', SameOutside s.buf (4 * ((s.rlen nand + 3) / 4)) s.memory memory' ∧
      ∀ fuel, loadLoop nand chip dev mem (fuel + k) s = loadLoop nand chip dev mem fuel
        { s with retryCount := s.retryCount - k, tries := s.tries + k, memory := memory' } := by
  induction k generalizing s with
  | zero => exact ⟨s.memory, fun _ _ => rfl, fun fuel => by simp⟩
  | succ k ih =>
    obtain ⟨memory₁, hround, hsame₁⟩ := round_fails chip mem (h 0 (by omega)) (by omega)
    obtain ⟨memory', hsame, hloop⟩ := ih
      (s := { s with retryCount := s.retryCount - 1, tries := s.tries + 1, memory := memory₁ })
      hcount (fun j hj => by
        have := h (j + 1) (by omega)
        rwa [show s.tries + (j + 1) = s.tries + 1 + j by omega] at this)
      (by simp only; omega)
    refine ⟨memory', fun a ha => (hsame a ha).trans (hsame₁ a ha), fun fuel => ?_⟩
    rw [← Nat.add_assoc, loadLoop, if_neg hcount, hround, hloop fuel]
    congr 2 <;> simp only <;> omega

def Settles (nand : NandInfo) (dev : PageReads) (page k : Nat) : Prop :=
  (∀ n < k, Fails nand dev page n) ∧ ¬ Fails nand dev page k

def Load.untried (src left buf : Nat) (retryCount : Int) (memory : Memory) : Load :=
  ⟨src, left, buf, retryCount, 0, memory⟩

section
variable {src left buf k : Nat} {retryCount : Int}

theorem rlen_untried (halign : src % nand.writesize = 0) (left buf : Nat) (retryCount : Int)
    (memory : Memory) :
    (Load.untried src left buf retryCount memory).rlen nand = min nand.writesize left := by
  simp only [Load.rlen, Load.untried, halign, Nat.sub_zero]
  split <;> omega

variable (hleft : left ≠ 0) (halign : src % nand.writesize = 0)
  (h : Settles nand dev (src / nand.writesize) k) (hretry : k ≤ retryCount)
include hleft halign h hretry

theorem loadLoop_settles (mem : Nat → UInt8) (buf : Nat) (memory : Memory)
    (hret : (if src / nand.writesize % nand.pagesPerBlock = 0 ∧
      chip.bad (src / nand.writesize / nand.pagesPerBlock) = true then 1 else 0) = ret)
    (fuel : Nat) :
    loadLoop nand chip dev mem (fuel + 1 + k) (Load.untried src left buf retryCount memory) =
      loadLoop nand chip dev mem fuel
        (Load.answered nand ⟨src, left, buf, retryCount - k, k, storeBytes buf
          (transfer nand dev mem (src / nand.writesize) 0 (min nand.writesize left) k) memory⟩ ret
          (min nand.writesize left)) := by
  have hlen := rlen_untried halign left buf
  obtain ⟨memory', hsame, hloop⟩ := @loadLoop_fails nand dev
    (Load.untried src left buf retryCount memory) chip mem k hleft
    (fun j hj => by simpa [Load.untried] using h.1 j hj) hretry
  rw [hlen] at hsame
  have hround : Load.round nand chip dev mem ⟨src, left, buf, retryCount - k, k, memory'⟩ =
      Load.answered nand ⟨src, left, buf, retryCount - k, k, storeBytes buf
        (transfer nand dev mem (src / nand.writesize) 0 (min nand.writesize left) k) memory⟩ ret
        (min nand.writesize left) := by
    have hlen' : Load.rlen nand ⟨src, left, buf, retryCount - k, k, memory'⟩ =
        min nand.writesize left := hlen (retryCount - k) memory'
    rw [Load.round, hlen', spinandReadPage_passes h.2, hret]
    dsimp only
    rw [halign, SameOutside.storeBytes_eq (by simpa [Load.untried] using hsame)]
  rw [hloop]
  simp only [Load.untried, Nat.zero_add]
  rw [loadLoop, if_neg hleft, hround]

theorem loadLoop_bad (hfirst : src % nand.erasesize = 0)
    (hbad : chip.bad (src / nand.erasesize) = true) (mem : Nat → UInt8) (buf : Nat)
    (memory : Memory) :
    ∃ memory', SameOutside buf (left + 3) memory memory' ∧
      ∀ fuel, loadLoop nand chip dev mem (fuel + 1 + k)
          (Load.untried src left buf retryCount memory) =
        loadLoop nand chip dev mem fuel
          (Load.untried (u32 (src + nand.erasesize)) left buf (retryCount - k) memory') := by
  have hmark : src / nand.writesize % nand.pagesPerBlock = 0 ∧
      chip.bad (src / nand.writesize / nand.pagesPerBlock) = true :=
    ⟨(page_mod_eq_zero halign).mpr hfirst, by rw [page_div]; exact hbad⟩
  refine ⟨storeBytes buf (transfer nand dev mem (src / nand.writesize) 0
    (min nand.writesize left) k) memory, fun a ha => ?_, fun fuel => ?_⟩
  · rw [storeBytes_apply, if_neg (by rw [length_transfer]; omega)]
  · rw [loadLoop_settles hleft halign h hretry mem buf memory (if_pos hmark) fuel,
      nand.erasesize_eq, Nat.mul_comm nand.writesize]
    rfl

theorem loadLoop_good (hgood : chip.bad (src / nand.erasesize) = false) (mem : Nat → UInt8)
    (buf : Nat) (memory : Memory) (fuel : Nat) :
    loadLoop nand chip dev mem (fuel + 1 + k) (Load.untried src left buf retryCount memory) =
      loadLoop nand chip dev mem fuel
        (Load.untried (u32 (src + min nand.writesize left)) (left - min nand.writesize left)
          (buf + min nand.writesize left) 5
          (storeBytes buf (transfer nand dev mem (src / nand.writesize) 0
            (min nand.writesize left) k) memory)) := by
  have hmark : ¬ (src / nand.writesize % nand.pagesPerBlock = 0 ∧
      chip.bad (src / nand.writesize / nand.pagesPerBlock) = true) := by
    rw [page_div]
    simp [hgood]
  rw [loadLoop_settles hleft halign h hretry mem buf memory (if_neg hmark) fuel]
  simp [Load.answered, Load.untried, Int.not_lt.mpr (Int.sub_nonneg_of_le hretry)]

end

/-! ## Retries -/

/-- The failures on the first pages of the bad blocks right before a block, from the
block `first` on. -/
def carried (nand : NandInfo) (chip : Chip) (fails : Nat → Nat) (first : Nat) : Nat → Nat
  | 0 => 0
  | b + 1 =>
    if first ≤ b ∧ chip.bad b then carried nand chip fails first b + fails (b * nand.pagesPerBlock)
    else 0

def carriedTo (nand : NandInfo) (chip : Chip) (fails : Nat → Nat) (first addr : Nat) : Nat :=
  if addr % nand.erasesize = 0 then carried nand chip fails first (addr / nand.erasesize) else 0

/-- Every page from `start` on is read after some tries, of which there are at most
five together with those it is reached with. -/
structure FewFailures (nand : NandInfo) (chip : Chip) (dev : PageReads) (start : Nat)
    (fails : Nat → Nat) : Prop where
  settles : ∀ addr, start ≤ addr → addr % nand.writesize = 0 →
    Settles nand dev (addr / nand.writesize) (fails (addr / nand.writesize))
  few : ∀ addr, start ≤ addr → addr % nand.writesize = 0 →
    fails (addr / nand.writesize) +
      carriedTo nand chip fails (start / nand.erasesize) addr ≤ 5

variable {start src left buf : Nat} {fails : Nat → Nat}

theorem next_in_block (hpos : 0 < n) (hn : n ≤ blockLen nand src) :
    (src + n) / nand.erasesize = src / nand.erasesize ∧ (src + n) % nand.erasesize ≠ 0 ∨
      (src + n) / nand.erasesize = src / nand.erasesize + 1 ∧ (src + n) % nand.erasesize = 0 := by
  rcases Nat.lt_or_eq_of_le hn with hlt | rfl
  · have hdiv : (src + n) / nand.erasesize = src / nand.erasesize :=
      div_eq_of_lt_blockLen (Nat.le_add_right src n) (by omega)
    refine .inl ⟨hdiv, fun hmod => ?_⟩
    have hsrc := Nat.div_mul_le_self src nand.erasesize
    have hnext := Nat.div_add_mod' (src + n) nand.erasesize
    rw [hdiv] at hnext
    omega
  · rw [add_blockLen]
    exact .inr ⟨Nat.mul_div_cancel _ nand.erasesize_pos, Nat.mul_mod_left _ _⟩

theorem carriedTo_good (fails : Nat → Nat) (first : Nat)
    (hgood : chip.bad (src / nand.erasesize) = false) (hpos : 0 < n) (hn : n ≤ blockLen nand src) :
    carriedTo nand chip fails first (src + n) = 0 := by
  rw [carriedTo]
  rcases next_in_block hpos hn with ⟨-, hmod⟩ | ⟨hdiv, hmod⟩
  · rw [if_neg hmod]
  · rw [if_pos hmod, hdiv, carried, if_neg (by simp [hgood])]

theorem carriedTo_bad (hfirst : src % nand.erasesize = 0) (hle : start ≤ src)
    (hbad : chip.bad (src / nand.erasesize) = true) :
    carriedTo nand chip fails (start / nand.erasesize) (src + nand.erasesize) =
      carriedTo nand chip fails (start / nand.erasesize) src + fails (src / nand.writesize) := by
  have hpage : src / nand.erasesize * nand.pagesPerBlock = src / nand.writesize := by
    have hsrc : src / nand.erasesize * nand.pagesPerBlock * nand.writesize = src := by
      rw [Nat.mul_assoc, Nat.mul_comm nand.pagesPerBlock, ← nand.erasesize_eq]
      exact Nat.div_mul_cancel (Nat.dvd_of_mod_eq_zero hfirst)
    conv_rhs => rw [← hsrc, Nat.mul_div_cancel _ nand.writesize_pos]
  rw [carriedTo, carriedTo, if_pos (by simpa using hfirst), if_pos hfirst,
    Nat.add_div_right _ nand.erasesize_pos, carried, if_pos ⟨Nat.div_le_div_right hle, hbad⟩, hpage]

theorem storeBytes_transfer (halign : src % nand.writesize = 0) (memory : Memory) (hi : i < r) :
    storeBytes buf (transfer nand dev mem (src / nand.writesize) 0 r k) memory (buf + i) =
      mem (src + i) := by
  have hsrc : src / nand.writesize * nand.writesize = src := by
    have := Nat.div_add_mod' src nand.writesize
    omega
  rw [storeBytes_apply, if_pos (by rw [length_transfer]; omega), Nat.add_sub_cancel_left,
    getD_eq_getElem _ _ (by rw [length_transfer]; omega)]
  simp [transfer, hi, hsrc]

theorem loadLoop_target (hsize : nand.size < 2 ^ 32) (hfew : FewFailures nand chip dev start fails)
    (mem : Nat → UInt8) (buf : Nat) (memory : Memory) (hle : start ≤ src)
    (halign : 0 < left → src % nand.writesize = 0)
    (hblock : 0 < left → src % nand.erasesize = 0 ∨ chip.bad (src / nand.erasesize) = false)
    (hroom : left ≤ (goodAddrs nand chip src).length) :
    ∃ fuel memory', loadLoop nand chip dev mem fuel (Load.untried src left buf
        (5 - carriedTo nand chip fails (start / nand.erasesize) src) memory) = some (0, memory') ∧
      (List.range' buf left).map memory' = (target nand chip src left).map mem ∧
      SameOutside buf (left + 3) memory memory' := by
  induction hn : nand.size - src using Nat.strong_induction_on generalizing src left buf memory with
  | _ n ih =>
    obtain rfl | hpos := Nat.eq_zero_or_pos left
    · exact ⟨1, memory, rfl, by simp, fun _ _ => rfl⟩
    have hsrc := lt_size_of_room hpos hroom
    have halign := halign hpos
    have hend := add_blockLen_le hsrc
    have hsettles := hfew.settles src hle halign
    have hretry : ((fails (src / nand.writesize) : Nat) : Int) ≤
        5 - carriedTo nand chip fails (start / nand.erasesize) src := by
      have := hfew.few src hle halign
      omega
    cases hbad : chip.bad (src / nand.erasesize) with
    | true =>
      -- only the first page of a bad block is looked at
      have hfirst : src % nand.erasesize = 0 := (hblock hpos).resolve_right (by simp [hbad])
      have hlen : blockLen nand src = nand.erasesize := by rw [blockLen, hfirst, Nat.sub_zero]
      have herase := nand.erasesize_pos
      rw [hlen] at hend
      obtain ⟨memory₁, hsame₁, hloop⟩ :=
        loadLoop_bad hpos.ne' halign hsettles hretry hfirst hbad mem buf memory
      have hroom' : left ≤ (goodAddrs nand chip (src + nand.erasesize)).length := by
        rw [← hlen, ← room_of_bad hsrc hbad]
        exact hroom
      have halign' : (src + nand.erasesize) % nand.writesize = 0 := by
        rw [nand.erasesize_eq, Nat.add_mul_mod_self_left]
        exact halign
      obtain ⟨fuel, memory', hrun, hbytes, hsame⟩ := ih (nand.size - (src + nand.erasesize))
        (by omega) buf memory₁ (hle.trans (Nat.le_add_right _ _)) (fun _ => halign')
        (fun _ => .inl (by simpa using hfirst)) hroom' rfl
      refine ⟨fuel + 1 + fails (src / nand.writesize), memory', ?_, ?_, fun a ha => ?_⟩
      · rw [hloop fuel, ← hrun, carriedTo_bad hfirst hle hbad, u32_of_lt (by omega)]
        congr 2
        push_cast
        omega
      · rw [hbytes, target_of_bad hsrc hbad, hlen]
      · rw [hsame a ha, hsame₁ a ha]
    | false =>
      have hpage := writesize_le_blockLen halign
      have hwrite := nand.writesize_pos
      have hloop := loadLoop_good hpos.ne' halign hsettles hretry hbad mem buf memory
      generalize hr : min nand.writesize left = r at hloop
      have hrpos : 0 < r := by omega
      have hrle : r ≤ blockLen nand src := by omega
      have hroom' : left - r ≤ (goodAddrs nand chip (src + r)).length := by
        rw [room_of_good hsrc hbad hrle] at hroom
        omega
      have halign' : 0 < left - r → (src + r) % nand.writesize = 0 := by
        intro hmore
        rw [show r = nand.writesize by omega, Nat.add_mod_right]
        exact halign
      have hblock' : (src + r) % nand.erasesize = 0 ∨
          chip.bad ((src + r) / nand.erasesize) = false := by
        rcases next_in_block hrpos hrle with ⟨hdiv, -⟩ | ⟨-, hmod⟩
        · exact .inr (by rw [hdiv]; exact hbad)
        · exact .inl hmod
      obtain ⟨fuel, memory', hrun, hbytes, hsame⟩ := ih (nand.size - (src + r)) (by omega) (buf + r)
        (storeBytes buf (transfer nand dev mem (src / nand.writesize) 0 r
          (fails (src / nand.writesize))) memory) (hle.trans (Nat.le_add_right _ _)) halign'
        (fun _ => hblock') hroom' rfl
      refine ⟨fuel + 1 + fails (src / nand.writesize), memory', ?_, ?_, fun a ha => ?_⟩
      · rw [hloop fuel, ← hrun, carriedTo_good fails _ hbad hrpos hrle, u32_of_lt (by omega)]
        rfl
      · have hfront : (range' buf r).map memory' = (range' src r).map mem := by
          refine ext_getElem (by simp) fun i hi _ => ?_
          simp only [length_map, length_range'] at hi
          rw [getElem_map, getElem_map, getElem_range', getElem_range',
            hsame _ (by omega), Nat.one_mul]
          exact storeBytes_transfer halign _ hi
        rw [target_of_good_part hsrc hbad hrle (by omega), map_append, ← hbytes, ← hfront,
          ← map_append, range'_append_1, Nat.add_sub_cancel' (by omega)]
      · rw [hsame a (by omega), storeBytes_apply, if_neg (by rw [length_transfer]; omega)]

def tinyNand : NandInfo := ⟨2, 3, 4, by decide, by decide, by decide⟩

def chipWithBad (bad : Nat → Bool) : Chip where
  bad := bad
  writeable := true
  writeStatus _ _ := 0
  readStatus _ _ := 0
  spoiled mem _ _ := mem

def failing (fails : Nat → Nat) : PageReads where
  ecc page n := if n < fails page then .dataFails else .passes
  fifo _ _ _ := 0

theorem settles_failing (nand : NandInfo) (fails : Nat → Nat) (page : Nat) :
    Settles nand (failing fails) page (fails page) :=
  ⟨fun n hn => .inl (if_pos hn), by simp [Fails, failing]⟩

theorem carried_eq_zero (h : ∀ b, chip.bad b = true → fails (b * nand.pagesPerBlock) = 0)
    (first b : Nat) : carried nand chip fails first b = 0 := by
  induction b with
  | zero => rfl
  | succ b ih =>
    rw [carried]
    split
    · next hbad => rw [ih, h b hbad.2]
    · rfl

end UBoot.Nand
