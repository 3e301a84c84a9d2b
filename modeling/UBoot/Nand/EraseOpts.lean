import UBoot.Lib.Word32
import UBoot.Nand.SkipBadRoundTrip

/-!
# Erasing NAND flash

`nand_erase_opts` of `drivers/mtd/nand/nand_util.c` over `mtd_block_isbad` and
`mtd_erase`, without what it prints. A block that cannot be erased is counted like one
that was erased, and the function does not report it.
-/

namespace UBoot.Nand

open Word32

def eIO : Int := -5

structure Eraser where
  eraseStatus : Nat → Int
  oobavail : Nat
  oobStatus : Nat → Int

structure EraseOptions where
  length : Nat
  offset : Nat
  jffs2 : Bool
  scrub : Bool
  spread : Bool
  lim : Nat

structure Erased where
  commanded : List Nat
  erased : List Nat
  marked : List Nat

section
variable (nand : NandInfo) (chip : Chip) (eraser : Eraser)

def mtdBlockIsbad (ofs : Nat) : Int :=
  if nand.size < ofs then eINVAL else if chip.bad (ofs / nand.erasesize) then 1 else 0

def mtdErase (scrub : Bool) (addr : Nat) (st : Erased) : Int × Erased :=
  let block := addr / nand.erasesize
  if nand.size < addr ∨ nand.size - addr < nand.erasesize then (eINVAL, st)
  else if !chip.writeable then (eROFS, st)
  else if !scrub && chip.bad block then ( eIO, st)
  else if eraser.eraseStatus block = 0 then
    (0, { st with commanded := block :: st.commanded, erased := block :: st.erased })
  else (eraser.eraseStatus block, { st with commanded := block :: st.commanded })

def writeCleanmarker (jffs2 : Bool) (addr : Nat) (st : Erased) : Erased :=
  let block := addr / nand.erasesize
  if jffs2 ∧ 8 ≤ eraser.oobavail ∧ eraser.oobStatus block = 0 then
    { st with marked := block :: st.marked }
  else st

def eraseBlock (opts : EraseOptions) (addr : Nat) (st : Erased) : Erased :=
  let (result, st) := mtdErase nand chip eraser opts.scrub addr st
  if result ≠ 0 then st else writeCleanmarker nand eraser opts.jffs2 addr st

/-- The loop: `erased_length` of `erase_length` blocks are done. -/
def eraseLoop (opts : EraseOptions) (eraseLength : Nat) :
    Nat → Nat → Nat → Erased → Option (Int × Erased)
  | 0, _, _, _ => none
  | fuel + 1, addr, erasedLength, st =>
    if erasedLength < eraseLength then
      if opts.lim ≠ 0 ∧ opts.offset + opts.lim ≤ addr then some (eFBIG, st)
      else if !opts.scrub ∧ mtdBlockIsbad nand chip addr < 0 then some (-1, st)
      else if !opts.scrub ∧ 0 < mtdBlockIsbad nand chip addr then
        eraseLoop opts eraseLength fuel (addr + nand.erasesize)
          (if opts.spread then erasedLength else erasedLength + 1) st
      else
        eraseLoop opts eraseLength fuel (addr + nand.erasesize) (erasedLength + 1)
          (eraseBlock nand chip eraser opts addr st)
    else some (0, st)

/-- The number of blocks for the length, an `unsigned long`. -/
def eraseLength (opts : EraseOptions) : Nat :=
  u32 ((opts.length + nand.erasesize - 1) / nand.erasesize)

def nandEraseOpts (fuel : Nat) (opts : EraseOptions) : Option (Int × Erased) :=
  if opts.offset &&& (nand.erasesize - 1) ≠ 0 then some (-1, ⟨[], [], []⟩)
  else eraseLoop nand chip eraser opts (eraseLength nand opts) fuel opts.offset 0 ⟨[], [], []⟩

end

/-! ## The blocks that are gone through -/

variable {nand : NandInfo} {chip : Chip} {eraser : Eraser} {opts : EraseOptions} {b : Nat}

/-- With `spread` a bad block that is skipped is not counted. -/
def Counted (chip : Chip) (opts : EraseOptions) (b : Nat) : Prop :=
  opts.scrub ∨ ¬ opts.spread ∨ chip.bad b = false

instance (chip : Chip) (opts : EraseOptions) : DecidablePred (Counted chip opts) :=
  fun _ => inferInstanceAs (Decidable (_ ∨ _))

def Visited (nand : NandInfo) (chip : Chip) (opts : EraseOptions) (b : Nat) : Prop :=
  opts.offset / nand.erasesize ≤ b ∧
    Nat.count (Counted chip opts) b <
      Nat.count (Counted chip opts) (opts.offset / nand.erasesize) + eraseLength nand opts

def Passable (nand : NandInfo) (opts : EraseOptions) (b : Nat) : Prop :=
  (opts.lim ≠ 0 → b * nand.erasesize < opts.offset + opts.lim) ∧ (¬ opts.scrub → b ≤ nand.blocks)

def Erasable (nand : NandInfo) (chip : Chip) (eraser : Eraser) (opts : EraseOptions) (b : Nat) :
    Prop :=
  b < nand.blocks ∧ chip.writeable ∧ (opts.scrub ∨ chip.bad b = false) ∧ eraser.eraseStatus b = 0

theorem mtdBlockIsbad_mul (b : Nat) :
    mtdBlockIsbad nand chip (b * nand.erasesize) =
      if nand.blocks < b then eINVAL else if chip.bad b then 1 else 0 := by
  rw [mtdBlockIsbad, Nat.mul_div_cancel _ nand.erasesize_pos, NandInfo.size]
  simp [Nat.mul_lt_mul_right nand.erasesize_pos]

theorem outside_iff (b : Nat) :
    (nand.size < b * nand.erasesize ∨ nand.size - b * nand.erasesize < nand.erasesize) ↔
      nand.blocks ≤ b := by
  have hpos := nand.erasesize_pos
  rw [NandInfo.size]
  constructor
  · intro h
    by_contra hlt
    have hle := Nat.mul_le_mul_right nand.erasesize (Nat.lt_of_not_le hlt)
    rw [Nat.succ_mul] at hle
    omega
  · intro h
    have hle := Nat.mul_le_mul_right nand.erasesize h
    omega

theorem mtdErase_mul (b : Nat) (st : Erased) :
    ((mtdErase nand chip eraser opts.scrub (b * nand.erasesize) st).1 = 0 ↔
      Erasable nand chip eraser opts b) ∧
    (∀ x ∈ (mtdErase nand chip eraser opts.scrub (b * nand.erasesize) st).2.commanded,
      x ∈ st.commanded ∨ x = b ∧ (opts.scrub ∨ chip.bad b = false)) ∧
    ∀ x, x ∈ (mtdErase nand chip eraser opts.scrub (b * nand.erasesize) st).2.erased ↔
      x ∈ st.erased ∨ x = b ∧ Erasable nand chip eraser opts b := by
  unfold mtdErase Erasable
  rw [Nat.mul_div_cancel _ nand.erasesize_pos]
  dsimp only
  simp only [outside_iff]
  by_cases houtside : nand.blocks ≤ b
  · simp [houtside, eINVAL]
    exact fun x hx => .inl hx
  · have hinside := Nat.lt_of_not_le houtside
    by_cases hwriteable : chip.writeable
    · by_cases hbad : (!opts.scrub && chip.bad b) = true
      · have hkept : opts.scrub = false ∧ chip.bad b = true := by simpa using hbad
        simp [houtside, hwriteable, hkept, eIO]
      · have hgood : opts.scrub = true ∨ chip.bad b = false := by
          cases hscrub : opts.scrub <;> simp_all
        by_cases hstatus : eraser.eraseStatus b = 0
        · simp [houtside, hinside, hwriteable, hbad, hgood, hstatus, or_comm]
        · simp [houtside, hwriteable, hbad, hgood, hstatus]
          tauto
    · simp [houtside, hwriteable, eROFS]
      exact fun x hx => .inl hx

theorem writeCleanmarker_erased (jffs2 : Bool) (addr : Nat) (st : Erased) :
    (writeCleanmarker nand eraser jffs2 addr st).commanded = st.commanded ∧
      (writeCleanmarker nand eraser jffs2 addr st).erased = st.erased := by
  unfold writeCleanmarker
  dsimp only
  split
  · exact ⟨rfl, rfl⟩
  · exact ⟨rfl, rfl⟩

theorem eraseBlock_mul (b : Nat) (st : Erased) :
    (∀ x ∈ (eraseBlock nand chip eraser opts (b * nand.erasesize) st).commanded,
      x ∈ st.commanded ∨ x = b ∧ (opts.scrub ∨ chip.bad b = false)) ∧
    ∀ x, x ∈ (eraseBlock nand chip eraser opts (b * nand.erasesize) st).erased ↔
      x ∈ st.erased ∨ x = b ∧ Erasable nand chip eraser opts b := by
  obtain ⟨-, hcommanded, herased⟩ := @mtdErase_mul nand chip eraser opts b st
  unfold eraseBlock
  dsimp only
  split
  · exact ⟨hcommanded, herased⟩
  · rw [(writeCleanmarker_erased _ _ _).1, (writeCleanmarker_erased _ _ _).2]
    exact ⟨hcommanded, herased⟩

/-! ## The loop -/

theorem not_visited_of_le (h : ¬ Visited nand chip opts b)
    (hfirst : opts.offset / nand.erasesize ≤ b) (hx : b ≤ x) : ¬ Visited nand chip opts x := by
  have hmono := Nat.count_monotone (Counted chip opts) hx
  rintro ⟨-, hlt⟩
  exact h ⟨hfirst, by omega⟩

def eraseRound (nand : NandInfo) (chip : Chip) (eraser : Eraser) (opts : EraseOptions) (b : Nat)
    (st : Erased) : Erased :=
  if opts.scrub ∨ chip.bad b = false then eraseBlock nand chip eraser opts (b * nand.erasesize) st
  else st

theorem eraseRound_spec (b : Nat) (st : Erased) :
    (∀ x ∈ (eraseRound nand chip eraser opts b st).commanded,
      x ∈ st.commanded ∨ opts.scrub ∨ chip.bad x = false) ∧
    ∀ x, x ∈ (eraseRound nand chip eraser opts b st).erased ↔
      x ∈ st.erased ∨ x = b ∧ Erasable nand chip eraser opts b := by
  unfold eraseRound
  split
  next hgood =>
    obtain ⟨hcommanded, herased⟩ := @eraseBlock_mul nand chip eraser opts b st
    refine ⟨fun x hx => (hcommanded x hx).imp_right ?_, herased⟩
    rintro ⟨rfl, h⟩
    exact h
  next hbad =>
    refine ⟨fun x hx => .inl hx, fun x => ⟨.inl, fun h => h.elim id fun h => ?_⟩⟩
    exact absurd h.2.2.2.1 hbad

theorem eraseLoop_succ {fuel erasedLength n : Nat} {st : Erased} (hmore : erasedLength < n) :
    (¬ Passable nand opts b → ∃ ret, ret ≠ 0 ∧ eraseLoop nand chip eraser opts n (fuel + 1)
      (b * nand.erasesize) erasedLength st = some (ret, st)) ∧
    (Passable nand opts b → eraseLoop nand chip eraser opts n (fuel + 1) (b * nand.erasesize)
      erasedLength st = eraseLoop nand chip eraser opts n fuel ((b + 1) * nand.erasesize)
        (erasedLength + if Counted chip opts b then 1 else 0)
        (eraseRound nand chip eraser opts b st)) := by
  rw [eraseLoop, if_pos hmore, mtdBlockIsbad_mul, ← Nat.succ_mul]
  by_cases hlim : opts.lim ≠ 0 ∧ opts.offset + opts.lim ≤ b * nand.erasesize
  · rw [if_pos hlim]
    refine ⟨fun _ => ⟨_, by decide, rfl⟩, fun hpass => ?_⟩
    exact absurd (hpass.1 hlim.1) (Nat.not_lt.mpr hlim.2)
  · rw [if_neg hlim]
    have hbelow : opts.lim ≠ 0 → b * nand.erasesize < opts.offset + opts.lim :=
      fun h => Nat.lt_of_not_le fun hle => hlim ⟨h, hle⟩
    cases hscrub : opts.scrub with
    | true =>
      have hcounted : Counted chip opts b := .inl hscrub
      have hround : opts.scrub = true ∨ chip.bad b = false := .inl hscrub
      refine ⟨fun hpass => absurd ⟨hbelow, fun h => absurd hscrub h⟩ hpass, fun _ => ?_⟩
      simp [hcounted, eraseRound, hround]
    | false =>
      by_cases hbeyond : nand.blocks < b
      · refine ⟨fun _ => ⟨-1, by decide, ?_⟩, fun hpass => ?_⟩
        · simp [hbeyond, eINVAL]
        · exact absurd (hpass.2 (by simp [hscrub])) (Nat.not_le.mpr hbeyond)
      · refine ⟨fun hpass => absurd ⟨hbelow, fun _ => Nat.not_lt.mp hbeyond⟩ hpass, fun _ => ?_⟩
        cases hbad : chip.bad b with
        | true =>
          cases hspread : opts.spread <;>
            simp [hbeyond, hbad, Counted, hscrub, hspread, eraseRound]
        | false => simp [hbeyond, hbad, Counted, eraseRound]

/-- What the loop comes to from a block on: it answers 0 just where it gives up at no block, no
bad block gets the command without `scrub`, and then those blocks are erased that the chip
erases. -/
structure LoopDone (nand : NandInfo) (chip : Chip) (eraser : Eraser) (opts : EraseOptions) (b : Nat)
    (st : Erased) (ret : Int) (st' : Erased) : Prop where
  ret_iff : ret = 0 ↔ ∀ x, b ≤ x → Visited nand chip opts x → Passable nand opts x
  commanded : ∀ x ∈ st'.commanded, x ∈ st.commanded ∨ opts.scrub ∨ chip.bad x = false
  erased : ret = 0 → ∀ x, x ∈ st'.erased ↔ x ∈ st.erased ∨
    b ≤ x ∧ Visited nand chip opts x ∧ Erasable nand chip eraser opts x

theorem LoopDone.round {ret : Int} (hvisited : Visited nand chip opts b)
    (hpass : Passable nand opts b)
    (h : LoopDone nand chip eraser opts (b + 1) (eraseRound nand chip eraser opts b st) ret st') :
    LoopDone nand chip eraser opts b st ret st' := by
  obtain ⟨hcommanded, herased⟩ := @eraseRound_spec nand chip eraser opts b st
  refine ⟨h.ret_iff.trans ⟨fun hall x hx hx' => ?_, fun hall x hx => hall x (Nat.le_of_succ_le hx)⟩,
    fun x hx => ?_, fun hret x => ?_⟩
  · rcases Nat.eq_or_lt_of_le hx with rfl | hlt
    · exact hpass
    · exact hall x hlt hx'
  · exact (h.commanded x hx).elim (hcommanded x) .inr
  · rw [h.erased hret x, herased x]
    constructor
    · rintro ((hold | ⟨rfl, hok⟩) | ⟨hx, hrest⟩)
      · exact .inl hold
      · exact .inr ⟨Nat.le_refl x, hvisited, hok⟩
      · exact .inr ⟨Nat.le_of_succ_le hx, hrest⟩
    · rintro (hold | ⟨hx, hrest⟩)
      · exact .inl (.inl hold)
      · rcases Nat.eq_or_lt_of_le hx with rfl | hlt
        · exact .inl (.inr ⟨rfl, hrest.2⟩)
        · exact .inr ⟨hlt, hrest⟩

theorem eraseLoop_spec {fuel erasedLength : Nat} {st : Erased}
    (hfirst : opts.offset / nand.erasesize ≤ b)
    (hcount : Nat.count (Counted chip opts) (opts.offset / nand.erasesize) + erasedLength =
      Nat.count (Counted chip opts) b)
    (hfuel : 0 < fuel ∧ (opts.scrub → eraseLength nand opts < fuel + erasedLength) ∧
      (¬ opts.scrub → nand.blocks + 1 < fuel + b)) :
    ∃ ret st', eraseLoop nand chip eraser opts (eraseLength nand opts) fuel (b * nand.erasesize)
        erasedLength st = some (ret, st') ∧ LoopDone nand chip eraser opts b st ret st' := by
  induction fuel generalizing b erasedLength st with
  | zero => exact absurd hfuel.1 (Nat.lt_irrefl 0)
  | succ fuel ih =>
    have hvisited : erasedLength < eraseLength nand opts ↔ Visited nand chip opts b := by
      rw [Visited, ← hcount]
      omega
    by_cases hmore : erasedLength < eraseLength nand opts
    · obtain ⟨hgiveUp, hgoOn⟩ := @eraseLoop_succ nand chip eraser opts b fuel erasedLength
        (eraseLength nand opts) st hmore
      by_cases hpass : Passable nand opts b
      · have hnext : Nat.count (Counted chip opts) (opts.offset / nand.erasesize) +
            (erasedLength + if Counted chip opts b then 1 else 0) =
              Nat.count (Counted chip opts) (b + 1) := by
          rw [Nat.count_succ]
          omega
        have hfuel' : 0 < fuel ∧ (opts.scrub → eraseLength nand opts <
            fuel + (erasedLength + if Counted chip opts b then 1 else 0)) ∧
            (¬ opts.scrub → nand.blocks + 1 < fuel + (b + 1)) := by
          by_cases hscrub : opts.scrub
          · have hcounted : Counted chip opts b := .inl hscrub
            have := hfuel.2.1 hscrub
            rw [if_pos hcounted]
            exact ⟨by omega, fun _ => by omega, fun h => absurd hscrub h⟩
          · have := hfuel.2.2 hscrub
            have := hpass.2 hscrub
            exact ⟨by omega, fun h => absurd h hscrub, fun _ => by omega⟩
        obtain ⟨ret, st', hloop, hdone⟩ := ih (Nat.le_succ_of_le hfirst) hnext hfuel'
        exact ⟨ret, st', (hgoOn hpass).trans hloop, hdone.round (hvisited.mp hmore) hpass⟩
      · obtain ⟨ret, hret, hloop⟩ := hgiveUp hpass
        refine ⟨ret, st, hloop, ?_, fun x hx => .inl hx, fun h => absurd h hret⟩
        exact iff_of_false hret fun h => hpass (h b (Nat.le_refl b) (hvisited.mp hmore))
    · rw [eraseLoop, if_neg hmore]
      have hend {x : Nat} (hx : b ≤ x) : ¬ Visited nand chip opts x :=
        not_visited_of_le (fun h => hmore (hvisited.mpr h)) hfirst hx
      refine ⟨0, st, rfl, iff_of_true rfl fun x hx h => absurd h (hend hx), fun x hx => .inl hx,
        fun _ x => ?_⟩
      exact ⟨.inl, fun h => h.elim id fun h => absurd h.2.1 (hend h.1)⟩

/-! ## What is to be erased -/

def requested (nand : NandInfo) (opts : EraseOptions) : Nat :=
  (opts.length + nand.erasesize - 1) / nand.erasesize

def goodBefore (nand : NandInfo) (chip : Chip) (opts : EraseOptions) (b : Nat) : Nat :=
  Nat.count (chip.bad · = false) b - Nat.count (chip.bad · = false) (opts.offset / nand.erasesize)

/-- The good blocks of the area, or with `spread` as many good blocks. -/
def Required (nand : NandInfo) (chip : Chip) (opts : EraseOptions) (b : Nat) : Prop :=
  opts.offset / nand.erasesize ≤ b ∧ b < nand.blocks ∧ chip.bad b = false ∧
    if opts.spread then goodBefore nand chip opts b < requested nand opts
    else b < opts.offset / nand.erasesize + requested nand opts

instance (nand : NandInfo) (chip : Chip) (opts : EraseOptions) :
    DecidablePred (Required nand chip opts) :=
  fun _ => inferInstanceAs (Decidable (_ ∧ _))

/-- With `spread`, the device has that many good blocks. -/
def Enough (nand : NandInfo) (chip : Chip) (opts : EraseOptions) : Prop :=
  opts.spread → requested nand opts ≤ goodBefore nand chip opts nand.blocks

/-- No bad block was erased without `scrub`, and 0 is returned only if everything required was
erased. -/
structure Reports (nand : NandInfo) (chip : Chip) (opts : EraseOptions) (ret : Int) (st : Erased) :
    Prop where
  spares_bad : ¬ opts.scrub → ∀ b ∈ st.commanded, chip.bad b = false
  complete : ret = 0 → Enough nand chip opts ∧ ∀ b, Required nand chip opts b → b ∈ st.erased

def NothingFails (nand : NandInfo) (chip : Chip) (eraser : Eraser) (opts : EraseOptions) : Prop :=
  opts.offset % nand.erasesize = 0 → (∀ b, Visited nand chip opts b → Passable nand opts b) →
    Enough nand chip opts ∧
      ∀ b, Required nand chip opts b → Visited nand chip opts b ∧ Erasable nand chip eraser opts b

theorem Required.visited (h : Required nand chip opts b) (hlen : requested nand opts < 2 ^ 32)
    (hscrub : ¬ (opts.scrub ∧ opts.spread)) : Visited nand chip opts b := by
  obtain ⟨hfirst, -, hgood, hwithin⟩ := h
  have hsame : eraseLength nand opts = requested nand opts := u32_of_lt hlen
  refine ⟨hfirst, ?_⟩
  rw [hsame]
  cases hspread : opts.spread with
  | true =>
    have hcounted : Counted chip opts = (chip.bad · = false) := by
      funext x
      simp_all [Counted]
    rw [hspread, if_pos rfl, goodBefore] at hwithin
    simp only [hcounted]
    omega
  | false =>
    have hcounted : Counted chip opts = fun _ => True := by
      funext x
      simp [Counted, hspread]
    rw [hspread] at hwithin
    simp only [hcounted, Nat.count_true]
    simpa using hwithin

theorem mem_target_block (n b length x : Nat) (hn : nand.blocks ≤ b + n) :
    (∃ a ∈ target nand chip (b * nand.erasesize) length, a / nand.erasesize = x) ↔
      b ≤ x ∧ x < nand.blocks ∧ chip.bad x = false ∧
        (Nat.count (chip.bad · = false) x - Nat.count (chip.bad · = false) b) * nand.erasesize <
          length := by
  have hpos := nand.erasesize_pos
  induction n generalizing b length with
  | zero =>
    have hend : nand.size ≤ b * nand.erasesize := Nat.mul_le_mul_right _ hn
    rw [target, goodAddrs_of_size_le hend, List.take_nil]
    refine iff_of_false (by simp) ?_
    omega
  | succ n ih =>
    by_cases hlt : b < nand.blocks
    · have hoffset : b * nand.erasesize < nand.size := (Nat.mul_lt_mul_right hpos).mpr hlt
      have hblock : b * nand.erasesize / nand.erasesize = b := Nat.mul_div_cancel _ hpos
      have hnext : b * nand.erasesize + blockLen nand (b * nand.erasesize) =
          (b + 1) * nand.erasesize := by
        rw [blockLen_mul, Nat.succ_mul]
      have hcount := Nat.count_succ (chip.bad · = false) b
      cases hbad : chip.bad b with
      | true =>
        rw [target_of_bad hoffset (by rwa [hblock]), hnext]
        refine (ih (b + 1) length (by omega)).trans ?_
        have hsame : Nat.count (chip.bad · = false) (b + 1) = Nat.count (chip.bad · = false) b := by
          simpa [hbad] using hcount
        rw [hsame]
        refine and_congr_left fun hx => ⟨Nat.le_of_succ_le, fun hle => ?_⟩
        refine Nat.lt_of_le_of_ne hle ?_
        rintro rfl
        rw [hbad] at hx
        cases hx.2.1
      | false =>
        have hsucc : Nat.count (chip.bad · = false) (b + 1) =
            Nat.count (chip.bad · = false) b + 1 := by
          simpa [hbad] using hcount
        have hcounts {x : Nat} (hx : b + 1 ≤ x) :
            (Nat.count (chip.bad · = false) x - Nat.count (chip.bad · = false) b) * nand.erasesize =
              (Nat.count (chip.bad · = false) x - Nat.count (chip.bad · = false) (b + 1)) *
                nand.erasesize + nand.erasesize := by
          have hmono := Nat.count_monotone (chip.bad · = false) hx
          rw [hsucc] at hmono ⊢
          rw [← Nat.succ_mul]
          congr 1
          omega
        have hrest := ih (b + 1) (length - nand.erasesize) (by omega)
        rw [target_of_good hoffset (by rwa [hblock]), hnext, blockLen_mul]
        constructor
        · rintro ⟨a, ha, rfl⟩
          rcases List.mem_append.mp ha with ha | ha
          · have hrange := List.mem_range'_1.mp ha
            have hhere : a / nand.erasesize = b := by
              rw [← hblock]
              exact div_eq_of_lt_blockLen hrange.1 (by rw [blockLen_mul]; omega)
            rw [hhere, Nat.sub_self, Nat.zero_mul]
            exact ⟨Nat.le_refl b, hlt, hbad, by omega⟩
          · obtain ⟨hle, hin, hgood, hless⟩ := hrest.mp ⟨a, ha, rfl⟩
            refine ⟨Nat.le_of_succ_le hle, hin, hgood, ?_⟩
            rw [hcounts hle]
            omega
        · rintro ⟨hle, hin, hgood, hless⟩
          rcases Nat.eq_or_lt_of_le hle with rfl | hlt'
          · rw [Nat.sub_self, Nat.zero_mul] at hless
            refine ⟨b * nand.erasesize, List.mem_append_left _ ?_, hblock⟩
            exact List.mem_range'_1.mpr ⟨Nat.le_refl _, by omega⟩
          · rw [hcounts hlt'] at hless
            obtain ⟨a, ha, hx⟩ := hrest.mpr ⟨hlt', hin, hgood, by omega⟩
            exact ⟨a, List.mem_append_right _ ha, hx⟩
    · rw [target, goodAddrs_of_size_le (Nat.mul_le_mul_right _ (Nat.not_lt.mp hlt)), List.take_nil]
      refine iff_of_false (by simp) ?_
      omega

theorem required_iff_target (halign : opts.offset % nand.erasesize = 0) (hspread : opts.spread) :
    Required nand chip opts b ↔
      ∃ a ∈ target nand chip opts.offset opts.length, a / nand.erasesize = b := by
  have hoffset : opts.offset / nand.erasesize * nand.erasesize = opts.offset :=
    Nat.div_mul_cancel (Nat.dvd_of_mod_eq_zero halign)
  have hceil (k : Nat) : k < requested nand opts ↔ k * nand.erasesize < opts.length := by
    have hpos := nand.erasesize_pos
    rw [requested, ← Nat.succ_le_iff, Nat.le_div_iff_mul_le hpos, Nat.succ_mul]
    omega
  have htarget := @mem_target_block nand chip nand.blocks (opts.offset / nand.erasesize) opts.length
    b (Nat.le_add_left _ _)
  rw [hoffset] at htarget
  rw [htarget, Required, if_pos hspread, hceil, goodBefore]

/-- The function returns, and it reports just where nothing fails. -/
theorem nandEraseOpts_reports_iff (nand : NandInfo) (chip : Chip) (eraser : Eraser)
    (opts : EraseOptions) (fuel : Nat) (hfuel : nand.blocks + eraseLength nand opts + 2 ≤ fuel) :
    (opts.offset % nand.erasesize = 0 → opts.spread → ∀ b, Required nand chip opts b ↔
      ∃ a ∈ target nand chip opts.offset opts.length, a / nand.erasesize = b) ∧
    ∃ ret st, nandEraseOpts nand chip eraser fuel opts = some (ret, st) ∧
      (Reports nand chip opts ret st ↔ NothingFails nand chip eraser opts) := by
  refine ⟨fun halign hspread b => required_iff_target halign hspread, ?_⟩
  have hmask : opts.offset &&& (nand.erasesize - 1) = opts.offset % nand.erasesize :=
    Nat.and_two_pow_sub_one_eq_mod _ _
  rw [nandEraseOpts, hmask]
  by_cases halign : opts.offset % nand.erasesize = 0
  · rw [if_neg (not_not.mpr halign)]
    have hoffset : opts.offset / nand.erasesize * nand.erasesize = opts.offset :=
      Nat.div_mul_cancel (Nat.dvd_of_mod_eq_zero halign)
    obtain ⟨ret, st, hloop, hdone⟩ := @eraseLoop_spec nand chip eraser opts
      (opts.offset / nand.erasesize) fuel 0 ⟨[], [], []⟩ (Nat.le_refl _) rfl
      ⟨by omega, fun _ => by omega, fun _ => Nat.lt_of_lt_of_le (by omega) (Nat.le_add_right _ _)⟩
    rw [hoffset] at hloop
    refine ⟨ret, st, hloop, ?_⟩
    have hret : ret = 0 ↔ ∀ b, Visited nand chip opts b → Passable nand opts b :=
      hdone.ret_iff.trans ⟨fun h b hb => h b hb.1 hb, fun h b _ => h b⟩
    have herased (h : ret = 0) (b : Nat) :
        b ∈ st.erased ↔ Visited nand chip opts b ∧ Erasable nand chip eraser opts b := by
      rw [hdone.erased h b]
      simp only [List.not_mem_nil, false_or]
      exact ⟨And.right, fun h => ⟨h.1.1, h⟩⟩
    constructor
    · intro h _ hpass
      obtain ⟨henough, hall⟩ := h.complete (hret.mpr hpass)
      exact ⟨henough, fun b hb => (herased (hret.mpr hpass) b).mp (hall b hb)⟩
    · intro h
      refine ⟨fun hscrub b hb => ?_, fun hzero => ?_⟩
      · exact ((hdone.commanded b hb).resolve_left List.not_mem_nil).resolve_left hscrub
      · obtain ⟨henough, hall⟩ := h halign (hret.mp hzero)
        exact ⟨henough, fun b hb => (herased hzero b).mpr (hall b hb)⟩
  · rw [if_pos halign]
    refine ⟨_, _, rfl, iff_of_true ⟨fun _ b hb => ?_, fun h => ?_⟩ fun h => absurd h halign⟩
    · exact absurd hb List.not_mem_nil
    · exact absurd h (by decide)

def smallBlocks : NandInfo := ⟨0, 2, 4, by decide, by decide, by decide⟩

def secondBad : Chip where
  bad b := b == 1
  writeable := true
  writeStatus _ _ := 0
  readStatus _ _ := 0
  spoiled mem _ _ := mem

def eraseTwo : EraseOptions := ⟨8, 0, false, false, true, 0⟩

/-- The blocks 0 and 2 for eight bytes. -/
theorem nandEraseOpts_reports_spread :
    ∃ st, nandEraseOpts smallBlocks secondBad ⟨fun _ => 0, 0, fun _ => 0⟩ 8 eraseTwo = some (0, st) ∧
      Reports smallBlocks secondBad eraseTwo 0 st := by
  obtain ⟨ret, st, hrun, hreports⟩ := (nandEraseOpts_reports_iff smallBlocks secondBad
    ⟨fun _ => 0, 0, fun _ => 0⟩ eraseTwo 8 (by decide +kernel)).2
  have hnothing : NothingFails smallBlocks secondBad ⟨fun _ => 0, 0, fun _ => 0⟩ eraseTwo := by
    refine fun _ _ => ⟨fun _ => by decide +kernel, fun b hb => ⟨?_, ?_⟩⟩
    · exact hb.visited (by decide) (by decide)
    · exact ⟨hb.2.1, rfl, .inr hb.2.2.1, rfl⟩
  have hret : some ret = some (0 : Int) :=
    (congrArg (Option.map Prod.fst) hrun).symm.trans (by decide +kernel)
  cases hret
  exact ⟨st, hrun, hreports.mpr hnothing⟩

/-- The chip refuses to erase the block 1 of the first two, and 0 is returned. -/
theorem nandEraseOpts_ignores_failure :
    let chip : Chip := { secondBad with bad := fun _ => false }
    let eraser : Eraser := ⟨fun b => if b = 1 then -5 else 0, 0, fun _ => 0⟩
    let opts : EraseOptions := ⟨8, 0, false, false, false, 0⟩
    ∃ st, nandEraseOpts smallBlocks chip eraser 8 opts = some (0, st) ∧
      ¬ Reports smallBlocks chip opts 0 st := by
  intro chip eraser opts
  have hrun : (nandEraseOpts smallBlocks chip eraser 8 opts).map
      (fun r => (r.1, r.2.erased)) = some (0, [0]) := by decide +kernel
  obtain ⟨⟨ret, st⟩, hsome, heq⟩ := Option.map_eq_some_iff.mp hrun
  obtain ⟨hret, herased⟩ := Prod.mk.injEq .. ▸ heq
  dsimp only at hret herased
  subst hret
  refine ⟨st, hsome, fun h => ?_⟩
  have hmem := (h.complete rfl).2 1 (by decide +kernel)
  rw [herased] at hmem
  exact absurd hmem (by decide)

end UBoot.Nand
