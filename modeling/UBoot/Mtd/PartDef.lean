import UBoot.Mtd.Mtdparts

/-!
# The texts of partitions without a name

A grammar for the partition definitions that have no name in brackets, with the size and
the offset that each text stands for. `part_parse` accepts just these as partitions that
it names itself, with this size and this offset.
-/

namespace UBoot.Mtdparts.PartDef

open UBoot.Text Option
open List hiding pure_def

/-! ## Grammar -/

inductive Digits (base : Nat) : Nat → List UInt8 → Nat → Prop
  | nil (acc : Nat) : Digits base acc [] acc
  | cons {acc n v : Nat} {c : UInt8} {ds : List UInt8} (digit : xdigit c = some v) (lt : v < base)
      (rest : Digits base (acc * base + v) ds n) : Digits base acc (c :: ds) n

inductive Number : List UInt8 → Nat → Prop
  | hexadecimal {ds : List UInt8} {n : Nat} (ne : ds ≠ []) (digits : Digits 16 0 ds n) :
      Number (0x30 :: 0x78 :: ds) n
  | octal {ds : List UInt8} {n : Nat} (digits : Digits 8 0 ds n) : Number (0x30 :: ds) n
  | decimal {ds : List UInt8} {n : Nat} (first : ds.head? ≠ some 0x30) (digits : Digits 10 0 ds n) :
      Number ds n

inductive SizeUnit : List UInt8 → Nat → Prop
  | byte : SizeUnit [] 1
  | kilo {c : UInt8} (h : c = 'K'.toUInt8 ∨ c = 'k'.toUInt8) : SizeUnit [c] 1024
  | mega {c : UInt8} (h : c = 'M'.toUInt8 ∨ c = 'm'.toUInt8) : SizeUnit [c] 1048576
  | giga {c : UInt8} (h : c = 'G'.toUInt8 ∨ c = 'g'.toUInt8) : SizeUnit [c] 1073741824

inductive Memsize : List UInt8 → UInt64 → Prop
  | intro {ds u : List UInt8} {n unit : Nat} (number : Number ds n) (sizeUnit : SizeUnit u unit) :
      Memsize (ds ++ u) (UInt64.ofNat (n * unit))

inductive SizeText : List UInt8 → UInt64 → Prop
  | remaining : SizeText ['-'.toUInt8] sizeRemaining
  | given {t : List UInt8} {size : UInt64} (h : Memsize t size) (min : minPartSize ≤ size) :
      SizeText t size

inductive OffsetText : List UInt8 → UInt64 → Prop
  | unspecified : OffsetText [] offsetNotSpecified
  | given {t : List UInt8} {offset : UInt64} (h : Memsize t offset) :
      OffsetText ('@'.toUInt8 :: t) offset

inductive FlagText : List UInt8 → Prop
  | none : FlagText []
  | readOnly : FlagText ['r'.toUInt8, 'o'.toUInt8]

inductive EndText (size : UInt64) : List UInt8 → Prop
  | nil : EndText size []
  | device (rest : List UInt8) : EndText size (';'.toUInt8 :: rest)
  | part (rest : List UInt8) (h : size ≠ sizeRemaining) : EndText size (','.toUInt8 :: rest)

inductive Unnamed : List UInt8 → UInt64 → UInt64 → Prop
  | intro {a b c d : List UInt8} {size offset : UInt64} (sizeText : SizeText a size)
      (offsetText : OffsetText b offset) (flagText : FlagText c) (endText : EndText size d) :
      Unnamed (a ++ (b ++ (c ++ d))) size offset

/-! ## Numbers -/

theorem digits_complete (h : Digits base acc ds n) (hrest : EndsNumber rest) :
    digits width base (acc % 2 ^ width) (ds ++ rest) = (n % 2 ^ width, rest) := by
  induction h with
  | nil acc => exact digits_of_endsNumber _ _ _ hrest
  | @cons acc n v c ds digit lt _ ih =>
    have hacc : (acc % 2 ^ width * base + v) % 2 ^ width = (acc * base + v) % 2 ^ width := by
      rw [Nat.add_mod, Nat.mod_mul_mod, ← Nat.add_mod]
    simp only [cons_append, digits, digit, if_pos lt, hacc]
    exact ih

theorem digits_sound (base acc width : Nat) (s : List UInt8) :
    ∃ ds n, s = ds ++ (digits width base (acc % 2 ^ width) s).2 ∧ Digits base acc ds n ∧
      (digits width base (acc % 2 ^ width) s).1 = n % 2 ^ width := by
  induction s generalizing acc with
  | nil => exact ⟨[], acc, rfl, .nil acc, rfl⟩
  | cons c s ih =>
    rw [digits]
    split
    · exact ⟨[], acc, rfl, .nil acc, rfl⟩
    · rename_i v hv
      split
      · rename_i hlt
        have hacc : (acc % 2 ^ width * base + v) % 2 ^ width = (acc * base + v) % 2 ^ width := by
          rw [Nat.add_mod, Nat.mod_mul_mod, ← Nat.add_mod]
        obtain ⟨ds, n, hs, hds, hn⟩ := ih (acc * base + v)
        rw [hacc]
        exact ⟨c :: ds, n, congrArg (c :: ·) hs, .cons hv hlt hds, hn⟩
      · exact ⟨[], acc, rfl, .nil acc, rfl⟩

theorem xdigit_lt (h : xdigit c = some v) : v < 16 := by
  unfold xdigit at h
  simp only [UInt8.le_iff_toNat_le] at h
  split at h
  · cases h
    have : c.toNat ≤ 0x39 := by tauto
    omega
  · split at h
    · cases h
      have : c.toNat ≤ 0x66 := by tauto
      omega
    · split at h
      · cases h
        have : c.toNat ≤ 0x46 := by tauto
        omega
      · cases h

variable (width : Nat)

theorem simpleStrto_hexadecimal (base : Nat) (hc : (xdigit c).isSome) (cp : List UInt8) :
    simpleStrto width base (0x30 :: 0x78 :: c :: cp) = digits width 16 0 (c :: cp) := by
  rw [simpleStrto, if_pos hc]

theorem simpleStrto_octal (hcp : ∀ c rest, cp = 0x78 :: c :: rest → xdigit c = none) :
    simpleStrto width 0 (0x30 :: cp) = digits width 8 0 cp := by
  rw [simpleStrto.eq_def]
  split
  · rename_i c rest heq
    cases heq
    rw [if_neg (by simp [hcp c rest rfl])]
    rfl
  · rename_i heq
    cases heq
    rfl
  · rename_i h
    exact absurd rfl (h cp)

theorem simpleStrto_decimal_digits (hcp : cp.head? ≠ some 0x30) :
    simpleStrto width 0 cp = digits width 10 0 cp := by
  rw [simpleStrto.eq_def]
  split
  · exact absurd rfl hcp
  · exact absurd rfl hcp
  · rfl

theorem Digits.head (h : Digits base acc ds n) : ∀ c ∈ ds.head?, (xdigit c).isSome := by
  cases h with
  | nil => simp
  | cons digit _ _ => simp [digit]

theorem head?_digits_append (h : Digits base acc ds n) (hrest : EndsNumber rest) :
    (ds ++ rest).head? ≠ some 0x78 := by
  cases h with
  | nil => exact fun hx => absurd rfl (hrest _ hx).2
  | cons digit _ _ =>
    rintro ⟨⟩
    have hx : xdigit 0x78 = none := by decide
    rw [hx] at digit
    cases digit

theorem simpleStrto_complete (h : Number ds n) (hrest : EndsNumber rest) :
    simpleStrto width 0 (ds ++ rest) = (n % 2 ^ width, rest) := by
  have hzero : 0 = 0 % 2 ^ width := (Nat.zero_mod _).symm
  cases h with
  | @hexadecimal ds n ne h =>
    obtain ⟨c, ds, rfl⟩ := exists_cons_of_ne_nil ne
    refine (simpleStrto_hexadecimal width 0 (h.head c rfl) (ds ++ rest)).trans ?_
    rw [hzero, ← cons_append, digits_complete h hrest]
  | @octal ds n h =>
    have hcp (c : UInt8) (cp : List UInt8) (heq : ds ++ rest = 0x78 :: c :: cp) :
        xdigit c = none :=
      absurd (congrArg head? heq) (head?_digits_append h hrest)
    rw [cons_append, simpleStrto_octal width hcp, hzero, digits_complete h hrest]
  | decimal first h =>
    rw [simpleStrto_decimal_digits, hzero, digits_complete h hrest]
    cases h with
    | nil => exact fun hx => absurd (hrest _ hx).1 (by decide)
    | cons _ _ _ => exact first

theorem simpleStrto_sound (s : List UInt8) :
    ∃ ds n, s = ds ++ (simpleStrto width 0 s).2 ∧ Number ds n ∧
      (simpleStrto width 0 s).1 = n % 2 ^ width := by
  have hzero : 0 = 0 % 2 ^ width := (Nat.zero_mod _).symm
  by_cases hfirst : s.head? = some 0x30
  · obtain ⟨cp, rfl⟩ : ∃ cp, s = 0x30 :: cp := by
      cases s with
      | nil => cases hfirst
      | cons c cp => cases hfirst; exact ⟨cp, rfl⟩
    by_cases hhex : ∃ c rest, cp = 0x78 :: c :: rest ∧ (xdigit c).isSome
    · obtain ⟨c, rest, rfl, hc⟩ := hhex
      rw [simpleStrto_hexadecimal width 0 hc]
      obtain ⟨v, hv⟩ := isSome_iff_exists.mp hc
      have hstep : digits width 16 0 (c :: rest) = digits width 16 (v % 2 ^ width) rest := by
        simp [digits, hv, xdigit_lt hv]
      obtain ⟨ds, n, hs, hds, hn⟩ := digits_sound 16 v width rest
      rw [hstep]
      refine ⟨0x30 :: 0x78 :: c :: ds, n, ?_, .hexadecimal (cons_ne_nil _ _) ?_, hn⟩
      · exact congrArg (fun t => 0x30 :: 0x78 :: c :: t) hs
      · exact .cons hv (xdigit_lt hv) (by simpa using hds)
    · rw [simpleStrto_octal width fun c rest heq =>
        not_isSome_iff_eq_none.mp fun hc => hhex ⟨c, rest, heq, hc⟩]
      obtain ⟨ds, n, hs, hds, hn⟩ := digits_sound 8 0 width cp
      rw [← hzero] at hs hn
      exact ⟨0x30 :: ds, n, congrArg (0x30 :: ·) hs, .octal hds, hn⟩
  · rw [simpleStrto_decimal_digits width hfirst]
    obtain ⟨ds, n, hs, hds, hn⟩ := digits_sound 10 0 width s
    rw [← hzero] at hs hn
    refine ⟨ds, n, hs, .decimal (fun hx => hfirst ?_) hds, hn⟩
    rw [hs, head?_append, hx]
    rfl

/-! ## Sizes -/

variable (n : Nat)

theorem ofNat_shiftLeft_ten : UInt64.ofNat n <<< 10 = UInt64.ofNat (n * 1024) := by
  apply UInt64.toNat.inj
  simp [UInt64.toNat_shiftLeft, Nat.shiftLeft_eq]

def EndsSize (rest : List UInt8) : Prop :=
  ∀ c ∈ rest.head?, c = '@'.toUInt8 ∨ c = 'r'.toUInt8 ∨ c = ';'.toUInt8 ∨ c = ','.toUInt8

theorem EndsSize.endsNumber (h : EndsSize rest) : EndsNumber rest := by
  intro c hc
  rcases h c hc with rfl | rfl | rfl | rfl <;> decide

/-- What the `switch` makes of the number and of the text behind it. -/
def applyUnit (ret : UInt64) (p : List UInt8) : UInt64 × List UInt8 :=
  match p with
  | [] => (ret, [])
  | c :: rest =>
    if c = 'G'.toUInt8 ∨ c = 'g'.toUInt8 then (ret <<< 10 <<< 10 <<< 10, rest)
    else if c = 'M'.toUInt8 ∨ c = 'm'.toUInt8 then (ret <<< 10 <<< 10, rest)
    else if c = 'K'.toUInt8 ∨ c = 'k'.toUInt8 then (ret <<< 10, rest)
    else (ret, c :: rest)

theorem memsizeParse_eq (s : List UInt8) :
    memsizeParse s =
      applyUnit (UInt64.ofNat (simpleStrtoull 0 s).1) (simpleStrtoull 0 s).2 := by
  unfold memsizeParse applyUnit
  rfl

theorem applyUnit_complete (h : SizeUnit u unit) (hrest : EndsSize rest) :
    applyUnit (UInt64.ofNat n) (u ++ rest) = (UInt64.ofNat (n * unit), rest) := by
  have hmul (a b : Nat) (c : Nat) (habc : a * b = c) : n * a * b = n * c := by
    rw [Nat.mul_assoc, habc]
  cases h with
  | byte =>
    rw [Nat.mul_one, nil_append]
    cases rest with
    | nil => rfl
    | cons c rest =>
      have hc : ¬(c = 'G'.toUInt8 ∨ c = 'g'.toUInt8) ∧ ¬(c = 'M'.toUInt8 ∨ c = 'm'.toUInt8) ∧
          ¬(c = 'K'.toUInt8 ∨ c = 'k'.toUInt8) := by
        rcases hrest c rfl with rfl | rfl | rfl | rfl <;> decide
      simp only [applyUnit, if_neg hc.1, if_neg hc.2.1, if_neg hc.2.2]
  | @kilo c h =>
    have hc : ¬(c = 'G'.toUInt8 ∨ c = 'g'.toUInt8) ∧ ¬(c = 'M'.toUInt8 ∨ c = 'm'.toUInt8) := by
      rcases h with rfl | rfl <;> decide
    simp only [applyUnit, singleton_append, if_neg hc.1, if_neg hc.2, if_pos h,
      ofNat_shiftLeft_ten]
  | @mega c h =>
    have hc : ¬(c = 'G'.toUInt8 ∨ c = 'g'.toUInt8) := by
      rcases h with rfl | rfl <;> decide
    simp only [applyUnit, singleton_append, if_neg hc, if_pos h, ofNat_shiftLeft_ten,
      hmul 1024 1024 1048576 (by decide)]
  | giga h =>
    simp only [applyUnit, singleton_append, if_pos h, ofNat_shiftLeft_ten,
      hmul 1024 1024 1048576 (by decide), hmul 1048576 1024 1073741824 (by decide)]

theorem applyUnit_sound (s : List UInt8) :
    ∃ u unit, s = u ++ (applyUnit (UInt64.ofNat n) s).2 ∧ SizeUnit u unit ∧
      (applyUnit (UInt64.ofNat n) s).1 = UInt64.ofNat (n * unit) := by
  have hmul (a b : Nat) (c : Nat) (habc : a * b = c) : n * a * b = n * c := by
    rw [Nat.mul_assoc, habc]
  cases s with
  | nil => exact ⟨[], 1, rfl, .byte, by rw [Nat.mul_one]; rfl⟩
  | cons c rest =>
    rw [applyUnit]
    split
    · rename_i hc
      refine ⟨[c], _, rfl, .giga hc, ?_⟩
      simp only [ofNat_shiftLeft_ten, hmul 1024 1024 1048576 (by decide),
        hmul 1048576 1024 1073741824 (by decide)]
    · split
      · rename_i hc
        refine ⟨[c], _, rfl, .mega hc, ?_⟩
        simp only [ofNat_shiftLeft_ten, hmul 1024 1024 1048576 (by decide)]
      · split
        · rename_i hc
          exact ⟨[c], _, rfl, .kilo hc, ofNat_shiftLeft_ten n⟩
        · exact ⟨[], 1, rfl, .byte, by rw [Nat.mul_one]⟩

theorem SizeUnit.endsNumber_append (h : SizeUnit u unit) (hrest : EndsSize rest) :
    EndsNumber (u ++ rest) := by
  cases h with
  | byte => exact hrest.endsNumber
  | kilo h | mega h | giga h =>
    rintro _ ⟨⟩
    rcases h with rfl | rfl <;> decide

theorem ofNat_mod : UInt64.ofNat (n % 2 ^ 64) = UInt64.ofNat n := by
  apply UInt64.toNat.inj
  simp

variable {size : UInt64}

theorem memsizeParse_complete (h : Memsize t size) (hrest : EndsSize rest) :
    memsizeParse (t ++ rest) = (size, rest) := by
  obtain ⟨hnumber, hunit⟩ := h
  rw [memsizeParse_eq, append_assoc, simpleStrtoull,
    simpleStrto_complete 64 hnumber (hunit.endsNumber_append hrest), ofNat_mod]
  exact applyUnit_complete _ hunit hrest

theorem memsizeParse_sound (s : List UInt8) :
    ∃ t, s = t ++ (memsizeParse s).2 ∧ Memsize t (memsizeParse s).1 := by
  obtain ⟨ds, n, hs, hnumber, hn⟩ := simpleStrto_sound 64 s
  obtain ⟨u, unit, hu, hunit, hsize⟩ := applyUnit_sound n (simpleStrto 64 0 s).2
  rw [memsizeParse_eq, simpleStrtoull, hn, ofNat_mod, hsize]
  refine ⟨ds ++ u, ?_, .intro hnumber hunit⟩
  rw [append_assoc, ← hu]
  exact hs

/-! ## Definitions -/

theorem memsizeParse_minus (p : List UInt8) : memsizeParse (0x2d :: p) = (0, 0x2d :: p) := rfl

theorem partSize_of_memsize (h : memsizeParse p = (size, rest))
    (hmin : minPartSize ≤ size) : partSize p = some (size, rest) := by
  unfold partSize
  split
  · rw [memsizeParse_minus] at h
    cases h
    exact absurd hmin (by decide)
  · rw [h]
    exact if_neg (UInt64.not_lt.mpr hmin)

theorem partSize_complete (h : SizeText a size) (hrest : EndsSize rest) :
    partSize (a ++ rest) = some (size, rest) := by
  cases h with
  | remaining => rfl
  | given h hmin => exact partSize_of_memsize (memsizeParse_complete h hrest) hmin

theorem partSize_sound (h : partSize s = some (size, p)) :
    ∃ a, s = a ++ p ∧ SizeText a size := by
  unfold partSize at h
  split at h
  · cases h
    exact ⟨[0x2d], rfl, .remaining⟩
  · dsimp only at h
    split at h
    · cases h
    · rename_i hmin
      obtain ⟨t, hs, ht⟩ := memsizeParse_sound s
      cases h
      exact ⟨t, hs, .given ht (UInt64.not_lt.mp hmin)⟩

def EndsOffset (rest : List UInt8) : Prop :=
  ∀ c ∈ rest.head?, c = 'r'.toUInt8 ∨ c = ';'.toUInt8 ∨ c = ','.toUInt8

theorem OffsetText.endsSize_append (h : OffsetText b offset)
    (hrest : EndsOffset rest) : EndsSize (b ++ rest) := by
  cases h with
  | unspecified => exact fun c hc => .inr (hrest c hc)
  | given h =>
    rintro _ ⟨⟩
    exact .inl rfl

theorem partOffset_complete (h : OffsetText b offset) (hrest : EndsOffset rest) :
    partOffset (b ++ rest) = (offset, rest) := by
  cases h with
  | unspecified =>
    unfold partOffset
    split
    · rename_i p heq
      rw [nil_append] at heq
      rw [heq] at hrest
      exact absurd (hrest _ rfl) (by decide)
    · rfl
  | given h => exact memsizeParse_complete h fun c hc => .inr (hrest c hc)

theorem partOffset_sound (p : List UInt8) :
    ∃ b, p = b ++ (partOffset p).2 ∧ OffsetText b (partOffset p).1 := by
  unfold partOffset
  split
  · rename_i p
    obtain ⟨t, hs, ht⟩ := memsizeParse_sound p
    exact ⟨0x40 :: t, congrArg (0x40 :: ·) hs, .given ht⟩
  · exact ⟨[], rfl, .unspecified⟩

theorem FlagText.endsOffset_append (hc : FlagText c) (hd : EndText size d) :
    EndsOffset (c ++ d) := by
  cases hc with
  | readOnly =>
    rintro _ ⟨⟩
    exact .inl rfl
  | none =>
    cases hd with
    | nil => exact fun c hc => nomatch hc
    | device rest =>
      rintro _ ⟨⟩
      exact .inr (.inl rfl)
    | part rest h =>
      rintro _ ⟨⟩
      exact .inr (.inr rfl)

theorem partName_of_endsOffset (h : EndsOffset p) : partName p = some (none, p) := by
  unfold partName
  split
  · exact absurd (h _ rfl) (by decide)
  · rfl

theorem partName_none (h : partName p = some (none, p')) : p' = p := by
  unfold partName at h
  split at h
  · split at h
    · cases h
    · split at h <;> cases h
  · cases h
    rfl

theorem partOptions_complete (hc : FlagText c) (hd : EndText size d) :
    (partOptions (c ++ d)).2 = d := by
  cases hc with
  | readOnly => rfl
  | none =>
    unfold partOptions
    cases hd <;> rfl

theorem partOptions_sound (p : List UInt8) : ∃ c, p = c ++ (partOptions p).2 ∧ FlagText c := by
  unfold partOptions
  split
  · exact ⟨_, rfl, .readOnly⟩
  · exact ⟨[], rfl, .none⟩

theorem partEnd_isSome_iff (size : UInt64) (p : List UInt8) :
    (partEnd size p).isSome ↔ EndText size p := by
  constructor
  · intro h
    unfold partEnd at h
    split at h
    · exact .nil
    · split at h
      · cases h
      · rename_i hne
        exact .part _ hne
    · exact .device _
    · cases h
  · intro h
    cases h with
    | nil => rfl
    | device rest => rfl
    | part rest h =>
      have hnext : partEnd size (','.toUInt8 :: rest) = some rest := if_neg h
      rw [hnext]
      rfl

theorem partParse_autoName_iff (s : List UInt8) (size offset : UInt64) :
    (∃ part rest, partParse s = some (part, rest) ∧ part.autoName = true ∧ part.size = size ∧
      part.offset = offset) ↔ Unnamed s size offset := by
  constructor
  · rintro ⟨part, rest, hparse, hauto, rfl, rfl⟩
    unfold partParse at hparse
    simp only [bind_eq_bind, bind_eq_some_iff, pure_def, some.injEq,
      Prod.mk.injEq, Prod.exists] at hparse
    obtain ⟨size, p₁, hsize, name, p₂, hname, p₃, hend, rfl, rfl⟩ := hparse
    obtain rfl : name = none := by simpa using hauto
    obtain rfl := partName_none hname
    obtain ⟨a, rfl, ha⟩ := partSize_sound hsize
    obtain ⟨b, hb, hoffset⟩ := partOffset_sound p₁
    obtain ⟨c, hc, hflag⟩ := partOptions_sound (partOffset p₁).2
    have hendText := (partEnd_isSome_iff size _).mp (isSome_of_mem hend)
    have hs : p₁ = b ++ (c ++ (partOptions (partOffset p₁).2).2) := by rw [← hc, ← hb]
    nth_rewrite 1 [hs]
    exact .intro ha hoffset hflag hendText
  · rintro ⟨ha, hb, hc, hd⟩
    have hrest := hc.endsOffset_append hd
    obtain ⟨p, hp⟩ := isSome_iff_exists.mp ((partEnd_isSome_iff size _).mpr hd)
    unfold partParse
    rw [partSize_complete ha (hb.endsSize_append hrest)]
    simp only [bind_eq_bind, bind_some, partOffset_complete hb hrest,
      partName_of_endsOffset hrest, partOptions_complete hc hd, hp]
    exact ⟨_, _, rfl, rfl, rfl, rfl⟩

end UBoot.Mtdparts.PartDef
