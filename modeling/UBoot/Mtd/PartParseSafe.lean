import UBoot.Lib.Checked
import UBoot.Lib.CString
import UBoot.Mtd.PartDef

/-!
# The memory of `part_parse`

`part_parse` once more, with each byte that it reads of the text and each byte that it
writes to the name of the new partition checked. It reads nothing behind the zero. The
name in form of size and offset has 22 bytes, which are enough just for numbers below
4 GiB, and an offset that is not specified is none of them.
-/

namespace UBoot.Mtdparts.PartDef

open UBoot.Text Checked CString Option
open List hiding map_map pure_def

inductive Fault where
  | input | name | endless
  deriving DecidableEq

/-! ## Reading -/

variable (s : CString.Text)

def digitsAt (base : Nat) : Nat → Nat → Nat → Except Fault (Nat × Nat)
  | 0, _, _ => .error .endless
  | fuel + 1, result, cp => do
    let c ← read .input s cp
    match xdigit c with
    | none => .ok (result, cp)
    | some value =>
      if value < base then digitsAt base fuel ((result * base + value) % 2 ^ 64) (cp + 1)
      else .ok (result, cp)

def baseAt (cp : Nat) : Except Fault (Nat × Nat) := do
  let c ← read .input s cp
  if c = 0x30 then do
    let c ← read .input s (cp + 1)
    if c = 0x78 then do
      let c ← read .input s (cp + 1 + 1)
      .ok (if (xdigit c).isSome then (16, cp + 1 + 1) else (8, cp + 1))
    else .ok (8, cp + 1)
  else .ok (10, cp)

def simpleStrtoullAt (cp : Nat) : Except Fault (Nat × Nat) := do
  let (base, cp) ← baseAt s cp
  digitsAt s base (s.bytes.length + 1) 0 cp

def memsizeParseAt (ptr : Nat) : Except Fault (UInt64 × Nat) := do
  let (n, p) ← simpleStrtoullAt s ptr
  let ret := UInt64.ofNat n
  let c ← read .input s p
  .ok (if c = 'G'.toUInt8 ∨ c = 'g'.toUInt8 then (ret <<< 10 <<< 10 <<< 10, p + 1)
    else if c = 'M'.toUInt8 ∨ c = 'm'.toUInt8 then (ret <<< 10 <<< 10, p + 1)
    else if c = 'K'.toUInt8 ∨ c = 'k'.toUInt8 then (ret <<< 10, p + 1)
    else (ret, p))

def partSizeAt (p : Nat) : Except Fault (Option (UInt64 × Nat)) := do
  let c ← read .input s p
  if c = 0x2d then .ok (some (sizeRemaining, p + 1))
  else do
    let (size, p) ← memsizeParseAt s p
    .ok (if size < minPartSize then none else some (size, p))

def partOffsetAt (p : Nat) : Except Fault (UInt64 × Nat) := do
  let c ← read .input s p
  if c = 0x40 then memsizeParseAt s (p + 1) else .ok (offsetNotSpecified, p)

def strchrAt (c : UInt8) : Nat → Nat → Except Fault (Option Nat)
  | 0, _ => .error .endless
  | fuel + 1, p => do
    let b ← read .input s p
    if b = c then .ok (some p)
    else if b = 0 then .ok none
    else strchrAt c fuel (p + 1)

/-- Where the name begins, if there is one, with `name_len` and the place behind it. -/
def partNameAt (p : Nat) : Except Fault (Option (Option Nat × Nat × Nat)) := do
  let c ← read .input s p
  if c = 0x28 then do
    let close ← strchrAt s 0x29 (s.bytes.length + 1) (p + 1)
    .ok (close.bind fun close =>
      if close - (p + 1) = 0 then none
      else some (some (p + 1), close - (p + 1) + 1, close + 1))
  else .ok (some (none, 22, p))

def strncmpAt : Nat → List UInt8 → Except Fault Bool
  | _, [] => .ok true
  | p, t :: ct => do
    let c ← read .input s p
    if c ≠ t then .ok false
    else if c = 0 then .ok true
    else strncmpAt (p + 1) ct

def partOptionsAt (p : Nat) : Except Fault (UInt32 × Nat) := do
  let ro ← strncmpAt s p ['r'.toUInt8, 'o'.toUInt8]
  .ok (if ro then (1, p + 2) else (0, p))

def partEndAt (size : UInt64) (p : Nat) : Except Fault (Option Nat) := do
  let c ← read .input s p
  .ok (if c = 0x2c then (if size = sizeRemaining then none else some (p + 1))
    else if c = 0x3b ∨ c = 0 then some p
    else none)

/-! ## Writing -/

def writeAt (i : Nat) (c : UInt8) (area : List UInt8) : Except Fault (List UInt8) :=
  if i < area.length then .ok (area.set i c) else .error .name

def strncpyInto : Nat → Nat → Nat → List UInt8 → Except Fault (List UInt8)
  | 0, _, _, area => .ok area
  | count + 1, dest, src, area => do
    let c ← read .input s src
    let area ← writeAt dest c area
    if c = 0 then .ok area else strncpyInto count (dest + 1) (src + 1) area

def sprintfInto : Nat → List UInt8 → List UInt8 → Except Fault (List UInt8)
  | dest, [], area => writeAt dest 0 area
  | dest, c :: text, area => do
    let area ← writeAt dest c area
    sprintfInto (dest + 1) text area

def sizeAtOffset (size offset : UInt64) : List UInt8 :=
  ['0'.toUInt8, 'x'.toUInt8] ++ hex08 size ++ ['@'.toUInt8, '0'.toUInt8, 'x'.toUInt8] ++
    hex08 offset

/-- The memory of the name, which begins as `nameLen` zeros. -/
def nameInto (size offset : UInt64) (name : Option Nat) (nameLen : Nat) :
    Except Fault (List UInt8) := do
  let area := List.replicate nameLen 0
  let area ← match name with
    | some src => strncpyInto s (nameLen - 1) 0 src area
    | none => sprintfInto 0 (sizeAtOffset size offset) area
  writeAt (nameLen - 1) 0 area

/-- `part_parse`; the name of the partition is all the memory of it. -/
def partParseInto : Except Fault (Option (PartInfo × Nat)) := do
  let some (size, p) ← partSizeAt s 0 | .ok none
  let (offset, p) ← partOffsetAt s p
  let some (name, nameLen, p) ← partNameAt s p | .ok none
  let (maskFlags, p) ← partOptionsAt s p
  let some ret ← partEndAt s size p | .ok none
  let area ← nameInto s size offset name nameLen
  .ok (some ({
    name := area
    autoName := name.isNone
    size, offset, maskFlags
    sectorSize := 0 }, ret))

/-! ## What is read -/

variable {s} {p : List UInt8}

theorem digitsAt_eq (base : Nat) (h : p <:+ s.bytes) (hfuel : p.length < fuel) :
    digitsAt s base fuel result (pos s p) =
      .ok ((digits 64 base result p).1, pos s (digits 64 base result p).2) := by
  induction fuel generalizing p result with
  | zero => omega
  | succ fuel ih =>
    rw [digitsAt, read_pos _ h, ok_bind]
    cases p with
    | nil => rfl
    | cons c p =>
      rw [headD_cons, digits]
      cases xdigit c with
      | none => rfl
      | some value =>
        dsimp only
        split
        · rw [pos_cons h]
          exact ih (tail_suffix h) (by simpa using hfuel)
        · rfl

theorem headD_eq_iff (hc : c ≠ 0) : p.headD 0 = c ↔ ∃ rest, p = c :: rest := by
  cases p with
  | nil => simp [hc.symm]
  | cons b rest => simp

theorem simpleStrtoullAt_eq (h : p <:+ s.bytes) :
    simpleStrtoullAt s (pos s p) =
      .ok ((simpleStrtoull 0 p).1, pos s (simpleStrtoull 0 p).2) := by
  have hdigits (base : Nat) {cp : List UInt8} (hcp : cp <:+ s.bytes) :
      digitsAt s base (s.bytes.length + 1) 0 (pos s cp) =
        .ok ((digits 64 base 0 cp).1, pos s (digits 64 base 0 cp).2) :=
    digitsAt_eq base hcp (Nat.lt_succ_of_le hcp.length_le)
  rw [simpleStrtoullAt, baseAt, read_pos _ h, ok_bind, simpleStrtoull]
  by_cases hzero : p.headD 0 = 0x30
  · obtain ⟨cp, rfl⟩ := (headD_eq_iff (by decide)).mp hzero
    have hcp := tail_suffix h
    rw [if_pos hzero, pos_cons h, read_pos _ hcp, ok_bind]
    by_cases hx : cp.headD 0 = 0x78
    · obtain ⟨rest, rfl⟩ := (headD_eq_iff (by decide)).mp hx
      have hrest := tail_suffix hcp
      rw [if_pos hx, pos_cons hcp, read_pos _ hrest, ok_bind]
      cases rest with
      | nil =>
        rw [simpleStrto_octal 64 (by rintro _ _ ⟨⟩)]
        exact hdigits 8 hcp
      | cons c rest =>
        by_cases hc : (xdigit c).isSome
        · rw [simpleStrto_hexadecimal 64 0 hc, headD_cons, if_pos hc]
          exact hdigits 16 hrest
        · have hnone : xdigit c = none := not_isSome_iff_eq_none.mp hc
          rw [simpleStrto_octal 64 (by rintro _ _ ⟨⟩; exact hnone), headD_cons, if_neg hc]
          exact hdigits 8 hcp
    · rw [if_neg hx, simpleStrto_octal 64 (by rintro c rest rfl; exact absurd rfl hx)]
      exact hdigits 8 hcp
  · have hfirst : p.head? ≠ some 0x30 := by
      intro hfirst
      rw [headD_eq_head?_getD, hfirst] at hzero
      exact hzero rfl
    rw [if_neg hzero, simpleStrto_decimal_digits 64 hfirst]
    exact hdigits 10 h

theorem memsizeParseAt_eq (h : p <:+ s.bytes) :
    memsizeParseAt s (pos s p) = .ok ((memsizeParse p).1, pos s (memsizeParse p).2) := by
  obtain ⟨ds, n, hp, -, -⟩ := simpleStrto_sound 64 p
  have hrest : (simpleStrtoull 0 p).2 <:+ s.bytes := List.IsSuffix.trans ⟨ds, hp.symm⟩ h
  rw [memsizeParseAt, simpleStrtoullAt_eq h, ok_bind]
  dsimp only
  rw [read_pos _ hrest, ok_bind, memsizeParse_eq]
  generalize (simpleStrtoull 0 p).2 = rest at hrest
  cases rest with
  | nil => rfl
  | cons c rest =>
    rw [headD_cons, pos_cons hrest, applyUnit]
    split
    · rfl
    · split
      · rfl
      · split <;> rfl

theorem partSizeAt_eq (h : p <:+ s.bytes) :
    partSizeAt s (pos s p) = .ok ((partSize p).map fun r => (r.1, pos s r.2)) := by
  rw [partSizeAt, read_pos _ h, ok_bind]
  by_cases hminus : p.headD 0 = 0x2d
  · obtain ⟨rest, rfl⟩ := (headD_eq_iff (by decide)).mp hminus
    rw [if_pos hminus, pos_cons h]
    rfl
  · have hsize : partSize p =
        if (memsizeParse p).1 < minPartSize then none
        else some ((memsizeParse p).1, (memsizeParse p).2) := by
      unfold partSize
      split
      · exact absurd rfl hminus
      · rfl
    rw [if_neg hminus, memsizeParseAt_eq h, ok_bind, hsize]
    dsimp only
    split <;> rfl

theorem partOffsetAt_eq (h : p <:+ s.bytes) :
    partOffsetAt s (pos s p) = .ok ((partOffset p).1, pos s (partOffset p).2) := by
  rw [partOffsetAt, read_pos _ h, ok_bind]
  by_cases hat : p.headD 0 = 0x40
  · obtain ⟨rest, rfl⟩ := (headD_eq_iff (by decide)).mp hat
    rw [if_pos hat, pos_cons h]
    exact memsizeParseAt_eq (tail_suffix h)
  · rw [if_neg hat]
    unfold partOffset
    split
    · exact absurd rfl hat
    · rfl

theorem strchrAt_eq (hc : c ≠ 0) (h : p <:+ s.bytes) (hfuel : p.length < fuel) :
    strchrAt s c fuel (pos s p) =
      .ok ((strchr c p).map fun r => pos s (c :: r.2)) := by
  induction fuel generalizing p with
  | zero => omega
  | succ fuel ih =>
    rw [strchrAt, read_pos _ h, ok_bind]
    cases p with
    | nil => simp [hc.symm, strchr]
    | cons b p =>
      rw [headD_cons, strchr]
      by_cases hb : b = c
      · subst hb
        simp
      · rw [if_neg hb, if_neg (ne_zero_of_suffix h), pos_cons h, if_neg hb,
          ih (tail_suffix h) (by simpa using hfuel), map_map]
        rfl

theorem strchr_sound (h : strchr c p = some (name, rest)) : p = name ++ c :: rest := by
  induction p generalizing name rest with
  | nil => cases h
  | cons b p ih =>
    rw [strchr] at h
    split at h
    · rename_i hb
      cases h
      rw [hb, nil_append]
    · obtain ⟨⟨name', rest'⟩, hrest, heq⟩ := map_eq_some_iff.mp h
      cases heq
      rw [ih hrest, cons_append]

theorem partNameAt_eq (h : p <:+ s.bytes) :
    partNameAt s (pos s p) = .ok ((partName p).map fun r =>
      (r.1.map fun name => pos s (name ++ 0x29 :: r.2),
        r.1.elim 22 (fun name => name.length + 1), pos s r.2)) := by
  rw [partNameAt, read_pos _ h, ok_bind]
  by_cases hopen : p.headD 0 = 0x28
  · obtain ⟨p, rfl⟩ := (headD_eq_iff (by decide)).mp hopen
    have hp := tail_suffix h
    rw [if_pos hopen, pos_cons h, strchrAt_eq (by decide) hp (Nat.lt_succ_of_le hp.length_le),
      ok_bind, partName]
    cases hname : strchr 0x29 p with
    | none => rfl
    | some r =>
      obtain ⟨name, rest⟩ := r
      obtain rfl := strchr_sound hname
      have hlen : pos s (0x29 :: rest) - pos s (name ++ 0x29 :: rest) = name.length := by
        rw [← pos_append hp]
        omega
      have hclose : pos s (0x29 :: rest) + 1 = pos s rest :=
        pos_cons ((suffix_append name _).trans hp)
      simp only [map_some, bind_some, hlen, hclose, length_eq_zero_iff]
      split <;> rfl
  · rw [if_neg hopen]
    unfold partName
    split
    · exact absurd rfl hopen
    · rfl

theorem partName_some (h : partName p = some (some name, rest)) :
    p = 0x28 :: (name ++ 0x29 :: rest) := by
  unfold partName at h
  split at h
  · rename_i p
    cases hname : strchr 0x29 p with
    | none =>
      rw [hname] at h
      cases h
    | some r =>
      rw [hname] at h
      dsimp only at h
      split at h
      · cases h
      · cases h
        rw [strchr_sound hname]
  · cases h

theorem partName_suffix (h : partName p = some (name, rest)) : rest <:+ p := by
  cases name with
  | none => exact partName_none h ▸ suffix_refl p
  | some name => exact ⟨0x28 :: (name ++ [0x29]), by simp [partName_some h]⟩

theorem partOptions_of_ne (h : ∀ rest, p ≠ 0x72 :: 0x6f :: rest) : partOptions p = (0, p) := by
  unfold partOptions
  split
  · exact absurd rfl (h _)
  · rfl

theorem partOptionsAt_eq (h : p <:+ s.bytes) :
    partOptionsAt s (pos s p) = .ok ((partOptions p).1, pos s (partOptions p).2) := by
  rw [partOptionsAt, strncmpAt, read_pos _ h, ok_bind]
  by_cases hr : p.headD 0 = 'r'.toUInt8
  · obtain ⟨p, rfl⟩ := (headD_eq_iff (by decide)).mp hr
    have hp := tail_suffix h
    rw [if_neg (not_not.mpr hr), headD_cons, if_neg (ne_zero_of_suffix h), pos_cons h,
      strncmpAt, read_pos _ hp, ok_bind]
    by_cases ho : p.headD 0 = 'o'.toUInt8
    · obtain ⟨p, rfl⟩ := (headD_eq_iff (by decide)).mp ho
      rw [if_neg (not_not.mpr ho), headD_cons, if_neg (ne_zero_of_suffix hp), strncmpAt,
        ok_bind, if_pos rfl,
        ← Nat.add_assoc (pos s _) 1 1, pos_cons h, pos_cons hp]
      rfl
    · rw [if_pos ho, ok_bind, partOptions_of_ne (by rintro rest ⟨⟩; exact ho rfl)]
      rfl
  · rw [if_pos hr, ok_bind, partOptions_of_ne (by rintro rest rfl; exact hr rfl)]
    rfl

theorem partEndAt_eq (size : UInt64) (h : p <:+ s.bytes) :
    partEndAt s size (pos s p) = .ok ((partEnd size p).map (pos s)) := by
  rw [partEndAt, read_pos _ h, ok_bind]
  cases p with
  | nil => rfl
  | cons c p =>
    rw [headD_cons]
    by_cases hcomma : c = 0x2c
    · subst hcomma
      rw [if_pos rfl, pos_cons h]
      unfold partEnd
      split <;> rfl
    · rw [if_neg hcomma]
      by_cases hsemi : c = 0x3b
      · subst hsemi
        rfl
      · have hc : ¬(c = 0x3b ∨ c = 0) := not_or.mpr ⟨hsemi, ne_zero_of_suffix h⟩
        rw [if_neg hc]
        unfold partEnd
        split
        · cases ‹c :: p = []›
        · rename_i heq
          exact absurd (cons.inj heq).1 hcomma
        · rename_i heq
          exact absurd (cons.inj heq).1 hsemi
        · rfl

/-! ## What is written -/

theorem writeAt_length (c : UInt8) (done rest : List UInt8) :
    writeAt done.length c (done ++ 0 :: rest) = .ok (done ++ c :: rest) := by
  rw [writeAt, if_pos (by simp), set_append_right _ _ (Nat.le_refl _), Nat.sub_self,
    set_cons_zero]

theorem strncpyInto_eq (done : List UInt8) (h : name ++ rest <:+ s.bytes) :
    strncpyInto s name.length done.length (pos s (name ++ rest))
      (done ++ List.replicate (name.length + 1) 0) = .ok (done ++ name ++ [0]) := by
  induction name generalizing done with
  | nil => simp [strncpyInto]
  | cons c name ih =>
    rw [cons_append] at h
    have hc := ne_zero_of_suffix h
    rw [cons_append, length_cons, strncpyInto, read_pos _ h, ok_bind, headD_cons,
      replicate_succ, writeAt_length, ok_bind, if_neg hc]
    have hdone : (done ++ [c]).length = done.length + 1 := by simp
    rw [← hdone, pos_cons h]
    refine (congrArg _ ?_).trans ((ih (done ++ [c]) (tail_suffix h)).trans ?_) <;> simp

theorem sprintfInto_eq (done text : List UInt8) (room : Nat) :
    sprintfInto done.length text (done ++ List.replicate room 0) =
      if text.length < room then .ok (done ++ text ++ List.replicate (room - text.length) 0)
      else .error .name := by
  induction text generalizing done room with
  | nil =>
    rw [sprintfInto]
    cases room with
    | zero => simp [writeAt]
    | succ room =>
      rw [replicate_succ, writeAt_length]
      simp [replicate_succ]
  | cons c text ih =>
    rw [sprintfInto]
    cases room with
    | zero => simp [writeAt, bind, Except.bind]
    | succ room =>
      rw [replicate_succ, writeAt_length, ok_bind]
      have hdone : (done ++ [c]).length = done.length + 1 := by simp
      rw [← hdone]
      have hcons : done ++ c :: replicate room 0 = done ++ [c] ++ replicate room 0 := by
        simp
      rw [hcons, ih]
      simp

theorem hex08_length (n : UInt64) :
    8 ≤ (hex08 n).length ∧ ((hex08 n).length = 8 ↔ n.toNat < 2 ^ 32) := by
  have hdigits := Nat.length_toDigits_le_iff (by decide : 1 < 16) (by decide : 0 < 8) (n := n.toNat)
  simp only [hex08, length_append, length_replicate, length_map]
  omega

theorem sizeAtOffset_length (size offset : UInt64) :
    21 ≤ (sizeAtOffset size offset).length ∧ ((sizeAtOffset size offset).length = 21 ↔
      size.toNat < 2 ^ 32 ∧ offset.toNat < 2 ^ 32) := by
  have hsize := hex08_length size
  have hoffset := hex08_length offset
  simp only [sizeAtOffset, length_append, length_cons, length_nil]
  omega

theorem nameInto_some (size offset : UInt64) (h : name ++ rest <:+ s.bytes) :
    nameInto s size offset (some (pos s (name ++ rest))) (name.length + 1) =
      .ok (name ++ [0]) := by
  have hcopy := strncpyInto_eq [] h
  rw [length_nil, nil_append, nil_append] at hcopy
  rw [nameInto, Nat.add_sub_cancel]
  dsimp only
  rw [hcopy, ok_bind]
  exact writeAt_length 0 name []

theorem nameInto_none (s : CString.Text) (size offset : UInt64) :
    nameInto s size offset none 22 =
      if size.toNat < 2 ^ 32 ∧ offset.toNat < 2 ^ 32 then .ok (generatedName size offset ++ [0])
      else .error .name := by
  obtain ⟨hmin, hlen⟩ := sizeAtOffset_length size offset
  have hprint := sprintfInto_eq [] (sizeAtOffset size offset) 22
  rw [length_nil, nil_append] at hprint
  rw [nameInto]
  dsimp only
  rw [hprint]
  by_cases hsmall : size.toNat < 2 ^ 32 ∧ offset.toNat < 2 ^ 32
  · have heq := hlen.mpr hsmall
    have hname : generatedName size offset = sizeAtOffset size offset :=
      take_of_length_le (Nat.le_of_eq heq)
    rw [if_pos hsmall, hname, heq, if_pos (by decide), ok_bind, nil_append]
    have hwrite := writeAt_length 0 (sizeAtOffset size offset) []
    rw [heq] at hwrite
    exact hwrite
  · have hlong : ¬(sizeAtOffset size offset).length < 22 :=
      fun hlt => hsmall (hlen.mp (by omega))
    rw [if_neg hsmall, if_neg hlong]
    rfl

/-! ## The function -/

def inMemory (s : CString.Text) (r : PartInfo × List UInt8) : PartInfo × Nat :=
  ({ r.1 with name := r.1.name ++ [0] }, pos s r.2)

theorem partParseInto_eq (s : CString.Text) :
    partParseInto s =
      match partParse s.bytes with
      | none => .ok none
      | some (part, rest) =>
        if part.autoName ∧ ¬(part.size.toNat < 2 ^ 32 ∧ part.offset.toNat < 2 ^ 32) then
          .error .name
        else .ok (some (inMemory s (part, rest))) := by
  have hstart := partSizeAt_eq (suffix_refl s.bytes)
  rw [pos_bytes] at hstart
  rw [partParseInto, partParse, hstart, ok_bind]
  cases hsize : partSize s.bytes with
  | none => rfl
  | some r =>
    obtain ⟨size, p₁⟩ := r
    obtain ⟨a, ha, -⟩ := partSize_sound hsize
    have hp₁ : p₁ <:+ s.bytes := ⟨a, ha.symm⟩
    obtain ⟨b, hb, -⟩ := partOffset_sound p₁
    have hp₂ : (partOffset p₁).2 <:+ s.bytes := List.IsSuffix.trans ⟨b, hb.symm⟩ hp₁
    simp only [map_some, bind_eq_bind, bind_some]
    rw [partOffsetAt_eq hp₁, ok_bind]
    dsimp only
    rw [partNameAt_eq hp₂, ok_bind]
    cases hname : partName (partOffset p₁).2 with
    | none => rfl
    | some r =>
      obtain ⟨name, p₃⟩ := r
      have hp₃ := (partName_suffix hname).trans hp₂
      obtain ⟨c, hc, -⟩ := partOptions_sound p₃
      have hp₄ : (partOptions p₃).2 <:+ s.bytes := List.IsSuffix.trans ⟨c, hc.symm⟩ hp₃
      simp only [map_some, bind_some]
      rw [partOptionsAt_eq hp₃, ok_bind]
      dsimp only
      rw [partEndAt_eq size hp₄, ok_bind]
      cases hend : partEnd size (partOptions p₃).2 with
      | none => rfl
      | some rest =>
        simp only [map_some, bind_some, pure_def]
        cases name with
        | none =>
          simp only [map_none, elim_none, nameInto_none, isNone_none, true_and]
          by_cases hsmall : size.toNat < 2 ^ 32 ∧ (partOffset p₁).1.toNat < 2 ^ 32
          · rw [if_pos hsmall, if_neg (not_not.mpr hsmall)]
            rfl
          · rw [if_neg hsmall, if_pos hsmall]
            rfl
        | some name =>
          have hopen := partName_some hname
          rw [hopen] at hp₂
          simp only [map_some, elim_some, nameInto_some size _ (tail_suffix hp₂),
            isNone_some, Bool.false_eq_true, false_and, if_false]
          rfl

theorem partParseInto_error (h : partParseInto s = .error e) : e = .name := by
  rw [partParseInto_eq] at h
  split at h
  · cases h
  · split at h
    · cases h
      rfl
    · cases h

/-- All that is read and written is inside, just if a partition without a name has a size and an
offset below 4 GiB. -/
theorem partParseInto_safe_iff (s : CString.Text) :
    (∃ r, partParseInto s = .ok r) ↔
      ∀ size offset, Unnamed s.bytes size offset → size.toNat < 2 ^ 32 ∧ offset.toNat < 2 ^ 32 := by
  have hunnamed := partParse_autoName_iff s.bytes
  rw [partParseInto_eq]
  cases hparse : partParse s.bytes with
  | none =>
    refine ⟨fun _ size offset h => ?_, fun _ => ⟨none, rfl⟩⟩
    obtain ⟨part, rest, heq, -⟩ := (hunnamed size offset).mpr h
    rw [hparse] at heq
    cases heq
  | some r =>
    obtain ⟨part, rest⟩ := r
    dsimp only
    constructor
    · rintro ⟨r, hr⟩ size offset h
      obtain ⟨part', rest', heq, hauto, rfl, rfl⟩ := (hunnamed size offset).mpr h
      rw [hparse] at heq
      cases heq
      by_contra hbig
      rw [if_pos ⟨hauto, hbig⟩] at hr
      cases hr
    · intro h
      refine ⟨_, if_neg ?_⟩
      rintro ⟨hauto, hbig⟩
      exact hbig (h _ _ ((hunnamed _ _).mp ⟨part, rest, hparse, hauto, rfl, rfl⟩))

def oneMegabyte : CString.Text := ⟨['1'.toUInt8, 'm'.toUInt8], by decide⟩

/-- The name that `1m` gets prints the offset that is not specified with 16 digits. -/
theorem partParseInto_overruns :
    partParseInto oneMegabyte = .error .name ∧
      (sizeAtOffset 0x100000 offsetNotSpecified).length + 1 = 30 := by
  decide +kernel

end UBoot.Mtdparts.PartDef
