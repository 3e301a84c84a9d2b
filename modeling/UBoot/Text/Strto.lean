import Mathlib

/-!
# Numbers in text

`simple_strtoul` and `simple_strtoull` of `lib/vsprintf.c`. The result is taken
modulo the width of the type; the second component is the text at `*endp`.
-/

namespace UBoot.Text

def xdigit (c : UInt8) : Option Nat :=
  if 0x30 ≤ c ∧ c ≤ 0x39 then some (c.toNat - 0x30)
  else if 0x61 ≤ c ∧ c ≤ 0x66 then some (c.toNat - 0x61 + 10)
  else if 0x41 ≤ c ∧ c ≤ 0x46 then some (c.toNat - 0x41 + 10)
  else none

def digits (width base result : Nat) : List UInt8 → Nat × List UInt8
  | [] => (result, [])
  | c :: cp =>
    match xdigit c with
    | none => (result, c :: cp)
    | some value =>
      if value < base then digits width base ((result * base + value) % 2 ^ width) cp
      else (result, c :: cp)

def simpleStrto (width base : Nat) (cp : List UInt8) : Nat × List UInt8 :=
  match cp with
  | 0x30 :: 0x78 :: c :: cp =>
    if (xdigit c).isSome then digits width 16 0 (c :: cp)
    else digits width (if base = 0 then 8 else base) 0 (0x78 :: c :: cp)
  | 0x30 :: cp => digits width (if base = 0 then 8 else base) 0 cp
  | cp => digits width (if base = 0 then 10 else base) 0 cp

def simpleStrtoul (base : Nat) (cp : List UInt8) : Nat × List UInt8 := simpleStrto 32 base cp

def simpleStrtoull (base : Nat) (cp : List UInt8) : Nat × List UInt8 := simpleStrto 64 base cp

def decimal (n : Nat) : List UInt8 := (Nat.toDigits 10 n).map fun c => UInt8.ofNat c.toNat

/-! ## Reading what was printed -/

theorem decimal_of_lt (hn : n < 10) : decimal n = [UInt8.ofNat (0x30 + n)] := by
  interval_cases n <;> rfl

theorem decimal_step (hn : 10 ≤ n) : decimal n = decimal (n / 10) ++ decimal (n % 10) := by
  have hpos : 0 < n / 10 := by omega
  rw [decimal, decimal, decimal, ← List.map_append,
    Nat.toDigits_append_toDigits (by decide) hpos (Nat.mod_lt n (by decide)), Nat.div_add_mod]

theorem xdigit_digit (hn : n < 10) : xdigit (UInt8.ofNat (0x30 + n)) = some n := by
  interval_cases n <;> rfl

theorem digits_decimal (width n : Nat) (rest : List UInt8) :
    digits width 10 0 (decimal n ++ rest) = digits width 10 (n % 2 ^ width) rest := by
  induction n using Nat.strongRecOn generalizing rest with
  | _ n ih =>
    have hdigit (acc d : Nat) (hd : d < 10) : digits width 10 acc (decimal d ++ rest) =
        digits width 10 ((acc * 10 + d) % 2 ^ width) rest := by
      rw [decimal_of_lt hd, List.cons_append, List.nil_append, digits, xdigit_digit hd]
      exact if_pos hd
    obtain hn | hn := Nat.lt_or_ge n 10
    · rw [hdigit 0 n hn, Nat.zero_mul, Nat.zero_add]
    · have hacc : (n / 10 % 2 ^ width * 10 + n % 10) % 2 ^ width = n % 2 ^ width := by
        rw [Nat.add_mod, Nat.mod_mul_mod, ← Nat.add_mod, Nat.div_add_mod']
      rw [decimal_step hn, List.append_assoc, ih _ (by omega), hdigit _ _ (by omega), hacc]

theorem decimal_head (n : Nat) :
    ∃ c s, decimal n = c :: s ∧ (xdigit c).isSome ∧ (0 < n → c ≠ 0x30) := by
  induction n using Nat.strongRecOn with
  | _ n ih =>
    obtain hlt | hge := Nat.lt_or_ge n 10
    · refine ⟨_, _, decimal_of_lt hlt, ?_, ?_⟩
      · rw [xdigit_digit hlt]; rfl
      · interval_cases n <;> decide
    · obtain ⟨c, s, hs, hdigit, hc⟩ := ih (n / 10) (by omega)
      refine ⟨c, s ++ decimal (n % 10), ?_, hdigit, fun _ => hc (by omega)⟩
      rw [decimal_step hge, hs, List.cons_append]

def EndsNumber (rest : List UInt8) : Prop := ∀ c ∈ rest.head?, xdigit c = none ∧ c ≠ 0x78

theorem digits_of_endsNumber (width base acc : Nat) (hrest : EndsNumber rest) :
    digits width base acc rest = (acc, rest) := by
  cases rest with
  | nil => rfl
  | cons c rest =>
    rw [digits, (hrest c rfl).1]

theorem simpleStrto_decimal (hn : n < 2 ^ width) (hrest : EndsNumber rest) :
    simpleStrto width 0 (decimal n ++ rest) = (n, rest) := by
  obtain rfl | hpos := Nat.eq_zero_or_pos n
  · have hzero : decimal 0 ++ rest = 0x30 :: rest := rfl
    rw [hzero]
    unfold simpleStrto
    split
    · rename_i c cp heq
      cases heq
      exact absurd rfl (hrest 0x78 rfl).2
    · rename_i heq
      cases heq
      exact digits_of_endsNumber _ _ _ hrest
    · rename_i h2
      exact absurd rfl (h2 rest)
  · obtain ⟨c, s, hs, -, hzero⟩ := decimal_head n
    have hc := hzero hpos
    have hten : simpleStrto width 0 (decimal n ++ rest) = digits width 10 0 (decimal n ++ rest) := by
      rw [hs, List.cons_append]
      unfold simpleStrto
      split
      · rename_i heq
        exact absurd (List.cons.inj heq).1 hc
      · rename_i heq
        exact absurd (List.cons.inj heq).1 hc
      · rfl
    rw [hten, digits_decimal, Nat.mod_eq_of_lt hn, digits_of_endsNumber _ _ _ hrest]

end UBoot.Text
