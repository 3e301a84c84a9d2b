import UBoot.Lib.Montgomery
import UBoot.Rsa.PowMod

/-!
# What the exponentiation computes

For a key whose numbers belong together, `pow_mod` replaces `v` by `v ^ 65537` modulo `N`,
except where the power is 0 modulo `N` and `v` is not 0: the comparison with the modulus then
runs out of the arrays.
-/

namespace UBoot.Rsa

open List

def value (ws : List UInt32) : Nat := Nat.ofDigits (2 ^ 32) (ws.map UInt32.toNat)

@[simp] theorem value_nil : value [] = 0 := rfl

@[simp] theorem value_cons (w : UInt32) (ws : List UInt32) :
    value (w :: ws) = w.toNat + 2 ^ 32 * value ws := by
  simp [value, Nat.ofDigits_cons]

theorem value_append (ws ws' : List UInt32) :
    value (ws ++ ws') = value ws + 2 ^ (32 * ws.length) * value ws' := by
  rw [value, map_append, Nat.ofDigits_append, length_map, ← pow_mul]
  rfl

theorem value_lt (ws : List UInt32) : value ws < 2 ^ (32 * ws.length) := by
  have h := Nat.ofDigits_lt_base_pow_length (b := 2 ^ 32) (l := ws.map UInt32.toNat) (by norm_num)
    (by
      intro x hx
      obtain ⟨w, -, rfl⟩ := mem_map.mp hx
      exact w.toNat_lt)
  rwa [length_map, ← pow_mul] at h

theorem toNat_low (acc : Nat) : (low acc).toNat = acc % 2 ^ 32 := UInt32.toNat_ofNat'

/-! ## subtract_modulus and greater_equal_modulus -/

theorem length_subtractModulus (acc : Int) (num modulus : List UInt32)
    (hlen : num.length = modulus.length) :
    (subtractModulus acc num modulus).length = num.length := by
  induction num generalizing acc modulus with
  | nil => cases modulus <;> rfl
  | cons n num ih =>
    cases modulus with
    | nil => cases hlen
    | cons m modulus => exact congrArg (· + 1) (ih _ _ (Nat.succ.inj hlen))

theorem value_subtractModulus (acc : Int) (num modulus : List UInt32)
    (hlen : num.length = modulus.length) :
    ∃ c : Int, acc + value num - value modulus =
      value (subtractModulus acc num modulus) + 2 ^ (32 * num.length) * c := by
  induction num generalizing acc modulus with
  | nil =>
    cases modulus with
    | nil => exact ⟨acc, by simp [subtractModulus]⟩
    | cons m modulus => cases hlen
  | cons n num ih =>
    cases modulus with
    | nil => cases hlen
    | cons m modulus =>
      obtain ⟨c, hc⟩ := ih ((acc + (n.toNat - m.toNat)) / 2 ^ 32) modulus (Nat.succ.inj hlen)
      refine ⟨c, ?_⟩
      have hword : ((low ((acc + ((n.toNat : Int) - m.toNat)) % 2 ^ 32).toNat).toNat : Int) =
          (acc + (n.toNat - m.toNat)) % 2 ^ 32 := by
        rw [toNat_low]
        omega
      have hdiv := Int.emod_add_mul_ediv (acc + ((n.toNat : Int) - m.toNat)) (2 ^ 32)
      simp only [subtractModulus, value_cons, length_cons, Nat.mul_succ, pow_add, Nat.cast_add,
        Nat.cast_mul, Nat.cast_pow, Nat.cast_ofNat, hword]
      linear_combination (2 ^ 32 : Int) * hc - hdiv

theorem value_subtractModulus_of_fits (hlen : num.length = modulus.length) (k : Nat)
    (hle : value modulus ≤ value num + 2 ^ (32 * num.length) * k)
    (hlt : value num + 2 ^ (32 * num.length) * k < value modulus + 2 ^ (32 * num.length)) :
    value (subtractModulus 0 num modulus) =
      value num + 2 ^ (32 * num.length) * k - value modulus := by
  obtain ⟨c, hc⟩ := value_subtractModulus 0 num modulus hlen
  have hres := value_lt (subtractModulus 0 num modulus)
  rw [length_subtractModulus 0 num modulus hlen] at hres
  have hpos : (0 : Int) < 2 ^ (32 * num.length) := by positivity
  -- both sides are below the size of the array
  have hk : c + k = 0 := by
    have h1 : (2 : Int) ^ (32 * num.length) * (c + k) < 2 ^ (32 * num.length) * 1 := by
      linarith [Int.natCast_nonneg (value (subtractModulus 0 num modulus))]
    have h2 : (2 : Int) ^ (32 * num.length) * (-1) < 2 ^ (32 * num.length) * (c + k) := by
      linarith
    have h3 := lt_of_mul_lt_mul_left h1 hpos.le
    have h4 := lt_of_mul_lt_mul_left h2 hpos.le
    omega
  zify [hle]
  have hc' : c = -(k : Int) := by omega
  rw [hc'] at hc
  linarith

theorem value_concat_lt (hlen : ws.length = ws'.length) (h : w < w') :
    value (ws ++ [w]) < value (ws' ++ [w']) := by
  have hlt := value_lt ws
  have hw : w.toNat + 1 ≤ w'.toNat := UInt32.lt_iff_toNat_lt.mp h
  have hmul := Nat.mul_le_mul_left (2 ^ (32 * ws.length)) hw
  rw [value_append, value_append, ← hlen]
  simp only [value_cons, value_nil, Nat.mul_zero, Nat.add_zero]
  rw [Nat.mul_add, Nat.mul_one] at hmul
  omega

theorem compare_word (hlen : ws.length = ws'.length) (w w' : UInt32) (next : Option Bool)
    (hnext : next = if ws = ws' then none else some (decide (value ws' ≤ value ws))) :
    (if w < w' then some false else if w' < w then some true else next) =
      if ws ++ [w] = ws' ++ [w'] then none
      else some (decide (value (ws' ++ [w']) ≤ value (ws ++ [w]))) := by
  rcases Nat.lt_trichotomy w.toNat w'.toNat with h | h | h
  · have h := UInt32.lt_iff_toNat_lt.mpr h
    have hlt := value_concat_lt hlen h
    have hne : ws ++ [w] ≠ ws' ++ [w'] := fun heq => absurd hlt (heq ▸ Nat.lt_irrefl _)
    rw [if_pos h, if_neg hne, decide_eq_false (Nat.not_le_of_lt hlt)]
  · obtain rfl := UInt32.toNat_inj.mp h
    rw [if_neg (UInt32.lt_irrefl w), if_neg (UInt32.lt_irrefl w), hnext, value_append, value_append,
      hlen]
    simp
  · have h := UInt32.lt_iff_toNat_lt.mpr h
    have hlt := value_concat_lt hlen.symm h
    have hne : ws ++ [w] ≠ ws' ++ [w'] := fun heq => absurd hlt (heq ▸ Nat.lt_irrefl _)
    rw [if_neg (UInt32.lt_asymm h), if_pos h, if_neg hne, decide_eq_true hlt.le]

theorem greaterEqualFrom_spec (num modulus : List UInt32) (i : Nat) (hnum : i < num.length)
    (hmod : i < modulus.length) :
    greaterEqualFrom num modulus i =
      if num.take (i + 1) = modulus.take (i + 1) then none
      else some (decide (value (modulus.take (i + 1)) ≤ value (num.take (i + 1)))) := by
  have hlen (i : Nat) (hnum : i ≤ num.length) (hmod : i ≤ modulus.length) :
      (num.take i).length = (modulus.take i).length := by
    rw [length_take_of_le hnum, length_take_of_le hmod]
  induction i with
  | zero =>
    rw [take_succ_eq_append_getElem hnum, take_succ_eq_append_getElem hmod,
      ← compare_word (hlen 0 hnum.le hmod.le) _ _ none (by simp)]
    simp [greaterEqualFrom, getElem?_eq_getElem hnum, getElem?_eq_getElem hmod]
  | succ i ih =>
    rw [take_succ_eq_append_getElem hnum, take_succ_eq_append_getElem hmod,
      ← compare_word (hlen _ hnum.le hmod.le) _ _ _ (ih (by omega) (by omega))]
    simp [greaterEqualFrom, getElem?_eq_getElem hnum, getElem?_eq_getElem hmod]

/-! ## One step of a Montgomery product -/

theorem uint64_mul_add (hx : x < 2 ^ 32) (hy : y < 2 ^ 32) (a b : UInt32) :
    uint64 (x + a.toNat * b.toNat + y) = x + a.toNat * b.toNat + y := by
  have ha := a.toNat_lt
  have hb := b.toNat_lt
  have hmul : a.toNat * b.toNat ≤ (2 ^ 32 - 1) * (2 ^ 32 - 1) :=
    Nat.mul_le_mul (by omega) (by omega)
  exact Nat.mod_eq_of_lt (by omega)

theorem mulAddLoop_spec (a d0 : UInt32) (accA accB : Nat) (result b modulus : List UInt32)
    (hb : b.length = result.length) (hmod : modulus.length = result.length)
    (hA : accA < 2 ^ 64) (hB : accB < 2 ^ 64) :
    let (words, accA', accB') := mulAddLoop a d0 accA accB result b modulus
    words.length = result.length ∧ accA' < 2 ^ 64 ∧ accB' < 2 ^ 64 ∧
      value words + 2 ^ (32 * result.length) * (accA' / 2 ^ 32 + accB' / 2 ^ 32) =
        accA / 2 ^ 32 + accB / 2 ^ 32 +
          (value result + a.toNat * value b + d0.toNat * value modulus) := by
  induction result generalizing accA accB b modulus with
  | nil =>
    obtain rfl := eq_nil_of_length_eq_zero hb
    obtain rfl := eq_nil_of_length_eq_zero hmod
    exact ⟨rfl, hA, hB, by simp⟩
  | cons r result ih =>
    obtain ⟨b0, b, rfl⟩ := exists_cons_of_length_eq_add_one hb
    obtain ⟨m, modulus, rfl⟩ := exists_cons_of_length_eq_add_one hmod
    have hsumA := uint64_mul_add (x := accA / 2 ^ 32) (y := r.toNat) (by omega) r.toNat_lt a b0
    generalize hA' : uint64 (accA / 2 ^ 32 + a.toNat * b0.toNat + r.toNat) = sumA at hsumA
    have hsumB := uint64_mul_add (x := accB / 2 ^ 32) (y := (low sumA).toNat) (by omega)
      (low sumA).toNat_lt d0 m
    generalize hB' : uint64 (accB / 2 ^ 32 + d0.toNat * m.toNat + (low sumA).toNat) = sumB at hsumB
    have hltA : sumA < 2 ^ 64 := hA' ▸ Nat.mod_lt _ (by norm_num)
    have hltB : sumB < 2 ^ 64 := hB' ▸ Nat.mod_lt _ (by norm_num)
    obtain ⟨hlen, hA2, hB2, hval⟩ :=
      ih sumA sumB b modulus (Nat.succ.inj hb) (Nat.succ.inj hmod) hltA hltB
    simp only [mulAddLoop, hA', hB', value_cons, length_cons, hlen, Nat.mul_succ, pow_add,
      true_and]
    refine ⟨hA2, hB2, ?_⟩
    have hlowA := toNat_low sumA
    have hlowB := toNat_low sumB
    have hdivA := Nat.mod_add_div sumA (2 ^ 32)
    have hdivB := Nat.mod_add_div sumB (2 ^ 32)
    zify at *
    linear_combination (2 ^ 32 : Int) * hval + hlowB + hdivB + hsumB + hlowA + hdivA + hsumA

structure PublicKey.Valid (key : PublicKey) : Prop where
  len_le : key.len ≤ maxKeyWords
  length_modulus : key.modulus.length = key.len
  length_rr : key.rr.length = key.len
  top : 2 ^ (32 * key.len) ≤ 2 * value key.modulus
  n0inv : (value key.modulus * key.n0inv.toNat + 1) % 2 ^ 32 = 0
  rr : value key.rr = (2 ^ (32 * key.len)) ^ 2 % value key.modulus

structure PublicKey.Invertible (key : PublicKey) : Prop where
  length_modulus : key.modulus.length = key.len
  n0inv : (value key.modulus * key.n0inv.toNat + 1) % 2 ^ 32 = 0

theorem PublicKey.Valid.invertible {key : PublicKey} (hkey : key.Valid) : key.Invertible :=
  ⟨hkey.length_modulus, hkey.n0inv⟩

theorem low_add_d0_mul {n0inv m : UInt32} (hinv : (m.toNat * n0inv.toNat + 1) % 2 ^ 32 = 0)
    (acc : Nat) : ((low acc * n0inv).toNat * m.toNat + (low acc).toNat) % 2 ^ 32 = 0 := by
  rw [UInt32.toNat_mul]
  calc ((low acc).toNat * n0inv.toNat % 2 ^ 32 * m.toNat + (low acc).toNat) % 2 ^ 32
      = ((low acc).toNat * n0inv.toNat * m.toNat + (low acc).toNat) % 2 ^ 32 := by
        rw [Nat.add_mod, Nat.mod_mul_mod, ← Nat.add_mod]
    _ = (low acc).toNat * (m.toNat * n0inv.toNat + 1) % 2 ^ 32 := by ring_nf
    _ = 0 := by rw [Nat.mul_mod, hinv, Nat.mul_zero, Nat.zero_mod]

variable {key : PublicKey}

theorem PublicKey.Invertible.modulus_lt (hkey : key.Invertible) :
    value key.modulus < 2 ^ (32 * key.len) := hkey.length_modulus ▸ value_lt key.modulus

theorem value_finish (hlen : modulus.length = words.length + 1)
    (carry : Nat) (ht : t = value words + 2 ^ (32 * words.length) * carry)
    (hlt : t < 2 ^ (32 * modulus.length) + value modulus) :
    value (if carry / 2 ^ 32 ≠ 0 then subtractModulus 0 (words ++ [low carry]) modulus
      else words ++ [low carry]) =
      if 2 ^ (32 * modulus.length) ≤ t then t - value modulus else t := by
  have hlen' : (words ++ [low carry]).length = modulus.length := by rw [hlen]; simp
  have hval : t = value (words ++ [low carry]) + 2 ^ (32 * modulus.length) * (carry / 2 ^ 32) := by
    have hdiv := Nat.mod_add_div carry (2 ^ 32)
    rw [value_append, ht, hlen, Nat.mul_succ, pow_add]
    simp only [value_cons, value_nil, toNat_low, Nat.mul_zero, Nat.add_zero]
    conv_lhs => rw [← hdiv]
    ring
  have hfit := value_lt (words ++ [low carry])
  rw [hlen'] at hfit
  by_cases hc : carry / 2 ^ 32 = 0
  · rw [hc, Nat.mul_zero, Nat.add_zero] at hval
    rw [if_neg (not_not.mpr hc), hval, if_neg (Nat.not_le_of_lt hfit)]
  · have hR : 2 ^ (32 * modulus.length) ≤ 2 ^ (32 * modulus.length) * (carry / 2 ^ 32) :=
      Nat.le_mul_of_pos_right _ (Nat.pos_of_ne_zero hc)
    have hN := value_lt modulus
    rw [if_pos hc, if_pos (by omega), hval]
    have hsub := value_subtractModulus_of_fits hlen' (carry / 2 ^ 32)
    rw [hlen'] at hsub
    exact hsub (by omega) (by omega)

theorem montgomeryMulAddStep_words (hkey : key.Invertible) {result b : List UInt32}
    (hres : result.length = key.len) (hb : b.length = key.len) (a : UInt32) :
    ∃ (words : List UInt32) (carry : Nat) (d0 : UInt32), key.len = words.length + 1 ∧
      montgomeryMulAddStep key result a b =
        (if carry / 2 ^ 32 ≠ 0 then subtractModulus 0 (words ++ [low carry]) key.modulus
          else words ++ [low carry]) ∧
      value result + a.toNat * value b + d0.toNat * value key.modulus =
        2 ^ 32 * (value words + 2 ^ (32 * words.length) * carry) ∧
      (value result + a.toNat * value b = 0 → d0.toNat = 0) := by
  obtain ⟨len, n0inv, modulus, rr⟩ := key
  obtain ⟨hmod, hinv⟩ := hkey
  dsimp only at *
  subst hmod
  cases modulus with
  | nil => simp at hinv
  | cons m modulus =>
    obtain ⟨r, result, rfl⟩ := exists_cons_of_length_eq_add_one hres
    obtain ⟨b0, b, rfl⟩ := exists_cons_of_length_eq_add_one hb
    have hinv' : (m.toNat * n0inv.toNat + 1) % 2 ^ 32 = 0 := by
      rw [value_cons, Nat.add_mul, Nat.mul_assoc, Nat.add_right_comm] at hinv
      rwa [Nat.add_mul_mod_self_left] at hinv
    have hsumA := uint64_mul_add (x := 0) (y := r.toNat) (by norm_num) r.toNat_lt a b0
    rw [Nat.zero_add] at hsumA
    generalize hA : uint64 (a.toNat * b0.toNat + r.toNat) = accA at hsumA
    have hlow := low_add_d0_mul hinv' accA
    generalize hd : low accA * n0inv = d0 at hlow
    have hsumB := uint64_mul_add (x := 0) (y := (low accA).toNat) (by norm_num)
      (low accA).toNat_lt d0 m
    rw [Nat.zero_add] at hsumB
    generalize hB : uint64 (d0.toNat * m.toNat + (low accA).toNat) = accB at hsumB
    have hltA : accA < 2 ^ 64 := hA ▸ Nat.mod_lt _ (by norm_num)
    have hltB : accB < 2 ^ 64 := hB ▸ Nat.mod_lt _ (by norm_num)
    have hloop := mulAddLoop_spec a d0 accA accB result b modulus
      ((Nat.succ.inj hb).trans (Nat.succ.inj hres).symm) (Nat.succ.inj hres).symm hltA hltB
    simp only [montgomeryMulAddStep, hA, hd, hB]
    generalize mulAddLoop a d0 accA accB result b modulus = out at hloop
    obtain ⟨words, accA', accB'⟩ := out
    obtain ⟨hlen, hA', hB', hval⟩ := hloop
    have hcarry : uint64 (accA' / 2 ^ 32 + accB' / 2 ^ 32) = accA' / 2 ^ 32 + accB' / 2 ^ 32 :=
      Nat.mod_eq_of_lt (by omega)
    refine ⟨words, accA' / 2 ^ 32 + accB' / 2 ^ 32, d0, ?_, ?_, ?_, ?_⟩
    · rw [hlen, ← hres, length_cons]
    · simp only [hcarry]
    · -- the lowest word of the sum is 0, and the rest is what the loop adds up
      have hlowA := toNat_low accA
      have hdivA := Nat.mod_add_div accA (2 ^ 32)
      have hdivB := Nat.mod_add_div accB (2 ^ 32)
      rw [← hsumB] at hlow
      rw [hlen, hval]
      simp only [value_cons]
      zify at *
      linear_combination -hsumA - hdivA - hlowA - hsumB - hdivB + hlow
    · intro hzero
      simp only [value_cons, Nat.mul_add] at hzero
      have hacc : low accA = 0 := by
        rw [hsumA, show a.toNat * b0.toNat + r.toNat = 0 by omega]
        rfl
      rw [← hd, hacc, UInt32.zero_mul]
      rfl

theorem montgomeryMulAddStep_spec (hkey : key.Invertible) (hres : result.length = key.len)
    (hb : b.length = key.len) (a : UInt32) :
    (montgomeryMulAddStep key result a b).length = key.len ∧
      Montgomery.Step (2 ^ 32) (value key.modulus) (2 ^ (32 * key.len)) (value b) (value result)
        a.toNat (value (montgomeryMulAddStep key result a b)) := by
  obtain ⟨words, carry, d0, hlen, heq, hsum, hzero⟩ := montgomeryMulAddStep_words hkey hres hb a
  have hmod := hkey.length_modulus
  have hr := hres ▸ value_lt result
  have hb' := hb ▸ value_lt b
  have hquot := Montgomery.quotient_lt hr hb' a.toNat_lt d0.toNat_lt hsum
  have hval := value_finish (hmod.trans hlen) carry rfl (hmod ▸ hquot)
  rw [hmod, ← heq] at hval
  refine ⟨?_, Montgomery.step_of_quotient hkey.modulus_lt hr hb' a.toNat_lt d0.toNat_lt hsum hzero
    hval⟩
  rw [heq]
  split
  · rw [length_subtractModulus _ _ _ (by simp [hmod, hlen])]
    simp [hlen]
  · simp [hlen]

/-! ## Products and the power -/

theorem montgomeryMul_spec (hkey : key.Invertible) (ha : a.length = key.len)
    (hb : b.length = key.len) : (montgomeryMul key a b).length = key.len ∧
      Montgomery.Product (value key.modulus) (2 ^ (32 * key.len)) (value a) (value b)
        (value (montgomeryMul key a b)) := by
  have hzero : value (replicate key.len 0) = 0 := by
    induction key.len with
    | zero => rfl
    | succ n ih => rw [replicate_succ, value_cons, ih]; rfl
  refine Montgomery.product_of_steps (P := fun result => result.length = key.len)
    (fun result ai hres => montgomeryMulAddStep_spec hkey hres hb ai) _ hzero (by simp) a
    (by norm_num) ?_
  rw [ha, pow_mul]

theorem PublicKey.Valid.len_pos (hkey : key.Valid) : 0 < key.len := by
  rw [← hkey.length_modulus, length_pos_iff]
  intro hnil
  simpa [hnil] using hkey.n0inv

theorem PublicKey.Valid.coprime (hkey : key.Valid) :
    Nat.Coprime (value key.modulus) (2 ^ (32 * key.len)) := by
  refine Nat.Coprime.pow_right _ (Nat.coprime_two_right.mpr (Nat.not_even_iff_odd.mp ?_))
  rintro ⟨k, hk⟩
  have hinv := hkey.n0inv
  rw [hk, ← Nat.two_mul, Nat.mul_assoc] at hinv
  omega

theorem PublicKey.Valid.one_lt (hkey : key.Valid) : 1 < value key.modulus := by
  have hpow : 2 ^ 32 ≤ 2 ^ (32 * key.len) :=
    Nat.pow_le_pow_right (by norm_num) (Nat.le_mul_of_pos_right _ hkey.len_pos)
  have htop := hkey.top
  omega

theorem PublicKey.Valid.rr_ne_zero (hkey : key.Valid) : value key.rr ≠ 0 := by
  rw [hkey.rr]
  intro hzero
  have hdvd := Nat.dvd_of_mod_eq_zero hzero
  have hone := Nat.Coprime.eq_one_of_dvd (hkey.coprime.pow_right 2) hdvd
  exact absurd hone hkey.one_lt.ne'

structure Form (key : PublicKey) (x : Nat) (ws : List UInt32) : Prop where
  length : ws.length = key.len
  modEq : value ws ≡ x * 2 ^ (32 * key.len) [MOD value key.modulus]
  eq_zero_iff : value ws = 0 ↔ x = 0

section
variable (hkey : key.Valid)
include hkey

theorem form_mul_rr {val : List UInt32} (hval : val.length = key.len) :
    Form key (value val) (montgomeryMul key val key.rr) := by
  obtain ⟨hlen, hprod⟩ := montgomeryMul_spec hkey.invertible hval hkey.length_rr
  refine ⟨hlen, hprod.toForm hkey.coprime ?_, ?_⟩
  · rw [hkey.rr]
    exact Nat.mod_modEq _ _
  · rw [hprod.eq_zero_iff, or_iff_left hkey.rr_ne_zero]

theorem Form.mul (ha : Form key x a) (hb : Form key y b) :
    Form key (x * y) (montgomeryMul key a b) := by
  obtain ⟨hlen, hprod⟩ := montgomeryMul_spec hkey.invertible ha.length hb.length
  refine ⟨hlen, hprod.mulForm hkey.coprime ha.modEq hb.modEq, ?_⟩
  rw [hprod.eq_zero_iff, ha.eq_zero_iff, hb.eq_zero_iff, Nat.mul_eq_zero]

theorem Form.squareTwice (h : Form key x acc) : Form key (x ^ 4) (squareTwice key acc) := by
  have hsquare := h.mul hkey h
  have := hsquare.mul hkey hsquare
  rwa [show x * x * (x * x) = x ^ 4 by ring] at this

theorem Form.iterate_squareTwice (h : Form key x acc) (n : Nat) :
    Form key (x ^ 4 ^ n) ((Rsa.squareTwice key)^[n] acc) := by
  induction n with
  | zero => simpa using h
  | succ n ih =>
    rw [Function.iterate_succ_apply', pow_succ 4 n, pow_mul]
    exact ih.squareTwice hkey

theorem powUnreduced_spec {val : List UInt32} (hval : val.length = key.len) :
    (powUnreduced key val).length = key.len ∧
      value (powUnreduced key val) ≡ value val ^ 65537 [MOD value key.modulus] ∧
      (value (powUnreduced key val) = 0 ↔ value val = 0) := by
  have hacc := (form_mul_rr hkey hval).iterate_squareTwice hkey 8
  obtain ⟨hlen, hprod⟩ := montgomeryMul_spec hkey.invertible hacc.length hval
  refine ⟨hlen, ?_, ?_⟩
  · rw [show 65537 = 4 ^ 8 + 1 by norm_num, pow_succ]
    exact hprod.ofForm hkey.coprime hacc.modEq
  · rw [powUnreduced, hprod.eq_zero_iff, hacc.eq_zero_iff, pow_eq_zero_iff (by norm_num), or_self]

end

/-! ## The last reduction -/

theorem value_injective (hlen : ws.length = ws'.length) (h : value ws = value ws') : ws = ws' := by
  have hdigits (us : List UInt32) : ∀ d ∈ us.map UInt32.toNat, d < 2 ^ 32 := by
    intro d hd
    obtain ⟨w, -, rfl⟩ := mem_map.mp hd
    exact w.toNat_lt
  refine map_injective_iff.mpr (fun _ _ => UInt32.toNat_inj.mp) ?_
  exact Nat.ofDigits_inj_of_len_eq (by norm_num) (by simpa using hlen) (hdigits ws) (hdigits ws') h

theorem greaterEqualModulus_spec (hkey : key.Valid) (hnum : num.length = key.len) :
    greaterEqualModulus key num =
      if value num = value key.modulus then none
      else some (decide (value key.modulus ≤ value num)) := by
  have hlen : key.len - 1 + 1 = key.len := Nat.sub_add_cancel hkey.len_pos
  have hmod := hkey.length_modulus
  rw [greaterEqualModulus, greaterEqualFrom_spec _ _ _ (by omega) (by omega), hlen,
    take_of_length_le hnum.le, take_of_length_le hmod.le]
  refine ite_congr (propext ⟨congrArg value, value_injective (hnum.trans hmod.symm)⟩)
    (fun _ => rfl) fun _ => rfl

theorem value_reduce (hkey : key.Valid) (hnum : num.length = key.len)
    (hne : value num ≠ value key.modulus) : ∃ ge, greaterEqualModulus key num = some ge ∧
      (if ge then subtractModulus 0 num key.modulus else num).length = key.len ∧
      value (if ge then subtractModulus 0 num key.modulus else num) =
        value num % value key.modulus := by
  have hlen := hnum.trans hkey.length_modulus.symm
  refine ⟨_, (greaterEqualModulus_spec hkey hnum).trans (if_neg hne), ?_⟩
  have hlt := hnum ▸ value_lt num
  have htop := hkey.top
  by_cases hge : value key.modulus ≤ value num
  · rw [if_pos (decide_eq_true hge), length_subtractModulus _ _ _ hlen]
    refine ⟨hnum, ?_⟩
    have hsub := value_subtractModulus_of_fits hlen 0
    rw [Nat.mul_zero, Nat.add_zero, hnum] at hsub
    rw [hsub hge (by omega), Nat.mod_eq_sub_mod hge, Nat.mod_eq_of_lt (by omega)]
  · rw [if_neg (by simpa using hge), Nat.mod_eq_of_lt (Nat.lt_of_not_le hge)]
    exact ⟨hnum, rfl⟩

/-! ## Big-endian bytes -/

def beValue (bytes : List UInt8) : Nat := Nat.ofDigits 256 (bytes.reverse.map UInt8.toNat)

theorem beValue_append (bytes bytes' : List UInt8) :
    beValue (bytes ++ bytes') = beValue bytes' + 256 ^ bytes'.length * beValue bytes := by
  simp [beValue, Nat.ofDigits_append]

theorem pow_256 (n : Nat) : 256 ^ (4 * n) = 2 ^ (32 * n) := by
  rw [pow_mul, pow_mul]
  norm_num

theorem getBe32_spec (bytes : List UInt8) (n : Nat) (hlen : bytes.length = 4 * n) :
    (getBe32 bytes).length = n ∧ value (getBe32 bytes).reverse = beValue bytes := by
  induction n generalizing bytes with
  | zero =>
    obtain rfl := eq_nil_of_length_eq_zero hlen
    exact ⟨rfl, rfl⟩
  | succ n ih =>
    match bytes, hlen with
    | b0 :: b1 :: b2 :: b3 :: bytes, hlen =>
      have hlen' : bytes.length = 4 * n := by simpa [Nat.mul_add] using hlen
      obtain ⟨hwords, hval⟩ := ih bytes hlen'
      have hword : Nat.ofDigits 256 [b3.toNat, b2.toNat, b1.toNat, b0.toNat] =
          beValue [b0, b1, b2, b3] := rfl
      have hlt : beValue [b0, b1, b2, b3] < 2 ^ 32 := by
        have h0 := b0.toNat_lt
        have h1 := b1.toNat_lt
        have h2 := b2.toNat_lt
        have h3 := b3.toNat_lt
        simp only [← hword, Nat.ofDigits_cons, Nat.ofDigits_nil]
        omega
      refine ⟨congrArg (· + 1) hwords, ?_⟩
      rw [getBe32, reverse_cons, value_append, hval, length_reverse, hwords,
        show b0 :: b1 :: b2 :: b3 :: bytes = [b0, b1, b2, b3] ++ bytes from rfl, beValue_append,
        hlen', pow_256, value_cons, value_nil, hword, UInt32.toNat_ofNat_of_lt' hlt, Nat.mul_zero,
        Nat.add_zero]

theorem beValue_putBe32 (w : UInt32) : beValue (putBe32 w) = w.toNat := by
  have hlt := w.toNat_lt
  simp only [beValue, putBe32, reverse_cons, reverse_nil, nil_append,
    cons_append, map_cons, map_nil, Nat.ofDigits_cons, Nat.ofDigits_nil,
    UInt8.toNat_ofNat']
  omega

theorem putBe32_spec (ws : List UInt32) :
    (ws.reverse.flatMap putBe32).length = 4 * ws.length ∧
      beValue (ws.reverse.flatMap putBe32) = value ws := by
  induction ws with
  | nil => exact ⟨rfl, rfl⟩
  | cons w ws ih =>
    obtain ⟨hlen, hval⟩ := ih
    rw [reverse_cons, flatMap_append, flatMap_singleton, length_append,
      beValue_append, hlen, hval, beValue_putBe32, value_cons]
    refine ⟨by rw [length_cons, Nat.mul_succ]; rfl, ?_⟩
    rw [show (putBe32 w).length = 4 * 1 from rfl, pow_256]

/-! ## pow_mod -/

theorem powMod_eq (hkey : key.Valid) (inout : List UInt8) :
    powMod key inout =
      (greaterEqualModulus key (powUnreduced key (getBe32 inout).reverse)).map fun ge =>
        (0, (if ge then
            subtractModulus 0 (powUnreduced key (getBe32 inout).reverse) key.modulus
          else powUnreduced key (getBe32 inout).reverse).reverse.flatMap putBe32) := by
  rw [powMod, if_neg (Nat.not_lt_of_le hkey.len_le)]
  dsimp only
  cases greaterEqualModulus key (powUnreduced key (getBe32 inout).reverse) with
  | none => rfl
  | some ge => cases ge <;> rfl

theorem powUnreduced_eq_modulus_iff (hkey : key.Valid) (hval : val.length = key.len) :
    value (powUnreduced key val) = value key.modulus ↔
      value val ≠ 0 ∧ value key.modulus ∣ value val ^ 65537 := by
  obtain ⟨hlen, hmod, hzero⟩ := powUnreduced_spec hkey hval
  have hlt := hlen ▸ value_lt (powUnreduced key val)
  have htop := hkey.top
  constructor
  · intro heq
    refine ⟨fun h => ?_, Nat.modEq_zero_iff_dvd.mp (hmod.symm.trans ?_)⟩
    · rw [hzero.mpr h] at heq
      omega
    · rw [heq]
      exact Nat.modEq_zero_iff_dvd.mpr dvd_rfl
  · rintro ⟨hne, hdvd⟩
    -- a multiple of the modulus below its double
    obtain ⟨k, hk⟩ := Nat.modEq_zero_iff_dvd.mp (hmod.trans (Nat.modEq_zero_iff_dvd.mpr hdvd))
    have hk0 : k ≠ 0 := by
      rintro rfl
      exact hne (hzero.mp hk)
    have hk2 : k < 2 := by
      refine Nat.lt_of_mul_lt_mul_left (a := value key.modulus) ?_
      omega
    rw [hk, show k = 1 by omega, Nat.mul_one]

theorem powMod_of_defined (hkey : key.Valid) (hlen : inout.length = 4 * key.len)
    (hdefined : beValue inout = 0 ∨ ¬ value key.modulus ∣ beValue inout ^ 65537) :
    ∃ out, powMod key inout = some (0, out) ∧ out.length = inout.length ∧
      beValue out = beValue inout ^ 65537 % value key.modulus := by
  obtain ⟨hwords, hval⟩ := getBe32_spec inout key.len hlen
  rw [← length_reverse] at hwords
  obtain ⟨hres, hmod, -⟩ := powUnreduced_spec hkey hwords
  rw [← not_ne_iff, ← not_and_or, ← hval, ← powUnreduced_eq_modulus_iff hkey hwords] at hdefined
  obtain ⟨ge, hge, hlen', hred⟩ := value_reduce hkey hres hdefined
  obtain ⟨hbytes, hbe⟩ := putBe32_spec (if ge then
    subtractModulus 0 (powUnreduced key (getBe32 inout).reverse) key.modulus
    else powUnreduced key (getBe32 inout).reverse)
  refine ⟨_, by rw [powMod_eq hkey, hge]; rfl, ?_, ?_⟩
  · rw [hbytes, hlen', hlen]
  · rw [hbe, hred, ← hval]
    exact hmod

/-- Where the power is computed: everywhere but for a number that is not 0 and has a
power that is 0. -/
theorem powMod_correct_iff (key : PublicKey) (hkey : key.Valid) (inout : List UInt8)
    (hlen : inout.length = 4 * key.len) :
    (∃ out, powMod key inout = some (0, out) ∧ out.length = inout.length ∧
      beValue out = beValue inout ^ 65537 % value key.modulus) ↔
      (beValue inout = 0 ∨ ¬ value key.modulus ∣ beValue inout ^ 65537) := by
  refine ⟨?_, powMod_of_defined hkey hlen⟩
  rintro ⟨out, hout, -⟩
  obtain ⟨hwords, hval⟩ := getBe32_spec inout key.len hlen
  rw [← length_reverse] at hwords
  rw [← not_ne_iff, ← not_and_or, ← hval, ← powUnreduced_eq_modulus_iff hkey hwords]
  intro heq
  rw [powMod_eq hkey, greaterEqualModulus_spec hkey (powUnreduced_spec hkey hwords).1,
    if_pos heq] at hout
  cases hout

def smallKey : PublicKey := ⟨1, 3318838365, [2147483659], [484]⟩

theorem smallKey_valid : smallKey.Valid :=
  ⟨by decide, rfl, rfl, by decide +kernel, by decide +kernel, by decide +kernel⟩

theorem powMod_correct_five :
    ∃ out, powMod smallKey [0, 0, 0, 5] = some (0, out) ∧
      out.length = [0, 0, 0, 5].length ∧
      beValue out = beValue [0, 0, 0, 5] ^ 65537 % value smallKey.modulus :=
  (powMod_correct_iff smallKey smallKey_valid [0, 0, 0, 5] rfl).mpr (.inr (by decide +kernel))

/-- For the modulus itself all words are equal, and the index runs below 0. -/
theorem powMod_modulus_out_of_bounds :
    smallKey.Valid ∧ beValue [0x80, 0, 0, 0x0b] = value smallKey.modulus ∧
      powMod smallKey [0x80, 0, 0, 0x0b] = none :=
  ⟨smallKey_valid, by decide +kernel, by decide +kernel⟩

/-! ## rsa_verify_key -/

theorem beValue_injective (hlen : bytes.length = bytes'.length)
    (h : beValue bytes = beValue bytes') : bytes = bytes' := by
  have hdigits (us : List UInt8) : ∀ d ∈ us.map UInt8.toNat, d < 256 := by
    intro d hd
    obtain ⟨w, -, rfl⟩ := mem_map.mp hd
    exact w.toNat_lt
  refine reverse_injective (map_injective_iff.mpr (fun _ _ => UInt8.toNat_inj.mp) ?_)
  exact Nat.ofDigits_inj_of_len_eq (by norm_num) (by simpa using hlen) (hdigits _) (hdigits _) h

theorem powMod_of_undefined (hkey : key.Valid) (hlen : inout.length = 4 * key.len)
    (h : beValue inout ≠ 0 ∧ value key.modulus ∣ beValue inout ^ 65537) :
    powMod key inout = none := by
  obtain ⟨hwords, hval⟩ := getBe32_spec inout key.len hlen
  rw [← length_reverse] at hwords
  rw [← hval, ← powUnreduced_eq_modulus_iff hkey hwords] at h
  rw [powMod_eq hkey, greaterEqualModulus_spec hkey (powUnreduced_spec hkey hwords).1, if_pos h]
  rfl

/-- A signature is accepted iff its power is the padded hash. -/
theorem rsaVerifyKey_eq_zero_iff (hkey : key.Valid) (hlen : key.len = 64) {sig hash : List UInt8}
    (hhash : hash.length = 20) :
    rsaVerifyKey key sig hash = some 0 ↔ sig.length = 256 ∧
      beValue sig ^ 65537 % value key.modulus = beValue (padding ++ hash) := by
  have hpad : padding.length = 236 := rfl
  by_cases hsig : sig.length = 256
  · rw [rsaVerifyKey, if_neg (by omega), if_neg (by omega), and_iff_right hsig]
    by_cases hundef : beValue sig ≠ 0 ∧ value key.modulus ∣ beValue sig ^ 65537
    · -- the comparison leaves the arrays; the power is 0, which no padded hash is
      have hzero : beValue (padding ++ hash) ≠ 0 := by
        have : beValue padding ≠ 0 := by decide +kernel
        simp [beValue_append, this]
      rw [powMod_of_undefined hkey (by omega) hundef, Nat.mod_eq_zero_of_dvd hundef.2]
      exact ⟨nofun, fun h => absurd h.symm hzero⟩
    · obtain ⟨out, hpow, hout, hval⟩ := powMod_of_defined hkey (by omega)
        ((not_and_or.mp hundef).imp_left not_not.mp)
      have hiff : beValue out = beValue (padding ++ hash) ↔ out = padding ++ hash :=
        ⟨beValue_injective (by rw [hout, length_append]; omega), congrArg beValue⟩
      rw [← hval, hiff, hpow]
      simp only [Option.bind_eq_bind, Option.bind_some, ne_eq, not_true_eq_false, if_false,
        if_neg (show ¬ out.length < padding.length by omega),
        if_neg (show ¬ hash.length < sig.length - padding.length by omega),
        take_of_length_le (show hash.length ≤ sig.length - padding.length by omega)]
      constructor
      · intro h
        split at h
        · cases h
        · next hfront =>
          split at h
          · cases h
          · next hback =>
            rw [← take_append_drop padding.length out, not_not.mp hfront, not_not.mp hback]
      · rintro rfl
        simp
  · rw [rsaVerifyKey, if_pos (by omega)]
    exact ⟨nofun, fun h => absurd h.1 hsig⟩

def onesKey : PublicKey := ⟨64, 1, replicate 64 0xffffffff, 1 :: replicate 63 0⟩

theorem rsaVerifyKey_rejects_zero :
    onesKey.Valid ∧ rsaVerifyKey onesKey (replicate 256 0) (replicate 20 7) ≠ some 0 := by
  have hkey : onesKey.Valid :=
    ⟨by decide, rfl, rfl, by decide +kernel, by decide +kernel, by decide +kernel⟩
  refine ⟨hkey, fun h => ?_⟩
  have hpower := ((rsaVerifyKey_eq_zero_iff hkey rfl rfl).mp h).2
  exact absurd hpower (by decide +kernel)

end UBoot.Rsa
