import UBoot.Rsa.PowModCorrect

/-!
# Montgomery products without overflow

The steps of `montgomery_mul` again, with accumulators that may not leave their 64
bits. They never do, for any words, so that the products of `PowMod` are those of
unbounded accumulators.
-/

namespace UBoot.Rsa

def checked64 (n : Nat) : Option Nat := if n < 2 ^ 64 then some n else none

def mulAddLoopChecked (a d0 : UInt32) (accA accB : Nat) :
    List UInt32 → List UInt32 → List UInt32 → Option (List UInt32 × Nat × Nat)
  | r :: result, b :: bs, m :: modulus => do
    let accA ← checked64 (accA / 2 ^ 32 + a.toNat * b.toNat + r.toNat)
    let accB ← checked64 (accB / 2 ^ 32 + d0.toNat * m.toNat + (low accA).toNat)
    let (words, accs) ← mulAddLoopChecked a d0 accA accB result bs modulus
    some (low accB :: words, accs)
  | _, _, _ => some ([], accA, accB)

def montgomeryMulAddStepChecked (key : PublicKey) (result : List UInt32) (a : UInt32)
    (b : List UInt32) : Option (List UInt32) :=
  match result, b, key.modulus with
  | r :: result, b0 :: b, m :: modulus => do
    let accA ← checked64 (a.toNat * b0.toNat + r.toNat)
    let d0 := low accA * key.n0inv
    let accB ← checked64 (d0.toNat * m.toNat + (low accA).toNat)
    let (words, accA, accB) ← mulAddLoopChecked a d0 accA accB result b modulus
    let accA ← checked64 (accA / 2 ^ 32 + accB / 2 ^ 32)
    let result := words ++ [low accA]
    some (if accA / 2 ^ 32 ≠ 0 then subtractModulus 0 result key.modulus else result)
  | result, _, _ => some result

def montgomeryMulChecked (key : PublicKey) (a b : List UInt32) : Option (List UInt32) :=
  a.foldlM (fun result ai => montgomeryMulAddStepChecked key result ai b)
    (List.replicate key.len 0)

/-! ## No overflow -/

theorem uint64_lt (n : Nat) : uint64 n < 2 ^ 64 := Nat.mod_lt _ (by norm_num)

theorem checked64_of_uint64_eq (h : uint64 n = n) : checked64 n = some (uint64 n) := by
  rw [checked64, if_pos (h ▸ uint64_lt n), h]

theorem checked64_mul_add (hx : x < 2 ^ 32) (a b y : UInt32) :
    checked64 (x + a.toNat * b.toNat + y.toNat) =
      some (uint64 (x + a.toNat * b.toNat + y.toNat)) :=
  checked64_of_uint64_eq (uint64_mul_add hx y.toNat_lt a b)

theorem mulAddLoopChecked_eq (a d0 : UInt32) (hA : accA < 2 ^ 64) (hB : accB < 2 ^ 64)
    (result b modulus : List UInt32) : mulAddLoopChecked a d0 accA accB result b modulus =
      some (mulAddLoop a d0 accA accB result b modulus) := by
  induction result generalizing accA accB b modulus with
  | nil => rfl
  | cons r result ih =>
    cases b with
    | nil => rfl
    | cons b0 b =>
      cases modulus with
      | nil => rfl
      | cons m modulus =>
        simp only [mulAddLoopChecked, Option.bind_eq_bind,
          checked64_mul_add (show accA / 2 ^ 32 < 2 ^ 32 by omega),
          checked64_mul_add (show accB / 2 ^ 32 < 2 ^ 32 by omega), Option.bind_some,
          ih (uint64_lt _) (uint64_lt _)]
        rfl

theorem mulAddLoop_lt (a d0 : UInt32) (hA : accA < 2 ^ 64) (hB : accB < 2 ^ 64)
    (result b modulus : List UInt32) : (mulAddLoop a d0 accA accB result b modulus).2.1 < 2 ^ 64 ∧
      (mulAddLoop a d0 accA accB result b modulus).2.2 < 2 ^ 64 := by
  induction result generalizing accA accB b modulus with
  | nil => exact ⟨hA, hB⟩
  | cons r result ih =>
    cases b with
    | nil => exact ⟨hA, hB⟩
    | cons b0 b =>
      cases modulus with
      | nil => exact ⟨hA, hB⟩
      | cons m modulus => exact ih (uint64_lt _) (uint64_lt _) b modulus

theorem montgomeryMulAddStepChecked_eq (key : PublicKey) (result : List UInt32) (a : UInt32)
    (b : List UInt32) :
    montgomeryMulAddStepChecked key result a b = some (montgomeryMulAddStep key result a b) := by
  obtain ⟨len, n0inv, modulus, rr⟩ := key
  cases result with
  | nil => rfl
  | cons r result =>
    cases b with
    | nil => rfl
    | cons b0 b =>
      cases modulus with
      | nil => rfl
      | cons m modulus =>
        have hfirst (a b y : UInt32) : checked64 (a.toNat * b.toNat + y.toNat) =
            some (uint64 (a.toNat * b.toNat + y.toNat)) := by
          simpa using checked64_mul_add (x := 0) (by norm_num) a b y
        simp only [montgomeryMulAddStepChecked, montgomeryMulAddStep, hfirst, Option.bind_eq_bind,
          Option.bind_some, mulAddLoopChecked_eq _ _ (uint64_lt _) (uint64_lt _)]
        generalize hout : mulAddLoop _ _ _ _ result b modulus = out
        have hlt : out.2.1 < 2 ^ 64 ∧ out.2.2 < 2 ^ 64 :=
          hout ▸ mulAddLoop_lt _ _ (uint64_lt _) (uint64_lt _) result b modulus
        have hcarry : out.2.1 / 2 ^ 32 + out.2.2 / 2 ^ 32 < 2 ^ 64 := by omega
        rw [checked64_of_uint64_eq (Nat.mod_eq_of_lt hcarry), Option.bind_some]

theorem montgomeryMulChecked_eq (key : PublicKey) (a b : List UInt32) :
    montgomeryMulChecked key a b = some (montgomeryMul key a b) := by
  have hstep : (fun result ai => montgomeryMulAddStepChecked key result ai b) =
      fun result ai => pure (montgomeryMulAddStep key result ai b) :=
    funext fun result => funext fun ai => montgomeryMulAddStepChecked_eq key result ai b
  rw [montgomeryMulChecked, hstep, List.foldlM_pure]
  rfl

/-! ## The product -/

/-- No accumulator overflows, and the product is right modulo `N`. -/
theorem montgomeryMul_correct (key : PublicKey) (hkey : key.Invertible) (a b : List UInt32)
    (ha : a.length = key.len) (hb : b.length = key.len) :
    montgomeryMulChecked key a b = some (montgomeryMul key a b) ∧
      (montgomeryMul key a b).length = key.len ∧
      value (montgomeryMul key a b) < 2 ^ (32 * key.len) ∧
      value (montgomeryMul key a b) * 2 ^ (32 * key.len) ≡ value a * value b
        [MOD value key.modulus] := by
  obtain ⟨hlen, hprod⟩ := montgomeryMul_spec hkey ha hb
  refine ⟨montgomeryMulChecked_eq key a b, hlen, hprod.lt, ?_⟩
  rw [Nat.mul_comm]
  exact hprod.modEq

theorem montgomeryMul_correct_five :
    montgomeryMulChecked smallKey [5] [7] = some (montgomeryMul smallKey [5] [7]) ∧
      (montgomeryMul smallKey [5] [7]).length = smallKey.len ∧
      value (montgomeryMul smallKey [5] [7]) < 2 ^ (32 * smallKey.len) ∧
      value (montgomeryMul smallKey [5] [7]) * 2 ^ (32 * smallKey.len) ≡ value [5] * value [7]
        [MOD value smallKey.modulus] :=
  montgomeryMul_correct smallKey smallKey_valid.invertible [5] [7] rfl rfl

end UBoot.Rsa
