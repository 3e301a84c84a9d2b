import Mathlib

/-!
# RSA with the public exponent 65537

`lib/rsa/rsa-verify.c`: the exponentiation by Montgomery products over arrays of
32-bit words, lowest word first, and the check of a signature with a given key.
The loops over whole arrays walk the words in order. An index that leaves an array
gives `none`.
-/

namespace UBoot.Rsa

structure PublicKey where
  len : Nat
  n0inv : UInt32
  modulus : List UInt32
  rr : List UInt32

def low (acc : Nat) : UInt32 := UInt32.ofNat acc

def uint64 (n : Nat) : Nat := n % 2 ^ 64

def maxKeyWords : Nat := 2048 / 32

def eINVAL : Int := -22
def eACCES : Int := -13

def subtractModulus (acc : Int) : List UInt32 → List UInt32 → List UInt32
  | n :: num, m :: modulus =>
    let acc := acc + ((n.toNat : Int) - m.toNat)
    low (acc % 2 ^ 32).toNat :: subtractModulus (acc / 2 ^ 32) num modulus
  | _, _ => []

/-- The words from the index `i` down. The index is unsigned: `i >= 0` always holds,
and below 0 the loop goes on at `0xffffffff`. -/
def greaterEqualFrom (num modulus : List UInt32) : Nat → Option Bool
  | 0 => do
    let n ← num[0]?
    let m ← modulus[0]?
    if n < m then some false else if m < n then some true else none
  | i + 1 => do
    let n ← num[i + 1]?
    let m ← modulus[i + 1]?
    if n < m then some false else if m < n then some true else greaterEqualFrom num modulus i

def greaterEqualModulus (key : PublicKey) (num : List UInt32) : Option Bool :=
  greaterEqualFrom num key.modulus (key.len - 1)

/-- The loop of `montgomery_mul_add_step` from word 1 on: the words stored, and the
accumulators. -/
def mulAddLoop (a d0 : UInt32) (accA accB : Nat) :
    List UInt32 → List UInt32 → List UInt32 → List UInt32 × Nat × Nat
  | r :: result, b :: bs, m :: modulus =>
    let accA := uint64 (accA / 2 ^ 32 + a.toNat * b.toNat + r.toNat)
    let accB := uint64 (accB / 2 ^ 32 + d0.toNat * m.toNat + (low accA).toNat)
    let (words, accs) := mulAddLoop a d0 accA accB result bs modulus
    (low accB :: words, accs)
  | _, _, _ => ([], accA, accB)

def montgomeryMulAddStep (key : PublicKey) (result : List UInt32) (a : UInt32) (b : List UInt32) :
    List UInt32 :=
  match result, b, key.modulus with
  | r :: result, b0 :: b, m :: modulus =>
    let accA := uint64 (a.toNat * b0.toNat + r.toNat)
    let d0 := low accA * key.n0inv
    let accB := uint64 (d0.toNat * m.toNat + (low accA).toNat)
    let (words, accA, accB) := mulAddLoop a d0 accA accB result b modulus
    let accA := uint64 (accA / 2 ^ 32 + accB / 2 ^ 32)
    let result := words ++ [low accA]
    if accA / 2 ^ 32 ≠ 0 then subtractModulus 0 result key.modulus else result
  | result, _, _ => result

def montgomeryMul (key : PublicKey) (a b : List UInt32) : List UInt32 :=
  a.foldl (fun result ai => montgomeryMulAddStep key result ai b) (List.replicate key.len 0)

def getBe32 : List UInt8 → List UInt32
  | b0 :: b1 :: b2 :: b3 :: bytes =>
    UInt32.ofNat (Nat.ofDigits 256 [b3.toNat, b2.toNat, b1.toNat, b0.toNat]) :: getBe32 bytes
  | _ => []

def putBe32 (w : UInt32) : List UInt8 :=
  [UInt8.ofNat (w.toNat / 2 ^ 24), UInt8.ofNat (w.toNat / 2 ^ 16), UInt8.ofNat (w.toNat / 2 ^ 8),
    UInt8.ofNat w.toNat]

def squareTwice (key : PublicKey) (acc : List UInt32) : List UInt32 :=
  let tmp := montgomeryMul key acc acc
  montgomeryMul key tmp tmp

def powUnreduced (key : PublicKey) (val : List UInt32) : List UInt32 :=
  montgomeryMul key ((squareTwice key)^[8] (montgomeryMul key val key.rr)) val

/-- The value returned, and the bytes at `inout` afterwards. -/
def powMod (key : PublicKey) (inout : List UInt8) : Option (Int × List UInt8) :=
  if maxKeyWords < key.len then some (eINVAL, inout)
  else do
    let result := powUnreduced key (getBe32 inout).reverse
    let result :=
      if ← greaterEqualModulus key result then subtractModulus 0 result key.modulus else result
    some (0, result.reverse.flatMap putBe32)

def padding : List UInt8 :=
  [0x00, 0x01] ++ List.replicate 218 0xff ++
    [0x00, 0x30, 0x21, 0x30, 0x09, 0x06, 0x05, 0x2b, 0x0e, 0x03, 0x02, 0x1a, 0x05, 0x00, 0x04, 0x14]

def rsaVerifyKey (key : PublicKey) (sig hash : List UInt8) : Option Int :=
  if sig.length ≠ key.len * 4 then some eINVAL
  else if 2048 / 8 < sig.length then some eINVAL
  else do
    let (ret, buf) ← powMod key sig
    if ret ≠ 0 then some ret
    else if buf.length < padding.length then none
    else if buf.take padding.length ≠ padding then some eINVAL
    else if hash.length < sig.length - padding.length then none
    else if buf.drop padding.length ≠ hash.take (sig.length - padding.length) then some eACCES
    else some 0

end UBoot.Rsa
