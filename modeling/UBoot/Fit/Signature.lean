import UBoot.Fdt.Regions
import UBoot.Rsa.PowMod

/-!
# Signatures in FIT images

`common/image-sig.c` and `rsa_verify` of `lib/rsa/rsa-verify.c`. SHA-1 and the check
with a given key are parameters. The control tree of U-Boot is both the tree that
is searched for required keys and the one that keys are taken from. `none` stands
for a call that does not return or leaves an array.
-/

namespace UBoot.Fit

open ForEach Libfdt
open Rsa (PublicKey getBe32)

structure Crypto where
  sha1 : List UInt8 → List UInt8
  /-- The key, the signature with its length, and the hash. -/
  rsaVerifyKey : PublicKey → List UInt8 → Nat → List UInt8 → Int

def ePERM : Int := -1
def eNOENT : Int := -2
def eBADF : Int := -9
def eFAULT : Int := -14

def fitSigNodename : List UInt8 := ascii "signature"

def rsaMinKeyBits : Nat := 2048
def rsaMaxKeyBits : Nat := 2048

/-! ## rsa_verify -/

def rsaConvertBigEndian (src : List UInt8) (len : Nat) : List UInt32 :=
  (getBe32 (src.take (4 * len))).reverse

section
variable (c : Crypto) (blob fit : Fdt)

def rsaKey (node : Nat) : Option (Except Int PublicKey) := do
  match ← fdtGetprop blob node (ascii "rsa,n0-inverse") with
  | none => some (.error eFAULT)
  | some _ =>
    let len ← fdtdecGetInt blob node (ascii "rsa,num-bits") 0
    let n0inv ← fdtdecGetInt blob node (ascii "rsa,n0-inverse") 0
    match ← fdtGetprop blob node (ascii "rsa,modulus"),
        ← fdtGetprop blob node (ascii "rsa,r-squared") with
    | some (modulus, _), some (rr, _) =>
      if len = 0 then some (.error eFAULT)
      else if rsaMaxKeyBits < len ∨ len < rsaMinKeyBits then some (.error eFAULT)
      else
        let len := len / 32
        some (.ok
          { len := len, n0inv := UInt32.ofNat n0inv
            modulus := rsaConvertBigEndian (blob.ptr modulus) len
            rr := rsaConvertBigEndian (blob.ptr rr) len })
    | _, _ => some (.error eFAULT)

structure Signed where
  hash : List UInt8
  sig : List UInt8
  sigLen : Nat

def rsaVerifyWithKeynode (s : Signed) (node : Except FdtErr Nat) : Option Int :=
  match node with
  | .error _ => some eBADF
  | .ok node => do
    match ← rsaKey blob node with
    | .error e => some e
    | .ok key => some (c.rsaVerifyKey key s.sig s.sigLen s.hash)

def hintName (keyname : Option (List UInt8)) : List UInt8 :=
  (ascii "key-" ++ keyname.getD (ascii "<NULL>")).take 99

/-- `fdt_next_node(info->fit, ...)`: the next node below the depth at the start, and its
depth. The nodes are those of the FIT, not of the control tree. -/
def nextKey (place : Nat × Int) : Option (Option (Nat × Int)) :=
  match fdtNextNode fit place.1 place.2 with
  | none => none
  | some (.error _, _) => some none
  | some (.ok noffset, depth) => some (if 0 < depth then some (noffset, depth) else none)

/-- The key named by the hint has failed with `ret`: each of the keys in turn. -/
def tryKeys (s : Signed) (sigNode : Nat) (node : Except FdtErr Nat) (ret : Int) : Option Int := do
  let first ← nextKey fit (sigNode, 0)
  match ← forEach (nextKey fit)
      (fun ret (key : Nat × Int) =>
        if key.2 = 1 ∧ node ≠ .ok key.1 then do
          let ret ← rsaVerifyWithKeynode c blob s (.ok key.1)
          some (if ret = 0 then .inr () else .inl ret)
        else some (.inl ret))
      fit.rounds ret first with
  | .inl ret => some ret
  | .inr () => some 0

/-- The key that must be used, if there is one: `required_keynode` is `none` for -1. -/
def tryRequired (s : Signed) : Option Nat → Option Int
  | some key => rsaVerifyWithKeynode c blob s (.ok key)
  | none => some ePERM

def rsaVerify (requiredKeynode : Option Nat) (keyname : Option (List UInt8))
    (regions : List (List UInt8)) (sig : List UInt8) (sigLen : Nat) : Option Int := do
  match ← fdtSubnodeOffset blob 0 fitSigNodename with
  | .error _ => some eNOENT
  | .ok sigNode =>
    let s : Signed := ⟨c.sha1 regions.flatten, sig, sigLen⟩
    let required ← tryRequired c blob s requiredKeynode
    if required = 0 then some 0
    else
      let node ← fdtSubnodeOffset blob sigNode (hintName keyname)
      let ret ← rsaVerifyWithKeynode c blob s node
      if ret = 0 then some 0 else tryKeys c blob fit s sigNode node ret

/-! ## Signatures of images -/

def fitImageSetupVerify (noffset : Nat) : Option (Except String (Option (List UInt8))) := do
  match ← fdtGetprop fit noffset (ascii "algo") with
  | none => some (.error "Can't get hash algo property")
  | some (algo, _) =>
    let keyname ← fdtGetprop fit noffset (ascii "key-name-hint")
    if cstring (fit.ptr algo) = ascii "sha1,rsa2048" then
      some (.ok (keyname.map fun hint => cstring (fit.ptr hint.1)))
    else some (.error "Unknown signature algorithm")

/-- `info.algo->verify`, and what is made of its result. -/
def verifyRegions (requiredKeynode : Option Nat) (keyname : Option (List UInt8))
    (regions : List (List UInt8)) (value : Nat × Nat) : Option (Except String Unit) := do
  let ret ← rsaVerify c blob fit requiredKeynode keyname regions
    ((fit.ptr value.1).take value.2) value.2
  some (if ret = 0 then .ok () else .error "Verification failed")

def fitImageCheckSig (noffset : Nat) (data : List UInt8) (requiredKeynode : Option Nat) :
    Option (Except String Unit) := do
  match ← fitImageSetupVerify fit noffset with
  | .error msg => some (.error msg)
  | .ok keyname =>
    match ← fdtGetprop fit noffset (ascii "value") with
    | none => some (.error "Can't get hash value property")
    | some value => verifyRegions c blob fit requiredKeynode keyname [data] value

/-- The loops of `fit_image_verify_sig` and `fit_config_verify_sig`: the first signature
below a node that a check accepts. `fdt_next_subnode` gives no error other than
`FDT_ERR_NOTFOUND`, so that the tree is never found to be corrupted. -/
def verifySig (check : Nat → Option (Except String Unit)) (parent : Nat) : Option Int := do
  let first ← fdtFirstSubnode fit parent
  match ← forEach (fdtNextSubnode fit)
      (fun _ noffset =>
        if (fdtGetName fit noffset).take fitSigNodename.length = fitSigNodename then do
          match ← check noffset with
          | .ok () => some (.inr ())
          | .error _ => some (.inl ())
        else some (.inl ()))
      fit.rounds () first with
  | .inl () => some ePERM
  | .inr () => some 0

def fitImageVerifySig (imageNoffset : Nat) (data : List UInt8) (_sigOffset : Nat) : Option Int :=
  verifySig fit (fun noffset => fitImageCheckSig c blob fit noffset data none) imageNoffset

/-- The value of the property `required` is the given text. -/
def isRequired (usage : List UInt8) (noffset : Nat) : Option Bool := do
  let required ← fdtGetprop blob noffset (ascii "required")
  some (required.any fun value => cstring (blob.ptr value.1) = usage)

def verifyRequired (usage : List UInt8) (verify : Nat → Option Int) : Option (Int × Nat) := do
  match ← fdtSubnodeOffset blob 0 fitSigNodename with
  | .error _ => some (0, 0)
  | .ok sigNode =>
    let first ← fdtFirstSubnode blob sigNode
    match ← forEach (fdtNextSubnode blob)
        (fun verifyCount noffset => do
          if ← isRequired blob usage noffset then
            let ret ← verify noffset
            some (if ret ≠ 0 then .inr ret else .inl (verifyCount + 1))
          else some (.inl verifyCount))
        blob.rounds 0 first with
    | .inl verifyCount => some (0, verifyCount)
    | .inr ret => some (ret, 0)

def fitImageVerifyRequiredSigs (imageNoffset : Nat) (data : List UInt8) : Option (Int × Nat) := do
  let (ret, verifyCount) ← verifyRequired blob (ascii "image")
    (fitImageVerifySig c blob fit imageNoffset data)
  some (ret, if verifyCount ≠ 0 then 0 else 1)

/-! ## Signatures of configurations -/

def imageMaxHashedNodes : Nat := 100

def texts : List UInt8 → List (List UInt8)
  | [] => []
  | b :: bytes =>
    if b = 0 then [] :: texts bytes
    else
      match texts bytes with
      | [] => [[b]]
      | s :: rest => (b :: s) :: rest

/-- The bytes that a signature node of a configuration covers. The array for the names
of the nodes has room for those that are ended. -/
def hashedRegions (noffset : Nat) : Option (Except String (List (List UInt8))) := do
  let prop ← fdtGetprop fit noffset (ascii "hashed-nodes")
  let bytes := (prop.map fun value => (fit.ptr value.1).take value.2).getD []
  let count := bytes.count 0
  if count = 0 then some (.error "Can't get hashed-nodes property")
  else if imageMaxHashedNodes < count then
    some (.error "Number of hashed nodes exceeds maximum")
  else if (texts bytes).length ≠ count then none
  else
    let maxRegions := 20 + count * 7
    match ← fdtFindRegions fit (texts bytes) [ascii "data"] (maxRegions - 1) 200 with
    | .error _ => some (.error "Failed to hash configuration")
    | .ok regions =>
      if regions.length = 0 then some (.error "No data to hash")
      else if maxRegions - 1 ≤ regions.length then some (.error "Too many hash regions")
      else
        let parts := regions.map fun region => (fit.ptr region.1).take region.2
        match ← fdtGetprop fit noffset (ascii "hashed-strings") with
        | none => some (.ok parts)
        | some (strings, _) =>
          let offset := (fit.offDtStrings + be32 (fit.ptr strings)) % 2 ^ 32
          let size := be32 (fit.ptr (strings + 4))
          some (.ok (parts ++ [(fit.blob.drop offset).take size]))

def fitConfigCheckSig (noffset : Nat) (requiredKeynode : Option Nat) :
    Option (Except String Unit) := do
  match ← fitImageSetupVerify fit noffset with
  | .error msg => some (.error msg)
  | .ok keyname =>
    match ← fdtGetprop fit noffset (ascii "value") with
    | none => some (.error "Can't get hash value property")
    | some value =>
      match ← hashedRegions fit noffset with
      | .error msg => some (.error msg)
      | .ok regions => verifyRegions c blob fit requiredKeynode keyname regions value

def fitConfigVerifySig (confNoffset sigOffset : Nat) : Option Int :=
  verifySig fit (fun noffset => fitConfigCheckSig c blob fit noffset (some sigOffset)) confNoffset

def fitConfigVerifyRequiredSigs (confNoffset : Nat) : Option Int := do
  let (ret, _) ← verifyRequired blob (ascii "conf") (fitConfigVerifySig c blob fit confNoffset)
  some ret

end

end UBoot.Fit
