import UBoot.Fit.Signature

/-!
# Required keys

A key that is required should have signed. `fit_image_verify_sig` does not hand on the
required key, and `rsa_verify` goes on to other keys when it fails, so that one of the keys
tried has to verify a signature.
-/

namespace UBoot.Fit

open ForEach Libfdt Option

variable {c : Crypto} {blob fit : Fdt}

def IsSubnode (fdt : Fdt) (parent node : Nat) : Prop :=
  ∃ first, fdtFirstSubnode fdt parent = some first ∧ Visits (fdtNextSubnode fdt) first node

def IsSignature (fit : Fdt) (parent node : Nat) : Prop :=
  IsSubnode fit parent node ∧
    (fdtGetName fit node).take fitSigNodename.length = fitSigNodename

def IsRequiredKey (blob : Fdt) (usage : List UInt8) (key : Nat) : Prop :=
  ∃ sigNode, fdtSubnodeOffset blob 0 fitSigNodename = some (.ok sigNode) ∧
    IsSubnode blob sigNode key ∧ isRequired blob usage key = some true

def Tried (blob fit : Fdt) (requiredKeynode : Option Nat) (keyname : Option (List UInt8))
    (key : Nat) : Prop :=
  ∃ sigNode, fdtSubnodeOffset blob 0 fitSigNodename = some (.ok sigNode) ∧
    (requiredKeynode = some key ∨
      fdtSubnodeOffset blob sigNode (hintName keyname) = some (.ok key) ∨
      ∃ first, nextKey fit (sigNode, 0) = some first ∧ Visits (nextKey fit) first (key, 1))

/-! ## rsa_verify -/

theorem tryKeys_eq_zero (hret : ret ≠ 0) (h : tryKeys c blob fit s sigNode node ret = some 0) :
    ∃ first key, nextKey fit (sigNode, 0) = some first ∧ Visits (nextKey fit) first (key, 1) ∧
      rsaVerifyWithKeynode c blob s (.ok key) = some 0 := by
  simp only [tryKeys, bind_eq_bind, bind_eq_some_iff] at h
  obtain ⟨first, hfirst, out, hloop, hout⟩ := h
  cases out with
  | inl ret' =>
    obtain rfl : ret' = 0 := some.inj hout
    refine absurd rfl (forEach_invariant (P := (· ≠ 0)) ?_ hret hloop)
    rintro ret₁ key ret₂ hret₁ hbody
    split at hbody
    · simp only [bind_eq_some_iff] at hbody
      obtain ⟨ret₃, -, hbody⟩ := hbody
      split at hbody
      · cases hbody
      · cases hbody
        assumption
    · cases hbody
      exact hret₁
  | inr _ =>
    obtain ⟨⟨key, depth⟩, ret', hvisits, hbody⟩ := forEach_inr hloop
    dsimp only at hbody
    split at hbody
    · rename_i hkey
      simp only [bind_eq_some_iff] at hbody
      obtain ⟨ret₁, hverify, hbody⟩ := hbody
      split at hbody
      · rename_i hzero
        obtain rfl : depth = 1 := hkey.1
        exact ⟨first, key, hfirst, hvisits, hzero ▸ hverify⟩
      · cases hbody
    · cases hbody

theorem tryKeys_ne_zero (h : tryKeys c blob fit s sigNode node ret = some r) (hr : r ≠ 0)
    (hfirst : nextKey fit (sigNode, 0) = some first) (hvisits : Visits (nextKey fit) first (key, 1))
    (hnode : node ≠ .ok key) : rsaVerifyWithKeynode c blob s (.ok key) ≠ some 0 := by
  simp only [tryKeys, hfirst, bind_eq_bind, bind_some, bind_eq_some_iff] at h
  obtain ⟨out, hloop, hout⟩ := h
  cases out with
  | inr _ => exact absurd (some.inj hout).symm hr
  | inl ret' =>
    intro hverify
    obtain ⟨ret₁, ret₂, hbody⟩ := forEach_inl hloop _ hvisits
    simp [hnode, hverify] at hbody

theorem rsaVerify_eq_zero_iff
    (h : rsaVerify c blob fit requiredKeynode keyname regions sig sigLen = some ret) :
    ret = 0 ↔ ∃ key, Tried blob fit requiredKeynode keyname key ∧
      rsaVerifyWithKeynode c blob ⟨c.sha1 regions.flatten, sig, sigLen⟩ (.ok key) = some 0 := by
  simp only [rsaVerify, bind_eq_bind, bind_eq_some_iff] at h
  obtain ⟨sigNode, hsig, h⟩ := h
  cases sigNode with
  | error e =>
    obtain rfl := (some.inj h).symm
    refine ⟨fun hzero => absurd hzero (by decide), ?_⟩
    rintro ⟨key, ⟨sigNode, hsig', -⟩, -⟩
    rw [hsig] at hsig'
    cases hsig'
  | ok sigNode =>
    simp only [bind_eq_some_iff] at h
    obtain ⟨required, hrequired, h⟩ := h
    generalize hsigned : (⟨c.sha1 regions.flatten, sig, sigLen⟩ : Signed) = s at *
    -- the keys that are tried, in their order
    split at h
    · rename_i hzero
      subst hzero
      obtain rfl := (some.inj h).symm
      refine ⟨fun _ => ?_, fun _ => rfl⟩
      cases requiredKeynode with
      | none => cases hrequired
      | some key => exact ⟨key, ⟨sigNode, hsig, .inl rfl⟩, hrequired⟩
    · rename_i hne
      simp only [bind_eq_some_iff] at h
      obtain ⟨node, hnode, hint, hhint, h⟩ := h
      split at h
      · rename_i hzero
        subst hzero
        obtain rfl := (some.inj h).symm
        refine ⟨fun _ => ?_, fun _ => rfl⟩
        cases node with
        | error e => cases hhint
        | ok key => exact ⟨key, ⟨sigNode, hsig, .inr (.inl hnode)⟩, hhint⟩
      · rename_i hhint_ne
        constructor
        · rintro rfl
          obtain ⟨first, key, hfirst, hvisits, hverify⟩ := tryKeys_eq_zero hhint_ne h
          exact ⟨key, ⟨sigNode, hsig, .inr (.inr ⟨first, hfirst, hvisits⟩)⟩, hverify⟩
        · rintro ⟨key, ⟨sigNode', hsig', htried⟩, hverify⟩
          rw [hsig] at hsig'
          cases hsig'
          by_contra hret
          obtain rfl | hkey | ⟨first, hfirst, hvisits⟩ := htried
          · rw [tryRequired, hverify] at hrequired
            exact hne (some.inj hrequired).symm
          · rw [hnode] at hkey
            cases hkey
            rw [hverify] at hhint
            exact hhint_ne (some.inj hhint).symm
          · by_cases hsame : node = .ok key
            · rw [hsame, hverify] at hhint
              exact hhint_ne (some.inj hhint).symm
            · exact tryKeys_ne_zero h hret hfirst hvisits hsame hverify

/-! ## One signature -/

/-- What a signature node says, before a key is tried: the name of the key, the bytes
signed, and the place and length of the value. -/
structure Claimed where
  keyname : Option (List UInt8)
  regions : List (List UInt8)
  value : Nat × Nat

def Claimed.signed (c : Crypto) (fit : Fdt) (a : Claimed) : Signed :=
  ⟨c.sha1 a.regions.flatten, (fit.ptr a.value.1).take a.value.2, a.value.2⟩

def claimed (fit : Fdt) (regions : Option (Except String (List (List UInt8)))) (node : Nat) :
    Option (Except String Claimed) := do
  match ← fitImageSetupVerify fit node with
  | .error msg => some (.error msg)
  | .ok keyname =>
    match ← fdtGetprop fit node (ascii "value") with
    | none => some (.error "Can't get hash value property")
    | some value =>
      match ← regions with
      | .error msg => some (.error msg)
      | .ok regions => some (.ok ⟨keyname, regions, value⟩)

def claimedImage (fit : Fdt) (data : List UInt8) (node : Nat) : Option (Except String Claimed) :=
  claimed fit (some (.ok [data])) node

def claimedConfig (fit : Fdt) (node : Nat) : Option (Except String Claimed) :=
  claimed fit (hashedRegions fit node) node

def checkClaimed (c : Crypto) (blob fit : Fdt) (requiredKeynode : Option Nat) :
    Option (Except String Claimed) → Option (Except String Unit)
  | none => none
  | some (.error msg) => some (.error msg)
  | some (.ok a) => verifyRegions c blob fit requiredKeynode a.keyname a.regions a.value

theorem fitImageCheckSig_eq (node : Nat) (data : List UInt8) (requiredKeynode : Option Nat) :
    fitImageCheckSig c blob fit node data requiredKeynode =
      checkClaimed c blob fit requiredKeynode (claimedImage fit data node) := by
  rw [fitImageCheckSig, claimedImage, claimed]
  cases fitImageSetupVerify fit node with
  | none => rfl
  | some setup =>
    cases setup with
    | error msg => rfl
    | ok keyname =>
      dsimp only [bind_eq_bind, bind_some]
      cases fdtGetprop fit node (ascii "value") with
      | none => rfl
      | some value => cases value <;> rfl

theorem fitConfigCheckSig_eq (node : Nat) (requiredKeynode : Option Nat) :
    fitConfigCheckSig c blob fit node requiredKeynode =
      checkClaimed c blob fit requiredKeynode (claimedConfig fit node) := by
  rw [fitConfigCheckSig, claimedConfig, claimed]
  cases fitImageSetupVerify fit node with
  | none => rfl
  | some setup =>
    cases setup with
    | error msg => rfl
    | ok keyname =>
      dsimp only [bind_eq_bind, bind_some]
      cases fdtGetprop fit node (ascii "value") with
      | none => rfl
      | some value =>
        cases value with
        | none => rfl
        | some value =>
          dsimp only [bind_some]
          cases hashedRegions fit node with
          | none => rfl
          | some regions => cases regions <;> rfl

def Verifies (c : Crypto) (blob fit : Fdt) (a : Claimed) (key : Nat) : Prop :=
  rsaVerifyWithKeynode c blob (a.signed c fit) (.ok key) = some 0

theorem checkClaimed_ok_iff (h : checkClaimed c blob fit requiredKeynode attempt = some out) :
    out = .ok () ↔ ∃ a key, attempt = some (.ok a) ∧ Tried blob fit requiredKeynode a.keyname key ∧
      Verifies c blob fit a key := by
  cases attempt with
  | none => cases h
  | some attempt =>
    cases attempt with
    | error msg =>
      cases h
      simp
    | ok a =>
      simp only [checkClaimed, verifyRegions, bind_eq_bind, bind_eq_some_iff] at h
      obtain ⟨ret, hverify, hout⟩ := h
      have hiff := rsaVerify_eq_zero_iff hverify
      constructor
      · rintro rfl
        have hzero : ret = 0 := by
          by_contra hne
          simp [hne] at hout
        obtain ⟨key, htried, hkey⟩ := hiff.mp hzero
        exact ⟨a, key, rfl, htried, hkey⟩
      · rintro ⟨a', key, ha, htried, hkey⟩
        cases ha
        rw [if_pos (hiff.mpr ⟨key, htried, hkey⟩)] at hout
        exact (some.inj hout).symm

/-! ## All signatures, and all required keys -/

theorem verifySig_spec (h : verifySig fit check parent = some ret) :
    (ret = 0 ∧ ∃ node, IsSignature fit parent node ∧ check node = some (.ok ())) ∨
      (ret ≠ 0 ∧ ∀ node, IsSignature fit parent node → ∃ msg, check node = some (.error msg)) := by
  simp only [verifySig, bind_eq_bind, bind_eq_some_iff] at h
  obtain ⟨first, hfirst, out, hloop, hout⟩ := h
  cases out with
  | inl _ =>
    obtain rfl := (some.inj hout).symm
    refine .inr ⟨by decide, ?_⟩
    rintro node ⟨⟨first', hfirst', hvisits⟩, hname⟩
    rw [hfirst] at hfirst'
    cases hfirst'
    obtain ⟨_, _, hbody⟩ := forEach_inl hloop node hvisits
    simp only [if_pos hname, bind_eq_some_iff] at hbody
    obtain ⟨result, hcheck, hbody⟩ := hbody
    cases result with
    | ok _ => cases hbody
    | error msg => exact ⟨msg, hcheck⟩
  | inr _ =>
    obtain rfl := (some.inj hout).symm
    obtain ⟨node, _, hvisits, hbody⟩ := forEach_inr hloop
    split at hbody
    · rename_i hname
      refine .inl ⟨rfl, node, ⟨⟨first, hfirst, hvisits⟩, hname⟩, ?_⟩
      simp only [bind_eq_some_iff] at hbody
      obtain ⟨result, hcheck, hbody⟩ := hbody
      cases result with
      | ok _ => exact hcheck
      | error msg => cases hbody
    · cases hbody

theorem verifyRequired_spec (h : verifyRequired blob usage verify = some (ret, count)) :
    (ret = 0 ∧ ∀ key, IsRequiredKey blob usage key → verify key = some 0) ∨
      (ret ≠ 0 ∧ ∃ key, IsRequiredKey blob usage key ∧ verify key = some ret) := by
  simp only [verifyRequired, bind_eq_bind, bind_eq_some_iff] at h
  obtain ⟨sigNode, hsig, h⟩ := h
  cases sigNode with
  | error e =>
    cases h
    refine .inl ⟨rfl, fun key ⟨sigNode, hsig', _⟩ => ?_⟩
    rw [hsig] at hsig'
    cases hsig'
  | ok sigNode =>
    simp only [bind_eq_some_iff] at h
    obtain ⟨first, hfirst, out, hloop, hout⟩ := h
    cases out with
    | inl verifyCount =>
      cases hout
      refine .inl ⟨rfl, fun key ⟨sigNode', hsig', ⟨first', hfirst', hvisits⟩, hrequired⟩ => ?_⟩
      rw [hsig] at hsig'
      cases hsig'
      rw [hfirst] at hfirst'
      cases hfirst'
      obtain ⟨_, _, hbody⟩ := forEach_inl hloop key hvisits
      simp only [hrequired, bind_some, if_true, bind_eq_some_iff] at hbody
      obtain ⟨ret, hverify, hbody⟩ := hbody
      by_cases hret : ret = 0
      · exact hret ▸ hverify
      · simp [hret] at hbody
    | inr ret' =>
      cases hout
      obtain ⟨key, _, hvisits, hbody⟩ := forEach_inr hloop
      simp only [bind_eq_some_iff] at hbody
      obtain ⟨required, hrequired, hbody⟩ := hbody
      cases required with
      | false => simp at hbody
      | true =>
        simp only [if_true, bind_eq_some_iff] at hbody
        obtain ⟨ret, hverify, hbody⟩ := hbody
        have hret : ret ≠ 0 := by
          rintro rfl
          simp at hbody
        rw [if_pos hret] at hbody
        cases hbody
        exact .inr ⟨hret, key, ⟨sigNode, hsig, ⟨first, hfirst, hvisits⟩, hrequired⟩, hverify⟩

/-! ## What is enforced -/

def Enforced (c : Crypto) (blob fit : Fdt) (said : Nat → Option (Except String Claimed))
    (parent key : Nat) : Prop :=
  ∃ node a, IsSignature fit parent node ∧ said node = some (.ok a) ∧ Verifies c blob fit a key

/-- A signature below the node verifies under one of the keys that are tried when
`requiredKeynode` is handed to `rsa_verify`. -/
def SomeKeyVerifies (c : Crypto) (blob fit : Fdt) (said : Nat → Option (Except String Claimed))
    (parent : Nat) (requiredKeynode : Option Nat) : Prop :=
  ∃ node a key, IsSignature fit parent node ∧ said node = some (.ok a) ∧
    Tried blob fit requiredKeynode a.keyname key ∧ Verifies c blob fit a key

section
variable {said : Nat → Option (Except String Claimed)} {handed : Nat → Option Nat}

theorem verifyRequired_eq_zero_iff
    (h : verifyRequired blob usage (fun key => verifySig fit
      (fun node => checkClaimed c blob fit (handed key) (said node)) parent) = some (ret, count)) :
    ret = 0 ↔ ∀ key, IsRequiredKey blob usage key →
      SomeKeyVerifies c blob fit said parent (handed key) := by
  obtain ⟨rfl, hall⟩ | ⟨hret, key, hkey, hverify⟩ := verifyRequired_spec h
  · refine ⟨fun _ key hkey => ?_, fun _ => rfl⟩
    obtain ⟨-, node, hnode, hcheck⟩ | ⟨hne, -⟩ := verifySig_spec (hall key hkey)
    · obtain ⟨a, key', ha, htried, hverifies⟩ := (checkClaimed_ok_iff hcheck).mp rfl
      exact ⟨node, a, key', hnode, ha, htried, hverifies⟩
    · exact absurd rfl hne
  · refine ⟨fun hzero => absurd hzero hret, fun hall => ?_⟩
    obtain ⟨node, a, key', hnode, ha, htried, hverifies⟩ := hall key hkey
    obtain ⟨hzero, -⟩ | ⟨-, hrejects⟩ := verifySig_spec hverify
    · exact hzero
    · obtain ⟨msg, hcheck⟩ := hrejects node hnode
      have hok := (checkClaimed_ok_iff hcheck).mpr ⟨a, key', ha, htried, hverifies⟩
      cases hok

theorem enforced_iff (hanswer : answer = verifyRequired blob usage (fun key => verifySig fit
      (fun node => checkClaimed c blob fit (handed key) (said node)) parent)) :
    ((∃ count, answer = some (0, count)) →
        ∀ key, IsRequiredKey blob usage key → Enforced c blob fit said parent key) ↔
      (answer.isSome → (∀ key, IsRequiredKey blob usage key →
          SomeKeyVerifies c blob fit said parent (handed key)) →
        ∀ key, IsRequiredKey blob usage key → Enforced c blob fit said parent key) := by
  constructor
  · intro h hsome hall
    obtain ⟨⟨ret, count⟩, hret⟩ := isSome_iff_exists.mp hsome
    obtain rfl := (verifyRequired_eq_zero_iff (hanswer ▸ hret)).mpr hall
    exact h ⟨count, hret⟩
  · rintro h ⟨count, hret⟩
    exact h (hret ▸ rfl) ((verifyRequired_eq_zero_iff (hanswer ▸ hret)).mp rfl)

end

theorem fitImageVerifyRequiredSigs_eq (c : Crypto) (blob fit : Fdt) (imageNoffset : Nat)
    (data : List UInt8) :
    fitImageVerifyRequiredSigs c blob fit imageNoffset data =
      (verifyRequired blob (ascii "image") (fun _ => verifySig fit
        (fun node => checkClaimed c blob fit none (claimedImage fit data node)) imageNoffset)).map
        fun answer => (answer.1, if answer.2 ≠ 0 then 0 else 1) := by
  have hverify : fitImageVerifySig c blob fit imageNoffset data = fun _ => verifySig fit
      (fun node => checkClaimed c blob fit none (claimedImage fit data node)) imageNoffset := by
    funext key
    simp [fitImageVerifySig, fitImageCheckSig_eq]
  rw [fitImageVerifyRequiredSigs, hverify]
  cases verifyRequired blob _ _ <;> rfl

theorem fitConfigVerifyRequiredSigs_eq (c : Crypto) (blob fit : Fdt) (confNoffset : Nat) :
    fitConfigVerifyRequiredSigs c blob fit confNoffset =
      (verifyRequired blob (ascii "conf") (fun key => verifySig fit
        (fun node => checkClaimed c blob fit (some key) (claimedConfig fit node)) confNoffset)).map
        Prod.fst := by
  have hverify : fitConfigVerifySig c blob fit confNoffset = fun key => verifySig fit
      (fun node => checkClaimed c blob fit (some key) (claimedConfig fit node)) confNoffset := by
    funext key
    simp [fitConfigVerifySig, fitConfigCheckSig_eq]
  rw [fitConfigVerifyRequiredSigs, hverify]
  cases verifyRequired blob _ _ <;> rfl

def keyNode (name : String) (required : List String) (n0inv : Nat) : List UInt8 :=
  let prop := propBytes ["required", "rsa,num-bits", "rsa,n0-inverse", "rsa,modulus",
    "rsa,r-squared"]
  nodeBytes name ((required.map fun usage => prop "required" (text usage)) ++
    [prop "rsa,num-bits" (cell 2048), prop "rsa,n0-inverse" (cell n0inv), prop "rsa,modulus" [],
      prop "rsa,r-squared" []])

def twoKeys (usage : String) : Fdt :=
  Fdt.ofRoot ["required", "rsa,num-bits", "rsa,n0-inverse", "rsa,modulus", "rsa,r-squared"]
    (nodeBytes "" [nodeBytes "signature" [keyNode "key-a" [usage] 1, keyNode "key-b" [] 2]])

def signedByB : Fdt :=
  let names := ["algo", "key-name-hint", "value", "hashed-nodes"]
  let prop := propBytes names
  let signature := [prop "algo" (text "sha1,rsa2048"), prop "key-name-hint" (text "b"),
    prop "value" [0x55], prop "hashed-nodes" (text "/conf")]
  Fdt.ofRoot names (nodeBytes "" [nodeBytes "kernel" [nodeBytes "signature@1" signature],
    nodeBytes "conf" [nodeBytes "signature@1" signature]])

def onlyB : Crypto where
  sha1 _ := []
  rsaVerifyKey key _ _ _ := if key.n0inv = 2 then 0 else -13

theorem not_verifies_onlyB (hkey : (rsaKey blob key).map (·.toOption.map (·.n0inv)) = some (some 1))
    (a : Claimed) : ¬ Verifies onlyB blob fit a key := by
  intro h
  cases hrsa : rsaKey blob key with
  | none => simp [hrsa] at hkey
  | some found =>
    cases found with
    | error e => simp [hrsa, Except.toOption] at hkey
    | ok k =>
      have hn0inv : k.n0inv = 1 := by simpa [hrsa, Except.toOption] using hkey
      simp [Verifies, rsaVerifyWithKeynode, hrsa, onlyB, hn0inv] at h

end UBoot.Fit
