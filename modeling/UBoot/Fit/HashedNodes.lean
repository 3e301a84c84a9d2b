import UBoot.Fdt.RegionsCover
import UBoot.Fit.RequiredKeys

/-!
# What the signature of a configuration covers

The nodes that are hashed are those that the signature node itself lists, and the
part of the string table is the one that it names. So a signature that is accepted
covers the properties of the nodes that it lists, and says nothing about others, such
as the configuration that it is in.
-/

namespace UBoot.Fit

open Libfdt Option

variable {c : Crypto} {blob fit : Fdt}

def hashedNodes (fit : Fdt) (node : Nat) : List (List UInt8) :=
  match fdtGetprop fit node (ascii "hashed-nodes") with
  | some (some (nodes, len)) => texts ((fit.ptr nodes).take len)
  | _ => []

def hashedStrings (fit : Fdt) (node : Nat) : List UInt8 :=
  match fdtGetprop fit node (ascii "hashed-strings") with
  | some (some (strings, _)) =>
    (fit.blob.drop ((fit.offDtStrings + be32 (fit.ptr strings)) % 2 ^ 32)).take
      (be32 (fit.ptr (strings + 4)))
  | _ => []

def regionBytes (fit : Fdt) (regions : List (Nat × Nat)) : List UInt8 :=
  regions.flatMap fun r => (fit.ptr r.1).take r.2

def sigValue (fit : Fdt) (node : Nat) : Option (List UInt8 × Nat) :=
  match fdtGetprop fit node (ascii "value") with
  | some (some (value, len)) => some ((fit.ptr value).take len, len)
  | _ => none

def hashedBytes (fit : Fdt) (node : Nat) : Option (List UInt8) :=
  match hashedRegions fit node with
  | some (.ok parts) => some parts.flatten
  | _ => none

theorem hashedRegions_ok (h : hashedRegions fit node = some (.ok parts)) :
    ∃ regions maxRegions,
      fdtFindRegions fit (hashedNodes fit node) [ascii "data"] maxRegions 200 = some (.ok regions) ∧
      parts.flatten = regionBytes fit regions ++ hashedStrings fit node := by
  simp only [hashedRegions, bind_eq_bind, bind_eq_some_iff] at h
  obtain ⟨prop, hprop, h⟩ := h
  cases prop with
  | none => simp at h
  | some prop =>
    obtain ⟨nodes, len⟩ := prop
    have hnodes : hashedNodes fit node = texts ((fit.ptr nodes).take len) := by
      simp [hashedNodes, hprop]
    simp only [map_some, getD_some, ← hnodes] at h
    split at h
    · cases h
    split at h
    · cases h
    split at h
    · cases h
    simp only [bind_eq_some_iff] at h
    obtain ⟨found, hfound, h⟩ := h
    cases found with
    | error e => cases h
    | ok regions =>
      dsimp only at h
      split at h
      · cases h
      split at h
      · cases h
      simp only [bind_eq_some_iff] at h
      obtain ⟨strings, hstrings, h⟩ := h
      refine ⟨regions, _, hfound, ?_⟩
      cases strings with
      | none =>
        cases h
        simp [regionBytes, hashedStrings, hstrings, List.flatMap]
      | some strings =>
        cases h
        simp [regionBytes, hashedStrings, hstrings, List.flatMap]

theorem fitConfigCheckSig_ok (h : fitConfigCheckSig c blob fit node requiredKeynode = some (.ok ())) :
    ∃ parts value key, hashedRegions fit node = some (.ok parts) ∧
      sigValue fit node = some value ∧
      rsaVerifyWithKeynode c blob ⟨c.sha1 parts.flatten, value.1, value.2⟩ (.ok key) = some 0 := by
  rw [fitConfigCheckSig_eq] at h
  obtain ⟨a, key, ha, -, hverifies⟩ := (checkClaimed_ok_iff h).mp rfl
  simp only [claimedConfig, claimed, bind_eq_bind, bind_eq_some_iff] at ha
  obtain ⟨setup, -, ha⟩ := ha
  cases setup with
  | error msg => cases ha
  | ok keyname =>
    simp only [bind_eq_some_iff] at ha
    obtain ⟨value, hvalue, ha⟩ := ha
    cases value with
    | none => cases ha
    | some value =>
      simp only [bind_eq_some_iff] at ha
      obtain ⟨regions, hregions, ha⟩ := ha
      cases regions with
      | error msg => cases ha
      | ok parts =>
        cases ha
        exact ⟨parts, ((fit.ptr value.1).take value.2, value.2), key, hregions,
          by simp [sigValue, hvalue], hverifies⟩

theorem rsaVerifyWithKeynode_eq_zero (h : rsaVerifyWithKeynode c blob s (.ok node) = some 0) :
    ∃ key, c.rsaVerifyKey key s.sig s.sigLen s.hash = 0 := by
  simp only [rsaVerifyWithKeynode, bind_eq_bind, bind_eq_some_iff] at h
  obtain ⟨found, hkey, h⟩ := h
  cases found with
  | error e =>
    -- the errors of a key node are not 0
    obtain rfl : e = 0 := some.inj h
    simp only [rsaKey, bind_eq_bind, bind_eq_some_iff] at hkey
    obtain ⟨n0inv, -, hkey⟩ := hkey
    cases n0inv with
    | none => cases hkey
    | some _ =>
      simp only [bind_eq_some_iff] at hkey
      obtain ⟨len, -, n0inv, -, modulus, -, rr, -, hkey⟩ := hkey
      split at hkey
      · split at hkey
        · cases hkey
        · split at hkey <;> cases hkey
      · cases hkey
  | ok key => exact ⟨key, some.inj h⟩

def Crypto.Binding (c : Crypto) : Prop :=
  ∀ key key' sig len hash hash', c.rsaVerifyKey key sig len hash = 0 →
    c.rsaVerifyKey key' sig len hash' = 0 → hash = hash'

/-! ## A configuration that is not covered -/

/-- A configuration with a kernel, whose signature is that of the node `images`. -/
def otherNodeSigned (kernel : String) : Fdt :=
  let names := ["algo", "value", "hashed-nodes", "kernel"]
  let prop := propBytes names
  Fdt.ofRoot names (nodeBytes "" [nodeBytes "images" [],
    nodeBytes "conf" [prop "kernel" (text kernel), nodeBytes "signature@1"
      [prop "algo" (text "sha1,rsa2048"), prop "value" (nodeBytes "images" [] ++ cell 9),
        prop "hashed-nodes" (text "/images")]]])

def plainSignatures : Crypto where
  sha1 bytes := bytes
  rsaVerifyKey _ sig _ hash := if sig = hash then 0 else -13

theorem plainSignatures_binding : plainSignatures.Binding := by
  intro key key' sig len hash hash' h h'
  simp only [plainSignatures] at h h'
  split at h
  · split at h'
    · rename_i heq heq'
      exact heq.symm.trans heq'
    · cases h'
  · cases h

end UBoot.Fit
