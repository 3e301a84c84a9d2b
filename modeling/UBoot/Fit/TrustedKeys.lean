import UBoot.Fit.RequiredKeys
import UBoot.Fdt.RegionsCover

/-!
# Where keys are taken from

The nodes that `rsa_verify` uses as keys should be those below `/signature` of the
control tree. The required key is used wherever it is, and the last loop walks the
FIT: its nodes have nothing to do with those of the control tree at the same
offsets. So the keys are trusted just if that loop is not come to.
-/

namespace UBoot.Fit

open ForEach Libfdt Option

variable {c : Crypto} {blob fit : Fdt}

/-! ## Subnodes by name -/

variable {fdt : Fdt} {name : List UInt8} {fuel offset next parent node cur k : Nat} {depth d : Int}

theorem lt_of_fdtNextTag_begin (h : fdtNextTag fdt offset = (.beginNode, r)) :
    offset < fdt.sizeDtStruct := by
  by_contra hge
  rw [fdtNextTag, if_pos (by omega)] at h
  cases h

theorem aligned_of_finishTag (h : finishTag fdt tag' offset = (tag, .ok next)) : next % 4 = 0 := by
  rw [finishTag] at h
  split at h
  · cases h
  · cases h
    rw [tagAlign]
    omega

theorem aligned_of_fdtNextTag (h : fdtNextTag fdt offset = (tag, .ok next)) : next % 4 = 0 := by
  rw [fdtNextTag] at h
  split at h
  · cases h
  · split at h
    · exact aligned_of_finishTag h
    · exact aligned_of_finishTag h
    · split at h
      · cases h
      · exact aligned_of_finishTag h
    · exact aligned_of_finishTag h
    · exact aligned_of_finishTag h
    · cases h

theorem finishTag_ne_begin (hne : tag ≠ .beginNode) :
    finishTag fdt tag offset ≠ (.beginNode, r) := by
  unfold finishTag
  split <;> simp [hne]

theorem lt_of_fdtNextTag_begin_ok (h : fdtNextTag fdt offset = (.beginNode, .ok next)) :
    offset < next := by
  rw [fdtNextTag] at h
  split at h
  · cases h
  · split at h
    · have := le_of_finishTag h
      omega
    · exact absurd h (finishTag_ne_begin (by decide))
    · split at h
      · cases h
      · exact absurd h (finishTag_ne_begin (by decide))
    · exact absurd h (finishTag_ne_begin (by decide))
    · exact absurd h (finishTag_ne_begin (by decide))
    · cases h

theorem fdtCheckNodeOffset_ok (h : fdtCheckNodeOffset fdt offset = .ok next) :
    offset < next ∧ next % 4 = 0 := by
  rw [fdtCheckNodeOffset] at h
  split at h
  · cases h
  · split at h
    next next' htag =>
      cases h
      exact ⟨lt_of_fdtNextTag_begin_ok htag, aligned_of_fdtNextTag htag⟩
    next => cases h

/-- A node that a walk from `offset` at `depth` comes to: it is begun there. -/
structure Begun (fdt : Fdt) (offset : Nat) (depth : Int) (next : Nat) (d : Int) : Prop where
  one_le : 1 ≤ d
  le_succ : d ≤ depth + 1
  le : offset ≤ next
  lt_size : next < fdt.sizeDtStruct
  aligned : next % 4 = 0

theorem Begun.of_le (h : Begun fdt offset' depth' next d) (hoffset : offset ≤ offset')
    (hdepth : depth' ≤ depth) : Begun fdt offset depth next d :=
  ⟨h.one_le, by have := h.le_succ; omega, hoffset.trans h.le, h.lt_size, h.aligned⟩

theorem nextNodeLoop_ok (h : nextNodeLoop fdt fuel offset depth = some (.ok next, d)) (hd : 0 ≤ d)
    (hdepth : 0 ≤ depth) (haligned : offset % 4 = 0) : Begun fdt offset depth next d := by
  induction fuel generalizing offset depth with
  | zero => cases h
  | succ fuel ih =>
    rw [nextNodeLoop] at h
    split at h
    next r htag =>
      cases h
      exact ⟨by omega, le_rfl, le_rfl, lt_of_fdtNextTag_begin htag, haligned⟩
    next next' htag =>
      split at h
      next hneg =>
        cases h
        omega
      next hpos =>
        exact (ih h (by omega) (aligned_of_fdtNextTag htag)).of_le (le_of_fdtNextTag htag) (by omega)
    next => cases h
    next tag next' _ _ _ htag =>
      exact (ih h hdepth (aligned_of_fdtNextTag htag)).of_le (le_of_fdtNextTag htag) le_rfl
    next => cases h

theorem fdtNextNode_ok (h : fdtNextNode fdt offset depth = some (.ok next, d)) (hd : 0 ≤ d)
    (hdepth : 0 ≤ depth) : Begun fdt (offset + 1) depth next d := by
  rw [fdtNextNode] at h
  split at h
  next => cases h
  next next' hcheck =>
    obtain ⟨hlt, haligned⟩ := fdtCheckNodeOffset_ok hcheck
    exact (nextNodeLoop_ok h hd hdepth haligned).of_le hlt le_rfl

/-- A place in the search below a node: the node, or at or below a subnode from which
`fdt_next_subnode` comes to the place in `k` steps. -/
def Searched (fdt : Fdt) (parent offset : Nat) (depth : Int) : Prop :=
  offset = parent ∧ depth = 0 ∨
    ∃ cur k, IsSubnode fdt parent cur ∧ cur + k ≤ offset ∧ offset < fdt.sizeDtStruct ∧ 1 ≤ depth ∧
      (depth = 1 → offset = cur) ∧ offset % 4 = 0 ∧
      ∀ fuel, nextSubnodeLoop fdt (fuel + k) cur 1 = nextSubnodeLoop fdt fuel offset depth

theorem searched_subnode (h : IsSubnode fdt parent node) (hlt : node < fdt.sizeDtStruct)
    (haligned : node % 4 = 0) : Searched fdt parent node 1 :=
  .inr ⟨node, 0, h, le_rfl, hlt, le_rfl, fun _ => rfl, haligned, fun _ => rfl⟩

theorem Searched.step (h : Searched fdt parent offset depth)
    (hnext : fdtNextNode fdt offset depth = some (.ok next, d)) (hd : 0 ≤ d) :
    Searched fdt parent next d := by
  obtain ⟨rfl, rfl⟩ | ⟨cur, k, hcur, hle, hsize, hdepth, -, -, hloop⟩ := h
  · have hbegun := fdtNextNode_ok hnext hd le_rfl
    obtain rfl : d = 1 := by
      have := hbegun.one_le
      have := hbegun.le_succ
      omega
    refine searched_subnode ⟨some next, ?_, .head rfl⟩ hbegun.lt_size hbegun.aligned
    simp [fdtFirstSubnode, hnext]
  · obtain ⟨hge, -, hlt, hsize', haligned⟩ := fdtNextNode_ok hnext hd (by omega)
    have hstep (fuel : Nat) : nextSubnodeLoop fdt (fuel + (k + 1)) cur 1 =
        if 1 < d then nextSubnodeLoop fdt fuel next d else some (some next) := by
      rw [show fuel + (k + 1) = fuel + 1 + k by omega, hloop, nextSubnodeLoop, hnext]
      simp only
      rw [if_neg (by omega)]
    obtain heq | hgt := Int.le_iff_eq_or_lt.mp hge
    · obtain rfl : d = 1 := heq.symm
      have hsub : fdtNextSubnode fdt cur = some (some next) := by
        have hrounds : fdt.rounds = fdt.rounds - (k + 1) + (k + 1) := by
          unfold Fdt.rounds
          omega
        rw [fdtNextSubnode, hrounds, hstep, if_neg (by omega)]
      obtain ⟨first, hfirst, hvisits⟩ := hcur
      exact searched_subnode ⟨first, hfirst, .tail hvisits hsub⟩ hsize' haligned
    · refine .inr ⟨cur, k + 1, hcur, by omega, hsize', hge, by omega, haligned, fun fuel => ?_⟩
      rw [hstep, if_pos hgt]

theorem Searched.subnodeOffsetLoop (h : Searched fdt parent offset depth)
    (hfound : subnodeOffsetLoop fdt name fuel offset depth = some (.ok node)) :
    IsSubnode fdt parent node ∧ node % 4 = 0 := by
  induction fuel generalizing offset depth with
  | zero => cases hfound
  | succ fuel ih =>
    rw [Libfdt.subnodeOffsetLoop] at hfound
    split at hfound
    next hname =>
      cases hfound
      obtain ⟨-, hzero⟩ | ⟨cur, k, hcur, -, -, -, hhere, haligned, -⟩ := h
      · omega
      · exact ⟨hhere hname.1 ▸ hcur, haligned⟩
    next =>
      split at hfound
      next => cases hfound
      next next' d hnext =>
        split at hfound
        next => cases hfound
        next hd =>
          split at hfound
          next => cases hfound
          next next => exact ih (h.step hnext (by omega)) hfound

theorem isSubnode_of_fdtSubnodeOffset (h : fdtSubnodeOffset fdt parent name = some (.ok node)) :
    IsSubnode fdt parent node ∧ node % 4 = 0 :=
  Searched.subnodeOffsetLoop (.inl ⟨rfl, rfl⟩) h

/-! ## The nodes used as keys -/

/-- What `rsa_verify` is called with beside the trees. -/
structure Request where
  requiredKeynode : Option Nat
  keyname : Option (List UInt8)
  regions : List (List UInt8)
  sig : List UInt8
  sigLen : Nat

def Request.signed (c : Crypto) (q : Request) : Signed := ⟨c.sha1 q.regions.flatten, q.sig, q.sigLen⟩

section
variable (c : Crypto) (blob fit : Fdt)

def useKeynode (s : Signed) (used : List Nat) (node : Except FdtErr Nat) : Option (Int × List Nat) :=
  (rsaVerifyWithKeynode c blob s node).map fun ret => (ret, used ++ node.toOption.toList)

def tryKey (s : Signed) (node : Except FdtErr Nat) (ret : Int) (key : Nat × Int) :
    Option (Int ⊕ Unit) :=
  if key.2 = 1 ∧ node ≠ .ok key.1 then do
    let ret ← rsaVerifyWithKeynode c blob s (.ok key.1)
    some (if ret = 0 then .inr () else .inl ret)
  else some (.inl ret)

def tryKeyTraced (s : Signed) (node : Except FdtErr Nat) (st : Int × List Nat) (key : Nat × Int) :
    Option (Int × List Nat ⊕ List Nat) :=
  if key.2 = 1 ∧ node ≠ .ok key.1 then do
    let st ← useKeynode c blob s st.2 (.ok key.1)
    some (if st.1 = 0 then .inr st.2 else .inl st)
  else some (.inl st)

def tryKeysTraced (s : Signed) (sigNode : Nat) (node : Except FdtErr Nat) (ret : Int)
    (used : List Nat) : Option (Int × List Nat) := do
  let first ← nextKey fit (sigNode, 0)
  match ← forEach (nextKey fit) (tryKeyTraced c blob s node) fit.rounds (ret, used) first with
  | .inl st => some st
  | .inr used => some (0, used)

def tryRequiredTraced (s : Signed) : Option Nat → Option (Int × List Nat)
  | some key => useKeynode c blob s [] (.ok key)
  | none => some (ePERM, [])

/-- The steps of `rsaVerify`, with the nodes of the control tree that are used as keys. -/
def rsaVerifyTraced (q : Request) : Option (Int × List Nat) := do
  match ← fdtSubnodeOffset blob 0 fitSigNodename with
  | .error _ => some (eNOENT, [])
  | .ok sigNode =>
    let s := q.signed c
    let required ← tryRequiredTraced c blob s q.requiredKeynode
    if required.1 = 0 then some required
    else
      let node ← fdtSubnodeOffset blob sigNode (hintName q.keyname)
      let hint ← useKeynode c blob s required.2 node
      if hint.1 = 0 then some hint
      else tryKeysTraced c blob fit s sigNode node hint.1 hint.2

end

variable {q : Request} {s : Signed} {sigNode key : Nat} {ret : Int} {used : List Nat}
  {hint : Except FdtErr Nat}

theorem tryKeyTraced_fst (st : Int × List Nat) (key : Nat × Int) :
    (tryKeyTraced c blob s hint st key).map (Sum.map Prod.fst fun _ => ()) =
      tryKey c blob s hint st.1 key := by
  unfold tryKeyTraced tryKey useKeynode
  split
  · cases rsaVerifyWithKeynode c blob s (.ok key.1) with
    | none => rfl
    | some ret =>
      simp only [map_some, bind_eq_bind, bind_some]
      split <;> rfl
  · rfl

theorem tryKeysTraced_fst :
    (tryKeysTraced c blob fit s sigNode hint ret used).map Prod.fst =
      tryKeys c blob fit s sigNode hint ret := by
  unfold tryKeysTraced tryKeys
  simp only [bind_eq_bind]
  cases nextKey fit (sigNode, 0) with
  | none => rfl
  | some first =>
    have hloop : (forEach (nextKey fit) (tryKeyTraced c blob s hint) fit.rounds (ret, used) first).map
          (Sum.map Prod.fst fun _ => ()) =
        forEach (nextKey fit) (tryKey c blob s hint) fit.rounds (ret, used).1 first :=
      forEach_map Prod.fst (fun _ => ()) tryKeyTraced_fst
    simp only [bind_some]
    change _ = (forEach (nextKey fit) (tryKey c blob s hint) fit.rounds (ret, used).1 first).bind _
    rw [← hloop]
    cases forEach (nextKey fit) (tryKeyTraced c blob s hint) fit.rounds (ret, used) first with
    | none => rfl
    | some out => cases out <;> rfl

theorem tryRequiredTraced_fst (c : Crypto) (blob : Fdt) (s : Signed) (required : Option Nat) :
    (tryRequiredTraced c blob s required).map Prod.fst = tryRequired c blob s required := by
  cases required with
  | none => rfl
  | some key =>
    rw [tryRequiredTraced, useKeynode, map_map, tryRequired]
    exact map_id'

theorem rsaVerifyTraced_fst :
    (rsaVerifyTraced c blob fit q).map Prod.fst =
      rsaVerify c blob fit q.requiredKeynode q.keyname q.regions q.sig q.sigLen := by
  unfold rsaVerifyTraced rsaVerify
  simp only [bind_eq_bind]
  cases fdtSubnodeOffset blob 0 fitSigNodename with
  | none => rfl
  | some sigNode =>
    cases sigNode with
    | error e => rfl
    | ok sigNode =>
      simp only [bind_some, ← tryRequiredTraced_fst, Request.signed]
      cases tryRequiredTraced c blob ⟨c.sha1 q.regions.flatten, q.sig, q.sigLen⟩
        q.requiredKeynode with
      | none => rfl
      | some required =>
        simp only [bind_some, map_some]
        split
        next hzero => rw [map_some, hzero]
        next =>
          cases fdtSubnodeOffset blob sigNode (hintName q.keyname) with
          | none => rfl
          | some node =>
            simp only [bind_some, useKeynode]
            cases rsaVerifyWithKeynode c blob ⟨c.sha1 q.regions.flatten, q.sig, q.sigLen⟩ node with
            | none => rfl
            | some ret =>
              simp only [map_some, bind_some]
              split
              next hzero => rw [map_some, hzero]
              next => exact tryKeysTraced_fst

/-! ## The keys before the last loop -/

def Accepts (c : Crypto) (blob : Fdt) (q : Request) (key : Nat) : Prop :=
  rsaVerifyWithKeynode c blob (q.signed c) (.ok key) = some 0

structure LastLoop (c : Crypto) (blob : Fdt) (q : Request) (sigNode : Nat) : Prop where
  required : ∀ key, q.requiredKeynode = some key →
    ∃ ret, rsaVerifyWithKeynode c blob (q.signed c) (.ok key) = some ret ∧ ret ≠ 0
  hint : ∃ node ret, fdtSubnodeOffset blob sigNode (hintName q.keyname) = some node ∧
    rsaVerifyWithKeynode c blob (q.signed c) node = some ret ∧ ret ≠ 0

section
variable (hsig : fdtSubnodeOffset blob 0 fitSigNodename = some (.ok sigNode))
include hsig

theorem rsaVerifyTraced_required (hkey : q.requiredKeynode = some key) (h : Accepts c blob q key)
    (fit : Fdt) : rsaVerifyTraced c blob fit q = some (0, [key]) := by
  have hverify : rsaVerifyWithKeynode c blob (q.signed c) (.ok key) = some 0 := h
  simp [rsaVerifyTraced, hsig, hkey, tryRequiredTraced, useKeynode, hverify, Except.toOption]

theorem rsaVerifyTraced_lastLoop (h : LastLoop c blob q sigNode) :
    ∃ node ret used, ∀ fit, rsaVerifyTraced c blob fit q =
      tryKeysTraced c blob fit (q.signed c) sigNode node ret used := by
  obtain ⟨node, ret, hnode, hverify, hret⟩ := h.hint
  obtain ⟨required, hrequired, hne⟩ : ∃ r, tryRequiredTraced c blob (q.signed c)
      q.requiredKeynode = some r ∧ r.1 ≠ 0 := by
    cases hkey : q.requiredKeynode with
    | none => exact ⟨_, rfl, by decide⟩
    | some key =>
      obtain ⟨r, hr, hne⟩ := h.required key hkey
      exact ⟨_, by rw [tryRequiredTraced, useKeynode, hr]; rfl, hne⟩
  refine ⟨node, ret, required.2 ++ node.toOption.toList, fun fit => ?_⟩
  simp [rsaVerifyTraced, hsig, hrequired, hne, hnode, useKeynode, hverify, hret]

theorem rsaVerifyTraced_early (h : ¬ LastLoop c blob q sigNode) :
    (∀ fit, rsaVerifyTraced c blob fit q = none) ∨
      ∃ used key, (∀ fit, rsaVerifyTraced c blob fit q = some (0, used ++ [key])) ∧
        Accepts c blob q key ∧ (q.requiredKeynode = some key ∨
          fdtSubnodeOffset blob sigNode (hintName q.keyname) = some (.ok key)) := by
  cases hrequired : tryRequiredTraced c blob (q.signed c) q.requiredKeynode with
  | none => exact .inl fun fit => by simp [rsaVerifyTraced, hsig, hrequired]
  | some required =>
    have hfst := tryRequiredTraced_fst c blob (q.signed c) q.requiredKeynode
    rw [hrequired] at hfst
    by_cases hzero : required.1 = 0
    · cases hkey : q.requiredKeynode with
      | none =>
        rw [hkey] at hrequired
        cases hrequired
        exact absurd hzero (by decide)
      | some key =>
        have haccepts : Accepts c blob q key := by
          rw [map_some, hzero, hkey] at hfst
          exact hfst.symm
        exact .inr ⟨[], key, rsaVerifyTraced_required hsig hkey haccepts, haccepts, .inl rfl⟩
    · cases hnode : fdtSubnodeOffset blob sigNode (hintName q.keyname) with
      | none => exact .inl fun fit => by simp [rsaVerifyTraced, hsig, hrequired, hzero, hnode]
      | some node =>
        cases hverify : rsaVerifyWithKeynode c blob (q.signed c) node with
        | none =>
          exact .inl fun fit => by
            simp [rsaVerifyTraced, hsig, hrequired, hzero, hnode, useKeynode, hverify]
        | some ret =>
          obtain rfl : ret = 0 := by
            by_contra hret
            refine h ⟨fun key hkey => ⟨required.1, ?_, hzero⟩, node, ret, hnode, hverify, hret⟩
            rw [hkey] at hfst
            exact hfst.symm
          cases node with
          | error e => cases hverify
          | ok key =>
            refine .inr ⟨required.2, key, fun fit => ?_, hverify, .inr rfl⟩
            simp [rsaVerifyTraced, hsig, hrequired, hzero, hnode, useKeynode, hverify,
              Except.toOption]

end

/-! ## Two images that lead to different keys -/

def emptyFit : Fdt where
  blob := []
  offDtStruct := 0
  sizeDtStruct := 0
  offDtStrings := 0
  fits := le_rfl

theorem nextKey_emptyFit (place : Nat × Int) : nextKey emptyFit place = some none := by
  have htag : fdtNextTag emptyFit place.1 = (.fdtEnd, .error .truncated) :=
    if_pos (Nat.succ_pos _)
  simp [nextKey, fdtNextNode, fdtCheckNodeOffset, htag]

def nestedFit (offset : Nat) (tags : List UInt8) : Fdt where
  blob := List.replicate offset 0 ++ (cell 1 ++ cell 0 ++ (tags ++ (cell 1 ++ cell 0)))
  offDtStruct := 0
  sizeDtStruct := offset + (tags.length + 16)
  offDtStrings := 0
  fits := by simp [cell]

theorem fdtNextTag_begin (rest : List UInt8) (h : fdt.ptr offset = cell 1 ++ (cell 0 ++ rest))
    (hsize : offset + 8 ≤ fdt.sizeDtStruct) (haligned : offset % 4 = 0) :
    fdtNextTag fdt offset = (.beginNode, .ok (offset + 8)) := by
  have hname : fdt.ptr (offset + 4) = cell 0 ++ rest := by
    rw [Fdt.ptr, ← Nat.add_assoc, ← List.drop_drop, ← Fdt.ptr, h]
    rfl
  have htag : be32 (fdt.ptr offset) = 1 := by
    rw [h]
    rfl
  have hempty : cstring (fdt.ptr (offset + 4)) = [] := by
    rw [hname]
    rfl
  rw [fdtNextTag, if_neg (by omega), htag, hempty]
  simp only [List.length_nil]
  rw [finishTag, if_neg (by omega), tagAlign]
  congr 2
  omega

theorem fdtNextTag_nop (h : fdt.ptr offset = cell 4 ++ rest) (hsize : offset + 4 ≤ fdt.sizeDtStruct)
    (haligned : offset % 4 = 0) : fdtNextTag fdt offset = (.nop, .ok (offset + 4)) := by
  have htag : be32 (fdt.ptr offset) = 4 := by
    rw [h]
    rfl
  rw [fdtNextTag, if_neg (by omega), htag]
  simp only
  rw [finishTag, if_neg (by omega), tagAlign]
  congr 2
  omega

theorem ptr_nestedFit (offset k : Nat) (tags : List UInt8) :
    (nestedFit offset tags).ptr (offset + k) =
      (cell 1 ++ cell 0 ++ (tags ++ (cell 1 ++ cell 0))).drop k := by
  rw [Fdt.ptr, nestedFit]
  simp only [Nat.zero_add]
  rw [← List.drop_drop, List.drop_left' (List.length_replicate)]

theorem fdtCheckNodeOffset_nestedFit (haligned : offset % 4 = 0) (tags : List UInt8) :
    fdtCheckNodeOffset (nestedFit offset tags) offset = .ok (offset + 8) := by
  have htag : fdtNextTag (nestedFit offset tags) offset = (.beginNode, .ok (offset + 8)) :=
    fdtNextTag_begin _ (ptr_nestedFit offset 0 tags) (by simp only [nestedFit]; omega) haligned
  rw [fdtCheckNodeOffset, if_neg (by omega), htag]

theorem nextKey_nestedFit (haligned : offset % 4 = 0) :
    nextKey (nestedFit offset []) (offset, 0) = some (some (offset + 8, 1)) ∧
      nextKey (nestedFit offset (cell 4)) (offset, 0) = some (some (offset + 12, 1)) := by
  constructor
  · have htag : fdtNextTag (nestedFit offset []) (offset + 8) = (.beginNode, .ok (offset + 8 + 8)) :=
      fdtNextTag_begin [] (ptr_nestedFit offset 8 []) (by simp [nestedFit]) (by omega)
    simp only [nextKey, fdtNextNode, fdtCheckNodeOffset_nestedFit haligned, Fdt.rounds,
      nextNodeLoop, htag]
    rfl
  · have hnop : fdtNextTag (nestedFit offset (cell 4)) (offset + 8) = (.nop, .ok (offset + 8 + 4)) :=
      fdtNextTag_nop (ptr_nestedFit offset 8 (cell 4)) (by simp [nestedFit, cell]) (by omega)
    have htag : fdtNextTag (nestedFit offset (cell 4)) (offset + 12) =
        (.beginNode, .ok (offset + 12 + 8)) :=
      fdtNextTag_begin [] (ptr_nestedFit offset 12 (cell 4)) (by simp [nestedFit, cell])
        (by omega)
    have hrounds : (nestedFit offset (cell 4)).rounds = offset + 19 + 2 := rfl
    simp only [nextKey, fdtNextNode, fdtCheckNodeOffset_nestedFit haligned, hrounds,
      nextNodeLoop, hnop, htag]
    rfl

theorem tryKeysTraced_emptyFit :
    tryKeysTraced c blob emptyFit s sigNode hint ret used = some (ret, used) := by
  simp only [tryKeysTraced, nextKey_emptyFit, bind_eq_bind, bind_some]
  rfl

theorem tryKeyTraced_used (h : tryKeyTraced c blob s hint st place = some out) :
    st.2.length ≤ (Sum.elim Prod.snd id out).length ∧
      (place.2 = 1 → hint ≠ .ok place.1 → st.2.length < (Sum.elim Prod.snd id out).length) := by
  rw [tryKeyTraced] at h
  split at h
  next hplace =>
    simp only [useKeynode, bind_eq_bind, bind_map, bind_eq_some_iff,
      Function.comp_apply] at h
    obtain ⟨ret, -, hout⟩ := h
    split at hout <;> cases hout <;> simp [Except.toOption]
  next hplace =>
    cases h
    exact ⟨le_rfl, fun hdepth hne => absurd ⟨hdepth, hne⟩ hplace⟩

theorem tryKeysTraced_more (hfirst : nextKey fit (sigNode, 0) = some (some (key, 1)))
    (hne : hint ≠ .ok key) (h : tryKeysTraced c blob fit s sigNode hint ret used = some r) :
    used.length < r.2.length := by
  simp only [tryKeysTraced, hfirst, bind_eq_bind, bind_some,
    bind_eq_some_iff] at h
  obtain ⟨out, hloop, hout⟩ := h
  have hr : r.2 = Sum.elim Prod.snd id out := by
    cases out <;> cases hout <;> rfl
  rw [hr, Fdt.rounds, forEach] at *
  split at hloop
  next => cases hloop
  next used' hbody =>
    cases hloop
    exact (tryKeyTraced_used hbody).2 rfl hne
  next st hbody =>
    split at hloop
    next => cases hloop
    next start _ =>
      have hlt : used.length < st.2.length := (tryKeyTraced_used hbody).2 rfl hne
      have hkeeps := forEach_keeps (P := fun st => used.length < st.2.length)
        (Q := fun used' => used.length < used'.length)
        (fun _ _ _ hs hb => hs.trans_le (tryKeyTraced_used hb).1)
        (fun _ _ _ hs hb => hs.trans_le (tryKeyTraced_used hb).1) hlt hloop
      cases out <;> exact hkeeps

/-! ## Trusted keys -/

/-- A signature is accepted for a key below `/signature`, and the FIT does not decide which nodes
are used as keys. -/
structure KeysTrusted (c : Crypto) (blob fit : Fdt) (q : Request) : Prop where
  direct : rsaVerify c blob fit q.requiredKeynode q.keyname q.regions q.sig q.sigLen = some 0 →
    ∃ sigNode used key, fdtSubnodeOffset blob 0 fitSigNodename = some (.ok sigNode) ∧
      rsaVerifyTraced c blob fit q = some (0, used) ∧ key ∈ used ∧ IsSubnode blob sigNode key ∧
      Accepts c blob q key
  independent : ∀ fit', (rsaVerifyTraced c blob fit' q).map Prod.snd =
    (rsaVerifyTraced c blob fit q).map Prod.snd

theorem not_lastLoop_of_independent
    (hsig : fdtSubnodeOffset blob 0 fitSigNodename = some (.ok sigNode))
    (h : ∀ fit', (rsaVerifyTraced c blob fit' q).map Prod.snd =
      (rsaVerifyTraced c blob fit q).map Prod.snd) : ¬ LastLoop c blob q sigNode := by
  intro hlast
  obtain ⟨hint, ret, used, htraced⟩ := rsaVerifyTraced_lastLoop hsig hlast
  have haligned := (isSubnode_of_fdtSubnodeOffset hsig).2
  obtain ⟨hnear, hfar⟩ := nextKey_nestedFit haligned
  -- one of the two images has a first node that is not the one of the hint
  obtain ⟨other, key, hfirst, hne⟩ : ∃ other key,
      nextKey other (sigNode, 0) = some (some (key, 1)) ∧ hint ≠ .ok key := by
    by_cases hhint : hint = .ok (sigNode + 8)
    · refine ⟨_, _, hfar, fun heq => ?_⟩
      rw [hhint] at heq
      cases heq
    · exact ⟨_, _, hnear, hhint⟩
  have hsame := (h other).trans (h emptyFit).symm
  rw [htraced, htraced, tryKeysTraced_emptyFit, map_some, map_eq_some_iff] at hsame
  obtain ⟨r, hr, heq⟩ := hsame
  have hmore := tryKeysTraced_more hfirst hne hr
  rw [heq] at hmore
  exact lt_irrefl _ hmore

/-- The keys are trusted if a required key that verifies is one below `/signature`, and the last
loop is not come to. -/
theorem rsaVerify_trusted_iff (c : Crypto) (blob fit : Fdt) (q : Request) :
    KeysTrusted c blob fit q ↔
      ∀ sigNode, fdtSubnodeOffset blob 0 fitSigNodename = some (.ok sigNode) →
        (∀ key, q.requiredKeynode = some key → Accepts c blob q key → IsSubnode blob sigNode key) ∧
          ¬ LastLoop c blob q sigNode := by
  constructor
  · intro h sigNode hsig
    refine ⟨fun key hkey haccepts => ?_, not_lastLoop_of_independent hsig h.independent⟩
    have htraced := rsaVerifyTraced_required hsig hkey haccepts fit
    obtain ⟨sigNode', used, key', hsig', htraced', hmem, hsub, -⟩ :=
      h.direct (by rw [← rsaVerifyTraced_fst, htraced]; rfl)
    cases hsig.symm.trans hsig'
    cases htraced.symm.trans htraced'
    exact List.mem_singleton.mp hmem ▸ hsub
  · intro h
    cases hsig : fdtSubnodeOffset blob 0 fitSigNodename with
    | none =>
      have htraced (fit : Fdt) : rsaVerifyTraced c blob fit q = none := by
        simp [rsaVerifyTraced, hsig]
      refine ⟨fun hzero => ?_, fun fit' => by rw [htraced, htraced]⟩
      rw [← rsaVerifyTraced_fst, htraced] at hzero
      cases hzero
    | some node =>
      cases node with
      | error e =>
        have htraced (fit : Fdt) : rsaVerifyTraced c blob fit q = some (eNOENT, []) := by
          simp [rsaVerifyTraced, hsig]
        refine ⟨fun hzero => ?_, fun fit' => by rw [htraced, htraced]⟩
        rw [← rsaVerifyTraced_fst, htraced] at hzero
        exact absurd (some.inj hzero) (by decide)
      | ok sigNode =>
        obtain ⟨hrequired, hlast⟩ := h sigNode hsig
        obtain htraced | ⟨used, key, htraced, haccepts, hkey⟩ := rsaVerifyTraced_early hsig hlast
        · refine ⟨fun hzero => ?_, fun fit' => by rw [htraced, htraced]⟩
          rw [← rsaVerifyTraced_fst, htraced] at hzero
          cases hzero
        · refine ⟨fun _ => ⟨sigNode, _, key, hsig, htraced fit, by simp, ?_, haccepts⟩,
            fun fit' => by rw [htraced, htraced]⟩
          obtain hkey | hkey := hkey
          · exact hrequired key hkey haccepts
          · exact (isSubnode_of_fdtSubnodeOffset hkey).1

/-! ## A key outside of the signature node -/

/-- A control tree without a key in `/signature` at 8, and one in a node at 28. -/
def strayKey : Fdt :=
  Fdt.ofRoot ["required", "rsa,num-bits", "rsa,n0-inverse", "rsa,modulus", "rsa,r-squared"]
    (nodeBytes "" [nodeBytes "signature" [], keyNode "test" [] 2])

def strayFit : Fdt := Fdt.ofRoot [] (nodeBytes "" [nodeBytes "configurations" [nodeBytes "conf" []]])

/-- The signature is accepted for the key that is not below `/signature`. -/
theorem rsaVerify_strayKey :
    ¬ KeysTrusted onlyB strayKey strayFit ⟨none, some (ascii "a"), [[1, 2, 3]], [0x55], 1⟩ := by
  intro h
  obtain ⟨sigNode, used, key, hsig, -, -, ⟨first, hfirst, hvisits⟩, -⟩ :=
    h.direct (by decide +kernel)
  have hsig' : fdtSubnodeOffset strayKey 0 fitSigNodename = some (.ok 8) := by decide +kernel
  cases hsig.symm.trans hsig'
  have hnone : fdtFirstSubnode strayKey 8 = some none := by decide +kernel
  cases hfirst.symm.trans hnone
  exact not_visits_none hvisits

end UBoot.Fit
