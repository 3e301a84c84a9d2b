import UBoot.Ext4.Device

/-!
# Extent trees

What the nodes of an extent tree store, and where the search for a block of the
file ends in one. The search goes past an index entry only if the block is behind
the first block of that entry, so for that first block it ends one leaf too early.
-/

namespace UBoot.Ext4

open ByteMemory
open List hiding keys

variable {V : Volume}

def Volume.block (V : Volume) (b : Nat) : Memory :=
  fun k => if k < V.blockSize then V.data (b * V.blockSize + k) else 0

inductive Stores (V : Volume) : Nat → Memory → List Extent → List Nat → Prop
  | leaf {node : Memory} {extents : List Extent} (hmagic : ehMagic node = extMagic)
      (hdepth : ehDepth node = 0)
      (h : extents = (List.range (ehEntries node)).map (extentAt node)) : Stores V 0 node extents []
  | index {depth : Nat} {node : Memory} {sub : Nat → List Extent} {keys : Nat → List Nat}
      (hmagic : ehMagic node = extMagic) (hdepth : ehDepth node = depth + 1)
      (hinside : ∀ k < ehEntries node, (eiLeaf node k + 1) * 2 ^ V.log2FsBlocksize ≤ V.size)
      (hsub : ∀ k < ehEntries node, Stores V depth (V.block (eiLeaf node k)) (sub k) (keys k))
      (hkey : ∀ k < ehEntries node, (sub k).head?.map Extent.block = some (eiBlock node k)) :
      Stores V (depth + 1) node ((List.range (ehEntries node)).flatMap sub)
        ((List.range (ehEntries node)).map (eiBlock node) ++
          (List.range (ehEntries node)).flatMap keys)

def Ascending (extents : List Extent) : Prop := extents.Pairwise fun a b => a.block < b.block

def Precedes (keys : List Nat) (i : Nat) (e : Extent) : Prop :=
  if i ∈ keys then e.block < i else e.block ≤ i

instance (keys : List Nat) (i : Nat) (e : Extent) : Decidable (Precedes keys i e) := by
  unfold Precedes
  infer_instance

def lastBefore (extents : List Extent) (keys : List Nat) (i : Nat) : Option Extent :=
  (extents.filter fun e => Precedes keys i e).getLast?

def found (V : Volume) (depth : Nat) (extents : List Extent) (keys : List Nat) (i : Nat) : Nat :=
  if depth ≠ 0 ∧ V.fsBlksz = 0 then noLeaf
  else
    match lastBefore extents keys i with
    | none => if depth = 0 then noExtent else noLeaf
    | some e => e.blockFor i

/-! ## Searches -/

theorem searchEntries_spec (past : Nat → Bool) (entries i : Nat) :
    i ≤ searchEntries past entries i ∧ searchEntries past entries i ≤ i + entries ∧
      (∀ k, i ≤ k → k < searchEntries past entries i → past k) ∧
      (searchEntries past entries i < i + entries → past (searchEntries past entries i) = false) := by
  induction entries generalizing i with
  | zero => exact ⟨le_rfl, le_rfl, by simp [searchEntries]; omega, by simp [searchEntries]⟩
  | succ entries ih =>
    rw [searchEntries]
    split
    next hpast =>
      obtain ⟨hle, hge, hbefore, hstop⟩ := ih (i + 1)
      refine ⟨by omega, by omega, fun k hik hk => ?_, fun hlt => hstop (by omega)⟩
      obtain rfl | hne := eq_or_ne k i
      · exact hpast
      · exact hbefore k (by omega) hk
    next hpast => exact ⟨le_rfl, by omega, by omega, fun _ => by simpa using hpast⟩

theorem range_split (h : c < n) :
    List.range n = List.range c ++ c :: List.range' (c + 1) (n - (c + 1)) := by
  obtain ⟨m, rfl⟩ := Nat.exists_eq_add_of_lt h
  rw [range_eq_range', range_eq_range', show c + m + 1 - (c + 1) = m by omega,
    ← range'_succ, show c + m + 1 = c + (m + 1) by omega, ← range'_append_1]
  simp

theorem Stores.keys_mem (h : Stores V depth node extents keys) (hkey : key ∈ keys)
    :
    ∃ e ∈ extents, e.block = key := by
  induction h generalizing key with
  | leaf => simp at hkey
  | @index depth node sub keys _ _ _ hsub hhead ih =>
    simp only [mem_append, mem_map, mem_flatMap, mem_range] at hkey
    obtain ⟨k, hk, rfl⟩ | ⟨k, hk, hmem⟩ := hkey
    · obtain ⟨e, he, heq⟩ := Option.map_eq_some_iff.mp (hhead k hk)
      exact ⟨e, mem_flatMap.mpr ⟨k, mem_range.mpr hk, mem_of_mem_head? he⟩, heq⟩
    · obtain ⟨e, he, heq⟩ := ih k hk hmem
      exact ⟨e, mem_flatMap.mpr ⟨k, mem_range.mpr hk, he⟩, heq⟩

theorem Stores.keys_eq_nil (h : Stores V 0 node extents keys) : keys = [] := by
  cases h
  rfl

/-! ## One level of the tree -/

section
variable {n : Nat} {sub : Nat → List Extent} {keys : Nat → List Nat} {key : Nat → Nat}
  (hasc : Ascending ((List.range n).flatMap sub))
  (hkey : ∀ k < n, (sub k).head?.map Extent.block = some (key k))

include hasc in
theorem block_lt_of_lt (hjk : j < k) (hk : k < n) (ha : a ∈ sub j) (hb : b ∈ sub k) :
    a.block < b.block := by
  rw [range_split hk, flatMap_append, Ascending, pairwise_append] at hasc
  refine hasc.2.2 a ?_ b ?_
  · exact mem_flatMap.mpr ⟨j, mem_range.mpr hjk, ha⟩
  · exact mem_flatMap.mpr ⟨k, by simp, hb⟩

include hkey in
theorem exists_key (hk : k < n) : ∃ e rest, sub k = e :: rest ∧ e.block = key k := by
  obtain ⟨e, he, heq⟩ := Option.map_eq_some_iff.mp (hkey k hk)
  obtain ⟨rest, hrest⟩ := head?_eq_some_iff.mp he
  exact ⟨e, rest, hrest, heq⟩

include hasc in
theorem sub_ascending (hk : k < n) : Ascending (sub k) := by
  rw [range_split hk, flatMap_append, flatMap_cons] at hasc
  exact (pairwise_append.mp (pairwise_append.mp hasc).2.1).1

include hasc hkey in
theorem block_lt_key (hjk : j < k) (hk : k < n) (he : e ∈ sub j) : e.block < key k := by
  obtain ⟨first, rest, hsub, hfirst⟩ := exists_key hkey hk
  rw [← hfirst]
  exact block_lt_of_lt hasc hjk hk he (by simp [hsub])

include hasc hkey in
theorem key_le_block (hjk : j ≤ k) (hk : k < n) (he : e ∈ sub k) : key j ≤ e.block := by
  obtain ⟨first, rest, hsub, hfirst⟩ := exists_key hkey (Nat.lt_of_le_of_lt hjk hk)
  obtain rfl | hlt := Nat.eq_or_lt_of_le hjk
  · have hsorted := sub_ascending hasc hk
    rw [hsub] at he hsorted
    obtain rfl | hmem := mem_cons.mp he
    · exact hfirst.ge
    · exact hfirst ▸ le_of_lt ((pairwise_cons.mp hsorted).1 e hmem)
  · exact hfirst ▸ le_of_lt (block_lt_of_lt hasc hlt hk (by simp [hsub]) he)

def Ahead (n : Nat) (key : Nat → Nat) (c i : Nat) : Prop := key c < i ∧ (c + 1 < n → i ≤ key (c + 1))

include hasc hkey in
theorem block_lt_of_mem_keys (h : Ahead n key c i) (hc : c < n) (hk : k < n) (hne : k ≠ c)
    (hmem : ∃ e ∈ sub k, e.block = i) (he : e ∈ sub c) : e.block < i := by
  obtain ⟨e', he', rfl⟩ := hmem
  obtain hkc | hck := Nat.lt_or_gt_of_ne hne
  · have := block_lt_key hasc hkey hkc hc he'
    have := h.1
    omega
  · exact block_lt_of_lt hasc hck hk he he'

include hasc hkey in
theorem lastBefore_child (hc : c < n) (h : Ahead n key c i)
    (hkeys : ∀ k < n, ∀ x ∈ keys k, ∃ e ∈ sub k, e.block = x) :
    lastBefore ((List.range n).flatMap sub)
        ((List.range n).map key ++ (List.range n).flatMap keys) i =
      lastBefore (sub c) (keys c) i := by
  have hmem : i ∈ (range n).map key ++ (range n).flatMap keys ↔
      (∃ k < n, key k = i) ∨ ∃ k < n, i ∈ keys k := by
    simp
  generalize (range n).map key ++ (range n).flatMap keys = all at hmem ⊢
  -- Later children start behind the block, or at it if it is a key.
  have hafter {j : Nat} (hcj : c < j) (hj : j < n) {e : Extent} (he : e ∈ sub j) :
      ¬ Precedes all i e := by
    have hstart : c + 1 < n := by omega
    have hle : key (c + 1) ≤ e.block := key_le_block hasc hkey hcj hj he
    have hi := h.2 hstart
    unfold Precedes
    split
    next => omega
    next hnot =>
      intro hback
      exact hnot (hmem.mpr (.inl ⟨c + 1, hstart, by omega⟩))
  have hhere {e : Extent} (he : e ∈ sub c) : Precedes all i e ↔ Precedes (keys c) i e := by
    unfold Precedes
    by_cases hin : i ∈ keys c
    · rw [if_pos hin, if_pos (hmem.mpr (.inr ⟨c, hc, hin⟩))]
    · rw [if_neg hin]
      split
      next hall =>
        have hless : e.block < i := by
          obtain ⟨k, hk, hki⟩ | ⟨k, hk, hik⟩ := hmem.mp hall
          · have hne : k ≠ c := by
              rintro rfl
              have := h.1
              omega
            obtain ⟨first, rest, hsub, hfirst⟩ := exists_key hkey hk
            exact block_lt_of_mem_keys hasc hkey h hc hk hne ⟨first, by simp [hsub], by omega⟩ he
          · have hne : k ≠ c := fun heq => hin (heq ▸ hik)
            exact block_lt_of_mem_keys hasc hkey h hc hk hne (hkeys k hk i hik) he
        exact iff_of_true hless (le_of_lt hless)
      next => rfl
  obtain ⟨first, rest, hsub, hfirst⟩ := exists_key hkey hc
  have hkept : first ∈ (sub c).filter fun e => Precedes (keys c) i e := by
    have := h.1
    rw [mem_filter, hsub, decide_eq_true_eq]
    refine ⟨mem_cons_self, ?_⟩
    unfold Precedes
    split <;> omega
  have hlast : ((range' (c + 1) (n - (c + 1))).flatMap sub).filter
      (fun e => Precedes all i e) = [] := by
    rw [filter_eq_nil_iff]
    intro e he
    obtain ⟨j, hj, he⟩ := mem_flatMap.mp he
    rw [mem_range'_1] at hj
    simpa using hafter (show c < j by omega) (by omega) he
  have hmid : (sub c).filter (fun e => Precedes all i e) =
      (sub c).filter fun e => Precedes (keys c) i e :=
    filter_congr fun e he => by simpa using hhere he
  rw [lastBefore, range_split hc, flatMap_append, flatMap_cons, filter_append,
    filter_append, hlast, append_nil, hmid, getLast?_append_of_ne_nil _
      (ne_nil_of_mem hkept), lastBefore]

end

/-! ## The descent -/

variable {depth rounds i : Nat} {node buf : Memory} {extents : List Extent} {keys : List Nat}

def Padded (V : Volume) (buf : Memory) : Prop := ∀ k, V.blockSize ≤ k → buf k = 0

theorem padded_block (b : Nat) : Padded V (V.block b) := fun _ hk => if_neg (by omega)

theorem sectorOf_inside (h : (b + 1) * 2 ^ V.log2FsBlocksize ≤ V.size) :
    V.sectorOf (b % 2 ^ 32) = b * 2 ^ V.log2FsBlocksize := by
  have hpos : 0 < 2 ^ V.log2FsBlocksize := Nat.two_pow_pos _
  have hsize := V.size_lt
  rw [Nat.add_mul, Nat.one_mul] at h
  have hb : b ≤ b * 2 ^ V.log2FsBlocksize := Nat.le_mul_of_pos_right b hpos
  rw [Volume.sectorOf, Nat.mod_eq_of_lt (show b < 2 ^ 32 by omega), Nat.mod_eq_of_lt (by omega)]

theorem devread_node (hfull : V.fsBlksz = V.blockSize) (hbuf : Padded V buf)
    (h : (b + 1) * 2 ^ V.log2FsBlocksize ≤ V.size) :
    V.devread (V.sectorOf (b % 2 ^ 32)) 0 V.fsBlksz 0 buf = some (V.block b) := by
  have hsize := V.size_lt
  have hlast : (V.blockSize - 1) / V.blksz = 2 ^ V.log2FsBlocksize - 1 := by
    have hpos : 0 < 2 ^ V.log2FsBlocksize := Nat.two_pow_pos _
    have hblk := V.blksz_pos
    rw [V.blockSize_eq, Nat.div_eq_of_lt_le]
    · rw [Nat.sub_mul, Nat.one_mul]
      omega
    · rw [Nat.sub_add_cancel hpos]
      have := Nat.mul_pos hpos hblk
      omega
  have hinside : ¬ V.size ≤ (b * 2 ^ V.log2FsBlocksize + (V.blockSize - 1) / V.blksz) % 2 ^ 32 := by
    have hpos : 0 < 2 ^ V.log2FsBlocksize := Nat.two_pow_pos _
    rw [Nat.add_mul, Nat.one_mul] at h
    rw [hlast, Nat.mod_eq_of_lt (by omega)]
    omega
  rw [sectorOf_inside h, hfull, V.devread_eq _ _ V.blockSize_pos, if_neg hinside]
  congr 1
  funext k
  rw [storeBytes_apply, V.length_bytes, Volume.block]
  by_cases hk : k < V.blockSize
  · rw [if_pos (by omega), if_pos hk, Nat.sub_zero, Nat.mul_assoc, ← V.blockSize_eq]
    simp [Volume.bytes, hk]
  · rw [if_neg (by omega), if_neg hk, hbuf k (by omega)]

theorem exists_lastBefore (he : e ∈ extents) (hlt : e.block < i) :
    ∃ e', lastBefore extents keys i = some e' := by
  have hmem : e ∈ extents.filter fun e => Precedes keys i e := by
    rw [mem_filter, decide_eq_true_eq, Precedes]
    exact ⟨he, by split <;> omega⟩
  exact ⟨_, getLast?_eq_getLast_of_ne_nil (ne_nil_of_mem hmem)⟩

theorem getExtentBlock_eq (hfull : V.fsBlksz = V.blockSize)
    (h : Stores V depth node extents keys) (hasc : Ascending extents) (hbuf : Padded V buf)
    (hrounds : depth < rounds) :
    (depth ≠ 0 ∧ lastBefore extents keys i = none ∧
      getExtentBlock V i rounds buf node = some none) ∨
    ∃ leaf extents', getExtentBlock V i rounds buf node = some (some leaf) ∧
      Stores V 0 leaf extents' [] ∧ Ascending extents' ∧
      lastBefore extents' [] i = lastBefore extents keys i ∧
      (depth ≠ 0 → ∃ e, lastBefore extents keys i = some e) := by
  induction h generalizing buf rounds with
  | leaf hmagic hdepth h =>
    obtain ⟨rounds, rfl⟩ : ∃ r, rounds = r + 1 := ⟨rounds - 1, by omega⟩
    refine .inr ⟨_, _, ?_, .leaf hmagic hdepth h, hasc, rfl, fun hne => absurd rfl hne⟩
    rw [getExtentBlock, if_neg (not_not.mpr hmagic), if_pos hdepth]
  | @index depth node sub keys hmagic hdepth hinside hsub hkey ih =>
    obtain ⟨rounds, rfl⟩ : ∃ r, rounds = r + 1 := ⟨rounds - 1, by omega⟩
    rw [getExtentBlock, if_neg (not_not.mpr hmagic), if_neg (by omega)]
    obtain ⟨-, hle, hbefore, hstop⟩ :=
      searchEntries_spec (fun k => eiBlock node k < i) (ehEntries node) 0
    simp only
    generalize searchEntries (fun k => eiBlock node k < i) (ehEntries node) 0 = j at hle hbefore hstop
    by_cases hj : j = 0
    · -- The block is not behind the key of the first entry, which is the first block of all.
      subst hj
      refine .inl ⟨by omega, ?_, if_pos rfl⟩
      rw [lastBefore, getLast?_eq_none_iff, filter_eq_nil_iff]
      intro e he
      obtain ⟨k, hk, he⟩ := mem_flatMap.mp he
      have hk := mem_range.mp hk
      have hfirst := key_le_block hasc hkey (Nat.zero_le k) hk he
      have hpast := hstop (by omega)
      simp only [decide_eq_false_iff_not] at hpast
      rw [decide_eq_true_eq, Precedes]
      split
      next => omega
      next hnot =>
        intro hback
        refine hnot (mem_append_left _ (mem_map.mpr ⟨0, mem_range.mpr (by omega), ?_⟩))
        omega
    · have hc : j - 1 < ehEntries node := by omega
      have hahead : Ahead (ehEntries node) (eiBlock node) (j - 1) i := by
        refine ⟨by simpa using hbefore (j - 1) (by omega) (by omega), fun hlt => ?_⟩
        have hpast := hstop (by omega)
        simp only [decide_eq_false_iff_not] at hpast
        rw [Nat.sub_add_cancel (by omega)]
        omega
      obtain ⟨first, rest, hfirst, hblock⟩ := exists_key hkey hc
      have hhead : ∃ e, lastBefore (sub (j - 1)) (keys (j - 1)) i = some e :=
        exists_lastBefore (by simp [hfirst]) (hblock ▸ hahead.1)
      have hkeys (k : Nat) (hk : k < ehEntries node) (x : Nat) (hx : x ∈ keys k) :
          ∃ e ∈ sub k, e.block = x := (hsub k hk).keys_mem hx
      rw [if_neg hj, devread_node hfull hbuf (hinside _ hc)]
      simp only
      rw [lastBefore_child hasc hkey hc hahead hkeys]
      obtain ⟨-, hnone, -⟩ | ⟨leaf, extents', hleaf, hstores, hasc', hlast, -⟩ :=
        ih (j - 1) hc (sub_ascending hasc hc) (padded_block _) (show depth < rounds by omega)
      · obtain ⟨e, he⟩ := hhead
        rw [hnone] at he
        cases he
      · exact .inr ⟨leaf, extents', hleaf, hstores, hasc', hlast, fun _ => hhead⟩

theorem lastBefore_leaf (h : Stores V 0 node extents []) (hasc : Ascending extents) :
    lastBefore extents [] i =
      let j := searchEntries (fun k => (extentAt node k).block ≤ i) (ehEntries node) 0
      if j = 0 then none else some (extentAt node (j - 1)) := by
  cases h with
  | leaf _ _ h =>
    obtain ⟨-, hle, hbefore, hstop⟩ :=
      searchEntries_spec (fun k => (extentAt node k).block ≤ i) (ehEntries node) 0
    simp only
    generalize searchEntries (fun k => (extentAt node k).block ≤ i) (ehEntries node) 0 = j
      at hle hbefore hstop ⊢
    have hsplit : range (ehEntries node) = range j ++ range' j (ehEntries node - j) := by
      have happend := range'_append_1 (s := 0) (m := j) (n := ehEntries node - j)
      rw [Nat.zero_add, Nat.add_sub_cancel' (by omega)] at happend
      rw [range_eq_range', range_eq_range', happend]
    have hkeep : ((range j).map (extentAt node)).filter (fun e => Precedes [] i e) =
        (range j).map (extentAt node) := by
      rw [filter_eq_self]
      intro e he
      obtain ⟨k, hk, rfl⟩ := mem_map.mp he
      simpa [Precedes] using hbefore k (Nat.zero_le k) (mem_range.mp hk)
    have hdrop : ((range' j (ehEntries node - j)).map (extentAt node)).filter
        (fun e => Precedes [] i e) = [] := by
      rw [filter_eq_nil_iff]
      intro e he
      obtain ⟨k, hk, rfl⟩ := mem_map.mp he
      rw [mem_range'_1] at hk
      have hpast := hstop (by omega)
      have hless : (extentAt node j).block ≤ (extentAt node k).block := by
        obtain rfl | hjk := Nat.eq_or_lt_of_le hk.1
        · exact le_rfl
        · rw [h, Ascending, pairwise_map] at hasc
          have hlt := pairwise_iff_getElem.mp hasc j k (by simp; omega) (by simp; omega) hjk
          simp only [getElem_range] at hlt
          exact le_of_lt hlt
      simp only [decide_eq_false_iff_not] at hpast
      simp only [Precedes, not_mem_nil, if_false, decide_eq_true_eq]
      omega
    rw [lastBefore, h, hsplit, map_append, filter_append, hkeep, hdrop, append_nil]
    split
    next hj => simp [hj]
    next hj =>
      obtain ⟨m, rfl⟩ : ∃ m, j = m + 1 := ⟨j - 1, by omega⟩
      simp [range_succ]

theorem getExtentBlock_nothing (hempty : V.fsBlksz = 0) (h : Stores V depth node extents keys)
    (hdepth : depth ≠ 0) (hrounds : depth < rounds) :
    getExtentBlock V i rounds (fun _ => 0) node = some none := by
  cases h with
  | leaf => exact absurd rfl hdepth
  | index hmagic hdepth' hinside hsub hkey =>
    obtain ⟨rounds, rfl⟩ : ∃ r, rounds = r + 2 := ⟨rounds - 2, by omega⟩
    rw [getExtentBlock, if_neg (not_not.mpr hmagic), if_neg (by omega), hempty]
    simp only
    split
    next => rfl
    next =>
      split
      next => rfl
      next buf hread =>
        obtain hfail | hsame := V.devread_nothing (V.sectorOf (eiLeaf node
          (searchEntries (fun k => eiBlock node k < i) (ehEntries node) 0 - 1) % 2 ^ 32)) 0 fun _ => 0
        · rw [hfail] at hread
          cases hread
        · rw [hsame] at hread
          cases hread
          rfl

theorem readAllocatedBlock_eq (h : Stores V depth inode.blocks extents keys)
    (hasc : Ascending extents) (hrounds : depth < rounds) :
    readAllocatedBlock V inode rounds i = some (found V depth extents keys i) := by
  unfold readAllocatedBlock found
  by_cases hnothing : depth ≠ 0 ∧ V.fsBlksz = 0
  · rw [getExtentBlock_nothing hnothing.2 h hnothing.1 hrounds, if_pos hnothing]
  rw [if_neg hnothing]
  by_cases hroot : depth = 0
  · subst hroot
    cases h with
    | leaf hmagic hdepth hextents =>
      obtain ⟨rounds, rfl⟩ : ∃ r, rounds = r + 1 := ⟨rounds - 1, by omega⟩
      have hleaf : getExtentBlock V i (rounds + 1) (fun _ => 0) inode.blocks =
          some (some inode.blocks) := by
        rw [getExtentBlock, if_neg (not_not.mpr hmagic), if_pos hdepth]
      rw [hleaf, lastBefore_leaf (V := V) (.leaf hmagic hdepth hextents) hasc]
      simp only
      split <;> simp
  have hfull : V.fsBlksz = V.blockSize := by
    obtain hzero | hfull := V.fsBlksz_eq
    · exact absurd ⟨hroot, hzero⟩ hnothing
    · exact hfull
  obtain ⟨-, hnone, heq⟩ | ⟨leaf, extents', heq, hstores, hasc', hlast, hsome⟩ :=
    getExtentBlock_eq (i := i) hfull h hasc (fun _ _ => rfl) hrounds
  · rw [heq, hnone]
    simp [hroot]
  · obtain ⟨e, he⟩ := hsome hroot
    rw [heq, he]
    rw [lastBefore_leaf hstores hasc', he] at hlast
    simp only at hlast ⊢
    split at hlast
    · cases hlast
    · cases hlast
      rw [if_neg ‹_›]

end UBoot.Ext4
