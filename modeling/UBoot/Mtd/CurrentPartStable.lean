import UBoot.Mtd.CurrentPart

/-!
# The number of the current partition

What one call of `part_add` or `part_del` does to the current partition, and what a run of
calls does: the number goes with the partition, but for two counters that can run over and
for a partition behind the current one at the same offset, which is taken for one before.
-/

namespace UBoot.Mtdparts.Current

open Option List

variable {board : Board} {s : Globals} {dev : Dev}

/-! ## Looking up and changing a device -/

theorem find?_of_nodup {α : Type} {f : α → Nat} {l : List α} {x : α} (h : (l.map f).Nodup)
    (hx : x ∈ l) : l.find? (fun y => f y == f x) = some x := by
  obtain ⟨y, hy⟩ : ∃ y, l.find? (fun y => f y == f x) = some y :=
    isSome_iff_exists.mp (find?_isSome.mpr ⟨x, hx, by simp⟩)
  have heq : f y = f x := by simpa using find?_some hy
  rw [hy, inj_on_of_nodup_map h (mem_of_find?_eq_some hy) hx heq]

theorem deviceAt_of_mem (h : (s.devices.map Dev.ptr).Nodup) (hdev : dev ∈ s.devices) :
    s.deviceAt dev.ptr = some dev :=
  find?_of_nodup h hdev

variable {ptr : Nat}

theorem deviceAt_mem (h : s.deviceAt ptr = some dev) : dev ∈ s.devices ∧ dev.ptr = ptr :=
  ⟨mem_of_find?_eq_some h, by simpa using find?_some h⟩

variable {f : Dev → Dev}

theorem deviceAt_update (hf : ∀ d, (f d).ptr = d.ptr) (ptr q : Nat) :
    (s.update ptr f).deviceAt q = (s.deviceAt q).map fun d => if d.ptr = ptr then f d else d := by
  have hptr : ((fun d : Dev => d.ptr == q) ∘ fun d => if d.ptr = ptr then f d else d) =
      fun d => d.ptr == q := by
    funext d
    by_cases h : d.ptr = ptr <;> simp [h, hf]
  rw [Globals.deviceAt, Globals.update, find?_map, hptr]
  rfl

theorem mtdPartInfo_eq (h : dev.numParts.toNat = dev.parts.length) (n : Nat) :
    mtdPartInfo dev n = dev.parts[n]? := by
  rw [mtdPartInfo, h]
  split
  · exact (getElem?_eq_none ‹_›).symm
  · rfl

theorem current_of_deviceAt (hptr : s.currentMtdDev = some ptr)
    (hdev : s.deviceAt ptr = some dev) :
    s.current = (mtdPartInfo dev s.currentMtdPartnum.toNat).map fun p => (ptr, p.ptr) := by
  simp only [Globals.current, hptr, hdev, bind_eq_bind, bind_some]
  cases mtdPartInfo dev s.currentMtdPartnum.toNat <;> rfl

def changed (s : Globals) (dev : Dev) (f : Dev → Dev) (partnum : UInt8) : Globals :=
  { s.update dev.ptr f with currentMtdPartnum := partnum }

theorem current_congr {t : Globals} (hptr : t.currentMtdDev = s.currentMtdDev)
    (hnum : t.currentMtdPartnum = s.currentMtdPartnum)
    (h : ∀ ptr, s.currentMtdDev = some ptr → t.deviceAt ptr = s.deviceAt ptr) :
    t.current = s.current := by
  rw [Globals.current, Globals.current, hptr, hnum]
  cases hcur : s.currentMtdDev with
  | none => rfl
  | some ptr => rw [bind_eq_bind, bind_some, h ptr hcur]; rfl

theorem changed_current_other (hf : ∀ d, (f d).ptr = d.ptr)
    (hother : s.currentMtdDev ≠ some dev.ptr) :
    (changed s dev f s.currentMtdPartnum).current = s.current := by
  refine current_congr rfl rfl fun ptr hptr => (deviceAt_update hf dev.ptr ptr).trans ?_
  cases hd : s.deviceAt ptr with
  | none => rfl
  | some d =>
    have hne : d.ptr ≠ dev.ptr := by
      rw [(deviceAt_mem hd).2]
      rintro rfl
      exact hother hptr
    rw [map_some, if_neg hne]

section
variable (hs : s.Consistent) (hdev : dev ∈ s.devices) (hf : ∀ d, (f d).ptr = d.ptr)
include hs hdev hf

theorem changed_current_same (hsame : s.currentMtdDev = some dev.ptr) (partnum : UInt8) :
    (changed s dev f partnum).current =
      (mtdPartInfo (f dev) partnum.toNat).map fun p => (dev.ptr, p.ptr) := by
  refine current_of_deviceAt hsame ?_
  refine (deviceAt_update hf dev.ptr dev.ptr).trans ?_
  rw [deviceAt_of_mem hs.addresses hdev, map_some, if_pos rfl]

theorem changed_consistent_iff (partnum : UInt8) : (changed s dev f partnum).Consistent ↔
      (f dev).Consistent ∧ (changed s dev f partnum).current.isSome := by
  have hmem : f dev ∈ (changed s dev f partnum).devices :=
    mem_map.mpr ⟨dev, hdev, if_pos rfl⟩
  constructor
  · intro h
    exact ⟨h.devices _ hmem, h.current (ne_nil_of_mem hmem)⟩
  · rintro ⟨hfdev, hcur⟩
    refine ⟨?_, ?_, fun _ => hcur⟩
    · have hptrs : (changed s dev f partnum).devices.map Dev.ptr = s.devices.map Dev.ptr := by
        refine (List.map_map ..).trans (map_congr_left fun d _ => ?_)
        by_cases h : d.ptr = dev.ptr <;> simp [h, hf]
      rw [hptrs]
      exact hs.addresses
    · intro d hd
      obtain ⟨d', hd', rfl⟩ := mem_map.mp hd
      split
      · rename_i hptr
        rw [inj_on_of_nodup_map hs.addresses hd' hdev hptr]
        exact hfdev
      · exact hs.devices d' hd'

end

/-! ## Lists of partitions -/

variable {parts parts' : List Part} {newPi part cur : Part} {currPi : Option Part} {bump : Bool}

theorem index_unique (h : (parts.map Part.ptr).Nodup) {i j : Nat} (hp : parts[i]? = some p)
    (hq : parts[j]? = some q) (hptr : p.ptr = q.ptr) : i = j := by
  obtain ⟨hi, -⟩ := List.getElem?_eq_some_iff.mp hp
  refine (List.getElem?_inj (by rwa [List.length_map]) h).mp ?_
  rw [List.getElem?_map, List.getElem?_map, hp, hq, map_some, map_some, hptr]

theorem sortAdd_eq_none_iff (hsorted : parts.Pairwise fun p q => p.info.offset ≤ q.info.offset) :
    sortAdd currPi newPi parts = none ↔
      newPi.info.offset = 0 ∧ ∃ p ∈ parts, p.info.offset = 0 := by
  induction parts with
  | nil => simp [sortAdd]
  | cons pi rest ih =>
    rw [pairwise_cons] at hsorted
    rw [sortAdd]
    split
    · rename_i h
      exact ⟨fun _ => ⟨h.1.trans h.2, pi, mem_cons_self, h.2⟩, fun _ => rfl⟩
    · rename_i hzero
      split
      · refine ⟨fun h => (nomatch h), ?_⟩
        rintro ⟨hnew, p, hp, hpzero⟩
        have hpi : pi.info.offset = 0 := by
          rcases mem_cons.mp hp with rfl | hp
          · exact hpzero
          · exact UInt64.le_zero_iff.mp (hpzero ▸ hsorted.1 p hp)
        exact absurd ⟨hnew.trans hpi.symm, hpi⟩ hzero
      · rename_i hgt
        refine ⟨fun h => ?_, ?_⟩
        · obtain ⟨hnew, -⟩ := (ih hsorted.2).mp (map_eq_none_iff.mp h)
          exact absurd (hnew ▸ UInt64.zero_le) hgt
        · rintro ⟨hnew, -⟩
          exact absurd (hnew ▸ UInt64.zero_le) hgt

theorem sortAdd_spec (h : sortAdd currPi newPi parts = some (parts', bump)) :
    ∃ before after, parts = before ++ after ∧ parts' = before ++ newPi :: after ∧
      (∀ p ∈ before, p.info.offset < newPi.info.offset) ∧
      (∀ p ∈ after.head?, newPi.info.offset ≤ p.info.offset) ∧
      bump = after.head?.any fun pi => currPi.any fun c => pi.info.offset ≤ c.info.offset := by
  induction parts generalizing parts' bump with
  | nil =>
    cases h
    exact ⟨[], [], rfl, rfl, by simp, by simp, rfl⟩
  | cons pi rest ih =>
    rw [sortAdd] at h
    split at h
    · cases h
    · split at h
      · rename_i hle
        cases h
        exact ⟨[], pi :: rest, rfl, rfl, by simp, by simpa using hle, rfl⟩
      · rename_i hgt
        obtain ⟨⟨parts'', bump'⟩, hrest, heq⟩ := map_eq_some_iff.mp h
        cases heq
        obtain ⟨before, after, rfl, rfl, hbefore, hafter, hbump⟩ := ih hrest
        refine ⟨pi :: before, after, rfl, rfl, ?_, hafter, hbump⟩
        intro p hp
        rcases mem_cons.mp hp with rfl | hp
        · exact UInt64.not_le.mp hgt
        · exact hbefore p hp

section
variable (hsorted : parts.Pairwise fun p q => p.info.offset ≤ q.info.offset)
include hsorted

theorem sortAdd_current (h : sortAdd (some cur) newPi parts = some (parts', bump))
    (hcur : parts[k]? = some cur) : (bump = true ↔ newPi.info.offset ≤ cur.info.offset) ∧
      parts'[if bump then k + 1 else k]? = some cur := by
  obtain ⟨before, after, rfl, rfl, hbefore, hafter, hbump⟩ := sortAdd_spec h
  by_cases hk : k < before.length
  · rw [getElem?_append_left hk] at hcur
    have hlt := hbefore cur (mem_of_getElem? hcur)
    have hfalse : bump = false := by
      rw [hbump]
      cases after with
      | nil => rfl
      | cons pi after =>
        have hpi := UInt64.lt_of_lt_of_le hlt (hafter pi rfl)
        simpa using hpi
    subst hfalse
    refine ⟨⟨fun h => (nomatch h), fun h => absurd h (UInt64.not_le.mpr hlt)⟩, ?_⟩
    simp [getElem?_append_left hk, hcur]
  · have hk := Nat.le_of_not_lt hk
    rw [getElem?_append_right hk] at hcur
    obtain ⟨pi, after, rfl⟩ : ∃ pi rest, after = pi :: rest := by
      cases after with
      | nil => simp at hcur
      | cons pi after => exact ⟨pi, after, rfl⟩
    have hle : pi.info.offset ≤ cur.info.offset := by
      have hafterSorted := (pairwise_append.mp hsorted).2.1
      rcases mem_cons.mp (mem_of_getElem? hcur) with rfl | hmem
      · exact UInt64.le_refl _
      · exact (pairwise_cons.mp hafterSorted).1 cur hmem
    have htrue : bump = true := by
      rw [hbump]
      simpa using hle
    subst htrue
    refine ⟨⟨fun _ => UInt64.le_trans (hafter pi rfl) hle, fun _ => rfl⟩, ?_⟩
    rw [if_pos rfl, getElem?_append_right (by omega), Nat.succ_sub hk]
    exact hcur

theorem sortAdd_consistent (haddresses : (parts.map Part.ptr).Nodup)
    (hnew : ∀ p ∈ parts, p.ptr ≠ newPi.ptr) (h : sortAdd currPi newPi parts = some (parts', bump)) :
    (parts'.Pairwise fun p q => p.info.offset ≤ q.info.offset) ∧ (parts'.map Part.ptr).Nodup ∧
      parts'.length = parts.length + 1 := by
  obtain ⟨before, after, rfl, rfl, hbefore, hafter, -⟩ := sortAdd_spec h
  have hperm : (before ++ newPi :: after).Perm (newPi :: (before ++ after)) := perm_middle
  refine ⟨?_, ?_, ?_⟩
  · obtain ⟨hb, ha, hba⟩ := pairwise_append.mp hsorted
    refine pairwise_append.mpr ⟨hb, pairwise_cons.mpr ⟨fun q hq => ?_, ha⟩, ?_⟩
    · cases after with
      | nil => cases hq
      | cons pi after =>
        have hpi := hafter pi rfl
        rcases mem_cons.mp hq with rfl | hq
        · exact hpi
        · exact UInt64.le_trans hpi ((pairwise_cons.mp ha).1 q hq)
    · intro p hp q hq
      rcases mem_cons.mp hq with rfl | hq
      · exact UInt64.le_of_lt (hbefore p hp)
      · exact hba p hp q hq
  · rw [(hperm.map Part.ptr).nodup_iff, map_cons, nodup_cons]
    refine ⟨fun hmem => ?_, haddresses⟩
    obtain ⟨p, hp, hptr⟩ := mem_map.mp hmem
    exact hnew p hp hptr
  · exact hperm.length_eq

end

variable {before after : List Part}

theorem filter_ptr_eq
    (h : ((before ++ part :: after).map Part.ptr).Nodup) :
    ((before ++ part :: after).filter fun p => p.ptr ≠ part.ptr) = before ++ after := by
  have hperm : (before ++ part :: after).Perm (part :: (before ++ after)) := perm_middle
  rw [(hperm.map Part.ptr).nodup_iff, map_cons, nodup_cons] at h
  have hne (p : Part) (hp : p ∈ before ++ after) : decide (p.ptr ≠ part.ptr) = true := by
    have hptr : p.ptr ≠ part.ptr := fun heq => h.1 (heq ▸ mem_map_of_mem hp)
    simpa using hptr
  rw [filter_append, filter_cons_of_neg (by simp), ← filter_append]
  exact filter_eq_self.mpr hne

theorem filter_ptr_current
    (hcur : (before ++ part :: after)[k]? = some cur) (hne : cur.ptr ≠ part.ptr) :
    k ≠ before.length ∧
      (before ++ after)[if before.length < k then k - 1 else k]? = some cur := by
  rcases Nat.lt_trichotomy k before.length with hk | rfl | hk
  · rw [getElem?_append_left hk] at hcur
    refine ⟨Nat.ne_of_lt hk, ?_⟩
    rw [if_neg (Nat.lt_asymm hk), getElem?_append_left hk, hcur]
  · rw [getElem?_append_right (Nat.le_refl _), Nat.sub_self, getElem?_cons_zero] at hcur
    exact absurd (congrArg Part.ptr (some.inj hcur)).symm hne
  · rw [getElem?_append_right (Nat.le_of_lt hk)] at hcur
    obtain ⟨j, hj⟩ : ∃ j, k - before.length = j + 1 := ⟨k - before.length - 1, by omega⟩
    rw [hj, getElem?_cons_succ] at hcur
    refine ⟨(Nat.ne_of_lt hk).symm, ?_⟩
    rw [if_pos hk, getElem?_append_right (by omega)]
    have hindex : k - 1 - before.length = j := by omega
    rw [hindex, hcur]

theorem sortAdd_none_bump (h : sortAdd none newPi parts = some (parts', bump)) : bump = false := by
  obtain ⟨before, after, -, -, -, -, hbump⟩ := sortAdd_spec h
  rw [hbump]
  cases after <;> rfl

/-! ## Additions -/

theorem partValidate_offset {id : MtdId} (h : partValidate board id info = some info') :
    info'.offset = info.offset := by
  have hresolve : (info.resolve id).offset = info.offset := by
    unfold PartInfo.resolve
    split <;> rfl
  unfold partValidate at h
  simp only [ite_none_left_eq_some] at h
  obtain ⟨-, -, -, h⟩ := h
  unfold partValidateEraseblock at h
  split at h
  · cases h
  · split at h
    · cases h
      exact hresolve
    · cases h

theorem current_index (hs : s.Consistent) (hdev : dev ∈ s.devices)
    (hsame : s.currentMtdDev = some dev.ptr) :
    ∃ cur, dev.parts[s.currentMtdPartnum.toNat]? = some cur ∧ s.currPi dev = some cur ∧
      s.current = some (dev.ptr, cur.ptr) := by
  have hcurrent := current_of_deviceAt hsame (deviceAt_of_mem hs.addresses hdev)
  have hsome := hs.current (ne_nil_of_mem hdev)
  rw [mtdPartInfo_eq (hs.devices dev hdev).numParts] at hcurrent
  rw [hcurrent, isSome_map] at hsome
  obtain ⟨cur, hcur⟩ := isSome_iff_exists.mp hsome
  refine ⟨cur, hcur, ?_, ?_⟩
  · rw [Globals.currPi, if_pos hsame, mtdPartInfo_eq (hs.devices dev hdev).numParts, hcur]
  · rw [hcurrent, hcur]
    rfl

theorem denotes_iff (hdev : dev.Consistent) (ptr : Nat) {i : Nat}
    (hcur : dev.parts[i]? = some cur) (n : Nat) :
    (mtdPartInfo dev n).map (fun p => (ptr, p.ptr)) = some (ptr, cur.ptr) ↔ n = i := by
  rw [mtdPartInfo_eq hdev.numParts]
  constructor
  · intro h
    obtain ⟨p, hp, heq⟩ := map_eq_some_iff.mp h
    exact index_unique hdev.addresses hp hcur (congrArg Prod.snd heq)
  · rintro rfl
    rw [hcur]
    rfl

theorem toNat_add_one_eq_iff (n : UInt8) : (n + 1).toNat = n.toNat + 1 ↔ n ≠ 255 := by
  constructor
  · rintro h rfl
    exact absurd h (by decide)
  · intro h
    have hlt : n.toNat ≠ 255 := fun heq => h (UInt8.toNat.inj heq)
    have := n.toNat_lt
    rw [UInt8.toNat_add]
    exact Nat.mod_eq_of_lt (by simp; omega)

def withPart (parts : List Part) (d : Dev) : Dev := { d with parts, numParts := d.numParts + 1 }

theorem withPart_consistent_iff (hdev : dev.Consistent)
    (hnew : ∀ p ∈ dev.parts, p.ptr ≠ newPi.ptr)
    (h : sortAdd currPi newPi dev.parts = some (parts', bump)) :
    (withPart parts' dev).Consistent ↔ dev.parts.length < 65535 := by
  obtain ⟨hsorted, haddresses, hlength⟩ :=
    sortAdd_consistent hdev.sorted hdev.addresses hnew h
  have hadd : (dev.numParts + 1).toNat = (dev.parts.length + 1) % 65536 := by
    rw [UInt16.toNat_add, hdev.numParts]
    rfl
  constructor
  · intro hc
    have hnum : (dev.numParts + 1).toNat = parts'.length := hc.numParts
    omega
  · intro hlen
    refine ⟨?_, haddresses, hsorted, ?_⟩
    · intro hnil
      have hzero : parts'.length = 0 := length_eq_zero_iff.mpr hnil
      omega
    · have hnum : (dev.numParts + 1).toNat = parts'.length := by omega
      exact hnum

theorem partSortAdd_stable_iff (hs : s.Consistent) (hdev : dev ∈ s.devices)
    (hnew : ∀ p ∈ dev.parts, p.ptr ≠ newPi.ptr)
    (h : sortAdd (s.currPi dev) newPi dev.parts = some (parts', bump)) :
    (∃ s', partSortAdd s dev newPi = some s' ∧ s'.Consistent ∧ s'.current = s.current) ↔
      dev.parts.length < 65535 ∧
        (s.currentMtdDev = some dev.ptr → ∀ cur,
          dev.parts[s.currentMtdPartnum.toNat]? = some cur →
            newPi.info.offset ≤ cur.info.offset → s.currentMtdPartnum ≠ 255) := by
  have hstep : partSortAdd s dev newPi = some (changed s dev (withPart parts')
      (if bump then s.currentMtdPartnum + 1 else s.currentMtdPartnum)) := by
    rw [partSortAdd, h]
    rfl
  have hptr (d : Dev) : (withPart parts' d).ptr = d.ptr := rfl
  have hsome : s.current.isSome := hs.current (ne_nil_of_mem hdev)
  have hiff := withPart_consistent_iff (hs.devices dev hdev) hnew h
  simp only [hstep, some.injEq, exists_eq_left', changed_consistent_iff hs hdev hptr]
  by_cases hsame : s.currentMtdDev = some dev.ptr
  · obtain ⟨cur, hcur, hcurrPi, hcurrent⟩ := current_index hs hdev hsame
    rw [hcurrPi] at h
    obtain ⟨hbump, hindex⟩ := sortAdd_current (hs.devices dev hdev).sorted h hcur
    rw [changed_current_same hs hdev hptr hsame, hcurrent, hiff]
    constructor
    · rintro ⟨⟨hlen, -⟩, hdenotes⟩
      refine ⟨hlen, fun _ cur' hcur' hle => ?_⟩
      obtain rfl : cur = cur' := some.inj (hcur.symm.trans hcur')
      have hnum := (denotes_iff (hiff.mpr hlen) dev.ptr hindex _).mp hdenotes
      rw [if_pos (hbump.mpr hle), if_pos (hbump.mpr hle)] at hnum
      exact (toNat_add_one_eq_iff _).mp hnum
    · rintro ⟨hlen, hsafe⟩
      have hdenotes := (denotes_iff (hiff.mpr hlen) dev.ptr hindex
        (if bump then s.currentMtdPartnum + 1 else s.currentMtdPartnum).toNat).mpr (by
          cases bump with
          | false => rfl
          | true => exact (toNat_add_one_eq_iff _).mpr (hsafe hsame cur hcur (hbump.mp rfl)))
      exact ⟨⟨hlen, by rw [hdenotes]; rfl⟩, hdenotes⟩
  · have hnone : s.currPi dev = none := if_neg hsame
    rw [hnone] at h
    obtain rfl := sortAdd_none_bump h
    simp only [Bool.false_eq_true, if_false, changed_current_other hptr hsame, hiff, hsome]
    simp [hsame]

theorem partAdd_stable_iff (hs : s.Consistent) (hdev : dev ∈ s.devices)
    (hnew : ∀ p ∈ dev.parts, p.ptr ≠ part.ptr) :
    ((partAdd board s dev part).1.Consistent ∧ (partAdd board s dev part).1.current = s.current) ↔
      (partValidate board dev.id part.info ≠ none →
        ¬(part.info.offset = 0 ∧ ∃ p ∈ dev.parts, p.info.offset = 0) →
        dev.parts.length < 65535 ∧
          (s.currentMtdDev = some dev.ptr → ∀ cur,
            dev.parts[s.currentMtdPartnum.toNat]? = some cur →
              part.info.offset ≤ cur.info.offset → s.currentMtdPartnum ≠ 255)) := by
  rw [partAdd]
  cases hvalid : partValidate board dev.id part.info with
  | none => exact ⟨fun _ h => absurd rfl h, fun _ => ⟨hs, rfl⟩⟩
  | some info =>
    have hoffset := partValidate_offset hvalid
    have hrefused := @sortAdd_eq_none_iff _ { part with info } (s.currPi dev)
      (hs.devices dev hdev).sorted
    dsimp only at hrefused ⊢
    rw [hoffset] at hrefused
    cases hadd : sortAdd (s.currPi dev) { part with info } dev.parts with
    | none =>
      have hnone : partSortAdd s dev { part with info } = none := by
        rw [partSortAdd, hadd]
        rfl
      rw [hnone]
      exact ⟨fun _ _ h => absurd (hrefused.mp hadd) h, fun _ => ⟨hs, rfl⟩⟩
    | some r =>
      have hstable := partSortAdd_stable_iff hs hdev (by exact hnew) hadd
      obtain ⟨s', hs'⟩ : ∃ s', partSortAdd s dev { part with info } = some s' := by
        rw [partSortAdd, hadd]
        exact ⟨_, rfl⟩
      dsimp only at hstable
      simp only [hs', some.injEq, exists_eq_left', hoffset] at hstable
      rw [hs', hstable]
      refine ⟨fun h _ _ => h, fun h => h (by simp) fun hzero => ?_⟩
      rw [hrefused.mpr hzero] at hadd
      cases hadd

/-! ## Deletions -/

theorem deviceAt_filter (hne : ptr ≠ dev.ptr) :
    (s.devices.filter fun d => d.ptr ≠ dev.ptr).find? (fun d => d.ptr == ptr) = s.deviceAt ptr := by
  rw [find?_filter, Globals.deviceAt]
  congr 1
  funext d
  by_cases h : d.ptr = ptr <;> simp [h, hne]

theorem filter_consistent (hs : s.Consistent) :
    ((s.devices.filter fun d => d.ptr ≠ dev.ptr).map Dev.ptr).Nodup ∧
      ∀ d ∈ s.devices.filter (fun d => d.ptr ≠ dev.ptr), d.Consistent :=
  ⟨hs.addresses.sublist (filter_sublist.map Dev.ptr),
    fun d hd => hs.devices d (mem_of_mem_filter hd)⟩

theorem deviceDel_spec (hs : s.Consistent) :
    (deviceDel s dev).Consistent ∧ (deviceDel s dev).current =
      if s.currentMtdDev = some dev.ptr then firstPart (s.devices.filter fun d => d.ptr ≠ dev.ptr)
      else s.current := by
  obtain ⟨haddresses, hdevices⟩ := @filter_consistent _ dev hs
  unfold deviceDel
  dsimp only
  split
  · cases hrest : s.devices.filter fun d => d.ptr ≠ dev.ptr with
    | nil => exact ⟨⟨by simp, by simp, fun h => absurd rfl h⟩, rfl⟩
    | cons first rest =>
      rw [hrest] at haddresses hdevices
      have hfirst := hdevices first mem_cons_self
      have hcurrent : (Globals.mk (first :: rest) (some first.ptr) 0).current =
          firstPart (first :: rest) := by
        refine (current_of_deviceAt rfl (deviceAt_of_mem haddresses mem_cons_self)).trans ?_
        rw [mtdPartInfo_eq hfirst.numParts, firstPart, head?_eq_getElem?]
        rfl
      refine ⟨⟨haddresses, hdevices, fun _ => ?_⟩, hcurrent⟩
      rw [hcurrent, firstPart, isSome_map, isSome_head?]
      simpa using hfirst.nonempty
  · rename_i hother
    have hcurrent : (Globals.mk (s.devices.filter fun d => d.ptr ≠ dev.ptr) s.currentMtdDev
        s.currentMtdPartnum).current = s.current :=
      current_congr rfl rfl fun ptr hptr => deviceAt_filter fun h => hother (h ▸ hptr)
    refine ⟨⟨haddresses, hdevices, fun hne => ?_⟩, hcurrent⟩
    rw [hcurrent]
    exact hs.current fun hnil => hne (by rw [hnil]; rfl)

theorem current_other (hother : s.currentMtdDev ≠ some dev.ptr) (n : Nat) :
    s.current ≠ some (dev.ptr, n) := by
  intro h
  obtain ⟨ptr, hptr, hrest⟩ := bind_eq_some_iff.mp h
  obtain ⟨d, -, hrest⟩ := bind_eq_some_iff.mp hrest
  obtain ⟨p, -, heq⟩ := bind_eq_some_iff.mp hrest
  cases heq
  exact hother hptr

theorem meant_partDel (hs : s.Consistent) (hdev : dev ∈ s.devices) (n : Nat) :
    meant s (.partDel dev.ptr n) =
      if s.current = some (dev.ptr, n) then resetTo s dev n else s.current := by
  rw [meant, deviceAt_of_mem hs.addresses hdev]
  rfl

def withoutPart (part : Part) (d : Dev) : Dev :=
  { d with parts := d.parts.filter fun p => p.ptr ≠ part.ptr, numParts := d.numParts - 1 }

theorem length_of_numParts (hdev : dev.Consistent)
    (hparts : dev.parts = before ++ part :: after) (hone : dev.numParts ≠ 1) :
    (dev.numParts - 1).toNat = (before ++ after).length ∧ before ++ after ≠ [] := by
  have hlength : dev.numParts.toNat = (before ++ after).length + 1 := by
    rw [hdev.numParts, hparts, length_append, length_append, length_cons]
    omega
  have htwo : dev.numParts.toNat ≠ 1 := fun h => hone (UInt16.toNat.inj h)
  have hle : (1 : UInt16) ≤ dev.numParts := by
    rw [UInt16.le_iff_toNat_le, hlength]
    exact Nat.le_add_left 1 _
  have hsub : (dev.numParts - 1).toNat = dev.numParts.toNat - 1 := UInt16.toNat_sub_of_le _ _ hle
  refine ⟨by omega, fun hnil => ?_⟩
  rw [hnil] at hlength
  exact htwo hlength

theorem withoutPart_consistent (hdev : dev.Consistent)
    (hparts : dev.parts = before ++ part :: after) (hone : dev.numParts ≠ 1) :
    (withoutPart part dev).Consistent := by
  obtain ⟨hnum, hne⟩ := length_of_numParts hdev hparts hone
  have haddresses := hdev.addresses
  have hsorted := hdev.sorted
  rw [hparts] at haddresses hsorted
  have hfilter : (withoutPart part dev).parts = before ++ after :=
    (congrArg (filter _) hparts).trans (filter_ptr_eq haddresses)
  have hsub : (before ++ after).Sublist (before ++ part :: after) :=
    (List.Sublist.refl before).append (sublist_cons_self part after)
  refine ⟨?_, ?_, ?_, ?_⟩
  · rw [hfilter]
    exact hne
  · rw [hfilter]
    exact haddresses.sublist (hsub.map Part.ptr)
  · rw [hfilter]
    exact hsorted.sublist hsub
  · rw [hfilter]
    exact hnum

theorem partnumAfterDel_eq_iff (hdev : dev.Consistent)
    (hparts : dev.parts = before ++ part :: after)
    (hcur : dev.parts[s.currentMtdPartnum.toNat]? = some cur)
    (hcurrPi : s.currPi dev = some cur) (hne : cur.ptr ≠ part.ptr) :
    (partnumAfterDel s dev part).toNat =
        (if before.length < s.currentMtdPartnum.toNat then s.currentMtdPartnum.toNat - 1
          else s.currentMtdPartnum.toNat) ↔
      (s.currentMtdPartnum.toNat < before.length → part.info.offset ≠ cur.info.offset) := by
  have hsorted := hdev.sorted
  rw [hparts] at hsorted hcur
  obtain ⟨hb, ha, hba⟩ := pairwise_append.mp hsorted
  obtain ⟨hkne, -⟩ := filter_ptr_current hcur hne
  rw [partnumAfterDel, hcurrPi]
  dsimp only
  rw [if_neg hne]
  rcases Nat.lt_or_gt_of_ne hkne with hk | hk
  · -- the current partition stands before the one that is deleted
    rw [getElem?_append_left hk] at hcur
    have hle := hba cur (mem_of_getElem? hcur) part mem_cons_self
    rw [if_neg (Nat.lt_asymm hk)]
    by_cases hsame : part.info.offset ≤ cur.info.offset
    · rw [if_pos hsame]
      refine iff_of_false (fun h => ?_) (fun h => h hk (UInt64.le_antisymm hsame hle))
      exact absurd (UInt8.toNat.inj h) (by simp [sub_eq_self])
    · rw [if_neg hsame]
      refine iff_of_true rfl fun _ heq => hsame (heq ▸ UInt64.le_refl _)
  · rw [getElem?_append_right (Nat.le_of_lt hk)] at hcur
    obtain ⟨j, hj⟩ : ∃ j, s.currentMtdPartnum.toNat - before.length = j + 1 :=
      ⟨s.currentMtdPartnum.toNat - before.length - 1, by omega⟩
    rw [hj, getElem?_cons_succ] at hcur
    have hle := (pairwise_cons.mp ha).1 cur (mem_of_getElem? hcur)
    have hone : (1 : UInt8) ≤ s.currentMtdPartnum := by
      rw [UInt8.le_iff_toNat_le]
      exact Nat.le_trans (Nat.le_add_left 1 _) hk
    rw [if_pos hle, if_pos hk]
    exact iff_of_true (UInt8.toNat_sub_of_le _ _ hone) fun h => absurd h (Nat.lt_asymm hk)

theorem mem_drop_iff {k : Nat}
    (h : ((before ++ part :: after).map Part.ptr).Nodup) :
    (∃ p ∈ (before ++ part :: after).drop (k + 1), p.ptr = part.ptr) ↔ k < before.length := by
  have hpart : (before ++ part :: after)[before.length]? = some part := by simp
  constructor
  · rintro ⟨p, hp, hptr⟩
    obtain ⟨i, hi⟩ := mem_iff_getElem?.mp hp
    rw [getElem?_drop] at hi
    have := index_unique h hi hpart hptr
    omega
  · intro hk
    refine ⟨part, mem_iff_getElem?.mpr ⟨before.length - (k + 1), ?_⟩, rfl⟩
    rw [getElem?_drop, Nat.add_sub_cancel' hk, hpart]

theorem partDel_only (hs : s.Consistent) (hdev : dev ∈ s.devices) (hpart : part ∈ dev.parts)
    (hone : dev.numParts = 1) :
    (partDel s dev part).Consistent ∧
      (partDel s dev part).current = meant s (.partDel dev.ptr part.ptr) := by
  have hparts : dev.parts = [part] := by
    have hlength : dev.parts.length = 1 := by
      rw [← (hs.devices dev hdev).numParts, hone]
      rfl
    obtain ⟨p, hp⟩ := length_eq_one_iff.mp hlength
    rw [hp, mem_singleton] at hpart
    rw [hp, hpart]
  obtain ⟨hconsistent, hcurrent⟩ := @deviceDel_spec s dev hs
  rw [partDel, if_pos hone, hcurrent, meant_partDel hs hdev]
  refine ⟨hconsistent, ?_⟩
  by_cases hsame : s.currentMtdDev = some dev.ptr
  · obtain ⟨cur, hcur, -, hid⟩ := current_index hs hdev hsame
    have hmem : cur ∈ dev.parts := mem_of_getElem? hcur
    rw [hparts, mem_singleton] at hmem
    rw [if_pos hsame, if_pos (hmem ▸ hid), resetTo, hparts]
    simp
  · rw [if_neg hsame, if_neg (current_other hsame _)]

theorem resetTo_eq (s : Globals) (hdev : dev.Consistent)
    (hparts : dev.parts = before ++ part :: after) (hone : dev.numParts ≠ 1) :
    resetTo s dev part.ptr =
      (mtdPartInfo (withoutPart part dev) (0 : UInt8).toNat).map fun p => (dev.ptr, p.ptr) := by
  have hwithout := withoutPart_consistent hdev hparts hone
  obtain ⟨p, rest, hrest⟩ := exists_cons_of_ne_nil hwithout.nonempty
  have hfilter : (dev.parts.filter fun p => p.ptr ≠ part.ptr) = p :: rest := hrest
  rw [mtdPartInfo_eq hwithout.numParts, hrest, resetTo, hfilter]
  rfl

theorem partDel_stable_iff (hs : s.Consistent) (hdev : dev ∈ s.devices) (hpart : part ∈ dev.parts) :
    ((partDel s dev part).Consistent ∧
        (partDel s dev part).current = meant s (.partDel dev.ptr part.ptr)) ↔
      (s.currentMtdDev = some dev.ptr → ∀ cur,
        dev.parts[s.currentMtdPartnum.toNat]? = some cur →
          ∀ p ∈ dev.parts.drop (s.currentMtdPartnum.toNat + 1), p.ptr = part.ptr →
            p.info.offset ≠ cur.info.offset) := by
  have hdevOk := hs.devices dev hdev
  obtain ⟨before, after, hparts⟩ := append_of_mem hpart
  have haddresses := hdevOk.addresses
  rw [hparts] at haddresses
  by_cases hone : dev.numParts = 1
  · refine iff_of_true (partDel_only hs hdev hpart hone) fun _ cur hcur p hp => ?_
    -- there is no second partition
    have hlength : dev.parts.length = 1 := by
      rw [← hdevOk.numParts, hone]
      rfl
    rw [drop_eq_nil_of_le (by omega)] at hp
    cases hp
  · have hptr (d : Dev) : (withoutPart part d).ptr = d.ptr := rfl
    have hstep : partDel s dev part =
        changed s dev (withoutPart part) (partnumAfterDel s dev part) := if_neg hone
    have hwithout := withoutPart_consistent hdevOk hparts hone
    have hfilter : (withoutPart part dev).parts = before ++ after :=
      (congrArg (filter _) hparts).trans (filter_ptr_eq haddresses)
    rw [hstep, changed_consistent_iff hs hdev hptr, meant_partDel hs hdev]
    by_cases hsame : s.currentMtdDev = some dev.ptr
    · obtain ⟨cur, hcur, hcurrPi, hcurrent⟩ := current_index hs hdev hsame
      rw [changed_current_same hs hdev hptr hsame, hcurrent]
      by_cases hdel : cur.ptr = part.ptr
      · -- the current partition is deleted
        have hzero : partnumAfterDel s dev part = 0 := by
          rw [partnumAfterDel, hcurrPi]
          exact if_pos hdel
        have hreset := resetTo_eq s hdevOk hparts hone
        rw [hzero, if_pos (by rw [hdel]), hreset]
        refine iff_of_true ⟨⟨hwithout, ?_⟩, rfl⟩ fun _ cur' _ p hp hpptr => ?_
        · rw [isSome_map, UInt8.toNat_zero, mtdPartInfo_eq hwithout.numParts]
          simpa [length_pos_iff] using hwithout.nonempty
        · rw [hparts] at hp hcur
          have hbehind := (mem_drop_iff haddresses).mp ⟨p, hp, hpptr⟩
          have hat : (before ++ part :: after)[before.length]? = some part := by simp
          have hindex := index_unique haddresses hcur hat hdel
          omega
      · have hindex := (filter_ptr_current (hparts ▸ hcur) hdel).2
        rw [← hfilter] at hindex
        have hne : some (dev.ptr, cur.ptr) ≠ some (dev.ptr, part.ptr) :=
          fun h => hdel (congrArg Prod.snd (some.inj h))
        rw [if_neg hne, and_assoc, and_iff_right hwithout,
          and_iff_right_of_imp (fun h => by rw [h]; rfl), denotes_iff hwithout dev.ptr hindex,
          partnumAfterDel_eq_iff hdevOk hparts hcur hcurrPi hdel]
        have hunique (p : Part) (hp : p ∈ dev.parts.drop (s.currentMtdPartnum.toNat + 1)) :
            p.ptr = part.ptr → p = part :=
          inj_on_of_nodup_map hdevOk.addresses (mem_of_mem_drop hp) hpart
        constructor
        · rintro h - cur' hcur' p hp hpptr
          obtain rfl : cur = cur' := some.inj (hcur.symm.trans hcur')
          obtain rfl := hunique p hp hpptr
          rw [hparts] at hp
          exact h ((mem_drop_iff haddresses).mp ⟨p, hp, rfl⟩)
        · intro h hk
          obtain ⟨p, hp, hpptr⟩ := (mem_drop_iff haddresses).mpr hk
          rw [← hparts] at hp
          obtain rfl := hunique p hp hpptr
          exact h hsame cur hcur p hp rfl
    · have hnone : s.currPi dev = none := if_neg hsame
      have hnum : partnumAfterDel s dev part = s.currentMtdPartnum := by
        rw [partnumAfterDel, hnone]
      rw [hnum, changed_current_other hptr hsame, if_neg (current_other hsame _)]
      exact iff_of_true ⟨⟨hwithout, hs.current (ne_nil_of_mem hdev)⟩, rfl⟩
        fun h => absurd h hsame

/-! ## Runs -/

theorem step_stable_iff (hs : s.Consistent) (hcall : Callable s call) :
    Stable board s call ↔ Safe board s call := by
  cases call with
  | partAdd ptr part =>
    obtain ⟨dev, hdev, rfl, hnew⟩ := hcall
    have hlookup := deviceAt_of_mem hs.addresses hdev
    have hstep : (mtdparts board).step s (.partAdd dev.ptr part) = partAdd board s dev part := by
      rw [mtdparts]
      dsimp only
      rw [hlookup]
    rw [Stable, hstep]
    refine (partAdd_stable_iff hs hdev hnew).trans ⟨fun h d hd hptr => ?_, fun h => h dev hdev rfl⟩
    obtain rfl := inj_on_of_nodup_map hs.addresses hd hdev hptr
    exact h
  | partDel ptr part =>
    obtain ⟨dev, hdev, rfl, p, hp, rfl⟩ := hcall
    have hlookup := deviceAt_of_mem hs.addresses hdev
    have hfind := find?_of_nodup (hs.devices dev hdev).addresses hp
    have hstep : (mtdparts board).step s (.partDel dev.ptr p.ptr) = (partDel s dev p, 0) := by
      rw [mtdparts]
      dsimp only
      rw [hlookup]
      dsimp only
      rw [hfind]
    rw [Stable, hstep]
    refine (partDel_stable_iff hs hdev hp).trans ⟨fun h d hd hptr => ?_, fun h => h dev hdev rfl⟩
    obtain rfl := inj_on_of_nodup_map hs.addresses hd hdev hptr
    exact h

/-- In every run, the current partition is kept as it is meant and the lists are consistent after
each call, just if each call is safe. -/
theorem mtdparts_stable_iff (board : Board) {s : Globals} {calls : List Call} (hs : s.Consistent)
    (hcalls : (mtdparts board).Meets Callable s calls) :
    (mtdparts board).Meets (Stable board) s calls ↔ (mtdparts board).Meets (Safe board) s calls :=
  Machine.meets_iff_of_invariant (fun _ _ hs hcall => step_stable_iff hs hcall)
    (fun _ _ _ h => h.1) hs hcalls

def flashId : MtdId := ⟨.nand, 0, 0x1000000, []⟩

def partAt (ptr : Nat) (offset : UInt64) : Part := ⟨ptr, ⟨[], false, 0x20000, offset, 0, 0x20000⟩⟩

def flashBoard : Board := fun _ _ => some ⟨0x20000, []⟩

def twoParts (first second : UInt64) : Globals :=
  ⟨[⟨1, flashId, [partAt 10 first, partAt 11 second], 2⟩], some 1, 0⟩

theorem twoParts_consistent (h : first ≤ second) :
    (twoParts first second).Consistent where
  addresses := nodup_singleton _
  devices := by
    intro dev hdev
    obtain rfl := mem_singleton.mp hdev
    exact ⟨cons_ne_nil _ _, (by decide : [10, 11].Nodup),
      pairwise_pair.mpr h, rfl⟩
  current := fun _ => rfl

def threeParts : Globals :=
  ⟨[⟨1, flashId, [partAt 12 0, partAt 10 0x20000, partAt 11 0x40000], 3⟩], some 1, 1⟩

/-- A partition is added before the current one, which is then deleted. -/
theorem mtdparts_stable_sample :
    (twoParts 0x20000 0x40000).Consistent ∧
      (mtdparts flashBoard).Meets (Stable flashBoard) (twoParts 0x20000 0x40000)
        [.partAdd 1 (partAt 12 0), .partDel 1 10] := by
  have hs : (twoParts 0x20000 0x40000).Consistent := twoParts_consistent (by decide)
  have hstep : ((mtdparts flashBoard).step (twoParts 0x20000 0x40000)
      (.partAdd 1 (partAt 12 0))).1 = threeParts := by decide +kernel
  have hcalls : (mtdparts flashBoard).Meets Callable (twoParts 0x20000 0x40000)
      [.partAdd 1 (partAt 12 0), .partDel 1 10] := by
    refine ⟨⟨_, mem_singleton_self _, rfl, by decide⟩, ?_, trivial⟩
    rw [hstep]
    exact ⟨_, mem_singleton_self _, rfl, partAt 10 0x20000, by decide, rfl⟩
  refine ⟨hs, (mtdparts_stable_iff flashBoard hs hcalls).mpr ⟨?_, ?_, trivial⟩⟩
  · intro dev hdev _ _ _
    obtain rfl := mem_singleton.mp hdev
    exact ⟨by decide, fun _ _ _ _ => by decide⟩
  · rw [hstep]
    intro dev hdev _ _ cur _ p hp hptr
    obtain rfl := mem_singleton.mp hdev
    obtain rfl := mem_singleton.mp hp
    exact absurd hptr (by decide)

/-- Of two partitions at one offset, the first is current and the second is deleted: the number
becomes 255, and there is no current partition. -/
theorem mtdparts_loses_current :
    (twoParts 0x20000 0x20000).Consistent ∧
      Callable (twoParts 0x20000 0x20000) (.partDel 1 11) ∧
      (twoParts 0x20000 0x20000).current = some (1, 10) ∧
      (((mtdparts flashBoard).step (twoParts 0x20000 0x20000) (.partDel 1 11)).1 =
        ⟨[⟨1, flashId, [partAt 10 0x20000], 1⟩], some 1, 255⟩) ∧
      ((mtdparts flashBoard).step (twoParts 0x20000 0x20000) (.partDel 1 11)).1.current = none := by
  refine ⟨twoParts_consistent (by decide), ?_, by decide +kernel, by decide +kernel,
    by decide +kernel⟩
  exact ⟨_, mem_singleton_self _, rfl, partAt 11 0x20000, by decide, rfl⟩

end UBoot.Mtdparts.Current
