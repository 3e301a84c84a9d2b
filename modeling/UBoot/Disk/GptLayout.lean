import UBoot.Disk.GptBackup

/-!
# The layout of a new table

`gpt_fill_pte` keeps the block behind the last partition in 32 bits, and compares
that with the last usable block. A partition whose end does not fit in 32 bits passes
the check with what is left of it.
-/

namespace UBoot.Gpt

open List

/-! ## Legal layouts -/

structure Legal (first last : Nat) (partitions : List DiskPartition) (entries : List GptEntry) :
    Prop where
  inside : ∀ e ∈ entries, first ≤ e.startingLba.toNat ∧
    e.startingLba.toNat ≤ e.endingLba.toNat ∧ e.endingLba.toNat ≤ last
  ordered : entries.Pairwise fun a b => a.endingLba.toNat < b.startingLba.toNat
  sizes : List.Forall₂ (fun p e => p.size ≠ 0 →
    e.endingLba.toNat + 1 = e.startingLba.toNat + p.size.toNat) partitions entries

/-- The block that a partition begins with, when the one before ends at `offset`. -/
def DiskPartition.beginAt (p : DiskPartition) (offset : Nat) : Nat :=
  if p.start.toNat % 2 ^ 32 = 0 then offset else p.start.toNat % 2 ^ 32

/-- Every partition ends within 32 bits. The last one may end with block `2 ^ 32 - 1`, if that
can be used. -/
def EndsIn32 (last : Nat) : Nat → List DiskPartition → Prop
  | _, [] => True
  | offset, p :: rest =>
    let stop := p.beginAt offset + p.size.toNat
    (stop < 2 ^ 32 ∨ rest = [] ∧ stop = 2 ^ 32 ∧ 2 ^ 32 ≤ last + 1) ∧ EndsIn32 last stop rest

theorem legal_nil (first last : Nat) : Legal first last [] [] :=
  ⟨by simp, List.Pairwise.nil, .nil⟩

theorem legal_cons : Legal first last (p :: rest) (e :: es) ↔
    (first ≤ e.startingLba.toNat ∧ e.startingLba.toNat ≤ e.endingLba.toNat ∧
      e.endingLba.toNat ≤ last ∧
      (p.size ≠ 0 → e.endingLba.toNat + 1 = e.startingLba.toNat + p.size.toNat)) ∧
    (∀ e' ∈ es, e.endingLba.toNat < e'.startingLba.toNat) ∧ Legal first last rest es := by
  constructor
  · rintro ⟨hinside, hordered, hsizes⟩
    obtain ⟨he, hes⟩ := forall_mem_cons.mp hinside
    obtain ⟨hbehind, hordered⟩ := pairwise_cons.mp hordered
    obtain ⟨hsize, hsizes⟩ := forall₂_cons.mp hsizes
    exact ⟨⟨he.1, he.2.1, he.2.2, hsize⟩, hbehind, hes, hordered, hsizes⟩
  · rintro ⟨⟨hfirst, hle, hlast, hsize⟩, hbehind, hinside, hordered, hsizes⟩
    exact ⟨forall_mem_cons.mpr ⟨⟨hfirst, hle, hlast⟩, hinside⟩,
      pairwise_cons.mpr ⟨hbehind, hordered⟩, .cons hsize hsizes⟩

theorem legal_behind (h : first ≤ stop) : Legal stop last partitions entries ↔
    (∀ e ∈ entries, stop ≤ e.startingLba.toNat) ∧ Legal first last partitions entries := by
  constructor
  · rintro ⟨hinside, hordered, hsizes⟩
    refine ⟨fun e he => (hinside e he).1, fun e he => ?_, hordered, hsizes⟩
    exact ⟨h.trans (hinside e he).1, (hinside e he).2⟩
  · rintro ⟨hbehind, hinside, hordered, hsizes⟩
    exact ⟨fun e he => ⟨hbehind e he, (hinside e he).2⟩, hordered, hsizes⟩

/-! ## Filling the entries -/

structure FillsEntry (gptH : GptHeader) (offset : Nat) (last : Bool) (p : DiskPartition)
    (e : GptEntry) (offset' : Nat) : Prop where
  begin_ge : offset ≤ p.beginAt offset
  begin_lt : p.beginAt offset < 2 ^ 32
  starting : e.startingLba.toNat = p.beginAt offset
  offset_eq : offset' = (p.beginAt offset + p.size.toNat) % 2 ^ 32
  offset_lt : offset' < gptH.lastUsableLba.toNat
  ending_last : last = true → p.size = 0 → e.endingLba = gptH.lastUsableLba
  ending : ¬ (last = true ∧ p.size = 0) → e.endingLba.toNat = (offset' + (2 ^ 32 - 1)) % 2 ^ 32

theorem fillEntry_spec
    (h : fillEntry uuids gptH offset last p e = some (e', offset')) :
    FillsEntry gptH offset.toNat last p e' offset'.toNat := by
  have hstart : (if p.start.toUInt32 ≠ 0 then p.start.toUInt32 else offset).toNat =
      p.beginAt offset.toNat := by
    rw [DiskPartition.beginAt, ← UInt64.toNat_toUInt32]
    by_cases hzero : p.start.toUInt32 = 0
    · simp [hzero]
    · have hne : p.start.toUInt32.toNat ≠ 0 := fun h => hzero (UInt32.toNat_inj.mp h)
      rw [if_pos hzero, if_neg hne]
  have hge : ¬ (p.start.toUInt32 ≠ 0 ∧ p.start.toUInt32 < offset) →
      offset ≤ if p.start.toUInt32 ≠ 0 then p.start.toUInt32 else offset := by
    intro hno
    split
    next hne => exact UInt32.not_lt.mp fun hlt => hno ⟨hne, hlt⟩
    next => exact UInt32.le_refl offset
  simp only [fillEntry, ← apply_ite UInt32.toUInt64] at h
  generalize (if p.start.toUInt32 ≠ 0 then p.start.toUInt32 else offset) = start at h hstart hge
  split at h
  next => cases h
  next hoverlap =>
    split at h
    next => cases h
    next hlast =>
      generalize hending : (if last = true ∧ p.size = 0 then gptH.lastUsableLba
        else (start + p.size.toUInt32 - 1).toUInt64) = ending at h
      split at h
      next => cases h
      next =>
        cases h
        have hle := UInt32.le_iff_toNat_le.mp (hge hoverlap)
        have hlt := UInt64.lt_iff_toNat_lt.mp (UInt64.not_le.mp hlast)
        rw [UInt32.toNat_toUInt64] at hlt
        refine ⟨hstart ▸ hle, hstart ▸ start.toNat_lt, by simpa using hstart, ?_, hlt,
          fun hl hs => ?_, fun hno => ?_⟩
        · rw [UInt32.toNat_add, hstart, UInt64.toNat_toUInt32, Nat.add_mod_mod]
        · rw [← hending, if_pos ⟨hl, hs⟩]
        · rw [← hending, if_neg hno, UInt32.toNat_toUInt64, UInt32.toNat_sub]
          rw [Nat.add_comm]
          rfl

inductive Fills (gptH : GptHeader) : Nat → List DiskPartition → List GptEntry → Prop
  | nil : Fills gptH offset [] []
  | cons : FillsEntry gptH offset rest.isEmpty p e offset' → Fills gptH offset' rest es →
      Fills gptH offset (p :: rest) (e :: es)

theorem gptFillPte_fills
    (h : gptFillPte uuids gptH gptE offset i partitions = .done gptE') :
    ∃ es, Fills gptH offset.toNat partitions es ∧
      gptE'.toList.take (i + partitions.length) = gptE.toList.take i ++ es := by
  induction partitions generalizing gptE offset i with
  | nil =>
    cases h
    exact ⟨[], .nil, by simp⟩
  | cons p rest ih =>
    rw [gptFillPte] at h
    split at h
    next hi =>
      split at h
      next => cases h
      next e offset' hentry =>
        obtain ⟨es, hfills, htake⟩ := ih h
        refine ⟨e :: es, .cons (fillEntry_spec hentry) hfills, ?_⟩
        have hset : (gptE.set i e).toList.take (i + 1) = gptE.toList.take i ++ [e] := by
          rw [Vector.toList_set, take_succ_eq_append_getElem (by simpa using hi),
            take_set_of_le le_rfl, getElem_set_self]
        rw [length_cons, Nat.add_comm rest.length, ← Nat.add_assoc, htake, hset,
          append_assoc, singleton_append]
    next => cases h

section Round

variable {gptH : GptHeader} {offset offset' : Nat} {rest : List DiskPartition}
  {p : DiskPartition} {e : GptEntry} {es : List GptEntry}

section
variable (h : FillsEntry gptH offset rest.isEmpty p e offset') (hfills : Fills gptH offset' rest es)
include h hfills

theorem FillsEntry.legal_iff_of_lt (hpos : rest ≠ [] → p.size ≠ 0)
    (hlt : p.beginAt offset + p.size.toNat < 2 ^ 32) :
    Legal offset gptH.lastUsableLba.toNat (p :: rest) (e :: es) ↔
      Legal (p.beginAt offset + p.size.toNat) gptH.lastUsableLba.toNat rest es := by
  have hstop : offset' = p.beginAt offset + p.size.toNat := by
    rw [h.offset_eq, Nat.mod_eq_of_lt hlt]
  have hge := h.begin_ge
  have hlast := h.offset_lt
  have hstarting := h.starting
  rw [legal_cons, legal_behind (h.begin_ge.trans (Nat.le_add_right _ _))]
  by_cases hzero : p.size = 0
  · obtain rfl : rest = [] := by_contra fun hne => hpos hne hzero
    cases hfills
    have hending := h.ending_last rfl hzero
    simp only [hzero, hending, UInt64.toNat_zero, not_mem_nil, false_imp_iff, implies_true,
      legal_nil, ne_eq, not_true_eq_false, and_true, iff_true] at hstop ⊢
    omega
  · have hsize : 0 < p.size.toNat :=
      Nat.pos_of_ne_zero fun h => hzero (UInt64.toNat_inj.mp h)
    have hending : e.endingLba.toNat + 1 = p.beginAt offset + p.size.toNat := by
      rw [h.ending fun h => hzero h.2]
      omega
    have hgood : offset ≤ e.startingLba.toNat ∧ e.startingLba.toNat ≤ e.endingLba.toNat ∧
        e.endingLba.toNat ≤ gptH.lastUsableLba.toNat ∧
        (p.size ≠ 0 → e.endingLba.toNat + 1 = e.startingLba.toNat + p.size.toNat) := by
      refine ⟨by omega, by omega, by omega, fun _ => by omega⟩
    rw [← hending, and_iff_right hgood]
    rfl

theorem FillsEntry.legal_iff_of_le (hle : 2 ^ 32 ≤ p.beginAt offset + p.size.toNat) :
    Legal offset gptH.lastUsableLba.toNat (p :: rest) (e :: es) ↔
      rest = [] ∧ p.beginAt offset + p.size.toNat = 2 ^ 32 ∧
        2 ^ 32 ≤ gptH.lastUsableLba.toNat + 1 := by
  have hzero : p.size ≠ 0 := by
    intro hzero
    have := h.begin_lt
    rw [hzero, UInt64.toNat_zero] at hle
    omega
  have hending := h.ending fun h => hzero h.2
  have hoffset := h.offset_eq
  have hstarting := h.starting
  rw [legal_cons]
  constructor
  · rintro ⟨⟨-, -, hlast, hsize⟩, hbehind, -⟩
    have hsize := hsize hzero
    refine ⟨?_, by omega, by omega⟩
    cases hfills with
    | nil => rfl
    | @cons _ p₂ e₂ _ _ _ hentry _ =>
      have hnext := hbehind e₂ mem_cons_self
      have := hentry.begin_lt
      rw [hentry.starting] at hnext
      omega
  · rintro ⟨rfl, hstop, hlast⟩
    cases hfills
    have hge := h.begin_ge
    have hlt := h.begin_lt
    exact ⟨⟨by omega, by omega, by omega, fun _ => by omega⟩, by simp, legal_nil _ _⟩

end

end Round

theorem Fills.legal_iff (h : Fills gptH offset partitions es)
    (hsizes : ∀ p ∈ partitions.dropLast, p.size ≠ 0) :
    Legal offset gptH.lastUsableLba.toNat partitions es ↔
      EndsIn32 gptH.lastUsableLba.toNat offset partitions := by
  induction h with
  | nil => exact iff_of_true (legal_nil _ _) trivial
  | @cons offset p e offset' rest es hentry hfills ih =>
    have hpos : rest ≠ [] → p.size ≠ 0 := fun hne =>
      hsizes p (dropLast_cons_of_ne_nil hne ▸ mem_cons_self)
    have hrest : ∀ q ∈ rest.dropLast, q.size ≠ 0 := fun q hq =>
      hsizes q (by cases rest <;> simp_all)
    rw [EndsIn32]
    by_cases hlt : p.beginAt offset + p.size.toNat < 2 ^ 32
    · have hstop : offset' = p.beginAt offset + p.size.toNat := by
        rw [hentry.offset_eq, Nat.mod_eq_of_lt hlt]
      rw [hentry.legal_iff_of_lt hfills hpos hlt, ← hstop, ih hrest,
        and_iff_right (.inl (hstop ▸ hlt))]
    · rw [hentry.legal_iff_of_le hfills (Nat.not_lt.mp hlt)]
      constructor
      · rintro ⟨rfl, hstop, hlast⟩
        exact ⟨.inr ⟨rfl, hstop, hlast⟩, trivial⟩
      · rintro ⟨hlt' | hend, -⟩
        · exact absurd hlt' hlt
        · exact hend

/-- The entries that are filled in are a legal layout just when the partitions end within 32
bits. -/
theorem gptFillPte_legal_iff {dev : BlockDev} {strGuid : List UInt8} {gptH : GptHeader}
    {uuids : Bool} {gptE gptE' : Entries} {partitions : List DiskPartition}
    (hmin : 128 ≤ dev.lba) (hmax : dev.lba < 2 ^ 64)
    (hheader : gptFillHeader dev strGuid = some gptH)
    (hsizes : ∀ p ∈ partitions.dropLast, p.size ≠ 0)
    (hfill : gptFillPte uuids gptH gptE gptH.firstUsableLba.toUInt32 0 partitions = .done gptE') :
    Legal gptH.firstUsableLba.toNat gptH.lastUsableLba.toNat partitions
        (gptE'.toList.take partitions.length) ↔
      EndsIn32 (dev.lba - 34) 34 partitions := by
  have hstd := gptFillHeader_standard hheader
  have hfirst : gptH.firstUsableLba.toNat = 34 := by rw [hstd.firstUsableLba]; rfl
  have hoffset : gptH.firstUsableLba.toUInt32.toNat = 34 := by rw [hstd.firstUsableLba]; rfl
  have hlast : gptH.lastUsableLba.toNat = dev.lba - 34 := by
    have hlba : (UInt64.ofNat dev.lba).toNat = dev.lba := UInt64.toNat_ofNat_of_lt' hmax
    have hle : 34 ≤ UInt64.ofNat dev.lba := by
      rw [UInt64.le_iff_toNat_le, hlba]
      exact Nat.le_trans (by decide) hmin
    rw [hstd.lastUsableLba, UInt64.toNat_sub_of_le _ _ hle, hlba]
    rfl
  obtain ⟨es, hfills, htake⟩ := gptFillPte_fills hfill
  rw [Nat.zero_add, take_zero, nil_append] at htake
  rw [hoffset] at hfills
  rw [htake, hfirst, ← hlast]
  exact hfills.legal_iff hsizes

theorem gptFillPte_legal_small :
    ∃ gptH gptE, gptFillHeader smallDev smallGuid = some gptH ∧
      gptFillPte true gptH (Vector.replicate 128 {}) 34 0 [smallPartition] = .done gptE ∧
      Legal 34 94 [smallPartition] (gptE.toList.take 1) := by
  obtain ⟨disk', hrestore⟩ := smallRestore_ok
  obtain ⟨gptH, gptE, hheader, hpte, -⟩ := gptRestore_eq_ok hrestore
  have hstd := gptFillHeader_standard hheader
  have hiff := gptFillPte_legal_iff (by decide) (by decide) hheader (by simp) hpte
  rw [hstd.firstUsableLba, hstd.lastUsableLba] at hiff
  rw [hstd.firstUsableLba] at hpte
  refine ⟨gptH, gptE, hheader, hpte, hiff.mpr ?_⟩
  simp [EndsIn32, DiskPartition.beginAt, smallPartition]

def hugePartition : DiskPartition := ⟨0, 0xffffffff, Vector.replicate 32 0, smallGuid⟩

/-- The partition is accepted, and ends in front of its first block. -/
theorem gptFillPte_huge : ∃ gptH gptE,
    gptFillHeader ⟨1000, fun _ _ => true⟩ smallGuid = some gptH ∧
      gptFillPte true gptH (Vector.replicate 128 {}) 34 0 [hugePartition] = .done gptE ∧
      (gptE.toList.take 1).map (fun e => (e.startingLba, e.endingLba)) = [(34, 32)] ∧
      ¬ Legal 34 966 [hugePartition] (gptE.toList.take 1) := by
  have hrun : ((gptFillHeader ⟨1000, fun _ _ => true⟩ smallGuid).bind fun gptH =>
      match gptFillPte true gptH (Vector.replicate 128 {}) 34 0 [hugePartition] with
      | .done gptE => some ((gptE.toList.take 1).map fun e => (e.startingLba, e.endingLba))
      | _ => none) = some [(34, 32)] := by decide +kernel
  obtain ⟨gptH, hheader, hrun⟩ := Option.bind_eq_some_iff.mp hrun
  split at hrun
  next gptE hfill =>
    have hmap := Option.some.inj hrun
    refine ⟨gptH, gptE, hheader, hfill, hmap, fun hlegal => ?_⟩
    obtain ⟨e, he, hlba⟩ := map_eq_singleton_iff.mp hmap
    obtain ⟨hstarting, hending⟩ := Prod.mk.inj hlba
    have hle := (hlegal.inside e (he ▸ mem_cons_self)).2.1
    rw [hstarting, hending] at hle
    exact absurd hle (by decide)
  next => cases hrun

end UBoot.Gpt
