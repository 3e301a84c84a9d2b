import UBoot.Env.HashTableSize
import UBoot.Env.ImportExport

/-!
# Import undoes export

The bytes `hexport_r` writes for the entries of a table are parsed by
`himport_r` back into the same entries, which a new table has room for. The
export itself stays inside its buffer exactly when the separator is not `NUL`,
for which pass 1 counts the escapes, or the values hold at most two
backslashes for each entry.
-/

namespace UBoot.Env

open List

/-! ## qsort permutes -/

section
open Array (Perm)
variable {α : Type} {comp : α → α → Int}

theorem swapIfInBounds_perm (base : Array α) (i j : Nat) : (base.swapIfInBounds i j).Perm base := by
  unfold Array.swapIfInBounds
  split
  · split
    · exact Array.swap_perm ..
    · exact .refl _
  · exact .refl _

theorem qsortSink_perm (base : Array α) : (qsortSink comp wgap fuel j base).Perm base := by
  induction fuel generalizing j base with
  | zero => exact .refl _
  | succ fuel ih =>
    simp only [qsortSink]
    split
    · split
      · exact .refl _
      · have hswap := swapIfInBounds_perm base (j - wgap) j
        split
        · exact (ih _).trans hswap
        · exact hswap
    · exact .refl _

theorem qsortPass_perm (base : Array α) : (qsortPass comp wgap base).Perm base := by
  unfold qsortPass
  generalize range' wgap (base.size - wgap) = is
  induction is generalizing base with
  | nil => exact .refl _
  | cons i is ih => exact (ih _).trans (qsortSink_perm base)

theorem qsortLoop_perm (base : Array α) : (qsortLoop comp fuel wgap base).Perm base := by
  induction fuel generalizing wgap base with
  | zero => exact .refl _
  | succ fuel ih =>
    simp only [qsortLoop]
    split
    · exact (ih _).trans (qsortPass_perm base)
    · exact qsortPass_perm base

theorem qsort_perm (comp : α → α → Int) (l : List α) : (qsort comp l.toArray).toList.Perm l := by
  have h : (qsort comp l.toArray).Perm l.toArray := by
    unfold qsort
    split
    · exact qsortLoop_perm _
    · exact .refl _
  exact Array.perm_iff_toList_perm.mp h

end

/-! ## The entries of a table -/

theorem Slot.pair_eq_some_iff (s : Slot) :
    s.pair = some (k, v) ↔ 0 < s.used ∧ s.entry.key = some k ∧ s.entry.data = some v := by
  unfold Slot.pair
  split
  · rename_i hu
    simp [hu, Option.bind_eq_some_iff]
  · rename_i hu
    simp [hu]

theorem Htab.mem_pairs {htab : Htab} : (k, v) ∈ htab.pairs ↔ htab.Holds k v := by
  simp only [Htab.pairs, mem_filterMap, Slot.pair_eq_some_iff, mem_range'_1, Htab.Holds,
    Finset.mem_Icc]
  exact exists_congr fun i => and_congr_left fun _ => by omega

/-! ## Parsing what was exported -/

structure Importable (sep : UInt8) (e : Pair) : Prop where
  key_ne : e.1.val ≠ []
  key_equals : chEquals ∉ e.1.val
  key_sep : sep ∉ e.1.val
  key_start : ∀ c ∈ e.1.val.head?, isblank c = false ∧ c ≠ chHash
  data_ne : e.2.val ≠ []

theorem parseName_key (key : CString) (heq : chEquals ∉ key.val) (hsep : sep ∉ key.val) :
    parseName sep (key.val ++ chEquals :: dp) = .ok (key, chEquals :: dp) := by
  obtain ⟨s, hs⟩ := key
  induction s with
  | nil => simp [parseName, CString.nil]
  | cons c cs ih =>
    simp only [mem_cons, not_or] at heq hsep hs
    have hc : c ≠ chEquals ∧ c ≠ 0 ∧ c ≠ sep := ⟨Ne.symm heq.1, Ne.symm hs.1, Ne.symm hsep.1⟩
    simp only [cons_append, parseName, dif_pos hc, ih hs.2 heq.2 hsep.2]
    rfl

def TextSep (sep : UInt8) : Prop := sep = 0 ∨ sep = chNewline

theorem TextSep.ne_backslash (h : TextSep sep) : chBackslash ≠ sep := by
  rcases h with rfl | rfl <;> decide

theorem parseValue_escape (hsep : TextSep sep) (value : CString) :
    parseValue sep (escape sep value.val ++ sep :: dp) = .ok (value, dp) := by
  obtain ⟨s, hs⟩ := value
  induction s with
  | nil => simp [escape, parseValue, CString.nil]
  | cons c cs ih =>
    simp only [mem_cons, not_or] at hs
    have hc : c ≠ 0 := Ne.symm hs.1
    have ih := ih hs.2
    have hb := hsep.ne_backslash
    simp only [escape, flatMap_cons] at ih ⊢
    split
    · -- an escaped character is taken as it is
      simp only [cons_append, nil_append]
      rw [parseValue, dif_neg (not_or.mpr ⟨by decide, hb⟩), if_pos rfl]
      simp only [dif_pos hc, ih]
      rfl
    · rename_i hesc
      simp only [needsEscape, Bool.or_eq_true, beq_iff_eq, not_or] at hesc
      simp only [cons_append, nil_append]
      rw [parseValue, dif_neg (by simp [hc, hesc.1]), if_neg hesc.2, ih]
      rfl

theorem isDeletion_escape (hsep : TextSep sep) (value : CString) (hne : value.val ≠ []) :
    isDeletion sep (chEquals :: (escape sep value.val ++ dp)) = .ok false := by
  obtain ⟨s, hs⟩ := value
  have heq : chEquals ≠ 0 ∧ chEquals ≠ sep := by rcases hsep with rfl | rfl <;> decide
  cases s with
  | nil => exact absurd rfl hne
  | cons c cs =>
    simp only [mem_cons, not_or] at hs
    have hb := hsep.ne_backslash
    simp only [escape, flatMap_cons]
    split
    · have hb0 : chBackslash ≠ 0 := by decide
      simp [isDeletion, heq, hb, hb0]
    · rename_i hesc
      simp only [needsEscape, Bool.or_eq_true, beq_iff_eq, not_or] at hesc
      simp [isDeletion, heq, hesc.1, Ne.symm hs.1]

def Htab.enter (hooks : Hooks) (htab : Htab) (e : Pair) : Htab :=
  (hsearchR hooks e.1 (some e.2) .enter 0 htab).htab

theorem importEntry_entryBytes (hooks : Hooks) (hsep : TextSep sep) (he : Importable sep e)
    (htab : Htab) (dp : List UInt8) :
    importEntry hooks sep 0 ⟨htab, [], entryBytes sep e ++ dp⟩ =
      .ok (⟨htab.enter hooks e, [], dp⟩, true) := by
  obtain ⟨key, value⟩ := e
  have hskip : skipBlanks (entryBytes sep (key, value) ++ dp) =
      .ok (entryBytes sep (key, value) ++ dp) ∧
      (entryBytes sep (key, value) ++ dp).head? ≠ some chHash := by
    obtain ⟨s, hs⟩ := key
    cases s with
    | nil => exact absurd rfl he.key_ne
    | cons c cs =>
      have hc := he.key_start c rfl
      exact ⟨by simp [entryBytes, skipBlanks, hc.1], by simpa [entryBytes] using hc.2⟩
  have hbytes : entryBytes sep (key, value) ++ dp =
      key.val ++ chEquals :: (escape sep value.val ++ sep :: dp) := by simp [entryBytes]
  have hname : key ≠ .nil := fun h => he.key_ne (congrArg Subtype.val h)
  simp only [importEntry, hskip, bind, Except.bind, ↓reduceIte]
  rw [hbytes, parseName_key key he.key_equals he.key_sep]
  simp only [isDeletion_escape hsep value he.data_ne, tail_cons, parseValue_escape hsep,
    hname, Bool.false_eq_true, ↓reduceIte, dropVarFromSet, isEmpty_nil]
  rfl

theorem Importable.headD_ne (he : Importable sep e) (dp : List UInt8) :
    (entryBytes sep e ++ dp).headD 0 ≠ 0 := by
  obtain ⟨⟨s, hs⟩, value⟩ := e
  cases s with
  | nil => exact absurd rfl he.key_ne
  | cons c cs =>
    simp only [mem_cons, not_or] at hs
    simpa [entryBytes] using Ne.symm hs.1

theorem importLoop_entries (hooks : Hooks) (hsep : TextSep sep) (es : List Pair) (hne : es ≠ [])
    (he : ∀ e ∈ es, Importable sep e) (hfuel : es.length ≤ fuel) (htab : Htab) (dp : List UInt8) :
    importLoop hooks sep 0 fuel ⟨htab, [], es.flatMap (entryBytes sep) ++ 0 :: dp⟩ =
      .ok (⟨es.foldl (Htab.enter hooks) htab, [], 0 :: dp⟩, true) := by
  induction es generalizing htab fuel with
  | nil => exact absurd rfl hne
  | cons e es ih =>
    obtain ⟨fuel, rfl⟩ : ∃ n, fuel = n + 1 := ⟨fuel - 1, by simp at hfuel; omega⟩
    have hentry := importEntry_entryBytes hooks hsep (he e (by simp)) htab
      (es.flatMap (entryBytes sep) ++ 0 :: dp)
    simp only [flatMap_cons, append_assoc, importLoop, hentry, bind, Except.bind]
    cases es with
    | nil => simp
    | cons e' es =>
      have hnext := (he e' (by simp)).headD_ne (es.flatMap (entryBytes sep) ++ 0 :: dp)
      rw [flatMap_cons, append_assoc, if_pos ⟨trivial, hnext⟩]
      rw [flatMap_cons, append_assoc] at ih
      exact ih (by simp) (fun x hx => he x (by simp [hx])) (by simpa using hfuel) _

theorem importLoop_terminator (hooks : Hooks) (sep : UInt8) (fuel : Nat) (htab : Htab) (n : Nat) :
    importLoop hooks sep 0 (fuel + 1) ⟨htab, [], 0 :: List.replicate n 0⟩ =
      .ok (⟨(hdeleteR hooks .nil 0 htab).2.2, [], List.replicate n 0⟩, true) := by
  have hblank : isblank 0 = false := by decide
  have hchars : (0 : UInt8) ≠ chHash ∧ (0 : UInt8) ≠ chEquals := by decide
  have hdel : isDeletion sep (0 :: replicate n 0) = .ok true := by
    cases n <;> simp [isDeletion, replicate_succ]
  have hstop : (replicate n (0 : UInt8)).head?.getD 0 = 0 := by cases n <;> rfl
  simp [importLoop, importEntry, skipBlanks, hblank, hchars, parseName, hdel, dropVarFromSet,
    bind, Except.bind, hstop]

/-! ## Entering into a table without deleted slots -/

section
variable {htab : Htab} {m : EnvMap} {hooks : Hooks}

def Htab.NoneDeleted (htab : Htab) : Prop := ∀ i ∈ Finset.Icc 1 htab.size, (htab.table i).used ≠ -1

theorem Htab.NoneDeleted.setSlot (h : htab.NoneDeleted) (hs : s.used ≠ -1) :
    (htab.setSlot i s).NoneDeleted := by
  intro j hj
  by_cases he : j = i
  · subst he; simpa [Htab.setSlot] using hs
  · simpa [Htab.setSlot, Function.update_of_ne he] using h j hj

theorem Represents.exists_free (hr : Represents cap htab m) (hn : htab.NoneDeleted)
    (hfull : m.keys.card < cap) : ∃ i ∈ Finset.Icc 1 htab.size, (htab.table i).used = 0 := by
  by_contra hused
  push Not at hused
  have hlive : ∀ i ∈ Finset.Icc 1 htab.size, ∃ k, htab.cells i = .live k := by
    intro i hi
    obtain ⟨k, d, hu, hk, -⟩ := ((hr.slots i hi).used.resolve_left (hused i hi)).resolve_left (hn i hi)
    exact ⟨k, (hr.slots i hi).cell_live_iff.mpr ⟨hu, hk⟩⟩
  have : Nonempty CString := ⟨.nil⟩
  choose! key hkey using hlive
  have hcard : (Finset.Icc 1 htab.size).card ≤ m.keys.card := by
    refine Finset.card_le_card_of_injOn key (fun i hi => ?_) fun i hi j hj h => ?_
    · exact Finmap.mem_keys.mpr (hr.mem_of_live hi (hkey i hi))
    · exact hr.inv.unique hi hj (hkey i hi) (h ▸ hkey j hj)
  rw [Nat.card_Icc, hr.size] at hcard
  omega

theorem Represents.card_le (hr : Represents cap htab m) : m.keys.card ≤ cap := by
  have hslot : ∀ k ∈ m.keys, ∃ i ∈ Finset.Icc 1 htab.size, htab.cells i = .live k := by
    intro k hk
    obtain ⟨v, hv⟩ := Finmap.mem_iff.mp (Finmap.mem_keys.mp hk)
    obtain ⟨i, hi, hc, -⟩ := (Htab.holds_iff hr.slots).mp ((hr.holds k v).mpr hv)
    exact ⟨i, hi, hc⟩
  choose! slot hmem hlive using hslot
  have hcard : m.keys.card ≤ (Finset.Icc 1 htab.size).card := by
    refine Finset.card_le_card_of_injOn slot hmem fun k hk k' hk' h => ?_
    have hc := hlive k hk
    rw [h, hlive k' hk'] at hc
    exact (OpenAddressing.Cell.live.inj hc).symm
  rwa [Nat.card_Icc, hr.size, Nat.add_sub_cancel] at hcard

theorem Represents.roomy (hr : Represents cap htab m) (hn : htab.NoneDeleted) :
    Roomy htab (.enter key d flag) := by
  rcases hr.card_le.lt_or_eq with hlt | hfull
  · exact .inr (.inr (.inr (hr.exists_free hn hlt)))
  · exact .inr (.inl (by rw [hr.filled, hr.size, hfull]))

theorem Htab.NoneDeleted.enter (ha : hooks.Accepting) (hr : Represents cap htab m)
    (hn : htab.NoneDeleted) (e : Pair) : (htab.enter hooks e).NoneDeleted := by
  obtain ⟨key, d⟩ := e
  have hcreate (idx : Nat) (hidx : idx ∈ Finset.Icc 1 htab.size) : (createEntry hooks key (some d) 0
      htab (firstHash htab.size key) idx).htab.NoneDeleted := by
    by_cases hfull : htab.filled = htab.size
    · rw [createEntry_full hfull]
      exact hn
    · obtain ⟨e, -, -, -, he⟩ := createEntry_ok ha key d 0 (firstHash htab.size key) hfull
        (hr.slots idx hidx).accepts
      rw [he]
      have hne : (firstHash htab.size key : Int) ≠ -1 := by omega
      exact hn.setSlot (s := ⟨firstHash htab.size key, e⟩) hne
  rcases hsearchR_enter ha key d 0 hr.sized hr.slots hr.inv with
    ⟨i, hi, -, h⟩ | ⟨-, idx, hst, h⟩ | ⟨-, -, -, h⟩
  · rw [Htab.enter, h]
    exact hn.setSlot (hn i hi)
  · rw [Htab.enter, h]
    exact hcreate idx hst.mem
  · rw [Htab.enter, h]
    exact hcreate _ (hr.sized.walk.slot_mem key 0)

theorem Represents.enter_foldl (ha : hooks.Accepting) (es : List Pair)
    (hr : Represents cap htab m) (hn : htab.NoneDeleted) :
    ∃ m', Represents cap (es.foldl (Htab.enter hooks) htab) m' := by
  induction es generalizing htab m with
  | nil => exact ⟨m, hr⟩
  | cons e es ih =>
    have hroomy : Roomy htab (.enter e.1 e.2 0) := hr.roomy hn
    have hstep := hr.enter ha hroomy
    split at hstep
    · exact ih hstep.1 (hn.enter ha hr e)
    · exact ih hstep.1 (hn.enter ha hr e)

theorem Represents.enter_all (ha : hooks.Accepting) (es before : List Pair)
    (hfun : ∀ k v v', (k, v) ∈ before ++ es → (k, v') ∈ before ++ es → v = v')
    (hr : Represents cap htab m) (hm : ∀ k v, m.lookup k = some v ↔ (k, v) ∈ before)
    (hn : htab.NoneDeleted) (hroom : m.keys.card + es.length ≤ cap) :
    ∀ k v, (es.foldl (Htab.enter hooks) htab).Holds k v ↔ (k, v) ∈ before ++ es := by
  induction es generalizing htab m before with
  | nil => simpa [hr.holds] using hm
  | cons e es ih =>
    obtain ⟨key, d⟩ := e
    simp only [length_cons] at hroom
    have hroomy : Roomy htab (.enter key d 0) := hr.roomy hn
    have hstep := hr.enter ha hroomy
    rw [if_neg fun h => by rw [hr.size] at h; omega] at hstep
    have hr' : Represents cap (htab.enter hooks (key, d)) (m.insert key d) := hstep.1
    have hcard : (m.insert key d).keys.card ≤ m.keys.card + 1 := by
      rw [keys_insert]
      exact Finset.card_insert_le ..
    have hm' : ∀ k v, (m.insert key d).lookup k = some v ↔ (k, v) ∈ before ++ [(key, d)] := by
      intro k v
      by_cases hk : k = key
      · subst hk
        rw [Finmap.lookup_insert]
        constructor
        · rintro ⟨⟩; simp
        · intro h
          exact congrArg some (hfun k d v (by simp) (by simp at h ⊢; tauto))
      · rw [Finmap.lookup_insert_of_ne _ hk, hm]
        simp [hk]
    have hroom' : (m.insert key d).keys.card + es.length ≤ cap := by omega
    simpa using ih (before ++ [(key, d)]) (by simpa using hfun) hr' hm'
      (hn.enter ha hr (key, d)) hroom'

end

/-! ## The size of the export -/

def backslashes (e : Pair) : Nat := e.2.val.count chBackslash

theorem escape_length (sep : UInt8) (s : List UInt8) :
    (escape sep s).length = (s.map fun c => if needsEscape sep c then 2 else 1).sum := by
  simp only [escape, length_flatMap]
  congr 1
  exact map_congr_left fun c _ => by split <;> rfl

theorem escape_nul_length (hs : 0 ∉ s) :
    (escape 0 s).length = s.length + s.count chBackslash := by
  induction s with
  | nil => rfl
  | cons c cs ih =>
    simp only [mem_cons, not_or] at hs
    have hc : needsEscape 0 c = (c == chBackslash) := by simp [needsEscape, Ne.symm hs.1]
    have ih := ih hs.2
    simp only [escape_length] at ih ⊢
    simp only [map_cons, sum_cons, length_cons, count_cons, hc, ih]
    split <;> omega

theorem entryBytes_length (sep : UInt8) (e : Pair) :
    (entryBytes sep e).length + 2 = entryRoom sep e + if sep = 0 then backslashes e else 0 := by
  obtain ⟨key, s, hs⟩ := e
  simp only [entryBytes, entryRoom, backslashes, length_append, length_cons,
    length_nil]
  split
  · subst_vars
    rw [escape_nul_length hs]
    omega
  · rw [escape_length]
    omega

def Htab.sorted (htab : Htab) : List Pair := (qsort cmpkey htab.pairs.toArray).toList

theorem Htab.sorted_perm (htab : Htab) : htab.sorted.Perm htab.pairs := qsort_perm ..

def Htab.exportRoom (htab : Htab) (sep : UInt8) : Nat := (htab.pairs.map (entryRoom sep)).sum + 1

def Htab.exportBytes (htab : Htab) (sep : UInt8) : List UInt8 :=
  htab.sorted.flatMap (entryBytes sep) ++ [0]

theorem Htab.sorted_length_le (htab : Htab) (sep : UInt8) :
    htab.sorted.length ≤ (htab.exportBytes sep).length := by
  have h := length_le_sum_of_one_le (htab.sorted.map fun e => (entryBytes sep e).length)
    (by simp only [mem_map]; rintro _ ⟨e, -, rfl⟩; simp [entryBytes]; omega)
  simp only [Htab.exportBytes, length_append, length_flatMap]
  rw [length_map] at h
  omega

theorem Htab.exportBytes_length (htab : Htab) (sep : UInt8) :
    (htab.exportBytes sep).length + 2 * htab.pairs.length =
      htab.exportRoom sep + if sep = 0 then (htab.pairs.map backslashes).sum else 0 := by
  have hlen : (htab.exportBytes sep).length =
      (htab.pairs.map fun e => (entryBytes sep e).length).sum + 1 := by
    simp only [Htab.exportBytes, length_append, length_flatMap]
    rw [(htab.sorted_perm.map _).sum_eq]
    rfl
  rw [hlen, Htab.exportRoom]
  generalize htab.pairs = es
  induction es with
  | nil => split <;> rfl
  | cons e es ih =>
    have he := entryBytes_length sep e
    simp only [map_cons, sum_cons, length_cons]
    split at ih <;> simp_all <;> omega

theorem Htab.filter_exported (htab : Htab) : htab.pairs.filter (exported 0 []) = htab.pairs := by
  rw [filter_eq_self]
  simp [exported]

theorem hexportR_all (htab : Htab) (sep : UInt8) (hsize : size = 0 ∨ htab.exportRoom sep ≤ size) :
    let buffer := if size ≠ 0 then size else htab.exportRoom sep
    hexportR htab sep 0 size [] =
      if (htab.exportBytes sep).length ≤ buffer then
        .ok (some (htab.exportBytes sep ++
          replicate (buffer - (htab.exportBytes sep).length) 0))
      else .error .outOfBounds := by
  simp only [hexportR, htab.filter_exported]
  rw [if_neg (by unfold Htab.exportRoom at hsize; omega)]
  rfl

theorem hexportR_all_ok (h : hexportR htab sep 0 size [] = .ok (some bytes)) :
    ∃ n, bytes = htab.exportBytes sep ++ List.replicate n 0 := by
  by_cases hsize : size = 0 ∨ htab.exportRoom sep ≤ size
  · have hall := h.symm.trans (hexportR_all htab sep hsize)
    generalize (if size ≠ 0 then size else htab.exportRoom sep) = buffer at hall
    split at hall
    · cases hall; exact ⟨_, rfl⟩
    · cases hall
  · simp only [hexportR, htab.filter_exported] at h
    rw [if_pos (by unfold Htab.exportRoom at hsize; omega)] at h
    cases h

/-! ## The round trip -/

theorem hcreateR_importEntries (size : Nat) :
    ∃ htab, hcreateR (importEntries size) none = some htab ∧ Represents htab.size htab ∅ ∧
      importEntries size ≤ htab.size :=
  hcreateR_starts (by unfold importEntries; omega) (by unfold importEntries; omega)

theorem himportR_exportBytes (ha : hooks.Accepting) (hsep : TextSep sep) {htab : Htab}
    (hmap : ∀ k v v', htab.Holds k v → htab.Holds k v' → v = v')
    (he : ∀ e ∈ htab.pairs, Importable sep e) (old : Option Htab) (n : Nat) :
    ∃ new t m, hcreateR (importEntries ((htab.exportBytes sep).length + n)) none = some new ∧
      himportR hooks sep 0 (htab.exportBytes sep ++ List.replicate n 0) [] old = .ok (1, some t) ∧
      Represents new.size t m ∧
      (htab.pairs.length ≤ new.size → ∀ k v, t.Holds k v ↔ htab.Holds k v) := by
  obtain ⟨new, hcreate, hr, -⟩ := hcreateR_importEntries ((htab.exportBytes sep).length + n)
  have hperm := htab.sorted_perm
  have hes : ∀ e ∈ htab.sorted, Importable sep e := fun e h => he e (hperm.mem_iff.mp h)
  have hempty : new.NoneDeleted := by
    intro i _
    rw [(hcreateR_some hcreate).2.2]
    exact (by decide : (0 : Int) ≠ -1)
  have hholds (hroom : htab.pairs.length ≤ new.size) (k v : CString) :
      (htab.sorted.foldl (Htab.enter hooks) new).Holds k v ↔ htab.Holds k v := by
    have hfun : ∀ k v v', (k, v) ∈ [] ++ htab.sorted → (k, v') ∈ [] ++ htab.sorted → v = v' := by
      simpa [hperm.mem_iff, Htab.mem_pairs] using hmap
    have hall := hr.enter_all ha htab.sorted [] hfun (by simp [Finmap.lookup_empty]) hempty
      (by simpa [hperm.length_eq] using hroom)
    simpa [hperm.mem_iff, Htab.mem_pairs] using hall k v
  obtain ⟨m, hm⟩ := hr.enter_foldl ha htab.sorted hempty
  simp only [himportR, Nat.zero_testBit, Bool.false_eq_true, ↓reduceIte, length_append,
    length_replicate, Option.none_or, hcreate, map_nil]
  cases hnil : htab.sorted with
  | nil =>
    have hdel := (hr.delete ha .nil 0).1
    rw [erase_eq_self (Finmap.lookup_empty _)] at hdel
    simp only [Htab.exportBytes, hnil, flatMap_nil, nil_append, singleton_append]
    rw [importLoop_terminator]
    refine ⟨new, (hdeleteR hooks .nil 0 new).2.2, ∅, rfl, rfl, hdel, fun hroom k v => ?_⟩
    rw [← hholds hroom, hnil, hdel.holds]
    exact (hr.holds k v).symm
  | cons e es =>
    have hfuel : htab.sorted.length ≤ (htab.exportBytes sep).length + n + 1 := by
      have := htab.sorted_length_le sep
      omega
    have hloop := importLoop_entries hooks hsep htab.sorted (by simp [hnil]) hes hfuel new
      (replicate n 0)
    rw [Htab.exportBytes, append_assoc, singleton_append, ← Htab.exportBytes, hloop]
    exact ⟨new, _, m, rfl, rfl, hm, hholds⟩

def RoundTrips (hooks : Hooks) (sep : UInt8) (htab : Htab) (old : Option Htab) : Prop :=
  ∃ bytes t, hexportR htab sep 0 0 [] = .ok (some bytes) ∧
    himportR hooks sep 0 bytes [] old = .ok (1, some t) ∧ ∀ k v, t.Holds k v ↔ htab.Holds k v

theorem hexportR_himportR_iff (hooks : Hooks) (ha : hooks.Accepting) (sep : UInt8)
    (hsep : sep = 0 ∨ sep = chNewline) (htab : Htab)
    (hmap : ∀ k v v', htab.Holds k v → htab.Holds k v' → v = v')
    (hpairs : ∀ k v, htab.Holds k v → Importable sep (k, v)) (old : Option Htab)
    (hroom : ∀ bytes t, hexportR htab sep 0 0 [] = .ok (some bytes) →
      hcreateR (importEntries bytes.length) none = some t → htab.pairs.length ≤ t.size) :
    RoundTrips hooks sep htab old ↔
      sep = chNewline ∨ (htab.pairs.map backslashes).sum ≤ 2 * htab.pairs.length := by
  have hexport := hexportR_all htab sep (.inl rfl)
  have hlen := htab.exportBytes_length sep
  have hfits : (htab.exportBytes sep).length ≤ htab.exportRoom sep ↔
      sep = chNewline ∨ (htab.pairs.map backslashes).sum ≤ 2 * htab.pairs.length := by
    rcases hsep with rfl | rfl
    · simp only [↓reduceIte] at hlen
      rw [or_iff_right (by decide)]
      omega
    · simp only [show chNewline ≠ 0 by decide, ↓reduceIte] at hlen
      simp only [true_or, iff_true]
      omega
  rw [← hfits]
  simp only [ne_eq, not_true_eq_false, ↓reduceIte] at hexport
  constructor
  · rintro ⟨bytes, t, hbytes, -⟩
    by_contra hover
    rw [hexport, if_neg hover] at hbytes
    cases hbytes
  · intro hle
    rw [if_pos hle] at hexport
    obtain ⟨new, t, m, hcreate, himport, -, hholds⟩ := himportR_exportBytes ha hsep hmap
      (fun e h => hpairs e.1 e.2 (Htab.mem_pairs.mp h)) old
      (htab.exportRoom sep - (htab.exportBytes sep).length)
    exact ⟨_, t, hexport, himport, hholds (hroom _ new hexport (by simpa using hcreate))⟩

theorem noHooks_accepting : noHooks.Accepting := ⟨fun _ _ _ _ => rfl, fun _ _ _ h => nomatch h⟩

section
variable {htab : Htab} {e : Pair} (hp : htab.pairs = [e])
include hp

theorem Htab.holds_single : htab.Holds k v ↔ (k, v) = e := by
  rw [← Htab.mem_pairs, hp, mem_singleton]

theorem Htab.single_unique (k v v' : CString) (h : htab.Holds k v) (h' : htab.Holds k v') :
    v = v' :=
  congrArg Prod.snd (((Htab.holds_single hp).mp h).trans ((Htab.holds_single hp).mp h').symm)

theorem Htab.single_room (hcreate : hcreateR (importEntries n) none = some new) :
    htab.pairs.length ≤ new.size := by
  obtain ⟨new', hcreate', hr, -⟩ := hcreateR_importEntries n
  obtain rfl := Option.some.inj (hcreate.symm.trans hcreate')
  rw [hp]
  exact hr.sized.prime.pos

end

def oneEntry (value : String) : Htab := (newTable 5).enter noHooks (.lit "a", .lit value)

theorem importable_a (value : String) (hne : (CString.lit value).val ≠ []) :
    Importable 0 (.lit "a", .lit value) where
  key_ne := (by decide : (CString.lit "a").val ≠ [])
  key_equals := (by decide : chEquals ∉ (CString.lit "a").val)
  key_sep := (by decide : 0 ∉ (CString.lit "a").val)
  key_start := by
    rintro c ⟨⟩
    exact (by decide : isblank 97 = false ∧ (97 : UInt8) ≠ chHash)
  data_ne := hne

theorem hexportR_himportR_iff_one :
    (oneEntry "x\\=\\").pairs = [(.lit "a", .lit "x\\=\\")] ∧
      RoundTrips noHooks 0 (oneEntry "x\\=\\") none := by
  have hp : (oneEntry "x\\=\\").pairs = [(.lit "a", .lit "x\\=\\")] := by decide
  refine ⟨hp, (hexportR_himportR_iff noHooks noHooks_accepting 0 (.inl rfl) _
    (Htab.single_unique hp) (fun k v h => ?_) none fun _ _ _ h => Htab.single_room hp h).mpr
    (.inr (by rw [hp]; decide))⟩
  rw [(Htab.holds_single hp).mp h]
  exact importable_a _ (by decide)

theorem hexportR_overruns_three_backslashes :
    (oneEntry "\\\\\\").pairs = [(.lit "a", .lit "\\\\\\")] ∧
      Importable 0 (.lit "a", .lit "\\\\\\") ∧
      hexportR (oneEntry "\\\\\\") 0 0 0 [] = .error .outOfBounds ∧
      ¬ RoundTrips noHooks 0 (oneEntry "\\\\\\") none := by
  have hexport : hexportR (oneEntry "\\\\\\") 0 0 0 [] = .error .outOfBounds := by decide
  refine ⟨by decide, importable_a _ (by decide), hexport, ?_⟩
  rintro ⟨bytes, t, hbytes, -⟩
  rw [hexport] at hbytes
  cases hbytes

end UBoot.Env
