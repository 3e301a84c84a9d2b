import UBoot.Env.HashTableLaws

/-!
# Runs of the hash table are runs of a finite map

`mapMachine` is what the table is for: a finite map with room for `capacity`
keys. `htabMachine` answers the same requests with `hsearch_r` and
`hdelete_r`. `Represents` relates a table to the map it stores; every request
that is `Roomy` keeps it and is answered alike.
-/

namespace UBoot.Env

open OpenAddressing (Cell Probing)

abbrev EnvMap := Finmap fun _ : CString => CString

inductive Request
  | enter (key data : CString) (flag : Nat)
  | find (key : CString) (flag : Nat)
  | delete (key : CString) (flag : Nat)

/-- `entry` is the data of the entry returned, `none` for a `NULL` result. -/
inductive Reply
  | entry (data : Option CString)
  | deleted (done : Bool)
  deriving DecidableEq

def mapMachine (capacity : Nat) : Machine EnvMap Request Reply where
  step m
    | .enter key data _ =>
      if key ∉ m ∧ m.keys.card = capacity then (m, .entry none)
      else (m.insert key data, .entry (some data))
    | .find key _ => (m, .entry (m.lookup key))
    | .delete key _ => (m.erase key, .deleted (decide (key ∈ m)))

def Found.data (f : Found) : Option CString := f.retval.bind fun i => (f.htab.table i).entry.data

def htabMachine (hooks : Hooks) : Machine Htab Request Reply where
  step htab
    | .enter key data flag =>
      let f := hsearchR hooks key (some data) .enter flag htab
      (f.htab, .entry f.data)
    | .find key flag =>
      let f := hsearchR hooks key none .find flag htab
      (f.htab, .entry f.data)
    | .delete key flag =>
      let r := hdeleteR hooks key flag htab
      (r.2.2, .deleted (r.1 == 1))

/-- A new key finds room: the table is full, so that it is refused, or the
key is stored already, or its home slot was deleted, or some slot was never
used. -/
def Roomy (htab : Htab) : Request → Prop
  | .enter key _ _ =>
    (∃ data, htab.Holds key data) ∨ htab.filled = htab.size ∨
      (htab.table (firstHash htab.size key)).used = -1 ∨
      ∃ i ∈ Finset.Icc 1 htab.size, (htab.table i).used = 0
  | _ => True

/-! ## Tables and the maps they store -/

structure Represents (capacity : Nat) (htab : Htab) (m : EnvMap) : Prop where
  size : htab.size = capacity
  sized : Sized htab.size
  slots : htab.SlotsOk
  inv : sized.walk.Inv htab.cells
  holds : ∀ k v, htab.Holds k v ↔ m.lookup k = some v
  filled : htab.filled = m.keys.card

theorem keys_insert (m : EnvMap) (k v : CString) : (m.insert k v).keys = insert k m.keys := by
  ext x
  simp [Finmap.mem_keys, Finmap.mem_insert]

theorem erase_eq_self {m : EnvMap} (h : m.lookup key = none) : m.erase key = m := by
  refine Finmap.ext_lookup fun k => ?_
  by_cases hk : k = key
  · subst hk; rw [Finmap.lookup_erase, h]
  · rw [Finmap.lookup_erase_ne hk]

theorem Htab.holds_iff {htab : Htab} (hok : htab.SlotsOk) :
    htab.Holds k v ↔ ∃ i ∈ Finset.Icc 1 htab.size, htab.cells i = .live k ∧
      (htab.table i).entry.data = some v := by
  constructor
  · rintro ⟨i, hi, hu, hk, hd⟩
    refine ⟨i, hi, ?_, hd⟩
    have h0 : (htab.table i).used ≠ 0 := by omega
    simp [Htab.cells, Slot.cell, h0, hk, hu]
  · rintro ⟨i, hi, hc, hd⟩
    obtain ⟨hu, hk⟩ := (hok i hi).cell_live_iff.mp hc
    have := firstHash_pos htab.size k
    exact ⟨i, hi, by omega, hk, hd⟩

theorem Slot.Ok.data_of_live {s : Slot} (h : s.Ok size) (hc : s.cell = .live k) :
    ∃ d, s.entry.data = some d := by
  obtain ⟨hu, hk⟩ := h.cell_live_iff.mp hc
  have := firstHash_pos size k
  rcases h.used with h0 | h0 | ⟨_, d, -, -, hd⟩
  · omega
  · omega
  · exact ⟨d, hd⟩

section
variable {htab : Htab} {m : EnvMap}

theorem Represents.lookup_of_live (hr : Represents cap htab m) (hi : i ∈ Finset.Icc 1 htab.size)
    (hc : htab.cells i = .live k) : m.lookup k = (htab.table i).entry.data := by
  obtain ⟨d, hd⟩ := (hr.slots i hi).data_of_live hc
  rw [hd, ← hr.holds, Htab.holds_iff hr.slots]
  exact ⟨i, hi, hc, hd⟩

theorem Represents.lookup_of_absent (hr : Represents cap htab m)
    (ha : ¬ hr.sized.walk.Has htab.cells k) : m.lookup k = none := by
  cases hl : m.lookup k with
  | none => rfl
  | some v =>
    obtain ⟨i, hi, hc, -⟩ := (Htab.holds_iff hr.slots).mp ((hr.holds k v).mpr hl)
    exact absurd ⟨i, hi, hc⟩ ha

theorem Represents.mem_of_live (hr : Represents cap htab m) (hi : i ∈ Finset.Icc 1 htab.size)
    (hc : htab.cells i = .live k) : k ∈ m := by
  obtain ⟨d, hd⟩ := (hr.slots i hi).data_of_live hc
  exact Finmap.mem_of_lookup_eq_some ((hr.lookup_of_live hi hc).trans hd)

/-- The pair `(k, v)` is held in a slot other than `i`. -/
def Htab.HoldsOff (htab : Htab) (i : Nat) (k v : CString) : Prop :=
  ∃ j ∈ Finset.Icc 1 htab.size, j ≠ i ∧ 0 < (htab.table j).used ∧
    (htab.table j).entry.key = some k ∧ (htab.table j).entry.data = some v

theorem Htab.holds_setSlot (hi : i ∈ Finset.Icc 1 htab.size) : (htab.setSlot i s).Holds k v ↔
      (0 < s.used ∧ s.entry.key = some k ∧ s.entry.data = some v) ∨ htab.HoldsOff i k v := by
  constructor
  · rintro ⟨j, hj, h⟩
    by_cases he : j = i
    · subst he; exact .inl (by simpa [Htab.setSlot] using h)
    · exact .inr ⟨j, hj, he, by simpa [Htab.setSlot, Function.update_of_ne he] using h⟩
  · rintro (h | ⟨j, hj, he, h⟩)
    · exact ⟨i, hi, by simpa [Htab.setSlot] using h⟩
    · exact ⟨j, hj, by simpa [Htab.setSlot, Function.update_of_ne he] using h⟩

theorem Htab.SlotsOk.setSlot (hok : htab.SlotsOk) (hs : s.Ok htab.size) :
    (htab.setSlot i s).SlotsOk := by
  intro j hj
  by_cases he : j = i
  · subst he; simpa [Htab.setSlot] using hs
  · simpa [Htab.setSlot, Function.update_of_ne he] using hok j hj

section
variable (hr : Represents cap htab m)
include hr

theorem Represents.holdsOff_of_live (hi : i ∈ Finset.Icc 1 htab.size) (hc : htab.cells i = .live k)
    :
    htab.HoldsOff i k' v ↔ k' ≠ k ∧ m.lookup k' = some v := by
  rw [← hr.holds]
  constructor
  · rintro ⟨j, hj, he, h⟩
    refine ⟨?_, j, hj, h⟩
    rintro rfl
    have h0 : (htab.table j).used ≠ 0 := by omega
    have hcj : htab.cells j = .live k' := by simp [Htab.cells, Slot.cell, h0, h.1, h.2.1]
    exact he (hr.inv.unique hj hi hcj hc)
  · rintro ⟨hne, j, hj, h⟩
    refine ⟨j, hj, ?_, h⟩
    rintro rfl
    have hk := ((hr.slots j hj).cell_live_iff.mp hc).2
    exact hne (Option.some.inj (h.2.1.symm.trans hk))

theorem Represents.holdsOff_of_dead (hc : ∀ k, htab.cells i ≠ .live k) :
    htab.HoldsOff i k v ↔ m.lookup k = some v := by
  rw [← hr.holds]
  constructor
  · rintro ⟨j, hj, -, h⟩
    exact ⟨j, hj, h⟩
  · rintro ⟨j, hj, h⟩
    refine ⟨j, hj, ?_, h⟩
    rintro rfl
    have h0 : (htab.table j).used ≠ 0 := by omega
    exact hc k (by simp [Htab.cells, Slot.cell, h0, h.1, h.2.1])

/-! ## The three updates -/

theorem Represents.setData (hi : i ∈ Finset.Icc 1 htab.size) (hc : htab.cells i = .live k)
    (d : CString) : Represents cap (htab.setData i d) (m.insert k d) := by
  have hok := hr.slots i hi
  obtain ⟨hu, hk⟩ := hok.cell_live_iff.mp hc
  have hpos := firstHash_pos htab.size k
  have hslot : Slot.Ok htab.size
      { htab.table i with entry := { (htab.table i).entry with data := some d } } :=
    ⟨.inr (.inr ⟨k, d, hu, hk, rfl⟩), hok.accepts⟩
  have hcells : (htab.setData i d).cells = htab.cells := by
    rw [Htab.setData, Htab.cells_setSlot, Function.update_eq_self_iff]
    rfl
  refine ⟨hr.size, hr.sized, hr.slots.setSlot hslot, hcells ▸ hr.inv, fun k' v => ?_, ?_⟩
  · rw [Htab.setData, Htab.holds_setSlot hi, hr.holdsOff_of_live hi hc]
    by_cases he : k' = k
    · subst he
      have : 0 < (htab.table i).used := by omega
      simp [this, hk, Finmap.lookup_insert]
    · simp [he, hk, Finmap.lookup_insert_of_ne _ he, Ne.symm he]
  · rw [keys_insert, Finset.insert_eq_self.mpr (Finmap.mem_keys.mpr (hr.mem_of_live hi hc))]
    exact hr.filled

theorem Represents.deleteSlot (hi : i ∈ Finset.Icc 1 htab.size) (hc : htab.cells i = .live k) :
    Represents cap (deleteSlot htab i) (m.erase k) := by
  have hslot : Slot.Ok htab.size ⟨-1, none, none, none, 0⟩ :=
    ⟨.inr (.inl rfl), fun _ _ _ _ => rfl⟩
  refine ⟨hr.size, hr.sized, hr.slots.setSlot hslot, ?_, fun k' v => ?_, ?_⟩
  · have : (UBoot.Env.deleteSlot htab i).cells = Function.update htab.cells i .deleted :=
      Htab.cells_setSlot htab i _
    exact this ▸ hr.inv.delete
  · have := Htab.holds_setSlot hi (s := ⟨-1, none, none, none, 0⟩) (k := k') (v := v)
    refine this.trans ?_
    rw [hr.holdsOff_of_live hi hc]
    by_cases he : k' = k
    · subst he; simp [Finmap.lookup_erase]
    · simp [he, Finmap.lookup_erase_ne he]
  · have hmem := Finmap.mem_keys.mpr (hr.mem_of_live hi hc)
    rw [Finmap.keys_erase, Finset.card_erase_of_mem hmem, ← hr.filled]
    rfl

theorem Represents.store (hst : CanStore hr.sized k i) (ha : ¬ hr.sized.walk.Has htab.cells k)
    (hk : e.key = some k) (hd : e.data = some d)
    (he : ∀ name value op flag, e.rejects name value op flag = false) :
    Represents cap { htab.setSlot i ⟨firstHash htab.size k, e⟩ with filled := htab.filled + 1 }
      (m.insert k d) := by
  have hpos := firstHash_pos htab.size k
  have hi := hst.mem
  have hslot : Slot.Ok htab.size ⟨firstHash htab.size k, e⟩ :=
    ⟨.inr (.inr ⟨k, d, rfl, hk, hd⟩), he⟩
  have hcell : (⟨firstHash htab.size k, e⟩ : Slot).cell = .live k :=
    hslot.cell_live_iff.mpr ⟨rfl, hk⟩
  have habs := hr.lookup_of_absent ha
  refine ⟨hr.size, hr.sized, hr.slots.setSlot hslot, ?_, fun k' v => ?_, ?_⟩
  · have := Htab.cells_setSlot htab i ⟨firstHash htab.size k, e⟩
    rw [hcell] at this
    exact this ▸ hr.inv.store hst.1 ha
  · have := Htab.holds_setSlot hi (s := ⟨firstHash htab.size k, e⟩) (k := k') (v := v)
    refine this.trans ?_
    rw [hr.holdsOff_of_dead (hst.dead hr.slots)]
    by_cases he : k' = k
    · subst he; simp [hpos, hk, hd, habs, Finmap.lookup_insert]
    · simp [hk, Ne.symm he, Finmap.lookup_insert_of_ne _ he]
  · have hmem : k ∉ m.keys := by
      rw [Finmap.mem_keys, ← Finmap.lookup_eq_none]; exact habs
    rw [keys_insert, Finset.card_insert_of_notMem hmem, ← hr.filled]

end

/-! ## One request -/

variable {hooks : Hooks}

theorem Represents.find (hooks : Hooks) (hr : Represents cap htab m) (key : CString) (flag : Nat) :
    (hsearchR hooks key none .find flag htab).htab = htab ∧
      (hsearchR hooks key none .find flag htab).data = m.lookup key := by
  rcases hsearchR_find hooks key flag hr.sized hr.slots hr.inv with ⟨i, hi, hc, h⟩ | ⟨ha, h⟩
  · rw [h]
    exact ⟨rfl, (hr.lookup_of_live hi hc).symm⟩
  · rw [h]
    exact ⟨rfl, (hr.lookup_of_absent ha).symm⟩

section
variable (ha : hooks.Accepting) (hr : Represents cap htab m)
include ha hr

theorem Represents.delete (key : CString) (flag : Nat) :
    Represents cap (hdeleteR hooks key flag htab).2.2 (m.erase key) ∧
      ((hdeleteR hooks key flag htab).1 = 1 ↔ key ∈ m) := by
  rcases hsearchR_find hooks key 0 hr.sized hr.slots hr.inv with ⟨i, hi, hc, h⟩ | ⟨hn, h⟩
  · have hd : hdeleteR hooks key flag htab = (1, none, UBoot.Env.deleteSlot htab i) := by
      simp [hdeleteR, h, ha.changeOk, (hr.slots i hi).accepts]
    rw [hd]
    exact ⟨hr.deleteSlot hi hc, by simpa using hr.mem_of_live hi hc⟩
  · have hl := hr.lookup_of_absent hn
    have hd : hdeleteR hooks key flag htab = (0, some .ESRCH, htab) := by simp [hdeleteR, h]
    rw [hd, erase_eq_self hl]
    exact ⟨hr, by simpa using Finmap.lookup_eq_none.mp hl⟩

theorem Represents.create (hn : ¬ hr.sized.walk.Has htab.cells key)
    (hst : CanStore hr.sized key idx) (d : CString) (flag : Nat) :
    let f := createEntry hooks key (some d) flag htab (firstHash htab.size key) idx
    if m.keys.card = htab.size then f.htab = htab ∧ f.data = none
    else Represents cap f.htab (m.insert key d) ∧ f.data = some d := by
  intro f
  split
  · rename_i hfull
    have hf : f = ⟨0, none, some .ENOMEM, htab⟩ := createEntry_full (hr.filled.trans hfull)
    rw [hf]
    exact ⟨rfl, rfl⟩
  · rename_i hfull
    obtain ⟨e, hk, hd, hacc, hf⟩ := createEntry_ok ha key d flag (firstHash htab.size key)
      (hr.filled ▸ hfull) (hr.slots idx hst.mem).accepts
    have hf : f = _ := hf
    rw [hf]
    refine ⟨hr.store hst hn hk hd hacc, ?_⟩
    simp [Found.data, Htab.setSlot, hd]

theorem Represents.enter (hroom : Roomy htab (.enter key d flag)) :
    let f := hsearchR hooks key (some d) .enter flag htab
    if key ∉ m ∧ m.keys.card = htab.size then Represents cap f.htab m ∧ f.data = none
    else Represents cap f.htab (m.insert key d) ∧ f.data = some d := by
  intro f
  rcases hsearchR_enter ha key d flag hr.sized hr.slots hr.inv with
    ⟨i, hi, hc, h⟩ | ⟨hn, idx, hst, h⟩ | ⟨hn, hused, hdel, h⟩
  · have hf : f = _ := h
    rw [if_neg fun hm => hm.1 (hr.mem_of_live hi hc), hf]
    exact ⟨hr.setData hi hc d, by simp [Found.data, Htab.setData, Htab.setSlot]⟩
  · have hkey := Finmap.lookup_eq_none.mp (hr.lookup_of_absent hn)
    have hc := hr.create ha hn hst d flag
    have hf : f = _ := h
    rw [hf]
    by_cases hfull : m.keys.card = htab.size
    · simp only [hfull, ↓reduceIte] at hc
      rw [if_pos ⟨hkey, hfull⟩, hc.1]
      exact ⟨hr, hc.2⟩
    · rw [if_neg fun hm => hfull hm.2]
      simpa [hfull] using hc
  · -- full circle: only a full table is left of the ways to be roomy
    have hkey := Finmap.lookup_eq_none.mp (hr.lookup_of_absent hn)
    have hfull : htab.filled = htab.size := by
      rcases hroom with ⟨v, hv⟩ | hfull | hd | ⟨i, hi, h0⟩
      · rw [hr.holds, Finmap.lookup_eq_none.mpr hkey] at hv
        cases hv
      · exact hfull
      · exact absurd hd hdel
      · exact absurd h0 (hused i hi)
    have hf : f = ⟨0, none, some .ENOMEM, htab⟩ := h.trans (createEntry_full hfull)
    rw [if_pos ⟨hkey, hr.filled ▸ hfull⟩, hf]
    exact ⟨hr, rfl⟩

theorem htabMachine_step (hroom : Roomy htab req) :
    Represents cap ((htabMachine hooks).step htab req).1 ((mapMachine cap).step m req).1 ∧
      ((htabMachine hooks).step htab req).2 = ((mapMachine cap).step m req).2 := by
  cases req with
  | enter key d flag =>
    have h := hr.enter ha hroom
    simp only [htabMachine, mapMachine, hr.size] at h ⊢
    split at h
    · rename_i hm; rw [if_pos hm]; exact ⟨h.1, by rw [h.2]⟩
    · rename_i hm; rw [if_neg hm]; exact ⟨h.1, by rw [h.2]⟩
  | find key flag =>
    have h := hr.find hooks key flag
    simp only [htabMachine, mapMachine, h.1, h.2]
    exact ⟨hr, trivial⟩
  | delete key flag =>
    have h := hr.delete ha key flag
    simp only [htabMachine, mapMachine]
    refine ⟨h.1, ?_⟩
    congr 1
    rw [Bool.eq_iff_iff]
    simpa using h.2

end

end

/-! ## Runs from a new table -/

theorem nextPrime_odd (h : nextPrime fuel nel = some size) (hn : nel % 2 = 1) : size % 2 = 1 := by
  induction fuel generalizing nel with
  | zero => cases h
  | succ fuel ih =>
    simp only [nextPrime] at h
    split at h
    · cases h; exact hn
    · exact ih h (by omega)

theorem hcreateR_some (h : hcreateR nel none = some htab) :
    nextPrime ((nel ||| 1) + 1) (nel ||| 1) = some htab.size ∧ htab.filled = 0 ∧
      htab.table = fun _ => emptySlot := by
  simp only [hcreateR, Option.bind_eq_bind, Option.bind_eq_some_iff] at h
  obtain ⟨size, hsize, h⟩ := h
  split at h
  · cases h; exact ⟨hsize, rfl, rfl⟩
  · cases h

theorem hcreateR_represents (h : hcreateR nel none = some htab) (hp : htab.size.Prime) :
    Represents htab.size htab ∅ := by
  obtain ⟨hsize, hfilled, htable⟩ := hcreateR_some h
  have hodd : htab.size % 2 = 1 := nextPrime_odd hsize (by simp [Nat.or_mod_two_eq_one])
  have hs : Sized htab.size := ⟨hp, by have := hp.two_le; omega⟩
  have hcells : htab.cells = fun _ => .free := by
    funext i; simp [Htab.cells, htable, Slot.cell, emptySlot]
  refine ⟨rfl, hs, fun i _ => ?_, hcells ▸ Probing.Inv.empty, fun k v => ?_, by simp [hfilled]⟩
  · rw [htable]
    exact ⟨.inl rfl, fun _ _ _ _ => rfl⟩
  · simp [Htab.Holds, htable, emptySlot, Finmap.lookup_empty]

theorem run_represents (ha : hooks.Accepting) (hr : Represents cap htab m)
    (hroom : (htabMachine hooks).Meets Roomy htab reqs) :
    Represents cap ((htabMachine hooks).run htab reqs).1 ((mapMachine cap).run m reqs).1 ∧
      ((htabMachine hooks).run htab reqs).2 = ((mapMachine cap).run m reqs).2 :=
  Machine.simulation (fun _ _ _ hr hc => htabMachine_step ha hr hc) hr hroom

/-- The answers of a finite map are given, the pairs held are the map's, and
`filled` counts its keys. -/
def RefinesMap (hooks : Hooks) (htab : Htab) (reqs : List Request) : Prop :=
  let final := (htabMachine hooks).run htab reqs
  let spec := (mapMachine htab.size).run ∅ reqs
  final.2 = spec.2 ∧ (∀ k v, final.1.Holds k v ↔ spec.1.lookup k = some v) ∧
    final.1.filled = spec.1.keys.card

/-- Without `change_ok` and callbacks, a new table of prime size refines a
finite map along every run whose new keys find room. -/
theorem hsearch_run_refinesMap (hooks : Hooks) (hchange : hooks.changeOk = none)
    (hcallback : ∀ htab key, hooks.callbackInit htab key = none) (nel : Nat) (htab : Htab)
    (hcreate : hcreateR nel none = some htab) (hp : htab.size.Prime) (reqs : List Request)
    (hroom : (htabMachine hooks).Meets Roomy htab reqs) : RefinesMap hooks htab reqs := by
  have ha : hooks.Accepting :=
    ⟨fun _ _ _ _ => by simp [Hooks.forbids, hchange], fun _ _ _ h => by simp [hcallback] at h⟩
  obtain ⟨hr, ho⟩ := run_represents ha (hcreateR_represents hcreate hp) hroom
  exact ⟨ho, hr.holds, hr.filled⟩

theorem Represents.roomy_of_enter (ha : hooks.Accepting) (hr : Represents cap htab m)
    (h : Represents cap (hsearchR hooks key (some d) .enter flag htab).htab (m.insert key d)) :
    Roomy htab (.enter key d flag) := by
  by_contra hroom
  simp only [Roomy, not_or, not_exists, not_and] at hroom
  obtain ⟨hkey, hfull, hdel, hused⟩ := hroom
  let home := firstHash htab.size key
  have hin : home ∈ Finset.Icc 1 htab.size := hr.sized.walk.slot_mem key 0
  -- the home slot is in use by another key
  obtain ⟨k, v, hu, hk, hv⟩ := ((hr.slots home hin).used.resolve_left (hused home hin)).resolve_left hdel
  have hheld : htab.Holds k v := by
    have := firstHash_pos htab.size k
    exact ⟨home, hin, by omega, hk, hv⟩
  have hne : k ≠ key := by rintro rfl; exact hkey v hheld
  have habs : ¬ hr.sized.walk.Has htab.cells key := by
    rintro ⟨i, hi, hc⟩
    obtain ⟨w, hw⟩ := (hr.slots i hi).data_of_live hc
    exact hkey w ((Htab.holds_iff hr.slots).mpr ⟨i, hi, hc, hw⟩)
  have hlost : ∀ e : Entry, e.key = some key →
      ¬ ({ htab.setSlot home ⟨home, e⟩ with filled := htab.filled + 1 } : Htab).Holds k v := by
    rintro e he hh
    rcases (Htab.holds_setSlot hin).mp hh with ⟨-, he', -⟩ | hoff
    · exact hne (Option.some.inj (he'.symm.trans he))
    · have hc : htab.cells home = .live k := (hr.slots home hin).cell_live_iff.mpr ⟨hu, hk⟩
      exact ((hr.holdsOff_of_live hin hc).mp hoff).1 rfl
  rcases hsearchR_enter ha key d flag hr.sized hr.slots hr.inv with
    ⟨i, hi, hc, -⟩ | ⟨-, idx, hst, hf⟩ | ⟨-, -, -, hf⟩
  · exact habs ⟨i, hi, hc⟩
  · rcases hst.2 with h0 | ⟨rfl, h0⟩
    · exact hused idx hst.mem h0
    · exact hdel h0
  · obtain ⟨e, he, -, -, hcreate⟩ := createEntry_ok ha key d flag home hfull
      (hr.slots home hin).accepts
    rw [hf, hcreate] at h
    exact hlost e he ((h.holds k v).mpr (by
      rw [Finmap.lookup_insert_of_ne _ hne, ← hr.holds]; exact hheld))

def noHooks : Hooks := ⟨none, fun _ _ => none, fun _ _ => none⟩

def newTable (size : Nat) : Htab := ⟨size, 0, fun _ => emptySlot⟩

theorem hsearch_run_refinesMap_five :
    hcreateR 5 none = some (newTable 5) ∧ Nat.Prime 5 ∧
      RefinesMap noHooks (newTable 5) [.enter (.lit "a") (.lit "1") 0, .enter (.lit "b") (.lit "2") 0,
        .delete (.lit "a") 0, .enter (.lit "b") (.lit "3") 0, .find (.lit "b") 0] := by
  refine ⟨rfl, by norm_num, hsearch_run_refinesMap noHooks rfl (fun _ _ => rfl) 5 _ rfl
    (show Nat.Prime 5 by norm_num) _ ⟨?_, ?_, trivial, ?_, trivial, trivial⟩⟩
  all_goals exact .inr (.inr (.inr ⟨5, by decide, by decide⟩))

/-- Five keys fill a table of five slots; with `b` deleted, entering `f` walks
past all of them, back to the slot of `a`. -/
def fullCircle : List Request :=
  ["a", "b", "c", "d", "e"].map (fun k => .enter (.lit k) (.lit k) 0) ++
    [.delete (.lit "b") 0, .enter (.lit "f") (.lit "f") 0, .find (.lit "a") 0]

theorem enter_full_circle_loses_key :
    hcreateR 5 none = some (newTable 5) ∧ Nat.Prime 5 ∧
      ¬ RefinesMap noHooks (newTable 5) fullCircle := by
  have hreply : ((htabMachine noHooks).run (newTable 5) fullCircle).2 ≠
      ((mapMachine 5).run ∅ fullCircle).2 := by decide
  exact ⟨rfl, by norm_num, fun h => hreply h.1⟩

end UBoot.Env
