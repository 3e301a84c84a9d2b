import UBoot.Env.HashTable
import UBoot.Lib.Machine

/-!
# The hash table against a finite map

A search ends at the key, at the first free slot of the key's walk, or at the home slot again
(`hsearchR_cases`). Operations act on the right binding, except that a new key whose walk
comes full circle overwrites the entry in its home slot.
-/

namespace UBoot.Env

open OpenAddressing (Cell Probing)

/-! ## Hash values and slots -/

theorem firstHash_pos (size : Nat) (key : CString) : 0 < firstHash size key := by
  simp only [firstHash]
  split <;> omega

theorem firstHash_lt (h : 1 < size) (key : CString) : firstHash size key < size := by
  have := Nat.mod_lt (hashValue key).toNat (show 0 < size by omega)
  simp only [firstHash]
  split <;> omega

theorem secondHash_lt (h : 2 < size) (hval : Nat) : secondHash size hval < size := by
  have := Nat.mod_lt hval (show 0 < size - 2 by omega)
  unfold secondHash
  omega

structure Sized (size : Nat) : Prop where
  prime : size.Prime
  big : 2 < size

/-- The walk of `hsearch_r` through a table of this size. -/
def Sized.walk (hs : Sized size) : Probing CString where
  size := size
  prime := hs.prime
  home := firstHash size
  stride := fun k => secondHash size (firstHash size k)
  home_pos := firstHash_pos size
  home_le := fun k => (firstHash_lt (by have := hs.big; omega) k).le
  stride_pos := fun k => by simp [secondHash]
  stride_lt := fun k => secondHash_lt hs.big _

@[simp] theorem Sized.walk_size (hs : Sized size) : hs.walk.size = size := rfl

@[simp] theorem Sized.walk_home (hs : Sized size) (key : CString) :
    hs.walk.home key = firstHash size key := rfl

def Slot.cell (s : Slot) : Cell CString :=
  if s.used = 0 then .free
  else
    match s.entry.key with
    | some k => if 0 < s.used then .live k else .deleted
    | none => .deleted

def Htab.cells (htab : Htab) (i : Nat) : Cell CString := (htab.table i).cell

structure Slot.Ok (size : Nat) (s : Slot) : Prop where
  used : s.used = 0 ∨ s.used = -1 ∨
    ∃ k d, s.used = firstHash size k ∧ s.entry.key = some k ∧ s.entry.data = some d
  accepts : ∀ name value op flag, s.entry.rejects name value op flag = false

@[simp] theorem Slot.cell_free_iff (s : Slot) : s.cell = .free ↔ s.used = 0 := by
  unfold Slot.cell
  split
  · simp_all
  · split
    · split <;> simp_all
    · simp_all

theorem Slot.Ok.cell_live_iff {s : Slot} (h : s.Ok size) :
    s.cell = .live k ↔ s.used = firstHash size k ∧ s.entry.key = some k := by
  have hpos := firstHash_pos size
  unfold Slot.cell
  rcases h.used with hu | hu | ⟨k', d, hu, hk, -⟩
  · have := hpos k
    simp only [hu, ↓reduceIte, reduceCtorEq, false_iff]
    omega
  · have hr : ¬ (-1 : Int) = firstHash size k := by have := hpos k; omega
    cases hk : s.entry.key <;> simp [hu, hr]
  · have := hpos k'
    have h0 : s.used ≠ 0 := by omega
    have h1 : 0 < s.used := by omega
    simp only [h0, ↓reduceIte, hk, h1, Cell.live.injEq, Option.some.injEq]
    constructor
    · rintro rfl; exact ⟨hu, rfl⟩
    · exact fun h => h.2

/-- The pair `(k, v)` is held in a slot with `used > 0`. -/
def Htab.Holds (htab : Htab) (k v : CString) : Prop :=
  ∃ i ∈ Finset.Icc 1 htab.size, 0 < (htab.table i).used ∧
    (htab.table i).entry.key = some k ∧ (htab.table i).entry.data = some v

@[simp] theorem Htab.cells_setSlot (htab : Htab) (i : Nat) (s : Slot) :
    (htab.setSlot i s).cells = Function.update htab.cells i s.cell := by
  funext j
  by_cases h : j = i
  · subst h; simp [Htab.cells, Htab.setSlot]
  · simp [Htab.cells, Htab.setSlot, Function.update_of_ne h]

/-! ## Where a search ends -/

def Htab.SlotsOk (htab : Htab) : Prop := ∀ i ∈ Finset.Icc 1 htab.size, (htab.table i).Ok htab.size

section
variable {htab : Htab} {key : CString}
variable (hooks : Hooks) (data : Option CString) (action : Action) (flag : Nat)

theorem compare_miss (hok : (htab.table idx).Ok htab.size) (h : htab.cells idx ≠ .live key) :
    compareAndOverwriteEntry hooks key data action flag htab (firstHash htab.size key) idx = none := by
  unfold compareAndOverwriteEntry
  exact if_neg fun hm => h (hok.cell_live_iff.mpr hm)

theorem compare_hit (hok : (htab.table idx).Ok htab.size) (h : htab.cells idx = .live key) :
    ∃ f, compareAndOverwriteEntry hooks key data action flag htab (firstHash htab.size key) idx =
      some f := by
  unfold compareAndOverwriteEntry
  simp only [if_pos (hok.cell_live_iff.mp h)]
  split
  · split
    · exact ⟨_, rfl⟩
    · split <;> exact ⟨_, rfl⟩
  · exact ⟨_, rfl⟩

/-- The ways a walk can end: `f` is said of the answer of a search that stops
at the key, `e` of the slot at which another one leaves the loop. -/
def WalkEnds (hs : Sized htab.size) (key : CString) (f : Found → Prop) (e : Nat → Prop) : Prop :=
  (∃ j < htab.size, (∀ l < j, ¬ hs.walk.Stops htab.cells key l) ∧
    htab.cells (hs.walk.slot key j) = .live key ∧
    ∃ found, compareAndOverwriteEntry hooks key data action flag htab (firstHash htab.size key)
      (hs.walk.slot key j) = some found ∧ f found) ∨
  (∃ j < htab.size, (∀ l < j, ¬ hs.walk.Stops htab.cells key l) ∧
    htab.cells (hs.walk.slot key j) = .free ∧ e (hs.walk.slot key j)) ∨
  (∀ l < htab.size, ¬ hs.walk.Stops htab.cells key l) ∧ e (firstHash htab.size key)

theorem probeLoop_ends (hs : Sized htab.size) (hok : htab.SlotsOk)
    (hf : j + fuel = htab.size) (hn : ∀ l < j + 1, ¬ hs.walk.Stops htab.cells key l) :
    WalkEnds hooks data action flag hs key
      (fun found => probeLoop hooks key data action flag htab (firstHash htab.size key)
        (secondHash htab.size (firstHash htab.size key)) fuel (hs.walk.slot key j) = .error found)
      (fun idx => probeLoop hooks key data action flag htab (firstHash htab.size key)
        (secondHash htab.size (firstHash htab.size key)) fuel (hs.walk.slot key j) = .ok idx) := by
  induction fuel generalizing j with
  | zero =>
    refine .inr (.inr ⟨fun l hl => hn l (by omega), ?_⟩)
    have hj : j = hs.walk.size := by simpa using hf
    rw [probeLoop, hj, hs.walk.slot_size]
    rfl
  | succ fuel ih =>
    -- one step of the walk, to slot `j + 1`
    have hstep : OpenAddressing.back htab.size (secondHash htab.size (firstHash htab.size key))
        (hs.walk.slot key j) = hs.walk.slot key (j + 1) := rfl
    rcases Nat.lt_or_ge (j + 1) htab.size with hj | hj
    · have hne : hs.walk.slot key (j + 1) ≠ firstHash htab.size key :=
        hs.walk.slot_ne_home (by omega) hj
      have hin := hok _ (hs.walk.slot_mem key (j + 1))
      by_cases hlive : htab.cells (hs.walk.slot key (j + 1)) = .live key
      · obtain ⟨f, hfound⟩ := compare_hit hooks data action flag hin hlive
        refine .inl ⟨j + 1, hj, hn, hlive, f, hfound, ?_⟩
        simp [probeLoop, hstep, hne, hfound]
      · have hmiss := compare_miss hooks data action flag hin hlive
        by_cases hfree : htab.cells (hs.walk.slot key (j + 1)) = .free
        · refine .inr (.inl ⟨j + 1, hj, hn, hfree, ?_⟩)
          simp [probeLoop, hstep, hne, hmiss, (Slot.cell_free_iff _).mp hfree]
        · have hused : (htab.table (hs.walk.slot key (j + 1))).used ≠ 0 := fun h =>
            hfree ((Slot.cell_free_iff _).mpr h)
          have hn' : ∀ l < j + 1 + 1, ¬ hs.walk.Stops htab.cells key l := by
            intro l hl
            rcases Nat.lt_or_ge l (j + 1) with h | h
            · exact hn l h
            · obtain rfl : l = j + 1 := by omega
              exact fun hs => hs.elim hfree hlive
          simpa [probeLoop, hstep, hne, hmiss, hused] using ih (by omega) hn'
    · have hj : j + 1 = hs.walk.size := by simp; omega
      refine .inr (.inr ⟨fun l hl => hn l (by omega), ?_⟩)
      have hhome : hs.walk.slot key (j + 1) = firstHash htab.size key := by
        rw [hj, hs.walk.slot_size]; rfl
      simp [probeLoop, hstep, hhome]

def Htab.firstDeleted (htab : Htab) (hval : Nat) : Nat :=
  if (htab.table hval).used = -1 then hval else 0

theorem hsearchR_ends (hs : Sized htab.size) (hok : htab.SlotsOk) :
    WalkEnds hooks data action flag hs key
      (fun found => hsearchR hooks key data action flag htab = found)
      (fun idx => hsearchR hooks key data action flag htab =
        finishSearch hooks key data action flag htab (firstHash htab.size key)
          (htab.firstDeleted (firstHash htab.size key)) idx) := by
  have hhome : hs.walk.slot key 0 = firstHash htab.size key := rfl
  have hpos : 0 < htab.size := hs.prime.pos
  have hin := hok _ (hs.walk.slot_mem key 0)
  rw [hhome] at hin
  by_cases hfree : (htab.table (firstHash htab.size key)).used = 0
  · refine .inr (.inl ⟨0, hpos, by simp, ?_, ?_⟩)
    · rw [hhome]; exact (Slot.cell_free_iff _).mpr hfree
    · simp [hsearchR, hfree, Htab.firstDeleted, hhome]
  · by_cases hlive : htab.cells (firstHash htab.size key) = .live key
    · obtain ⟨f, hf⟩ := compare_hit hooks data action flag hin hlive
      refine .inl ⟨0, hpos, by simp, by rw [hhome]; exact hlive, f, by rw [hhome]; exact hf, ?_⟩
      simp [hsearchR, hfree, hf]
    · have hmiss := compare_miss hooks data action flag hin hlive
      have hn : ∀ l < 0 + 1, ¬ hs.walk.Stops htab.cells key l := by
        intro l hl hst
        obtain rfl : l = 0 := by omega
        rw [Probing.Stops, hhome] at hst
        exact hst.elim (fun h => hfree ((Slot.cell_free_iff _).mp h)) hlive
      have hends := probeLoop_ends hooks data action flag hs hok (Nat.zero_add htab.size) hn
      rw [hhome] at hends
      rcases hends with ⟨j, hj, hn', hc, f, hf, hloop⟩ | ⟨j, hj, hn', hc, hloop⟩ | ⟨hn', hloop⟩
      · refine .inl ⟨j, hj, hn', hc, f, hf, ?_⟩
        simp [hsearchR, hfree, hmiss, hloop]
      · refine .inr (.inl ⟨j, hj, hn', hc, ?_⟩)
        simp [hsearchR, hfree, hmiss, hloop, Htab.firstDeleted]
      · refine .inr (.inr ⟨hn', ?_⟩)
        simp [hsearchR, hfree, hmiss, hloop, Htab.firstDeleted]

end

/-! ## Searches when every change is accepted -/

structure Hooks.Accepting (hooks : Hooks) : Prop where
  changeOk : ∀ e newval op flag, hooks.forbids e newval op flag = false
  callback : ∀ htab key c, hooks.callbackInit htab key = some c →
    ∀ name value op flag, c name value op flag = false

section
variable {hooks : Hooks} {htab : Htab} {key : CString}

theorem compare_find (hok : (htab.table idx).Ok htab.size) (h : htab.cells idx = .live key) :
    compareAndOverwriteEntry hooks key none .find flag htab (firstHash htab.size key) idx =
      some ⟨idx, some idx, none, htab⟩ := by
  simp [compareAndOverwriteEntry, hok.cell_live_iff.mp h]

def Htab.setData (htab : Htab) (idx : Nat) (d : CString) : Htab :=
  htab.setSlot idx { htab.table idx with entry := { (htab.table idx).entry with data := some d } }

theorem compare_enter (ha : hooks.Accepting) (hok : (htab.table idx).Ok htab.size)
    (h : htab.cells idx = .live key) :
    compareAndOverwriteEntry hooks key (some d) .enter flag htab (firstHash htab.size key) idx =
      some ⟨idx, some idx, none, htab.setData idx d⟩ := by
  simp [compareAndOverwriteEntry, hok.cell_live_iff.mp h, ha.changeOk, hok.accepts, Htab.setData]

theorem createEntry_full (h : htab.filled = htab.size) :
    createEntry hooks key data flag htab hval idx = ⟨0, none, some .ENOMEM, htab⟩ := by
  simp [createEntry, h]

theorem Entry.init_accepts (ha : hooks.Accepting) {e : Entry}
    (he : ∀ name value op flag, e.rejects name value op flag = false)
    (name : CString) (value : Option CString) (op : EnvOp) (flag : Nat) :
    (e.init hooks key htab).rejects name value op flag = false := by
  cases hc : hooks.callbackInit htab key with
  | some c => simpa [Entry.rejects, Entry.init, hc] using ha.callback _ _ _ hc name value op flag
  | none => simpa [Entry.rejects, Entry.init, hc] using he name value op flag

theorem createEntry_ok (ha : hooks.Accepting) (key d : CString) (flag hval : Nat)
    (h : htab.filled ≠ htab.size)
    (hold : ∀ name value op flag, (htab.table idx).entry.rejects name value op flag = false) :
    ∃ e : Entry, e.key = some key ∧ e.data = some d ∧
      (∀ name value op flag, e.rejects name value op flag = false) ∧
      createEntry hooks key (some d) flag htab hval idx =
        ⟨1, some idx, none, { htab.setSlot idx ⟨hval, e⟩ with filled := htab.filled + 1 }⟩ := by
  let old := { (htab.table idx).entry with key := some key, data := some d }
  let mid := { htab.setSlot idx ⟨hval, old⟩ with filled := htab.filled + 1 }
  have hacc : ∀ name value op flag, (old.init hooks key mid).rejects name value op flag = false :=
    Entry.init_accepts ha hold
  refine ⟨old.init hooks key mid, rfl, rfl, hacc, ?_⟩
  simp only [createEntry, h, ↓reduceIte, reduceCtorEq]
  rw [if_neg (by simp [ha.changeOk]), if_neg (by simpa [old, mid] using hacc _ _ _ _)]
  simp [Htab.setSlot, old, mid]

theorem hsearchR_find (hooks : Hooks) (key : CString) (flag : Nat) (hs : Sized htab.size)
    (hok : htab.SlotsOk) (hv : hs.walk.Inv htab.cells) :
    (∃ i ∈ Finset.Icc 1 htab.size, htab.cells i = .live key ∧
      hsearchR hooks key none .find flag htab = ⟨i, some i, none, htab⟩) ∨
    (¬ hs.walk.Has htab.cells key ∧
      hsearchR hooks key none .find flag htab = ⟨0, none, some .ESRCH, htab⟩) := by
  rcases hsearchR_ends hooks none .find flag hs hok with
    ⟨j, hj, -, hc, f, hf, hr⟩ | ⟨j, -, hn, hc, hr⟩ | ⟨hn, hr⟩
  · refine .inl ⟨_, hs.walk.slot_mem key j, hc, ?_⟩
    rw [compare_find (hok _ (hs.walk.slot_mem key j)) hc] at hf
    exact hr.trans (Option.some.inj hf).symm
  · exact .inr ⟨hv.absent_of_free hc hn, hr⟩
  · exact .inr ⟨Probing.absent_of_round (P := hs.walk) hn, hr⟩

def CanStore (hs : Sized htab.size) (key : CString) (idx : Nat) : Prop :=
  hs.walk.Reaches htab.cells key idx ∧
    ((htab.table idx).used = 0 ∨ idx = firstHash htab.size key ∧ (htab.table idx).used = -1)

theorem CanStore.mem {hs : Sized htab.size} (h : CanStore hs key idx) :
    idx ∈ Finset.Icc 1 htab.size := by
  obtain ⟨⟨j, -, rfl, -⟩, -⟩ := h
  exact hs.walk.slot_mem key j

theorem CanStore.dead {hs : Sized htab.size} (h : CanStore hs key idx) (hok : htab.SlotsOk)
    (k : CString) : htab.cells idx ≠ .live k := by
  intro hc
  have hu := ((hok idx h.mem).cell_live_iff.mp hc).1
  have := firstHash_pos htab.size k
  rcases h.2 with h0 | ⟨-, h0⟩ <;> omega

theorem hsearchR_enter (ha : hooks.Accepting) (key d : CString) (flag : Nat)
    (hs : Sized htab.size) (hok : htab.SlotsOk) (hv : hs.walk.Inv htab.cells) :
    (∃ i ∈ Finset.Icc 1 htab.size, htab.cells i = .live key ∧
      hsearchR hooks key (some d) .enter flag htab = ⟨i, some i, none, htab.setData i d⟩) ∨
    (¬ hs.walk.Has htab.cells key ∧ ∃ idx, CanStore hs key idx ∧
      hsearchR hooks key (some d) .enter flag htab =
        createEntry hooks key (some d) flag htab (firstHash htab.size key) idx) ∨
    (¬ hs.walk.Has htab.cells key ∧ (∀ i ∈ Finset.Icc 1 htab.size, (htab.table i).used ≠ 0) ∧
      (htab.table (firstHash htab.size key)).used ≠ -1 ∧
      hsearchR hooks key (some d) .enter flag htab =
        createEntry hooks key (some d) flag htab (firstHash htab.size key)
          (firstHash htab.size key)) := by
  have hpos := firstHash_pos htab.size key
  have hhome (hd : (htab.table (firstHash htab.size key)).used = -1) :
      CanStore hs key (firstHash htab.size key) :=
    ⟨⟨0, hs.prime.pos, rfl, by simp⟩, .inr ⟨rfl, hd⟩⟩
  rcases hsearchR_ends hooks (some d) .enter flag hs hok with
    ⟨j, hj, -, hc, f, hf, hr⟩ | ⟨j, hj, hn, hc, hr⟩ | ⟨hn, hr⟩
  · refine .inl ⟨_, hs.walk.slot_mem key j, hc, ?_⟩
    rw [compare_enter ha (hok _ (hs.walk.slot_mem key j)) hc] at hf
    exact hr.trans (Option.some.inj hf).symm
  · have habs := hv.absent_of_free hc hn
    refine .inr (.inl ⟨habs, ?_⟩)
    by_cases hd : (htab.table (firstHash htab.size key)).used = -1
    · refine ⟨_, hhome hd, ?_⟩
      simp [hr, finishSearch, Htab.firstDeleted, hd, hpos.ne']
    · refine ⟨hs.walk.slot key j, ⟨⟨j, hj, rfl, fun l hl h => hn l hl (.inl h)⟩, ?_⟩, ?_⟩
      · exact .inl ((Slot.cell_free_iff _).mp hc)
      · simp [hr, finishSearch, Htab.firstDeleted, hd]
  · have habs := Probing.absent_of_round (P := hs.walk) hn
    by_cases hd : (htab.table (firstHash htab.size key)).used = -1
    · refine .inr (.inl ⟨habs, _, hhome hd, ?_⟩)
      simp [hr, finishSearch, Htab.firstDeleted, hd]
    · refine .inr (.inr ⟨habs, fun i hi h => ?_, hd, ?_⟩)
      · obtain ⟨j, hj, rfl⟩ := hs.walk.exists_slot key hi
        exact hn j hj (.inl ((Slot.cell_free_iff _).mpr h))
      · simp [hr, finishSearch, Htab.firstDeleted, hd]

end

end UBoot.Env
