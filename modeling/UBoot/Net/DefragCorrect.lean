import UBoot.Lib.Machine
import UBoot.Net.Reassemble

/-!
# Reassembly of a datagram

The fragments of one datagram arrive in any order, some more than once. The holes are the runs
of fragments that are missing. The hole at index 0 can be taken for no hole and forgotten.
-/

namespace UBoot.Net

open List hiding keys

open Links (Seg firstKey lastKey keys AgreeOn seg_append)

/-- A datagram cut into `last + 1` fragments. The fragment `i` begins at the
eight byte block `cut i`. -/
structure Datagram where
  id : Nat
  payload : List UInt8
  last : Nat
  cut : Nat → Nat
  cut_zero : cut 0 = 0
  cut_lt_succ : ∀ i < last, cut i < cut (i + 1)
  cut_last : 8 * cut last < payload.length
  length_le : payload.length ≤ ipMaxUdp

namespace Datagram

variable (D : Datagram)

def stop (i : Nat) : Nat := if i < D.last then 8 * D.cut (i + 1) else D.payload.length

def fragLen (i : Nat) : Nat := D.stop i - 8 * D.cut i

structure IsFragment (i : Nat) (pkt : IpPacket) : Prop where
  le_last : i ≤ D.last
  id : pkt.hdr.id = D.id
  offset : pkt.hdr.offset = D.cut i
  more : pkt.hdr.moreFragments = decide (i < D.last)
  len : pkt.hdr.len = ipHdrSize + D.fragLen i
  room : D.fragLen i ≤ pkt.body.length
  body : ∀ j < D.fragLen i, pkt.body.getD j 0 = D.payload.getD (8 * D.cut i + j) 0

variable {D} {i j : Nat}

theorem strictMonoOn_cut : StrictMonoOn D.cut (Set.Iic D.last) :=
  strictMonoOn_Iic_of_lt_succ D.cut_lt_succ

theorem cut_lt (hij : i < j) (hj : j ≤ D.last) : D.cut i < D.cut j :=
  strictMonoOn_cut (hij.le.trans hj) hj hij

theorem cut_le (hij : i ≤ j) (hj : j ≤ D.last) : D.cut i ≤ D.cut j :=
  strictMonoOn_cut.monotoneOn (hij.trans hj) hj hij

theorem cut_inj (hi : i ≤ D.last) (hj : j ≤ D.last) (h : D.cut i = D.cut j) : i = j :=
  strictMonoOn_cut.injOn hi hj h

theorem stop_of_lt (h : i < D.last) : D.stop i = 8 * D.cut (i + 1) := if_pos h

theorem stop_last : D.stop D.last = D.payload.length := if_neg (Nat.lt_irrefl _)

theorem start_lt_stop (hi : i ≤ D.last) : 8 * D.cut i < D.stop i := by
  rcases Nat.lt_or_eq_of_le hi with hlt | rfl
  · rw [stop_of_lt hlt]
    have := D.cut_lt_succ i hlt
    omega
  · rw [stop_last]
    exact D.cut_last

theorem stop_le_start (hij : i < j) (hj : j ≤ D.last) : D.stop i ≤ 8 * D.cut j := by
  rw [stop_of_lt (by omega)]
  exact Nat.mul_le_mul_left 8 (cut_le hij hj)

theorem stop_le_length (hi : i ≤ D.last) : D.stop i ≤ D.payload.length := by
  rcases Nat.lt_or_eq_of_le hi with hlt | rfl
  · exact (stop_le_start hlt le_rfl).trans D.cut_last.le
  · exact stop_last.le

theorem succ_of_lt (h : i < D.last) : D.cut i + D.fragLen i / 8 = D.cut (i + 1) := by
  have := D.cut_lt_succ i h
  rw [fragLen, stop_of_lt h]
  omega

theorem length_lt : D.payload.length < 0xffff :=
  Nat.lt_of_le_of_lt D.length_le (by decide)

theorem IsFragment.eq_last (hp : D.IsFragment i pkt) (hi : ¬ i < D.last) : i = D.last :=
  Nat.le_antisymm hp.le_last (Nat.le_of_not_lt hi)

theorem IsFragment.stop_eq (hp : D.IsFragment i pkt) :
    pkt.hdr.offset * 8 + D.fragLen i = D.stop i := by
  rw [hp.offset, Nat.mul_comm]
  exact Nat.add_sub_cancel' (start_lt_stop hp.le_last).le

theorem start_add_fragLen (hi : i ≤ D.last) : 8 * D.cut i + D.fragLen i = D.stop i :=
  Nat.add_sub_cancel' (start_lt_stop hi).le

end Datagram

/-! ## Runs of missing fragments -/

variable {D : Datagram} {R : List (Nat × Nat)} {f : Nat}

structure Runs (D : Datagram) (R : List (Nat × Nat)) : Prop where
  bounds : ∀ r ∈ R, r.1 < r.2 ∧ r.2 ≤ D.last + 1
  apart : R.Pairwise fun r r' => r.2 < r'.1

def Missing (R : List (Nat × Nat)) (i : Nat) : Prop := ∃ r ∈ R, r.1 ≤ i ∧ i < r.2

def holeOf (D : Datagram) (r : Nat × Nat) : Nat × Nat :=
  (D.cut r.1, if r.2 ≤ D.last then 8 * D.cut r.2 else 0xffff)

/-- The runs without the fragment `f` of the run from `a` to `b`. -/
def without (a b f : Nat) : List (Nat × Nat) :=
  (if a < f then [(a, f)] else []) ++ if f + 1 < b then [(f + 1, b)] else []

theorem missing_append : Missing (R ++ R') i ↔ Missing R i ∨ Missing R' i := by
  simp [Missing, or_and_right, exists_or]

theorem missing_cons : Missing (r :: R) i ↔ (r.1 ≤ i ∧ i < r.2) ∨ Missing R i := by
  simp [Missing]

theorem missing_without (hf : a ≤ f ∧ f < b) :
    Missing (without a b f) i ↔ (a ≤ i ∧ i < b) ∧ i ≠ f := by
  unfold without
  rw [missing_append]
  split_ifs <;> simp [Missing] <;> omega

section
variable {Rpre Rpost : List (Nat × Nat)} {a b : Nat} (h : Runs D (Rpre ++ (a, b) :: Rpost))
include h

theorem Runs.at : a < b ∧ b ≤ D.last + 1 := h.bounds (a, b) (by simp)

theorem Runs.before (hr : r ∈ Rpre) : r.1 < r.2 ∧ r.2 < a :=
  ⟨(h.bounds r (by simp [hr])).1, (pairwise_append.mp h.apart).2.2 r hr (a, b) (by simp)⟩

theorem Runs.after (hr : r ∈ Rpost) : b < r.1 ∧ r.1 ≤ D.last := by
  have hb := h.bounds r (by simp [hr])
  exact ⟨(pairwise_cons.mp (pairwise_append.mp h.apart).2.1).1 r hr, by omega⟩

theorem Runs.missing_without (hf : a ≤ f ∧ f < b) :
    Missing (Rpre ++ without a b f ++ Rpost) i ↔
      Missing (Rpre ++ (a, b) :: Rpost) i ∧ i ≠ f := by
  rw [missing_append, missing_append, missing_append, missing_cons, Net.missing_without hf]
  have hpre : Missing Rpre i → i ≠ f := by
    rintro ⟨r, hr, -, hlt⟩ rfl
    have := (h.before hr).2
    omega
  have hpost : Missing Rpost i → i ≠ f := by
    rintro ⟨r, hr, hle, -⟩ rfl
    have := (h.after hr).1
    omega
  tauto

theorem Runs.without (hf : a ≤ f ∧ f < b) : Runs D (Rpre ++ without a b f ++ Rpost) := by
  have hmem {r : Nat × Nat} (hr : r ∈ Net.without a b f) : a ≤ r.1 ∧ r.1 < r.2 ∧ r.2 ≤ b := by
    unfold Net.without at hr
    split_ifs at hr <;> simp at hr <;> rcases hr with rfl | rfl <;> simp <;> omega
  have hat := h.at
  have hparts := pairwise_append.mp h.apart
  refine ⟨fun r hr => ?_, ?_⟩
  · simp only [mem_append] at hr
    rcases hr with (hr | hr) | hr
    · exact h.bounds r (by simp [hr])
    · have := hmem hr
      omega
    · exact h.bounds r (by simp [hr])
  · rw [pairwise_append, pairwise_append]
    refine ⟨⟨hparts.1, ?_, fun r hr r' hr' => ?_⟩, (pairwise_cons.mp hparts.2.1).2,
      fun r hr r' hr' => ?_⟩
    · unfold Net.without
      split_ifs <;> simp
    · exact (h.before hr).2.trans_le (hmem hr').1
    · rcases mem_append.mp hr with hr | hr
      · exact hparts.2.2 r hr r' (by simp [hr'])
      · exact (hmem hr).2.2.trans_lt (h.after hr').1

end

/-! ## The holes of the runs -/

section
variable {Rpre Rpost : List (Nat × Nat)} {a b : Nat} {pkt : IpPacket}

theorem map_holeOf : (Rpre ++ (a, b) :: Rpost).map (holeOf D) =
    Rpre.map (holeOf D) ++ (D.cut a, (holeOf D (a, b)).2) :: Rpost.map (holeOf D) := by
  rw [map_append, map_cons]
  rfl

theorem mem_keys_holes (hruns : Runs D R) (hk : k ∈ keys (R.map (holeOf D))) :
    ∃ r ≤ D.last, k = D.cut r ∧ Missing R r := by
  simp only [keys, map_map, mem_map] at hk
  obtain ⟨r, hr, rfl⟩ := hk
  have hb := hruns.bounds r hr
  exact ⟨r.1, by omega, rfl, r, hr, le_rfl, hb.1⟩

theorem holeEnd_fragment (hp : D.IsFragment f pkt) (e : Nat) :
    holeEnd pkt e (D.fragLen f) = if f < D.last then e else D.payload.length := by
  unfold holeEnd
  rw [hp.more, hp.stop_eq]
  by_cases hf : f < D.last
  · simp [hf]
  · simp [hp.eq_last hf, Datagram.stop_last]

theorem start_le_holeOf (hf : f ≤ D.last) (hfb : f ≤ b) : 8 * D.cut f ≤ (holeOf D (a, b)).2 := by
  simp only [holeOf]
  split
  case isTrue hb => exact Nat.mul_le_mul_left 8 (Datagram.cut_le hfb hb)
  case isFalse =>
    have h1 := Datagram.start_lt_stop hf
    have h2 := Datagram.stop_le_length hf
    have h3 := D.length_lt
    omega

theorem holeOf_lt_start (hab : b < f) (hf : f ≤ D.last) : (holeOf D (a, b)).2 < 8 * D.cut f := by
  have := Datagram.cut_lt hab hf
  simp only [holeOf, if_pos (hab.le.trans hf)]
  omega

theorem holes_before (hp : D.IsFragment f pkt) (h : ∀ r ∈ R, r.2 < f) :
    ∀ x ∈ R.map (holeOf D), x.2 < pkt.hdr.offset * 8 := by
  intro x hx
  obtain ⟨r, hr, rfl⟩ := mem_map.mp hx
  rw [hp.offset, Nat.mul_comm]
  exact holeOf_lt_start (h r hr) hp.le_last

theorem holeEnd_le_stop_iff (hp : D.IsFragment f pkt) (hfb : f < b) (hb : b ≤ D.last + 1) :
    holeEnd pkt (holeOf D (a, b)).2 (D.fragLen f) ≤ D.stop f ↔ b = f + 1 := by
  rw [holeEnd_fragment hp]
  have hle := Datagram.stop_le_length hp.le_last
  have hlen := D.length_lt
  by_cases hf : f < D.last
  · rw [if_pos hf, Datagram.stop_of_lt hf]
    simp only [holeOf]
    rcases Nat.lt_or_eq_of_le (Nat.succ_le_of_lt hfb) with hlt | rfl
    · have hne : b ≠ f + 1 := hlt.ne'
      simp only [hne, iff_false, Nat.not_le]
      split
      case isTrue hbl => exact Nat.mul_lt_mul_of_pos_left (Datagram.cut_lt hlt hbl) (by decide)
      case isFalse =>
        rw [← Datagram.stop_of_lt hf]
        omega
    · simp only [Nat.succ_eq_add_one, if_pos (Nat.succ_le_of_lt hf), le_refl]
  · obtain rfl := hp.eq_last hf
    simp only [Nat.lt_irrefl, if_false, Datagram.stop_last, le_refl, true_iff]
    omega

variable (h : Runs D (Rpre ++ (a, b) :: Rpost)) (hp : D.IsFragment f pkt) (haf : a ≤ f) (hfb : f ≤ b)
include h hp haf hfb

theorem fits_run : Fits pkt (Rpre.map (holeOf D)) (D.cut a) (holeOf D (a, b)).2
    (Rpost.map (holeOf D)) (D.fragLen f) := by
  have hpos := Datagram.start_lt_stop hp.le_last
  have hstop := hp.stop_eq
  have hlen := Datagram.stop_le_length hp.le_last
  refine ⟨⟨?_, ?_, fun hlt => ?_⟩,
    holes_before hp fun r hr => (h.before hr).2.trans_le haf, fun x hx => ?_, ?_, hp.room⟩
  · rw [holeEnd_fragment hp, hp.offset, Nat.mul_comm]
    split
    case isTrue => exact start_le_holeOf hp.le_last hfb
    case isFalse => omega
  · have hcut := Datagram.cut_le haf hp.le_last
    rw [hp.offset] at hstop ⊢
    omega
  · rw [holeEnd_fragment hp, hstop] at hlt
    have hf : f < D.last := by
      by_contra hf
      simp [hp.eq_last hf, Datagram.stop_last] at hlt
    have hnext := Datagram.start_lt_stop (D := D) (i := f + 1) hf
    have hnext' := Datagram.stop_le_length (D := D) (i := f + 1) hf
    have hmax := D.length_le
    rw [hstop, Datagram.stop_of_lt hf]
    refine ⟨?_, by omega⟩
    rw [Datagram.stop_of_lt hf, hp.offset] at hstop
    omega
  · obtain ⟨r, hr, rfl⟩ := mem_map.mp hx
    rw [hstop]
    exact Datagram.stop_le_start (hfb.trans_lt (h.after hr).1) (h.after hr).2
  · rw [hstop]
    exact hlen.trans D.length_le

omit hfb in
theorem newList_run (hfb : f < b)
    (hkeep : f = a → keep (Rpre.map (holeOf D)) = Rpre.map (holeOf D)) :
    newList pkt (Rpre.map (holeOf D)) (D.cut a) (holeOf D (a, b)).2 (Rpost.map (holeOf D))
      (D.fragLen f) = (Rpre ++ without a b f ++ Rpost).map (holeOf D) := by
  have hbl := h.at.2
  have hle := hp.le_last
  have hfirst : (D.cut a, D.cut f * 8) = holeOf D (a, f) := by
    simp [holeOf, hle, Nat.mul_comm]
  have hsecond (hb : f + 1 < b) :
      (D.cut f + D.fragLen f / 8, holeEnd pkt (holeOf D (a, b)).2 (D.fragLen f)) =
        holeOf D (f + 1, b) := by
    have hf : f < D.last := by omega
    rw [Datagram.succ_of_lt hf, holeEnd_fragment hp, if_pos hf]
    rfl
  have hcut : D.cut f ≤ D.cut a ↔ f = a := by
    refine ⟨fun hle' => ?_, fun heq => heq ▸ le_rfl⟩
    rcases Nat.lt_or_eq_of_le haf with hlt | heq
    · exact absurd hle' (Nat.not_le_of_lt (Datagram.cut_lt hlt hle))
    · exact heq.symm
  unfold newList fixedList without
  simp only [hp.stop_eq, holeEnd_le_stop_iff hp hfb hbl]
  rw [hp.offset, hfirst]
  simp only [hcut]
  rcases Nat.lt_or_eq_of_le haf with hlt | rfl
  · rw [if_pos hlt, if_neg hlt.ne', if_neg hlt.ne']
    split
    case isTrue hb => simp [hb]
    case isFalse hb =>
      have hb' : f + 1 < b := by omega
      simp [hb', hsecond hb']
  · rw [if_neg (Nat.lt_irrefl a), if_pos rfl, if_pos rfl, hkeep rfl]
    split
    case isTrue hb => simp [hb]
    case isFalse hb =>
      have hb' : a + 1 < b := by omega
      simp [hb', hsecond hb']

omit hfb haf in
theorem newList_behind (hfb : f = b) :
    newList pkt (Rpre.map (holeOf D)) (D.cut a) (holeOf D (a, b)).2 (Rpost.map (holeOf D))
      (D.fragLen f) = (Rpre ++ (a, b) :: Rpost).map (holeOf D) := by
  subst hfb
  have hle := hp.le_last
  have hcut : ¬ D.cut f ≤ D.cut a := Nat.not_le_of_lt (Datagram.cut_lt h.at.1 hle)
  have hend : holeEnd pkt (holeOf D (a, f)).2 (D.fragLen f) ≤ D.stop f := by
    rw [holeEnd_fragment hp]
    split
    case isTrue =>
      simp only [holeOf, if_pos hle]
      exact (Datagram.start_lt_stop hle).le
    case isFalse hf => rw [hp.eq_last hf, Datagram.stop_last]
  unfold newList fixedList
  rw [hp.stop_eq, if_pos hend, hp.offset, if_neg hcut]
  simp [holeOf, hle, Nat.mul_comm]

end

/-! ## One fragment -/

structure Stored (D : Datagram) (s : State) (R : List (Nat × Nat)) : Prop where
  runs : Runs D R
  id : s.localip.id = D.id
  total_ne : s.totalLen ≠ 0
  total : ¬ Missing R D.last → s.totalLen = D.payload.length
  bytes : ∀ i ≤ D.last, ¬ Missing R i → ∀ j < D.fragLen i,
    s.payload (8 * D.cut i + j) = D.payload.getD (8 * D.cut i + j) 0

def Overlooks (got : Nat → Prop) (f : Nat) : Prop :=
  ¬ got f ∧ ∃ m, 0 < m ∧ m < f ∧ (∀ j < m, ¬ got j) ∧ ∀ j, m ≤ j → j < f → got j

section
variable {s : State} {pkt : IpPacket}

theorem outside_descriptors (hi : i ≤ D.last) (hj : j < D.fragLen i) (hr : r ≤ D.last) (hne : r ≠ i) :
    8 * D.cut i + j < 8 * D.cut r ∨ 8 * D.cut r + 8 ≤ 8 * D.cut i + j := by
  have hstop := Datagram.start_add_fragLen hi
  rcases Nat.lt_or_gt_of_ne hne with hlt | hgt
  · have := Datagram.cut_lt hlt hi
    omega
  · have := Datagram.stop_le_start hgt hr
    omega

theorem outside_fragment (hi : i ≤ D.last) (hj : j < D.fragLen i) (hp : D.IsFragment f pkt)
    (hne : f ≠ i) :
    8 * D.cut i + j < pkt.hdr.offset * 8 ∨
      pkt.hdr.offset * 8 + (pkt.body.take (D.fragLen f)).length ≤ 8 * D.cut i + j := by
  have hstop := Datagram.start_add_fragLen hi
  rw [length_take, Nat.min_eq_left hp.room, hp.stop_eq, hp.offset]
  rcases Nat.lt_or_gt_of_ne hne with hlt | hgt
  · have := Datagram.stop_le_start hlt hi
    omega
  · have := Datagram.stop_le_start hgt hp.le_last
    omega

theorem stored_fill (hst : Stored D s R) (hp : D.IsFragment f pkt) (hruns : Runs D R')
    (hmiss : ∀ i, Missing R' i ↔ Missing R i ∧ i ≠ f)
    (hks : ∀ k ∈ ks, ∃ r ≤ D.last, k = D.cut r ∧ Missing R r) (hid : s'.localip.id = s.localip.id)
    (htotal : s'.totalLen = newTotal s pkt (D.fragLen f))
    (hfill : Filled ks (pkt.hdr.offset * 8) (pkt.body.take (D.fragLen f)) s.payload s'.payload) :
    Stored D s' R' := by
  have hpos := Datagram.start_lt_stop hp.le_last
  rw [newTotal, hp.more, hp.stop_eq] at htotal
  refine ⟨hruns, hid.trans hst.id, ?_, fun hlast => ?_, fun i hi hgot j hj => ?_⟩
  · rw [htotal]
    split
    · exact hst.total_ne
    · omega
  · rw [htotal]
    split
    case isTrue hf =>
      have hne : D.last ≠ f := (of_decide_eq_true hf).ne'
      exact hst.total fun hm => hlast ((hmiss _).mpr ⟨hm, hne⟩)
    case isFalse hf =>
      rw [hp.eq_last fun hlt => hf (decide_eq_true hlt), Datagram.stop_last]
  · by_cases hif : i = f
    · subst hif
      have hb := hfill.bytes j (by simpa [hp.room] using hj)
      rw [hp.offset, Nat.mul_comm] at hb
      rw [hb, ← hp.body j hj]
      simp [getD_eq_getElem?_getD, hj]
    · have hgot' : ¬ Missing R i := fun hm => hgot ((hmiss i).mpr ⟨hm, hif⟩)
      rw [hfill.frame _ (outside_fragment hi hj hp (Ne.symm hif)) fun k hk => ?_]
      · exact hst.bytes i hi hgot' j hj
      · obtain ⟨r, hr, rfl, hm⟩ := hks k hk
        exact outside_descriptors hi hj hr fun heq => hgot' (heq ▸ hm)

theorem missing_at (h : Runs D (Rpre ++ (a, b) :: Rpost)) (hpre : ∀ r ∈ Rpre, r.2 < f) (hfb : f ≤ b)
    (hm : Missing (Rpre ++ (a, b) :: Rpost) f) : a ≤ f ∧ f < b := by
  rcases missing_append.mp hm with ⟨r, hr, -, hlt⟩ | hm
  · have := hpre r hr
    omega
  · rcases missing_cons.mp hm with hm | ⟨r, hr, hle, -⟩
    · exact hm
    · have := (h.after hr).1
      omega

theorem keep_of_not_overlooks (h : Runs D (Rpre ++ (f, b) :: Rpost))
    (hover : ¬ Overlooks (fun i => ¬ Missing (Rpre ++ (f, b) :: Rpost) i) f) :
    keep (Rpre.map (holeOf D)) = Rpre.map (holeOf D) := by
  unfold keep
  split
  case isFalse => rfl
  case isTrue hlast =>
    rcases eq_nil_or_concat Rpre with rfl | ⟨init, ⟨x, m⟩, rfl⟩
    · rfl
    refine absurd ?_ hover
    rw [concat_eq_append] at h hlast ⊢
    have hm := h.before (r := (x, m)) (by simp)
    have hx : x = 0 := by
      have hcut : D.cut x = D.cut 0 := by
        simpa [Links.lastKey_append, holeOf, D.cut_zero] using hlast
      exact Datagram.cut_inj (by have := h.at; omega) (Nat.zero_le _) hcut
    subst hx
    have hinit : init = [] := by
      rw [append_assoc] at h
      refine eq_nil_iff_forall_not_mem.mpr fun r hr => ?_
      have := (h.before hr).2
      omega
    subst hinit
    have hat := h.at
    refine ⟨not_not_intro ⟨(f, b), by simp, le_rfl, hat.1⟩, m, hm.1, hm.2, fun j hj => ?_,
      fun j hmj hjf => ?_⟩
    · exact not_not_intro ⟨(0, m), by simp, Nat.zero_le j, hj⟩
    · intro hmiss
      rcases missing_append.mp hmiss with ⟨r, hr, -, hlt⟩ | hmiss
      · simp only [nil_append, mem_singleton] at hr
        subst hr
        omega
      · rcases missing_cons.mp hmiss with hin | ⟨r, hr, hle, -⟩
        · exact absurd hjf (Nat.not_lt_of_le hin.1)
        · have := (h.after hr).1
          omega

/-- After the fragment `f` the runs of `R` are missing without it, and the
packet is returned if nothing is missing. -/
def Advances (D : Datagram) (s : State) (pkt : IpPacket) (R : List (Nat × Nat)) (f : Nat) : Prop :=
  ∃ s' R', reassemble s pkt =
      some (s', if R' = [] then some (D.payload.length + ipHdrSize) else none) ∧
    Stored D s' R' ∧ (R' ≠ [] → Listed s' (R'.map (holeOf D))) ∧
    ∀ i, Missing R' i ↔ Missing R i ∧ i ≠ f

section
variable (hl : Listed (current s pkt.hdr) (R.map (holeOf D))) (hst : Stored D (current s pkt.hdr) R)
include hl hst

theorem advances_ignored (hrun : reassemble s pkt = some (current s pkt.hdr, none))
    (hgot : ¬ Missing R f) : Advances D s pkt R f := by
  have hne : R ≠ [] := fun hnil => hl.nonempty (by rw [hnil, map_nil])
  refine ⟨_, R, by rw [hrun, if_neg hne], hst, fun _ => hl, fun i => ?_⟩
  exact ⟨fun hm => ⟨hm, fun heq => hgot (heq ▸ hm)⟩, And.left⟩

end

theorem IsFragment.room_int (hp : D.IsFragment f pkt) :
    (pkt.hdr.offset * 8 : Nat) + ((pkt.hdr.len : Int) - ipHdrSize) ≤ ipMaxUdp := by
  have h1 := hp.stop_eq
  have h2 := Datagram.stop_le_length hp.le_last
  have h3 := D.length_le
  rw [hp.len]
  omega

section
variable {Rpre Rpost : List (Nat × Nat)} {a b : Nat}
  (hl : Listed (current s pkt.hdr) ((Rpre ++ (a, b) :: Rpost).map (holeOf D)))
  (hst : Stored D (current s pkt.hdr) (Rpre ++ (a, b) :: Rpost)) (hp : D.IsFragment f pkt)
  (hpre : ∀ r ∈ Rpre, r.2 < f) (hfb : f ≤ b)
include hl hst hp hpre hfb

omit hst in
theorem reassemble_at : reassemble s pkt =
    if (D.cut f : Int) + (D.fragLen f + 7) / 8 ≤ D.cut a then some (current s pkt.hdr, none)
    else fillHole (current s pkt.hdr) pkt (D.cut a) (D.fragLen f) := by
  rw [map_holeOf] at hl
  have hlen : (pkt.hdr.len : Int) - ipHdrSize = D.fragLen f := by
    rw [hp.len]
    omega
  have hfound := reassemble_found hl (holes_before hp hpre)
    (by
      rw [hp.offset, Nat.mul_comm]
      exact start_le_holeOf hp.le_last hfb) (IsFragment.room_int hp)
  rwa [hlen, if_neg (by omega : ¬ (D.fragLen f : Int) < 0), Int.toNat_natCast,
    Int.tdiv_eq_ediv_of_nonneg (by omega), hp.offset] at hfound

theorem advances_between (hfa : f < a) : Advances D s pkt (Rpre ++ (a, b) :: Rpost) f := by
  have hal : a ≤ D.last := Nat.lt_succ_iff.mp (hst.runs.at.1.trans_le hst.runs.at.2)
  have hlast : f < D.last := hfa.trans_le hal
  refine advances_ignored hl hst ((reassemble_at hl hp hpre hfb).trans (if_pos ?_)) fun hm => ?_
  · have hcut : D.cut (f + 1) ≤ D.cut a := Datagram.cut_le hfa hal
    have hmod := Datagram.start_add_fragLen hp.le_last
    rw [Datagram.stop_of_lt hlast] at hmod
    omega
  · exact absurd (missing_at hst.runs hpre hfb hm).1 (Nat.not_le_of_lt hfa)

omit hl in
theorem exists_newRuns (haf : a ≤ f)
    (hover : ¬ Overlooks (fun i => ¬ Missing (Rpre ++ (a, b) :: Rpost) i) f) :
    ∃ R', newList pkt (Rpre.map (holeOf D)) (D.cut a) (holeOf D (a, b)).2
        (Rpost.map (holeOf D)) (D.fragLen f) = R'.map (holeOf D) ∧
      Runs D R' ∧ ∀ i, Missing R' i ↔ Missing (Rpre ++ (a, b) :: Rpost) i ∧ i ≠ f := by
  rcases Nat.lt_or_eq_of_le hfb with hlt | heq
  · refine ⟨_, newList_run hst.runs hp haf hlt fun hfa => ?_, hst.runs.without ⟨haf, hlt⟩,
      fun i => hst.runs.missing_without ⟨haf, hlt⟩⟩
    subst hfa
    exact keep_of_not_overlooks hst.runs hover
  · refine ⟨_, newList_behind hst.runs hp heq, hst.runs, fun i => ⟨fun hm => ⟨hm, ?_⟩, And.left⟩⟩
    rintro rfl
    exact absurd (missing_at hst.runs hpre hfb hm).2 (Nat.not_lt_of_le heq.ge)

theorem advances_in (haf : a ≤ f)
    (hover : ¬ Overlooks (fun i => ¬ Missing (Rpre ++ (a, b) :: Rpost) i) f) :
    Advances D s pkt (Rpre ++ (a, b) :: Rpost) f := by
  have hfound := reassemble_at hl hp hpre hfb
  rw [if_neg] at hfound
  · obtain ⟨R', hnew, hruns, hmiss⟩ := exists_newRuns hst hp hpre hfb haf hover
    obtain ⟨s', hrun, hlist, hid, htotal, hfill⟩ :=
      fillHole_spec (map_holeOf ▸ hl) (fits_run hst.runs hp haf hfb)
    rw [← map_holeOf] at hfill
    rw [hnew] at hrun hlist hfill
    have hst' : Stored D s' R' := by
      refine stored_fill hst hp hruns hmiss (fun k hk => ?_) hid htotal hfill
      rcases mem_append.mp hk with hk | hk
      · exact mem_keys_holes hst.runs hk
      · obtain ⟨r, hr, rfl, hm⟩ := mem_keys_holes hruns hk
        exact ⟨r, hr, rfl, ((hmiss r).mp hm).1⟩
    refine ⟨s', R', ?_, hst', fun hne => hlist (by simpa using hne), hmiss⟩
    rw [hfound, hrun, ← htotal]
    simp only [map_eq_nil_iff]
    split
    case isTrue hnil => rw [hst'.total (by simp [hnil, Missing])]
    case isFalse => rfl
  · have h1 := Datagram.cut_le haf hp.le_last
    have h2 := Datagram.start_add_fragLen hp.le_last
    have h3 := Datagram.start_lt_stop hp.le_last
    omega

end

theorem reassemble_fragment (hl : Listed (current s pkt.hdr) (R.map (holeOf D)))
    (hst : Stored D (current s pkt.hdr) R) (hp : D.IsFragment f pkt)
    (hover : ¬ Overlooks (fun i => ¬ Missing R i) f) : Advances D s pkt R f := by
  rcases exists_hole f R with hall | ⟨Rpre, a, b, Rpost, rfl, hpre, hfb⟩
  · refine advances_ignored hl hst
      (reassemble_tooFar hl (holes_before hp hall) (IsFragment.room_int hp)) ?_
    rintro ⟨r, hr, -, hlt⟩
    exact absurd (hall r hr) (Nat.not_lt_of_lt hlt)
  · rcases Nat.lt_or_ge f a with hfa | haf
    · exact advances_between hl hst hp hpre hfb hfa
    · exact advances_in hl hst hp hpre hfb haf hover

end

/-! ## All deliveries -/

/-- The state, `none` after a fault, and the fragments delivered so far. -/
structure Assembly where
  state : Option State
  got : List Nat

def defragMachine : Machine Assembly (Nat × IpPacket) (Option (Option Nat)) where
  step t d :=
    match t.state.bind (reassemble · d.2) with
    | none => (⟨none, d.1 :: t.got⟩, none)
    | some (s, lenp) => (⟨some s, d.1 :: t.got⟩, some lenp)

def Delivers (D : Datagram) (t : Assembly) (d : Nat × IpPacket) : Prop :=
  D.IsFragment d.1 d.2 ∧ ¬ Overlooks (· ∈ t.got) d.1

def Assembly.Partial (D : Datagram) (t : Assembly) : Prop :=
  ∃ s, t.state = some s ∧ ∀ ip : IpHdr, ip.id = D.id → ∃ R,
    Listed (current s ip) (R.map (holeOf D)) ∧ Stored D (current s ip) R ∧
      ∀ i ≤ D.last, Missing R i ↔ i ∉ t.got

section
variable {t : Assembly} {d : Nat × IpPacket} {ds : List (Nat × IpPacket)} {s : State}

theorem partial_start (hs : s.totalLen = 0 ∨ s.localip.id ≠ D.id) :
    Assembly.Partial D ⟨some s, []⟩ := by
  refine ⟨s, rfl, fun ip hip => ⟨[(0, D.last + 1)], ?_⟩⟩
  have hmiss : ∀ i ≤ D.last, Missing [(0, D.last + 1)] i := fun i hi =>
    ⟨_, mem_singleton_self _, Nat.zero_le i, Nat.lt_succ_of_le hi⟩
  have hreset : current s ip = reset ip s := if_pos (hip ▸ hs)
  rw [hreset]
  refine ⟨?_, ⟨⟨by simp, by simp⟩, hip, by simp [reset], fun h => ?_, fun i hi h => ?_⟩,
    fun i hi => by simp [hmiss i hi]⟩
  · simpa [holeOf, D.cut_zero] using listed_reset ip s
  · exact absurd (hmiss _ le_rfl) h
  · exact absurd (hmiss i hi) h

theorem Overlooks.congr (hPQ : ∀ i ≤ f, P i ↔ Q i) (h : Overlooks P f) : Overlooks Q f := by
  obtain ⟨hf, m, hm, hmf, hbefore, hbehind⟩ := h
  exact ⟨fun hq => hf ((hPQ f le_rfl).mpr hq), m, hm, hmf,
    fun j hj hq => hbefore j hj ((hPQ j (by omega)).mpr hq),
    fun j hmj hjf => (hPQ j hjf.le).mp (hbehind j hmj hjf)⟩

theorem Assembly.Partial.step (ht : t.Partial D) (hd : Delivers D t d) :
    ((∃ i ≤ D.last, i ∉ d.1 :: t.got) →
      (defragMachine.step t d).2 = some none ∧ (defragMachine.step t d).1.Partial D) ∧
    ((∀ i ≤ D.last, i ∈ d.1 :: t.got) →
      (defragMachine.step t d).2 = some (some (D.payload.length + ipHdrSize)) ∧
      ∃ s R, (defragMachine.step t d).1.state = some s ∧ Stored D s R ∧ ∀ i, ¬ Missing R i) := by
  obtain ⟨s, hs, hnext⟩ := ht
  obtain ⟨hp, hover⟩ := hd
  obtain ⟨R, hl, hst, hgot⟩ := hnext d.2.hdr hp.id
  obtain ⟨s', R', hrun, hst', hlist, hmiss⟩ := reassemble_fragment hl hst hp fun h =>
    hover (h.congr fun i hi => by rw [hgot i (hi.trans hp.le_last), not_not])
  have hgot' : ∀ i ≤ D.last, Missing R' i ↔ i ∉ d.1 :: t.got := fun i hi => by
    rw [hmiss, hgot i hi, mem_cons, not_or, and_comm]
  have hstep : defragMachine.step t d = (⟨some s', d.1 :: t.got⟩,
      some (if R' = [] then some (D.payload.length + ipHdrSize) else none)) := by
    simp [defragMachine, hs, hrun]
  rw [hstep]
  constructor
  · rintro ⟨i, hi, hni⟩
    have hne : R' ≠ [] := by
      rintro rfl
      obtain ⟨r, hr, -⟩ := (hgot' i hi).mpr hni
      cases hr
    refine ⟨by rw [if_neg hne], s', rfl, fun ip hip => ⟨R', ?_⟩⟩
    have hcur : current s' ip = s' := by
      refine if_neg ?_
      rintro (h0 | hid)
      · exact hst'.total_ne h0
      · exact hid (hst'.id.trans hip.symm)
    rw [hcur]
    exact ⟨hlist hne, hst', hgot'⟩
  · intro hall
    have hnone : ∀ i, ¬ Missing R' i := by
      rintro i ⟨r, hr, hle, hlt⟩
      have hi : i ≤ D.last := Nat.lt_succ_iff.mp (hlt.trans_le (hst'.runs.bounds r hr).2)
      exact (hgot' i hi).mp ⟨r, hr, hle, hlt⟩ (hall i hi)
    have hnil : R' = [] := eq_nil_iff_forall_not_mem.mpr fun r hr =>
      hnone r.1 ⟨r, hr, le_rfl, (hst'.runs.bounds r hr).1⟩
    exact ⟨by rw [if_pos hnil], s', R', rfl, hst', hnone⟩

theorem step_got (t : Assembly) (d : Nat × IpPacket) :
    (defragMachine.step t d).1.got = d.1 :: t.got := by
  simp only [defragMachine]
  split <;> rfl

theorem run_got (t : Assembly) (ds : List (Nat × IpPacket)) (i : Nat) :
    i ∈ (defragMachine.run t ds).1.got ↔ i ∈ ds.map Prod.fst ∨ i ∈ t.got := by
  induction ds generalizing t with
  | nil => simp [Machine.run]
  | cons d ds ih =>
    simp only [Machine.run, ih, step_got, map_cons, mem_cons]
    tauto

theorem Assembly.Partial.run (ht : t.Partial D) (hm : defragMachine.Meets (Delivers D) t ds)
    (hinc : ∃ i ≤ D.last, i ∉ ds.map Prod.fst ∧ i ∉ t.got) :
    (defragMachine.run t ds).2 = List.replicate ds.length (some none) ∧
      (defragMachine.run t ds).1.Partial D := by
  induction ds generalizing t with
  | nil => exact ⟨rfl, ht⟩
  | cons d ds ih =>
    obtain ⟨i, hi, hds, hgot⟩ := hinc
    rw [map_cons, mem_cons, not_or] at hds
    obtain ⟨hout, hpart⟩ := (ht.step hm.1).1 ⟨i, hi, by simp [hds.1, hgot]⟩
    have hgot' : i ∉ (defragMachine.step t d).1.got := by
      rw [step_got, mem_cons, not_or]
      exact ⟨hds.1, hgot⟩
    obtain ⟨houts, hpart'⟩ := ih hpart hm.2 ⟨i, hi, hds.2, hgot'⟩
    refine ⟨?_, hpart'⟩
    rw [Machine.run, length_cons, replicate_succ, hout, houts]

theorem Stored.payload (hst : Stored D s R) (hnone : ∀ i, ¬ Missing R i) (ha : a < D.payload.length)
    :
    s.payload a = D.payload.getD a 0 := by
  -- the last fragment that begins at or before the byte has it
  have hex : ∃ i, i ≤ D.last ∧ a < D.stop i := ⟨D.last, le_rfl, by rwa [Datagram.stop_last]⟩
  obtain ⟨hi, hstop⟩ := Nat.find_spec hex
  have hstart : 8 * D.cut (Nat.find hex) ≤ a := by
    cases hfind : Nat.find hex with
    | zero => simp [D.cut_zero]
    | succ i =>
      have hmin := Nat.find_min hex (m := i) (by omega)
      have hlast : i < D.last := by omega
      rw [← Datagram.stop_of_lt hlast]
      exact Nat.le_of_not_lt fun hlt => hmin ⟨hlast.le, hlt⟩
  have hend := Datagram.start_add_fragLen hi
  obtain ⟨j, hj⟩ := Nat.exists_eq_add_of_le hstart
  rw [hj]
  exact hst.bytes _ hi (hnone _) j (by omega)

end

/-- In every order and with any duplicates, nothing is returned before the set of
fragments is complete, and then the datagram, if no hole is overlooked. -/
theorem defrag_run_correct (D : Datagram) (s : State) (ds : List (Nat × IpPacket))
    (d : Nat × IpPacket) (hs : s.totalLen = 0 ∨ s.localip.id ≠ D.id)
    (hmeets : defragMachine.Meets (Delivers D) ⟨some s, []⟩ (ds ++ [d]))
    (hbefore : ∃ i ≤ D.last, i ∉ ds.map Prod.fst)
    (hafter : ∀ i ≤ D.last, i ∈ (ds ++ [d]).map Prod.fst) :
    (defragMachine.run ⟨some s, []⟩ (ds ++ [d])).2 =
        List.replicate ds.length (some none) ++ [some (some (D.payload.length + ipHdrSize))] ∧
      ∃ s', (defragMachine.run ⟨some s, []⟩ (ds ++ [d])).1.state = some s' ∧
        ∀ a < D.payload.length, s'.payload a = D.payload.getD a 0 := by
  obtain ⟨hm, hlast⟩ := Machine.meets_append.mp hmeets
  obtain ⟨i, hi, hni⟩ := hbefore
  obtain ⟨houts, hpart⟩ := (partial_start hs).run hm ⟨i, hi, hni, not_mem_nil⟩
  obtain ⟨hout, s', R, hs', hst, hnone⟩ := (hpart.step hlast.1).2 fun j hj => by
    have := hafter j hj
    simp only [map_append, map_cons, map_nil, mem_append,
      mem_singleton] at this
    rw [mem_cons, run_got]
    tauto
  refine ⟨?_, s', ?_, fun a ha => hst.payload hnone ha⟩
  · rw [Machine.answers_append, houts]
    simp [Machine.run, hout]
  · rw [Machine.run_append]
    simp [Machine.run, hs']

def threeFragments : Datagram where
  id := 7
  payload := (List.range 20).map UInt8.ofNat
  last := 2
  cut := id
  cut_zero := rfl
  cut_lt_succ i _ := Nat.lt_succ_self i
  cut_last := by decide
  length_le := by decide

def threeFragments.packet (i : Nat) : IpPacket :=
  ⟨⟨0x45, 0, ipHdrSize + threeFragments.fragLen i, 7, if i < 2 then 0x2000 + i else i, 64, 17, 0,
    0x0a000001, 0x0a000002⟩, threeFragments.payload.drop (8 * i)⟩

theorem threeFragments.isFragment (hi : i ≤ 2) :
    threeFragments.IsFragment i (threeFragments.packet i) := by
  refine ⟨hi, rfl, ?_, ?_, rfl, ?_, fun j _ => ?_⟩
  · interval_cases i <;> rfl
  · interval_cases i <;> rfl
  · interval_cases i <;> decide
  · simp [threeFragments.packet, getD_eq_getElem?_getD, getElem?_drop, threeFragments]

theorem not_overlooks_of_le_one (hf : f ≤ 1) : ¬ Overlooks got f := by
  rintro ⟨-, m, hm, hmf, -⟩
  omega

def threeFragments.start : State := ⟨(threeFragments.packet 0).hdr, fun _ => 0, 0, 0⟩

theorem defrag_run_correct_three :
    (defragMachine.run ⟨some threeFragments.start, []⟩
      ([2, 0, 0, 1].map fun i => (i, threeFragments.packet i))).2 =
      [some none, some none, some none, some (some 40)] := by
  refine (defrag_run_correct threeFragments threeFragments.start
    ([2, 0, 0].map fun i => (i, threeFragments.packet i)) (1, threeFragments.packet 1) (.inl rfl)
    ⟨⟨threeFragments.isFragment le_rfl, ?_⟩, ⟨threeFragments.isFragment (by decide), ?_⟩,
      ⟨threeFragments.isFragment (by decide), ?_⟩, ⟨threeFragments.isFragment (by decide), ?_⟩,
      trivial⟩ ⟨1, by decide⟩ (by decide)).1
  · rintro ⟨-, m, hm, hmf, -, hgot⟩
    exact absurd (hgot m le_rfl hmf) not_mem_nil
  all_goals exact not_overlooks_of_le_one (by decide)

/-- The first fragment has never been sent. -/
theorem defrag_returns_without_first :
    (∀ i ≤ 2, threeFragments.IsFragment i (threeFragments.packet i)) ∧
      (defragMachine.run ⟨some threeFragments.start, []⟩
        [(1, threeFragments.packet 1), (2, threeFragments.packet 2)]).2 =
        [some none, some (some 40)] :=
  ⟨fun _ hi => threeFragments.isFragment hi, by decide +kernel⟩

end UBoot.Net
