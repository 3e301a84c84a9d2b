import UBoot.Net.HoleList

/-!
# Fixing the list of holes

What removing, shortening, moving and splitting a hole do to the list of holes.
A hole in front of the changed one is kept, unless it is the hole at index 0
and next to the changed one: its index reads as no hole (`keep`).
-/

namespace UBoot.Net

open List

open Links (Seg firstKey lastKey keys AgreeOn seg_append)

variable {s s' : State} {pre post : List (Nat × Nat)} {c e d : Nat}

def keep (pre : List (Nat × Nat)) : List (Nat × Nat) := if lastKey 0 pre = 0 then [] else pre

theorem keep_sublist (pre : List (Nat × Nat)) : (keep pre).Sublist pre := by
  unfold keep
  split
  · exact nil_sublist pre
  · exact List.Sublist.refl pre

theorem lastKey_keep (pre : List (Nat × Nat)) : lastKey 0 (keep pre) = lastKey 0 pre := by
  unfold keep
  split
  case isTrue h0 => exact h0.symm
  case isFalse => rfl

theorem keep_of_ne (h : lastKey 0 pre ≠ 0) : keep pre = pre ∧ pre ≠ [] := by
  refine ⟨if_neg h, ?_⟩
  rintro rfl
  exact h rfl

structure Kept (ks : List Nat) (s s' : State) : Prop where
  localip : s'.localip = s.localip
  totalLen : s'.totalLen = s.totalLen
  frame : Frame ks s.payload s'.payload

theorem Kept.mono (h : Kept ks s s') (hsub : ∀ j ∈ ks, j ∈ ks') : Kept ks' s s' :=
  ⟨h.localip, h.totalLen, h.frame.mono hsub⟩

theorem guarded_some (h : ∀ i ∈ is, InBuffer i) : guarded is s = some s := if_pos h

structure Around (s : State) (pre : List (Nat × Nat)) (c e : Nat) (post : List (Nat × Nat)) :
    Prop where
  ordered : Ordered (pre ++ (c, e) :: post)
  before : Seg (links s.payload) 0 pre c
  last : (hole s.payload c).lastByte = e
  next : (hole s.payload c).nextHole = firstKey post 0
  prev : (hole s.payload c).prevHole = lastKey 0 pre
  after : Seg (links s.payload) c post 0

theorem Listed.around (h : Listed s (pre ++ (c, e) :: post)) : Around s pre c e post := by
  obtain ⟨hpre, hv, hn, hp, hpost⟩ := seg_append.mp h.seg
  exact ⟨h.ordered, hpre, hv, hn, hp, hpost⟩

section
variable (h : Around s pre c e post)
include h

theorem Around.next_inBuffer (hne : post ≠ []) : InBuffer (firstKey post 0) := by
  obtain ⟨x, hx, he⟩ := mem_map.mp (Links.firstKey_mem (q := 0) hne)
  exact he ▸ (h.ordered.bounds x (by simp [hx])).2.2

theorem Around.prev_inBuffer (hne : pre ≠ []) : InBuffer (lastKey 0 pre) := by
  obtain ⟨x, hx, he⟩ := mem_map.mp (Links.lastKey_mem (p := 0) hne)
  exact he ▸ (h.ordered.bounds x (by simp [hx])).2.2

theorem Around.next_eq_zero_iff : firstKey post 0 = 0 ↔ post = [] :=
  firstKey_eq_zero_iff (h.ordered.sublist (sublist_append_right _ _))

theorem Around.nodup_pre : (keys pre).Nodup :=
  (h.ordered.sublist (sublist_append_left _ _)).nodup

theorem Around.ordered_post : Ordered post :=
  h.ordered.sublist ((sublist_cons_self _ _).trans (sublist_append_right _ _))

theorem Around.pre_lt (hk : k ∈ keys pre) : k < c := by
  obtain ⟨x, hx, rfl⟩ := mem_map.mp hk
  exact (h.ordered.before hx).2

theorem Around.lt_post (hk : k ∈ keys post) : c < k := by
  obtain ⟨x, hx, rfl⟩ := mem_map.mp hk
  exact (h.ordered.after hx).2

theorem Around.disjoint (hk : k ∈ keys post) : k ∉ keys pre :=
  fun hk' => absurd (h.lt_post hk) (Nat.not_lt_of_lt (h.pre_lt hk'))

omit h in
theorem first_of_pre (hpre : pre ≠ []) (l : List (Nat × Nat)) (q : Nat) :
    firstKey (pre ++ l) q = firstKey pre 0 := by
  cases pre with
  | nil => exact absurd rfl hpre
  | cons x pre => rfl

/-- The holes in front that are kept, linked to some others. -/
theorem Around.seg_keep (hm : AgreeOn m (links s.payload) (keys pre))
    (hl : Seg m (lastKey 0 pre) l 0) (hdisj : ∀ j ∈ keys l, j ∉ keys pre) :
    Seg (m.linkNext (keep pre) (firstKey l 0)) 0 (keep pre ++ l) 0 := by
  have hsub := (keep_sublist pre).map Prod.fst
  have hkeep : Seg m 0 (keep pre) c := by
    unfold keep
    split
    · trivial
    · exact h.before.congr hm
  rw [← lastKey_keep] at hl
  exact seg_append.mpr ⟨hkeep.linkNext (h.nodup_pre.sublist hsub) _,
    hl.congr (Links.agreeOn_linkNext fun j hj hj' => hdisj j hj' (hsub.subset hj))⟩

theorem Around.removeHole_spec (hfirst : pre ≠ [] → s.firstHole = firstKey pre 0) :
    (keep pre ++ post = [] ∧ removeHole s c = some (s, true)) ∨
    ∃ s', removeHole s c = some (s', false) ∧ Listed s' (keep pre ++ post) ∧
      Kept (keys (pre ++ post)) s s' := by
  have hord : Ordered (keep pre ++ post) := by
    simpa using h.ordered.replace (keep_sublist pre) (M := []) ⟨by simp, by simp⟩ (by simp) (by simp)
  have hseg := h.seg_keep (Links.agreeOn_linkPrev fun _ => h.disjoint)
    (h.after.linkPrev h.ordered_post.nodup _) fun _ => h.disjoint
  unfold removeHole
  simp only [h.prev, h.next]
  by_cases hprev : lastKey 0 pre = 0 <;> by_cases hnext : firstKey post 0 = 0
  · refine .inl ⟨?_, if_pos ⟨hprev, hnext⟩⟩
    rw [keep, if_pos hprev, h.next_eq_zero_iff.mp hnext]
    rfl
  · have hpost := h.next_eq_zero_iff.not.mp hnext
    have hk : keep pre = [] := if_pos hprev
    rw [if_neg (by tauto), if_pos hprev, guarded_some (by simpa using h.next_inBuffer hpost)]
    refine .inr ⟨_, rfl, ⟨by simp [hk, hpost], hord, ?_, by simp [hk]⟩, rfl, rfl,
      frame_setPrevHole _ _ (by simp [Links.firstKey_mem hpost])⟩
    simpa [hk, hprev, links_setPrevHole, Links.linkPrev, Links.linkNext, hpost] using hseg
  · obtain ⟨hk, hpre⟩ := keep_of_ne hprev
    obtain rfl := h.next_eq_zero_iff.mp hnext
    rw [if_neg (by tauto), if_neg hprev, if_pos hnext,
      guarded_some (by simpa using h.prev_inBuffer hpre)]
    refine .inr ⟨_, rfl, ⟨by simp [hk, hpre], hord, ?_, by simp [hk, hfirst hpre]⟩, rfl, rfl,
      frame_setNextHole _ _ (by simp [Links.lastKey_mem hpre])⟩
    simpa [hk, links_setNextHole, Links.linkPrev, Links.linkNext, hpre] using hseg
  · have hpost := h.next_eq_zero_iff.not.mp hnext
    obtain ⟨hk, hpre⟩ := keep_of_ne hprev
    have hlt := h.lt_post (Links.firstKey_mem (q := 0) hpost)
    rw [if_neg (by tauto), if_neg hprev, if_neg hnext,
      guarded_some (by simpa using h.next_inBuffer hpost)]
    simp only [Option.bind_eq_bind, Option.bind_some, hole_setPrevHole_of_ne _ _ hlt.ne, h.prev,
      h.next]
    rw [guarded_some (by simpa using h.prev_inBuffer hpre)]
    refine .inr ⟨_, rfl, ⟨by simp [hk, hpre], hord, ?_, ?_⟩, rfl, rfl, ?_⟩
    · have h1 := (h.next_inBuffer hpost).lt
      have h2 := (h.prev_inBuffer hpre).lt
      rw [links_setNextHole, links_setPrevHole, Nat.mod_eq_of_lt (by omega),
        Nat.mod_eq_of_lt (by omega)]
      simpa [hk, Links.linkPrev, Links.linkNext, hpre, hpost] using hseg
    · rw [hk, first_of_pre hpre]
      exact hfirst hpre
    · exact (frame_setPrevHole _ _ (by simp [Links.firstKey_mem hpost])).trans
        (frame_setNextHole _ _ (by simp [Links.lastKey_mem hpre]))

theorem Around.notMem : c ∉ keys pre ∧ c ∉ keys post :=
  ⟨fun hk => (h.pre_lt hk).false, fun hk => (h.lt_post hk).false⟩

theorem Around.setLastByte_spec (hfirst : s.firstHole = firstKey (pre ++ [(c, e)]) 0) (v : Nat)
    (hv : v < 2 ^ 16) (hlo : 8 * c < v) (hhi : v ≤ e ∨ ∀ x ∈ post, v ≤ 8 * x.1) :
    Listed { s with payload := setLastByte s.payload c v } (pre ++ (c, v) :: post) := by
  have hord : Ordered (pre ++ (c, v) :: post) := by
    have hM : Ordered [(c, v)] := ⟨by simpa using ⟨hlo, hv, h.ordered.at.2.2⟩, by simp⟩
    simpa using h.ordered.replace (List.Sublist.refl pre) hM (by simp) (by simpa using hhi)
  refine ⟨by simp, hord, ?_, ?_⟩
  · have hseg : Seg (links s.payload) 0 (pre ++ (c, e) :: post) 0 :=
      seg_append.mpr ⟨h.before, h.last, h.next, h.prev, h.after⟩
    have := hseg.setVal h.notMem.1 h.notMem.2 v
    rwa [← Nat.mod_eq_of_lt hv, ← links_setLastByte, Nat.mod_eq_of_lt hv] at this
  · simp [hfirst, Links.firstKey_append]

theorem Around.linkBack_spec (s₀ : State) (hd : InBuffer d)
    (hnext : (hole s₀.payload d).nextHole = firstKey post 0) :
    ∃ buf, linkBack s₀ d = some { s₀ with payload := buf } ∧
      links buf = (links s₀.payload).linkPrev post d ∧
      (∀ j ∉ keys post, hole buf j = hole s₀.payload j) ∧
      Frame (keys post) s₀.payload buf := by
  unfold linkBack
  simp only [hnext]
  by_cases hpost : post = []
  · subst hpost
    exact ⟨s₀.payload, if_neg (by simp), rfl, fun _ _ => rfl, Frame.refl _ _⟩
  · have hmem : firstKey post 0 ∈ keys post := Links.firstKey_mem hpost
    refine ⟨setPrevHole s₀.payload (firstKey post 0) d, ?_, ?_, fun j hj => ?_,
      frame_setPrevHole _ _ hmem⟩
    · rw [if_pos (h.next_eq_zero_iff.not.mpr hpost),
        guarded_some (by simpa using h.next_inBuffer hpost)]
    · have := hd.lt
      rw [links_setPrevHole, Links.linkPrev, if_neg hpost, Nat.mod_eq_of_lt (by omega)]
    · exact hole_setPrevHole_of_ne _ _ fun he => hj (he ▸ hmem)

section
variable (hcd : c < d) (hde : 8 * d < e) (hd : InBuffer d)
include hcd hde hd

theorem Around.new_notMem : d ∉ keys pre ∧ d ∉ keys post := by
  refine ⟨fun hk => absurd (h.pre_lt hk) (Nat.not_lt_of_lt hcd), fun hk => ?_⟩
  obtain ⟨x, hx, rfl⟩ := mem_map.mp hk
  have := (h.ordered.after hx).1
  omega

theorem Around.moveHole_spec (hfirst : pre ≠ [] → s.firstHole = firstKey pre 0) :
    ∃ s', moveHole s c d = some s' ∧ Listed s' (keep pre ++ (d, e) :: post) ∧
      Kept (d :: keys (pre ++ post)) s s' := by
  obtain ⟨hdpre, hdpost⟩ := h.new_notMem hcd hde hd
  have hord : Ordered (keep pre ++ (d, e) :: post) := by
    have hM : Ordered [(d, e)] := ⟨by simpa using ⟨hde, h.ordered.at.2.1, hd⟩, by simp⟩
    simpa using h.ordered.replace (keep_sublist pre) hM (by simp; omega) (by simp)
  have hnext : (hole (copyHole s.payload d c) d).nextHole = firstKey post 0 := by
    rw [hole_copyHole_self, h.next]
  obtain ⟨buf, hback, hlinks, hhole, hframe⟩ :=
    h.linkBack_spec { s with payload := copyHole s.payload d c } hd hnext
  have hframe : Frame (d :: keys (pre ++ post)) s.payload buf :=
    (frame_copyHole _ _ (by simp)).trans (hframe.mono (by simp))
  have hholed : hole buf d = hole s.payload c := (hhole d hdpost).trans (hole_copyHole_self _ _ _)
  have hseg : Seg ((links buf).linkNext (keep pre) d) 0 (keep pre ++ (d, e) :: post) 0 := by
    have hmoved : Seg (links buf) (lastKey 0 pre) ((d, e) :: post) 0 := by
      refine ⟨(congrArg Hole.lastByte hholed).trans h.last,
        (congrArg Hole.nextHole hholed).trans h.next,
        (congrArg Hole.prevHole hholed).trans h.prev, ?_⟩
      rw [hlinks, links_copyHole]
      exact (h.after.congr (Links.agreeOn_copy hdpost)).linkPrev h.ordered_post.nodup d
    refine h.seg_keep ?_ hmoved fun j hj => ?_
    · rw [hlinks, links_copyHole]
      exact (Links.agreeOn_copy hdpre).trans (Links.agreeOn_linkPrev fun _ => h.disjoint)
    · rcases mem_cons.mp hj with rfl | hj
      · exact hdpre
      · exact h.disjoint hj
  unfold moveHole
  rw [guarded_some (by simpa using hd)]
  simp only [Option.bind_eq_bind, Option.bind_some, hback, hholed, h.prev]
  by_cases hprev : lastKey 0 pre = 0
  · have hk : keep pre = [] := if_pos hprev
    rw [if_neg (by simpa using hprev)]
    refine ⟨_, rfl, ⟨by simp, hord, ?_, by simp [hk]⟩, rfl, rfl, hframe⟩
    simpa [hk, Links.linkNext] using hseg
  · obtain ⟨hk, hpre⟩ := keep_of_ne hprev
    have hdlt := hd.lt
    rw [if_pos hprev, guarded_some (by simpa using h.prev_inBuffer hpre)]
    refine ⟨_, rfl, ⟨by simp, hord, ?_, ?_⟩, rfl, rfl,
      hframe.trans (frame_setNextHole _ _ (by simp [Links.lastKey_mem hpre]))⟩
    · rw [links_setNextHole, Nat.mod_eq_of_lt (by omega)]
      simpa [hk, Links.linkNext, hpre] using hseg
    · rw [hk, first_of_pre hpre]
      exact hfirst hpre

theorem Around.splitHole_spec (start : Nat) (hfirst : s.firstHole = firstKey (pre ++ [(c, e)]) 0)
    (hlo : 8 * c < start) (hhi : start ≤ 8 * d) :
    ∃ s', splitHole s c d start = some s' ∧ Listed s' (pre ++ (c, start) :: (d, e) :: post) ∧
      Kept (c :: d :: keys (pre ++ post)) s s' := by
  obtain ⟨hdpre, hdpost⟩ := h.new_notMem hcd hde hd
  obtain ⟨hcpre, hcpost⟩ := h.notMem
  have hat := h.ordered.at
  have hord : Ordered (pre ++ (c, start) :: (d, e) :: post) := by
    have hM : Ordered [(c, start), (d, e)] := by
      refine ⟨?_, by simpa using hhi⟩
      simp only [mem_cons, not_mem_nil, or_false, forall_eq_or_imp, forall_eq]
      exact ⟨⟨hlo, by omega, hat.2.2⟩, hde, hat.2.1, hd⟩
    have := h.ordered.replace (List.Sublist.refl pre) hM (by simp; omega) (by simp; omega)
    simpa using this
  -- the writes to the two descriptors, as changes of the links
  obtain ⟨buf₁, hbuf₁⟩ : ∃ buf₁, setPrevHole (setNextHole (setLastByte (copyHole s.payload d c) c
    start) c d) d c = buf₁ := ⟨_, rfl⟩
  have hlinks₁ : links buf₁ =
      ((((links s.payload).copy d c).setVal c start).setNext c d).setPrev d c := by
    rw [← hbuf₁, links_setPrevHole, links_setNextHole, links_setLastByte, links_copyHole,
      Nat.mod_eq_of_lt (by omega), Nat.mod_eq_of_lt (by omega), Nat.mod_eq_of_lt (by omega)]
  have hframe₁ : Frame (c :: d :: keys (pre ++ post)) s.payload buf₁ := by
    rw [← hbuf₁]
    exact (((frame_copyHole _ _ (by simp)).trans (frame_setLastByte _ _ (by simp))).trans
      (frame_setNextHole _ _ (by simp))).trans (frame_setPrevHole _ _ (by simp))
  have hagree (ks) (hc : c ∉ ks) (hd' : d ∉ ks) : AgreeOn (links buf₁) (links s.payload) ks := by
    rw [hlinks₁]
    exact (((Links.agreeOn_copy hd').trans (Links.agreeOn_setVal hc)).trans
      (Links.agreeOn_setNext hc)).trans (Links.agreeOn_setPrev hd')
  have hnodes : ((links buf₁).val c = start ∧ (links buf₁).next c = d ∧
      (links buf₁).prev c = lastKey 0 pre) ∧ (links buf₁).val d = e ∧
      (links buf₁).next d = firstKey post 0 ∧ (links buf₁).prev d = c := by
    rw [hlinks₁]
    simp [Links.setPrev, Links.setNext, Links.setVal, Links.copy, hcd.ne, hcd.ne', links, h.last,
      h.next, h.prev]
  obtain ⟨⟨hcv, hcn, hcp⟩, hdv, hdn, hdp⟩ := hnodes
  obtain ⟨buf, hback, hlinks, -, hframe⟩ :=
    h.linkBack_spec { s with payload := buf₁ } hd hdn
  unfold splitHole
  simp only [hbuf₁]
  rw [guarded_some (by simpa using hd)]
  refine ⟨_, hback, ⟨by simp, hord, ?_, ?_⟩, rfl, rfl,
    hframe₁.trans (hframe.mono fun j hj => by simp [hj])⟩
  · have hends : AgreeOn (links buf) (links buf₁) [c, d] := by
      rw [hlinks]
      refine Links.agreeOn_linkPrev fun j hj hmem => ?_
      rcases mem_cons.mp hmem with rfl | hmem
      · exact hcpost hj
      · exact hdpost (mem_singleton.mp hmem ▸ hj)
    obtain ⟨hcv', hcn', hcp'⟩ := hends c (by simp)
    obtain ⟨hdv', hdn', hdp'⟩ := hends d (by simp)
    refine seg_append.mpr ⟨?_, hcv'.trans hcv, hcn'.trans hcn, hcp'.trans hcp, hdv'.trans hdv,
      hdn'.trans hdn, hdp'.trans hdp, ?_⟩
    · show Seg (links buf) 0 pre c
      rw [hlinks]
      exact h.before.congr
        ((hagree _ hcpre hdpre).trans (Links.agreeOn_linkPrev fun _ => h.disjoint))
    · show Seg (links buf) d post 0
      rw [hlinks]
      exact (h.after.congr (hagree _ hcpost hdpost)).linkPrev h.ordered_post.nodup d
  · simp [hfirst, Links.firstKey_append]

end

end

/-! ## The four ways -/

/-- The list after `len` bytes from the index `o` on, of which the hole from `c`
to `e` has some. -/
def fixedList (pre : List (Nat × Nat)) (c e : Nat) (post : List (Nat × Nat)) (o len : Nat) :
    List (Nat × Nat) :=
  if e ≤ o * 8 + len then
    if o ≤ c then keep pre ++ post else pre ++ (c, o * 8) :: post
  else
    if o ≤ c then keep pre ++ (o + len / 8, e) :: post
    else pre ++ (c, o * 8) :: (o + len / 8, e) :: post

/-- The fragment has some bytes of the hole, and if the hole goes on behind it,
it ends at a descriptor of the buffer. -/
structure Meets (c e o len : Nat) : Prop where
  start_le : o * 8 ≤ e
  overlap : c < o + (len + 7) / 8
  part : o * 8 + len < e → len % 8 = 0 ∧ o * 8 + len < ipMaxUdp

theorem fixHoles_spec (h : Listed s (pre ++ (c, e) :: post)) (hm : Meets c e o len) :
    (fixedList pre c e post o len = [] ∧ fixHoles s c o len = some (s, true)) ∨
    ∃ s', fixHoles s c o len = some (s', false) ∧ Listed s' (fixedList pre c e post o len) ∧
      Kept (keys (pre ++ (c, e) :: post) ++ keys (fixedList pre c e post o len)) s s' := by
  have ha := h.around
  have hfirst : pre ≠ [] → s.firstHole = firstKey pre 0 := fun hpre =>
    h.first.trans (first_of_pre hpre _ _)
  have hfirst' : s.firstHole = firstKey (pre ++ [(c, e)]) 0 := by
    rw [h.first, Links.firstKey_append, Links.firstKey_append]
    rfl
  have hover := hm.overlap
  unfold fixHoles fixedList
  simp only [ha.last]
  by_cases hend : e ≤ o * 8 + len <;> by_cases hoc : o ≤ c
  · simp only [hend, hoc, and_self, if_true]
    rcases ha.removeHole_spec hfirst with hdone | ⟨s', hrun, hlist, hkept⟩
    · exact .inl hdone
    · exact .inr ⟨s', hrun, hlist, hkept.mono (by simp +contextual [or_imp])⟩
  · simp only [hend, hoc, false_and, if_false, if_true]
    refine .inr ⟨_, rfl, ha.setLastByte_spec hfirst' _ ?_ ?_ (.inl hm.start_le), rfl, rfl,
      frame_setLastByte _ _ (by simp)⟩
    · have := ha.ordered.at.2.1
      have := hm.start_le
      omega
    · omega
  all_goals
    have hpart := hm.part (Nat.lt_of_not_le hend)
    have hd : InBuffer (o + len / 8) := by
      simp only [InBuffer, ipMaxUdp, ipPktSize, ipHdrSize] at hpart ⊢
      omega
  · simp only [hend, hoc, and_false, if_false, if_true]
    obtain ⟨s', hrun, hlist, hkept⟩ :=
      ha.moveHole_spec (d := o + len / 8) (by omega) (by omega) hd hfirst
    refine .inr ⟨s', by simp [hrun], hlist, hkept.mono fun j hj => ?_⟩
    simp only [Links.keys_append, mem_append, Links.keys_cons, mem_cons] at hj ⊢
    tauto
  · simp only [hend, hoc, and_false, if_false]
    obtain ⟨s', hrun, hlist, hkept⟩ :=
      ha.splitHole_spec (d := o + len / 8) (by omega) (by omega) hd (o * 8) hfirst' (by omega)
        (by omega)
    refine .inr ⟨s', by simp [hrun], hlist, hkept.mono fun j hj => ?_⟩
    simp only [Links.keys_append, mem_append, Links.keys_cons, mem_cons] at hj ⊢
    tauto

theorem fixedList_outside (h : Ordered (pre ++ (c, e) :: post)) (hm : Meets c e o len)
    (hpre : ∀ x ∈ pre, x.2 < o * 8) (hpost : ∀ x ∈ post, o * 8 + len ≤ 8 * x.1)
    (hk : k ∈ keys (fixedList pre c e post o len)) : 8 * k + 8 ≤ o * 8 ∨ o * 8 + len ≤ 8 * k := by
  have hinpre (hk : k ∈ keys pre) : 8 * k + 8 ≤ o * 8 := by
    obtain ⟨x, hx, rfl⟩ := mem_map.mp hk
    have h1 := hpre x hx
    have h2 := (h.bounds x (by simp [hx])).1
    omega
  have hinkeep (hk : k ∈ keys (keep pre)) : 8 * k + 8 ≤ o * 8 :=
    hinpre (((keep_sublist pre).map Prod.fst).subset hk)
  have hinpost (hk : k ∈ keys post) : o * 8 + len ≤ 8 * k := by
    obtain ⟨x, hx, rfl⟩ := mem_map.mp hk
    exact hpost x hx
  unfold fixedList at hk
  split_ifs at hk with hend hoc hoc
  all_goals
    simp only [Links.keys_append, Links.keys_cons, mem_append, mem_cons] at hk
  · exact hk.imp hinkeep hinpost
  · rcases hk with hk | rfl | hk
    · exact .inl (hinpre hk)
    · omega
    · exact .inr (hinpost hk)
  · have hpart := hm.part (Nat.lt_of_not_le hend)
    rcases hk with hk | rfl | hk
    · exact .inl (hinkeep hk)
    · omega
    · exact .inr (hinpost hk)
  · have hpart := hm.part (Nat.lt_of_not_le hend)
    rcases hk with hk | rfl | rfl | hk
    · exact .inl (hinpre hk)
    · omega
    · omega
    · exact .inr (hinpost hk)

end UBoot.Net
