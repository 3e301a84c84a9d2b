import UBoot.Net.HoleFix

/-!
# One fragment

What `__NetDefragment` does with one fragment, on a state with a list of holes:
the fragment is ignored, or its bytes are filled in and the list is fixed.
-/

namespace UBoot.Net

open Links (Seg firstKey lastKey keys AgreeOn seg_append)

variable {s : State} {pkt : IpPacket} {pre post : List (Nat × Nat)} {c e len : Nat}

structure Filled (ks : List Nat) (start : Nat) (src : List UInt8) (buf buf' : Buffer) : Prop where
  bytes : ∀ j < src.length, buf' (start + j) = src.getD j 0
  frame : ∀ a, a < start ∨ start + src.length ≤ a → (∀ k ∈ ks, a < 8 * k ∨ 8 * k + 8 ≤ a) →
    buf' a = buf a

theorem filled_memcpy (h : Frame ks buf buf') (start : Nat) (src : List UInt8) :
    Filled ks start src buf (memcpy buf' start src) := by
  refine ⟨fun j hj => ?_, fun a ha hks => ?_⟩
  · unfold memcpy
    rw [if_pos (by omega), Nat.add_sub_cancel_left]
  · unfold memcpy
    rw [if_neg (by omega)]
    exact h a hks

def holeEnd (pkt : IpPacket) (e len : Nat) : Nat :=
  if pkt.hdr.moreFragments then e else pkt.hdr.offset * 8 + len

def newTotal (s : State) (pkt : IpPacket) (len : Nat) : Nat :=
  if pkt.hdr.moreFragments then s.totalLen else pkt.hdr.offset * 8 + len

def newList (pkt : IpPacket) (pre : List (Nat × Nat)) (c e : Nat) (post : List (Nat × Nat))
    (len : Nat) : List (Nat × Nat) :=
  fixedList pre c (holeEnd pkt e len) post pkt.hdr.offset len

/-- The fragment has bytes of the hole `c` and reaches no further hole. -/
structure Fits (pkt : IpPacket) (pre : List (Nat × Nat)) (c e : Nat) (post : List (Nat × Nat))
    (len : Nat) : Prop where
  meets : Meets c (holeEnd pkt e len) pkt.hdr.offset len
  before : ∀ x ∈ pre, x.2 < pkt.hdr.offset * 8
  after : ∀ x ∈ post, pkt.hdr.offset * 8 + len ≤ 8 * x.1
  room : pkt.hdr.offset * 8 + len ≤ ipMaxUdp
  body : len ≤ pkt.body.length

section
variable (hl : Listed s (pre ++ (c, e) :: post)) (hf : Fits pkt pre c e post len)
include hl hf

theorem truncateHole_spec :
    Listed (truncateHole s pkt.hdr c len) (pre ++ (c, holeEnd pkt e len) :: post) ∧
      Kept (keys (pre ++ (c, e) :: post)) { s with totalLen := newTotal s pkt len }
        (truncateHole s pkt.hdr c len) := by
  have hroom := hf.room
  have hover := hf.meets.overlap
  simp only [ipMaxUdp, ipPktSize, ipHdrSize] at hroom
  unfold truncateHole holeEnd newTotal
  cases hmf : pkt.hdr.moreFragments with
  | true => exact ⟨hl, rfl, rfl, Frame.refl _ _⟩
  | false =>
    have hfirst : s.firstHole = firstKey (pre ++ [(c, e)]) 0 := by
      rw [hl.first, Links.firstKey_append, Links.firstKey_append]
      rfl
    obtain ⟨hne, hord, hseg, hfirst'⟩ := hl.around.setLastByte_spec hfirst
      (pkt.hdr.offset * 8 + len) (by omega) (by omega) (.inr hf.after)
    exact ⟨⟨hne, hord, hseg, hfirst'⟩, rfl, Nat.mod_eq_of_lt (by omega),
      frame_setLastByte _ _ (by simp)⟩

theorem fillHole_spec :
    ∃ s', fillHole s pkt c len = some (s', if newList pkt pre c e post len = [] then
        some (newTotal s pkt len + ipHdrSize) else none) ∧
      (newList pkt pre c e post len ≠ [] → Listed s' (newList pkt pre c e post len)) ∧
      s'.localip.id = s.localip.id ∧ s'.totalLen = newTotal s pkt len ∧
      Filled (keys (pre ++ (c, e) :: post) ++ keys (newList pkt pre c e post len))
        (pkt.hdr.offset * 8) (pkt.body.take len) s.payload s'.payload := by
  obtain ⟨hl₁, hip₁, htotal₁, hframe₁⟩ := truncateHole_spec hl hf
  have hbody : ¬ pkt.body.length < len := Nat.not_lt_of_le hf.body
  have hlen : (pkt.body.take len).length = len := by
    rw [List.length_take]
    exact Nat.min_eq_left hf.body
  have hframe₁ : Frame (keys (pre ++ (c, e) :: post) ++ keys (newList pkt pre c e post len))
      s.payload (truncateHole s pkt.hdr c len).payload :=
    hframe₁.mono (List.subset_append_left _ _)
  unfold fillHole copyFragment
  rcases fixHoles_spec hl₁ hf.meets with ⟨hnil, hrun⟩ | ⟨s₂, hrun, hl₂, hkept⟩
  · have hnil : newList pkt pre c e post len = [] := hnil
    rw [hnil] at hframe₁ ⊢
    simp only [hrun, Option.bind_eq_bind, Option.bind_some, if_neg hbody, if_true, htotal₁]
    have hid₁ : (truncateHole s pkt.hdr c len).localip.id = s.localip.id := congrArg IpHdr.id hip₁
    exact ⟨_, rfl, fun h => absurd rfl h, hid₁, rfl, filled_memcpy hframe₁ _ _⟩
  · have hne : newList pkt pre c e post len ≠ [] := hl₂.nonempty
    simp only [hrun, Option.bind_eq_bind, Option.bind_some, if_neg hbody, if_neg hne]
    refine ⟨_, rfl, fun _ => ⟨hne, hl₂.ordered, hl₂.seg.congr (agreeOn_memcpy _ _ _ fun k hk => ?_),
      hl₂.first⟩, congrArg IpHdr.id (hkept.localip.trans hip₁), hkept.totalLen.trans htotal₁, ?_⟩
    · rw [hlen]
      exact fixedList_outside hl₁.ordered hf.meets hf.before hf.after hk
    · refine filled_memcpy (hframe₁.trans (hkept.frame.mono fun j hj => ?_)) _ _
      simpa [newList] using hj

end

/-! ## __NetDefragment -/

theorem listed_reset (ip : IpHdr) (s : State) : Listed (reset ip s) [(0, 0xffff)] := by
  refine ⟨by simp, ⟨by simp [InBuffer, ipMaxUdp, ipPktSize, ipHdrSize], by simp⟩, ?_, rfl⟩
  have hlinks : links (reset ip s).payload =
      (((links s.payload).setVal 0 0xffff).setNext 0 0).setPrev 0 0 := by
    simp only [reset, links_setPrevHole, links_setNextHole, links_setLastByte]
    norm_num
  rw [hlinks]
  simp [Seg, Links.setPrev, Links.setNext, Links.setVal]

section
variable {L : List (Nat × Nat)}

theorem reassemble_tooLong
    (h : (ipMaxUdp : Int) < (pkt.hdr.offset * 8 : Nat) + ((pkt.hdr.len : Int) - ipHdrSize)) :
    reassemble s pkt = some (s, none) :=
  if_pos h

theorem Listed.walk_eq (hl : Listed s L) (start : Nat) :
    walk s.payload start (ipMaxUdp / 8 + 1) s.firstHole =
      some (((L.find? fun x => start ≤ x.2).map fun x => Walk.found x.1).getD .tooFar) := by
  rw [hl.first]
  exact Net.walk_eq hl.nonempty hl.ordered hl.seg (hl.ordered.length_le.trans (by decide))

theorem reassemble_tooFar (hl : Listed (current s pkt.hdr) L)
    (hall : ∀ x ∈ L, x.2 < pkt.hdr.offset * 8)
    (hroom : (pkt.hdr.offset * 8 : Nat) + ((pkt.hdr.len : Int) - ipHdrSize) ≤ ipMaxUdp) :
    reassemble s pkt = some (current s pkt.hdr, none) := by
  simp only [reassemble]
  rw [if_neg (Int.not_lt.mpr hroom), hl.walk_eq, List.find?_eq_none.mpr (by simpa using hall)]
  rfl

theorem Listed.walk_found (hl : Listed s (pre ++ (c, e) :: post)) (hpre : ∀ x ∈ pre, x.2 < start)
    (hstart : start ≤ e) :
    walk s.payload start (ipMaxUdp / 8 + 1) s.firstHole = some (.found c) := by
  rw [hl.walk_eq, List.find?_append, List.find?_eq_none.mpr (by simpa using hpre)]
  simp [hstart]

theorem reassemble_found (hl : Listed (current s pkt.hdr) (pre ++ (c, e) :: post))
    (hpre : ∀ x ∈ pre, x.2 < pkt.hdr.offset * 8) (hstart : pkt.hdr.offset * 8 ≤ e)
    (hroom : (pkt.hdr.offset * 8 : Nat) + ((pkt.hdr.len : Int) - ipHdrSize) ≤ ipMaxUdp) :
    reassemble s pkt =
      if pkt.hdr.offset + Int.tdiv ((pkt.hdr.len : Int) - ipHdrSize + 7) 8 ≤ c then
        some (current s pkt.hdr, none)
      else if (pkt.hdr.len : Int) - ipHdrSize < 0 then none
      else fillHole (current s pkt.hdr) pkt c ((pkt.hdr.len : Int) - ipHdrSize).toNat := by
  simp only [reassemble]
  rw [if_neg (Int.not_lt.mpr hroom), hl.walk_found hpre hstart]
  rfl

end

end UBoot.Net
