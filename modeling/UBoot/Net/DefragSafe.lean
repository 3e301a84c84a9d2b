import UBoot.Lib.Machine
import UBoot.Net.Reassemble

/-!
# Reassembly of hostile fragments

No access leaves the buffer and every walk over the holes ends, as long as each packet is
harmless.
-/

namespace UBoot.Net

open Links (Seg firstKey lastKey keys AgreeOn seg_append)

def Examined (ourIp : Nat) (pkt : IpPacket) : Prop :=
  accepted ourIp pkt = true ∧ (pkt.hdr.offset ≠ 0 ∨ pkt.hdr.moreFragments = true) ∧
    ((pkt.hdr.offset * 8 : Nat) : Int) + (pkt.hdr.len - ipHdrSize) ≤ ipMaxUdp

instance (ourIp : Nat) (pkt : IpPacket) : Decidable (Examined ourIp pkt) :=
  inferInstanceAs (Decidable (_ ∧ _))

def Resets (s : State) (pkt : IpPacket) : Prop := s.totalLen = 0 ∨ s.localip.id ≠ pkt.hdr.id

instance (s : State) (pkt : IpPacket) : Decidable (Resets s pkt) :=
  inferInstanceAs (Decidable (_ ∨ _))

/-- The state, `none` after an access outside the buffer or in a walk that does
not end, and whether the datagram in the buffer is complete. -/
structure Tracked where
  state : Option State
  complete : Bool

def receiveMachine (ourIp : Nat) : Machine Tracked IpPacket (Option Received) where
  step t pkt :=
    match t.state.bind fun s => (netReceive ourIp s pkt).map fun r => (s, r) with
    | none => (⟨none, t.complete⟩, none)
    | some (s, s', received) =>
      (⟨some s', match received with
        | .reassembled _ => true
        | _ => t.complete && !decide (Examined ourIp pkt ∧ Resets s pkt)⟩, some received)

structure Harmless (ourIp : Nat) (t : Tracked) (pkt : IpPacket) : Prop where
  incomplete : ∀ s ∈ t.state, Examined ourIp pkt → ¬ Resets s pkt → t.complete = false
  hole : ∀ s ∈ t.state, Examined ourIp pkt → ∀ h,
    walk (current s pkt.hdr).payload (pkt.hdr.offset * 8) (ipMaxUdp / 8 + 1)
      (current s pkt.hdr).firstHole = some (.found h) →
    (h : Int) < pkt.hdr.offset + Int.tdiv (pkt.hdr.len - ipHdrSize + 7) 8 →
    ∃ len, pkt.hdr.len = ipHdrSize + len ∧
      ((hole (current s pkt.hdr).payload h).nextHole ≠ 0 →
        pkt.hdr.offset * 8 + len ≤ 8 * (hole (current s pkt.hdr).payload h).nextHole) ∧
      (pkt.hdr.moreFragments = true →
        pkt.hdr.offset * 8 + len < (hole (current s pkt.hdr).payload h).lastByte →
        len % 8 = 0 ∧ pkt.hdr.offset * 8 + len < ipMaxUdp)

variable {ourIp : Nat} {t : Tracked} {s : State} {pkt : IpPacket}

def Tracked.Sound (t : Tracked) : Prop :=
  ∃ s, t.state = some s ∧ (s.totalLen = 0 ∨ t.complete = true ∨ ∃ L, Listed s L)

theorem current_of_resets (h : Resets s pkt) : current s pkt.hdr = reset pkt.hdr s := if_pos h

theorem current_of_not_resets (h : ¬ Resets s pkt) : current s pkt.hdr = s := if_neg h

theorem Tracked.Sound.listed (ht : t.Sound) (hs : s ∈ t.state)
    (hinc : ¬ Resets s pkt → t.complete = false) : ∃ L, Listed (current s pkt.hdr) L := by
  obtain ⟨s', hs', hsound⟩ := ht
  obtain rfl : s = s' := Option.some.inj (hs.symm.trans hs')
  by_cases hr : Resets s pkt
  · rw [current_of_resets hr]
    exact ⟨_, listed_reset _ _⟩
  · rw [current_of_not_resets hr]
    rcases hsound with h0 | hc | hL
    · exact absurd (.inl h0) hr
    · simp [hinc hr] at hc
    · exact hL

theorem accepted_len (h : accepted ourIp pkt = true) :
    pkt.hdr.len ≤ ipHdrSize + pkt.body.length := by
  simp only [accepted, Bool.and_eq_true, decide_eq_true_eq] at h
  exact h.1.1.1.1.2

theorem reassemble_safe (ht : t.Sound) (hs : s ∈ t.state) (hx : Examined ourIp pkt)
    (hh : Harmless ourIp t pkt) :
    ∃ s' lenp, reassemble s pkt = some (s', lenp) ∧ (lenp = none → ∃ L, Listed s' L) := by
  obtain ⟨L, hl⟩ := ht.listed hs (hh.incomplete s hs hx)
  rcases exists_hole (pkt.hdr.offset * 8) L with hall | ⟨pre, c, e, post, rfl, hpre, hstart⟩
  · exact ⟨_, none, reassemble_tooFar hl hall hx.2.2, fun _ => ⟨L, hl⟩⟩
  · rw [reassemble_found hl hpre hstart hx.2.2]
    split
    case isTrue => exact ⟨_, none, rfl, fun _ => ⟨_, hl⟩⟩
    case isFalse hover =>
      obtain ⟨len, hlen, hnext, hpart⟩ :=
        hh.hole s hs hx c (hl.walk_found hpre hstart) (Int.not_le.mp hover)
      have hlen' : (pkt.hdr.len : Int) - ipHdrSize = len := by omega
      rw [hl.around.next] at hnext
      rw [hl.around.last] at hpart
      rw [hlen', if_neg (by omega), Int.toNat_natCast]
      have hf : Fits pkt pre c e post len := by
        refine ⟨⟨?_, ?_, fun hlt => ?_⟩, hpre, fun x hx' => ?_, ?_, ?_⟩
        · unfold holeEnd
          split <;> omega
        · rw [hlen', Int.tdiv_eq_ediv_of_nonneg (by omega)] at hover
          omega
        · unfold holeEnd at hlt
          split at hlt
          case isTrue hmf => exact hpart hmf hlt
          case isFalse => omega
        · have hne : post ≠ [] := by
            rintro rfl
            cases hx'
          have h1 := hnext (hl.around.next_eq_zero_iff.not.mpr hne)
          have h2 := hl.around.ordered_post.firstKey_le hx'
          omega
        · have := hx.2.2
          omega
        · have := (accepted_len hx.1)
          omega
      obtain ⟨s', hrun, hlist, -⟩ := fillHole_spec hl hf
      refine ⟨s', _, hrun, fun hnone => ⟨_, hlist fun hnil => ?_⟩⟩
      rw [if_pos hnil] at hnone
      cases hnone

theorem Tracked.Sound.step (ht : t.Sound) (hh : Harmless ourIp t pkt) :
    ((receiveMachine ourIp).step t pkt).1.Sound := by
  obtain ⟨s, hs, hsound⟩ := id ht
  -- a packet that is not examined changes nothing
  have hsame (hx : ¬ Examined ourIp pkt) (r : Received) (hr : ∀ n, r ≠ .reassembled n)
      (hrun : netReceive ourIp s pkt = some (s, r)) :
      ((receiveMachine ourIp).step t pkt).1.Sound := by
    refine ⟨s, by simp [receiveMachine, hs, hrun], ?_⟩
    cases r with
    | reassembled n => exact absurd rfl (hr n)
    | whole => simpa [receiveMachine, hs, hrun, hx] using hsound
    | nothing => simpa [receiveMachine, hs, hrun, hx] using hsound
  by_cases hacc : accepted ourIp pkt = true
  · by_cases hfrag : pkt.hdr.offset = 0 ∧ ¬ pkt.hdr.moreFragments
    · refine hsame (fun hx => ?_) .whole (by simp) (by simp [netReceive, netDefragment, hacc, hfrag])
      have := hx.2.1
      tauto
    · have hrun : netReceive ourIp s pkt =
          (reassemble s pkt).map fun r => (r.1, r.2.elim .nothing .reassembled) := by
        simp only [netReceive, if_pos hacc, netDefragment, if_neg hfrag]
        cases reassemble s pkt <;> rfl
      by_cases hroom :
          ((pkt.hdr.offset * 8 : Nat) : Int) + (pkt.hdr.len - ipHdrSize) ≤ ipMaxUdp
      · have hx : Examined ourIp pkt := ⟨hacc, by tauto, hroom⟩
        obtain ⟨s', lenp, hre, hlist⟩ := reassemble_safe ht hs hx hh
        rw [hre, Option.map_some] at hrun
        refine ⟨s', by simp [receiveMachine, hs, hrun], ?_⟩
        cases lenp with
        | none => exact .inr (.inr (hlist rfl))
        | some n => exact .inr (.inl (by simp [receiveMachine, hs, hrun]))
      · refine hsame (fun hx => hroom hx.2.2) .nothing (by simp) ?_
        rw [hrun, reassemble_tooLong (Int.not_le.mp hroom)]
        rfl
  · exact hsame (fun hx => hacc hx.1) .nothing (by simp) (by simp [netReceive, hacc])

def eightBytes (len off sum : Nat) : IpPacket :=
  ⟨⟨0x45, 0, len, 7, off, 64, 17, sum, 0x0a000001, 0x0a000002⟩, [1, 2, 3, 4, 5, 6, 7, 8]⟩

def blankState : State := ⟨(eightBytes 28 0 0).hdr, fun _ => 0, 0, 0⟩

theorem harmless_of_eval (hcomplete : t.complete = false) (len : Nat)
    (hlen : pkt.hdr.len = ipHdrSize + len)
    (heval : (t.state.map fun s => (walk (current s pkt.hdr).payload (pkt.hdr.offset * 8)
      (ipMaxUdp / 8 + 1) (current s pkt.hdr).firstHole,
      (hole (current s pkt.hdr).payload i).nextHole)) = some (some (.found i), 0))
    (hpart : len % 8 = 0) (hroom : pkt.hdr.offset * 8 + len < ipMaxUdp) : Harmless ourIp t pkt := by
  refine ⟨fun _ _ _ _ => hcomplete, fun s hs _ h hwalk _ => ?_⟩
  rw [hs] at heval
  simp only [Option.map_some, Option.some.injEq, Prod.mk.injEq, hwalk, Walk.found.injEq] at heval
  obtain ⟨rfl, hnext⟩ := heval
  exact ⟨len, hlen, fun h => absurd hnext h, fun _ _ => ⟨hpart, hroom⟩⟩

/-- A fragment up to the end of the buffer, with more to come: the descriptor of
the hole behind it is written outside. -/
example :
    accepted 0 (eightBytes 28 (0x2000 + 2057) 16063) = true ∧
      ((receiveMachine 0).run ⟨some blankState, false⟩
        [eightBytes 28 (0x2000 + 2057) 16063]).1.state.isSome = false := by
  decide +kernel

end UBoot.Net
