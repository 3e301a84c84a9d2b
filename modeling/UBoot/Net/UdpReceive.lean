import UBoot.Net.DefragSafe

/-!
# The call of the UDP handler

`NetReceive` of `net/net.c` from the frame to the call of the handler, without `CONFIG_API`,
`CONFIG_CMD_CDP`, `CONFIG_MCAST_TFTP` and `CONFIG_UDP_CHECKSUM`. Nothing compares the length in
the UDP header with the bytes there are.
-/

namespace UBoot.Net

open Option

def etherHdrSize : Nat := 14
def e802HdrSize : Nat := 22
def vlanEtherHdrSize : Nat := 18
def ipUdpHdrSize : Nat := 28
def udpHdrSize : Nat := ipUdpHdrSize - ipHdrSize

def protIp : Nat := 0x0800
def protVlan : Nat := 0x8100
def vlanNone : Nat := 4095
def vlanIdMask : Nat := 0x0fff
def ipprotoUdp : Nat := 17

/-! ## NetReceive -/

def ntohs (bytes : Nat → UInt8) (a : Nat) : Nat := 256 * (bytes a).toNat + (bytes (a + 1)).toNat

def ntohl (bytes : Nat → UInt8) (a : Nat) : Nat := 2 ^ 16 * ntohs bytes a + ntohs bytes (a + 2)

structure NetConfig where
  ourIp : Nat
  ourVlan : Nat
  ourNativeVlan : Nat

structure LinkHeader where
  size : Nat
  ethProto : Nat
  vlanid : Nat

/-- The header in front of the packet, or `none` if the frame is dropped. -/
def linkHeader (cfg : NetConfig) (frame : List UInt8) : Option LinkHeader :=
  let at16 := ntohs (frame.getD · 0)
  if frame.length < etherHdrSize then none
  -- an 802.2 packet, however short
  else if at16 12 < 1514 then some ⟨e802HdrSize, at16 20, vlanNone⟩
  else if at16 12 ≠ protVlan then some ⟨etherHdrSize, at16 12, vlanNone⟩
  else if frame.length < vlanEtherHdrSize then none
  else if cfg.ourVlan &&& vlanIdMask = vlanNone then none
  else some ⟨vlanEtherHdrSize, at16 16, at16 14 &&& vlanIdMask⟩

def vlanMatches (cfg : NetConfig) (vlanid : Nat) : Bool :=
  let myvlanid := if cfg.ourVlan = 0xffff then vlanNone else cfg.ourVlan
  let mynvlanid := if cfg.ourNativeVlan = 0xffff then vlanNone else cfg.ourNativeVlan
  if myvlanid &&& vlanIdMask ≠ vlanNone then
    (if vlanid = vlanNone then mynvlanid &&& vlanIdMask else vlanid) = myvlanid &&& vlanIdMask
  else true

def ipHdr (ip : Nat → UInt8) : IpHdr :=
  { hlV := (ip 0).toNat
    tos := (ip 1).toNat
    len := ntohs ip 2
    id := ntohs ip 4
    off := ntohs ip 6
    ttl := (ip 8).toNat
    p := (ip 9).toNat
    sum := ntohs ip 10
    src := ntohl ip 12
    dst := ntohl ip 16 }

def ipPacket (frame : List UInt8) (ip : Nat) : IpPacket :=
  ⟨ipHdr fun a => frame.getD (ip + a) 0, frame.drop (ip + ipHdrSize)⟩

/-- A call of the handler: the number of bytes of the frame or of the datagram,
where in them `pkt` points, and the length field that `len` comes from. -/
structure UdpCall where
  size : Nat
  pkt : Nat
  dport : Nat
  sip : Nat
  sport : Nat
  udpLen : Nat
  deriving DecidableEq

def UdpCall.len (c : UdpCall) : UInt32 := UInt32.ofNat c.udpLen - UInt32.ofNat udpHdrSize

/-- The handler gets a packet whose IP header is at `ip`, followed by `udp`. -/
def handlerCall (p size ip : Nat) (udp : Nat → UInt8) (srcIp : Nat) : Option UdpCall :=
  if p = ipprotoUdp then
    some
      { size := size
        pkt := ip + ipUdpHdrSize
        dport := ntohs udp 2
        sip := srcIp
        sport := ntohs udp 0
        udpLen := ntohs udp 4 }
  else none

def Holds (cfg : NetConfig) (frame : List UInt8) (ip : Nat) (pkt : IpPacket) : Prop :=
  ∃ lh ∈ linkHeader cfg frame, vlanMatches cfg lh.vlanid = true ∧ lh.ethProto = protIp ∧
    ip = lh.size ∧ pkt = ipPacket frame lh.size

/-- The packet of the frame, if it gets as far as `case PROT_IP`. -/
def ipOf (cfg : NetConfig) (frame : List UInt8) : Option (Nat × IpPacket) :=
  (linkHeader cfg frame).bind fun lh =>
    if vlanMatches cfg lh.vlanid ∧ lh.ethProto = protIp then
      some (lh.size, ipPacket frame lh.size)
    else none

def deliver (frame : List UInt8) (ip : Nat) (pkt : IpPacket) (s : State) : Received → Option UdpCall
  | .nothing => none
  | .whole => handlerCall pkt.hdr.p frame.length ip (pkt.body.getD · 0) pkt.hdr.src
  | .reassembled len => handlerCall s.localip.p len 0 s.payload pkt.hdr.src

def netReceiveFrame (cfg : NetConfig) (s : State) (frame : List UInt8) :
    Option (State × Option UdpCall) :=
  match ipOf cfg frame with
  | none => some (s, none)
  | some (ip, pkt) =>
    (netReceive cfg.ourIp s pkt).map fun r => (r.1, deliver frame ip pkt r.1 r.2)

/-! ## Sound calls -/

def UdpCall.Sound (c : UdpCall) : Prop := udpHdrSize ≤ c.udpLen ∧ c.pkt + c.len.toNat ≤ c.size

instance (c : UdpCall) : Decidable c.Sound := inferInstanceAs (Decidable (_ ∧ _))

/-- The fragment completes the datagram in the buffer: the hole `h` that the walk
finds begins and ends in it and is the only one. -/
structure Completes (s : State) (pkt : IpPacket) (h len : Nat) : Prop where
  length : pkt.hdr.len = ipHdrSize + len
  room : pkt.hdr.offset * 8 + len ≤ ipMaxUdp
  found : walk (current s pkt.hdr).payload (pkt.hdr.offset * 8) (ipMaxUdp / 8 + 1)
    (current s pkt.hdr).firstHole = some (.found h)
  «begin» : pkt.hdr.offset ≤ h ∧ 8 * h < pkt.hdr.offset * 8 + len
  «end» : pkt.hdr.moreFragments = true →
    (hole (current s pkt.hdr).payload h).lastByte ≤ pkt.hdr.offset * 8 + len
  only : (hole (current s pkt.hdr).payload h).prevHole = 0 ∧
    (hole (current s pkt.hdr).payload h).nextHole = 0

def assembled (s : State) (pkt : IpPacket) (len : Nat) : Nat → UInt8 :=
  memcpy (current s pkt.hdr).payload (pkt.hdr.offset * 8) (pkt.body.take len)

/-- The UDP length of the packet in the frame agrees with the frame, and the one
of a datagram that the frame completes with the datagram. -/
structure UdpLenAgrees (cfg : NetConfig) (s : State) (frame : List UInt8) : Prop where
  whole : ∀ ip pkt, Holds cfg frame ip pkt → accepted cfg.ourIp pkt = true →
    pkt.hdr.offset = 0 → pkt.hdr.moreFragments = false → pkt.hdr.p = ipprotoUdp →
    udpHdrSize ≤ ntohs (pkt.body.getD · 0) 4 ∧
      ip + ipHdrSize + ntohs (pkt.body.getD · 0) 4 ≤ frame.length
  reassembled : ∀ ip pkt h len, Holds cfg frame ip pkt → accepted cfg.ourIp pkt = true →
    pkt.hdr.offset ≠ 0 ∨ pkt.hdr.moreFragments = true → Completes s pkt h len →
    (current s pkt.hdr).localip.p = ipprotoUdp →
    udpHdrSize ≤ ntohs (assembled s pkt len) 4 ∧
      ntohs (assembled s pkt len) 4 ≤ newTotal (current s pkt.hdr) pkt len

variable {cfg : NetConfig} {s s' : State} {frame : List UInt8} {ip h len n : Nat} {pkt : IpPacket}

theorem ntohs_lt (bytes : Nat → UInt8) (a : Nat) : ntohs bytes a < 2 ^ 16 := by
  have h0 := (bytes a).toNat_lt
  have h1 := (bytes (a + 1)).toNat_lt
  simp only [ntohs]
  omega

theorem ipOf_eq_some_iff : ipOf cfg frame = some (ip, pkt) ↔ Holds cfg frame ip pkt := by
  simp only [ipOf, Holds, bind_eq_some_iff, ite_none_right_eq_some, some.injEq,
    Prod.mk.injEq, mem_def]
  constructor
  · rintro ⟨lh, hlh, ⟨hv, hp⟩, rfl, rfl⟩
    exact ⟨lh, hlh, hv, hp, rfl, rfl⟩
  · rintro ⟨lh, hlh, hv, hp, rfl, rfl⟩
    exact ⟨lh, hlh, ⟨hv, hp⟩, rfl, rfl⟩

theorem UdpCall.sound_iff (c : UdpCall) (hlen : c.udpLen < 2 ^ 16) :
    c.Sound ↔ udpHdrSize ≤ c.udpLen ∧ c.pkt + c.udpLen ≤ c.size + udpHdrSize := by
  have hsub (hle : udpHdrSize ≤ c.udpLen) : c.len.toNat = c.udpLen - udpHdrSize := by
    have hle' : UInt32.ofNat udpHdrSize ≤ UInt32.ofNat c.udpLen := by
      rw [UInt32.le_iff_toNat_le, UInt32.toNat_ofNat', UInt32.toNat_ofNat',
        Nat.mod_eq_of_lt (by decide), Nat.mod_eq_of_lt (by omega)]
      exact hle
    rw [UdpCall.len, UInt32.toNat_sub_of_le _ _ hle', UInt32.toNat_ofNat', UInt32.toNat_ofNat',
      Nat.mod_eq_of_lt (by omega), Nat.mod_eq_of_lt (by decide)]
  rw [UdpCall.Sound]
  refine and_congr_right fun hle => ?_
  rw [hsub hle]
  omega

theorem handlerCall_sound_iff (p size ip : Nat) (udp : Nat → UInt8) (srcIp : Nat) :
    (∀ c ∈ handlerCall p size ip udp srcIp, c.Sound) ↔
      (p = ipprotoUdp → udpHdrSize ≤ ntohs udp 4 ∧ ip + ipHdrSize + ntohs udp 4 ≤ size) := by
  by_cases hp : p = ipprotoUdp
  · rw [handlerCall, if_pos hp]
    simp only [mem_some_iff, forall_eq', hp, forall_const]
    rw [UdpCall.sound_iff _ (ntohs_lt udp 4)]
    simp only [udpHdrSize, ipUdpHdrSize, ipHdrSize]
    omega
  · simp [handlerCall, hp]

/-! ## The fragment that completes a datagram -/

theorem bind_false_ne (x : Option State) (s' : State) :
    (x.bind fun s => some (s, false)) ≠ some (s', true) := by
  cases x <;> simp

theorem removeHole_done : removeHole s h = some (s', true) ↔
    (hole s.payload h).prevHole = 0 ∧ (hole s.payload h).nextHole = 0 ∧ s' = s := by
  simp only [removeHole, bind_eq_bind, ← bind_assoc]
  split
  · next hd => simp [hd, eq_comm]
  · next hd =>
    split
    · next hp =>
      have hn : (hole s.payload h).nextHole ≠ 0 := fun hn => hd ⟨hp, hn⟩
      simp [hn, bind_false_ne]
    · next hp => split <;> simp [hp, bind_false_ne]

theorem fixHoles_done : fixHoles s h offset8 len = some (s', true) ↔
    offset8 ≤ h ∧ (hole s.payload h).lastByte ≤ offset8 * 8 + len ∧
      (hole s.payload h).prevHole = 0 ∧ (hole s.payload h).nextHole = 0 ∧ s' = s := by
  simp only [fixHoles, bind_eq_bind]
  split
  · next hin => simp [removeHole_done, hin]
  · next hin =>
    have hfalse : ¬ (offset8 ≤ h ∧ (hole s.payload h).lastByte ≤ offset8 * 8 + len ∧
        (hole s.payload h).prevHole = 0 ∧ (hole s.payload h).nextHole = 0 ∧ s' = s) :=
      fun hc => hin ⟨hc.1, hc.2.1⟩
    rw [iff_false_right hfalse]
    split
    · simp
    · split <;> exact bind_false_ne _ _

theorem hole_truncateHole (s : State) (hroom : pkt.hdr.offset * 8 + len ≤ ipMaxUdp) :
    (hole (truncateHole s pkt.hdr h len).payload h).prevHole = (hole s.payload h).prevHole ∧
    (hole (truncateHole s pkt.hdr h len).payload h).nextHole = (hole s.payload h).nextHole ∧
    ((hole (truncateHole s pkt.hdr h len).payload h).lastByte ≤ pkt.hdr.offset * 8 + len ↔
      (pkt.hdr.moreFragments = true →
        (hole s.payload h).lastByte ≤ pkt.hdr.offset * 8 + len)) := by
  by_cases hm : pkt.hdr.moreFragments = true
  · simp [truncateHole, hm]
  · have hlt : pkt.hdr.offset * 8 + len < 65536 := by
      simp only [ipMaxUdp, ipPktSize, ipHdrSize] at hroom
      omega
    simp only [truncateHole, hm, hole, setLastByte]
    refine ⟨?_, ?_, ?_⟩
    · exact read16_write16_of_ne _ _ (by omega)
    · exact read16_write16_of_ne _ _ (by omega)
    · simp [read16_write16_self, Nat.mod_eq_of_lt hlt]

def completed (s : State) (pkt : IpPacket) (h len : Nat) : State :=
  { truncateHole s pkt.hdr h len with
    payload := memcpy (truncateHole s pkt.hdr h len).payload (pkt.hdr.offset * 8)
      (pkt.body.take len)
    localip := { s.localip with len := newTotal s pkt len } }

theorem truncateHole_totalLen (s : State) (hroom : pkt.hdr.offset * 8 + len ≤ ipMaxUdp) :
    (truncateHole s pkt.hdr h len).totalLen = newTotal s pkt len := by
  simp only [ipMaxUdp, ipPktSize, ipHdrSize] at hroom
  simp only [truncateHole, newTotal]
  split
  · rfl
  · exact Nat.mod_eq_of_lt (by omega)

theorem truncateHole_localip (s : State) :
    (truncateHole s pkt.hdr h len).localip = s.localip := by
  rw [truncateHole]
  split <;> rfl

theorem fillHole_done (hbody : len ≤ pkt.body.length)
    (hroom : pkt.hdr.offset * 8 + len ≤ ipMaxUdp) :
    fillHole s pkt h len = some (s', some n) ↔
      pkt.hdr.offset ≤ h ∧
      (pkt.hdr.moreFragments = true →
        (hole s.payload h).lastByte ≤ pkt.hdr.offset * 8 + len) ∧
      (hole s.payload h).prevHole = 0 ∧ (hole s.payload h).nextHole = 0 ∧
      s' = completed s pkt h len ∧ n = newTotal s pkt len + ipHdrSize := by
  obtain ⟨hprev, hnext, hlast⟩ := hole_truncateHole (h := h) s hroom
  have hcopy (t : State) (done : Bool) : copyFragment t pkt len done = some (s', some n) ↔
      done = true ∧ s' = { t with
        payload := memcpy t.payload (pkt.hdr.offset * 8) (pkt.body.take len)
        localip := { t.localip with len := t.totalLen } } ∧ n = t.totalLen + ipHdrSize := by
    rw [copyFragment, if_neg (by omega)]
    cases done <;> simp [eq_comm]
  rw [fillHole, bind_eq_bind, bind_eq_some_iff]
  constructor
  · rintro ⟨⟨t, done⟩, hfix, hrun⟩
    obtain ⟨rfl, rfl, rfl⟩ := (hcopy t done).mp hrun
    obtain ⟨hbegin, hend, hp, hn, rfl⟩ := fixHoles_done.mp hfix
    refine ⟨hbegin, hlast.mp hend, hprev ▸ hp, hnext ▸ hn, ?_, ?_⟩
    · rw [completed, truncateHole_totalLen s hroom, truncateHole_localip]
    · rw [truncateHole_totalLen s hroom]
  · rintro ⟨hbegin, hend, hp, hn, rfl, rfl⟩
    refine ⟨(truncateHole s pkt.hdr h len, true), ?_, (hcopy _ _).mpr ⟨rfl, ?_, ?_⟩⟩
    · exact fixHoles_done.mpr ⟨hbegin, hlast.mpr hend, hprev.trans hp, hnext.trans hn, rfl⟩
    · rw [completed, truncateHole_totalLen s hroom, truncateHole_localip]
    · rw [truncateHole_totalLen s hroom]

theorem reassemble_done (hbody : pkt.hdr.len ≤ ipHdrSize + pkt.body.length) :
    reassemble s pkt = some (s', some n) ↔
      ∃ h len, Completes s pkt h len ∧ s' = completed (current s pkt.hdr) pkt h len ∧
        n = newTotal (current s pkt.hdr) pkt len + ipHdrSize := by
  constructor
  · intro hrun
    simp only [reassemble] at hrun
    split at hrun
    · cases hrun
    · next hroom =>
      obtain ⟨w, hwalk, hrun⟩ := bind_eq_some_iff.mp hrun
      cases w with
      | tooFar => cases hrun
      | found h =>
        dsimp only at hrun
        split at hrun
        · cases hrun
        · next hreach =>
          split at hrun
          · cases hrun
          · next hneg =>
            obtain ⟨len, hlen⟩ : ∃ len, pkt.hdr.len = ipHdrSize + len :=
              Nat.exists_eq_add_of_le (by omega)
            have hsub : (pkt.hdr.len : Int) - ipHdrSize = len := by omega
            rw [hsub] at hroom hreach hrun
            have hroom' : pkt.hdr.offset * 8 + len ≤ ipMaxUdp := by omega
            rw [Int.tdiv_eq_ediv_of_nonneg (by omega)] at hreach
            obtain ⟨hbegin, hend, hp, hn, hs', hn'⟩ :=
              (fillHole_done (by omega) hroom').mp hrun
            exact ⟨h, len, ⟨hlen, hroom', hwalk, ⟨hbegin, by omega⟩, hend, hp, hn⟩, hs', hn'⟩
  · rintro ⟨h, len, hc, rfl, rfl⟩
    obtain ⟨hlen, hroom, hwalk, ⟨hbegin, hreach⟩, hend, hp, hn⟩ := hc
    have hsub : (pkt.hdr.len : Int) - ipHdrSize = len := by omega
    simp only [reassemble, hsub]
    rw [if_neg (by omega), hwalk]
    simp only [bind_eq_bind, bind_some]
    rw [Int.tdiv_eq_ediv_of_nonneg (by omega), if_neg (by omega), if_neg (by omega),
      Int.toNat_natCast]
    exact (fillHole_done (by omega) hroom).mpr ⟨hbegin, hend, hp, hn, rfl, rfl⟩

/-! ## Every call -/

theorem ntohs_completed (s : State) (pkt : IpPacket) (h len : Nat) :
    ntohs (completed (current s pkt.hdr) pkt h len).payload 4 = ntohs (assembled s pkt len) 4 := by
  have hbyte (a : Nat) (ha : a = 4 ∨ a = 5) :
      (truncateHole (current s pkt.hdr) pkt.hdr h len).payload a =
        (current s pkt.hdr).payload a := by
    rw [truncateHole]
    split
    · rfl
    · simp only [setLastByte, write16]
      rw [Function.update_of_ne (by omega), Function.update_of_ne (by omega)]
  simp [completed, assembled, ntohs, memcpy, hbyte 4 (.inl rfl), hbyte (4 + 1) (.inr rfl)]

theorem netReceiveFrame_call : netReceiveFrame cfg s frame = some (s', some c) ↔
    ∃ ip pkt, Holds cfg frame ip pkt ∧ accepted cfg.ourIp pkt = true ∧
      ((pkt.hdr.offset = 0 ∧ pkt.hdr.moreFragments = false ∧ s' = s ∧
          c ∈ handlerCall pkt.hdr.p frame.length ip (pkt.body.getD · 0) pkt.hdr.src) ∨
        ((pkt.hdr.offset ≠ 0 ∨ pkt.hdr.moreFragments = true) ∧ ∃ h len, Completes s pkt h len ∧
          s' = completed (current s pkt.hdr) pkt h len ∧
          c ∈ handlerCall (current s pkt.hdr).localip.p
            (newTotal (current s pkt.hdr) pkt len + ipHdrSize) 0
            (completed (current s pkt.hdr) pkt h len).payload pkt.hdr.src)) := by
  constructor
  · intro hrun
    rw [netReceiveFrame] at hrun
    split at hrun
    · cases hrun
    · next ip pkt hip =>
      refine ⟨ip, pkt, ipOf_eq_some_iff.mp hip, ?_⟩
      obtain ⟨⟨t, r⟩, hrecv, heq⟩ := map_eq_some_iff.mp hrun
      obtain ⟨rfl, hcall⟩ := Prod.mk.inj heq
      rw [netReceive] at hrecv
      split at hrecv
      · next hacc =>
        refine ⟨hacc, ?_⟩
        rw [netDefragment] at hrecv
        split at hrecv
        · next hwhole =>
          obtain ⟨rfl, rfl⟩ := Prod.mk.inj (some.inj hrecv)
          exact .inl ⟨hwhole.1, by simpa using hwhole.2, rfl, hcall⟩
        · next hfrag =>
          obtain ⟨⟨u, lenp⟩, hre, heq⟩ := bind_eq_some_iff.mp hrecv
          obtain ⟨rfl, rfl⟩ := Prod.mk.inj (some.inj heq)
          cases lenp with
          | none => cases hcall
          | some n =>
            obtain ⟨h, len, hc, rfl, rfl⟩ := (reassemble_done (accepted_len hacc)).mp hre
            exact .inr ⟨by simpa [imp_iff_not_or] using hfrag, h, len, hc, rfl, hcall⟩
      · obtain ⟨rfl, rfl⟩ := Prod.mk.inj (some.inj hrecv)
        cases hcall
  · rintro ⟨ip, pkt, hip, hacc, hcase⟩
    simp only [netReceiveFrame, ipOf_eq_some_iff.mpr hip, netReceive, if_pos hacc, netDefragment]
    rcases hcase with ⟨hoff, hmf, rfl, hcall⟩ | ⟨hfrag, h, len, hc, rfl, hcall⟩
    · rw [if_pos ⟨hoff, by simp [hmf]⟩]
      exact congrArg (fun x => some (s', x)) hcall
    · rw [if_neg (by simpa [imp_iff_not_or] using hfrag),
        (reassemble_done (accepted_len hacc)).mpr ⟨h, len, hc, rfl, rfl⟩]
      exact congrArg (fun x => some (_, x)) hcall

/-- The handler gets a length that has not wrapped and bytes that are there, for
every frame and whatever was received before, exactly if the length field of the
UDP header agrees with the frame or with the datagram. -/
theorem netReceiveFrame_sound_iff (cfg : NetConfig) (s : State) (frame : List UInt8) :
    (∀ s' c, netReceiveFrame cfg s frame = some (s', some c) → c.Sound) ↔
      UdpLenAgrees cfg s frame := by
  constructor
  · intro hsound
    refine ⟨fun ip pkt hip hacc hoff hmf => ?_, fun ip pkt h len hip hacc hfrag hc => ?_⟩
    · refine (handlerCall_sound_iff _ _ _ _ pkt.hdr.src).mp fun c hcall => ?_
      exact hsound s c (netReceiveFrame_call.mpr
        ⟨ip, pkt, hip, hacc, .inl ⟨hoff, hmf, rfl, hcall⟩⟩)
    · have hlen := (handlerCall_sound_iff _ _ _ _ pkt.hdr.src).mp fun c hcall =>
        hsound _ c (netReceiveFrame_call.mpr
          ⟨ip, pkt, hip, hacc, .inr ⟨hfrag, h, len, hc, rfl, hcall⟩⟩)
      rw [ntohs_completed] at hlen
      exact fun hp => ⟨(hlen hp).1, by have := (hlen hp).2; omega⟩
  · intro hagrees s' c hrun
    obtain ⟨ip, pkt, hip, hacc, hcase⟩ := netReceiveFrame_call.mp hrun
    rcases hcase with ⟨hoff, hmf, rfl, hcall⟩ | ⟨hfrag, h, len, hc, rfl, hcall⟩
    · exact (handlerCall_sound_iff _ _ _ _ _).mpr (hagrees.whole ip pkt hip hacc hoff hmf) c hcall
    · refine (handlerCall_sound_iff _ _ _ _ _).mpr (fun hp => ?_) c hcall
      rw [ntohs_completed]
      obtain ⟨hge, hle⟩ := hagrees.reassembled ip pkt h len hip hacc hfrag hc hp
      exact ⟨hge, by omega⟩

def shortUdp (udpLen : Nat) : List UInt8 :=
  [2, 0, 0, 0, 0, 1, 2, 0, 0, 0, 0, 2, 0x08, 0x00,
    0x45, 0, 0, 28, 0, 0, 0, 0, 64, 17, 0x66, 0xcf, 10, 0, 0, 2, 10, 0, 0, 1,
    0, 69, 4, 0, UInt8.ofNat (udpLen / 256), UInt8.ofNat udpLen, 0, 0]

/-- A length field of 0 wraps to nearly 4 GiB, and one of 1000 reaches 992 bytes
behind a frame of 42. -/
theorem netReceiveFrame_shortUdp :
    let cfg : NetConfig := ⟨0x0a000001, 0xffff, 0xffff⟩
    let s : State := ⟨⟨0, 0, 0, 0, 0, 0, 0, 0, 0, 0⟩, fun _ => 0, 0, 0⟩
    ((netReceiveFrame cfg s (shortUdp 0)).bind Prod.snd).map
        (fun c => (c.size, c.pkt, c.len, decide c.Sound)) = some (42, 42, 0xfffffff8, false) ∧
      ((netReceiveFrame cfg s (shortUdp 1000)).bind Prod.snd).map
        (fun c => (c.size, c.pkt, c.len, decide c.Sound)) = some (42, 42, 992, false) := by
  decide +kernel

end UBoot.Net
