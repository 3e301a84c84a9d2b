import Mathlib

/-!
# Reassembly of IP fragments

`__NetDefragment` of `net/net.c` and the checks of `NetReceive` in front of it. Where nothing
has been received yet the buffer holds a doubly linked list of hole descriptors, addressed by
their index; 0 stands both for the hole at the start and for no hole. An access outside the
buffer, a copy of more bytes than were received and a walk that does not end are `none`.
-/

namespace UBoot.Net

def ipHdrSize : Nat := 20

/-- `IP_PKTSIZE`: `CONFIG_NET_MAXDEFRAG` and the reply of an RPC. -/
def ipPktSize : Nat := 16384 + 100

def ipMaxUdp : Nat := ipPktSize - ipHdrSize

structure IpHdr where
  hlV : Nat
  tos : Nat
  len : Nat
  id : Nat
  off : Nat
  ttl : Nat
  p : Nat
  sum : Nat
  src : Nat
  dst : Nat
  deriving DecidableEq

structure IpPacket where
  hdr : IpHdr
  body : List UInt8

def IpHdr.offset (ip : IpHdr) : Nat := ip.off % 2 ^ 13

def IpHdr.moreFragments (ip : IpHdr) : Bool := ip.off.testBit 13

/-! ## The buffer -/

abbrev Buffer := Nat → UInt8

def read16 (buf : Buffer) (a : Nat) : Nat := (buf a).toNat + 256 * (buf (a + 1)).toNat

def write16 (buf : Buffer) (a v : Nat) : Buffer :=
  Function.update (Function.update buf a (UInt8.ofNat v)) (a + 1) (UInt8.ofNat (v / 256))

structure Hole where
  lastByte : Nat
  nextHole : Nat
  prevHole : Nat
  deriving DecidableEq

def hole (buf : Buffer) (i : Nat) : Hole :=
  ⟨read16 buf (8 * i), read16 buf (8 * i + 2), read16 buf (8 * i + 4)⟩

def setLastByte (buf : Buffer) (i v : Nat) : Buffer := write16 buf (8 * i) v
def setNextHole (buf : Buffer) (i v : Nat) : Buffer := write16 buf (8 * i + 2) v
def setPrevHole (buf : Buffer) (i v : Nat) : Buffer := write16 buf (8 * i + 4) v

def copyHole (buf : Buffer) (newh h : Nat) : Buffer := fun a =>
  if 8 * newh ≤ a ∧ a < 8 * newh + 8 then buf (8 * h + (a - 8 * newh)) else buf a

def memcpy (buf : Buffer) (start : Nat) (src : List UInt8) : Buffer := fun a =>
  if start ≤ a ∧ a < start + src.length then src.getD (a - start) 0 else buf a

def InBuffer (i : Nat) : Prop := 8 * i + 8 ≤ ipMaxUdp

instance (i : Nat) : Decidable (InBuffer i) := inferInstanceAs (Decidable (_ ≤ _))

structure State where
  localip : IpHdr
  payload : Buffer
  firstHole : Nat
  totalLen : Nat

/-! ## __NetDefragment -/

def reset (ip : IpHdr) (s : State) : State :=
  { localip := ip
    payload := setPrevHole (setNextHole (setLastByte s.payload 0 0xffff) 0 0) 0 0
    firstHole := 0
    totalLen := 0xffff }

inductive Walk
  | found (h : Nat)
  | tooFar
  deriving DecidableEq

/-- The walk to the hole of the fragment. The buffer does not change meanwhile,
so that a walk longer than the number of descriptors does not end. -/
def walk (buf : Buffer) (start : Nat) : Nat → Nat → Option Walk
  | 0, _ => none
  | fuel + 1, h =>
    if InBuffer h then
      if (hole buf h).lastByte < start then
        if (hole buf h).nextHole = 0 then some .tooFar
        else walk buf start fuel (hole buf h).nextHole
      else some (.found h)
    else none

def guarded (is : List Nat) (s : State) : Option State :=
  if ∀ i ∈ is, InBuffer i then some s else none

/-- Complete overlap with the hole: remove it. The flag is `done`. -/
def removeHole (s : State) (h : Nat) : Option (State × Bool) :=
  let hd := hole s.payload h
  if hd.prevHole = 0 ∧ hd.nextHole = 0 then some (s, true)
  else if hd.prevHole = 0 then do
    let s ← guarded [hd.nextHole]
      { s with firstHole := hd.nextHole, payload := setPrevHole s.payload hd.nextHole 0 }
    some (s, false)
  else if hd.nextHole = 0 then do
    let s ← guarded [hd.prevHole] { s with payload := setNextHole s.payload hd.prevHole 0 }
    some (s, false)
  else do
    let s ← guarded [hd.nextHole]
      { s with payload := setPrevHole s.payload hd.nextHole hd.prevHole }
    let hd := hole s.payload h
    let s ← guarded [hd.prevHole]
      { s with payload := setNextHole s.payload hd.prevHole hd.nextHole }
    some (s, false)

/-- The hole after `h`, if there is one, is linked back to it. -/
def linkBack (s : State) (h : Nat) : Option State :=
  let next := (hole s.payload h).nextHole
  if next ≠ 0 then guarded [next] { s with payload := setPrevHole s.payload next h } else some s

def moveHole (s : State) (h newh : Nat) : Option State := do
  let s ← guarded [newh] { s with payload := copyHole s.payload newh h }
  let s ← linkBack s newh
  let prev := (hole s.payload newh).prevHole
  if prev ≠ 0 then guarded [prev] { s with payload := setNextHole s.payload prev newh }
  else some { s with firstHole := newh }

def splitHole (s : State) (h newh start : Nat) : Option State := do
  let payload := setNextHole (setLastByte (copyHole s.payload newh h) h start) h newh
  let s ← guarded [newh] { s with payload := setPrevHole payload newh h }
  linkBack s newh

/-- The hole list after a fragment of `len` bytes from the hole `h` on. -/
def fixHoles (s : State) (h offset8 len : Nat) : Option (State × Bool) :=
  let start := offset8 * 8
  let lastByte := (hole s.payload h).lastByte
  let newh := offset8 + len / 8
  if offset8 ≤ h ∧ lastByte ≤ start + len then removeHole s h
  else if lastByte ≤ start + len then
    some ({ s with payload := setLastByte s.payload h start }, false)
  else if offset8 ≤ h then do
    let s ← moveHole s h newh
    some (s, false)
  else do
    let s ← splitHole s h newh start
    some (s, false)

def truncateHole (s : State) (ip : IpHdr) (h len : Nat) : State :=
  if ip.moreFragments then s else
    { s with totalLen := (ip.offset * 8 + len) % 2 ^ 16
             payload := setLastByte s.payload h (ip.offset * 8 + len) }

/-- Copy the fragment. The result is the value of `*lenp` with the packet in the
buffer, or `none` for `NULL`. -/
def copyFragment (s : State) (pkt : IpPacket) (len : Nat) (done : Bool) :
    Option (State × Option Nat) :=
  if pkt.body.length < len then none
  else
    let s := { s with payload := memcpy s.payload (pkt.hdr.offset * 8) (pkt.body.take len) }
    if done then
      some ({ s with localip := { s.localip with len := s.totalLen } },
        some (s.totalLen + ipHdrSize))
    else some (s, none)

/-- A fragment of `len` bytes that has bytes of the hole `h`. -/
def fillHole (s : State) (pkt : IpPacket) (h len : Nat) : Option (State × Option Nat) := do
  let (s, done) ← fixHoles (truncateHole s pkt.hdr h len) h pkt.hdr.offset len
  copyFragment s pkt len done

def current (s : State) (ip : IpHdr) : State :=
  if s.totalLen = 0 ∨ s.localip.id ≠ ip.id then reset ip s else s

def reassemble (s : State) (pkt : IpPacket) : Option (State × Option Nat) :=
  let offset8 := pkt.hdr.offset
  let start := offset8 * 8
  let len : Int := pkt.hdr.len - ipHdrSize
  if start + len > ipMaxUdp then some (s, none)
  else do
    let s := current s pkt.hdr
    match ← walk s.payload start (ipMaxUdp / 8 + 1) s.firstHole with
    | .tooFar => some (s, none)
    | .found h =>
      if offset8 + Int.tdiv (len + 7) 8 ≤ h then some (s, none)
      -- a negative length goes to `memcpy` as a huge one
      else if len < 0 then none
      else fillHole s pkt h len.toNat

/-! ## NetDefragment and NetReceive -/

/-- What `NetDefragment` returns: the packet itself, the packet in the buffer
with its length, or nothing. -/
inductive Received
  | whole
  | reassembled (len : Nat)
  | nothing
  deriving DecidableEq

def netDefragment (s : State) (pkt : IpPacket) : Option (State × Received) :=
  if pkt.hdr.offset = 0 ∧ ¬ pkt.hdr.moreFragments then some (s, .whole)
  else do
    let (s, lenp) ← reassemble s pkt
    some (s, lenp.elim .nothing .reassembled)

def IpHdr.words (ip : IpHdr) : List Nat :=
  let swap (v : Nat) := v % 256 * 256 + v / 256
  [ip.hlV + 256 * ip.tos, swap ip.len, swap ip.id, swap ip.off, ip.ttl + 256 * ip.p, swap ip.sum,
    swap (ip.src / 2 ^ 16), swap (ip.src % 2 ^ 16), swap (ip.dst / 2 ^ 16), swap (ip.dst % 2 ^ 16)]

def netCksum (words : List Nat) : Nat :=
  let xsum := words.sum
  let xsum := xsum % 2 ^ 16 + xsum / 2 ^ 16
  let xsum := xsum % 2 ^ 16 + xsum / 2 ^ 16
  xsum % 2 ^ 16

def netCksumOk (words : List Nat) : Bool := (netCksum words + 1) &&& 0xfffe == 0

/-- The checks on an IP packet; `ourIp` is `NetOurIP`. -/
def accepted (ourIp : Nat) (pkt : IpPacket) : Bool :=
  let len := ipHdrSize + pkt.body.length
  28 ≤ len && pkt.hdr.len ≤ len && pkt.hdr.hlV &&& 0xf0 == 0x40 && pkt.hdr.hlV &&& 0x0f ≤ 0x05 &&
    netCksumOk pkt.hdr.words &&
    !(ourIp != 0 && pkt.hdr.dst != ourIp && pkt.hdr.dst != 0xffffffff)

def netReceive (ourIp : Nat) (s : State) (pkt : IpPacket) : Option (State × Received) :=
  if accepted ourIp pkt then netDefragment s pkt else some (s, .nothing)

end UBoot.Net
