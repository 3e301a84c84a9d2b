import UBoot.Lib.Machine
import UBoot.Net.Nfs

/-!
# Replies that are handled safely

A reply is handled safely if only bytes of its payload are looked at, and nothing is written
beyond the copy, the file handles and `nfs_path_buff`. The code compares none of the lengths;
`Proper` is what is left to the sender of a reply.
-/

namespace UBoot.Net.Nfs

open Word32
open List hiding count

def Access.Safe (len : Nat) : Access → Prop
  | .fromPacket start count => start + count ≤ len
  | .toRpc count => count ≤ rpcSize
  | .fromRpc start count => start + count ≤ len ∧ start + count ≤ rpcSize
  | .toHandle count => count ≤ nfsFhsize
  | .toPath start count => 0 ≤ start ∧ start + count ≤ pathSize
  | .toLoad start count => start + count ≤ len

instance (len : Nat) (a : Access) : Decidable (a.Safe len) := by
  cases a <;> unfold Access.Safe <;> infer_instance

def handlerMachine (readSize : Nat) : Machine Client Packet (Nat × List Access) where
  step c p :=
    let (c, _, made) := nfsHandler readSize c p
    (c, p.len, made)

def MemorySafe (answer : Nat × List Access) : Prop := ∀ a ∈ answer.2, a.Safe answer.1

instance (answer : Nat × List Access) : Decidable (MemorySafe answer) := by
  unfold MemorySafe
  infer_instance

/-! ## What a reply has to be like -/

def Passes (rpcId : Nat) (rpc : Nat → UInt8) : Prop :=
  word rpc 0 = rpcId ∧ word rpc 2 = 0 ∧ word rpc 3 = 0 ∧ word rpc 5 = 0

instance (rpcId : Nat) (rpc : Nat → UInt8) : Decidable (Passes rpcId rpc) := by
  unfold Passes
  infer_instance

def checkedBytes (rpcId : Nat) (rpc : Nat → UInt8) : Nat :=
  if word rpc 0 ≠ rpcId then 4
  else if word rpc 2 ≠ 0 then 12
  else if word rpc 3 ≠ 0 then 16
  else 24

def extent (c : Client) (p : Packet) : Nat :=
  let rpc := p.rpc p.len
  let short := checkedBytes c.rpcId rpc
  match c.nfsState with
  | .prclookupProgMountReq | .prclookupProgNfsReq => if Passes c.rpcId rpc then 28 else short
  | .umountReq => short
  | .mountReq | .lookupReq =>
    if Passes c.rpcId rpc then if dataWord rpc 0 = 0 then 28 + nfsFhsize else 28 else short
  | .readlinkReq =>
    if Passes c.rpcId rpc then
      if dataWord rpc 0 = 0 then max 33 (32 + dataWord rpc 1) else 28
    else short
  | .readReq =>
    let rpc := p.rpc replySize
    if Passes c.rpcId rpc ∧ dataWord rpc 0 = 0 then replySize + dataWord rpc 18 else replySize

def LinkFits (c : Client) (p : Packet) : Prop :=
  let rpc := p.rpc p.len
  Passes c.rpcId rpc → dataWord rpc 0 = 0 →
    if rpc 32 ≠ slash then c.nfsPath.length + dataWord rpc 1 + 2 ≤ pathSize else 0 < dataWord rpc 1

instance (c : Client) (p : Packet) : Decidable (LinkFits c p) := by
  unfold LinkFits
  infer_instance

def Proper (c : Client) (p : Packet) : Prop :=
  p.dest = nfsOurPort →
    extent c p ≤ p.len ∧ (c.nfsState ≠ .readReq → p.len ≤ rpcSize) ∧
      (c.nfsState = .readlinkReq → LinkFits c p)

instance (c : Client) (p : Packet) : Decidable (Proper c p) := by
  unfold Proper
  infer_instance

/-! ## The reply functions -/

variable {c : Client} {p : Packet} {rpcId len : Nat} {rpc : Nat → UInt8} {readSize : Nat}

theorem checkReply_eq_none : (checkReply rpcId rpc).1 = none ↔ Passes rpcId rpc := by
  unfold checkReply Passes
  split_ifs <;> simp <;> omega

theorem checkReply_safe (hlen : len ≤ rpcSize) :
    (∀ a ∈ (checkReply rpcId rpc).2, a.Safe len) ↔ checkedBytes rpcId rpc ≤ len := by
  unfold checkReply checkedBytes
  unfold rpcSize at hlen
  split_ifs <;> simp [Access.Safe, rpcSize] <;> omega

theorem checkStatus_eq :
    checkStatus rpcId rpc =
      if Passes rpcId rpc then
        (if dataWord rpc 0 ≠ 0 then some (-1) else none,
          (checkReply rpcId rpc).2 ++ [.fromRpc 24 4])
      else checkReply rpcId rpc := by
  unfold checkStatus
  rw [← if_congr checkReply_eq_none rfl rfl]
  cases checkReply rpcId rpc with
  | mk code looked => cases code <;> simp

theorem checkStatus_eq_none :
    (checkStatus rpcId rpc).1 = none ↔ Passes rpcId rpc ∧ dataWord rpc 0 = 0 := by
  rw [checkStatus_eq]
  by_cases h : Passes rpcId rpc
  · simp [h]
  · rw [if_neg h, checkReply_eq_none]
    simp [h]

theorem checkedBytes_of_passes (h : Passes rpcId rpc) : checkedBytes rpcId rpc = 24 := by
  obtain ⟨hid, hrstatus, hverifier, -⟩ := h
  simp [checkedBytes, hid, hrstatus, hverifier]

theorem checkStatus_safe (hlen : len ≤ rpcSize) :
    (∀ a ∈ (checkStatus rpcId rpc).2, a.Safe len) ↔
      if Passes rpcId rpc then 28 ≤ len else checkedBytes rpcId rpc ≤ len := by
  rw [checkStatus_eq]
  by_cases h : Passes rpcId rpc
  · rw [if_pos h, if_pos h, forall_mem_append, checkReply_safe hlen, checkedBytes_of_passes h]
    unfold rpcSize at hlen
    simp only [Access.Safe, mem_singleton, forall_eq, rpcSize]
    omega
  · rw [if_neg h, if_neg h, checkReply_safe hlen]

theorem takeReply_log (check : Nat → (Nat → UInt8) → Option Int × List Access)
    (accept : (Nat → UInt8) → Client × List Access) :
    (takeReply c p check accept).2.2 =
      [.fromPacket 0 p.len, .toRpc p.len] ++ (check c.rpcId (p.rpc p.len)).2 ++
        if (check c.rpcId (p.rpc p.len)).1 = none then (accept (p.rpc p.len)).2 else [] := by
  unfold takeReply
  cases hcheck : check c.rpcId (p.rpc p.len) with
  | mk code looked => cases code <;> simp

theorem copied_safe :
    (∀ a ∈ [Access.fromPacket 0 len, .toRpc len], a.Safe len) ↔ len ≤ rpcSize := by
  simp [Access.Safe]

theorem takeReply_safe (check : Nat → (Nat → UInt8) → Option Int × List Access)
    (accept : (Nat → UInt8) → Client × List Access) :
    (∀ a ∈ (takeReply c p check accept).2.2, a.Safe p.len) ↔
      p.len ≤ rpcSize ∧ (∀ a ∈ (check c.rpcId (p.rpc p.len)).2, a.Safe p.len) ∧
        ((check c.rpcId (p.rpc p.len)).1 = none →
          ∀ a ∈ (accept (p.rpc p.len)).2, a.Safe p.len) := by
  rw [takeReply_log, forall_mem_append, forall_mem_append, copied_safe, and_assoc]
  by_cases h : (check c.rpcId (p.rpc p.len)).1 = none
  · simp [h]
  · simp [h]

theorem rpcLookupReply_safe (prog : Nat) :
    (∀ a ∈ (rpcLookupReply prog c p).2.2, a.Safe p.len) ↔
      p.len ≤ rpcSize ∧
        (if Passes c.rpcId (p.rpc p.len) then 28 else checkedBytes c.rpcId (p.rpc p.len)) ≤
          p.len := by
  rw [rpcLookupReply, takeReply_safe, and_congr_right_iff]
  intro hlen
  rw [checkReply_safe hlen, checkReply_eq_none]
  unfold rpcSize at hlen
  by_cases h : Passes c.rpcId (p.rpc p.len)
  · simp only [h, if_true, true_imp_iff, checkedBytes_of_passes h, mem_singleton, forall_eq,
      Access.Safe, rpcSize]
    omega
  · simp [h]

theorem nfsUmountallReply_safe :
    (∀ a ∈ (nfsUmountallReply c p).2.2, a.Safe p.len) ↔
      p.len ≤ rpcSize ∧ checkedBytes c.rpcId (p.rpc p.len) ≤ p.len := by
  rw [nfsUmountallReply, takeReply_safe, and_congr_right_iff]
  intro hlen
  rw [checkReply_safe hlen]
  simp [Access.Safe]

theorem handleReply_safe (h : ∀ rpc, (accept rpc).2 = [.fromRpc 28 nfsFhsize, .toHandle nfsFhsize])
    :
    (∀ a ∈ (takeReply c p checkStatus accept).2.2, a.Safe p.len) ↔
      p.len ≤ rpcSize ∧
        (if Passes c.rpcId (p.rpc p.len) then
            if dataWord (p.rpc p.len) 0 = 0 then 28 + nfsFhsize else 28
          else checkedBytes c.rpcId (p.rpc p.len)) ≤ p.len := by
  rw [takeReply_safe, and_congr_right_iff]
  intro hlen
  rw [checkStatus_safe hlen, checkStatus_eq_none, h]
  unfold rpcSize at hlen
  by_cases hpass : Passes c.rpcId (p.rpc p.len)
  · by_cases hstatus : dataWord (p.rpc p.len) 0 = 0
    · simp [hpass, hstatus, Access.Safe, rpcSize, nfsFhsize]
      omega
    · simp [hpass, hstatus]
  · simp [hpass]

theorem nfsReadReply_safe :
    (∀ a ∈ (nfsReadReply c p).2.2, a.Safe p.len) ↔
      (if Passes c.rpcId (p.rpc replySize) ∧ dataWord (p.rpc replySize) 0 = 0 then
          replySize + dataWord (p.rpc replySize) 18
        else replySize) ≤ p.len := by
  unfold nfsReadReply Passes
  by_cases hid : word (p.rpc replySize) 0 = c.rpcId
  · have hgt : ¬ word (p.rpc replySize) 0 > c.rpcId := by omega
    have hlt : ¬ word (p.rpc replySize) 0 < c.rpcId := by omega
    simp only [if_neg hgt, if_neg hlt]
    split_ifs <;> simp_all [Access.Safe, rpcSize, replySize] <;> omega
  · have hno : ¬ ((word (p.rpc replySize) 0 = c.rpcId ∧ word (p.rpc replySize) 2 = 0 ∧
        word (p.rpc replySize) 3 = 0 ∧ word (p.rpc replySize) 5 = 0) ∧
        dataWord (p.rpc replySize) 0 = 0) := fun h => hid h.1.1
    rw [if_neg hno]
    by_cases hgt : word (p.rpc replySize) 0 > c.rpcId
    · simp only [if_pos hgt]
      simp [Access.Safe, rpcSize, replySize]
      omega
    · have hlt : word (p.rpc replySize) 0 < c.rpcId := by omega
      simp only [if_neg hgt, if_pos hlt]
      simp [Access.Safe, rpcSize, replySize]
      omega

/-! ## Links -/

theorem lastSlash_eq_none : lastSlash path = none ↔ slash ∉ path := by
  simp only [lastSlash, Option.map_eq_none_iff, findIdx?_eq_none_iff, mem_reverse,
    decide_eq_false_iff_not]
  exact ⟨fun h hmem => h slash hmem rfl, fun h x hx hslash => h (hslash ▸ hx)⟩

theorem lastSlash_lt (h : lastSlash path = some k) : k < path.length := by
  obtain ⟨j, hj, rfl⟩ := Option.map_eq_some_iff.mp h
  have := findIdx?_eq_some_iff_getElem.mp hj
  obtain ⟨hlt, -⟩ := this
  rw [length_reverse] at hlt
  omega

theorem cut_safe (h : path.length ≤ pathSize) :
    (Access.toPath (basename path - 1) 1).Safe len ↔ slash ∈ path := by
  unfold basename
  cases hslash : lastSlash path with
  | none =>
    have := lastSlash_eq_none.mp hslash
    simp [Access.Safe, this]
  | some k =>
    have hlt := lastSlash_lt hslash
    have hmem : slash ∈ path := by
      by_contra hno
      rw [lastSlash_eq_none.mpr hno] at hslash
      cases hslash
    simp only [Access.Safe, hmem, iff_true]
    omega

@[simp] theorem length_bytes (m : Nat → UInt8) (start count : Nat) :
    (bytes m start count).length = count := by simp [bytes]

theorem length_cstring_le (s : List UInt8) : (cstring s).length ≤ s.length :=
  (takeWhile_sublist _).length_le

theorem slash_mem_cstring (h : m start = slash) :
    slash ∈ cstring (bytes m start count) ↔ 0 < count := by
  cases count with
  | zero => simp [bytes, cstring]
  | succ count =>
    have hbytes : bytes m start (count + 1) = slash :: bytes m (start + 1) count := by
      simp only [bytes, range_succ_eq_map, map_cons, map_map, Nat.add_zero, h]
      congr 1
      refine map_congr_left fun k _ => ?_
      simp [Nat.add_comm, Nat.add_left_comm]
    have hne : slash ≠ 0 := by decide
    rw [hbytes, cstring, takeWhile_cons_of_pos (by simpa using hne)]
    simp

theorem toInt_of_lt (h : n < 2 ^ 31) : toInt n = n := if_pos h

theorem takeReply_accepted (h : (check c.rpcId (p.rpc p.len)).1 = none) :
    (takeReply c p check accept).1 = 0 ∧
      (takeReply c p check accept).2.1 = (accept (p.rpc p.len)).1 := by
  unfold takeReply
  cases hcheck : check c.rpcId (p.rpc p.len) with
  | mk code looked =>
    rw [hcheck] at h
    obtain rfl : code = none := h
    exact ⟨rfl, rfl⟩

theorem nfsReadlinkReply_refused (h : (checkStatus c.rpcId (p.rpc p.len)).1 ≠ none) :
    (nfsReadlinkReply c p).1 = -nfsRpcDrop ∨ (nfsReadlinkReply c p).1 = -nfsRpcErr := by
  have hcode : (nfsReadlinkReply c p).1 = (checkStatus c.rpcId (p.rpc p.len)).1.getD 0 := by
    unfold nfsReadlinkReply takeReply
    cases hcheck : checkStatus c.rpcId (p.rpc p.len) with
    | mk code looked => cases code <;> rfl
  rw [hcode]
  rw [checkStatus_eq] at h ⊢
  unfold checkReply at h ⊢
  split_ifs at h ⊢ <;> simp_all [nfsRpcDrop, nfsRpcErr]

theorem readlink_log (hs : c.nfsState = .readlinkReq) (hdest : p.dest = nfsOurPort)
    (hok : (checkStatus c.rpcId (p.rpc p.len)).1 = none) :
    (nfsHandler readSize c p).2.2 = (nfsReadlinkReply c p).2.2 ++
      [.toPath (basename (nfsReadlinkReply c p).2.1.nfsPath - 1) 1] := by
  have hcode : (nfsReadlinkReply c p).1 = 0 := (takeReply_accepted hok).1
  rw [nfsHandler, if_neg (not_not.mpr hdest)]
  simp only [hs]
  rw [if_neg (by rw [hcode]; decide), if_neg (by rw [hcode]; decide)]
  rfl

theorem relative_safe (path : List UInt8) (hlen : len ≤ rpcSize)
    (hlink : link.length ≤ rlen) :
    (∀ a ∈ [Access.fromRpc 28 4, .fromRpc 32 1, .toPath path.length 2, .fromRpc 32 rlen,
        .toPath (path.length + 1 : Nat) rlen, .toPath ((path.length + 1 : Nat) + toInt rlen) 1,
        .toPath (basename (path ++ [slash] ++ link) - 1) 1], a.Safe len) ↔
      max 33 (32 + rlen) ≤ len ∧ path.length + rlen + 2 ≤ pathSize := by
  simp only [forall_mem_cons, not_mem_nil, false_imp_iff, implies_true, and_true]
  constructor
  · rintro ⟨-, h33, -, hcopy, -, hzero, -⟩
    simp only [Access.Safe, rpcSize, pathSize] at *
    rw [toInt_of_lt (by omega)] at hzero
    omega
  · rintro ⟨hext, hroom⟩
    have hcut : (Access.toPath (basename (path ++ [slash] ++ link) - 1) 1).Safe len := by
      refine (cut_safe ?_).mpr (by simp)
      simp only [length_append, length_singleton]
      omega
    simp only [Access.Safe, rpcSize, pathSize] at hlen hroom hcut ⊢
    rw [toInt_of_lt (by omega)]
    refine ⟨by omega, by omega, by omega, by omega, by omega, by omega, hcut⟩

theorem absolute_safe (hlen : len ≤ rpcSize) (hlink : link.length ≤ rlen)
    (hslash : slash ∈ link ↔ 0 < rlen) :
    (∀ a ∈ [Access.fromRpc 28 4, .fromRpc 32 1, .fromRpc 32 rlen, .toPath 0 rlen,
        .toPath (toInt rlen) 1, .toPath (basename link - 1) 1], a.Safe len) ↔
      max 33 (32 + rlen) ≤ len ∧ 0 < rlen := by
  simp only [forall_mem_cons, not_mem_nil, false_imp_iff, implies_true, and_true]
  constructor
  · rintro ⟨-, h33, hcopy, hroom, -, hcut⟩
    have hle : link.length ≤ pathSize := by
      simp only [Access.Safe, rpcSize, pathSize] at *
      omega
    rw [cut_safe hle, hslash] at hcut
    simp only [Access.Safe, rpcSize, pathSize] at *
    omega
  · rintro ⟨hext, hpos⟩
    have hcut : (Access.toPath (basename link - 1) 1).Safe len := by
      refine (cut_safe ?_).mpr (hslash.mpr hpos)
      simp only [rpcSize, pathSize] at *
      omega
    simp only [Access.Safe, rpcSize, pathSize] at hlen hcut ⊢
    rw [toInt_of_lt (by omega)]
    refine ⟨by omega, by omega, by omega, by omega, by omega, hcut⟩

def replyLog (c : Client) (p : Packet) : List Access :=
  match c.nfsState with
  | .prclookupProgMountReq => (rpcLookupReply progMount c p).2.2
  | .prclookupProgNfsReq => (rpcLookupReply progNfs c p).2.2
  | .mountReq => (nfsMountReply c p).2.2
  | .umountReq => (nfsUmountallReply c p).2.2
  | .lookupReq => (nfsLookupReply c p).2.2
  | .readReq => (nfsReadReply c p).2.2
  | .readlinkReq => (nfsReadlinkReply c p).2.2

theorem nfsHandler_log (hdest : p.dest = nfsOurPort)
    (hlink : c.nfsState = .readlinkReq → (checkStatus c.rpcId (p.rpc p.len)).1 ≠ none) :
    (nfsHandler readSize c p).2.2 = replyLog c p := by
  rw [nfsHandler, if_neg (not_not.mpr hdest), replyLog]
  cases hs : c.nfsState with
  | readlinkReq =>
    dsimp only
    obtain hcode | hcode := nfsReadlinkReply_refused (hlink hs)
    · rw [if_pos hcode]
    · rw [if_neg (by rw [hcode]; decide), if_pos hcode]
  | prclookupProgMountReq | prclookupProgNfsReq | mountReq | umountReq | lookupReq | readReq =>
    dsimp only
    split_ifs <;> rfl

theorem readlink_safe (hs : c.nfsState = .readlinkReq) (hdest : p.dest = nfsOurPort) :
    (∀ a ∈ (nfsHandler readSize c p).2.2, a.Safe p.len) ↔
      extent c p ≤ p.len ∧ p.len ≤ rpcSize ∧ LinkFits c p := by
  by_cases hok : (checkStatus c.rpcId (p.rpc p.len)).1 = none
  · obtain ⟨hpass, hstatus⟩ := checkStatus_eq_none.mp hok
    have hext : extent c p = max 33 (32 + dataWord (p.rpc p.len) 1) := by
      simp [extent, hs, hpass, hstatus]
    have hclient : (nfsReadlinkReply c p).2.1 = (takeLink c (p.rpc p.len)).1 :=
      (takeReply_accepted hok).2
    rw [readlink_log hs hdest hok, forall_mem_append, hclient, nfsReadlinkReply,
      takeReply_safe, forall_prop_of_true hok, hext, and_assoc]
    conv_rhs => rw [and_left_comm]
    refine and_congr_right fun hlen => ?_
    rw [checkStatus_safe hlen, if_pos hpass]
    have hlink : (cstring (bytes (p.rpc p.len) 32 (dataWord (p.rpc p.len) 1))).length ≤
        dataWord (p.rpc p.len) 1 := (length_cstring_le _).trans (length_bytes ..).le
    by_cases hrelative : p.rpc p.len 32 ≠ slash
    · have hfits : LinkFits c p ↔
          c.nfsPath.length + dataWord (p.rpc p.len) 1 + 2 ≤ pathSize := by
        simp [LinkFits, hpass, hstatus, hrelative]
      have hsafe := relative_safe c.nfsPath hlen hlink
      rw [hfits, ← hsafe, takeLink, if_pos hrelative, and_assoc, ← forall_mem_append]
      exact and_iff_right_of_imp fun h => by
        have := hsafe.mp h
        omega
    · have hfits : LinkFits c p ↔ 0 < dataWord (p.rpc p.len) 1 := by
        simp [LinkFits, hpass, hstatus, hrelative]
      have hsafe := absolute_safe hlen hlink (slash_mem_cstring (not_not.mp hrelative))
      rw [hfits, ← hsafe, takeLink, if_neg hrelative, and_assoc, ← forall_mem_append]
      exact and_iff_right_of_imp fun h => by
        have := hsafe.mp h
        omega
  · have hrefused : ¬ (Passes c.rpcId (p.rpc p.len) ∧ dataWord (p.rpc p.len) 0 = 0) := fun h =>
      hok (checkStatus_eq_none.mpr h)
    have hfits : LinkFits c p := fun hpass hstatus => absurd ⟨hpass, hstatus⟩ hrefused
    rw [nfsHandler_log hdest fun _ => hok, replyLog, hs]
    simp only [nfsReadlinkReply, takeReply_safe, hok, false_imp_iff, and_true, hfits, extent, hs]
    rw [and_comm]
    refine and_congr_left fun hlen => ?_
    rw [checkStatus_safe hlen]
    by_cases hpass : Passes c.rpcId (p.rpc p.len)
    · have hstatus : dataWord (p.rpc p.len) 0 ≠ 0 := fun h => hrefused ⟨hpass, h⟩
      simp [hpass, hstatus]
    · simp [hpass]

/-! ## Every packet, and every sequence of them -/

theorem nfsHandler_safe_iff :
    (∀ a ∈ (nfsHandler readSize c p).2.2, a.Safe p.len) ↔ Proper c p := by
  unfold Proper
  by_cases hdest : p.dest = nfsOurPort
  · rw [forall_prop_of_true hdest]
    by_cases hlink : c.nfsState = .readlinkReq
    · rw [readlink_safe hlink hdest]
      simp [hlink]
    · rw [nfsHandler_log hdest fun h => absurd h hlink, replyLog, extent]
      cases hs : c.nfsState with
      | readlinkReq => exact absurd hs hlink
      | readReq => simp [nfsReadReply_safe]
      | prclookupProgMountReq | prclookupProgNfsReq => simp [rpcLookupReply_safe, and_comm]
      | mountReq => simp [nfsMountReply, handleReply_safe, and_comm]
      | lookupReq => simp [nfsLookupReply, handleReply_safe, and_comm]
      | umountReq => simp [nfsUmountallReply_safe, and_comm]
  · rw [nfsHandler, if_pos hdest]
    simp [hdest]

def waiting (state : NfsState) (path : List UInt8) : Client where
  nfsState := state
  netState := .looping
  rpcId := 1
  nfsOffset := 0
  nfsTimeoutCount := 0
  nfsDownloadState := .fail
  nfsSrvMountPort := 0
  nfsSrvNfsPort := 0
  fsMounted := true
  dirfh := []
  filefh := []
  nfsPath := path
  nfsFilename := []
  memory := fun _ => 0
  xferSize := 0

/-- A reply to request 1 with the words from `data[0]` on, and with zeros around it. -/
def replyOne (len : Nat) (data : Nat → UInt8) : Packet where
  dest := nfsOurPort
  len := len
  pkt := fun k => if k = 3 then 1 else if k < 24 then 0 else data (k - 24)
  stack := fun _ => 0

end UBoot.Net.Nfs
