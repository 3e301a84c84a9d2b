import UBoot.Lib.Machine
import UBoot.Net.Nfs

/-!
# A file read over an unreliable network

The client of `net/nfs.c`, a server that answers each READ with a part of the file, and a
network that delivers an answer to any request sent before, any number of times. A reply to
READ whose verifier is not null is taken for the end of the file.
-/

namespace UBoot.Net.Nfs

open Word32

structure Download where
  client : Client
  sent : List Sent

inductive DownloadEvent
  /-- The client receives a packet. -/
  | reply (p : Packet)
  | timeout

def Download.after (d : Download) (r : Client × Option Sent) : Download :=
  ⟨r.1, r.2.toList ++ d.sent⟩

def handled (readSize : Nat) (c : Client) (p : Packet) : Client × Option Sent :=
  ((nfsHandler readSize c p).1, (nfsHandler readSize c p).2.1)

def downloadMachine (readSize : Nat) : Machine Download DownloadEvent Unit where
  step d e :=
    (if d.client.netState = .looping then
      match e with
      | .reply p => d.after (handled readSize d.client p)
      | .timeout => d.after (nfsTimeout readSize d.client)
    else d, ())

/-- The end of `NfsStart`, called by `NetLoop` with no byte transferred. The path
is in its buffer. -/
def nfsStart (readSize : Nat) (c : Client) : Download :=
  Download.after ⟨c, []⟩ (nfsSend readSize
    { c with
      netState := .looping
      xferSize := 0
      nfsDownloadState := .fail
      nfsTimeoutCount := 0
      nfsState := .prclookupProgMountReq })

/-- The reply to a READ at `offset`: some bytes of the file from there on, none
only at its end. The verifier may be any. -/
@[mk_iff] structure ReadReply (file : List UInt8) (readSize offset : Nat) (p : Packet) : Prop where
  rstatus : word p.pkt 2 = 0
  astatus : word p.pkt 5 = 0
  status : dataWord p.pkt 0 = 0
  count : dataWord p.pkt 18 ≤ readSize
  inFile : offset < file.length → 0 < dataWord p.pkt 18 ∧
    offset + dataWord p.pkt 18 ≤ file.length
  atEnd : file.length ≤ offset → dataWord p.pkt 18 = 0
  data : ∀ k < dataWord p.pkt 18, file[offset + k]? = some (p.pkt (replySize + k))

def Sent.AnsweredBy (file : List UInt8) (readSize : Nat) (s : Sent) (p : Packet) : Prop :=
  word p.pkt 0 = s.id ∧
    match s.request with
    | .read _ offset _ => ReadReply file readSize offset p
    | _ => True

def Possible (file : List UInt8) (readSize : Nat) (d : Download) : DownloadEvent → Prop
  | .reply p => ∃ s ∈ d.sent, s.AnsweredBy file readSize p
  | .timeout => True

def NullVerifier (d : Download) : DownloadEvent → Prop
  | .reply p => d.client.nfsState = .readReq → word p.pkt 0 = d.client.rpcId → word p.pkt 3 = 0
  | .timeout => True

instance (file : List UInt8) (readSize offset : Nat) (p : Packet) :
    Decidable (ReadReply file readSize offset p) :=
  decidable_of_iff _ (readReply_iff ..).symm

instance (file : List UInt8) (readSize : Nat) (s : Sent) (p : Packet) :
    Decidable (s.AnsweredBy file readSize p) := by
  unfold Sent.AnsweredBy
  cases s.request <;> infer_instance

instance (file : List UInt8) (readSize : Nat) (d : Download) (e : DownloadEvent) :
    Decidable (Possible file readSize d e) := by
  cases e <;> unfold Possible <;> infer_instance

instance (d : Download) (e : DownloadEvent) : Decidable (NullVerifier d e) := by
  cases e <;> unfold NullVerifier <;> infer_instance

/-! ## What the handlers do -/

variable {file : List UInt8} {readSize base : Nat} {c : Client} {p : Packet} {d : Download}

def NfsState.rank : NfsState → Nat
  | .prclookupProgMountReq => 0
  | .prclookupProgNfsReq => 1
  | .mountReq => 2
  | .lookupReq => 3
  | .readReq => 4
  | .umountReq => 5
  | .readlinkReq => 6

structure Kept (c c' : Client) : Prop where
  nfsState : c'.nfsState = c.nfsState
  netState : c'.netState = c.netState
  rpcId : c'.rpcId = c.rpcId
  nfsTimeoutCount : c'.nfsTimeoutCount = c.nfsTimeoutCount
  nfsDownloadState : c'.nfsDownloadState = c.nfsDownloadState
  memory : c'.memory = c.memory
  xferSize : c'.xferSize = c.xferSize

theorem Kept.refl (c : Client) : Kept c c := ⟨rfl, rfl, rfl, rfl, rfl, rfl, rfl⟩

theorem takeReply_kept (h : ∀ rpc, Kept c (accept rpc).1) :
    Kept c (takeReply c p check accept).2.1 := by
  rw [takeReply]
  dsimp only
  split
  · exact .refl c
  · exact h _

theorem rpcLookupReply_kept (prog : Nat) : Kept c (rpcLookupReply prog c p).2.1 :=
  takeReply_kept fun rpc => by
    dsimp only
    split
    · exact ⟨rfl, rfl, rfl, rfl, rfl, rfl, rfl⟩
    · split
      · exact ⟨rfl, rfl, rfl, rfl, rfl, rfl, rfl⟩
      · exact .refl c

theorem nfsMountReply_kept : Kept c (nfsMountReply c p).2.1 :=
  takeReply_kept fun _ => ⟨rfl, rfl, rfl, rfl, rfl, rfl, rfl⟩

theorem nfsUmountallReply_kept : Kept c (nfsUmountallReply c p).2.1 :=
  takeReply_kept fun _ => ⟨rfl, rfl, rfl, rfl, rfl, rfl, rfl⟩

theorem nfsLookupReply_kept : Kept c (nfsLookupReply c p).2.1 :=
  takeReply_kept fun _ => ⟨rfl, rfl, rfl, rfl, rfl, rfl, rfl⟩

inductive Next (readSize : Nat) (c : Client) : Client × Option Sent → Prop
  | stay {c' : Client} (kept : Kept c c') : Next readSize c (c', none)
  | move {c' : Client} (state : NfsState) (kept : Kept c c') (later : c.nfsState.rank < state.rank)
      (last : state.rank ≤ 5)
      (offset : state = .readReq → c.nfsState.rank < 4 ∧ c'.nfsOffset = 0) :
      Next readSize c (c'.proceed readSize state)
  | finish {c' : Client} {netState : NetState} (kept : Kept c c')
      (result : netState = .success → c.nfsDownloadState = .success) :
      Next readSize c ({ c' with netState := netState }, none)

theorem handled_next (hearly : c.nfsState.rank ≠ 4) (hlink : c.nfsState.rank ≤ 5) :
    Next readSize c (handled readSize c p) := by
  rw [handled, nfsHandler]
  dsimp only
  by_cases hport : p.dest ≠ nfsOurPort
  · rw [if_pos hport]
    exact .stay (.refl c)
  rw [if_neg hport]
  cases hs : c.nfsState with
  | readReq => simp [hs, NfsState.rank] at hearly
  | readlinkReq => simp [hs, NfsState.rank] at hlink
  | prclookupProgMountReq =>
    have hkept := rpcLookupReply_kept (c := c) (p := p) progMount
    dsimp only
    split
    · exact .stay hkept
    · exact .move .prclookupProgNfsReq hkept (by rw [hs]; decide) (by decide) (by simp)
  | prclookupProgNfsReq =>
    have hkept := rpcLookupReply_kept (c := c) (p := p) progNfs
    dsimp only
    split
    · exact .stay hkept
    · exact .move .mountReq hkept (by rw [hs]; decide) (by decide) (by simp)
  | mountReq =>
    have hkept := nfsMountReply_kept (c := c) (p := p)
    dsimp only
    split
    · exact .stay hkept
    · split
      · exact .move .umountReq hkept (by rw [hs]; decide) (by decide) (by simp)
      · exact .move .lookupReq hkept (by rw [hs]; decide) (by decide) (by simp)
  | umountReq =>
    have hkept := nfsUmountallReply_kept (c := c) (p := p)
    dsimp only
    split
    · exact .stay hkept
    · split
      · exact .finish hkept (by simp)
      · exact .finish hkept fun h => hkept.nfsDownloadState ▸ h
  | lookupReq =>
    have hkept := nfsLookupReply_kept (c := c) (p := p)
    dsimp only
    split
    · exact .stay hkept
    · split
      · exact .move .umountReq hkept (by rw [hs]; decide) (by decide) (by simp)
      · have hkept' : Kept c { (nfsLookupReply c p).2.1 with nfsOffset := 0 } :=
          ⟨hkept.1, hkept.2, hkept.3, hkept.4, hkept.5, hkept.6, hkept.7⟩
        exact .move .readReq hkept' (by rw [hs]; decide) (by decide)
          fun _ => ⟨by rw [hs]; decide, rfl⟩

theorem word_rpc (h : 4 * k + 3 < count) : word (p.rpc count) k = word p.pkt k := by
  simp only [word, Packet.rpc]
  rw [if_pos (by omega), if_pos (by omega), if_pos (by omega), if_pos (by omega)]

theorem nfsReadReply_other (h : word p.pkt 0 ≠ c.rpcId) :
    ∃ code made, nfsReadReply c p = (code, c, made) ∧ (code = -1 ∨ code = -124) := by
  have hid : word (p.rpc replySize) 0 = word p.pkt 0 := word_rpc (by decide)
  rw [nfsReadReply]
  dsimp only
  rw [hid]
  rcases Nat.lt_or_gt_of_ne h with hlt | hgt
  · rw [if_neg (by omega), if_pos hlt]
    exact ⟨_, _, rfl, .inr rfl⟩
  · rw [if_pos hgt]
    exact ⟨_, _, rfl, .inl rfl⟩

theorem nfsReadReply_data (hid : word p.pkt 0 = c.rpcId) (hnull : word p.pkt 3 = 0)
    (hreply : ReadReply file readSize offset p) :
    ∃ made, nfsReadReply c p = (toInt (dataWord p.pkt 18),
      storeBlock c (fun k => p.pkt (replySize + k)) c.nfsOffset (dataWord p.pkt 18), made) := by
  have hword (k : Nat) (hk : k < 25) : word (p.rpc replySize) k = word p.pkt k :=
    word_rpc (by simp only [replySize]; omega)
  have hdata (i : Nat) (hi : i < 19) : dataWord (p.rpc replySize) i = dataWord p.pkt i :=
    hword (6 + i) (by omega)
  rw [nfsReadReply]
  dsimp only
  rw [hword 0 (by omega), hword 2 (by omega), hword 3 (by omega), hword 5 (by omega),
    hdata 0 (by omega), hdata 18 (by omega), if_neg (by omega), if_neg (by omega),
    if_neg (by simp [hreply.rstatus, hnull, hreply.astatus, hreply.status])]
  exact ⟨_, rfl⟩

theorem handled_read (hs : c.nfsState = .readReq)
    (hsize : readSize < 2 ^ 31)
    (hreply : word p.pkt 0 = c.rpcId → ReadReply file readSize c.nfsOffset p)
    (hnull : word p.pkt 0 = c.rpcId → word p.pkt 3 = 0) :
    handled readSize c p = (c, none) ∨
    handled readSize c p = c.proceed readSize .umountReq ∨
    (file.length ≤ c.nfsOffset ∧ ∃ src, handled readSize c p =
      { storeBlock c src c.nfsOffset 0 with nfsDownloadState := .success }.proceed
        readSize .umountReq) ∨
    ∃ n src, 0 < n ∧ c.nfsOffset + n ≤ file.length ∧
      (∀ k < n, file[c.nfsOffset + k]? = some (src k)) ∧
      handled readSize c p =
        { storeBlock c src c.nfsOffset n with nfsOffset := u32 (c.nfsOffset + n) }.proceed
          readSize .readReq := by
  by_cases hport : p.dest ≠ nfsOurPort
  · exact .inl (by rw [handled, nfsHandler]; dsimp only; rw [if_pos hport])
  by_cases hid : word p.pkt 0 = c.rpcId
  · have hr := hreply hid
    obtain ⟨made, hread⟩ := nfsReadReply_data hid (hnull hid) hr
    have hint : toInt (dataWord p.pkt 18) = (dataWord p.pkt 18 : Int) := by
      rw [toInt, if_pos (by have := hr.count; omega)]
    rw [hint] at hread
    refine .inr (.inr ?_)
    simp only [handled, nfsHandler, if_neg hport, hs, hread]
    by_cases hend : file.length ≤ c.nfsOffset
    · have hzero := hr.atEnd hend
      refine .inl ⟨hend, fun k => p.pkt (replySize + k), ?_⟩
      rw [hzero]
      rfl
    · obtain ⟨hpos, hle⟩ := hr.inFile (by omega)
      refine .inr ⟨dataWord p.pkt 18, fun k => p.pkt (replySize + k), hpos, hle, hr.data, ?_⟩
      rw [if_pos (by omega), Int.toNat_natCast]
      rfl
  · obtain ⟨code, made, hread, hcode⟩ := nfsReadReply_other hid
    refine .inr (.inl ?_)
    simp only [handled, nfsHandler, if_neg hport, hs, hread]
    rcases hcode with rfl | rfl <;> rfl

/-! ## Numbers of requests -/

def Numbered (base : Nat) : List Sent → Prop
  | [] => True
  | s :: sent => s.id = u32 (base + sent.length + 1) ∧ Numbered base sent

variable {sent : List Sent} {s t : Sent}

theorem Numbered.id_of_mem (h : Numbered base sent) (hs : s ∈ sent) :
    ∃ k < sent.length, s.id = u32 (base + k + 1) := by
  induction sent with
  | nil => cases hs
  | cons r sent ih =>
    rcases List.mem_cons.mp hs with rfl | hs
    · exact ⟨sent.length, by simp, h.1⟩
    · obtain ⟨k, hk, hid⟩ := ih h.2 hs
      exact ⟨k, by simp; omega, hid⟩

theorem Numbered.eq_last (h : Numbered base (s :: sent)) (hlen : sent.length < 2 ^ 32)
    (ht : t ∈ s :: sent) (hid : t.id = s.id) : t = s := by
  rcases List.mem_cons.mp ht with rfl | ht
  · rfl
  · obtain ⟨k, hk, hk'⟩ := h.2.id_of_mem ht
    rw [hk', h.1, u32_eq, u32_eq] at hid
    omega

/-! ## The invariant -/

def Client.budget (c : Client) : Nat := 1 + c.nfsState.rank + c.xferSize + c.nfsTimeoutCount

/-- As much of the file as `NetBootFileXferSize` says is in memory. -/
structure Loaded (file : List UInt8) (base : Nat) (c : Client) (sent : List Sent) : Prop where
  numbered : Numbered base sent
  rpcId : c.rpcId = u32 (base + sent.length)
  timeouts : c.netState = .looping → c.nfsTimeoutCount ≤ nfsRetryCount
  state : c.nfsState.rank ≤ 5
  size : c.xferSize ≤ file.length
  memory : ∀ a < c.xferSize, file[a]? = some (c.memory a)
  early : c.nfsState.rank < 4 → c.xferSize = 0
  complete : c.nfsDownloadState = .success → c.xferSize = file.length
  success : c.netState = .success → c.xferSize = file.length

structure Inv (file : List UInt8) (readSize base : Nat) (d : Download) : Prop
    extends Loaded file base d.client d.sent where
  count : d.sent.length ≤ d.client.budget
  reading : d.client.nfsState = .readReq → d.client.nfsOffset = d.client.xferSize ∧
    ∃ filefh rest, d.sent =
      ⟨d.client.rpcId, .read filefh d.client.nfsOffset readSize⟩ :: rest

theorem Loaded.send (h : Loaded file base c sent) (hcount : sent.length + 1 ≤ c.budget)
    (hoffset : c.nfsState = .readReq → c.nfsOffset = c.xferSize) :
    Inv file readSize base (Download.after ⟨c₀, sent⟩ (nfsSend readSize c)) := by
  rw [nfsSend]
  cases hreq : c.request readSize with
  | none =>
    refine ⟨h, by simp only [Download.after, Option.toList, List.nil_append]; omega, fun hs => ?_⟩
    have hs : c.nfsState = .readReq := hs
    simp [Client.request, hs] at hreq
  | some request =>
    have hid : u32 (c.rpcId + 1) = u32 (base + (sent.length + 1)) := by
      rw [h.rpcId, u32_eq, u32_eq, u32_eq]
      omega
    refine ⟨⟨⟨hid, h.numbered⟩, hid, h.timeouts, h.state, h.size, h.memory, h.early, h.complete,
      h.success⟩, hcount, fun hs => ⟨hoffset hs, c.filefh, sent, ?_⟩⟩
    have hs : c.nfsState = .readReq := hs
    have hread : request = .read c.filefh c.nfsOffset readSize := by
      simpa [Client.request, hs, eq_comm] using hreq
    rw [hread]
    rfl

theorem Loaded.kept (h : Loaded file base c sent) (hkept : Kept c c') :
    Loaded file base c' sent := by
  obtain ⟨hstate, hnet, hid, htimeouts, hdownload, hmemory, hsize⟩ := hkept
  refine ⟨h.numbered, hid.trans h.rpcId, ?_, ?_, ?_, ?_, ?_, ?_, ?_⟩
  · rw [hnet, htimeouts]
    exact h.timeouts
  · rw [hstate]
    exact h.state
  · rw [hsize]
    exact h.size
  · rw [hsize, hmemory]
    exact h.memory
  · rw [hstate, hsize]
    exact h.early
  · rw [hdownload, hsize]
    exact h.complete
  · rw [hnet, hsize]
    exact h.success

theorem Inv.proceed (h : Inv file readSize base d) (hkept : Kept d.client c)
    (hlater : d.client.nfsState.rank < state.rank) (hlast : state.rank ≤ 5)
    (hoffset : state = .readReq → d.client.nfsState.rank < 4 ∧ c.nfsOffset = 0) :
    Inv file readSize base (d.after (c.proceed readSize state)) := by
  have hl := h.toLoaded.kept hkept
  have hloaded : Loaded file base { c with nfsState := state } d.sent :=
    ⟨hl.numbered, hl.rpcId, hl.timeouts, hlast, hl.size, hl.memory,
      fun hr => hl.early (hkept.nfsState ▸ hlater.trans hr), hl.complete, hl.success⟩
  refine hloaded.send ?_ fun hs => ?_
  · have hcount := h.count
    simp only [Client.budget] at hcount ⊢
    rw [hkept.xferSize, hkept.nfsTimeoutCount]
    omega
  · obtain ⟨hearly, hzero⟩ := hoffset hs
    exact hzero.trans (hl.early (hkept.nfsState ▸ hearly)).symm

theorem Inv.next (h : Inv file readSize base d) (hloop : d.client.netState = .looping)
    (hearly : d.client.nfsState.rank ≠ 4)
    (hnext : Next readSize d.client r) : Inv file readSize base (d.after r) := by
  have hread (c : Client) (hkept : Kept d.client c) : c.nfsState ≠ .readReq := fun hs =>
    hearly (by rw [← hkept.nfsState, hs]; rfl)
  have hcount (c : Client) (hkept : Kept d.client c) : d.sent.length ≤ c.budget := by
    rw [Client.budget, hkept.nfsState, hkept.xferSize, hkept.nfsTimeoutCount]
    exact h.count
  cases hnext with
  | @stay c kept =>
    exact ⟨h.toLoaded.kept kept, hcount c kept, fun hs => absurd hs (hread c kept)⟩
  | move state kept later last offset => exact h.proceed kept later last offset
  | @finish c netState kept result =>
    have hl := h.toLoaded.kept kept
    refine ⟨⟨hl.numbered, hl.rpcId, fun _ => ?_, hl.state, hl.size, hl.memory, hl.early,
      hl.complete, fun hn => ?_⟩, hcount c kept, fun hs => absurd hs (hread c kept)⟩
    · exact kept.nfsTimeoutCount ▸ h.timeouts hloop
    · exact kept.xferSize.trans (h.complete (result hn))

theorem Inv.readReply (h : Inv file readSize base d) (hfile : file.length + rpcSize ≤ 2 ^ 32)
    (hloop : d.client.netState = .looping) (hs : d.client.nfsState = .readReq)
    (hreply : ∃ s ∈ d.sent, s.AnsweredBy file readSize p) (hid : word p.pkt 0 = d.client.rpcId) :
    ReadReply file readSize d.client.nfsOffset p := by
  obtain ⟨-, filefh, rest, hsent⟩ := h.reading hs
  obtain ⟨s, hmem, hsid, hanswer⟩ := hreply
  have hlen : rest.length < 2 ^ 32 := by
    have hcount := h.count
    have htimeouts := h.timeouts hloop
    have hsize := h.size
    rw [hsent, Client.budget, hs] at hcount
    simp only [List.length_cons, NfsState.rank, nfsRetryCount, rpcSize] at hcount htimeouts hfile
    omega
  have hlast : s = ⟨d.client.rpcId, .read filefh d.client.nfsOffset readSize⟩ :=
    (hsent ▸ h.numbered : Numbered base (_ :: rest)).eq_last hlen (hsent ▸ hmem)
      (hsid.symm.trans hid)
  rw [hlast] at hanswer
  exact hanswer

theorem Loaded.store (h : Loaded file base c sent) (hfile : file.length + rpcSize ≤ 2 ^ 32)
    (hoffset : c.nfsOffset = c.xferSize) (n : Nat) (src : Nat → UInt8)
    (hn : c.nfsOffset + n ≤ file.length)
    (hdata : ∀ k < n, file[c.nfsOffset + k]? = some (src k)) :
    u32 (c.nfsOffset + n) = c.xferSize + n ∧
      (storeBlock c src c.nfsOffset n).xferSize = c.xferSize + n ∧
      ∀ a < c.xferSize + n, file[a]? = some ((storeBlock c src c.nfsOffset n).memory a) := by
  have hu : u32 (c.nfsOffset + n) = c.xferSize + n := by
    rw [u32_of_lt (by simp only [rpcSize] at hfile; omega), hoffset]
  refine ⟨hu, ?_, fun a ha => ?_⟩
  · simp only [storeBlock, hu]
    split <;> omega
  · simp only [storeBlock]
    split
    · next hin =>
      have := hdata (a - c.nfsOffset) (by omega)
      rwa [Nat.add_sub_cancel' hin.1] at this
    · exact h.memory a (by omega)

section
variable (h : Inv file readSize base d)
include h

theorem Inv.read (hsize : readSize < 2 ^ 31) (hfile : file.length + rpcSize ≤ 2 ^ 32)
    (hloop : d.client.netState = .looping) (hs : d.client.nfsState = .readReq)
    (hreply : ∃ s ∈ d.sent, s.AnsweredBy file readSize p)
    (hnull : word p.pkt 0 = d.client.rpcId → word p.pkt 3 = 0) :
    Inv file readSize base (d.after (handled readSize d.client p)) := by
  have hoffset := (h.reading hs).1
  have hrank : d.client.nfsState.rank = 4 := by
    rw [hs]
    rfl
  rcases handled_read hs hsize (h.readReply hfile hloop hs hreply) hnull with
    hrun | hrun | ⟨hend, src, hrun⟩ | ⟨n, src, hpos, hn, hdata, hrun⟩
  · rw [hrun]
    exact h
  · rw [hrun]
    exact h.proceed (.refl _) (by rw [hrank]; decide) (by decide) (by simp)
  · -- nothing is stored, and all of the file has been
    have hcomplete : d.client.xferSize = file.length := by
      have := h.size
      omega
    obtain ⟨-, hxfer, hmemory⟩ := h.toLoaded.store hfile hoffset 0 src (by omega) (by simp)
    have hloaded : Loaded file base
        { storeBlock d.client src d.client.nfsOffset 0 with
          nfsDownloadState := .success
          nfsState := .umountReq } d.sent :=
      ⟨h.numbered, h.rpcId, h.timeouts, Nat.le_refl 5, hxfer.trans_le h.size, hxfer ▸ hmemory,
        fun hr => absurd (show 5 < 4 from hr) (by decide), fun _ => hxfer.trans hcomplete,
        fun _ => hxfer.trans hcomplete⟩
    rw [hrun]
    refine hloaded.send ?_ (fun hs => by cases hs)
    have hcount := h.count
    simp only [Client.budget, hrank, hxfer] at hcount ⊢
    simp only [NfsState.rank, storeBlock]
    omega
  · obtain ⟨hnext, hxfer, hmemory⟩ := h.toLoaded.store hfile hoffset n src hn hdata
    -- before the end there is no result of the download
    have hopen : d.client.xferSize ≠ file.length := by omega
    have hloaded : Loaded file base
        { storeBlock d.client src d.client.nfsOffset n with
          nfsOffset := u32 (d.client.nfsOffset + n)
          nfsState := .readReq } d.sent :=
      ⟨h.numbered, h.rpcId, h.timeouts, Nat.le_succ 4, hxfer.trans_le (by omega), hxfer ▸ hmemory,
        fun hr => absurd (show 4 < 4 from hr) (by decide), fun hd => absurd (h.complete hd) hopen,
        fun hn => absurd (h.success hn) hopen⟩
    rw [hrun]
    refine hloaded.send ?_ fun _ => hnext.trans hxfer.symm
    have hcount := h.count
    simp only [Client.budget, hrank, hxfer] at hcount ⊢
    simp only [NfsState.rank, storeBlock]
    omega

theorem Inv.timeout : Inv file readSize base (d.after (nfsTimeout readSize d.client)) := by
  rw [nfsTimeout]
  dsimp only
  split
  · refine ⟨⟨h.numbered, h.rpcId, fun hn => ?_, h.state, h.size, h.memory, h.early, h.complete,
      fun hn => ?_⟩, ?_, h.reading⟩
    · cases hn
    · cases hn
    · exact h.count.trans (Nat.le_succ _)
  · next hretry =>
    have hloaded : Loaded file base
        { d.client with nfsTimeoutCount := d.client.nfsTimeoutCount + 1 } d.sent :=
      ⟨h.numbered, h.rpcId, fun _ => Nat.not_lt.mp hretry, h.state, h.size, h.memory, h.early,
        h.complete, h.success⟩
    refine hloaded.send ?_ fun hs => (h.reading hs).1
    have hcount := h.count
    simp only [Client.budget] at hcount ⊢
    omega

theorem Inv.step (hsize : readSize < 2 ^ 31) (hfile : file.length + rpcSize ≤ 2 ^ 32)
    (hpossible : Possible file readSize d e) (hnull : NullVerifier d e) :
    Inv file readSize base ((downloadMachine readSize).step d e).1 := by
  simp only [downloadMachine]
  split
  · next hloop =>
    cases e with
    | timeout => exact h.timeout
    | reply p =>
      by_cases hs : d.client.nfsState = .readReq
      · exact h.read hsize hfile hloop hs hpossible (hnull hs)
      · have hearly : d.client.nfsState.rank ≠ 4 := fun hr => hs (by
          cases hst : d.client.nfsState <;> simp [hst, NfsState.rank] at hr ⊢)
        exact h.next hloop hearly (handled_next hearly h.state)
  · exact h

end

theorem inv_nfsStart (file : List UInt8) (readSize : Nat) (c : Client) :
    Inv file readSize c.rpcId (nfsStart readSize c) := by
  refine ⟨⟨⟨rfl, trivial⟩, rfl, fun _ => Nat.zero_le _, Nat.zero_le _, Nat.zero_le _,
    fun a ha => absurd ha (Nat.not_lt_zero a), fun _ => rfl, fun hd => ?_, fun hn => ?_⟩,
    Nat.le_refl 1, fun hs => ?_⟩
  · cases hd
  · cases hn
  · cases hs

/-- A download that ends with success has the file in memory, as long as no reply
to READ has a verifier other than the null one. -/
theorem nfs_download_delivers (file : List UInt8) (readSize : Nat) (c : Client)
    (events : List DownloadEvent) (hsize : readSize < 2 ^ 31)
    (hfile : file.length + rpcSize ≤ 2 ^ 32)
    (hsteps : (downloadMachine readSize).Meets
      (fun d e => Possible file readSize d e ∧ NullVerifier d e) (nfsStart readSize c) events)
    (hend : ((downloadMachine readSize).run (nfsStart readSize c) events).1.client.netState =
      .success) :
    let c' := ((downloadMachine readSize).run (nfsStart readSize c) events).1.client
    c'.xferSize = file.length ∧ ∀ a < file.length, file[a]? = some (c'.memory a) := by
  have hinv : Inv file readSize c.rpcId
      ((downloadMachine readSize).run (nfsStart readSize c) events).1 :=
    Machine.invariant (fun _ _ hi he => hi.step hsize hfile he.1 he.2)
      (inv_nfsStart file readSize c) hsteps
  have hlen := hinv.success hend
  exact ⟨hlen, fun a ha => hinv.memory a (hlen ▸ ha)⟩

def replyTo (id verifier : UInt8) (data : List UInt8) : Packet where
  dest := nfsOurPort
  len := replySize + data.length
  pkt k :=
    if k = 3 then id
    else if k = 15 then verifier
    else if k = 99 then UInt8.ofNat data.length
    else if replySize ≤ k then data.getD (k - replySize) 0
    else 0
  stack _ := 0

def exampleClient : Client :=
  ⟨.umountReq, .fail, 0, 0, 0, .fail, 0, 0, false, [], [], [], [], fun _ => 0, 0⟩

/-- The first reply comes twice, and the one to LOOKUP after a timeout. -/
theorem nfs_download_delivers_five :
    ((downloadMachine 4).run (nfsStart 4 exampleClient)
      [.reply (replyTo 1 0 []), .reply (replyTo 1 0 []), .reply (replyTo 2 0 []),
        .reply (replyTo 3 0 []), .timeout, .reply (replyTo 4 0 []), .reply (replyTo 5 0 []),
        .reply (replyTo 6 0 [10, 20, 30]), .reply (replyTo 7 0 [40, 50]), .reply (replyTo 8 0 []),
        .reply (replyTo 9 0 [])]).1.client.xferSize = 5 :=
  (nfs_download_delivers [10, 20, 30, 40, 50] 4 exampleClient _ (by decide) (by decide)
    (by decide +kernel) (by decide +kernel)).1

/-- The server answers the first READ with three bytes, under a verifier of the
flavour `AUTH_SHORT`. Nothing is stored, and the download succeeds. -/
theorem nfs_download_short_verifier :
    let events : List DownloadEvent :=
      [.reply (replyTo 1 0 []), .reply (replyTo 2 0 []), .reply (replyTo 3 0 []),
        .reply (replyTo 4 0 []), .reply (replyTo 5 2 [10, 20, 30]), .reply (replyTo 6 0 [])]
    (downloadMachine 4).Meets (Possible [10, 20, 30, 40, 50] 4) (nfsStart 4 exampleClient) events ∧
      ((downloadMachine 4).run (nfsStart 4 exampleClient) events).1.client.netState = .success ∧
      ((downloadMachine 4).run (nfsStart 4 exampleClient) events).1.client.xferSize = 0 := by
  decide +kernel

/-! ## Replies to earlier requests -/

def Stale (c : Client) (p : Packet) : Prop := 4 ≤ p.len ∧ word p.pkt 0 < c.rpcId

instance (c : Client) (p : Packet) : Decidable (Stale c p) := inferInstanceAs (Decidable (_ ∧ _))

theorem Stale.word_rpc (h : Stale c p) (hcount : 4 ≤ count) : word (p.rpc count) 0 < c.rpcId := by
  have hbyte : ∀ k < 4, p.rpc count k = p.pkt k := fun k hk => if_pos (by omega)
  rw [word, hbyte _ (by decide), hbyte _ (by decide), hbyte _ (by decide), hbyte _ (by decide)]
  exact h.2

theorem takeReply_stale (h : Stale c p) (accept : (Nat → UInt8) → Client × List Access) :
    takeReply c p checkReply accept =
        (-nfsRpcDrop, c, [.fromPacket 0 p.len, .toRpc p.len, .fromRpc 0 4]) ∧
      takeReply c p checkStatus accept =
        (-nfsRpcDrop, c, [.fromPacket 0 p.len, .toRpc p.len, .fromRpc 0 4]) := by
  have hword := h.word_rpc h.1
  have hcheck : checkReply c.rpcId (p.rpc p.len) = (some (-nfsRpcDrop), [.fromRpc 0 4]) := by
    rw [checkReply, if_neg (by omega), if_pos hword]
  simp [takeReply, checkStatus, hcheck]

/-- A reply to an earlier request changes nothing exactly if the client is not reading: there the
code of a reply that is to be dropped is taken for an error. -/
theorem handled_stale_iff (readSize : Nat) (c : Client) (p : Packet) (h : Stale c p) :
    handled readSize c p = (c, none) ↔ p.dest ≠ nfsOurPort ∨ c.nfsState ≠ .readReq := by
  by_cases hdest : p.dest = nfsOurPort
  · have hreply := takeReply_stale h
    rw [handled, nfsHandler, if_neg (not_not.mpr hdest)]
    cases hs : c.nfsState with
    | readReq =>
      have hword := h.word_rpc (show 4 ≤ replySize by decide)
      have hread : nfsReadReply c p = (-nfsRpcDrop, c, [.fromPacket 0 replySize, .toRpc replySize,
          .fromRpc 0 4]) := by
        simp [nfsReadReply, if_neg (Nat.not_lt.mpr hword.le), if_pos hword]
      have hstate : (c.proceed readSize .umountReq).1.nfsState = .umountReq := by
        rw [Client.proceed, nfsSend]
        split <;> rfl
      simp only [hread]
      refine iff_of_false (fun heq => ?_) (by simp [hdest])
      have := congrArg (fun r => r.1.nfsState) heq
      simp [nfsRpcDrop, nfserrIsdir, nfserrInval, hstate, hs] at this
    | prclookupProgMountReq | prclookupProgNfsReq | umountReq =>
      simp [rpcLookupReply, nfsUmountallReply, (hreply _).1]
    | mountReq | lookupReq | readlinkReq =>
      simp [nfsMountReply, nfsLookupReply, nfsReadlinkReply, (hreply _).2]
  · simp [handled, nfsHandler, hdest]

theorem handled_stale_lookup :
    handled 4 { exampleClient with nfsState := .lookupReq, rpcId := 4 } (replyTo 3 0 []) =
      ({ exampleClient with nfsState := .lookupReq, rpcId := 4 }, none) :=
  (handled_stale_iff 4 { exampleClient with nfsState := .lookupReq, rpcId := 4 } (replyTo 3 0 [])
    (by decide +kernel)).mpr (.inr nofun)

/-- The reply to LOOKUP comes once more, in front of the one to the first READ. -/
theorem nfs_download_ended_by_stale_reply :
    let d := ((downloadMachine 4).run (nfsStart 4 exampleClient)
      [.reply (replyTo 1 0 []), .reply (replyTo 2 0 []), .reply (replyTo 3 0 []),
        .reply (replyTo 4 0 [])]).1
    d.client.nfsState = .readReq ∧ Stale d.client (replyTo 4 0 []) ∧
      (handled 4 d.client (replyTo 4 0 [])).1.nfsState = .umountReq ∧
      (handled 4 d.client (replyTo 4 0 [])).2.isSome := by
  decide +kernel

end UBoot.Net.Nfs
