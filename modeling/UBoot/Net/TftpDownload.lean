import UBoot.Lib.Machine
import UBoot.Net.TftpBlocks

/-!
# A download over an unreliable network

The client of `net/tftp.c`, a server that sends the next block when the last one is
acknowledged, and a network that delivers any packet sent before, any number of times. The
client counts each packet with number 0 as a wrap of the counter, also one that it has seen.
-/

namespace UBoot.Net.Tftp

open List

/-- The client, the last block that the server has sent, the packets the client
has sent, and which blocks it has stored and acknowledged. -/
structure Download where
  client : State
  top : Nat
  sent : List (List UInt8)
  got : List Nat

inductive DownloadEvent
  /-- The client receives the OACK. -/
  | oack
  /-- The client receives the block `k`. -/
  | data (k : Nat)
  /-- The server receives an acknowledgement. -/
  | ack (number : Nat)
  | timeout

def Download.after (d : Download) (r : State × Option (List UInt8)) : Download :=
  { d with client := r.1, sent := r.2.toList ++ d.sent }

def Download.act (d : Download) (handler : State → State × Option (List UInt8)) : Download :=
  if d.client.netState = .looping then d.after (handler d.client) else d

def Download.receive (d : Download) (k : Nat) (r : State × Option (List UInt8)) : Download :=
  if r.2.isSome then { d.after r with got := k :: d.got } else d.after r

def downloadMachine (cfg : Config) (F : Transfer) : Machine Download DownloadEvent Unit where
  step d
    | .oack =>
      (d.act fun t => tftpHandler cfg t (be16 opOack ++ F.oack.getD []) cfg.port F.port, ())
    | .data k =>
      (if d.client.netState = .looping then
        d.receive k (tftpHandler cfg d.client (F.dataPacket k) cfg.port F.port)
      else d, ())
    | .ack number =>
      (if number = d.top % 2 ^ 16 ∧ d.top < F.last then { d with top := d.top + 1 } else d, ())
    | .timeout => (d.act (tftpTimeout cfg), ())

def Possible (F : Transfer) (d : Download) : DownloadEvent → Prop
  | .oack => F.oack.isSome
  | .data k => 0 < k ∧ k ≤ d.top
  | .ack number => number < 2 ^ 16 ∧ be16 opAck ++ be16 number ∈ d.sent
  | .timeout => True

/-- The block is stored with its own number of wraps, and an acknowledgement is
that of the block it is taken for. -/
def Unmistaken (d : Download) : DownloadEvent → Prop
  | .data k =>
    if d.client.state = .data then
      k % 2 ^ 16 = d.client.lastBlock ∨
        d.client.blockWrap + (if k % 2 ^ 16 = 0 then 1 else 0) = k / 2 ^ 16
    else k % 2 ^ 16 = 1 → k = 1
  | .ack number => number = d.top % 2 ^ 16 → d.top = 0 ∨ d.top ∈ d.got
  | _ => True

instance (F : Transfer) (d : Download) (e : DownloadEvent) : Decidable (Possible F d e) := by
  cases e <;> unfold Possible <;> infer_instance

instance (d : Download) (e : DownloadEvent) : Decidable (Unmistaken d e) := by
  cases e <;> unfold Unmistaken <;> infer_instance

/-! ## The client -/

variable {cfg : Config} {F : Transfer} {t : State} {k : Nat}

theorem tftpSend_reading (hw : t.writing = false) : (tftpSend cfg t).1 = t := by
  unfold tftpSend
  cases t.state <;> simp [hw]

theorem tftpSend_ack (h : (tftpSend cfg t).2 = be16 opAck ++ be16 number) :
    t.state ≠ .sendRrq := by
  intro hs
  simp [tftpSend, hs, be16, opRrq, opAck] at h

structure Reading (F : Transfer) (t : State) : Prop where
  writing : t.writing = false
  state : t.state = .sendRrq ∨ t.state = .oack ∨ t.state = .data
  blkSize : t.blkSize = tftpBlockSize ∨ t.blkSize = F.blkSize
  settled : t.state ≠ .sendRrq → t.blkSize = F.blkSize
  wraps : t.state = .data → WrapsAgree F t

inductive Receives (cfg : Config) (F : Transfer) (k : Nat) (t : State) :
    State × Option (List UInt8) → Prop
  | ignored {t'} (reading : Reading F t') (memory : t'.memory = t.memory)
      (xferSize : t'.xferSize = t.xferSize) (blkSize : t'.blkSize = t.blkSize)
      (loops : t'.netState ≠ .success) : Receives cfg F k t (t', none)
  | stored {t'} (ack : List UInt8) (reading : Reading F t')
      (memory : t'.memory = memcpy t.memory (cfg.loadAddr + F.start k) (F.block k))
      (xferSize : t'.xferSize = max t.xferSize (F.start k + (F.block k).length))
      (blkSize : t'.blkSize = t.blkSize)
      (done : t'.netState = .success → k = F.last) : Receives cfg F k t (t', some ack)

theorem Receives.congr (h : Receives cfg F k t r) (hmem : t.memory = t'.memory)
    (hsize : t.xferSize = t'.xferSize) (hblk : t.blkSize = t'.blkSize) : Receives cfg F k t' r := by
  cases h with
  | ignored reading memory xferSize blkSize loops =>
    exact .ignored reading (memory.trans hmem) (xferSize.trans hsize) (blkSize.trans hblk) loops
  | stored ack reading memory xferSize blkSize done =>
    exact .stored ack reading (hmem ▸ memory) (hsize ▸ xferSize) (blkSize.trans hblk) done

theorem memcpy_nil (memory : Nat → UInt8) (dst : Nat) : memcpy memory dst [] = memory := by
  funext a
  exact if_neg (by simp)

section
variable (hblk : t.blkSize = F.blkSize) (hwraps : WrapsAgree F t) (h0 : 0 < k) (hk : k ≤ F.last)
  (hfit : F.file.length < 2 ^ 32) (haddr : cfg.loadAddr + F.file.length ≤ 2 ^ 32)
include hblk hwraps h0 hk hfit haddr

theorem storeBlock_spec (hwrap : t.blockWrap * 2 ^ 16 + t.block = k) :
    storeBlock cfg t ((t.block : Int) - 1) (F.block k) =
      { t with
        memory := memcpy t.memory (cfg.loadAddr + F.start k) (F.block k)
        xferSize := max t.xferSize (F.start k + (F.block k).length) } := by
  have hend := Transfer.start_add_length_le h0 hk
  have hsize : (F.start k + (F.block k).length) % 2 ^ 32 = F.start k + (F.block k).length :=
    Nat.mod_eq_of_lt (by omega)
  have hmem : memcpy t.memory ((cfg.loadAddr + F.start k) % 2 ^ 32) (F.block k) =
      memcpy t.memory (cfg.loadAddr + F.start k) (F.block k) := by
    cases hb : F.block k with
    | nil => rw [memcpy_nil, memcpy_nil]
    | cons c cs =>
      rw [hb, length_cons] at hend
      rw [Nat.mod_eq_of_lt (by omega)]
  unfold storeBlock
  simp only [blockOffset_eq hblk hwraps hwrap h0 (by omega), hsize, hmem]
  congr 1
  split <;> omega

theorem receiveBlock_spec (hw : t.writing = false) (hs : t.state = .data)
    (hnet : t.netState = .looping)
    (hwrap : t.block = t.lastBlock ∨ t.blockWrap * 2 ^ 16 + t.block = k) :
    Receives cfg F k t (receiveBlock cfg t (F.block k)) := by
  unfold receiveBlock
  split
  case isTrue =>
    exact .ignored ⟨hw, .inr (.inr hs), .inr hblk, fun _ => hblk, fun _ => hwraps⟩ rfl rfl rfl (by simp [hnet])
  case isFalse hne =>
    have hstore := storeBlock_spec
      (t := { t with lastBlock := t.block, timeoutCountMax := timeoutCountDefault })
      hblk hwraps h0 hk hfit haddr (hwrap.resolve_left hne)
    simp only [hstore]
    rcases hsend : tftpSend cfg _ with ⟨t', ack⟩
    obtain rfl := (congrArg Prod.fst hsend).symm.trans (tftpSend_reading hw)
    split
    case isTrue hlt =>
      exact .stored ack ⟨hw, .inr (.inr hs), .inr hblk, fun _ => hblk, fun _ => hwraps⟩ rfl rfl rfl fun _ =>
        (Transfer.length_block_lt_iff h0 hk).mp (hlt.trans_eq hblk)
    case isFalse =>
      exact .stored ack ⟨hw, .inr (.inr hs), .inr hblk, fun _ => hblk, fun _ => hwraps⟩ rfl rfl rfl fun h =>
        absurd (hnet.symm.trans h) (by decide)

end

theorem handleData_spec (hr : Reading F t) (hnet : t.netState = .looping)
    (hblk : t.blkSize = F.blkSize) (h0 : 0 < k) (hk : k ≤ F.last) (hfit : F.file.length < 2 ^ 32)
    (haddr : cfg.loadAddr + F.file.length ≤ 2 ^ 32)
    (hclear : if t.state = .data then k % 2 ^ 16 = t.lastBlock ∨
        t.blockWrap + (if k % 2 ^ 16 = 0 then 1 else 0) = k / 2 ^ 16
      else k % 2 ^ 16 = 1 → k = 1) (src : Nat) :
    Receives cfg F k t (handleData cfg t (be16 k ++ F.block k) src) := by
  unfold handleData
  rw [if_neg (not_short_be16 _ _), ntohs_be16, drop_be16]
  by_cases hs : t.state = .data
  · simp only [updateBlockNumber_kept, hs]
    rw [if_neg (by simp)]
    refine (receiveBlock_spec (by simpa using hblk) ?_ h0 hk hfit haddr (by simpa using hr.writing)
      (by simp) (by simpa using hnet) ?_).congr (by simp) (by simp) (by simp)
    · exact wrapsAgree_update hblk (hr.wraps hs)
    · rw [if_pos hs] at hclear
      refine hclear.imp (by simp) fun hwrap => ?_
      have hk' : k / 2 ^ 16 < 2 ^ 32 - 1 := by
        have := Nat.div_le_self F.file.length F.blkSize
        unfold Transfer.last at hk
        omega
      rw [blockWrap_update _ (by simp only; omega), (updateBlockNumber_kept _).2.2.1]
      simp only [hwrap]
      omega
  · have hfirst : t.state = .sendRrq ∨ t.state = .oack ∨ t.state = .recvWrq := by
      have := hr.state
      tauto
    rw [if_neg hs] at hclear
    simp only [updateBlockNumber_kept]
    rw [if_pos hfirst]
    split
    case isTrue =>
      exact .ignored ⟨by simpa [netStartAgain, newTransfer] using hr.writing, .inr (.inr rfl),
        by simp [netStartAgain, newTransfer, hblk], fun _ => by
          simpa [netStartAgain, newTransfer] using hblk, fun _ => by
          simp [WrapsAgree, netStartAgain, newTransfer]⟩
        (by simp [netStartAgain, newTransfer]) (by simp [netStartAgain, newTransfer])
        (by simp [netStartAgain, newTransfer]) (by simp [netStartAgain])
    case isFalse hone =>
      have hone : k % 2 ^ 16 = 1 := by simpa [newTransfer] using hone
      refine (receiveBlock_spec ?_ ?_ h0 hk hfit haddr ?_ rfl ?_ (.inr ?_)).congr ?_ ?_ ?_
      all_goals simp [newTransfer, WrapsAgree, hblk, hr.writing, hnet]
      omega

/-! ## What every step keeps -/

structure Download.Sound (cfg : Config) (F : Transfer) (d : Download) : Prop where
  reading : Reading F d.client
  top_le : d.top ≤ F.last
  /-- The block size is settled before the first block. -/
  settled : (0 < d.top ∨ ∃ number, be16 opAck ++ be16 number ∈ d.sent) →
    d.client.blkSize = F.blkSize
  got_le : ∀ k ∈ d.got, 0 < k ∧ k ≤ d.top
  below : ∀ k, 0 < k → k < d.top → k ∈ d.got
  bytes : ∀ k ∈ d.got, ∀ j < (F.block k).length,
    d.client.memory (cfg.loadAddr + F.start k + j) = (F.block k).getD j 0
  size_le : d.client.xferSize ≤ F.file.length
  covers : ∀ k ∈ d.got, F.start k + (F.block k).length ≤ d.client.xferSize
  done : d.client.netState = .success → F.last ∈ d.got

variable {d : Download}

theorem Download.Sound.keep (hd : d.Sound cfg F) (hr : Reading F t')
    (hmem : t'.memory = d.client.memory) (hsize : t'.xferSize = d.client.xferSize)
    (hnet : t'.netState ≠ .success) (hblk : d.client.blkSize = F.blkSize → t'.blkSize = F.blkSize)
    (hack : ∀ number, be16 opAck ++ be16 number ∈ packet → t'.blkSize = F.blkSize) :
    (d.after (t', packet)).Sound cfg F where
  reading := hr
  top_le := hd.top_le
  settled := by
    rintro (htop | ⟨number, hmem'⟩)
    · exact hblk (hd.settled (.inl htop))
    · rcases mem_append.mp hmem' with h | h
      · exact hack number (Option.mem_toList.mp h)
      · exact hblk (hd.settled (.inr ⟨number, h⟩))
  got_le := hd.got_le
  below := hd.below
  bytes := fun k hk j hj => (congrFun hmem _).trans (hd.bytes k hk j hj)
  size_le := hsize.le.trans hd.size_le
  covers := fun k hk => (hd.covers k hk).trans hsize.ge
  done := fun h => absurd h hnet

theorem Reading.timeoutCount (h : Reading F t) (n : Nat) (s : NetState) :
    Reading F { t with timeoutCount := n, netState := s } :=
  ⟨h.writing, h.state, h.blkSize, h.settled, h.wraps⟩

theorem Download.Sound.act (hd : d.Sound cfg F)
    (h : d.client.netState = .looping → (d.after (handler d.client)).Sound cfg F) :
    (d.act handler).Sound cfg F := by
  unfold Download.act
  split
  case isTrue hnet => exact h hnet
  case isFalse => exact hd

theorem send_reading (hw : t.writing = false) : send cfg t = (t, some (tftpSend cfg t).2) := by
  rw [send, tftpSend_reading hw]

theorem Download.Sound.timeout (hd : d.Sound cfg F) :
    (d.act (tftpTimeout cfg)).Sound cfg F := by
  refine hd.act fun hnet => ?_
  have hr := hd.reading
  have hcount := hr.timeoutCount (d.client.timeoutCount + 1) d.client.netState
  unfold tftpTimeout
  simp only
  split
  · exact hd.keep (hr.timeoutCount _ .restart) rfl rfl (by simp [netStartAgain]) id (by simp)
  · split
    · rw [send_reading (by exact hr.writing)]
      exact hd.keep hcount rfl rfl (by simp [hnet]) id fun number hack =>
        hcount.settled (tftpSend_ack (Option.some.inj hack))
    · exact hd.keep hcount rfl rfl (by simp [hnet]) id (by simp)

theorem Transfer.oackBlkSize_eq (hF : F.oack.isSome)
    (hblk : n = tftpBlockSize ∨ n = F.blkSize) : oackBlkSize n (F.oack.getD []) = F.blkSize := by
  have hagreed := F.agreed
  cases hoack : F.oack with
  | none => simp [hoack] at hF
  | some options =>
    simp only [hoack] at hagreed
    rcases hblk with rfl | rfl
    · exact hagreed.1
    · exact hagreed.2

theorem Download.Sound.oack (hd : d.Sound cfg F) (hF : F.oack.isSome) :
    (d.act fun t => tftpHandler cfg t (be16 opOack ++ F.oack.getD []) cfg.port F.port).Sound
      cfg F := by
  refine hd.act fun hnet => ?_
  have hr := hd.reading
  rcases tftpHandler_be16 cfg d.client opOack (F.oack.getD []) cfg.port F.port with h | h
  · rw [h]
    exact hd.keep hr rfl rfl (by simp [hnet]) id (by simp)
  · have hblk := Transfer.oackBlkSize_eq hF hr.blkSize
    have hwriting : ¬ (d.client.writing = true) := by simp [hr.writing]
    rw [h, if_neg (by decide), if_pos (by decide)]
    simp only [handleOack, if_neg hwriting]
    rw [send_reading (by exact hr.writing)]
    exact hd.keep ⟨hr.writing, .inr (.inl rfl), .inr hblk, fun _ => hblk, fun hs => by cases hs⟩
      rfl rfl (by simp [hnet]) (fun _ => hblk) fun _ _ => hblk

theorem memcpy_block (memory : Nat → UInt8) (addr : Nat) (hj : j < (F.block i).length)
    (h : i = k ∨ memory (addr + F.start i + j) = (F.block i).getD j 0) :
    memcpy memory (addr + F.start k) (F.block k) (addr + F.start i + j) = (F.block i).getD j 0 := by
  unfold memcpy
  split
  case isTrue hin =>
    have hlt : addr + F.start i + j - (addr + F.start k) < (F.block k).length := by omega
    rw [Transfer.getD_block hlt, Transfer.getD_block hj]
    congr 1
    omega
  case isFalse hout =>
    refine h.resolve_left ?_
    rintro rfl
    omega

theorem Download.Sound.receive (hd : d.Sound cfg F) (h0 : 0 < k) (hk : k ≤ d.top)
    (hr : Receives cfg F k d.client r) : (d.receive k r).Sound cfg F := by
  have hblk := hd.settled (.inl (h0.trans_le hk))
  have hkl := hk.trans hd.top_le
  cases hr with
  | ignored reading memory xferSize blkSize loops =>
    exact hd.keep reading memory xferSize loops (fun _ => blkSize.trans hblk) (by simp)
  | @stored t' ack reading memory xferSize blkSize done =>
    have hend := Transfer.start_add_length_le h0 hkl
    refine ⟨reading, hd.top_le, fun _ => blkSize.trans hblk, ?_, ?_, ?_, ?_, ?_, ?_⟩
    · intro i hi
      rcases mem_cons.mp hi with rfl | hi
      · exact ⟨h0, hk⟩
      · exact hd.got_le i hi
    · exact fun i hi hlt => mem_cons_of_mem _ (hd.below i hi hlt)
    · intro i hi j hj
      refine (congrFun memory _).trans (memcpy_block _ _ hj ?_)
      rcases mem_cons.mp hi with rfl | hi
      · exact .inl rfl
      · exact .inr (hd.bytes i hi j hj)
    · exact xferSize.le.trans (max_le hd.size_le hend)
    · intro i hi
      refine le_trans ?_ xferSize.ge
      rcases mem_cons.mp hi with rfl | hi
      · exact le_max_right _ _
      · exact (hd.covers i hi).trans (le_max_left _ _)
    · intro hnet
      rw [← done hnet]
      exact mem_cons_self

theorem Download.Sound.data (hd : d.Sound cfg F) (h0 : 0 < k) (hk : k ≤ d.top)
    (hclear : Unmistaken d (.data k)) (hfit : F.file.length < 2 ^ 32)
    (haddr : cfg.loadAddr + F.file.length ≤ 2 ^ 32) (hnet : d.client.netState = .looping) :
    (d.receive k (tftpHandler cfg d.client (F.dataPacket k) cfg.port F.port)).Sound cfg F := by
  refine hd.receive h0 hk ?_
  have hblk := hd.settled (.inl (h0.trans_le hk))
  have hpkt : F.dataPacket k = be16 opData ++ (be16 k ++ F.block k) := append_assoc _ _ _
  rw [hpkt]
  rcases tftpHandler_be16 cfg d.client opData (be16 k ++ F.block k) cfg.port F.port with h | h
  · rw [h]
    exact .ignored hd.reading rfl rfl rfl (by simp [hnet])
  · rw [h, if_neg (by decide), if_neg (by decide), if_pos (by decide)]
    exact handleData_spec hd.reading hnet hblk h0 (hk.trans hd.top_le) hfit haddr hclear _

theorem Download.Sound.ack (hd : d.Sound cfg F) (hsent : be16 opAck ++ be16 number ∈ d.sent)
    (hclear : Unmistaken d (.ack number)) (hnumber : number = d.top % 2 ^ 16)
    (hlt : d.top < F.last) : Download.Sound cfg F { d with top := d.top + 1 } := by
  refine ⟨hd.reading, hlt, fun _ => hd.settled (.inr ⟨number, hsent⟩), fun i hi => ?_,
    fun i h0 hi => ?_, hd.bytes, hd.size_le, hd.covers, hd.done⟩
  · exact ⟨(hd.got_le i hi).1, (hd.got_le i hi).2.trans (Nat.le_succ _)⟩
  · rcases Nat.lt_succ_iff_lt_or_eq.mp hi with hi | rfl
    · exact hd.below i h0 hi
    · exact (hclear hnumber).resolve_left h0.ne'

theorem Download.Sound.step (hfit : F.file.length < 2 ^ 32)
    (haddr : cfg.loadAddr + F.file.length ≤ 2 ^ 32) (d : Download) (e : DownloadEvent)
    (hd : d.Sound cfg F) (he : Possible F d e ∧ Unmistaken d e) :
    ((downloadMachine cfg F).step d e).1.Sound cfg F := by
  obtain ⟨hposs, hclear⟩ := he
  cases e with
  | oack => exact hd.oack hposs
  | data k =>
    simp only [downloadMachine]
    split
    case isTrue hnet => exact hd.data hposs.1 hposs.2 hclear hfit haddr hnet
    case isFalse => exact hd
  | ack number =>
    simp only [downloadMachine]
    split
    case isTrue h => exact hd.ack hposs.2 hclear h.1 h.2
    case isFalse => exact hd
  | timeout => exact hd.timeout

/-! ## Whole transfers -/

def downloadStart (cfg : Config) (F : Transfer) (t : State) : Download :=
  ⟨(tftpStart cfg false t).1, if F.oack.isSome then 0 else 1, [(tftpStart cfg false t).2], []⟩

theorem Download.sound_start (cfg : Config) (F : Transfer) (t : State) :
    (downloadStart cfg F t).Sound cfg F := by
  have hclient : (downloadStart cfg F t).client.state = .sendRrq := by
    simp [downloadStart, tftpStart, tftpSend]
  have hblk : (downloadStart cfg F t).client.blkSize = tftpBlockSize := by
    simp [downloadStart, tftpStart, tftpSend]
  have hlast : 0 < F.last := Nat.succ_pos _
  refine ⟨⟨?_, .inl hclient, .inl hblk, fun h => absurd hclient h, fun h => ?_⟩, ?_, ?_, ?_, ?_, ?_,
    ?_, ?_, ?_⟩
  · simp [downloadStart, tftpStart, tftpSend]
  · cases hclient.symm.trans h
  · simp only [downloadStart]
    split <;> omega
  · rintro (htop | ⟨number, hmem⟩)
    · have hagreed := F.agreed
      cases hoack : F.oack with
      | none =>
        simp only [hoack] at hagreed
        exact hblk.trans hagreed.symm
      | some options => simp [downloadStart, hoack] at htop
    · simp only [downloadStart, mem_singleton] at hmem
      refine absurd ?_ (tftpSend_ack hmem.symm)
      simp
  · simp [downloadStart]
  · intro k h0 hlt
    simp only [downloadStart] at hlt
    split at hlt <;> omega
  · simp [downloadStart]
  · simp [downloadStart, tftpStart, tftpSend]
  · simp [downloadStart]
  · simp [downloadStart, tftpStart, tftpSend]

/-- A transfer that ends in success has delivered the file. -/
theorem tftp_download_delivers (cfg : Config) (F : Transfer) (t : State) (es : List DownloadEvent)
    (hfit : F.file.length < 2 ^ 32) (haddr : cfg.loadAddr + F.file.length ≤ 2 ^ 32)
    (hmeets : (downloadMachine cfg F).Meets (fun d e => Possible F d e ∧ Unmistaken d e)
      (downloadStart cfg F t) es)
    (hdone : ((downloadMachine cfg F).run (downloadStart cfg F t) es).1.client.netState = .success) :
    (∀ j < F.file.length, ((downloadMachine cfg F).run (downloadStart cfg F t) es).1.client.memory
        (cfg.loadAddr + j) = F.file.getD j 0) ∧
      ((downloadMachine cfg F).run (downloadStart cfg F t) es).1.client.xferSize =
        F.file.length := by
  have hd := Machine.invariant (Download.Sound.step hfit haddr) (Download.sound_start cfg F t) hmeets
  have hlast := hd.done hdone
  have htop := (hd.got_le _ hlast).2
  constructor
  · intro j hj
    obtain ⟨k, i, h0, hk, hi, rfl⟩ := Transfer.exists_block hj
    have hgot : k ∈ ((downloadMachine cfg F).run (downloadStart cfg F t) es).1.got := by
      rcases Nat.lt_or_eq_of_le hk with hlt | rfl
      · exact hd.below k h0 (hlt.trans_le htop)
      · exact hlast
    rw [← Nat.add_assoc, hd.bytes k hgot i hi, Transfer.getD_block hi]
  · exact Nat.le_antisymm hd.size_le (Transfer.start_last_add_length.ge.trans (hd.covers _ hlast))

def twelveBytes : Transfer where
  file := [1, 2, 3, 4, 5, 6, 7, 8, 9, 10, 11, 12]
  blkSize := 8
  blkSize_pos := by decide
  blkSize_lt := by decide
  oack := some (asciiz "blksize" ++ [0x38, 0])
  agreed := by decide +kernel
  port := 1069

def exampleConfig : Config := ⟨asciiz "uImage", 5000, 1468, 10, 0x80000000, 0x80000000, 12, 1025⟩

def exampleState : State :=
  ⟨.sendRrq, .looping, 0, 0, 0, 0, 0, 0, 0, 0, 512, false, false, fun _ => 0, 0⟩

theorem tftp_download_delivers_twelve :
    ((downloadMachine exampleConfig twelveBytes).run
      (downloadStart exampleConfig twelveBytes exampleState)
      [.oack, .ack 0, .timeout, .data 1, .ack 1, .data 1, .data 2]).1.client.xferSize = 12 :=
  (tftp_download_delivers exampleConfig twelveBytes exampleState _ (by decide) (by decide)
    (by decide +kernel) (by decide +kernel)).2

/-! ## A block with number 0 that comes twice -/

/-- The client has received the blocks up to `m` in order. -/
structure InOrder (cfg : Config) (F : Transfer) (m : Nat) (d : Download) : Prop where
  state : d.client.state = .data
  netState : d.client.netState = .looping
  writing : d.client.writing = false
  ourPort : d.client.ourPort = cfg.port
  remotePort : d.client.remotePort = F.port
  blkSize : d.client.blkSize = F.blkSize
  lastBlock : d.client.lastBlock = m % 2 ^ 16
  blockWrap : d.client.blockWrap = m / 2 ^ 16
  wraps : WrapsAgree F d.client
  top : d.top = m + 1

theorem handleData_next (cfg : Config) (hs : t.state = .data) (hw : t.writing = false)
    (hne : k % 2 ^ 16 ≠ t.lastBlock) (payload : List UInt8) (src : Nat) :
    ∃ t', t' = storeBlock cfg { updateBlockNumber { t with block := k % 2 ^ 16 } with
        lastBlock := k % 2 ^ 16, timeoutCountMax := timeoutCountDefault }
        (((k % 2 ^ 16 : Nat) : Int) - 1) payload ∧
      handleData cfg t (be16 k ++ payload) src =
        (if payload.length < t.blkSize then tftpComplete t' else t',
          some (be16 opAck ++ be16 (k % 2 ^ 16))) := by
  refine ⟨_, rfl, ?_⟩
  unfold handleData
  rw [if_neg (not_short_be16 _ _), ntohs_be16, drop_be16]
  simp only [updateBlockNumber_kept, hs]
  rw [if_neg (by simp)]
  have hne' : ¬ k % 65536 = t.lastBlock := hne
  simp [receiveBlock, hne', tftpSend, hw, storeBlock]

theorem handleData_first (cfg : Config) (hs : t.state = .sendRrq) (hw : t.writing = false)
    (payload : List UInt8) (src : Nat) :
    ∃ t', t' = storeBlock cfg { newTransfer { t with block := 1, state := .data, remotePort := src } with
        lastBlock := 1, timeoutCountMax := timeoutCountDefault } 0 payload ∧
      handleData cfg t (be16 1 ++ payload) src =
        (if payload.length < t.blkSize then tftpComplete t' else t',
          some (be16 opAck ++ be16 1)) := by
  refine ⟨_, rfl, ?_⟩
  unfold handleData
  rw [if_neg (not_short_be16 _ _), ntohs_be16, drop_be16]
  simp [updateBlockNumber, receiveBlock, newTransfer, hs, tftpSend, hw, storeBlock]

theorem tftpHandler_data (hdest : t.ourPort = dest) (hsrc : t.state = .sendRrq ∨ src = t.remotePort)
    (rest : List UInt8) :
    tftpHandler cfg t (be16 opData ++ rest) dest src = handleData cfg t rest src := by
  unfold tftpHandler
  rw [if_neg (by simp [hdest]), if_neg (by tauto), if_neg (not_short_be16 _ _)]
  simp only [ntohs_be16, drop_be16]
  rw [if_neg (by decide), if_neg (by decide), if_pos (by decide)]

def nextBlock (k : Nat) : List DownloadEvent := [.data k, .ack (k % 2 ^ 16)]

theorem InOrder.of_data (hlt : k < F.last) (htop : d.top = k) (hnet : d.client.netState = .looping)
    (hrun : tftpHandler cfg d.client (F.dataPacket k) cfg.port F.port =
      (t', some (be16 opAck ++ be16 (k % 2 ^ 16))))
    (hnext : InOrder cfg F k ⟨t', k + 1, (be16 opAck ++ be16 (k % 2 ^ 16)) :: d.sent, k :: d.got⟩)
    (h0 : 0 < k) : InOrder cfg F k ((downloadMachine cfg F).run d (nextBlock k)).1 ∧
      (downloadMachine cfg F).Meets (Possible F) d (nextBlock k) := by
  have hstep : ((downloadMachine cfg F).step d (.data k)).1 =
      ⟨t', d.top, (be16 opAck ++ be16 (k % 2 ^ 16)) :: d.sent, k :: d.got⟩ := by
    simp [downloadMachine, hnet, hrun, Download.receive, Download.after]
  simp only [nextBlock, Machine.run, Machine.Meets, hstep, htop]
  refine ⟨?_, ⟨h0, htop.ge⟩, ⟨Nat.mod_lt _ (by decide), mem_cons_self⟩, trivial⟩
  simpa [downloadMachine, hlt] using hnext

theorem InOrder.next (h : InOrder cfg F m d) (hlt : m + 1 < F.last)
    (hwrap : m / 2 ^ 16 + 1 < 2 ^ 32) :
    InOrder cfg F (m + 1) ((downloadMachine cfg F).run d (nextBlock (m + 1))).1 ∧
      (downloadMachine cfg F).Meets (Possible F) d (nextBlock (m + 1)) := by
  have hne : (m + 1) % 2 ^ 16 ≠ d.client.lastBlock := by
    rw [h.lastBlock]
    omega
  have hfull : ¬ (F.block (m + 1)).length < d.client.blkSize := by
    rw [h.blkSize, Transfer.length_block_lt_iff (Nat.succ_pos m) hlt.le]
    exact hlt.ne
  obtain ⟨t', ht', hrun⟩ := handleData_next cfg h.state h.writing hne (F.block (m + 1)) F.port
  rw [if_neg hfull, ← tftpHandler_data h.ourPort (.inr h.remotePort.symm)] at hrun
  refine InOrder.of_data hlt h.top h.netState ((congrArg (tftpHandler cfg _ · _ _) ?_).trans hrun) ?_
    (Nat.succ_pos m)
  · exact append_assoc _ _ _
  · subst ht'
    refine ⟨by simp [storeBlock, h.state], by simp [storeBlock, h.netState],
      by simp [storeBlock, h.writing], by simp [storeBlock, h.ourPort],
      by simp [storeBlock, h.remotePort], by simp [storeBlock, h.blkSize], rfl, ?_, ?_, rfl⟩
    · refine (blockWrap_update _ (by simpa [h.blockWrap] using hwrap)).trans ?_
      simp only [h.blockWrap]
      split <;> omega
    · exact wrapsAgree_update (t := { d.client with block := (m + 1) % 2 ^ 16 }) h.blkSize h.wraps

theorem inOrder_first (t : State) (hoack : F.oack = none) (hlt : 1 < F.last) :
    InOrder cfg F 1 ((downloadMachine cfg F).run (downloadStart cfg F t) (nextBlock 1)).1 ∧
      (downloadMachine cfg F).Meets (Possible F) (downloadStart cfg F t) (nextBlock 1) := by
  have hblk : F.blkSize = tftpBlockSize := by
    have hagreed := F.agreed
    simpa [hoack] using hagreed
  have hfull : ¬ (F.block 1).length < tftpBlockSize := by
    rw [← hblk, Transfer.length_block_lt_iff Nat.one_pos hlt.le]
    exact hlt.ne
  let d := downloadStart cfg F t
  have hstart : d.client.state = .sendRrq ∧ d.client.netState = .looping ∧
      d.client.writing = false ∧ d.client.ourPort = cfg.port ∧ d.client.blkSize = tftpBlockSize := by
    simp [d, downloadStart, tftpStart, tftpSend]
  obtain ⟨hs, hnet, hw, hport, hsize⟩ := hstart
  obtain ⟨t', ht', hrun⟩ := handleData_first cfg hs hw (F.block 1) F.port
  rw [hsize, if_neg hfull, ← tftpHandler_data hport (.inl hs)] at hrun
  refine InOrder.of_data hlt (by simp [downloadStart, hoack]) hnet
    ((congrArg (tftpHandler cfg _ · _ _) (append_assoc _ _ _)).trans hrun) ?_ Nat.one_pos
  subst ht'
  exact ⟨rfl, hnet, hw, hport, rfl, hsize.trans hblk.symm, rfl, rfl, by simp [WrapsAgree, storeBlock, newTransfer], rfl⟩

def blocksUpTo (m : Nat) : List DownloadEvent := (List.range m).flatMap fun i => nextBlock (i + 1)

theorem inOrder_upTo (t : State) (hoack : F.oack = none) (hlt : m + 1 < F.last)
    (hm : m < 2 ^ 32) :
    InOrder cfg F (m + 1)
        ((downloadMachine cfg F).run (downloadStart cfg F t) (blocksUpTo (m + 1))).1 ∧
      (downloadMachine cfg F).Meets (Possible F) (downloadStart cfg F t) (blocksUpTo (m + 1)) := by
  induction m with
  | zero => exact inOrder_first t hoack hlt
  | succ m ih =>
    obtain ⟨hord, hmeets⟩ := ih (by omega) (by omega)
    have hnext := hord.next hlt (by omega)
    have hsplit : blocksUpTo (m + 1 + 1) = blocksUpTo (m + 1) ++ nextBlock (m + 1 + 1) := by
      simp [blocksUpTo, range_succ]
    rw [hsplit, Machine.run_append, Machine.meets_append]
    exact ⟨hnext.1, hmeets, hnext.2⟩

theorem handleData_again (cfg : Config) (hs : t.state = .data) (heq : k % 2 ^ 16 = t.lastBlock)
    (payload : List UInt8) (src : Nat) : handleData cfg t (be16 k ++ payload) src =
      (updateBlockNumber { t with block := k % 2 ^ 16 }, none) := by
  unfold handleData
  rw [if_neg (not_short_be16 _ _), ntohs_be16, drop_be16]
  simp only [updateBlockNumber_kept, hs]
  rw [if_neg (by simp)]
  have heq' : k % 65536 = t.lastBlock := heq
  simp [receiveBlock, heq']

theorem InOrder.twice (h : InOrder cfg F m d) (hzero : m % 2 ^ 16 = 0) (hlast : m + 1 = F.last)
    (hwrap : m / 2 ^ 16 + 1 < 2 ^ 32) :
    ((downloadMachine cfg F).run d [.data m, .data (m + 1)]).1.client.netState = .success ∧
      ((m / 2 ^ 16 + 1) * (F.blkSize * sequenceSize) % 2 ^ 32 + (F.block (m + 1)).length) % 2 ^ 32 ≤
        ((downloadMachine cfg F).run d [.data m, .data (m + 1)]).1.client.xferSize := by
  let t := updateBlockNumber { d.client with block := m % 2 ^ 16 }
  have hstep : ((downloadMachine cfg F).step d (.data m)).1 = { d with client := t } := by
    have hrun := handleData_again cfg h.state h.lastBlock.symm (F.block m) F.port
    rw [← tftpHandler_data h.ourPort (.inr h.remotePort.symm), ← append_assoc] at hrun
    simp only [downloadMachine, if_pos h.netState, Transfer.dataPacket, hrun]
    rfl
  have hwraps : t.blockWrapOffset = (m / 2 ^ 16 + 1) * (F.blkSize * sequenceSize) % 2 ^ 32 := by
    have hagree : WrapsAgree F t := wrapsAgree_update h.blkSize h.wraps
    rw [hagree, blockWrap_update _ (by simpa only [h.blockWrap] using hwrap)]
    simp only [h.blockWrap, hzero, if_true]
  have hone : (m + 1) % 2 ^ 16 = 1 := by omega
  have ht : t.state = .data ∧ t.writing = false ∧ t.lastBlock = 0 ∧ t.blkSize = F.blkSize ∧
      t.ourPort = cfg.port ∧ t.remotePort = F.port ∧ t.netState = .looping := by
    simp only [t, updateBlockNumber_kept, h.state, h.writing, h.lastBlock, h.blkSize, h.ourPort,
      h.remotePort, h.netState, hzero, and_self]
  obtain ⟨hs, hw, hl, hb, hport, hremote, hnet⟩ := ht
  obtain ⟨t', ht', hrun⟩ := handleData_next cfg (k := m + 1) hs hw (by omega) (F.block (m + 1)) F.port
  have hshort : (F.block (m + 1)).length < t.blkSize := by
    rw [hb, Transfer.length_block_lt_iff (Nat.succ_pos m) hlast.le]
    exact hlast
  rw [← tftpHandler_data hport (.inr hremote.symm), ← append_assoc, if_pos hshort] at hrun
  simp only [Machine.run, hstep]
  simp only [downloadMachine, if_pos hnet, Transfer.dataPacket, hrun]
  refine ⟨rfl, ?_⟩
  have hoff : blockOffset { updateBlockNumber { t with block := (m + 1) % 2 ^ 16 } with
      lastBlock := (m + 1) % 2 ^ 16, timeoutCountMax := timeoutCountDefault }
      (((m + 1) % 2 ^ 16 : Nat) - 1) = (m / 2 ^ 16 + 1) * (F.blkSize * sequenceSize) % 2 ^ 32 := by
    rw [hone, Nat.cast_one, Int.sub_self, blockOffset_zero]
    simp only [updateBlockNumber, Nat.one_ne_zero, if_false, hwraps, Nat.mod_mod]
  rw [ht', ← hoff]
  simp only [Download.receive, Download.after, Option.isSome_some, if_true, tftpComplete, storeBlock]
  split <;> omega

theorem top_data (d : Download) (k : Nat) :
    ((downloadMachine cfg F).step d (.data k)).1.top = d.top := by
  simp only [downloadMachine, Download.receive, Download.after]
  split
  · split <;> rfl
  · rfl

def zeroTwice (m : Nat) : List DownloadEvent := blocksUpTo m ++ [.data m, .data (m + 1)]

theorem tftp_zero_twice (cfg : Config) (F : Transfer) (t : State) (hoack : F.oack = none)
    (hlast : F.last = 2 ^ 16 + 1) :
    (downloadMachine cfg F).Meets (Possible F) (downloadStart cfg F t) (zeroTwice (2 ^ 16)) ∧
      ((downloadMachine cfg F).run (downloadStart cfg F t) (zeroTwice (2 ^ 16))).1.client.netState =
        .success ∧
      2 * (F.blkSize * sequenceSize) % 2 ^ 32 ≤
        ((downloadMachine cfg F).run (downloadStart cfg F t)
          (zeroTwice (2 ^ 16))).1.client.xferSize := by
  obtain ⟨m, hm⟩ : ∃ m, m + 1 = 2 ^ 16 := ⟨65535, rfl⟩
  rw [← hm] at hlast ⊢
  have hinOrder : InOrder cfg F (m + 1) _ ∧ _ := inOrder_upTo t hoack (by omega) (by omega)
  obtain ⟨hord, hmeets⟩ := hinOrder
  have hshort : (F.block (m + 1 + 1)).length < F.blkSize :=
    (Transfer.length_block_lt_iff (Nat.succ_pos _) hlast.ge).mpr hlast.symm
  have hblk := F.blkSize_lt
  obtain ⟨hdone, hsize⟩ := hord.twice (by omega) hlast.symm (by omega)
  rw [zeroTwice, Machine.meets_append, Machine.run_append]
  refine ⟨⟨hmeets, ⟨Nat.succ_pos m, (Nat.le_succ _).trans hord.top.ge⟩, ⟨Nat.succ_pos _, ?_⟩,
    trivial⟩, hdone, le_trans ?_ hsize⟩
  · rw [top_data]
    exact hord.top.ge
  · have hone : (m + 1) / 2 ^ 16 = 1 := by omega
    rw [hone, sequenceSize]
    omega

def longFile : Transfer where
  file := List.replicate (2 ^ 16 * 512 + 1) 0
  blkSize := 512
  blkSize_pos := by decide
  blkSize_lt := by decide
  oack := none
  agreed := rfl
  port := 1069

theorem longFile_length : longFile.file.length = 2 ^ 16 * 512 + 1 := length_replicate

theorem longFile_last : longFile.last = 2 ^ 16 + 1 := by
  rw [Transfer.last, longFile_length]
  rfl

theorem tftp_download_misplaces :
    (downloadMachine exampleConfig longFile).Meets (Possible longFile)
        (downloadStart exampleConfig longFile exampleState) (zeroTwice (2 ^ 16)) ∧
      ((downloadMachine exampleConfig longFile).run
        (downloadStart exampleConfig longFile exampleState)
        (zeroTwice (2 ^ 16))).1.client.netState = .success ∧
      longFile.file.length < ((downloadMachine exampleConfig longFile).run
        (downloadStart exampleConfig longFile exampleState)
        (zeroTwice (2 ^ 16))).1.client.xferSize := by
  refine (tftp_zero_twice exampleConfig longFile exampleState rfl longFile_last).imp id
    (And.imp id (lt_of_lt_of_le ?_))
  have hsize : longFile.blkSize * sequenceSize = 2 ^ 25 := by decide
  rw [longFile_length, hsize]
  norm_num

end UBoot.Net.Tftp
