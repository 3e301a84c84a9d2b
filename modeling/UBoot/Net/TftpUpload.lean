import UBoot.Net.TftpDownload

/-!
# An upload over an unreliable network

The client of `net/tftp.c`, a server that acknowledges each block that it has, and a network
that delivers any packet sent before, any number of times. Once the last block has been sent,
the client takes any acknowledgement for that of the last block.
-/

namespace UBoot.Net.Tftp

open List

def saved (cfg : Config) (memory : Nat → UInt8) : List UInt8 :=
  (List.range cfg.saveSize).map fun j => memory ((cfg.saveAddr + j) % 2 ^ 32)

def State.position (t : State) : Nat := t.blockWrap * 2 ^ 16 + t.block

/-- The client, the packets it has sent, each with the block it was at, the blocks
that the server has accepted, and those it has acknowledged. -/
structure Upload where
  client : State
  wire : List (Nat × List UInt8)
  accepted : List (List UInt8)
  acks : List Nat

inductive UploadEvent
  /-- The client receives the OACK. -/
  | oack
  /-- The client receives the acknowledgement of the block `k`. -/
  | ack (k : Nat)
  /-- The server receives the packet that was sent as number `i`. -/
  | data (i : Nat)
  | timeout

def Upload.after (u : Upload) (r : State × Option (List UInt8)) : Upload :=
  { u with client := r.1, wire := u.wire ++ r.2.toList.map fun packet => (r.1.position, packet) }

def Upload.act (u : Upload) (handler : State → State × Option (List UInt8)) : Upload :=
  if u.client.netState = .looping then u.after (handler u.client) else u

def Upload.awaits (F : Transfer) (u : Upload) (packet : List UInt8) : Prop :=
  ntohs packet = opData ∧ ntohs (packet.drop 2) = (u.accepted.length + 1) % 2 ^ 16 ∧
    ∀ block ∈ u.accepted, block.length = F.blkSize

instance (F : Transfer) (u : Upload) (packet : List UInt8) : Decidable (u.awaits F packet) :=
  inferInstanceAs (Decidable (_ ∧ _))

def repeatedBlock (count number : Nat) : Nat := count - (count + 2 ^ 16 - number) % 2 ^ 16

def Upload.receive (F : Transfer) (u : Upload) (packet : List UInt8) : Upload :=
  if u.awaits F packet then
    { u with accepted := u.accepted ++ [packet.drop 4], acks := (u.accepted.length + 1) :: u.acks }
  else if ntohs packet = opData ∧ 0 < repeatedBlock u.accepted.length (ntohs (packet.drop 2)) then
    { u with acks := repeatedBlock u.accepted.length (ntohs (packet.drop 2)) :: u.acks }
  else u

def uploadMachine (cfg : Config) (F : Transfer) : Machine Upload UploadEvent Unit where
  step u
    | .oack =>
      (u.act fun t => tftpHandler cfg t (be16 opOack ++ F.oack.getD []) cfg.port F.port, ())
    | .ack k => (u.act fun t => tftpHandler cfg t (be16 opAck ++ be16 k) cfg.port F.port, ())
    | .data i =>
      (match u.wire[i]? with
      | some (_, packet) => u.receive F packet
      | none => u, ())
    | .timeout => (u.act (tftpTimeout cfg), ())

def Upload.Possible (F : Transfer) (u : Upload) : UploadEvent → Prop
  | .oack => F.oack.isSome
  | .ack k => k ∈ u.acks
  | .data i => i < u.wire.length
  | .timeout => True

/-- Behind the last block only its acknowledgement comes, and the server takes no
other block for the one it waits for. -/
def Upload.Unmistaken (F : Transfer) (u : Upload) : UploadEvent → Prop
  | .ack k => u.client.finalBlock = true → k = F.last
  | .data i => ∀ w ∈ u.wire[i]?, u.awaits F w.2 → w.1 = u.accepted.length + 1
  | _ => True

instance (F : Transfer) (u : Upload) (e : UploadEvent) : Decidable (u.Possible F e) := by
  cases e <;> unfold Upload.Possible <;> infer_instance

instance (F : Transfer) (u : Upload) (e : UploadEvent) : Decidable (u.Unmistaken F e) := by
  cases e <;> unfold Upload.Unmistaken <;> infer_instance

def uploadStart (cfg : Config) (t : State) : Upload :=
  ⟨(tftpStart cfg true t).1, [(0, (tftpStart cfg true t).2)], [], [0]⟩

/-! ## The client -/

variable {cfg : Config} {F : Transfer} {t : State} {k : Nat} {memory : Nat → UInt8}

structure Writing (cfg : Config) (F : Transfer) (memory : Nat → UInt8) (t : State) : Prop where
  writing : t.writing = true
  state : t.state = .sendWrq ∨ t.state = .data
  blkSize : t.blkSize = tftpBlockSize ∨ t.blkSize = F.blkSize
  settled : t.state = .data → t.blkSize = F.blkSize
  unwrapped : t.state = .sendWrq → t.blockWrap = 0 ∧ t.blockWrapOffset = 0
  wraps : WrapsAgree F t
  memory : t.memory = memory
  xferSize : t.xferSize = cfg.saveSize

theorem length_saved (cfg : Config) (memory : Nat → UInt8) :
    (saved cfg memory).length = cfg.saveSize := by
  simp [saved]

theorem getD_saved (hj : j < cfg.saveSize) :
    (saved cfg memory).getD j 0 = memory ((cfg.saveAddr + j) % 2 ^ 32) := by
  simp [saved, getD_eq_getElem?_getD, getElem?_map, getElem?_range hj]

theorem loadBlock_eq (h : Writing cfg F memory t) (hs : t.state = .data)
    (hfile : F.file = saved cfg memory) (hfit : cfg.saveSize < 2 ^ 32)
    (h0 : 0 < t.position) (hk : t.position ≤ F.last) :
    loadBlock cfg t t.block t.blkSize = F.block t.position := by
  have hlen : F.file.length = cfg.saveSize := by rw [hfile, length_saved]
  have hstart := Transfer.start_le h0 hk
  have hoff : blockOffset t ((t.block : Int) - 1) = F.start t.position :=
    blockOffset_eq (h.settled hs) h.wraps rfl h0 (by omega)
  have hsize : (cfg.saveSize + 2 ^ 32 - F.start t.position) % 2 ^ 32 =
      F.file.length - F.start t.position := by omega
  unfold loadBlock
  simp only [hoff, h.xferSize, hsize, h.settled hs, h.memory]
  refine ext_getElem ?_ fun j hj hj' => ?_
  · rw [length_map, length_range, Transfer.length_block, Nat.min_comm]
  · rw [getElem_map, getElem_range, ← getD_eq_getElem _ 0 hj',
      Transfer.getD_block hj', hfile, getD_saved, Nat.add_assoc]
    rw [Transfer.length_block] at hj'
    omega

def Carries (F : Transfer) (w : Nat × List UInt8) : Prop :=
  ntohs w.2 = opData →
    ntohs (w.2.drop 2) = w.1 % 2 ^ 16 ∧ (0 < w.1 → w.1 ≤ F.last → w.2.drop 4 = F.block w.1)

theorem tftpSend_wrq (cfg : Config) (hs : t.state = .sendWrq) :
    ∃ rest, tftpSend cfg t = (t, be16 opWrq ++ rest) := by
  simp only [tftpSend, hs, append_assoc]
  exact ⟨_, rfl⟩

theorem tftpSend_data (cfg : Config) (hs : t.state = .data) (hw : t.writing = true) :
    ∃ final, tftpSend cfg t = ({ t with finalBlock := final },
      be16 opData ++ (be16 t.block ++ loadBlock cfg t t.block t.blkSize)) := by
  unfold tftpSend
  split
  case h_1 h => cases hs.symm.trans h
  case h_2 h => cases hs.symm.trans h
  case h_6 h => cases hs.symm.trans h
  case h_7 h => cases hs.symm.trans h
  all_goals
    rw [if_pos hw]
    simp only [append_assoc]
    exact ⟨_, rfl⟩

theorem Writing.finalBlock (h : Writing cfg F memory t) (final : Bool) :
    Writing cfg F memory { t with finalBlock := final } :=
  ⟨h.writing, h.state, h.blkSize, h.settled, h.unwrapped, h.wraps, h.memory, h.xferSize⟩

theorem Writing.send (h : Writing cfg F memory t) (hfile : F.file = saved cfg memory)
    (hfit : cfg.saveSize < 2 ^ 32) :
    Writing cfg F memory (tftpSend cfg t).1 ∧ (tftpSend cfg t).1.netState = t.netState ∧
      (tftpSend cfg t).1.state = t.state ∧
      Carries F ((tftpSend cfg t).1.position, (tftpSend cfg t).2) ∧
      (t.state = .sendWrq → ntohs (tftpSend cfg t).2 ≠ opData) := by
  rcases h.state with hs | hs
  · obtain ⟨rest, hsend⟩ := tftpSend_wrq cfg hs
    have hop : ntohs (be16 opWrq ++ rest) ≠ opData := by
      rw [ntohs_be16]
      decide
    rw [hsend]
    exact ⟨h, rfl, rfl, fun hdata => absurd hdata hop, fun _ => hop⟩
  · obtain ⟨final, hsend⟩ := tftpSend_data cfg hs h.writing
    have hpos : State.position { t with finalBlock := final } = t.position := rfl
    rw [hsend]
    refine ⟨h.finalBlock _, rfl, rfl, fun _ => ?_, fun h' => ?_⟩
    simp only [hpos]
    refine ⟨?_, fun h0 hk => ?_⟩
    · rw [drop_be16, ntohs_be16, State.position, Nat.mul_comm, Nat.mul_add_mod]
    · have hload := loadBlock_eq h hs hfile hfit h0 hk
      rw [hload]
      rfl
    · cases hs.symm.trans h'

theorem Writing.acknowledged (h : Writing cfg F memory t) (hk : t.state = .sendWrq → k = 0) :
    Writing cfg F memory (updateBlockNumber { t with block := (k % 2 ^ 16 + 1) % 2 ^ 16 }) := by
  rcases h.state with hs | hs
  · have hone : updateBlockNumber { t with block := (k % 2 ^ 16 + 1) % 2 ^ 16 } =
        { t with block := 1 } := by
      rw [hk hs]
      rfl
    rw [hone]
    exact ⟨h.writing, h.state, h.blkSize, h.settled, h.unwrapped, h.wraps, h.memory, h.xferSize⟩
  · have hblk := h.settled hs
    refine ⟨?_, ?_, ?_, ?_, ?_, wrapsAgree_update hblk h.wraps, ?_, ?_⟩
    · simpa using h.writing
    · simp [hs]
    · simp [hblk]
    · simp [hblk]
    · simp [hs]
    · simpa using h.memory
    · simpa using h.xferSize

/-! ## What every step keeps -/

structure Upload.Sound (cfg : Config) (F : Transfer) (memory : Nat → UInt8) (u : Upload) : Prop where
  writing : Writing cfg F memory u.client
  wire : ∀ w ∈ u.wire, Carries F w
  /-- Nothing has been sent before the options are settled. -/
  unsent : u.client.state = .sendWrq → (∀ w ∈ u.wire, ntohs w.2 ≠ opData) ∧ ∀ k ∈ u.acks, k = 0
  accepted : u.accepted = (List.range u.accepted.length).map fun i => F.block (i + 1)
  accepted_le : u.accepted.length ≤ F.last
  acks : ∀ k ∈ u.acks, k ≤ u.accepted.length
  done : u.client.netState = .success → F.last ≤ u.accepted.length

variable {u : Upload}

theorem Upload.Sound.after (hu : u.Sound cfg F memory) (hw : Writing cfg F memory r.1)
    (hcarries : ∀ packet ∈ r.2, Carries F (r.1.position, packet)) (hstate : r.1.state = .sendWrq →
      u.client.state = .sendWrq ∧ ∀ packet ∈ r.2, ntohs packet ≠ opData)
    (hdone : r.1.netState = .success → F.last ≤ u.accepted.length) :
    (u.after r).Sound cfg F memory where
  writing := hw
  wire := by
    intro w hmem
    simp only [Upload.after, mem_append, mem_map, Option.mem_toList] at hmem
    rcases hmem with hmem | ⟨packet, hpacket, rfl⟩
    · exact hu.wire w hmem
    · exact hcarries packet hpacket
  unsent := by
    intro hs
    obtain ⟨hs', hpackets⟩ := hstate hs
    obtain ⟨hwire, hacks⟩ := hu.unsent hs'
    refine ⟨fun w hmem => ?_, hacks⟩
    simp only [Upload.after, mem_append, mem_map, Option.mem_toList] at hmem
    rcases hmem with hmem | ⟨packet, hpacket, rfl⟩
    · exact hwire w hmem
    · exact hpackets packet hpacket
  accepted := hu.accepted
  accepted_le := hu.accepted_le
  acks := hu.acks
  done := hdone

theorem Upload.Sound.act (hu : u.Sound cfg F memory)
    (h : u.client.netState = .looping → (u.after (handler u.client)).Sound cfg F memory) :
    (u.act handler).Sound cfg F memory := by
  unfold Upload.act
  split
  case isTrue hnet => exact h hnet
  case isFalse => exact hu

theorem Upload.Sound.send (hu : u.Sound cfg F memory) (hfile : F.file = saved cfg memory)
    (hfit : cfg.saveSize < 2 ^ 32) (hw : Writing cfg F memory t)
    (hstate : t.state = .sendWrq → u.client.state = .sendWrq) (hnet : t.netState = .looping) :
    (u.after (send cfg t)).Sound cfg F memory := by
  obtain ⟨hw', hnet', hstate', hcarries, hop⟩ := hw.send hfile hfit
  refine hu.after hw' ?_ (fun hs => ⟨hstate (hstate'.symm.trans hs), ?_⟩) fun hdone => ?_
  · intro packet hpacket
    obtain rfl : (tftpSend cfg t).2 = packet := Option.some.inj hpacket
    exact hcarries
  · intro packet hpacket
    obtain rfl : (tftpSend cfg t).2 = packet := Option.some.inj hpacket
    exact hop (hstate'.symm.trans hs)
  · have hloop : (tftpSend cfg t).1.netState = .looping := hnet'.trans hnet
    have hsucc : (tftpSend cfg t).1.netState = .success := hdone
    rw [hloop] at hsucc
    cases hsucc

section
variable (hu : u.Sound cfg F memory) (hfile : F.file = saved cfg memory)
  (hfit : cfg.saveSize < 2 ^ 32)
include hu hfile hfit

omit hfile hfit in
theorem Upload.Sound.ignore (hnet : u.client.netState = .looping) :
    (u.after (u.client, none)).Sound cfg F memory :=
  hu.after hu.writing (by simp) (fun hs => ⟨hs, by simp⟩) fun hdone => by
    cases hnet.symm.trans hdone

theorem Upload.Sound.timeout : (u.act (tftpTimeout cfg)).Sound cfg F memory := by
  refine hu.act fun hnet => ?_
  have hw := hu.writing
  have hcount (n : Nat) (s : NetState) :
      Writing cfg F memory { u.client with timeoutCount := n, netState := s } :=
    ⟨hw.writing, hw.state, hw.blkSize, hw.settled, hw.unwrapped, hw.wraps, hw.memory, hw.xferSize⟩
  unfold tftpTimeout
  simp only
  split
  · exact hu.after (hcount _ .restart) (by simp) (fun hs => ⟨hs, by simp⟩) fun hdone => by
      cases hdone
  · split
    · exact hu.send hfile hfit (hcount _ _) id hnet
    · exact hu.after (hcount _ _) (by simp) (fun hs => ⟨hs, by simp⟩) fun hdone => by
        cases hnet.symm.trans hdone

theorem Upload.Sound.oack (hF : F.oack.isSome) :
    (u.act fun t => tftpHandler cfg t (be16 opOack ++ F.oack.getD []) cfg.port F.port).Sound
      cfg F memory := by
  refine hu.act fun hnet => ?_
  have hw := hu.writing
  rcases tftpHandler_be16 cfg u.client opOack (F.oack.getD []) cfg.port F.port with h | h
  · rw [h]
    exact hu.ignore hnet
  · have hblk := Transfer.oackBlkSize_eq hF hw.blkSize
    rw [h, if_neg (by decide), if_pos (by decide)]
    simp only [handleOack, if_pos hw.writing]
    refine hu.send hfile hfit ⟨hw.writing, .inr rfl, .inr hblk, fun _ => hblk, fun hs => ?_,
      hw.wraps, hw.memory, hw.xferSize⟩ (fun hs => ?_) hnet
    · cases hs
    · cases hs

theorem Upload.Sound.ack (hk : k ∈ u.acks) (hclear : u.Unmistaken F (.ack k)) :
    (u.act fun t => tftpHandler cfg t (be16 opAck ++ be16 k) cfg.port F.port).Sound
      cfg F memory := by
  refine hu.act fun hnet => ?_
  have hw := hu.writing
  rcases tftpHandler_be16 cfg u.client opAck (be16 k) cfg.port F.port with h | h
  · rw [h]
    exact hu.ignore hnet
  · rw [h, if_pos (by decide), handleAck, if_pos hw.writing]
    split
    case isTrue hfinal =>
      refine hu.after ⟨hw.writing, hw.state, hw.blkSize, hw.settled, hw.unwrapped, hw.wraps,
        hw.memory, hw.xferSize⟩ (by simp) (fun hs => ⟨hs, by simp⟩) fun _ => ?_
      rw [← hclear hfinal]
      exact hu.acks k hk
    case isFalse =>
      have hnumber : ntohs (be16 k) = k % 2 ^ 16 := by
        rw [← append_nil (be16 k), ntohs_be16]
      simp only [hnumber]
      have hw' : Writing cfg F memory
          (updateBlockNumber { u.client with block := (k % 2 ^ 16 + 1) % 2 ^ 16 }) :=
        hw.acknowledged fun hs => (hu.unsent hs).2 k hk
      split
      · refine hu.send hfile hfit hw' ?_ ?_
        · simp
        · simpa using hnet
      · refine hu.after hw' (by simp) (fun hs => ⟨?_, by simp⟩) fun hdone => ?_
        · simpa using hs
        · rw [(updateBlockNumber_kept _).2.1] at hdone
          cases hnet.symm.trans hdone

end

theorem Upload.Sound.lt_last (hu : u.Sound cfg F memory) (h : u.awaits F packet) :
    u.accepted.length < F.last := by
  refine Nat.lt_of_le_of_ne hu.accepted_le fun heq => ?_
  have hlast : F.block F.last ∈ u.accepted := by
    rw [hu.accepted, heq, mem_map]
    exact ⟨F.last - 1, mem_range.mpr (Nat.sub_lt (Nat.succ_pos _) Nat.one_pos), rfl⟩
  have hshort := (Transfer.length_block_lt_iff (F := F) (Nat.succ_pos _) le_rfl).mpr rfl
  exact absurd (h.2.2 _ hlast) hshort.ne

theorem Upload.Sound.receive (hu : u.Sound cfg F memory) (hw : w ∈ u.wire)
    (hclear : u.awaits F w.2 → w.1 = u.accepted.length + 1) :
    (u.receive F w.2).Sound cfg F memory := by
  unfold Upload.receive
  split
  case isTrue h =>
    have hlt := hu.lt_last h
    have hpayload : w.2.drop 4 = F.block (u.accepted.length + 1) := by
      rw [← hclear h]
      exact (hu.wire w hw h.1).2 (by rw [hclear h]; exact Nat.succ_pos _)
        (by rw [hclear h]; exact hlt)
    refine ⟨hu.writing, hu.wire, fun hs => ?_, ?_, ?_, fun k hk => ?_, fun hdone => ?_⟩
    · exact absurd h.1 ((hu.unsent hs).1 w hw)
    · rw [length_append, length_singleton, range_succ, map_append, ← hu.accepted]
      rw [hpayload]
      rfl
    · rw [length_append, length_singleton]
      exact hlt
    · rw [length_append, length_singleton]
      rcases mem_cons.mp hk with rfl | hk
      · exact le_rfl
      · exact (hu.acks k hk).trans (Nat.le_succ _)
    · exact absurd (hu.done hdone) (Nat.not_le_of_lt hlt)
  case isFalse =>
    split
    case isTrue h =>
      refine ⟨hu.writing, hu.wire, fun hs => ?_, hu.accepted, hu.accepted_le, fun k hk => ?_,
        hu.done⟩
      · exact absurd h.1 ((hu.unsent hs).1 w hw)
      · rcases mem_cons.mp hk with rfl | hk
        · exact Nat.sub_le _ _
        · exact hu.acks k hk
    case isFalse => exact hu

theorem Upload.Sound.step (hfile : F.file = saved cfg memory) (hfit : cfg.saveSize < 2 ^ 32)
    (u : Upload) (e : UploadEvent) (hu : u.Sound cfg F memory)
    (he : u.Possible F e ∧ u.Unmistaken F e) :
    ((uploadMachine cfg F).step u e).1.Sound cfg F memory := by
  obtain ⟨hposs, hclear⟩ := he
  cases e with
  | oack => exact hu.oack hfile hfit hposs
  | ack k => exact hu.ack hfile hfit hposs hclear
  | data i =>
    simp only [uploadMachine]
    split
    case h_1 p packet hi =>
      exact hu.receive (w := (p, packet)) (mem_of_getElem? hi) (hclear (p, packet) hi)
    case h_2 => exact hu
  | timeout => exact hu.timeout hfile hfit

theorem Upload.sound_start (cfg : Config) (F : Transfer) (t : State) :
    (uploadStart cfg t).Sound cfg F t.memory := by
  have hs : (uploadStart cfg t).client.state = .sendWrq := by
    simp [uploadStart, tftpStart, tftpSend, newTransfer]
  have hop : ∀ w ∈ (uploadStart cfg t).wire, ntohs w.2 ≠ opData := by
    obtain ⟨t₀, hstart, hs₀⟩ : ∃ t₀, tftpStart cfg true t = tftpSend cfg t₀ ∧
        t₀.state = .sendWrq := by
      simp only [tftpStart]
      exact ⟨_, rfl, rfl⟩
    obtain ⟨rest, hsend⟩ := tftpSend_wrq cfg hs₀
    simp only [uploadStart, mem_singleton, forall_eq, hstart, hsend, ntohs_be16]
    decide
  refine ⟨⟨?_, .inl hs, .inl ?_, ?_, ?_, ?_, ?_, ?_⟩, fun w hw h => absurd h (hop w hw),
    fun _ => ⟨hop, ?_⟩, ?_, ?_, ?_, ?_⟩
  all_goals simp [uploadStart, tftpStart, tftpSend, newTransfer, WrapsAgree]

theorem Transfer.flatten_blocks (F : Transfer) :
    ((List.range F.last).map fun i => F.block (i + 1)).flatten = F.file := by
  have htake (n : Nat) : ((range n).map fun i => F.block (i + 1)).flatten =
      F.file.take (n * F.blkSize) := by
    induction n with
    | zero => simp
    | succ n ih =>
      rw [range_succ, map_append, flatten_append, ih, Nat.succ_mul, take_add]
      simp [Transfer.block, Transfer.start]
  rw [htake, take_of_length_le]
  have hlast := Transfer.length_lt_start_last (F := F)
  rw [← Transfer.start_succ (k := F.last) (Nat.succ_pos _), Transfer.start,
    Nat.add_sub_cancel] at hlast
  exact hlast.le

/-- When the client reports success, the server has every block, and they make up
what was to be saved. -/
theorem tftp_upload_complete (cfg : Config) (F : Transfer) (t : State) (es : List UploadEvent)
    (hfile : F.file = saved cfg t.memory) (hfit : cfg.saveSize < 2 ^ 32)
    (hmeets : (uploadMachine cfg F).Meets (fun u e => u.Possible F e ∧ u.Unmistaken F e)
      (uploadStart cfg t) es)
    (hdone : ((uploadMachine cfg F).run (uploadStart cfg t) es).1.client.netState = .success) :
    ((uploadMachine cfg F).run (uploadStart cfg t) es).1.accepted =
        (List.range F.last).map (fun i => F.block (i + 1)) ∧
      ((uploadMachine cfg F).run (uploadStart cfg t) es).1.accepted.flatten =
        saved cfg t.memory := by
  have hu := Machine.invariant (Upload.Sound.step hfile hfit) (Upload.sound_start cfg F t) hmeets
  have hall := Nat.le_antisymm hu.accepted_le (hu.done hdone)
  have haccepted := hu.accepted
  rw [hall] at haccepted
  refine ⟨haccepted, ?_⟩
  rw [haccepted, F.flatten_blocks, hfile]

def twelveInMemory : State :=
  { exampleState with memory := fun a => UInt8.ofNat (a - 0x80000000 + 1) }

theorem tftp_upload_complete_twelve :
    ((uploadMachine exampleConfig twelveBytes).run (uploadStart exampleConfig twelveInMemory)
      [.oack, .timeout, .data 1, .ack 1, .data 3, .ack 2]).1.accepted.flatten =
      saved exampleConfig twelveInMemory.memory :=
  (tftp_upload_complete exampleConfig twelveBytes twelveInMemory _ (by decide +kernel) (by decide)
    (by decide +kernel) (by decide +kernel)).2

/-- The acknowledgement of the first block comes twice, and the second block is
lost. -/
theorem tftp_upload_completes_early :
    (uploadMachine exampleConfig twelveBytes).Meets (Upload.Possible twelveBytes)
        (uploadStart exampleConfig twelveInMemory) [.oack, .data 1, .ack 1, .ack 1] ∧
      ((uploadMachine exampleConfig twelveBytes).run (uploadStart exampleConfig twelveInMemory)
        [.oack, .data 1, .ack 1, .ack 1]).1.client.netState = .success ∧
      ((uploadMachine exampleConfig twelveBytes).run (uploadStart exampleConfig twelveInMemory)
        [.oack, .data 1, .ack 1, .ack 1]).1.accepted.length < twelveBytes.last := by
  decide +kernel

end UBoot.Net.Tftp
