import UBoot.Text.Strto

/-!
# TFTP

`net/tftp.c` with `CONFIG_CMD_TFTPPUT`, without multicast, `CONFIG_TFTP_TSIZE`,
`CONFIG_CMD_TFTPSRV` and flash as a destination. Packets are the bytes of the
UDP payload. A `ulong` and a pointer have 32 bits.
-/

namespace UBoot.Net.Tftp

open UBoot.Text (simpleStrtoul decimal)

inductive TftpState
  | sendRrq | data | tooLarge | badMagic | oack | recvWrq | sendWrq
  deriving DecidableEq

inductive NetState
  | looping | restart | success | fail
  deriving DecidableEq

structure Config where
  filename : List UInt8
  timeoutMSecs : Nat
  blkSizeOption : Nat
  rrqTimeoutCountMax : Nat
  loadAddr : Nat
  saveAddr : Nat
  saveSize : Nat
  port : Nat

structure State where
  state : TftpState
  netState : NetState
  remotePort : Nat
  ourPort : Nat
  timeoutCount : Nat
  timeoutCountMax : Nat
  block : Nat
  lastBlock : Nat
  blockWrap : Nat
  blockWrapOffset : Nat
  blkSize : Nat
  writing : Bool
  finalBlock : Bool
  memory : Nat → UInt8
  /-- `NetBootFileXferSize` -/
  xferSize : Nat

def wellKnownPort : Nat := 69

def timeoutCountDefault : Nat := 10

def tftpBlockSize : Nat := 512

def sequenceSize : Nat := 2 ^ 16

/-! ## Blocks -/

def blockOffset (t : State) (block : Int) : Nat :=
  ((block * t.blkSize + t.blockWrapOffset) % 2 ^ 32).toNat

def memcpy (memory : Nat → UInt8) (dst : Nat) (src : List UInt8) : Nat → UInt8 := fun a =>
  if dst ≤ a ∧ a < dst + src.length then src.getD (a - dst) 0 else memory a

def storeBlock (cfg : Config) (t : State) (block : Int) (src : List UInt8) : State :=
  let offset := blockOffset t block
  let newsize := (offset + src.length) % 2 ^ 32
  { t with
    memory := memcpy t.memory ((cfg.loadAddr + offset) % 2 ^ 32) src
    xferSize := if t.xferSize < newsize then newsize else t.xferSize }

def newTransfer (t : State) : State :=
  { t with lastBlock := 0, blockWrap := 0, blockWrapOffset := 0, finalBlock := false }

def loadBlock (cfg : Config) (t : State) (block len : Nat) : List UInt8 :=
  let offset := blockOffset t ((block : Int) - 1)
  let tosend := min ((t.xferSize + 2 ^ 32 - offset) % 2 ^ 32) len
  (List.range tosend).map fun j => t.memory ((cfg.saveAddr + offset + j) % 2 ^ 32)

def netStartAgain (t : State) : State := { t with netState := .restart }

def updateBlockNumber (t : State) : State :=
  if t.block = 0 then
    { t with
      blockWrap := (t.blockWrap + 1) % 2 ^ 32
      blockWrapOffset := (t.blockWrapOffset + t.blkSize * sequenceSize) % 2 ^ 32
      timeoutCount := 0 }
  else t

def tftpComplete (t : State) : State := { t with netState := .success }

/-! ## Packets -/

def be16 (n : Nat) : List UInt8 := [UInt8.ofNat (n / 256), UInt8.ofNat n]

def ntohs (pkt : List UInt8) : Nat := (pkt.getD 0 0).toNat * 256 + (pkt.getD 1 0).toNat

def opRrq : Nat := 1
def opWrq : Nat := 2
def opData : Nat := 3
def opAck : Nat := 4
def opError : Nat := 5
def opOack : Nat := 6

def asciiz (s : String) : List UInt8 := s.toList.map (fun c => UInt8.ofNat c.toNat) ++ [0]

def tftpSend (cfg : Config) (t : State) : State × List UInt8 :=
  match t.state with
  | .sendRrq | .sendWrq =>
    (t, be16 (if t.state = .sendRrq then opRrq else opWrq) ++ cfg.filename ++ [0] ++
      asciiz "octet" ++ asciiz "timeout" ++ decimal (cfg.timeoutMSecs / 1000) ++ [0] ++
      asciiz "blksize" ++ decimal cfg.blkSizeOption ++ [0])
  | .oack | .recvWrq | .data =>
    if t.writing then
      let loaded := loadBlock cfg t t.block t.blkSize
      ({ t with finalBlock := loaded.length < t.blkSize }, be16 opData ++ be16 t.block ++ loaded)
    else (t, be16 opAck ++ be16 t.block)
  | .tooLarge => (t, be16 opError ++ be16 3 ++ asciiz "File too large")
  | .badMagic => (t, be16 opError ++ be16 2 ++ asciiz "File has bad magic")

def oackBlkSize (blkSize : Nat) : List UInt8 → Nat
  | [] => blkSize
  | c :: pkt =>
    if 8 < (c :: pkt).length ∧ (c :: pkt).take 8 = asciiz "blksize" then
      oackBlkSize ((simpleStrtoul 10 ((c :: pkt).drop 8)).1 % 2 ^ 16) pkt
    else oackBlkSize blkSize pkt

/-! ## TftpHandler and TftpTimeout -/

def send (cfg : Config) (t : State) : State × Option (List UInt8) :=
  ((tftpSend cfg t).1, some (tftpSend cfg t).2)

def handleAck (cfg : Config) (t : State) (pkt : List UInt8) : State × Option (List UInt8) :=
  if t.writing then
    if t.finalBlock then (tftpComplete t, none)
    else
      let block := ntohs pkt
      let ackOk := t.block = block
      let t := updateBlockNumber { t with block := (block + 1) % 2 ^ 16 }
      if ackOk then send cfg t else (t, none)
  else (t, none)

def handleOack (cfg : Config) (t : State) (pkt : List UInt8) (src : Nat) :
    State × Option (List UInt8) :=
  let t := { t with state := .oack, remotePort := src, blkSize := oackBlkSize t.blkSize pkt }
  send cfg (if t.writing then { t with state := .data, block := (t.block + 1) % 2 ^ 32 } else t)

def receiveBlock (cfg : Config) (t : State) (payload : List UInt8) : State × Option (List UInt8) :=
  if t.block = t.lastBlock then (t, none)
  else
    let t := { t with lastBlock := t.block, timeoutCountMax := timeoutCountDefault }
    let (t, ack) := tftpSend cfg (storeBlock cfg t ((t.block : Int) - 1) payload)
    (if payload.length < t.blkSize then tftpComplete t else t, some ack)

def handleData (cfg : Config) (t : State) (pkt : List UInt8) (src : Nat) :
    State × Option (List UInt8) :=
  if pkt.length < 2 then (t, none)
  else
    let payload := pkt.drop 2
    let t := updateBlockNumber { t with block := ntohs pkt }
    if t.state = .sendRrq ∨ t.state = .oack ∨ t.state = .recvWrq then
      -- first block received
      let t := newTransfer { t with state := .data, remotePort := src }
      if t.block ≠ 1 then (netStartAgain t, none) else receiveBlock cfg t payload
    else receiveBlock cfg t payload

def handleError (t : State) (pkt : List UInt8) : State × Option (List UInt8) :=
  let code := ntohs pkt
  if code = 1 ∨ code = 2 then ({ t with netState := .fail }, none) else (netStartAgain t, none)

def tftpHandler (cfg : Config) (t : State) (pkt : List UInt8) (dest src : Nat) :
    State × Option (List UInt8) :=
  if dest ≠ t.ourPort then (t, none)
  else if t.state ≠ .sendRrq ∧ src ≠ t.remotePort ∧ t.state ≠ .recvWrq ∧ t.state ≠ .sendWrq then
    (t, none)
  else if pkt.length < 2 then (t, none)
  else
    let proto := ntohs pkt
    let pkt := pkt.drop 2
    if proto = opAck then handleAck cfg t pkt
    else if proto = opOack then handleOack cfg t pkt src
    else if proto = opData then handleData cfg t pkt src
    else if proto = opError then handleError t pkt
    else (t, none)

def tftpTimeout (cfg : Config) (t : State) : State × Option (List UInt8) :=
  let t := { t with timeoutCount := t.timeoutCount + 1 }
  if t.timeoutCountMax < t.timeoutCount then (netStartAgain t, none)
  else if t.state ≠ .recvWrq then send cfg t
  else (t, none)

/-- `TftpStart`, called by `NetLoop`, which has set `NetBootFileXferSize` to 0. -/
def tftpStart (cfg : Config) (put : Bool) (t : State) : State × List UInt8 :=
  let t := { t with netState := .looping, writing := put, xferSize := 0 }
  let t :=
    if put then newTransfer { t with xferSize := cfg.saveSize, state := .sendWrq }
    else { t with state := .sendRrq }
  tftpSend cfg { t with
    timeoutCount := 0
    timeoutCountMax := cfg.rrqTimeoutCountMax
    remotePort := wellKnownPort
    ourPort := cfg.port
    block := 0
    blkSize := tftpBlockSize }

end UBoot.Net.Tftp
