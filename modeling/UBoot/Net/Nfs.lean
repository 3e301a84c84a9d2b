import UBoot.Lib.Word32

/-!
# The NFS client

`net/nfs.c` without flash as a destination, with 32-bit words and pointers. Memory is addressed
from `load_addr` on. A packet comes with what lies behind its payload in memory and with what
the local `rpc_t` held before, and each reply function lists its copies and the bytes of
`rpc_t` it looks at. `nfs_path` points to the start of `nfs_path_buff`.
-/

namespace UBoot.Net.Nfs

open Word32

inductive NfsState
  | prclookupProgMountReq | prclookupProgNfsReq | mountReq | umountReq | lookupReq | readReq
  | readlinkReq
  deriving DecidableEq

inductive NetState
  | looping | restarted | success | fail
  deriving DecidableEq

inductive Request
  | getport (prog ver : Nat)
  | mount (path : List UInt8)
  | umountall
  | lookup (dirfh fname : List UInt8)
  | read (filefh : List UInt8) (offset readlen : Nat)
  | readlink (filefh : List UInt8)

structure Sent where
  id : Nat
  request : Request

structure Client where
  nfsState : NfsState
  netState : NetState
  rpcId : Nat
  nfsOffset : Nat
  nfsTimeoutCount : Nat
  nfsDownloadState : NetState
  nfsSrvMountPort : Nat
  nfsSrvNfsPort : Nat
  fsMounted : Bool
  dirfh : List UInt8
  filefh : List UInt8
  nfsPath : List UInt8
  nfsFilename : List UInt8
  memory : Nat → UInt8
  /-- `NetBootFileXferSize` -/
  xferSize : Nat

structure Packet where
  dest : Nat
  len : Nat
  pkt : Nat → UInt8
  stack : Nat → UInt8

def nfsOurPort : Nat := 1000

def nfsRetryCount : Nat := 30

def nfsFhsize : Nat := 32

def progNfs : Nat := 100003

def progMount : Nat := 100005

def pathSize : Nat := 2048

def rpcSize : Nat := 2048

def replySize : Nat := 100

/-! ## Requests -/

/-- What `NfsSend` sends. Nothing is unmounted if nothing is mounted. -/
def Client.request (readSize : Nat) (c : Client) : Option Request :=
  match c.nfsState with
  | .prclookupProgMountReq => some (.getport progMount 1)
  | .prclookupProgNfsReq => some (.getport progNfs 2)
  | .mountReq => some (.mount c.nfsPath)
  | .umountReq =>
    if c.nfsSrvMountPort = 2 ^ 32 - 1 ∨ c.fsMounted = false then none else some .umountall
  | .lookupReq => some (.lookup c.dirfh c.nfsFilename)
  | .readReq => some (.read c.filefh c.nfsOffset readSize)
  | .readlinkReq => some (.readlink c.filefh)

def nfsSend (readSize : Nat) (c : Client) : Client × Option Sent :=
  match c.request readSize with
  | none => (c, none)
  | some request =>
    let id := u32 (c.rpcId + 1)
    ({ c with rpcId := id }, some ⟨id, request⟩)

/-! ## Replies -/

inductive Access
  /-- Bytes of the packet are read. -/
  | fromPacket (start count : Nat)
  /-- The first bytes of the local `rpc_t` are written. -/
  | toRpc (count : Nat)
  /-- Bytes of the local `rpc_t` are read. -/
  | fromRpc (start count : Nat)
  /-- A file handle is written. -/
  | toHandle (count : Nat)
  /-- Bytes of `nfs_path_buff` are written. -/
  | toPath (start : Int) (count : Nat)
  /-- Bytes of the packet are copied to `load_addr`. -/
  | toLoad (start count : Nat)
  deriving DecidableEq

/-- The local `rpc_t` once `count` bytes of the packet are copied there. -/
def Packet.rpc (p : Packet) (count : Nat) : Nat → UInt8 :=
  fun k => if k < count then p.pkt k else p.stack k

def bytes (m : Nat → UInt8) (start count : Nat) : List UInt8 :=
  (List.range count).map fun k => m (start + k)

def word (m : Nat → UInt8) (k : Nat) : Nat :=
  (((m (4 * k)).toNat * 256 + (m (4 * k + 1)).toNat) * 256 + (m (4 * k + 2)).toNat) * 256 +
    (m (4 * k + 3)).toNat

def dataWord (m : Nat → UInt8) (i : Nat) : Nat := word m (6 + i)

def nfsRpcErr : Int := 1

def nfsRpcDrop : Int := 124

/-- The id, `rstatus`, `verifier` and `astatus`: what is returned unless they are as they should
be. The fields are looked at one by one. -/
def checkReply (rpcId : Nat) (rpc : Nat → UInt8) : Option Int × List Access :=
  if word rpc 0 > rpcId then (some (-nfsRpcErr), [.fromRpc 0 4])
  else if word rpc 0 < rpcId then (some (-nfsRpcDrop), [.fromRpc 0 4])
  else if word rpc 2 ≠ 0 then (some (-1), [.fromRpc 0 4, .fromRpc 8 4])
  else if word rpc 3 ≠ 0 then (some (-1), [.fromRpc 0 4, .fromRpc 8 4, .fromRpc 12 4])
  else if word rpc 5 ≠ 0 then
    (some (-1), [.fromRpc 0 4, .fromRpc 8 4, .fromRpc 12 4, .fromRpc 20 4])
  else (none, [.fromRpc 0 4, .fromRpc 8 4, .fromRpc 12 4, .fromRpc 20 4])

def checkStatus (rpcId : Nat) (rpc : Nat → UInt8) : Option Int × List Access :=
  match checkReply rpcId rpc with
  | (some code, looked) => (some code, looked)
  | (none, looked) =>
    (if dataWord rpc 0 ≠ 0 then some (-1) else none, looked ++ [.fromRpc 24 4])

def takeReply (c : Client) (p : Packet)
    (check : Nat → (Nat → UInt8) → Option Int × List Access)
    (accept : (Nat → UInt8) → Client × List Access) : Int × Client × List Access :=
  let copied : List Access := [.fromPacket 0 p.len, .toRpc p.len]
  match check c.rpcId (p.rpc p.len) with
  | (some code, looked) => (code, c, copied ++ looked)
  | (none, looked) =>
    let (c, made) := accept (p.rpc p.len)
    (0, c, copied ++ looked ++ made)

def rpcLookupReply (prog : Nat) (c : Client) (p : Packet) : Int × Client × List Access :=
  takeReply c p checkReply fun rpc =>
    (if prog = progMount then { c with nfsSrvMountPort := dataWord rpc 0 }
      else if prog = progNfs then { c with nfsSrvNfsPort := dataWord rpc 0 } else c,
      [.fromRpc 24 4])

def nfsMountReply (c : Client) (p : Packet) : Int × Client × List Access :=
  takeReply c p checkStatus fun rpc =>
    ({ c with fsMounted := true, dirfh := bytes rpc 28 nfsFhsize },
      [.fromRpc 28 nfsFhsize, .toHandle nfsFhsize])

def nfsUmountallReply (c : Client) (p : Packet) : Int × Client × List Access :=
  takeReply c p checkReply fun _ =>
    ({ c with fsMounted := false, dirfh := List.replicate nfsFhsize 0 }, [.toHandle nfsFhsize])

def nfsLookupReply (c : Client) (p : Packet) : Int × Client × List Access :=
  takeReply c p checkStatus fun rpc =>
    ({ c with filefh := bytes rpc 28 nfsFhsize },
      [.fromRpc 28 nfsFhsize, .toHandle nfsFhsize])

def cstring (s : List UInt8) : List UInt8 := s.takeWhile (· ≠ 0)

def slash : UInt8 := 47

/-- A relative link is appended to the path, an absolute one replaces it. The zero at the end is
placed by `rlen` as an `int`. -/
def takeLink (c : Client) (rpc : Nat → UInt8) : Client × List Access :=
  let rlen := dataWord rpc 1
  let link := bytes rpc 32 rlen
  if rpc 32 ≠ slash then
    let pathlen := c.nfsPath.length + 1
    ({ c with nfsPath := c.nfsPath ++ [slash] ++ cstring link },
      [.fromRpc 28 4, .fromRpc 32 1, .toPath c.nfsPath.length 2, .fromRpc 32 rlen,
        .toPath pathlen rlen, .toPath (pathlen + toInt rlen) 1])
  else
    ({ c with nfsPath := cstring link },
      [.fromRpc 28 4, .fromRpc 32 1, .fromRpc 32 rlen, .toPath 0 rlen, .toPath (toInt rlen) 1])

def nfsReadlinkReply (c : Client) (p : Packet) : Int × Client × List Access :=
  takeReply c p checkStatus (takeLink c)

def storeBlock (c : Client) (src : Nat → UInt8) (offset len : Nat) : Client :=
  let newsize := u32 (offset + len)
  { c with
    memory := fun a => if offset ≤ a ∧ a < offset + len then src (a - offset) else c.memory a
    xferSize := if c.xferSize < newsize then newsize else c.xferSize }

def nfsReadReply (c : Client) (p : Packet) : Int × Client × List Access :=
  let rpc := p.rpc replySize
  let copied : List Access := [.fromPacket 0 replySize, .toRpc replySize, .fromRpc 0 4]
  if word rpc 0 > c.rpcId then (-nfsRpcErr, c, copied)
  else if word rpc 0 < c.rpcId then (-nfsRpcDrop, c, copied)
  else
    let copied := copied ++ [.fromRpc 8 20]
    if word rpc 2 ≠ 0 ∨ word rpc 3 ≠ 0 ∨ word rpc 5 ≠ 0 ∨ dataWord rpc 0 ≠ 0 then
      if word rpc 2 ≠ 0 then (-9999, c, copied)
      else if word rpc 5 ≠ 0 then (-9999, c, copied)
      else (toInt (u32 (2 ^ 32 - dataWord rpc 0)), c, copied)
    else
      let rlen := dataWord rpc 18
      (toInt rlen, storeBlock c (fun k => p.pkt (replySize + k)) c.nfsOffset rlen,
        copied ++ [.fromRpc 96 4, .toLoad replySize rlen])

/-! ## Paths -/

def lastSlash (path : List UInt8) : Option Nat :=
  (path.reverse.findIdx? (· = slash)).map fun k => path.length - 1 - k

def basename (path : List UInt8) : Int :=
  match lastSlash path with
  | some k => k + 1
  | none => -1

/-- The zero goes in front of the base name. The string that begins there is not known if that is
in front of the path. -/
def splitPath (c : Client) : Client × List Access :=
  (match lastSlash c.nfsPath with
    | some k => { c with nfsFilename := c.nfsPath.drop (k + 1), nfsPath := c.nfsPath.take k }
    | none => { c with nfsFilename := [] },
    [.toPath (basename c.nfsPath - 1) 1])

/-! ## The handlers -/

def nfserrIsdir : Int := 21

def nfserrInval : Int := 22

def Client.proceed (readSize : Nat) (c : Client) (state : NfsState) : Client × Option Sent :=
  nfsSend readSize { c with nfsState := state }

def nfsHandler (readSize : Nat) (c : Client) (p : Packet) : Client × Option Sent × List Access :=
  let move (state : NfsState) (c : Client) (made : List Access) :
      Client × Option Sent × List Access :=
    let (c, sent) := c.proceed readSize state
    (c, sent, made)
  if p.dest ≠ nfsOurPort then (c, none, [])
  else
    match c.nfsState with
    | .prclookupProgMountReq =>
      let (reply, c, made) := rpcLookupReply progMount c p
      if reply = -nfsRpcDrop then (c, none, made) else move .prclookupProgNfsReq c made
    | .prclookupProgNfsReq =>
      let (reply, c, made) := rpcLookupReply progNfs c p
      if reply = -nfsRpcDrop then (c, none, made) else move .mountReq c made
    | .mountReq =>
      let (reply, c, made) := nfsMountReply c p
      if reply = -nfsRpcDrop then (c, none, made)
      else if reply = -nfsRpcErr then move .umountReq c made
      else move .lookupReq c made
    | .umountReq =>
      let (reply, c, made) := nfsUmountallReply c p
      if reply = -nfsRpcDrop then (c, none, made)
      else if reply = -nfsRpcErr then ({ c with netState := .fail }, none, made)
      else ({ c with netState := c.nfsDownloadState }, none, made)
    | .lookupReq =>
      let (reply, c, made) := nfsLookupReply c p
      if reply = -nfsRpcDrop then (c, none, made)
      else if reply = -nfsRpcErr then move .umountReq c made
      else move .readReq { c with nfsOffset := 0 } made
    | .readlinkReq =>
      let (reply, c, made) := nfsReadlinkReply c p
      if reply = -nfsRpcDrop then (c, none, made)
      else if reply = -nfsRpcErr then move .umountReq c made
      else
        let (c, cut) := splitPath c
        move .mountReq c (made ++ cut)
    | .readReq =>
      let (rlen, c, made) := nfsReadReply c p
      if rlen > 0 then move .readReq { c with nfsOffset := u32 (c.nfsOffset + rlen.toNat) } made
      else if rlen = -nfserrIsdir ∨ rlen = -nfserrInval then move .readlinkReq c made
      else if rlen = 0 then move .umountReq { c with nfsDownloadState := .success } made
      else move .umountReq c made

def nfsTimeout (readSize : Nat) (c : Client) : Client × Option Sent :=
  let c := { c with nfsTimeoutCount := c.nfsTimeoutCount + 1 }
  if c.nfsTimeoutCount > nfsRetryCount then ({ c with netState := .restarted }, none)
  else nfsSend readSize c

end UBoot.Net.Nfs
