import Mathlib

/-!
# BOOTP and DHCP replies

`net/bootp.c` as far as it takes a reply apart, without and with DHCP, with the
`copy_filename` of `net/net.c`. `CONFIG_BOOTP_VENDOREX` and what is sent in reply are left out.
A packet is the memory from its payload on. A read behind its `len` bytes, or a write behind
an array, is a `Fault` in every function but the two handlers. A `ulong` has 32 bits.
-/

namespace UBoot.Net.Bootp

abbrev Packet := Nat → UInt8

abbrev CharArray := Nat → UInt8

inductive Fault
  | read
  | write
  deriving DecidableEq

inductive DhcpState
  | init | initReboot | rebooting | selecting | requesting | rebinding | bound | renewing
  deriving DecidableEq

/-- What a build is configured for; the addresses are `CONFIG_BOOTP_TIMEOFFSET`,
`CONFIG_BOOTP_DNS2` and `CONFIG_BOOTP_NTPSERVER` beside `CONFIG_CMD_SNTP`, and
`CONFIG_BOOTP_SERVERIP`. -/
structure Config where
  timeOffset : Bool
  dns2 : Bool
  ntpServer : Bool
  serverIp : Bool
  bootfilePrefix : Option (List UInt8)

structure Globals where
  dhcpState : DhcpState
  bootpID : List UInt8
  netServerIP : List UInt8
  netOurIP : List UInt8
  netOurSubnetMask : List UInt8
  netOurGatewayIP : List UInt8
  netOurDNSIP : List UInt8
  netOurDNS2IP : List UInt8
  netNtpServerIP : List UInt8
  netDHCPServerIP : List UInt8
  netTimeOffset : List UInt8
  dhcpLeasetime : List UInt8
  netBootFileSize : Nat
  netOurHostName : CharArray
  netOurRootPath : CharArray
  netOurNISDomain : CharArray
  bootFile : CharArray

def hostNameSize : Nat := 32
def rootPathSize : Nat := 64
def nisDomainSize : Nat := 32
def bootFileSize : Nat := 128

-- The places of the fields of `struct Bootp_t`.
def bpId : Nat := 4
def bpYiaddr : Nat := 16
def bpSiaddr : Nat := 20
def bpFile : Nat := 108
def bpVend : Nat := 236

def bootpHdrSize : Nat := bpVend + 312

def vendorMagic : List UInt8 := [0x63, 0x82, 0x53, 0x63]

def bytes (pkt : Packet) (start count : Nat) : List UInt8 :=
  (List.range count).map fun k => pkt (start + k)

def isZero (ip : List UInt8) : Bool := ip.all (· == 0)

/-! ## Checked copies -/

def read (len : Nat) (pkt : Packet) (start count : Nat) : Except Fault (List UInt8) :=
  if count = 0 ∨ start + count ≤ len then .ok (bytes pkt start count) else .error .read

def readByte (len : Nat) (pkt : Packet) (i : Nat) : Except Fault UInt8 :=
  if i < len then .ok (pkt i) else .error .read

def setString (s : List UInt8) (old : CharArray) : CharArray :=
  fun k => if k < s.length then s.getD k 0 else if k = s.length then 0 else old k

def storeString (room : Nat) (s : List UInt8) (old : CharArray) : Except Fault CharArray :=
  if s.length < room then .ok (setString s old) else .error .write

def truncateSz (maxlen curlen : Nat) : Nat := if maxlen ≤ curlen then maxlen - 1 else curlen

/-! ## Parameters outside the options -/

/-- The kinds of packets, of which `DHCP_OFFER` is `OP_BOOTREPLY`. -/
def bootpCheckPkt (g : Globals) (pkt : Packet) (dest src len : Nat) : Int :=
  if dest ≠ 68 ∨ src ≠ 67 then -1
  else if len < bpVend then -2
  else if pkt 0 ∉ [1, 2, 5, 6] then -3
  else if pkt 1 ≠ 1 then -4
  else if pkt 2 ≠ 6 then -5
  else if bytes pkt bpId 4 ≠ g.bootpID then -6
  else 0

/-- The string at some place, of which `n` bytes are in the packet. -/
def readString (pkt : Packet) : Nat → Nat → Except Fault (List UInt8)
  | 0, _ => .error .read
  | n + 1, i =>
    if pkt i = 0 then .ok []
    else do
      let s ← readString pkt n (i + 1)
      .ok (pkt i :: s)

def chQuote : UInt8 := 34

def filenameOf (src : List UInt8) (size : Nat) : List UInt8 :=
  match src with
  | [] => []
  | c :: rest =>
    if c = chQuote then (rest.take (size - 2)).takeWhile (· ≠ chQuote)
    else ((c :: rest).take (size - 1)).takeWhile (· ≠ chQuote)

def copyServerIP (cfg : Config) (len : Nat) (pkt : Packet) (g : Globals) : Except Fault Globals :=
  if cfg.serverIp then .ok g
  else
    (read len pkt bpSiaddr 4).map fun ip => if isZero ip then g else { g with netServerIP := ip }

def copyBootFile (len : Nat) (pkt : Packet) (g : Globals) : Except Fault Globals := do
  let file ← readString pkt (len - bpFile) bpFile
  if file = [] then .ok g
  else
    (storeString bootFileSize (filenameOf file bootFileSize) g.bootFile).map
      fun name => { g with bootFile := name }

def bootpCopyNetParams (cfg : Config) (len : Nat) (pkt : Packet) (g : Globals) :
    Except Fault Globals := do
  let g ← copyServerIP cfg len pkt g
  let ip ← read len pkt bpYiaddr 4
  copyBootFile len pkt { g with netOurIP := ip }

/-! ## Vendor fields, without DHCP -/

def copyString (len : Nat) (pkt : Packet) (ext size room : Nat) (array : CharArray) :
    Except Fault CharArray := do
  let s ← read len pkt (ext + 2) (truncateSz room size)
  storeString room s array

def fillString (len : Nat) (pkt : Packet) (ext size room : Nat) (array : CharArray) :
    Except Fault CharArray :=
  if array 0 = 0 then copyString len pkt ext size room array else .ok array

def fillIP (len : Nat) (pkt : Packet) (start : Nat) (ip : List UInt8) :
    Except Fault (List UInt8) :=
  if isZero ip then read len pkt start 4 else .ok ip

def bigEndian (s : List UInt8) : Nat := s.foldl (fun n b => n * 256 + b.toNat) 0

def vendorField (cfg : Config) (len : Nat) (pkt : Packet) (ext : Nat) (code : UInt8) (size : Nat)
    (g : Globals) : Except Fault Globals :=
  if code = 1 then
    (fillIP len pkt (ext + 2) g.netOurSubnetMask).map fun ip => { g with netOurSubnetMask := ip }
  else if code = 3 then
    (fillIP len pkt (ext + 2) g.netOurGatewayIP).map fun ip => { g with netOurGatewayIP := ip }
  else if code = 6 then do
    let g ← (fillIP len pkt (ext + 2) g.netOurDNSIP).map fun ip => { g with netOurDNSIP := ip }
    if cfg.dns2 ∧ 4 < size then
      (fillIP len pkt (ext + 6) g.netOurDNS2IP).map fun ip => { g with netOurDNS2IP := ip }
    else .ok g
  else if code = 12 then
    (fillString len pkt ext size hostNameSize g.netOurHostName).map
      fun name => { g with netOurHostName := name }
  else if code = 13 then
    if size = 2 then
      (read len pkt (ext + 2) 2).map fun s => { g with netBootFileSize := bigEndian s }
    else if size = 4 then
      (read len pkt (ext + 2) 4).map fun s => { g with netBootFileSize := bigEndian s }
    else .ok g
  else if code = 17 then
    (fillString len pkt ext size rootPathSize g.netOurRootPath).map
      fun path => { g with netOurRootPath := path }
  else if code = 40 then
    (fillString len pkt ext size nisDomainSize g.netOurNISDomain).map
      fun name => { g with netOurNISDomain := name }
  else if code = 42 ∧ cfg.ntpServer then
    (read len pkt (ext + 2) 4).map fun ip => { g with netNtpServerIP := ip }
  else .ok g

def bootpVendorFieldProcess (cfg : Config) (len : Nat) (pkt : Packet) (ext : Nat) (g : Globals) :
    Except Fault Globals := do
  let size ← readByte len pkt (ext + 1)
  let code ← readByte len pkt ext
  vendorField cfg len pkt ext code size.toNat { g with netBootFileSize := 0 }

/-- The field at `ext`, unless it goes on behind the end. -/
def fieldBefore (cfg : Config) (len : Nat) (pkt : Packet) (stop next ext : Nat) (g : Globals) :
    Except Fault Globals :=
  if next ≤ stop then bootpVendorFieldProcess cfg len pkt ext g else .ok g

def bootpVendorLoop (cfg : Config) (len : Nat) (pkt : Packet) (stop : Nat) :
    Nat → Nat → Globals → Except Fault Globals
  | 0, _, g => .ok g
  | fuel + 1, ext, g =>
    if ext < stop then do
      let code ← readByte len pkt ext
      if code = 0xff then .ok g
      else if code = 0 then bootpVendorLoop cfg len pkt stop fuel (ext + 1) g
      else
        let next := ext + (← readByte len pkt (ext + 1)).toNat + 2
        let g ← fieldBefore cfg len pkt stop next ext g
        bootpVendorLoop cfg len pkt stop fuel next g
    else .ok g

def bootpVendorProcess (cfg : Config) (len : Nat) (pkt : Packet) (ext size : Nat) (g : Globals) :
    Except Fault Globals :=
  bootpVendorLoop cfg len pkt (ext + size) size ext g

def bootpHandler (cfg : Config) (pkt : Packet) (dest src len : Nat) (g : Globals) :
    Except Fault Globals :=
  if bootpCheckPkt g pkt dest src len ≠ 0 then .ok g
  else do
    let g ← bootpCopyNetParams cfg len pkt g
    if bytes pkt bpVend 4 = vendorMagic then bootpVendorProcess cfg len pkt (bpVend + 4) len g
    else .ok g

/-! ## Options, with DHCP -/

/-- The variables and the packet, whose `bp_file` an option sets. -/
structure Parsed where
  globals : Globals
  pkt : Packet

def setFile (s : List UInt8) (pkt : Packet) : Packet :=
  fun i => if bpFile ≤ i then setString s (fun k => pkt (bpFile + k)) (i - bpFile) else pkt i

def storeFile (len : Nat) (popt oplen : Nat) (pkt : Packet) : Except Fault Packet := do
  let first ← readByte len pkt bpFile
  let size := truncateSz bootFileSize oplen
  if first = 0 ∧ 0 < size then do
    let s ← read len pkt (popt + 2) size
    if s.length < bootFileSize then .ok (setFile s pkt) else .error .write
  else .ok pkt

def dhcpGlobals (cfg : Config) (len : Nat) (pkt : Packet) (popt : Nat) (code : UInt8)
    (oplen : Nat) (g : Globals) : Except Fault Globals :=
  let ip := read len pkt (popt + 2) 4
  if code = 1 then ip.map fun ip => { g with netOurSubnetMask := ip }
  else if code = 2 ∧ cfg.timeOffset then ip.map fun ip => { g with netTimeOffset := ip }
  else if code = 3 then ip.map fun ip => { g with netOurGatewayIP := ip }
  else if code = 6 then do
    let g ← ip.map fun ip => { g with netOurDNSIP := ip }
    if cfg.dns2 ∧ 4 < oplen then
      (read len pkt (popt + 6) 4).map fun ip => { g with netOurDNS2IP := ip }
    else .ok g
  else if code = 12 then
    (copyString len pkt popt oplen hostNameSize g.netOurHostName).map
      fun name => { g with netOurHostName := name }
  else if code = 17 then
    (copyString len pkt popt oplen rootPathSize g.netOurRootPath).map
      fun path => { g with netOurRootPath := path }
  else if code = 42 ∧ cfg.ntpServer then ip.map fun ip => { g with netNtpServerIP := ip }
  else if code = 51 then ip.map fun time => { g with dhcpLeasetime := time }
  else if code = 54 then ip.map fun ip => { g with netDHCPServerIP := ip }
  else .ok g

def dhcpOption (cfg : Config) (len popt : Nat) (code : UInt8) (oplen : Nat) (s : Parsed) :
    Except Fault Parsed :=
  if code = 67 then (storeFile len popt oplen s.pkt).map fun pkt => { s with pkt := pkt }
  else
    (dhcpGlobals cfg len s.pkt popt code oplen s.globals).map fun g => { s with globals := g }

def dhcpOptionsLoop (cfg : Config) (len stop : Nat) : Nat → Nat → Parsed → Except Fault Parsed
  | 0, _, s => .ok s
  | fuel + 1, popt, s =>
    if popt < stop then do
      let code ← readByte len s.pkt popt
      if code = 0xff then .ok s
      else
        let oplen := (← readByte len s.pkt (popt + 1)).toNat
        let s ← dhcpOption cfg len popt code oplen s
        dhcpOptionsLoop cfg len stop fuel (popt + oplen + 2) s
    else .ok s

def dhcpOptionsProcess (cfg : Config) (len popt : Nat) (s : Parsed) : Except Fault Parsed :=
  dhcpOptionsLoop cfg len (popt + bootpHdrSize) bootpHdrSize popt s

def messageTypeLoop (len : Nat) (pkt : Packet) : Nat → Nat → Except Fault (Option UInt8)
  | 0, _ => .error .read
  | fuel + 1, popt => do
    let code ← readByte len pkt popt
    if code = 0xff then .ok none
    else if code = 53 then .ok (some (← readByte len pkt (popt + 2)))
    else messageTypeLoop len pkt fuel (popt + (← readByte len pkt (popt + 1)).toNat + 2)

def dhcpMessageType (len : Nat) (pkt : Packet) (popt : Nat) : Except Fault (Option UInt8) := do
  if (← read len pkt popt 4) ≠ vendorMagic then .ok none
  else messageTypeLoop len pkt (len + 1) (popt + 4)

def dhcpAck : UInt8 := 5

def dhcpOptions (cfg : Config) (len : Nat) (s : Parsed) : Except Fault Parsed :=
  if bytes s.pkt bpVend 4 = vendorMagic then dhcpOptionsProcess cfg len (bpVend + 4) s else .ok s

def hasPrefix (cfg : Config) (pkt : Packet) : Bool :=
  match cfg.bootfilePrefix with
  | none => true
  | some text => text = (bytes pkt bpFile text.length)

def dhcpHandler (cfg : Config) (pkt : Packet) (dest src len : Nat) (g : Globals) :
    Except Fault Globals :=
  if bootpCheckPkt g pkt dest src len ≠ 0 then .ok g
  else
    match g.dhcpState with
    | .selecting =>
      if hasPrefix cfg pkt then do
        let s ← dhcpOptions cfg len ⟨{ g with dhcpState := .requesting }, pkt⟩
        .ok s.globals
      else .ok g
    | .requesting => do
      if (← dhcpMessageType len pkt bpVend) = some dhcpAck then
        let s ← dhcpOptions cfg len ⟨g, pkt⟩
        let g ← bootpCopyNetParams cfg len s.pkt s.globals
        .ok { g with dhcpState := .bound }
      else .ok g
    | _ => .ok g

end UBoot.Net.Bootp
