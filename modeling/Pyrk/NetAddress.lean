import Mathlib.Data.List.Basic

/-!
# Service addresses and their classification

Addresses are sixteen bytes in network order with a port. The tests follow
the byte positions of the node's own classification, counted from the end
of the address.
-/

namespace Pyrk.NetAddress

/-- A network address with a port. -/
structure CService where
  /-- Address bytes in network order; mapped for four byte addresses. -/
  ip : List UInt8
  port : ℕ
  ip_length : ip.length=16
  deriving DecidableEq

/-- The address that the default constructor builds. -/
def CService.null : CService := ⟨List.replicate 16 0,0,rfl⟩

/-- Leading bytes of a mapped four byte address. -/
def pchIPv4 : List UInt8 := [0,0,0,0,0,0,0,0,0,0,0xff,0xff]

/-- Leading bytes of an onion address. -/
def pchOnionCat : List UInt8 := [0xFD,0x87,0xD8,0x7E,0xEB,0x43]

/-- A mapped address from four bytes and a port. -/
def CService.ipv4 (a b c d : UInt8) (port : ℕ) : CService := ⟨pchIPv4++[a,b,c,d],port,rfl⟩

variable (addr : CService)

/-- Byte counted from the end of the address. -/
def getByte (n : ℕ) : UInt8 := addr.ip.getD (15-n) 0

/-- Whether the address starts with the given bytes. -/
def startsWith (bytes : List UInt8) : Bool := addr.ip.take bytes.length=bytes

/-- Mapped four byte address. -/
def isIPv4 : Bool := startsWith addr pchIPv4

/-- Onion address. -/
def isTor : Bool := startsWith addr pchOnionCat

/-- Private networks. -/
def isRFC1918 : Bool :=
  isIPv4 addr && (getByte addr 3=10 || (getByte addr 3=192 && getByte addr 2=168) ||
    (getByte addr 3=172 && (16≤getByte addr 2 && getByte addr 2≤31)))

/-- Network interconnect benchmarks. -/
def isRFC2544 : Bool :=
  isIPv4 addr && getByte addr 3=198 && (getByte addr 2=18 || getByte addr 2=19)

/-- Four byte autoconfiguration. -/
def isRFC3927 : Bool :=
  isIPv4 addr && (getByte addr 3=169 && getByte addr 2=254)

/-- Carrier level address translation. -/
def isRFC6598 : Bool :=
  isIPv4 addr && getByte addr 3=100 && 64≤getByte addr 2 && getByte addr 2≤127

/-- Four byte documentation addresses. -/
def isRFC5737 : Bool :=
  isIPv4 addr && ((getByte addr 3=192 && getByte addr 2=0 && getByte addr 1=2) ||
    (getByte addr 3=198 && getByte addr 2=51 && getByte addr 1=100) ||
    (getByte addr 3=203 && getByte addr 2=0 && getByte addr 1=113))

/-- Sixteen byte documentation addresses. -/
def isRFC3849 : Bool :=
  getByte addr 15=0x20 && getByte addr 14=0x01 && getByte addr 13=0x0D && getByte addr 12=0xB8

/-- Link local autoconfiguration. -/
def isRFC4862 : Bool := startsWith addr [0xFE,0x80,0,0,0,0,0,0]

/-- Unique local addresses. -/
def isRFC4193 : Bool := getByte addr 15 &&& 0xFE=0xFC

/-- Overlay routable identifiers. -/
def isRFC4843 : Bool :=
  getByte addr 15=0x20 && getByte addr 14=0x01 && getByte addr 13=0x00 &&
    getByte addr 12 &&& 0xF0=0x10

/-- Loopback addresses. -/
def isLocal : Bool :=
  (isIPv4 addr && (getByte addr 3=127 || getByte addr 3=0)) ||
    addr.ip=[0,0,0,0,0,0,0,0,0,0,0,0,0,0,0,1]

/-- Addresses that can name a host. -/
def isValid : Bool :=
  if startsWith addr (pchIPv4.drop 3) then false
  else if addr.ip=List.replicate 16 0 then false
  else if isRFC3849 addr then false
  else if isIPv4 addr && (addr.ip.drop 12=[0xff,0xff,0xff,0xff] || addr.ip.drop 12=[0,0,0,0])
    then false
  else true

/-- Addresses reachable from the public network. Private networks count when
the node allows them. -/
def isRoutable (fAllowPrivateNet : Bool) (addr : CService) : Bool :=
  if !isValid addr then false
  else if !fAllowPrivateNet && isRFC1918 addr then false
  else !(isRFC2544 addr || isRFC3927 addr || isRFC4862 addr || isRFC6598 addr || isRFC5737 addr ||
    (isRFC4193 addr && !isTor addr) || isRFC4843 addr || isLocal addr)

end Pyrk.NetAddress
